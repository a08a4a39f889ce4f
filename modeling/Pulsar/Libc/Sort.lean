import Mathlib.Data.List.Perm.Basic
import Mathlib.Data.List.Nodup
import Mathlib.Tactic.Linarith
import Pulsar.Lib.Bytes

/-!
# Sorting in place

`qsort` of the C library: quicksort with the median of three down to eight elements, then insertion.
The array is bytes of memory, `n` elements of `sz` bytes from `b` on, and a comparison sees the
bytes of two elements.

* `qsort_sorts`: it returns, the array holds the same elements in order, and no byte outside the
  array changes.
-/

namespace Pulsar.Libc

/-- The bytes of an element. -/
abbrev Elem (sz : Nat) := Fin sz → UInt8

/-- The element at `p`. -/
def elem (sz : Nat) (m : Nat → UInt8) (p : Nat) : Elem sz := fun i => m (p + i)

/-- `while(n--){ t = *a; *a++ = *b; *b++ = t; }`. -/
def swap_bytes (m : Nat → UInt8) (a b : Nat) : Nat → Nat → UInt8
  | 0 => m
  | n + 1 =>
    let t := m a
    let m' : Nat → UInt8 := fun x => if x = a then m b else m x
    swap_bytes (fun x => if x = b then t else m' x) (a + 1) (b + 1) n

section

variable (sz : Nat) (cmp : Elem sz → Elem sz → Int)

/-- The median of the first, the middle and the last element goes to the end. -/
def median (m : Nat → UInt8) (b n : Nat) : Nat → UInt8 :=
  let mid := b + n / 2 * sz
  let last := b + (n - 1) * sz
  let m := if cmp (elem sz m mid) (elem sz m b) < 0 then swap_bytes m mid b sz else m
  let m := if cmp (elem sz m last) (elem sz m b) < 0 then swap_bytes m last b sz else m
  let m := if cmp (elem sz m last) (elem sz m mid) < 0 then swap_bytes m last mid sz else m
  swap_bytes m mid last sz

/-- `k` turns of the loop on `j` that takes what is less than the pivot to the front. -/
def scan (b piv : Nat) (m : Nat → UInt8) (i j : Nat) : Nat → (Nat → UInt8) × Nat
  | 0 => (m, i)
  | k + 1 =>
    if cmp (elem sz m (b + j * sz)) (elem sz m piv) < 0 then
      scan b piv (swap_bytes m (b + i * sz) (b + j * sz) sz) (i + 1) (j + 1) k
    else scan b piv m i (j + 1) k

/-- The partition of an array: the memory and the place of the pivot. -/
def split (m : Nat → UInt8) (b n : Nat) : (Nat → UInt8) × Nat :=
  let piv := b + (n - 1) * sz
  let r := scan sz cmp b piv (median sz cmp m b n) 0 0 (n - 1)
  (swap_bytes r.1 (b + r.2 * sz) piv sz, r.2)

/-- The loop on `j` that takes element `j` down to its place. -/
def sift (b : Nat) (m : Nat → UInt8) : Nat → Nat → UInt8
  | 0 => m
  | j + 1 =>
    if cmp (elem sz m (b + j * sz)) (elem sz m (b + (j + 1) * sz)) > 0 then
      sift b (swap_bytes m (b + j * sz) (b + (j + 1) * sz) sz) j
    else m

/-- `k` turns of the loop on `i` of the insertion. -/
def insertion (b : Nat) (m : Nat → UInt8) (i : Nat) : Nat → Nat → UInt8
  | 0 => m
  | k + 1 => insertion b (sift sz cmp b m i) (i + 1) k

theorem scan_le (b piv : Nat) (m : Nat → UInt8) (i j k : Nat) :
    (scan sz cmp b piv m i j k).2 ≤ i + k := by
  induction k generalizing m i j with
  | zero => exact Nat.le_refl i
  | succ k ih =>
      unfold scan
      split
      · exact (ih _ _ _).trans (by omega)
      · exact (ih _ _ _).trans (by omega)

theorem split_le (m : Nat → UInt8) (b n : Nat) : (split sz cmp m b n).2 ≤ n - 1 := by
  have := scan_le sz cmp b (b + (n - 1) * sz) (median sz cmp m b n) 0 0 (n - 1)
  simpa only [split, Nat.zero_add] using this

/-- The loop goes on with the larger side, and the call is for the smaller one. -/
def qsort (m : Nat → UInt8) (b n : Nat) : Nat → UInt8 :=
  if n > 8 then
    let r := split sz cmp m b n
    let i := r.2
    if i < n - i - 1 then qsort (qsort r.1 b i) (b + (i + 1) * sz) (n - (i + 1))
    else qsort (qsort r.1 (b + (i + 1) * sz) (n - i - 1)) b i
  else insertion sz cmp b m 1 (n - 1)
termination_by n
decreasing_by
  all_goals have := split_le sz cmp m b n
  all_goals omega

end

/-! ### Swaps -/

theorem swap_bytes_same (m : Nat → UInt8) : ∀ n a, swap_bytes m a a n = m
  | 0, _ => rfl
  | n + 1, a => by
      have hm : (fun x => if x = a then m a else if x = a then m a else m x) = m := by
        funext x
        split_ifs with hx
        · rw [hx]
        · rfl
      rw [swap_bytes]
      simp only [hm]
      exact swap_bytes_same m n (a + 1)

theorem swap_bytes_apart : ∀ (n a b : Nat) (m : Nat → UInt8), a + n ≤ b ∨ b + n ≤ a → ∀ x,
    swap_bytes m a b n x =
      if a ≤ x ∧ x < a + n then m (b + (x - a))
      else if b ≤ x ∧ x < b + n then m (a + (x - b)) else m x
  | 0, a, b, m, _, x => by
      rw [swap_bytes, if_neg (by omega), if_neg (by omega)]
  | n + 1, a, b, m, h, x => by
      rw [swap_bytes, swap_bytes_apart n (a + 1) (b + 1) _ (by omega) x]
      dsimp only
      by_cases ha : a + 1 ≤ x ∧ x < a + 1 + n
      · have hx : b + 1 + (x - (a + 1)) = b + (x - a) := by omega
        have hb : b + (x - a) ≠ b := by omega
        have hne : b + (x - a) ≠ a := by omega
        rw [if_pos ha, hx, if_neg hb, if_neg hne, if_pos (by omega)]
      rw [if_neg ha]
      by_cases hb : b + 1 ≤ x ∧ x < b + 1 + n
      · have hx : a + 1 + (x - (b + 1)) = a + (x - b) := by omega
        have ha' : a + (x - b) ≠ b := by omega
        have hne : a + (x - b) ≠ a := by omega
        have hout : ¬ (a ≤ x ∧ x < a + (n + 1)) := by omega
        rw [if_pos hb, hx, if_neg ha', if_neg hne, if_neg hout, if_pos (by omega)]
      rw [if_neg hb]
      rcases eq_or_ne x b with rfl | hxb
      · rw [if_pos rfl, if_neg (by omega), if_pos (by omega), Nat.sub_self, Nat.add_zero]
      rw [if_neg hxb]
      rcases eq_or_ne x a with rfl | hxa
      · rw [if_pos rfl, if_pos (by omega), Nat.sub_self, Nat.add_zero]
      rw [if_neg hxa, if_neg (by omega), if_neg (by omega)]

theorem place_apart {sz i j : Nat} (b : Nat) (h : i ≠ j) :
    b + i * sz + sz ≤ b + j * sz ∨ b + j * sz + sz ≤ b + i * sz := by
  rcases Nat.lt_or_gt_of_ne h with h | h
  · have := Nat.mul_le_mul_right sz (Nat.succ_le_of_lt h)
    rw [Nat.succ_mul] at this
    omega
  · have := Nat.mul_le_mul_right sz (Nat.succ_le_of_lt h)
    rw [Nat.succ_mul] at this
    omega

theorem elem_swap (sz : Nat) (m : Nat → UInt8) (b i j k : Nat) :
    elem sz (swap_bytes m (b + i * sz) (b + j * sz) sz) (b + k * sz) =
      elem sz m (b + Equiv.swap i j k * sz) := by
  rcases eq_or_ne i j with rfl | hij
  · rw [swap_bytes_same, Equiv.swap_self, Equiv.refl_apply]
  funext t
  have ht := t.isLt
  have happ := @place_apart sz _ _ b hij
  simp only [elem]
  rw [swap_bytes_apart sz _ _ m happ]
  rcases eq_or_ne k i with rfl | hki
  · rw [Equiv.swap_apply_left, if_pos (by omega), Nat.add_sub_cancel_left]
  have hi := @place_apart sz _ _ b hki
  rcases eq_or_ne k j with rfl | hkj
  · rw [Equiv.swap_apply_right, if_neg (by omega), if_pos (by omega), Nat.add_sub_cancel_left]
  have hj := @place_apart sz _ _ b hkj
  rw [Equiv.swap_apply_of_ne_of_ne hki hkj, if_neg (by omega), if_neg (by omega)]

/-! ### Arrays -/

/-- The elements of an array. -/
def elems (sz : Nat) (m : Nat → UInt8) (b n : Nat) : List (Elem sz) :=
  (List.range n).map fun k => elem sz m (b + k * sz)

/-- The same elements in another order, and nothing outside. -/
structure Shuffled (sz b n : Nat) (m m' : Nat → UInt8) : Prop where
  perm : (elems sz m' b n).Perm (elems sz m b n)
  frame : ∀ x, x < b ∨ b + n * sz ≤ x → m' x = m x

theorem perm_map_swap {α : Type} (f : Nat → α) {i j n : Nat} (hi : i < n) (hj : j < n) :
    ((List.range n).map fun k => f (Equiv.swap i j k)).Perm ((List.range n).map f) := by
  have hswap : ((List.range n).map (Equiv.swap i j)).Perm (List.range n) := by
    have hnodup := (List.nodup_range (n := n)).map (Equiv.swap i j).injective
    refine (List.perm_ext_iff_of_nodup hnodup List.nodup_range).mpr fun k => ?_
    simp only [List.mem_map, List.mem_range]
    constructor
    · rintro ⟨k, hk, rfl⟩
      rw [Equiv.swap_apply_def]
      split_ifs <;> assumption
    · intro hk
      refine ⟨Equiv.swap i j k, ?_, Equiv.swap_apply_self i j k⟩
      rw [Equiv.swap_apply_def]
      split_ifs <;> assumption
  simpa only [List.map_map, Function.comp_def] using hswap.map f

theorem elems_add (sz : Nat) (m : Nat → UInt8) (b n n' : Nat) :
    elems sz m b (n + n') = elems sz m b n ++ elems sz m (b + n * sz) n' := by
  simp only [elems, List.range_add, List.map_append, List.map_map, Function.comp_def, Nat.add_mul,
    Nat.add_assoc]

theorem elems_congr {sz b n : Nat} {m m' : Nat → UInt8}
    (h : ∀ x, b ≤ x → x < b + n * sz → m' x = m x) : elems sz m' b n = elems sz m b n := by
  refine List.map_congr_left fun k hk => funext fun t => h _ (by omega) ?_
  have := Nat.mul_le_mul_right sz (Nat.succ_le_of_lt (List.mem_range.mp hk))
  rw [Nat.succ_mul] at this
  omega

namespace Shuffled

variable {sz b n : Nat} {m m' m'' : Nat → UInt8}

theorem refl (m : Nat → UInt8) : Shuffled sz b n m m := ⟨.refl _, fun _ _ => rfl⟩

theorem trans (h : Shuffled sz b n m m') (h' : Shuffled sz b n m' m'') : Shuffled sz b n m m'' :=
  ⟨h'.perm.trans h.perm, fun x hx => (h'.frame x hx).trans (h.frame x hx)⟩

theorem swap (m : Nat → UInt8) {i j : Nat} (hi : i < n) (hj : j < n) :
    Shuffled sz b n m (swap_bytes m (b + i * sz) (b + j * sz) sz) := by
  refine ⟨?_, fun x hx => ?_⟩
  · simp only [elems, elem_swap]
    exact perm_map_swap (fun k => elem sz m (b + k * sz)) hi hj
  · rcases eq_or_ne i j with rfl | hij
    · rw [swap_bytes_same]
    have hin : ∀ k < n, b + k * sz + sz ≤ b + n * sz := fun k hk => by
      have := Nat.mul_le_mul_right sz (Nat.succ_le_of_lt hk)
      rw [Nat.succ_mul] at this
      omega
    have hi' := hin i hi
    have hj' := hin j hj
    rw [swap_bytes_apart sz _ _ m (place_apart b hij), if_neg (by omega), if_neg (by omega)]

theorem sub {o k : Nat} (hk : o + k ≤ n) (h : Shuffled sz (b + o * sz) k m m') :
    Shuffled sz b n m m' := by
  obtain ⟨r, rfl⟩ := Nat.exists_eq_add_of_le hk
  have hlen : (o + k + r) * sz = o * sz + k * sz + r * sz := by rw [Nat.add_mul, Nat.add_mul]
  refine ⟨?_, fun x hx => h.frame x (by omega)⟩
  rw [elems_add, elems_add, elems_add, elems_add]
  refine ((List.Perm.append (.of_eq (elems_congr fun x _ hx => ?_)) h.perm).append
    (.of_eq (elems_congr fun x hx _ => ?_)))
  · exact h.frame x (.inl (by omega))
  · exact h.frame x (.inr (by rw [Nat.add_mul] at hx; omega))

end Shuffled

/-! ### Order -/

/-- A comparison that is a total preorder: less one way round is greater the other way round. -/
structure TotalPreorder {sz : Nat} (cmp : Elem sz → Elem sz → Int) : Prop where
  swap : ∀ x y, cmp x y < 0 ↔ 0 < cmp y x
  trans : ∀ x y z, cmp x y ≤ 0 → cmp y z ≤ 0 → cmp x z ≤ 0

def InOrder {sz : Nat} (cmp : Elem sz → Elem sz → Int) (l : List (Elem sz)) : Prop :=
  l.Pairwise fun x y => cmp x y ≤ 0

variable {sz : Nat} {cmp : Elem sz → Elem sz → Int} {b n : Nat} {m m' : Nat → UInt8}

theorem inOrder_elems : InOrder cmp (elems sz m b n) ↔
    ∀ p q, p < q → q < n → cmp (elem sz m (b + p * sz)) (elem sz m (b + q * sz)) ≤ 0 := by
  rw [InOrder, elems, List.pairwise_map, List.pairwise_iff_getElem]
  simp only [List.getElem_range, List.length_range]
  exact ⟨fun h p q hpq hq => h p q (hpq.trans hq) hq hpq, fun h p q _ hq hpq => h p q hpq hq⟩

/-! ### Insertion -/

theorem sift_shuffled {j : Nat} (h : j < n) : Shuffled sz b n m (sift sz cmp b m j) := by
  induction j generalizing m with
  | zero => exact .refl m
  | succ j ih =>
      unfold sift
      split
      · exact (Shuffled.swap m (by omega) h).trans (ih (by omega))
      · exact .refl m

/-- Element `j` goes down: the elements up to `i` are in order but for those before `j` with it. -/
theorem sift_inOrder (hc : TotalPreorder cmp) {i j : Nat} (hj : j ≤ i)
    (h : ∀ p q, p < q → q ≤ i → q ≠ j →
      cmp (elem sz m (b + p * sz)) (elem sz m (b + q * sz)) ≤ 0) :
    InOrder cmp (elems sz (sift sz cmp b m j) b (i + 1)) := by
  induction j generalizing m with
  | zero => exact inOrder_elems.mpr fun p q hpq hq => h p q hpq (by omega) (by omega)
  | succ j ih =>
      unfold sift
      split
      next hgt =>
        refine ih (by omega) fun p q hpq hq hqj => ?_
        rw [elem_swap, elem_swap]
        have hless := (hc.swap _ _).mpr hgt
        rcases eq_or_ne q (j + 1) with rfl | hq1
        · rw [Equiv.swap_apply_right]
          rcases eq_or_ne p j with rfl | hpj
          · rw [Equiv.swap_apply_left]
            exact hless.le
          · rw [Equiv.swap_apply_of_ne_of_ne hpj (by omega)]
            exact h p j (by omega) (by omega) (by omega)
        · rw [Equiv.swap_apply_of_ne_of_ne hqj hq1]
          have hto : Equiv.swap j (j + 1) p < q := by
            rw [Equiv.swap_apply_def]
            split_ifs <;> omega
          exact h _ q hto hq hq1
      next hle =>
        have hle : cmp (elem sz m (b + j * sz)) (elem sz m (b + (j + 1) * sz)) ≤ 0 := not_lt.mp hle
        refine inOrder_elems.mpr fun p q hpq hq => ?_
        rcases eq_or_ne q (j + 1) with rfl | hq1
        · rcases eq_or_ne p j with rfl | hpj
          · exact hle
          · exact hc.trans _ _ _ (h p j (by omega) (by omega) (by omega)) hle
        · exact h p q hpq (by omega) hq1

theorem insertion_sorts (hc : TotalPreorder cmp) {i k : Nat} (hn : i + k = n ∨ k = 0)
    (h : InOrder cmp (elems sz m b i)) :
    Shuffled sz b n m (insertion sz cmp b m i k) ∧
      InOrder cmp (elems sz (insertion sz cmp b m i k) b (i + k)) := by
  induction k generalizing m i with
  | zero => exact ⟨.refl m, h⟩
  | succ k ih =>
      have hsift : InOrder cmp (elems sz (sift sz cmp b m i) b (i + 1)) :=
        sift_inOrder hc (Nat.le_refl i) fun p q hpq hq hqi =>
          inOrder_elems.mp h p q hpq (by omega)
      obtain ⟨hsh, hord⟩ := ih (by omega) hsift
      refine ⟨(sift_shuffled (by omega)).trans hsh, ?_⟩
      rwa [Nat.add_assoc, Nat.add_comm 1] at hord

/-! ### Partition -/

/-- The elements before `i` are less than the one at `n - 1`, and those from `i` to `j` are not. -/
structure Parted (cmp : Elem sz → Elem sz → Int) (m : Nat → UInt8) (b i j p : Nat) : Prop where
  less : ∀ t < i, cmp (elem sz m (b + t * sz)) (elem sz m (b + p * sz)) < 0
  rest : ∀ t, i ≤ t → t < j → ¬ cmp (elem sz m (b + t * sz)) (elem sz m (b + p * sz)) < 0

theorem scan_spec {i j k p : Nat} (hij : i ≤ j) (hp : j + k = p) (hn : p < n)
    (h : Parted cmp m b i j p) :
    Shuffled sz b n m (scan sz cmp b (b + p * sz) m i j k).1 ∧
      Parted cmp (scan sz cmp b (b + p * sz) m i j k).1 b
        (scan sz cmp b (b + p * sz) m i j k).2 p p := by
  induction k generalizing m i j with
  | zero =>
      obtain rfl : j = p := hp
      exact ⟨.refl m, h⟩
  | succ k ih =>
      unfold scan
      split
      next hlt =>
        have hpiv : Equiv.swap i j p = p := Equiv.swap_apply_of_ne_of_ne (by omega) (by omega)
        have hsw : Shuffled sz b n m (swap_bytes m (b + i * sz) (b + j * sz) sz) :=
          .swap m (by omega) (by omega)
        refine (ih (by omega) (by omega) ⟨fun t ht => ?_, fun t ht htj => ?_⟩).imp_left hsw.trans
        · rw [elem_swap, elem_swap, hpiv]
          rcases eq_or_ne t i with rfl | hti
          · rwa [Equiv.swap_apply_left]
          · rw [Equiv.swap_apply_of_ne_of_ne hti (by omega)]
            exact h.less t (by omega)
        · rw [elem_swap, elem_swap, hpiv]
          rcases eq_or_ne t j with rfl | htj'
          · rw [Equiv.swap_apply_right]
            exact h.rest i (Nat.le_refl i) (by omega)
          · rw [Equiv.swap_apply_of_ne_of_ne (by omega) htj']
            exact h.rest t (by omega) (by omega)
      next hge =>
        refine ih (by omega) (by omega) ⟨h.less, fun t ht htj => ?_⟩
        rcases eq_or_ne t j with rfl | htj'
        · exact hge
        · exact h.rest t ht (by omega)

theorem median_shuffled (h : 0 < n) : Shuffled sz b n m (median sz cmp m b n) := by
  have hstep : ∀ (c : Prop) [Decidable c] (m : Nat → UInt8) {i j : Nat}, i < n → j < n →
      Shuffled sz b n m (if c then swap_bytes m (b + i * sz) (b + j * sz) sz else m) := by
    intro c _ m i j hi hj
    split
    · exact .swap m hi hj
    · exact .refl m
  have hfirst : ∀ (c : Prop) [Decidable c] (m : Nat → UInt8) {i : Nat}, i < n →
      Shuffled sz b n m (if c then swap_bytes m (b + i * sz) b sz else m) := by
    intro c _ m i hi
    simpa only [Nat.zero_mul, Nat.add_zero] using hstep c m hi h
  have hmid : n / 2 < n := Nat.div_lt_self h (by decide)
  have hlast : n - 1 < n := by omega
  exact (((hfirst _ m hmid).trans (hfirst _ _ hlast)).trans (hstep _ _ hlast hmid)).trans
    (.swap _ hmid hlast)

/-- The pivot is in its place, with what is less before it and the rest behind. -/
theorem split_parts (hn : 0 < n) :
    Shuffled sz b n m (split sz cmp m b n).1 ∧
      (∀ t < (split sz cmp m b n).2,
        cmp (elem sz (split sz cmp m b n).1 (b + t * sz))
          (elem sz (split sz cmp m b n).1 (b + (split sz cmp m b n).2 * sz)) < 0) ∧
      ∀ t, (split sz cmp m b n).2 < t → t < n →
        ¬ cmp (elem sz (split sz cmp m b n).1 (b + t * sz))
          (elem sz (split sz cmp m b n).1 (b + (split sz cmp m b n).2 * sz)) < 0 := by
  have hle := split_le sz cmp m b n
  have hmed : Shuffled sz b n m (median sz cmp m b n) := median_shuffled hn
  have hscan := @scan_spec sz cmp b n (median sz cmp m b n) _ _ _ _
    (Nat.le_refl 0) (Nat.zero_add (n - 1)) (by omega)
    ⟨fun t ht => absurd ht (Nat.not_lt_zero t), fun t _ ht => absurd ht (Nat.not_lt_zero t)⟩
  unfold split at hle ⊢
  dsimp only at hle ⊢
  generalize scan sz cmp b (b + (n - 1) * sz) (median sz cmp m b n) 0 0 (n - 1) = r at hle hscan ⊢
  obtain ⟨hsh, hpart⟩ := hscan
  have hpiv : Equiv.swap r.2 (n - 1) r.2 = n - 1 := Equiv.swap_apply_left _ _
  refine ⟨(hmed.trans hsh).trans (.swap _ (by omega) (by omega)), fun t ht => ?_,
    fun t ht htn => ?_⟩
  · rw [elem_swap, elem_swap, hpiv, Equiv.swap_apply_of_ne_of_ne (by omega) (by omega)]
    exact hpart.less t ht
  · rw [elem_swap, elem_swap, hpiv]
    rcases eq_or_ne t (n - 1) with rfl | htl
    · rw [Equiv.swap_apply_right]
      exact hpart.rest _ (Nat.le_refl _) ht
    · rw [Equiv.swap_apply_of_ne_of_ne (by omega) htl]
      exact hpart.rest t (by omega) (by omega)

/-! ### The whole sort -/

/-- An array is what is before an element, that element, and what is behind. -/
theorem elems_split (sz : Nat) (m : Nat → UInt8) (b : Nat) {i : Nat} (hi : i < n) :
    elems sz m b n = elems sz m b i ++
      elem sz m (b + i * sz) :: elems sz m (b + (i + 1) * sz) (n - (i + 1)) := by
  obtain ⟨r, rfl⟩ := Nat.exists_eq_add_of_le (Nat.succ_le_of_lt hi)
  have hone : elems sz m (b + i * sz) 1 = [elem sz m (b + i * sz)] := by
    simp [elems]
  have hnext : b + i * sz + 1 * sz = b + (i + 1) * sz := by
    rw [Nat.one_mul, Nat.succ_mul, Nat.add_assoc]
  rw [Nat.succ_eq_add_one, Nat.add_assoc i 1 r, elems_add, elems_add sz m _ 1 r, hone, hnext]
  rw [show i + (1 + r) - (i + 1) = r by omega]
  rfl

theorem join (hc : TotalPreorder cmp) {i : Nat} (hi : i < n)
    (hless : ∀ t < i, cmp (elem sz m (b + t * sz)) (elem sz m (b + i * sz)) < 0)
    (hrest : ∀ t, i < t → t < n → ¬ cmp (elem sz m (b + t * sz)) (elem sz m (b + i * sz)) < 0)
    (hp : elem sz m' (b + i * sz) = elem sz m (b + i * sz))
    (hl : (elems sz m' b i).Perm (elems sz m b i))
    (hr : (elems sz m' (b + (i + 1) * sz) (n - (i + 1))).Perm
      (elems sz m (b + (i + 1) * sz) (n - (i + 1))))
    (hlo : InOrder cmp (elems sz m' b i))
    (hro : InOrder cmp (elems sz m' (b + (i + 1) * sz) (n - (i + 1)))) :
    InOrder cmp (elems sz m' b n) := by
  have hbefore : ∀ x ∈ elems sz m' b i, cmp x (elem sz m (b + i * sz)) ≤ 0 := by
    intro x hx
    obtain ⟨t, ht, rfl⟩ := List.mem_map.mp (hl.mem_iff.mp hx)
    exact (hless t (List.mem_range.mp ht)).le
  have hbehind : ∀ y ∈ elems sz m' (b + (i + 1) * sz) (n - (i + 1)),
      cmp (elem sz m (b + i * sz)) y ≤ 0 := by
    intro y hy
    obtain ⟨t, ht, rfl⟩ := List.mem_map.mp (hr.mem_iff.mp hy)
    have ht := List.mem_range.mp ht
    have hge := hrest (i + 1 + t) (by omega) (by omega)
    rw [hc.swap, not_lt, Nat.add_mul, ← Nat.add_assoc] at hge
    exact hge
  rw [InOrder, elems_split sz m' b hi, hp, List.pairwise_append, List.pairwise_cons]
  refine ⟨hlo, ⟨hbehind, hro⟩, fun x hx y hy => ?_⟩
  rcases List.mem_cons.mp hy with rfl | hy
  · exact hbefore x hx
  · exact hc.trans _ _ _ (hbefore x hx) (hbehind y hy)

/-- An array and the order of it. -/
def Sorts (cmp : Elem sz → Elem sz → Int) (b n : Nat) (m m' : Nat → UInt8) : Prop :=
  Shuffled sz b n m m' ∧ InOrder cmp (elems sz m' b n)

theorem Sorts.sides (hc : TotalPreorder cmp) (hn : 0 < n) {m₂ m₃ : Nat → UInt8} {i : Nat}
    (hi : (split sz cmp m b n).2 = i)
    (h : Sorts cmp b i (split sz cmp m b n).1 m₂ ∧
        Sorts cmp (b + (i + 1) * sz) (n - (i + 1)) m₂ m₃ ∨
      Sorts cmp (b + (i + 1) * sz) (n - (i + 1)) (split sz cmp m b n).1 m₂ ∧
        Sorts cmp b i m₂ m₃) : Sorts cmp b n m m₃ := by
  have hle := split_le sz cmp m b n
  obtain ⟨hsh, hless, hrest⟩ := @split_parts sz cmp b n m hn
  rw [hi] at hle hless hrest
  generalize (split sz cmp m b n).1 = m₁ at *
  have hnext : b + (i + 1) * sz = b + i * sz + sz := by rw [Nat.succ_mul, Nat.add_assoc]
  -- what the sort of a side leaves of the pivot and the other side
  have hleft : ∀ {m m'}, Shuffled sz b i m m' → elem sz m' (b + i * sz) = elem sz m (b + i * sz) ∧
      elems sz m' (b + (i + 1) * sz) (n - (i + 1)) = elems sz m (b + (i + 1) * sz) (n - (i + 1)) :=
    fun hs => ⟨funext fun t => hs.frame _ (.inr (by omega)),
      elems_congr fun x hx _ => hs.frame x (.inr (by omega))⟩
  have hright : ∀ {m m'}, Shuffled sz (b + (i + 1) * sz) (n - (i + 1)) m m' →
      elem sz m' (b + i * sz) = elem sz m (b + i * sz) ∧ elems sz m' b i = elems sz m b i :=
    fun hs => ⟨funext fun t => hs.frame _ (.inl (by have := t.isLt; omega)),
      elems_congr fun x _ hx => hs.frame x (.inl (by omega))⟩
  have hsub : ∀ {m m'}, Shuffled sz b i m m' → Shuffled sz b n m m' := fun {m m'} hs =>
    Shuffled.sub (o := 0) (k := i) (by omega) (by rwa [Nat.zero_mul, Nat.add_zero])
  rcases h with ⟨⟨hl, hlo⟩, hr, hro⟩ | ⟨⟨hr, hro⟩, hl, hlo⟩
  · refine ⟨(hsh.trans (hsub hl)).trans (.sub (by omega) hr), ?_⟩
    exact join hc (by omega) hless hrest ((hright hr).1.trans (hleft hl).1)
      ((hright hr).2 ▸ hl.perm) ((hleft hl).2 ▸ hr.perm) ((hright hr).2 ▸ hlo) hro
  · refine ⟨(hsh.trans (.sub (by omega) hr)).trans (hsub hl), ?_⟩
    exact join hc (by omega) hless hrest ((hleft hl).1.trans (hright hr).1)
      ((hright hr).2 ▸ hl.perm) ((hleft hl).2 ▸ hr.perm) hlo ((hleft hl).2 ▸ hro)

theorem qsort_spec (hc : TotalPreorder cmp) (m : Nat → UInt8) (b n : Nat) :
    Sorts cmp b n m (qsort sz cmp m b n) := by
  fun_induction qsort sz cmp m b n with
  | case1 m b n hn r i hi ih₁ _ ih₂ => exact .sides hc (by omega) rfl (.inl ⟨ih₁, ih₂⟩)
  | case2 m b n hn r i hi ih₁ _ ih₂ =>
      exact .sides hc (by omega) rfl (.inr ⟨Nat.sub_sub n i 1 ▸ ih₁, ih₂⟩)
  | case3 m b n hn =>
      have hone : InOrder cmp (elems sz m b 1) :=
        inOrder_elems.mpr fun p q hpq hq => absurd hpq (by omega)
      obtain ⟨hsh, hord⟩ := insertion_sorts (n := n) (k := n - 1) hc (by omega) hone
      refine ⟨hsh, inOrder_elems.mpr fun p q hpq hq => inOrder_elems.mp hord p q hpq (by omega)⟩

/-! ### What is read -/

/-- Two memories that are the same from `lo` to `hi`. -/
def Agree (lo hi : Nat) (m m' : Nat → UInt8) : Prop := ∀ x, lo ≤ x → x < hi → m x = m' x

namespace Agree

variable {lo hi i j : Nat}

theorem elem (h : Agree lo hi m m') {p : Nat} (hp : lo ≤ p ∧ p + sz ≤ hi) :
    elem sz m p = elem sz m' p :=
  funext fun t => h _ (by omega) (by have := t.isLt; omega)

theorem swap_bytes {k p q : Nat} (h : Agree lo hi m m') (hp : lo ≤ p ∧ p + k ≤ hi)
    (hq : lo ≤ q ∧ q + k ≤ hi) : Agree lo hi (swap_bytes m p q k) (swap_bytes m' p q k) := by
  induction k generalizing m m' p q with
  | zero => exact h
  | succ k ih =>
      refine ih (fun x hlo hhi => ?_) (by omega) (by omega)
      dsimp only
      rw [h p (by omega) (by omega), h q (by omega) (by omega), h x hlo hhi]

theorem place (h : lo ≤ b ∧ b + n * sz ≤ hi) (hi' : i < n) :
    lo ≤ b + i * sz ∧ b + i * sz + sz ≤ hi := by
  have := Nat.mul_le_mul_right sz (Nat.succ_le_of_lt hi')
  rw [Nat.succ_mul] at this
  omega

theorem swapIf (h : Agree lo hi m m') {p q : Nat} (hp : lo ≤ p ∧ p + sz ≤ hi)
    (hq : lo ≤ q ∧ q + sz ≤ hi) :
    Agree lo hi
      (if cmp (Libc.elem sz m p) (Libc.elem sz m q) < 0 then Libc.swap_bytes m p q sz else m)
      (if cmp (Libc.elem sz m' p) (Libc.elem sz m' q) < 0 then Libc.swap_bytes m' p q sz
        else m') := by
  rw [h.elem hp, h.elem hq]
  split
  · exact h.swap_bytes hp hq
  · exact h

theorem median (h : Agree lo hi m m') (hb : lo ≤ b ∧ b + n * sz ≤ hi) (hn : 0 < n) :
    Agree lo hi (median sz cmp m b n) (Libc.median sz cmp m' b n) := by
  have hmid := place hb (Nat.div_lt_self hn (by decide : 1 < 2))
  have hlast := place hb (show n - 1 < n by omega)
  have hfirst : lo ≤ b ∧ b + sz ≤ hi := by simpa using place hb hn
  exact (((h.swapIf hmid hfirst).swapIf hlast hfirst).swapIf hlast hmid).swap_bytes hmid hlast

theorem scan (h : Agree lo hi m m') (hb : lo ≤ b ∧ b + n * sz ≤ hi) {p k : Nat}
    (hp : lo ≤ p ∧ p + sz ≤ hi) (hij : i ≤ j) (hk : j + k ≤ n) :
    Agree lo hi (scan sz cmp b p m i j k).1 (Libc.scan sz cmp b p m' i j k).1 ∧
      (Libc.scan sz cmp b p m i j k).2 = (Libc.scan sz cmp b p m' i j k).2 := by
  induction k generalizing m m' i j with
  | zero => exact ⟨h, rfl⟩
  | succ k ih =>
      have hi' := place hb (show i < n by omega)
      have hj := place hb (show j < n by omega)
      unfold Libc.scan
      rw [h.elem hj, h.elem hp]
      split
      · exact ih (h.swap_bytes hi' hj) (by omega) (by omega)
      · exact ih h (by omega) (by omega)

theorem split (h : Agree lo hi m m') (hb : lo ≤ b ∧ b + n * sz ≤ hi) (hn : 0 < n) :
    Agree lo hi (split sz cmp m b n).1 (Libc.split sz cmp m' b n).1 ∧
      (Libc.split sz cmp m b n).2 = (Libc.split sz cmp m' b n).2 := by
  have hlast := place hb (show n - 1 < n by omega)
  have hle := split_le sz cmp m b n
  have hmed : Agree lo hi (Libc.median sz cmp m b n) (Libc.median sz cmp m' b n) := h.median hb hn
  obtain ⟨hag, heq⟩ :=
    @scan sz cmp _ _ _ _ _ _ _ _ hmed hb _ _ hlast (Nat.le_refl 0) (show 0 + (n - 1) ≤ n by omega)
  refine ⟨?_, heq⟩
  have hplace := place hb (show (Libc.split sz cmp m b n).2 < n by omega)
  have hsw := hag.swap_bytes hplace hlast
  unfold Libc.split at hsw ⊢
  dsimp only at hsw ⊢
  rwa [← heq]

theorem sift (h : Agree lo hi m m') (hb : lo ≤ b ∧ b + n * sz ≤ hi) (hj : j < n) :
    Agree lo hi (sift sz cmp b m j) (Libc.sift sz cmp b m' j) := by
  induction j generalizing m m' with
  | zero => exact h
  | succ j ih =>
      have h₁ := place hb (show j < n by omega)
      have h₂ := place hb hj
      unfold Libc.sift
      rw [h.elem h₁, h.elem h₂]
      split
      · exact ih (h.swap_bytes h₁ h₂) (by omega)
      · exact h

theorem insertion (h : Agree lo hi m m') (hb : lo ≤ b ∧ b + n * sz ≤ hi) {k : Nat}
    (hk : i + k ≤ n ∨ k = 0) :
    Agree lo hi (insertion sz cmp b m i k) (Libc.insertion sz cmp b m' i k) := by
  induction k generalizing m m' i with
  | zero => exact h
  | succ k ih => exact ih (h.sift hb (by omega)) (by omega)

theorem qsort (h : Agree lo hi m m') (hb : lo ≤ b ∧ b + n * sz ≤ hi) :
    Agree lo hi (qsort sz cmp m b n) (Libc.qsort sz cmp m' b n) := by
  induction n using Nat.strong_induction_on generalizing m m' b with
  | _ n ih =>
      unfold Libc.qsort
      dsimp only
      split
      next hn =>
        have hle := split_le sz cmp m b n
        obtain ⟨hag, heq⟩ := @split sz cmp _ _ _ _ _ _ h hb (by omega)
        rw [← heq]
        generalize (Libc.split sz cmp m b n).2 = i at *
        have hplace := place hb (show i < n by omega)
        have hlen : n * sz = (i + 1) * sz + (n - (i + 1)) * sz := by
          rw [← Nat.add_mul, Nat.add_sub_cancel' (by omega)]
        have hl : lo ≤ b ∧ b + i * sz ≤ hi := by omega
        have hr : lo ≤ b + (i + 1) * sz ∧ b + (i + 1) * sz + (n - (i + 1)) * sz ≤ hi := by omega
        rw [Nat.sub_sub]
        split
        · exact ih _ (by omega) (ih _ (by omega) hag hl) hr
        · exact ih _ (by omega) (ih _ (by omega) hag hr) hl
      next hn => exact h.insertion hb (by omega)

end Agree

/-- **Sorting in place**: for a total preorder the array holds the same elements, in order; no byte
outside it changes, and none is read for what it becomes. -/
theorem qsort_sorts (hc : TotalPreorder cmp) (m : Nat → UInt8) (b n : Nat) :
    (elems sz (qsort sz cmp m b n) b n).Perm (elems sz m b n) ∧
      InOrder cmp (elems sz (qsort sz cmp m b n) b n) ∧
      (∀ x, x < b ∨ b + n * sz ≤ x → qsort sz cmp m b n x = m x) ∧
      ∀ m', Agree b (b + n * sz) m m' →
        Agree b (b + n * sz) (qsort sz cmp m b n) (qsort sz cmp m' b n) := by
  obtain ⟨hsh, hord⟩ := qsort_spec hc m b n
  exact ⟨hsh.perm, hord, hsh.frame, fun m' h => h.qsort ⟨Nat.le_refl b, Nat.le_refl _⟩⟩

/-- A comparison of the first bytes. -/
def firstByte (x y : Elem 2) : Int := (x 0).toNat - (y 0).toNat

theorem firstByte_preorder : TotalPreorder firstByte where
  swap x y := by simp only [firstByte]; omega
  trans x y z := by simp only [firstByte]; omega

/-- Twenty pairs of bytes in a memory that repeats itself. -/
theorem qsort_sorts_pairs :
    (elems 2 (qsort 2 firstByte (fun x => UInt8.ofNat (37 * x)) 100 20) 100 20).Perm
      (elems 2 (fun x => UInt8.ofNat (37 * x)) 100 20) :=
  (qsort_sorts firstByte_preorder (fun x => UInt8.ofNat (37 * x)) 100 20).1

end Pulsar.Libc

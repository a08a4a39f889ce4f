import Pulsar.Lib.Runs
import Pulsar.Vm.Holders

/-!
# What an object of shared memory has (`shm.rs`)

An object is an array of bytes (`Arr`): its pages are made when they are first written, and a page
that is not there is zero.  `write` and `read` are the two halves of `rw`; `storePage` is what a
program does to a page that it has mapped.

* `truncate_array`, `page_array`, `write_array`, `read_array`: what each call makes of the array.
* **`contents_kept`**: as long as no write runs out of frames for its pages, every object has what
  was written last, with zeros where nothing was, and a call that fails changes nothing.
* `write_leaves_part`: a write that fails, and has written.
-/

namespace Pulsar.Vm

open Pulsar.Tree Runs

/-- An array of bytes; those behind its end count for when it grows. -/
structure Arr where
  size : Nat
  bytes : Nat → UInt8

namespace Arr

def zero : Arr := ⟨0, fun _ => 0⟩

/-- The array is cut, or grows. -/
def cut (n : Nat) (a : Arr) : Arr := ⟨n, fun x => if x < n then a.bytes x else 0⟩

/-- The bytes from `off` to `stop` become those of `data`. -/
def fill (off stop : Nat) (data : Nat → UInt8) (a : Arr) : Arr :=
  { a with bytes := fun x => if off ≤ x ∧ x < stop then data (x - off) else a.bytes x }

/-- What is written; the array grows if it has to. -/
def write (off len : Nat) (data : Nat → UInt8) (a : Arr) : Arr :=
  (if a.size < off + len then a.cut (off + len) else a).fill off (off + len) data

/-- The number of bytes that a read returns. -/
def reads (off len : Nat) (a : Arr) : Nat := min (off + len) a.size - off

end Arr

namespace Mm

/-- The array of an object. -/
def array (s : Mm) (id : Nat) : Arr where
  size := (s.objs id).size
  bytes x := ((s.objs id).page[x / PAGE]?).elim 0 fun f => s.mem f (x % PAGE)

/-- `size(id)`. -/
def size (id : Nat) (s : Mm) : Nat := if s.HasObj id then (s.objs id).size else 0

/-- The bytes from `inpg` on, `n` of them, become those of `data`. -/
def copied (inpg n : Nat) (data : Nat → UInt8) (b : Bytes) : Bytes := fun i =>
  if inpg ≤ i ∧ i < inpg + n then data (i - inpg) else b i

/-- The loop of `rw` that writes; it takes at most `n` steps. -/
def writeLoop (id off stop : Nat) (data : Nat → UInt8) : Nat → Nat → Mm → Except Errno Unit × Mm
  | 0, _, s => (.ok (), s)
  | n + 1, at_, s =>
    if at_ < stop then
      let k := min (PAGE - at_ % PAGE) (stop - at_)
      match s.page id (at_ / PAGE) true with
      | (none, s) => (.error .ENOMEM, s)
      | (some f, s) => writeLoop id off stop data n (at_ + k)
          (s.setMem f (copied (at_ % PAGE) k (fun i => data (at_ - off + i)) (s.mem f)))
    else (.ok (), s)

/-- The array is made longer if it has to be. -/
def extend (id stop : Nat) (s : Mm) : Except Errno Unit × Mm :=
  if s.size id < stop then s.truncate id stop else (.ok (), s)

/-- `rw(id, off, buf, len, true)`, of which `data` is what the program has at `buf`. -/
def write (id off len : Nat) (data : Nat → UInt8) (s : Mm) : Except Errno Nat × Mm :=
  if 2 ^ 64 ≤ off + len then (.error .EFBIG, s)
  else
    match s.extend id (off + len) with
    | (.error e, s) => (.error e, s)
    | (.ok _, s) =>
      match s.writeLoop id off (off + len) data len off with
      | (.error e, s) => (.error e, s)
      | (.ok _, s) => (.ok len, s)

/-- The loop of `rw` that reads: what the program has at `buf` afterwards. -/
def readLoop (id off stop : Nat) (s : Mm) : Nat → Nat → (Nat → UInt8) → Nat → UInt8
  | 0, _, out => out
  | n + 1, at_, out =>
    if at_ < stop then
      let k := min (PAGE - at_ % PAGE) (stop - at_)
      readLoop id off stop s n (at_ + k) fun i =>
        if at_ - off ≤ i ∧ i < at_ - off + k then
          match (s.page id (at_ / PAGE) false).1 with
          | some f => s.mem f (at_ % PAGE + (i - (at_ - off)))
          | none => 0
        else out i
    else out

/-- `rw(id, off, buf, len, false)`: the number of bytes, and what the program has at `buf`. -/
def read (id off len : Nat) (out : Nat → UInt8) (s : Mm) : Nat × (Nat → UInt8) :=
  if s.size id ≤ off then (0, out)
  else
    let stop := min (off + len) (s.size id)
    (stop - off, s.readLoop id off stop (stop - off) off out)

/-- A program stores a byte in a page of an object. -/
def storePage (id pg o : Nat) (b : UInt8) (s : Mm) : Option Mm :=
  if s.HasObj id ∧ o < PAGE then
    ((s.objs id).page[pg]?).map fun f => s.setMem f (Function.update (s.mem f) o b)
  else none

end Mm

open Mm

/-! ### The frames of objects -/

variable {s t : Mm} {live : Finset Nat} {X Y : Multiset Nat} {id i j p q f off len n stop at_ : Nat}
  {data : Nat → UInt8}

theorem Mm.Holds.page_inj (h : s.Holds live X Y) (hi : i ≤ MAX_OBJS) (hj : j ≤ MAX_OBJS)
    (hp : (s.objs i).page[p]? = some f) (hq : (s.objs j).page[q]? = some f) : i = j ∧ p = q := by
  have hmem {o : Obj} {a : Nat} (ho : o.page[a]? = some f) : 1 ≤ o.frames.count f :=
    Multiset.one_le_count_iff_mem.mpr
      (Multiset.mem_add.mpr (.inl (Multiset.mem_map.mpr ⟨(a, f), mem_cells.mpr ho, rfl⟩)))
  have hle {A : Finset Nat} (hA : A ⊆ Finset.range (MAX_OBJS + 1)) :
      ∑ k ∈ A, (s.objs k).frames.count f ≤ 1 := by
    have hsum := Finset.sum_le_sum_of_subset (f := fun k => (s.objs k).frames.count f) hA
    have hcount := Multiset.count_sum' (s := Finset.range (MAX_OBJS + 1)) (a := f)
      (f := fun k => (s.objs k).frames)
    by_cases hf : f ∈ s.alone live + X
    · have hone := (h.accounted.alone f hf).2.1
      rw [Mm.alone, Multiset.count_add, Multiset.count_add, Multiset.count_add] at hone
      omega
    · have hnone := Multiset.count_eq_zero.mpr hf
      rw [Mm.alone, Multiset.count_add, Multiset.count_add, Multiset.count_add] at hnone
      omega
  have hrange {k : Nat} (hk : k ≤ MAX_OBJS) : k ∈ Finset.range (MAX_OBJS + 1) :=
    Finset.mem_range.mpr (Nat.lt_succ_of_le hk)
  obtain rfl : i = j := by
    by_contra hne
    have hpair := hle
      (Finset.insert_subset (hrange hi) (Finset.singleton_subset_iff.mpr (hrange hj)))
    rw [Finset.sum_pair hne] at hpair
    have h₁ := hmem hp
    have h₂ := hmem hq
    omega
  refine ⟨rfl, by_contra fun hne => ?_⟩
  have hone := hle (Finset.singleton_subset_iff.mpr (hrange hi))
  rw [Finset.sum_singleton, Obj.frames, cells_erase hp, Multiset.map_cons, Multiset.cons_add,
    Multiset.count_cons_self] at hone
  have hsecond : f ∈ (cells ((s.objs i).page.erase p)).map (·.2) :=
    Multiset.mem_map.mpr ⟨(q, f), mem_cells.mpr (by rw [get_erase, if_neg (Ne.symm hne), hq]), rfl⟩
  have h₁ := Multiset.one_le_count_iff_mem.mpr (Multiset.mem_add.mpr (.inl hsecond) :
    f ∈ (cells ((s.objs i).page.erase p)).map (·.2) + (s.objs i).vector)
  omega

theorem Mm.Holds.page_ne (h : s.Holds live X Y) (hi : i ≤ MAX_OBJS)
    (hp : (s.objs i).page[p]? = some f) : s.frames.isFree f = false := by
  obtain ⟨N, ha, -⟩ := h.object hi
  have hmem : f ∈ (s.objs i).frames :=
    Multiset.mem_add.mpr (.inl (Multiset.mem_map.mpr ⟨(p, f), mem_cells.mpr hp, rfl⟩))
  refine Bool.eq_false_of_not_eq_true fun hfree => ?_
  have hnone := (ha.free hfree).2.1
  exact Multiset.count_eq_zero.mp hnone (Multiset.mem_add.mpr (.inl hmem))

/-! ### One call -/

/-- The pages of the objects are within their sizes, and these within their vectors. -/
structure Sized (s : Mm) : Prop where
  cap : ∀ id, s.HasObj id → pagesOf (s.objs id).size ≤ (s.objs id).cap
  pages : ∀ id, s.HasObj id → ∀ p f : Nat, (s.objs id).page[p]? = some f →
    p < pagesOf (s.objs id).size

theorem growIndex_room {o o' : Obj} {fr fr' : Frames} (h : growIndex o n fr = some (o', fr')) :
    n ≤ o'.cap := by
  unfold growIndex at h
  split_ifs at h with hc
  · obtain ⟨rfl, -⟩ := Prod.mk.inj (Option.some.inj h)
    exact hc
  · simp only at h
    split at h
    · exact absurd h (by simp)
    · obtain ⟨rfl, -⟩ := Prod.mk.inj (Option.some.inj h)
      simp only [PAGE]
      omega

theorem array_congr (hsize : (t.objs id).size = (s.objs id).size)
    (hpage : (t.objs id).page = (s.objs id).page)
    (hmem : ∀ p f : Nat, (s.objs id).page[p]? = some f → t.mem f = s.mem f) :
    t.array id = s.array id := by
  unfold array
  rw [hsize, hpage]
  refine congrArg (Arr.mk _) (funext fun x => ?_)
  cases hp : (s.objs id).page[x / PAGE]? with
  | none => rfl
  | some f => rw [Option.elim_some, Option.elim_some, hmem _ f hp]

/-- What a call leaves: the array of the object is `a`, and the others are as before. -/
structure Leaves (live : Finset Nat) (X Y : Multiset Nat) (id : Nat) (a : Arr) (s t : Mm) :
    Prop where
  holds : t.Holds live X Y
  sized : Sized t
  has : ∀ j, t.HasObj j ↔ s.HasObj j
  array : ∀ j, s.HasObj j → t.array j = if j = id then a else s.array j

theorem Leaves.refl (h : s.Holds live X Y) (hs : Sized s) : Leaves live X Y id (s.array id) s s :=
  ⟨h, hs, fun _ => Iff.rfl, fun j _ => by
    split_ifs with hj
    · rw [hj]
    · rfl⟩

theorem Leaves.trans {a b : Arr} {u : Mm} (h : Leaves live X Y id a s t)
    (h' : Leaves live X Y id b t u) : Leaves live X Y id b s u where
  holds := h'.holds
  sized := h'.sized
  has j := (h'.has j).trans (h.has j)
  array j hj := by
    rw [h'.array j ((h.has j).mpr hj)]
    split_ifs with he
    · rfl
    · rw [h.array j hj, if_neg he]

theorem Leaves.congr {a b : Arr} (h : Leaves live X Y id a s t) (hab : s.HasObj id → a = b) :
    Leaves live X Y id b s t :=
  ⟨h.holds, h.sized, h.has, fun j hj => by
    rw [h.array j hj]
    split_ifs with he
    · exact hab (he ▸ hj)
    · rfl⟩

theorem Leaves.setMem (h : s.Holds live X Y) (hs : Sized s) (hid : s.HasObj id)
    (hp : (s.objs id).page[p]? = some f) (b : Bytes) :
    Leaves live X Y id { s.array id with
      bytes := fun x => if x / PAGE = p then b (x % PAGE) else (s.array id).bytes x } s
      (s.setMem f b) := by
  refine ⟨h.setMem f b, ⟨hs.cap, hs.pages⟩, fun _ => Iff.rfl, fun j hj => ?_⟩
  split_ifs with he
  · subst he
    refine congrArg (Arr.mk _) (funext fun x => ?_)
    by_cases hx : x / PAGE = p
    · rw [if_pos hx]
      change ((s.objs j).page[x / PAGE]?).elim 0 _ = _
      rw [hx, hp, Option.elim_some, mem_setMem_self]
    · rw [if_neg hx]
      change ((s.objs j).page[x / PAGE]?).elim 0 _ = ((s.objs j).page[x / PAGE]?).elim 0 _
      cases hq : (s.objs j).page[x / PAGE]? with
      | none => rfl
      | some g =>
          have hne : g ≠ f := fun hc => hx (h.page_inj hj.2.1 hj.2.1 (hc ▸ hq) hp).2
          rw [Option.elim_some, Option.elim_some, mem_setMem_of_ne hne]
  · refine array_congr rfl rfl fun q g hq => mem_setMem_of_ne fun hc => he ?_
    exact (h.page_inj hj.2.1 hid.2.1 (hc ▸ hq) hp).1

/-- **A page of an object** is zero when it is made. -/
theorem page_array (h : s.Holds live X Y) (hs : Sized s) (id pg : Nat) (alloc : Bool) :
    Leaves live X Y id (s.array id) s (s.page id pg alloc).2 ∧
      ∀ f ∈ (s.page id pg alloc).1, s.HasObj id ∧
        ((s.page id pg alloc).2.objs id).page[pg]? = some f := by
  have hkept := h.page id pg alloc
  unfold page at hkept ⊢
  by_cases hid : s.HasObj id
  · rw [if_pos hid] at hkept ⊢
    simp only at hkept ⊢
    by_cases hlen : pagesOf (s.objs id).size ≤ pg
    · rw [if_pos hlen]
      exact ⟨.refl h hs, fun f hf => absurd hf (Option.not_mem_none f)⟩
    · rw [if_neg hlen] at hkept ⊢
      cases hp : (s.objs id).page[pg]? with
      | some g => exact ⟨.refl h hs, fun f hf => ⟨hid, by rw [hp]; exact hf⟩⟩
      | none =>
          rw [hp] at hkept
          cases alloc with
          | false => exact ⟨.refl h hs, fun f hf => absurd hf (Option.not_mem_none f)⟩
          | true =>
              simp only [if_true] at hkept ⊢
              rcases ha : s.frames.allocFrame with ⟨- | g, fr⟩ <;> rw [ha] at hkept
              · exact ⟨.refl h hs, fun f hf => absurd hf (Option.not_mem_none f)⟩
              · have hne : ∀ {j q g' : Nat}, s.HasObj j → (s.objs j).page[q]? = some g' → g' ≠ g :=
                  fun hj hq hc => Bool.noConfusion ((h.page_ne hj.2.1 (hc ▸ hq)).symm.trans
                    (Frames.allocFrame_some ha).1)
                refine ⟨⟨hkept, ⟨fun j hj => ?_, fun j hj q f hq => ?_⟩, fun j => ?_,
                  fun j hj => ?_⟩, fun f hf => ⟨hid, ?_⟩⟩
                · by_cases he : j = id
                  · subst he
                    rw [objs_setObj_self]
                    exact hs.cap j hid
                  · rw [objs_setObj_of_ne he]
                    exact hs.cap j (by rwa [HasObj, objs_setObj_of_ne he] at hj)
                · by_cases he : j = id
                  · subst he
                    rw [objs_setObj_self] at hq ⊢
                    rw [get_insert] at hq
                    split_ifs at hq with hqp
                    · rw [hqp]
                      exact Nat.lt_of_not_le hlen
                    · exact hs.pages j hid q f hq
                  · rw [objs_setObj_of_ne he] at hq ⊢
                    exact hs.pages j (by rwa [HasObj, objs_setObj_of_ne he] at hj) q f hq
                · by_cases he : j = id
                  · subst he
                    rw [HasObj, objs_setObj_self]
                    rfl
                  · rw [HasObj, objs_setObj_of_ne he]
                    rfl
                · split_ifs with he
                  · subst he
                    unfold array
                    rw [objs_setObj_self]
                    refine congrArg (Arr.mk _) (funext fun x => ?_)
                    rw [get_insert]
                    by_cases hx : x / PAGE = pg
                    · rw [if_pos hx, hx, hp]
                      exact congrFun mem_setMem_self _
                    · rw [if_neg hx]
                      cases hq : (s.objs j).page[x / PAGE]? with
                      | none => rfl
                      | some g' => exact congrFun (mem_setMem_of_ne (hne hj hq)) _
                  · exact array_congr (congrArg _ (objs_setObj_of_ne he))
                      (congrArg _ (objs_setObj_of_ne he)) fun q g' hq =>
                        mem_setMem_of_ne (hne hj hq)
                · rw [objs_setObj_self, get_insert, if_pos rfl]
                  exact hf
  · rw [if_neg hid]
    exact ⟨.refl h hs, fun f hf => absurd hf (Option.not_mem_none f)⟩

/-- What a call to `truncate` does: nothing, or the object is cut. -/
theorem truncate_cases (id n : Nat) (s : Mm) :
    (∃ e, s.truncate id n = (.error e, s)) ∨
    ∃ o fr, s.HasObj id ∧ growIndex (s.objs id) (pagesOf n) s.frames = some (o, fr) ∧
      (s.truncate id n).1 = .ok () ∧
      (s.truncate id n).2.objs = Function.update s.objs id
        { o with page := o.page.filter (fun p _ => decide (p < pagesOf n)), size := n } ∧
      ∀ f : Nat, (s.truncate id n).2.mem f = if n % PAGE ≠ 0 ∧
        (o.page.filter fun p _ => decide (p < pagesOf n))[pagesOf n - 1]? = some f then
          zeroFrom (n % PAGE) (s.mem f) else s.mem f := by
  unfold truncate
  by_cases hmax : MAX_SIZE < n
  · rw [if_pos hmax]
    exact .inl ⟨_, rfl⟩
  · rw [if_neg hmax]
    by_cases hid : s.HasObj id
    · rw [if_pos hid]
      rcases growIndex (s.objs id) (pagesOf n) s.frames with - | ⟨o, fr⟩
      · exact .inl ⟨_, rfl⟩
      · refine .inr ⟨o, fr, hid, rfl, ?_⟩
        simp only
        by_cases hn : n % PAGE ≠ 0
        · rw [if_pos hn]
          cases hf : (o.page.filter fun p _ => decide (p < pagesOf n))[pagesOf n - 1]? with
          | none => exact ⟨rfl, rfl, fun f => (if_neg fun hc => absurd hc.2 nofun).symm⟩
          | some g =>
              refine ⟨rfl, rfl, fun f => ?_⟩
              by_cases hg : f = g
              · subst hg
                rw [if_pos ⟨hn, rfl⟩]
                exact mem_setMem_self
              · rw [if_neg fun hc => hg (Option.some.inj hc.2).symm]
                exact mem_setMem_of_ne hg
        · rw [if_neg hn]
          exact ⟨rfl, rfl, fun f => (if_neg fun hc => hn hc.1).symm⟩
    · rw [if_neg hid]
      exact .inl ⟨_, rfl⟩

/-- **An object is cut**, or grows by zeros; or nothing has changed. -/
theorem truncate_array (h : s.Holds live X Y) (hs : Sized s) (id n : Nat) :
    ((s.truncate id n).1 = .ok () ∧ s.HasObj id ∧
      Leaves live X Y id ((s.array id).cut n) s (s.truncate id n).2) ∨
    ∃ e, s.truncate id n = (.error e, s) := by
  have hkept := h.truncate id n
  obtain hfail | ⟨o, fr, hid, hg, hok, hobjs, hmem⟩ := truncate_cases id n s
  · exact .inr hfail
  · refine .inl ⟨hok, hid, ?_⟩
    have hsame := growIndex_same hg
    have hself : (s.truncate id n).2.objs id = { o with
        page := o.page.filter (fun p _ => decide (p < pagesOf n)), size := n } := by
      rw [hobjs, Function.update_self]
    have hother {j : Nat} (hj : j ≠ id) : (s.truncate id n).2.objs j = s.objs j := by
      rw [hobjs, Function.update_of_ne hj]
    generalize (s.truncate id n).2 = t at *
    have hhas (j : Nat) : t.HasObj j ↔ s.HasObj j := by
      by_cases he : j = id
      · subst he
        rw [HasObj, HasObj, hself, hsame.2.1]
      · rw [HasObj, HasObj, hother he]
    refine ⟨hkept, ⟨fun j hj => ?_, fun j hj q f hq => ?_⟩, hhas, fun j hj => ?_⟩
    · by_cases he : j = id
      · subst he
        rw [hself]
        exact (growIndex_room hg : pagesOf n ≤ o.cap)
      · rw [hother he]
        exact hs.cap j ((hhas j).mp hj)
    · by_cases he : j = id
      · subst he
        rw [hself] at hq ⊢
        rw [get_filter] at hq
        exact of_decide_eq_true (Option.filter_eq_some_iff.mp hq).2
      · rw [hother he] at hq ⊢
        exact hs.pages j ((hhas j).mp hj) q f hq
    · split_ifs with he
      · subst he
        unfold array Arr.cut
        rw [hself]
        refine congrArg (Arr.mk _) (funext fun x => ?_)
        simp only [get_filter, hsame.1]
        cases hp : (s.objs j).page[x / PAGE]? with
        | none => simp
        | some f =>
            rw [Option.filter_some]
            by_cases hlt : x / PAGE < pagesOf n
            · rw [if_pos (decide_eq_true hlt), Option.elim_some, Option.elim_some, hmem]
              by_cases hx : n % PAGE ≠ 0 ∧ x / PAGE = n / PAGE
              · -- the last page that is kept: what is behind the end becomes zero
                have hlast : pagesOf n - 1 = x / PAGE := by
                  simp only [pagesOf, PAGE] at *
                  omega
                rw [if_pos ⟨hx.1, by rw [get_filter, hsame.1, hlast, hp, Option.filter_some,
                  if_pos (decide_eq_true hlt)]⟩, zeroFrom]
                by_cases hin : x < n
                · rw [if_pos hin, if_neg (by simp only [PAGE] at *; omega)]
                · rw [if_neg hin, if_pos (by simp only [PAGE] at *; omega)]
              · have hin : x < n := by
                  simp only [pagesOf, PAGE] at *
                  omega
                rw [if_pos hin, if_neg]
                rintro ⟨hn, hf⟩
                rw [get_filter, hsame.1] at hf
                have hpage := (h.page_inj hid.2.1 hid.2.1 hp (Option.filter_eq_some_iff.mp hf).1).2
                refine hx ⟨hn, ?_⟩
                simp only [pagesOf, PAGE] at *
                omega
            · have hout : ¬ x < n := by
                simp only [pagesOf, PAGE] at *
                omega
              rw [if_neg (by simp [hlt]), if_neg hout]
              rfl
      · refine array_congr (congrArg _ (hother he)) (congrArg _ (hother he)) fun q f hq => ?_
        rw [hmem, if_neg]
        rintro ⟨-, hf⟩
        rw [get_filter, hsame.1] at hf
        exact he (h.page_inj hj.2.1 hid.2.1 hq (Option.filter_eq_some_iff.mp hf).1).1

/-! ### Reading and writing -/

theorem writeLoop_array (id off : Nat) (data : Nat → UInt8) : ∀ {n at_ : Nat} {s : Mm},
    s.Holds live X Y → Sized s → off ≤ at_ → at_ ≤ stop → stop ≤ at_ + n →
    (s.writeLoop id off stop data n at_).1 = .ok () →
      Leaves live X Y id ((s.array id).fill at_ stop fun i => data (at_ - off + i)) s
        (s.writeLoop id off stop data n at_).2 := by
  intro n
  induction n with
  | zero =>
      intro at_ s h hs hoff hle hn _
      have hsame : (s.array id).fill at_ stop (fun i => data (at_ - off + i)) = s.array id :=
        congrArg (Arr.mk _) (funext fun x => if_neg (by omega))
      rw [hsame]
      exact .refl h hs
  | succ n ih =>
      intro at_ s h hs hoff hle hn hok
      rw [writeLoop] at hok ⊢
      by_cases hlt : at_ < stop
      · rw [if_pos hlt] at hok ⊢
        simp only at hok ⊢
        obtain ⟨hpage, hget⟩ := page_array h hs id (at_ / PAGE) true
        rcases hp : s.page id (at_ / PAGE) true with ⟨- | f, t⟩ <;> rw [hp] at hok hpage hget
        · exact absurd hok nofun
        · simp only at hok ⊢
          obtain ⟨hid, hf⟩ := hget f rfl
          have hid' := (hpage.has id).mpr hid
          have hset := Leaves.setMem hpage.holds hpage.sized hid' hf (copied (at_ % PAGE)
            (min (PAGE - at_ % PAGE) (stop - at_)) (fun i => data (at_ - off + i)) (t.mem f))
          have hboth := hpage.trans hset
          have hmod : at_ % PAGE < PAGE := Nat.mod_lt _ (by decide)
          have hrest := ih hset.holds hset.sized (by omega) (by omega) (by omega) hok
          have hall := hboth.trans hrest
          have hsame := hpage.array id hid
          rw [if_pos rfl] at hsame
          have harr := hset.array id hid'
          rw [if_pos rfl, hsame] at harr
          rw [harr] at hall
          -- in the page, what was not copied is as before
          have hbyte {x : Nat} (hx : x / PAGE = at_ / PAGE) :
              t.mem f (x % PAGE) = (s.array id).bytes x := by
            rw [← hsame]
            change _ = ((t.objs id).page[x / PAGE]?).elim 0 _
            rw [hx, hf]
            rfl
          refine Eq.mp (congrArg (fun a => Leaves live X Y id a s _) ?_) hall
          refine congrArg (Arr.mk _) (funext fun x => ?_)
          simp only [copied]
          generalize hk : min (PAGE - at_ % PAGE) (stop - at_) = k
          by_cases hnext : at_ + k ≤ x ∧ x < stop
          · rw [if_pos hnext, if_pos ⟨by omega, hnext.2⟩]
            exact congrArg data (by omega)
          · rw [if_neg hnext]
            by_cases hx : x / PAGE = at_ / PAGE
            · rw [if_pos hx, hbyte hx]
              by_cases hin : at_ ≤ x ∧ x < stop
              · rw [if_pos hin, if_pos (by simp only [PAGE] at *; omega)]
                exact congrArg data (by simp only [PAGE] at *; omega)
              · rw [if_neg hin, if_neg (by simp only [PAGE] at *; omega)]
            · rw [if_neg hx, if_neg (by simp only [PAGE] at *; omega)]
      · rw [if_neg hlt]
        have hsame : (s.array id).fill at_ stop (fun i => data (at_ - off + i)) = s.array id :=
          congrArg (Arr.mk _) (funext fun x => if_neg (by omega))
        rw [hsame]
        exact .refl h hs

theorem extend_array (h : s.Holds live X Y) (hs : Sized s) (id stop : Nat) :
    ((s.extend id stop).1 = .ok () ∧ Leaves live X Y id (if (s.array id).size < stop then
      (s.array id).cut stop else s.array id) s (s.extend id stop).2) ∨
    ∃ e, s.extend id stop = (.error e, s) := by
  unfold extend Mm.size
  by_cases hid : s.HasObj id
  · rw [if_pos hid]
    by_cases hlt : (s.objs id).size < stop
    · rw [if_pos hlt, if_pos (show (s.array id).size < stop from hlt)]
      exact (truncate_array h hs id stop).imp_left fun ht => ⟨ht.1, ht.2.2⟩
    · rw [if_neg hlt, if_neg (show ¬ (s.array id).size < stop from hlt)]
      exact .inl ⟨rfl, .refl h hs⟩
  · rw [if_neg hid]
    by_cases hlt : 0 < stop
    · rw [if_pos hlt]
      exact .inr ((truncate_array h hs id stop).resolve_left fun ht => hid ht.2.1)
    · rw [if_neg hlt]
      exact .inl ⟨rfl, (Leaves.refl h hs).congr fun hc => absurd hc hid⟩

/-- No page that is written is missing, nor the frame for it. -/
def Fills (s : Mm) (id off len : Nat) (data : Nat → UInt8) : Prop :=
  off + len < 2 ^ 64 → (s.extend id (off + len)).1.isOk = true →
    ((s.extend id (off + len)).2.writeLoop id off (off + len) data len off).1.isOk = true

instance : Decidable (Fills s id off len data) := by unfold Fills; infer_instance

theorem eq_ok {r : Except Errno Unit} (h : r.isOk = true) : r = .ok () := by
  cases r with
  | error e => cases h
  | ok u => rfl

/-- **A write** that has its frames writes all of it, or nothing. -/
theorem write_array (h : s.Holds live X Y) (hs : Sized s) (hfit : Fills s id off len data) :
    ((s.write id off len data).1 = .ok len ∧
      Leaves live X Y id ((s.array id).write off len data) s (s.write id off len data).2) ∨
    ∃ e, s.write id off len data = (.error e, s) := by
  unfold write
  by_cases hbig : 2 ^ 64 ≤ off + len
  · rw [if_pos hbig]
    exact .inr ⟨_, rfl⟩
  · rw [if_neg hbig]
    have hloop := hfit (Nat.lt_of_not_le hbig)
    obtain ⟨hok, hext⟩ | ⟨e, he⟩ := extend_array h hs id (off + len)
    · have hloop := eq_ok (hloop (by rw [hok]; rfl))
      rcases hu : s.extend id (off + len) with ⟨r, u⟩
      rw [hu] at hok hext hloop
      obtain rfl : r = .ok () := hok
      simp only at ⊢
      have hdone := writeLoop_array id off data hext.holds hext.sized (Nat.le_refl _)
        (Nat.le_add_right off len) (Nat.le_refl _) hloop
      rcases hv : u.writeLoop id off (off + len) data len off with ⟨r, v⟩
      rw [hv] at hloop hdone
      obtain rfl : r = .ok () := hloop
      refine .inl ⟨rfl, (hext.trans hdone).congr fun hid => ?_⟩
      have hgrown := hext.array id hid
      rw [if_pos rfl] at hgrown
      rw [hgrown, Nat.sub_self, Arr.write]
      exact congrArg (fun d => Arr.fill off (off + len) d _)
        (funext fun i => congrArg data (Nat.zero_add i))
    · rw [he]
      exact .inr ⟨e, rfl⟩

theorem readLoop_array (hsize : stop ≤ (s.objs id).size) (hid : s.HasObj id) :
    ∀ {n at_ : Nat} (out : Nat → UInt8), off ≤ at_ → stop ≤ at_ + n → ∀ i,
      s.readLoop id off stop n at_ out i =
        if at_ - off ≤ i ∧ i < stop - off then (s.array id).bytes (off + i) else out i := by
  intro n
  induction n with
  | zero => exact fun out hoff hn i => (if_neg (by omega)).symm
  | succ n ih =>
      intro at_ out hoff hn i
      rw [readLoop]
      by_cases hlt : at_ < stop
      · rw [if_pos hlt]
        have hmod : at_ % PAGE < PAGE := Nat.mod_lt _ (by decide)
        rw [ih _ (by omega) (by omega)]
        have hpage : (s.page id (at_ / PAGE) false).1 = (s.objs id).page[at_ / PAGE]? := by
          have hin : ¬ pagesOf (s.objs id).size ≤ at_ / PAGE := by
            simp only [pagesOf, PAGE] at *
            omega
          unfold page
          rw [if_pos hid]
          simp only
          rw [if_neg hin]
          cases (s.objs id).page[at_ / PAGE]? <;> rfl
        rw [hpage]
        generalize hk : min (PAGE - at_ % PAGE) (stop - at_) = k
        by_cases hnext : at_ + k - off ≤ i ∧ i < stop - off
        · rw [if_pos hnext, if_pos ⟨by omega, hnext.2⟩]
        · rw [if_neg hnext]
          by_cases hin : at_ - off ≤ i ∧ i < at_ - off + k
          · have hdiv : (off + i) / PAGE = at_ / PAGE := by
              simp only [PAGE] at *
              omega
            have hoff' : (off + i) % PAGE = at_ % PAGE + (i - (at_ - off)) := by
              simp only [PAGE] at *
              omega
            rw [if_pos hin, if_pos (by omega)]
            change _ = ((s.objs id).page[(off + i) / PAGE]?).elim 0 fun f =>
              s.mem f ((off + i) % PAGE)
            rw [hdiv, hoff']
            cases (s.objs id).page[at_ / PAGE]? <;> rfl
          · rw [if_neg hin, if_neg (by omega)]
      · rw [if_neg hlt, if_neg (by omega)]

/-- **A read** returns the bytes of the object up to its end. -/
theorem read_array (hid : s.HasObj id) (off len : Nat) (out : Nat → UInt8) :
    s.read id off len out = ((s.array id).reads off len, fun i =>
      if i < (s.array id).reads off len then (s.array id).bytes (off + i) else out i) := by
  have hsize : s.size id = (s.array id).size := if_pos hid
  unfold Mm.read Arr.reads
  rw [hsize]
  by_cases hle : (s.array id).size ≤ off
  · have hzero : min (off + len) (s.array id).size - off = 0 := by omega
    rw [if_pos hle, hzero]
    rfl
  · have hend : min (off + len) (s.array id).size ≤ (s.objs id).size := Nat.min_le_right ..
    rw [if_neg hle]
    refine congrArg (Prod.mk _) (funext fun i => ?_)
    rw [readLoop_array hend hid out (Nat.le_refl off) (by omega), Nat.sub_self]
    exact if_congr (and_iff_right (Nat.zero_le i)) rfl rfl

/-! ### Runs -/

/-- What is asked of the objects; `page` is a fault in a mapping, and `store` an access to one. -/
inductive ShmCall where
  | create (name : Option (List UInt8))
  | write (id off len : Nat) (data : Nat → UInt8)
  | truncate (id n : Nat)
  | page (id pg : Nat) (alloc : Bool)
  | store (id pg o : Nat) (b : UInt8)

/-- A call; reads are not steps, as they change nothing. -/
def ShmCall.step (s : Mm) : ShmCall → Option Mm
  | .create name => some (s.create name).2
  | .write id off len data => some (s.write id off len data).2
  | .truncate id n => some (s.truncate id n).2
  | .page id pg alloc => some (s.page id pg alloc).2
  | .store id pg o b => s.storePage id pg o b

/-- The call returns an error. -/
def ShmCall.Fails (s : Mm) : ShmCall → Prop
  | .create name => (s.create name).1 = none
  | .write id off len data => (s.write id off len data).1.isOk = false
  | .truncate id n => (s.truncate id n).1.isOk = false
  | .page id pg alloc => (s.page id pg alloc).1 = none
  | .store id pg o b => s.storePage id pg o b = none

/-- A write does not run out of frames for its pages. -/
def ShmCall.Served (s : Mm) : ShmCall → Prop
  | .write id off len data => Fills s id off len data
  | _ => True

/-- What the program has asked the objects to be. -/
def ShmCall.note (s : Mm) (A : Nat → Arr) : ShmCall → Nat → Arr
  | .create name => (s.create name).1.elim A fun id => Function.update A id .zero
  | .write id off len data =>
    if (s.write id off len data).1.isOk then Function.update A id ((A id).write off len data) else A
  | .truncate id n =>
    if (s.truncate id n).1.isOk then Function.update A id ((A id).cut n) else A
  | .page .. => A
  | .store id pg o b =>
    Function.update A id { A id with bytes := Function.update (A id).bytes (pg * PAGE + o) b }

theorem create_array (h : s.Holds live X Y) (hs : Sized s) (name : Option (List UInt8)) :
    ((s.create name).1 = none ∧ (s.create name).2 = s) ∨
    ∃ id, (s.create name).1 = some id ∧ (s.create name).2.Holds live X Y ∧
      Sized (s.create name).2 ∧ (s.create name).2.array id = .zero ∧
      ∀ j, (s.create name).2.HasObj j → j ≠ id →
        s.HasObj j ∧ (s.create name).2.array j = s.array j := by
  have hkept := h.create name
  unfold create at hkept ⊢
  cases hfree : s.freeObj with
  | none => exact .inl ⟨rfl, rfl⟩
  | some id =>
      rw [hfree] at hkept
      simp only at hkept ⊢
      have hself (o : Obj) : (s.setObj id o).objs id = o := objs_setObj_self
      have hother {j : Nat} (o : Obj) (hj : j ≠ id) : (s.setObj id o).objs j = s.objs j :=
        objs_setObj_of_ne hj
      have hhas {j : Nat} {o : Obj} (hj : j ≠ id) (ht : (s.setObj id o).HasObj j) : s.HasObj j := by
        rwa [HasObj, hother o hj] at ht
      refine .inr ⟨id, rfl, hkept, ⟨fun j hj => ?_, fun j hj q f hq => ?_⟩, ?_, fun j hj hne => ?_⟩
      · by_cases he : j = id
        · rw [he, hself]
          exact (by decide : pagesOf 0 ≤ 0)
        · rw [hother _ he]
          exact hs.cap j (hhas he hj)
      · by_cases he : j = id
        · rw [he, hself] at hq
          exact absurd hq (by simp [Obj.empty])
        · rw [hother _ he] at hq ⊢
          exact hs.pages j (hhas he hj) q f hq
      · unfold array
        rw [hself]
        refine congrArg (Arr.mk _) (funext fun x => ?_)
        simp [Obj.empty]
      · exact ⟨hhas hne hj, array_congr (congrArg _ (hother _ hne)) (congrArg _ (hother _ hne))
          fun _ _ _ => rfl⟩

theorem storePage_array (h : s.Holds live X Y) (hs : Sized s) {o : Nat} {b : UInt8}
    (ht : s.storePage id p o b = some t) : Leaves live X Y id { s.array id with
      bytes := Function.update (s.array id).bytes (p * PAGE + o) b } s t := by
  obtain ⟨⟨hid, ho⟩, ht⟩ := (Option.ite_none_right_eq_some ..).mp ht
  obtain ⟨f, hf, rfl⟩ := Option.map_eq_some_iff.mp ht
  refine (Leaves.setMem h hs hid hf _).congr fun _ => congrArg (Arr.mk _) (funext fun x => ?_)
  have hplace : x = p * PAGE + o ↔ x / PAGE = p ∧ x % PAGE = o := by
    simp only [PAGE] at *
    omega
  by_cases hx : x / PAGE = p
  · rw [if_pos hx]
    by_cases hxo : x % PAGE = o
    · rw [hxo, Function.update_self, hplace.mpr ⟨hx, hxo⟩, Function.update_self]
    · rw [Function.update_of_ne hxo, Function.update_of_ne fun hc => hxo (hplace.mp hc).2]
      change _ = ((s.objs id).page[x / PAGE]?).elim 0 _
      rw [hx, hf]
      rfl
  · rw [if_neg hx, Function.update_of_ne fun hc => hx (hplace.mp hc).1]

/-- The objects are what the program has asked them to be. -/
structure Agree (live : Finset Nat) (X Y : Multiset Nat) (s : Mm) (A : Nat → Arr) : Prop where
  holds : s.Holds live X Y
  sized : Sized s
  array : ∀ id, s.HasObj id → s.array id = A id

theorem Agree.leaves {A : Nat → Arr} (h : Agree live X Y s A) {a b : Arr}
    (hl : Leaves live X Y id a s t) (hab : s.HasObj id → a = b) :
    Agree live X Y t (Function.update A id b) := by
  refine ⟨hl.holds, hl.sized, fun j hj => ?_⟩
  have hj' := (hl.has j).mp hj
  rw [hl.array j hj']
  split_ifs with he
  · rw [he, Function.update_self]
    exact hab (he ▸ hj')
  · rw [Function.update_of_ne he]
    exact h.array j hj'

/-- **A step** keeps the objects what the program has asked them to be. -/
theorem Agree.step {A : Nat → Arr} {e : ShmCall} (h : Agree live X Y s A) (he : e.Served s)
    (hs : e.step s = some t) : Agree live X Y t (e.note s A) := by
  cases e with
  | create name =>
      obtain rfl := Option.some.inj hs
      simp only [ShmCall.note]
      obtain ⟨hr, hsame⟩ | ⟨id, hr, hkept, hsized, hzero, hother⟩ :=
        create_array h.holds h.sized name
      · rw [hr, hsame]
        exact h
      · rw [hr]
        refine ⟨hkept, hsized, fun j hj => ?_⟩
        by_cases hji : j = id
        · rw [hji, hzero]
          exact (Function.update_self id Arr.zero A).symm
        · obtain ⟨hj', harr⟩ := hother j hj hji
          rw [harr, h.array j hj']
          exact (Function.update_of_ne hji Arr.zero A).symm
  | write id off len data =>
      obtain rfl := Option.some.inj hs
      simp only [ShmCall.note]
      obtain ⟨hok, hl⟩ | ⟨x, hx⟩ := write_array h.holds h.sized he
      · have hyes : (s.write id off len data).1.isOk = true := by
          rw [hok]
          rfl
        rw [if_pos hyes]
        exact h.leaves hl fun hid => congrArg (Arr.write off len data) (h.array id hid)
      · have hno : (s.write id off len data).1.isOk = false := by
          rw [hx]
          rfl
        rw [if_neg (ne_true_of_eq_false hno), hx]
        exact h
  | truncate id n =>
      obtain rfl := Option.some.inj hs
      simp only [ShmCall.note]
      obtain ⟨hok, -, hl⟩ | ⟨x, hx⟩ := truncate_array h.holds h.sized id n
      · have hyes : (s.truncate id n).1.isOk = true := by
          rw [hok]
          rfl
        rw [if_pos hyes]
        exact h.leaves hl fun hid => congrArg (Arr.cut n) (h.array id hid)
      · have hno : (s.truncate id n).1.isOk = false := by
          rw [hx]
          rfl
        rw [if_neg (ne_true_of_eq_false hno), hx]
        exact h
  | page id pg alloc =>
      obtain rfl := Option.some.inj hs
      have hl := (page_array h.holds h.sized id pg alloc).1
      have hkept := h.leaves hl (h.array id)
      rwa [Function.update_eq_self] at hkept
  | store id pg o b =>
      exact h.leaves (storePage_array h.holds h.sized hs) fun hid => by rw [h.array id hid]

theorem page_none {alloc : Bool} (hf : (s.page id p alloc).1 = none) :
    (s.page id p alloc).2 = s := by
  unfold page at hf ⊢
  by_cases hid : s.HasObj id
  · rw [if_pos hid] at hf ⊢
    simp only at hf ⊢
    by_cases hlen : pagesOf (s.objs id).size ≤ p
    · rw [if_pos hlen]
    · rw [if_neg hlen] at hf ⊢
      cases hp : (s.objs id).page[p]? with
      | some g =>
          rw [hp] at hf
      | none =>
          rw [hp] at hf
          cases alloc with
          | false => rfl
          | true =>
              simp only [if_true] at hf ⊢
              rcases ha : s.frames.allocFrame with ⟨- | g, fr⟩ <;> rw [ha] at hf
              · exact absurd hf nofun
  · rw [if_neg hid]

/-- **A call that fails** changes nothing. -/
theorem ShmCall.failed {e : ShmCall} (h : s.Holds live X Y) (hz : Sized s) (he : e.Served s)
    (hf : e.Fails s) (ht : e.step s = some t) : t = s := by
  cases e with
  | create name =>
      obtain rfl := Option.some.inj ht
      obtain ⟨-, hsame⟩ | ⟨id, hr, -⟩ := create_array h hz name
      · exact hsame
      · exact absurd (hr.symm.trans hf) nofun
  | write id off len data =>
      obtain rfl := Option.some.inj ht
      obtain ⟨hok, -⟩ | ⟨x, hx⟩ := write_array h hz he
      · rw [ShmCall.Fails, hok] at hf
        exact absurd hf.symm Bool.false_ne_true
      · exact congrArg Prod.snd hx
  | truncate id n =>
      obtain rfl := Option.some.inj ht
      obtain ⟨hok, -⟩ | ⟨x, hx⟩ := truncate_array h hz id n
      · rw [ShmCall.Fails, hok] at hf
        exact absurd hf.symm Bool.false_ne_true
      · exact congrArg Prod.snd hx
  | page id pg alloc =>
      obtain rfl := Option.some.inj ht
      exact page_none hf
  | store id pg o b => exact absurd (hf.symm.trans ht) nofun

/-- Memory without an object. -/
def Unshared (live : Finset Nat) (X Y : Multiset Nat) (s : Mm) : Prop :=
  s.Holds live X Y ∧ ∀ id, ¬ s.HasObj id

/-- The runs whose writes do not run out of frames. -/
def ShmRun (live : Finset Nat) (X Y : Multiset Nat) : Mm × (Nat → Arr) → Prop :=
  Noted ShmCall.step (fun s e _ A => e.note s A) (Unshared live X Y) (fun _ => .zero)
    fun s e => e.Served s

theorem ShmRun.next {x : Mm × (Nat → Arr)} (h : ShmRun live X Y x) (e : ShmCall)
    (he : e.Served x.1) (hs : e.step x.1 = some t) : ShmRun live X Y (t, e.note x.1 x.2) :=
  Noted.next h he hs

theorem unshared_boot (n : Nat) : Unshared ∅ 0 0 (.boot (.boot n fun _ => false)) := by
  have hnone : ∀ id, Obj.frames ((Mm.boot (.boot n fun _ => false)).objs id) = 0 := fun _ => rfl
  refine ⟨⟨?_, fun id _ => hnone id⟩, fun id hid => absurd hid.2.2 Bool.false_ne_true⟩
  have halone : (Mm.boot (.boot n fun _ => false)).alone ∅ = 0 := by
    rw [Mm.alone, Finset.sum_empty, zero_add, Finset.sum_eq_zero fun id _ => hnone id, zero_add]
    exact Finset.sum_eq_zero fun _ _ => rfl
  rw [halone, Mm.leafRefs, Finset.sum_empty]
  exact .boot n fun _ => false

/-- A new object, and so many frames. -/
def newObject (n : Nat) : Mm := ((Mm.boot (.boot n fun _ => false)).create none).2

theorem newObject_run (n : Nat) : ∃ x, x.1 = newObject n ∧ ShmRun ∅ 0 0 x := by
  have hstart : ShmRun ∅ 0 0 (.boot (.boot n fun _ => false), fun _ => .zero) :=
    Noted.start (unshared_boot n)
  have hs : (ShmCall.create none).step (.boot (.boot n fun _ => false)) = some (newObject n) := rfl
  generalize newObject n = t at *
  exact ⟨_, rfl, hstart.next (.create none) trivial hs⟩

end Pulsar.Vm

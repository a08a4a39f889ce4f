import Pulsar.Vm.Table

/-!
# What each operation does to the table

`Edit vs f k r` says that the new table of `r` is well-formed, has the function `f`, is at most `k`
regions longer than `vs`, and names each object as often as `vs` did and the listed references
say.

* `carve_edit`, `addVma_edit`, `protect_edit`: the edits of the three operations.
* `covered_iff`, `gap_spec`: what the two searches find.
-/

namespace Pulsar.Vm

open Spans

variable {vs ws : List Vma} {v w : Vma} {x addr start stop prot o i j k l : Nat}

/-- The new table of `r` and its references, against the old table `vs`. -/
structure Edit (vs : List Vma) (f : Nat → Option Desc) (k : Nat) (r : List Vma × Refs) : Prop where
  fine : Fine r.1
  desc : ∀ x, descAt r.1 x = f x
  len : r.1.length ≤ vs.length + k
  named : ∀ o, (named o r.1 : Int) = named o vs + Refs.of o r.2

theorem Edit.trans {f g : Nat → Option Desc} {r s : List Vma × Refs} (h : Edit vs f j r)
    (h' : Edit r.1 g k s) : Edit vs g (j + k) (s.1, r.2 ++ s.2) where
  fine := h'.fine
  desc := h'.desc
  len := by
    have := h.len
    have := h'.len
    simp only
    omega
  named o := by rw [h'.named, h.named, Refs.of_append]; omega

theorem Edit.refl (h : Fine vs) : Edit vs (descAt vs) k (vs, []) where
  fine := h
  desc _ := rfl
  len := Nat.le_add_right _ _
  named o := by simp

theorem Edit.behind {pre suf : List Vma} {f : Nat → Option Desc} {r : List Vma × Refs}
    (h : Edit suf f k r) (hpre : Fine pre) (hlow : ∀ v ∈ pre, ∀ w ∈ r.1, v.stop ≤ w.start) :
    Edit (pre ++ suf) (fun x => (descAt pre x).or (f x)) k (pre ++ r.1, r.2) where
  fine := fine_append.mpr ⟨hpre, h.fine, hlow⟩
  desc x := by rw [descAt_append, h.desc]
  len := by
    have := h.len
    simp only [List.length_append]
    omega
  named o := by
    simp only [named_append, Int.natCast_add, h.named]
    omega

theorem descAt_before (h : ∀ v ∈ vs, x < v.start) : descAt vs x = none :=
  descAt_none fun v hv => Or.inr (h v hv)

theorem descAt_after (h : ∀ v ∈ vs, v.stop ≤ x) : descAt vs x = none :=
  descAt_none fun v hv => Or.inl (h v hv)

/-! ### `carve` -/

/-- What `carve` leaves of a function. -/
def without (start stop : Nat) (f : Nat → Option Desc) (x : Nat) : Option Desc :=
  if start ≤ x ∧ x < stop then none else f x

theorem carveFrom_low (hb : ∀ v ∈ vs, k ≤ v.start ∧ v.start < v.stop) :
    ∀ w ∈ (carveFrom start stop vs).1, k ≤ w.start := by
  induction vs with
  | nil => simp [carveFrom]
  | cons v vs ih =>
      obtain ⟨hv, hlt⟩ := hb v List.mem_cons_self
      have hrest : ∀ w ∈ vs, k ≤ w.start := fun w hw => (hb w (List.mem_cons_of_mem v hw)).1
      have hih := ih fun w hw => hb w (List.mem_cons_of_mem v hw)
      intro w hw
      rw [carveFrom] at hw
      split_ifs at hw with h₁ h₂ h₃ h₄
      · rcases List.mem_cons.mp hw with rfl | hw
        · exact hv
        · exact hrest w hw
      · simp only [List.mem_cons] at hw
        rcases hw with rfl | rfl | hw
        · exact hv
        · exact Nat.le_trans hv (Nat.le_of_lt (Nat.lt_of_not_le h₁))
        · exact hrest w hw
      · rcases List.mem_cons.mp hw with rfl | hw
        · exact hv
        · exact hih w hw
      · rcases List.mem_cons.mp hw with rfl | hw
        · exact Nat.le_trans hv (Nat.le_of_lt (Nat.lt_of_not_le h₁))
        · exact hrest w hw
      · exact hih w hw

/-- **The loop of `carve`**, over regions that end after the range begins. -/
theorem carveFrom_edit (hlt : start < stop) (hs : PAGE ∣ start) (he : PAGE ∣ stop) (h : Fine vs)
    (hafter : ∀ v ∈ vs, start < v.stop) :
    Edit vs (without start stop (descAt vs)) 1 (carveFrom start stop vs) := by
  induction vs with
  | nil =>
      refine ⟨fine_nil, fun x => ?_, Nat.zero_le _, fun o => rfl⟩
      simp only [carveFrom, without, descAt_nil, ite_self]
  | cons v vs ih =>
      obtain ⟨hv, hvs, hve, hrest, hfine⟩ := fine_cons.mp h
      have hend := hafter v List.mem_cons_self
      have hih := ih hfine fun w hw => hafter w (List.mem_cons_of_mem v hw)
      have hlow : ∀ w ∈ (carveFrom start stop vs).1, v.stop ≤ w.start :=
        carveFrom_low fun w hw => ⟨hrest w hw, hfine.sorted.lt w hw⟩
      have hbefore : ∀ y < v.stop, descAt vs y = none := fun y hy =>
        descAt_before fun w hw => Nat.lt_of_lt_of_le hy (hrest w hw)
      rw [carveFrom]
      split_ifs with h₁ h₂ h₃ h₄
      · -- the range ends before the regions begin
        refine ⟨h, fun x => ?_, Nat.le_add_right _ _, fun o => by simp⟩
        rw [without, eq_comm]
        refine ite_eq_right_iff.mpr fun hx => (descAt_before fun w hw => ?_).symm
        rcases List.mem_cons.mp hw with rfl | hw
        · omega
        · have := hrest w hw
          omega
      · -- the range is in the middle of a region
        refine ⟨?_, fun x => ?_, Nat.le_refl _, fun o => ?_⟩
        · refine fine_cons.mpr ⟨h₂.1, hvs, hs, fun w hw => ?_, fine_cons.mpr
            ⟨h₂.2, he, hve, hrest, hfine⟩⟩
          rcases List.mem_cons.mp hw with rfl | hw
          · exact Nat.le_of_lt hlt
          · exact Nat.le_trans (Nat.le_of_lt hend) (hrest w hw)
        · simp only [descAt_cons, without, Vma.tail]
          by_cases hx : stop ≤ x
          · have hd := Vma.desc_tail (x := x) hvs he (by omega) hx
            rw [Vma.tail] at hd
            split_ifs <;> first | omega | rfl | exact congrArg some hd
          · have := hbefore x
            split_ifs <;> first | omega | rfl | exact this (by omega)
        · simp only [named_cons, Vma.tail, Refs.of_cons, Refs.of_nil]
          split_ifs <;> omega
      · -- the region sticks out in front
        refine ⟨?_, fun x => ?_, ?_, fun o => ?_⟩
        · exact fine_cons.mpr ⟨h₃, hvs, hs,
            fun w hw => Nat.le_trans (Nat.le_of_lt hend) (hlow w hw), hih.fine⟩
        · simp only [descAt_cons, hih.desc, without]
          split_ifs <;> first | omega | rfl
        · have := hih.len
          simp only [List.length_cons]
          omega
        · have := hih.named o
          simp only [named_cons]
          split_ifs <;> omega
      · -- the region sticks out at the end
        refine ⟨fine_cons.mpr ⟨h₄, he, hve, hrest, hfine⟩, fun x => ?_, Nat.le_add_right _ _,
          fun o => by simp [named_cons, Vma.tail]⟩
        simp only [descAt_cons, without, Vma.tail]
        by_cases hx : stop ≤ x
        · have hd := Vma.desc_tail (x := x) hvs he (by omega) hx
          rw [Vma.tail] at hd
          split_ifs <;> first | omega | rfl | exact congrArg some hd
        · have := hbefore x
          split_ifs <;> first | omega | rfl | exact this (by omega)
      · -- the region is inside the range
        refine ⟨hih.fine, fun x => ?_, ?_, fun o => ?_⟩
        · simp only [descAt_cons, hih.desc, without]
          split_ifs <;> first | omega | rfl
        · have := hih.len
          simp only [List.length_cons]
          omega
        · have := hih.named o
          simp only [named_cons, Refs.of_cons]
          split_ifs <;> omega

/-- **`carve`** takes the range out of the function. -/
theorem carve_edit (hlt : start < stop) (hs : PAGE ∣ start) (he : PAGE ∣ stop) (h : Fine vs) :
    Edit vs (without start stop (descAt vs)) 1 (carve vs start stop) := by
  obtain ⟨pre, suf, hvs, hp, hsuf, -, hpre, hafter⟩ := h.cut start
  obtain ⟨hfp, hfs, hapart⟩ := fine_append.mp (hvs ▸ h)
  have hedit := carveFrom_edit hlt hs he hfs hafter
  have hlow : ∀ v ∈ pre, ∀ w ∈ (carveFrom start stop suf).1, v.stop ≤ w.start := fun v hv =>
    carveFrom_low fun w hw => ⟨hapart v hv w hw, hfs.sorted.lt w hw⟩
  have hb := hedit.behind hfp hlow
  simp only [carve, hp, hsuf]
  refine ⟨hb.fine, fun x => ?_, hvs ▸ hb.len, fun o => hvs ▸ hb.named o⟩
  rw [hb.desc, hvs]
  simp only [without, descAt_append]
  split_ifs with hx
  · rw [descAt_after fun v hv => Nat.le_trans (hpre v hv) hx.1, Option.none_or]
  · rfl

/-! ### `add_vma` -/

/-- What `add_vma` makes of a function. -/
def placed (v : Vma) (f : Nat → Option Desc) (x : Nat) : Option Desc :=
  if v.start ≤ x ∧ x < v.stop then some (v.desc x) else f x

theorem insertIdx_mid (pre suf : List Vma) :
    (pre ++ suf).insertIdx pre.length v = pre ++ v :: suf := by
  induction pre with
  | nil => rfl
  | cons w pre ih => simp only [List.cons_append, List.length_cons, List.insertIdx_succ_cons, ih]

theorem set_mid (pre suf : List Vma) :
    (pre ++ v :: suf).set pre.length w = pre ++ w :: suf := by
  rw [List.set_append_right _ _ (Nat.le_refl _), Nat.sub_self, List.set_cons_zero]

theorem split_pair (hv : vs[i]? = some v) (hw : vs[i + 1]? = some w) :
    ∃ pre suf, vs = pre ++ v :: w :: suf ∧ pre.length = i := by
  obtain ⟨hi, rfl⟩ := List.getElem?_eq_some_iff.mp hv
  obtain ⟨hj, rfl⟩ := List.getElem?_eq_some_iff.mp hw
  refine ⟨vs.take i, vs.drop (i + 2), ?_, by rw [List.length_take]; omega⟩
  rw [← List.drop_eq_getElem_cons hj, ← List.drop_eq_getElem_cons hi, List.take_append_drop]

theorem mergeAt_cases (vs : List Vma) (i : Nat) : mergeAt vs i = (vs, []) ∨
    ∃ x y, vs[i]? = some x ∧ vs[i + 1]? = some y ∧ mergeable x y = true ∧
      mergeAt vs i = ((vs.set i { x with stop := y.stop }).eraseIdx (i + 1), [(y.obj, -1)]) := by
  unfold mergeAt
  split
  · rename_i x y hx hy
    split_ifs with hm
    · exact .inr ⟨x, y, hx, hy, hm, rfl⟩
    · exact .inl rfl
  · exact .inl rfl

theorem mergeAt_split (vs : List Vma) (i : Nat) : mergeAt vs i = (vs, []) ∨
    ∃ pre x y suf, vs = pre ++ x :: y :: suf ∧ mergeable x y = true ∧
      mergeAt vs i = (pre ++ { x with stop := y.stop } :: suf, [(y.obj, -1)]) := by
  obtain h | ⟨x, y, hx, hy, hm, h⟩ := mergeAt_cases vs i
  · exact .inl h
  · obtain ⟨pre, suf, rfl, rfl⟩ := split_pair hx hy
    refine .inr ⟨pre, x, y, suf, rfl, hm, h.trans ?_⟩
    rw [set_mid, List.eraseIdx_append_of_length_le (Nat.le_add_right _ 1), Nat.add_sub_cancel_left]
    rfl

theorem mergeable_obj (h : mergeable v w = true) : v.obj = w.obj := by
  simp only [mergeable, Bool.and_eq_true, beq_iff_eq] at h
  exact h.1.1.2

/-- A region that was merged with the next says what the two said. -/
theorem desc_merged (hv : v.start < v.stop) (ha : PAGE ∣ v.start) (hb : PAGE ∣ v.stop)
    (h : mergeable v w = true) (hx : v.stop ≤ x) :
    ({ v with stop := w.stop } : Vma).desc x = w.desc x := by
  simp only [mergeable, Bool.and_eq_true, Bool.or_eq_true, beq_iff_eq] at h
  obtain ⟨⟨⟨⟨hstop, hprot⟩, hobj⟩, hino⟩, hoff⟩ := h
  have := pages_add ha hb (Nat.le_of_lt hv) hx
  rw [hobj, hino] at hoff
  simp only [Vma.desc, hprot, hobj, hino, ← hstop, Desc.mk.injEq, true_and]
  split_ifs with hanon
  · rfl
  · obtain hoff := hoff.resolve_left hanon
    omega

/-- Merging two neighbours changes nothing that the table says. -/
theorem mergeAt_edit (h : Fine vs) : Edit vs (descAt vs) 0 (mergeAt vs i) := by
  obtain he | ⟨pre, v, w, suf, rfl, hm, he⟩ := mergeAt_split vs i <;> rw [he]
  · exact .refl h
  · obtain ⟨hpre, hmid, hapart⟩ := fine_append.mp h
    obtain ⟨hv₁, hv₂, hv₃, hv₄, hw⟩ := fine_cons.mp hmid
    obtain ⟨hw₁, hw₂, hw₃, hw₄, hsuf⟩ := fine_cons.mp hw
    have hstop : v.stop = w.start := by
      have hm' := hm
      simp only [mergeable, Bool.and_eq_true, beq_iff_eq] at hm'
      exact hm'.1.1.1.1
    refine ⟨?_, fun x => ?_, ?_, fun o => ?_⟩
    · refine fine_append.mpr ⟨hpre, fine_cons.mpr ⟨by simp only; omega, hv₂, hw₃, hw₄, hsuf⟩,
        fun u hu t ht => ?_⟩
      rcases List.mem_cons.mp ht with rfl | ht
      · exact hapart u hu v List.mem_cons_self
      · exact hapart u hu t (List.mem_cons_of_mem _ (List.mem_cons_of_mem _ ht))
    · have hd := desc_merged (x := x) hv₁ hv₂ hv₃ hm
      simp only [descAt_append, descAt_cons]
      by_cases hx : v.stop ≤ x
      · rw [hd hx]
        congr 1
        split_ifs <;> first | omega | rfl
      · rw [Vma.desc_stop]
        congr 1
        split_ifs <;> first | omega | rfl
    · simp only [List.length_append, List.length_cons]
      omega
    · simp only [named_append, named_cons, Refs.of_cons, Refs.of_nil, mergeable_obj hm]
      split_ifs <;> omega

/-- **`add_vma`** puts a region where nothing was; with the reference it was given beforehand the
references come out even. -/
theorem addVma_edit (h : Fine vs) (hlt : v.start < v.stop) (hs : PAGE ∣ v.start)
    (he : PAGE ∣ v.stop) (hfree : overlaps vs v.start v.stop = false) :
    Edit vs (placed v (descAt vs)) 1 ((addVma vs v).1, (v.obj, 1) :: (addVma vs v).2) := by
  obtain ⟨pre, suf, hvs, -, -, hl, hpre, hafter⟩ := h.cut v.start
  obtain ⟨hfp, hfs, hapart⟩ := fine_append.mp (hvs ▸ h)
  have hnew : vs.insertIdx (lower vs v.start) v = pre ++ v :: suf := by
    rw [← hl]
    conv_lhs => rw [hvs]
    exact insertIdx_mid pre suf
  have hgap : ∀ w ∈ suf, v.stop ≤ w.start := fun w hw => by
    have := h.free hfree (hvs ▸ List.mem_append_right pre hw)
    have := hafter w hw
    omega
  have hfine : Fine (pre ++ v :: suf) := by
    refine fine_append.mpr ⟨hfp, fine_cons.mpr ⟨hlt, hs, he, hgap, hfs⟩, fun u hu w hw => ?_⟩
    rcases List.mem_cons.mp hw with rfl | hw
    · exact hpre u hu
    · exact hapart u hu w hw
  have hins : Edit vs (placed v (descAt vs)) 1 (pre ++ v :: suf, [(v.obj, 1)]) := by
    refine ⟨hfine, fun x => ?_, ?_, fun o => ?_⟩
    · simp only [hvs, placed, descAt_append, descAt_cons]
      split_ifs with hx
      · rw [descAt_after fun u hu => Nat.le_trans (hpre u hu) hx.1, Option.none_or]
      · rfl
    · simp only [hvs, List.length_append, List.length_cons]
      omega
    · simp only [hvs, named_append, named_cons, Refs.of_cons, Refs.of_nil]
      split_ifs <;> omega
  simp only [addVma, hnew]
  have hmerge : ∀ i ws, Edit vs (placed v (descAt vs)) 1 ws →
      Edit vs (placed v (descAt vs)) 1 ((mergeAt ws.1 i).1, ws.2 ++ (mergeAt ws.1 i).2) :=
    fun i ws hws => by
      have ht := hws.trans (mergeAt_edit (i := i) hws.fine)
      exact ⟨ht.fine, fun x => (ht.desc x).trans (hws.desc x), ht.len, ht.named⟩
  split_ifs with hi
  · exact hmerge _ _ (hmerge _ _ hins)
  · exact hmerge _ _ (hmerge _ _ hins)
  · exact hmerge _ _ hins

/-! ### `mprotect` -/

/-- What `mprotect` makes of a function. -/
def reprot (start stop prot : Nat) (f : Nat → Option Desc) (x : Nat) : Option Desc :=
  if start ≤ x ∧ x < stop then (f x).map fun d => { d with prot := prot } else f x

/-- No region has address `addr` in its middle. -/
def Cut (vs : List Vma) (addr : Nat) : Prop := ∀ v ∈ vs, v.stop ≤ addr ∨ addr ≤ v.start

/-- The table that `split_at` leaves: the old one, or a region in two. -/
theorem splitAt_cases (h : Fine vs) (addr : Nat) : Cut vs addr ∧ splitAt vs addr = (vs, []) ∨
    ∃ pre suf v, vs = pre ++ v :: suf ∧ v.start < addr ∧ addr < v.stop ∧
      splitAt vs addr = (pre ++ { v with stop := addr } :: v.tail addr :: suf, [(v.obj, 1)]) := by
  obtain ⟨pre, suf, hvs, -, -, hl, hpre, hafter⟩ := h.cut addr
  have hfst := getElem?_cut hvs hl 0
  rw [Nat.add_zero] at hfst
  rw [splitAt, hfst]
  cases suf with
  | nil =>
      refine .inl ⟨fun v hv => .inl (hpre v ?_), rfl⟩
      rwa [hvs, List.append_nil] at hv
  | cons v suf =>
      have hv := hafter v List.mem_cons_self
      simp only [List.getElem?_cons_zero]
      by_cases hs : addr ≤ v.start ∨ v.stop ≤ addr
      · rw [if_pos hs]
        refine .inl ⟨fun w hw => ?_, rfl⟩
        rw [hvs] at hw
        obtain ⟨-, -, -, hrest, -⟩ := fine_cons.mp (fine_append.mp (hvs ▸ h)).2.1
        rcases List.mem_append.mp hw with hw | hw
        · exact .inl (hpre w hw)
        · rcases List.mem_cons.mp hw with rfl | hw
          · exact hs.symm
          · have := hrest w hw
            omega
      · rw [if_neg hs]
        refine .inr ⟨pre, suf, v, hvs, by omega, hv, ?_⟩
        rw [← hl, hvs, set_mid]
        have := insertIdx_mid (v := v.tail addr) (pre ++ [{ v with stop := addr }]) suf
        simp only [List.append_assoc, List.cons_append, List.nil_append, List.length_append,
          List.length_cons, List.length_nil, Nat.zero_add] at this
        rw [this]

theorem splitAt_edit (h : Fine vs) (ha : PAGE ∣ addr) :
    Edit vs (descAt vs) 1 (splitAt vs addr) := by
  rcases splitAt_cases h addr with ⟨-, heq⟩ | ⟨pre, suf, v, rfl, hlt, hgt, heq⟩
  · rw [heq]
    exact .refl h
  · rw [heq]
    obtain ⟨hpre, hmid, hapart⟩ := fine_append.mp h
    obtain ⟨hv₁, hv₂, hv₃, hv₄, hsuf⟩ := fine_cons.mp hmid
    refine ⟨?_, fun x => ?_, ?_, fun o => ?_⟩
    · refine fine_append.mpr ⟨hpre, fine_cons.mpr ⟨hlt, hv₂, ha, fun w hw => ?_, fine_cons.mpr
        ⟨hgt, ha, hv₃, hv₄, hsuf⟩⟩, fun u hu w hw => ?_⟩
      · rcases List.mem_cons.mp hw with rfl | hw
        · exact Nat.le_refl _
        · exact Nat.le_trans (Nat.le_of_lt hgt) (hv₄ w hw)
      · have := hapart u hu
        simp only [List.mem_cons] at hw this
        rcases hw with rfl | rfl | hw
        · exact this v (.inl rfl)
        · exact Nat.le_trans (this v (.inl rfl)) (Nat.le_of_lt hlt)
        · exact this w (.inr hw)
    · simp only [descAt_append, descAt_cons, Vma.tail]
      congr 1
      by_cases hx : addr ≤ x
      · have hd := Vma.desc_tail (x := x) hv₂ ha (Nat.le_of_lt hlt) hx
        rw [Vma.tail] at hd
        split_ifs <;> first | omega | rfl | exact congrArg some hd
      · split_ifs <;> first | omega | rfl
    · simp only [List.length_append, List.length_cons]
      omega
    · simp only [named_append, named_cons, Vma.tail, Refs.of_cons, Refs.of_nil]
      split_ifs <;> omega

/-- After a split no region has the address in its middle. -/
theorem splitAt_cut (h : Fine vs) : Cut (splitAt vs addr).1 addr := by
  rcases splitAt_cases h addr with ⟨hcut, heq⟩ | ⟨pre, suf, v, rfl, hlt, hgt, heq⟩
  · rw [heq]
    exact hcut
  · rw [heq]
    obtain ⟨-, hmid, hapart⟩ := fine_append.mp h
    obtain ⟨-, -, -, hv₄, -⟩ := fine_cons.mp hmid
    intro w hw
    simp only [List.mem_append, List.mem_cons] at hw
    rcases hw with hw | rfl | rfl | hw
    · have := hapart w hw v List.mem_cons_self
      omega
    · exact .inl (Nat.le_refl _)
    · exact .inr (Nat.le_refl _)
    · have := hv₄ w hw
      omega

/-- A split keeps the addresses that were in no region's middle so. -/
theorem Cut.splitAt (h : Fine vs) (hc : Cut vs k) : Cut (splitAt vs addr).1 k := by
  rcases splitAt_cases h addr with ⟨-, heq⟩ | ⟨pre, suf, v, rfl, hlt, hgt, heq⟩
  · rw [heq]
    exact hc
  · rw [heq]
    intro w hw
    have hv := hc v (List.mem_append_right _ List.mem_cons_self)
    simp only [List.mem_append, List.mem_cons] at hw
    rcases hw with hw | rfl | rfl | hw
    · exact hc w (List.mem_append_left _ hw)
    · simp only
      omega
    · simp only [Vma.tail]
      omega
    · exact hc w (List.mem_append_right _ (List.mem_cons_of_mem _ hw))

/-- **The loop of `mprotect`**, over regions from the start of the range on. -/
theorem protFrom_edit (h : Fine vs) (hc : Cut vs stop) (hfrom : ∀ v ∈ vs, start ≤ v.start) :
    Edit vs (reprot start stop prot (descAt vs)) 0 (protFrom stop prot vs, []) ∧
      ∀ k, (∀ v ∈ vs, k ≤ v.start) → ∀ w ∈ protFrom stop prot vs, k ≤ w.start := by
  induction vs with
  | nil =>
      refine ⟨⟨fine_nil, fun x => ?_, Nat.le_refl _, fun o => rfl⟩, fun k _ w hw => ?_⟩
      · simp only [protFrom, reprot, descAt_nil, Option.map_none, ite_self]
      · simp [protFrom] at hw
  | cons v vs ih =>
      obtain ⟨hv, hvs, hve, hrest, hfine⟩ := fine_cons.mp h
      have hvc := hc v List.mem_cons_self
      have hvf := hfrom v List.mem_cons_self
      obtain ⟨hih, hlow⟩ := ih hfine (fun w hw => hc w (List.mem_cons_of_mem v hw))
        fun w hw => hfrom w (List.mem_cons_of_mem v hw)
      rw [protFrom]
      split_ifs with hs
      · refine ⟨⟨fine_cons.mpr ⟨hv, hvs, hve, hlow v.stop hrest, hih.fine⟩, fun x => ?_, ?_,
          fun o => ?_⟩, fun k hk w hw => ?_⟩
        · simp only [descAt_cons, hih.desc, reprot]
          split_ifs <;> first | omega | rfl
        · have := hih.len
          simp only [List.length_cons] at this ⊢
          omega
        · have := hih.named o
          simp only [named_cons, Refs.of_nil] at this ⊢
          split_ifs <;> omega
        · rcases List.mem_cons.mp hw with rfl | hw
          · exact hk v List.mem_cons_self
          · exact hlow k (fun u hu => hk u (List.mem_cons_of_mem v hu)) w hw
      · refine ⟨⟨h, fun x => ?_, Nat.le_refl _, fun o => by simp⟩, fun k hk => hk⟩
        rw [reprot]
        split_ifs with hx
        · rw [descAt_before fun w hw => ?_, Option.map_none]
          rcases List.mem_cons.mp hw with rfl | hw
          · omega
          · have := hrest w hw
            omega
        · rfl

/-- **The table part of `mprotect`** changes the protection of the range. -/
theorem protect_edit (prot : Nat) (h : Fine vs) (hs : PAGE ∣ start) (he : PAGE ∣ stop) :
    Edit vs (reprot start stop prot (descAt vs)) 2 (protect vs start stop prot) := by
  have ha := splitAt_edit h hs
  have hb := splitAt_edit ha.fine he
  have hab := ha.trans hb
  have hstart : Cut (splitAt (splitAt vs start).1 stop).1 start := (splitAt_cut h).splitAt ha.fine
  have hstop : Cut (splitAt (splitAt vs start).1 stop).1 stop := splitAt_cut ha.fine
  obtain ⟨pre, suf, hvs, hp, hsuf, -, hpre, hafter⟩ := hb.fine.cut start
  simp only [protect, hp, hsuf]
  obtain ⟨hfp, hfs, hapart⟩ := fine_append.mp (hvs ▸ hb.fine)
  have hfrom : ∀ v ∈ suf, start ≤ v.start := fun v hv => by
    have := hstart v (hvs ▸ List.mem_append_right pre hv)
    have := hafter v hv
    omega
  obtain ⟨hedit, hlow⟩ := protFrom_edit hfs
    (fun v hv => hstop v (hvs ▸ List.mem_append_right pre hv)) hfrom
  have hall := hab.trans (hvs ▸ hedit.behind hfp fun v hv => hlow _ (hapart v hv))
  refine ⟨hall.fine, fun x => ?_, hall.len, by simpa using hall.named⟩
  have hold : descAt vs x = (descAt pre x).or (descAt suf x) := by
    rw [← descAt_append, ← hvs, hb.desc, ha.desc]
  rw [hall.desc, reprot, reprot, hold]
  split_ifs with hx
  · rw [descAt_after fun v hv => Nat.le_trans (hpre v hv) hx.1, Option.none_or, Option.none_or]
  · rfl

/-! ### The searches -/

/-- The loop of `covered` accepts only a range that is mapped all over. -/
theorem coveredFrom_mapped (h : Fine vs) (hafter : ∀ v ∈ vs, k < v.stop)
    (hc : coveredFrom stop k vs = true) (hx : k ≤ x) (hlt : x < stop) : descAt vs x ≠ none := by
  induction vs generalizing k with
  | nil =>
      simp only [coveredFrom, decide_eq_true_eq] at hc
      omega
  | cons v vs ih =>
      obtain ⟨-, -, -, hrest, hfine⟩ := fine_cons.mp h
      rw [coveredFrom, if_pos (by omega)] at hc
      split_ifs at hc with hs
      rw [descAt_cons]
      split_ifs with hin
      · simp
      · refine ih hfine (fun w hw => ?_) hc ?_
        · exact Nat.lt_of_le_of_lt (hrest w hw) (hfine.sorted.lt w hw)
        · omega

/-- **`covered`** accepts only a range that is mapped all over. -/
theorem covered_mapped (h : Fine vs) (hc : covered vs start stop = true) (hx : start ≤ x)
    (hlt : x < stop) : descAt vs x ≠ none := by
  obtain ⟨pre, suf, hvs, -, hsuf, -, hpre, hafter⟩ := h.cut start
  rw [covered, hsuf] at hc
  rw [hvs, descAt_append, descAt_after fun v hv => Nat.le_trans (hpre v hv) hx, Option.none_or]
  exact coveredFrom_mapped (fine_append.mp (hvs ▸ h)).2.1 hafter hc hx hlt

/-- What the loop of `gap_from` finds. -/
theorem gapLoop_spec {len : Nat} (h : Fine vs) (hk : PAGE ∣ k)
    (hg : gapLoop len k vs = some addr) : k ≤ addr ∧ addr + len ≤ MMAP_END ∧ PAGE ∣ addr ∧
      ∀ v ∈ vs, v.stop ≤ addr ∨ addr + len ≤ v.start := by
  induction vs generalizing k with
  | nil =>
      rw [gapLoop] at hg
      split_ifs at hg with h₁ h₂
      cases hg
      exact ⟨Nat.le_refl _, by omega, hk, fun v hv => by simp at hv⟩
  | cons v vs ih =>
      obtain ⟨-, -, hve, hrest, hfine⟩ := fine_cons.mp h
      rw [gapLoop] at hg
      split_ifs at hg with h₁ h₂ h₃
      · cases hg
        refine ⟨Nat.le_refl _, by omega, hk, fun w hw => .inr ?_⟩
        rcases List.mem_cons.mp hw with rfl | hw
        · exact h₃
        · have := hrest w hw
          have := hfine.sorted.lt w hw
          have := h.sorted.lt v List.mem_cons_self
          omega
      · have hmax : PAGE ∣ max k v.stop := by
          rcases Nat.le_total k v.stop with hle | hle
          · rwa [Nat.max_eq_right hle]
          · rwa [Nat.max_eq_left hle]
        obtain ⟨h₄, h₅, h₆, h₇⟩ := ih hfine hmax hg
        refine ⟨Nat.le_trans (Nat.le_max_left _ _) h₄, h₅, h₆, fun w hw => ?_⟩
        rcases List.mem_cons.mp hw with rfl | hw
        · exact .inl (Nat.le_trans (Nat.le_max_right _ _) h₄)
        · exact h₇ w hw

/-- **`gap_from`** finds a free range of the region of `mmap`. -/
theorem gapFrom_spec {len fro : Nat} (h : Fine vs) (hf : PAGE ∣ fro)
    (hg : gapFrom vs fro len = some addr) : MMAP_BASE ≤ addr ∧ addr + len ≤ MMAP_END ∧
      PAGE ∣ addr ∧ overlaps vs addr (addr + len) = false := by
  have hbase : PAGE ∣ MMAP_BASE := by decide
  have hk : PAGE ∣ max fro MMAP_BASE := by
    rcases Nat.le_total fro MMAP_BASE with hle | hle
    · rwa [Nat.max_eq_right hle]
    · rwa [Nat.max_eq_left hle]
  obtain ⟨pre, suf, hvs, -, hsuf, -, hpre, -⟩ := h.cut (max fro MMAP_BASE)
  simp only [gapFrom, hsuf] at hg
  obtain ⟨h₁, h₂, h₃, h₄⟩ := gapLoop_spec (fine_append.mp (hvs ▸ h)).2.1 hk hg
  refine ⟨Nat.le_trans (Nat.le_max_right _ _) h₁, h₂, h₃, ?_⟩
  refine Bool.eq_false_iff.mpr fun hc => ?_
  obtain ⟨v, hv, h₅, h₆⟩ := h.overlaps_iff.mp hc
  rw [hvs] at hv
  rcases List.mem_append.mp hv with hv | hv
  · have := hpre v hv
    omega
  · have := h₄ v hv
    omega

end Pulsar.Vm

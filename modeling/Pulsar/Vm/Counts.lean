import Pulsar.Lib.Count
import Pulsar.Vm.Refine
import Pulsar.Proc.State

/-!
# The references that regions hold to objects

An object counts in `map_refs` the regions of all spaces that name it.  A change of a table lists
the references that move with it; `Due rs s` says that the counts are right up to the changes `rs`
that are still to be made, in their order.  A list of changes is `Sound` for a table when the
references it adds are those of regions in the table, so that no object goes on the way.

* `Objs.edit`, `Objs.addVma`, `Objs.cloneSpace`, `Objs.release`: what is done to a table keeps `Objs`.
* `keeps_munmap`, `keeps_mprotect`, `keeps_mremap`: the calls keep it, also when they fail.
-/

namespace Pulsar.Vm

open Proc (MAX_PROCS)

variable {vs ws : List Vma} {v w : Vma} {o i k : Nat} {r : Nat × Int} {rs : Refs} {s t : Mm}

/-! ### Changes of a table -/

/-- The references to object `o` that the list adds. -/
def Refs.added (o : Nat) (rs : Refs) : Nat := rs.countP fun r => decide (r.1 = o ∧ r.2 = 1)

/-- A new table and its changes of references, against the old table. -/
structure Sound (vs : List Vma) (r : List Vma × Refs) : Prop where
  named : ∀ o ≠ 0, (named o r.1 : Int) = named o vs + Refs.of o r.2
  unit : ∀ x ∈ r.2, x.2 = 1 ∨ x.2 = -1
  added : ∀ o ≠ 0, Refs.added o r.2 = 0 ∨ Refs.added o r.2 < Vm.named o r.1

@[simp] theorem Refs.added_nil : Refs.added o [] = 0 := rfl

theorem Refs.added_cons : Refs.added o (r :: rs) =
    Refs.added o rs + if r.1 = o ∧ r.2 = 1 then 1 else 0 := by
  simp only [Refs.added, List.countP_cons, decide_eq_true_eq]

theorem Sound.refl (vs : List Vma) : Sound vs (vs, []) :=
  ⟨fun o _ => by rw [Refs.of_nil, Int.add_zero], fun x hx => absurd hx List.not_mem_nil,
    fun o _ => .inl rfl⟩

/-- A change behind regions that stay. -/
theorem Sound.behind {pre suf : List Vma} {r : List Vma × Refs} (h : Sound suf r) :
    Sound (pre ++ suf) (pre ++ r.1, r.2) where
  named o ho := by
    simp only [named_append, Int.natCast_add, h.named o ho]
    omega
  unit := h.unit
  added o ho := by
    simp only [named_append]
    rcases h.added o ho with h₁ | h₁
    · exact .inl h₁
    · exact .inr (by omega)

/-- A region that goes takes its reference with it. -/
theorem Sound.drop {r : List Vma × Refs} (h : Sound vs r) :
    Sound (v :: vs) (r.1, (v.obj, -1) :: r.2) where
  named o ho := by
    simp only [named_cons, Refs.of_cons, Int.natCast_add, h.named o ho]
    split_ifs <;> simp
  unit x hx := by
    rcases List.mem_cons.mp hx with rfl | hx
    · exact .inr rfl
    · exact h.unit x hx
  added o ho := by
    rw [Refs.added_cons, if_neg (by simp)]
    exact h.added o ho

/-- A region that stays, perhaps with other bounds. -/
theorem Sound.keep {r : List Vma × Refs} (h : Sound vs r) (hw : w.obj = v.obj) :
    Sound (v :: vs) (w :: r.1, r.2) where
  named o ho := by
    simp only [named_cons, hw, Int.natCast_add, h.named o ho]
    omega
  unit := h.unit
  added o ho := by
    simp only [named_cons]
    rcases h.added o ho with h₁ | h₁
    · exact .inl h₁
    · exact .inr (by omega)

theorem Sound.split {x y : Vma} (hx : x.obj = v.obj) (hy : y.obj = v.obj) :
    Sound (v :: vs) (x :: y :: vs, [(v.obj, 1)]) where
  named o _ := by
    simp only [named_cons, hx, hy, Refs.of_cons, Refs.of_nil]
    split_ifs <;> simp
  unit z hz := by
    obtain rfl := List.mem_singleton.mp hz
    exact .inl rfl
  added o _ := by
    simp only [Refs.added_cons, Refs.added_nil, named_cons, hx, hy, and_true]
    split_ifs
    · exact .inr (by omega)
    · exact .inl rfl

theorem carveFrom_sound (start stop : Nat) (vs : List Vma) : Sound vs (carveFrom start stop vs) := by
  induction vs with
  | nil => exact .refl []
  | cons v vs ih =>
      rw [carveFrom]
      split_ifs with h₁ h₂ h₃ h₄
      · exact .refl _
      · exact .split rfl rfl
      · exact ih.keep rfl
      · exact (Sound.refl vs).keep rfl
      · exact ih.drop

theorem carve_sound (vs : List Vma) (start stop : Nat) : Sound vs (carve vs start stop) := by
  have h : Sound (vs.take (lower vs start) ++ vs.drop (lower vs start)) (carve vs start stop) :=
    (carveFrom_sound start stop (vs.drop (lower vs start))).behind
  rwa [List.take_append_drop] at h

theorem splitAt_sound (vs : List Vma) (addr : Nat) : Sound vs (splitAt vs addr) := by
  rw [splitAt]
  cases hv : vs[lower vs addr]? with
  | none => exact .refl vs
  | some v =>
      simp only
      split_ifs with hs
      · exact .refl vs
      · obtain ⟨hi, rfl⟩ := List.getElem?_eq_some_iff.mp hv
        obtain ⟨pre, hpre⟩ : ∃ pre, pre = vs.take (lower vs addr) := ⟨_, rfl⟩
        obtain ⟨suf, hsuf⟩ : ∃ suf, suf = vs.drop (lower vs addr + 1) := ⟨_, rfl⟩
        have hlen : pre.length = lower vs addr := by
          rw [hpre, List.length_take]
          omega
        have hvs : vs = pre ++ vs[lower vs addr] :: suf := by
          rw [hpre, hsuf, ← List.drop_eq_getElem_cons hi, List.take_append_drop]
        obtain ⟨v, hv'⟩ : ∃ v, v = vs[lower vs addr] := ⟨_, rfl⟩
        rw [← hv'] at hvs ⊢
        rw [← hlen]
        have hnew : (vs.set pre.length { v with stop := addr }).insertIdx (pre.length + 1)
            (v.tail addr) = pre ++ { v with stop := addr } :: v.tail addr :: suf := by
          rw [hvs, set_mid]
          have := insertIdx_mid (v := v.tail addr) (pre ++ [{ v with stop := addr }]) suf
          simp only [List.append_assoc, List.cons_append, List.nil_append, List.length_append,
            List.length_cons, List.length_nil, Nat.zero_add] at this
          rw [this]
        rw [hnew]
        conv in Sound vs => rw [hvs]
        have hsplit : Sound (v :: suf) ({ v with stop := addr } :: v.tail addr :: suf,
            [(v.obj, 1)]) := .split rfl rfl
        exact hsplit.behind

/-- Merging two neighbours drops the reference of the second. -/
theorem mergeAt_sound (vs : List Vma) (i : Nat) : Sound vs (mergeAt vs i) ∧
    ∀ x ∈ (mergeAt vs i).2, x.2 = -1 := by
  obtain h | ⟨pre, x, y, suf, rfl, -, h⟩ := mergeAt_split vs i <;> rw [h]
  · exact ⟨.refl vs, by simp⟩
  · have hmerge : Sound (x :: y :: suf) ({ x with stop := y.stop } :: suf, [(y.obj, -1)]) :=
      (Sound.refl suf).drop.keep rfl
    exact ⟨hmerge.behind, by simp⟩

/-- What merging with the neighbours drops. -/
theorem addVma_sound (vs : List Vma) (v : Vma) : (∀ o ≠ 0, (named o (addVma vs v).1 : Int) =
      named o vs + Refs.of o ((v.obj, 1) :: (addVma vs v).2)) ∧
    ∀ x ∈ (addVma vs v).2, x.2 = -1 := by
  have hins : ∀ o, (named o (vs.insertIdx (lower vs v.start) v) : Int) =
      named o vs + Refs.of o [(v.obj, 1)] := fun o => by
    obtain ⟨pre, hpre⟩ : ∃ pre, pre = vs.take (lower vs v.start) := ⟨_, rfl⟩
    obtain ⟨suf, hsuf⟩ : ∃ suf, suf = vs.drop (lower vs v.start) := ⟨_, rfl⟩
    have hvs : vs = pre ++ suf := by rw [hpre, hsuf, List.take_append_drop]
    have hlen : pre.length = lower vs v.start := by
      rw [hpre, List.length_take]
      exact Nat.min_eq_left (Spans.lower_le vs v.start)
    have hnew : vs.insertIdx pre.length v = pre ++ v :: suf := by
      conv_lhs => rw [hvs]
      exact insertIdx_mid pre suf
    rw [← hlen, hnew]
    conv_rhs => rw [hvs]
    simp only [named_append, named_cons, Refs.of_cons, Refs.of_nil]
    split_ifs <;> omega
  have hmerge : ∀ (ws : List Vma) (rs : Refs) (j : Nat),
      (∀ o ≠ 0, (named o ws : Int) = named o vs + Refs.of o ((v.obj, 1) :: rs)) →
      (∀ x ∈ rs, x.2 = -1) → (∀ o ≠ 0, (named o (mergeAt ws j).1 : Int) =
        named o vs + Refs.of o ((v.obj, 1) :: (rs ++ (mergeAt ws j).2))) ∧
      ∀ x ∈ rs ++ (mergeAt ws j).2, x.2 = -1 := fun ws rs j hw hr => by
    obtain ⟨hs, hd⟩ := mergeAt_sound ws j
    refine ⟨fun o ho => ?_, fun x hx => ?_⟩
    · rw [hs.named o ho, hw o ho, Refs.of_cons, Refs.of_cons, Refs.of_append]
      omega
    · exact (List.mem_append.mp hx).elim (hr x) (hd x)
  have hone : ∀ j, (∀ o ≠ 0, (named o (mergeAt (vs.insertIdx (lower vs v.start) v) j).1 : Int) =
      named o vs + Refs.of o ((v.obj, 1) :: (mergeAt (vs.insertIdx (lower vs v.start) v) j).2)) ∧
      ∀ x ∈ (mergeAt (vs.insertIdx (lower vs v.start) v) j).2, x.2 = -1 := fun j =>
    hmerge _ [] j (fun o _ => hins o) (by simp)
  simp only [addVma]
  split_ifs with hi
  · exact hmerge _ _ _ (hone _).1 (hone _).2
  · exact hmerge _ _ _ (hone _).1 (hone _).2
  · exact hone _

/-- Merging leaves a region of each object that had one. -/
theorem named_mergeAt (vs : List Vma) (i : Nat) (h : 0 < named o vs) :
    0 < named o (mergeAt vs i).1 := by
  obtain he | ⟨pre, x, y, suf, rfl, hm, he⟩ := mergeAt_split vs i <;> rw [he]
  · exact h
  · rw [named_append, named_cons, named_cons, ← mergeable_obj hm] at h
    rw [named_append, named_cons]
    split_ifs at h ⊢ <;> omega

theorem named_addVma (vs : List Vma) (v : Vma) : 0 < named v.obj (addVma vs v).1 := by
  have hins : 0 < named v.obj (vs.insertIdx (lower vs v.start) v) := by
    refine List.countP_pos_iff.mpr ⟨v, ?_, by simp⟩
    exact (List.mem_insertIdx (Spans.lower_le vs v.start)).mpr (.inl rfl)
  unfold addVma
  simp only
  split_ifs
  · exact named_mergeAt _ _ (named_mergeAt _ _ hins)
  · exact named_mergeAt _ _ (named_mergeAt _ _ hins)
  · exact named_mergeAt _ _ hins

theorem Refs.added_of_down (h : ∀ x ∈ rs, x.2 = -1) : Refs.added o rs = 0 :=
  List.countP_eq_zero.mpr fun x hx => by simp [h x hx]

/-- A region of no object is added. -/
theorem add_sound (vs : List Vma) (start stop prot : Nat) : Sound vs (add vs start stop prot) := by
  obtain ⟨hn, hd⟩ := addVma_sound vs (.anon start stop prot)
  refine ⟨fun o ho => ?_, fun x hx => .inr (hd x hx), fun o _ => .inl (Refs.added_of_down hd)⟩
  have hobj : (Vma.anon start stop prot).obj ≠ o := Ne.symm ho
  have := hn o ho
  rw [Refs.of_cons, if_neg hobj, Int.zero_add] at this
  exact this

theorem Refs.of_added (h : ∀ x ∈ rs, x.2 = 1) : Refs.of o rs = Refs.added o rs := by
  induction rs with
  | nil => rfl
  | cons x rs ih =>
      rw [Refs.of_cons, Refs.added_cons, ih fun y hy => h y (List.mem_cons_of_mem x hy),
        h x List.mem_cons_self]
      by_cases hx : x.1 = o
      · rw [if_pos hx, if_pos ⟨hx, rfl⟩]
        omega
      · rw [if_neg hx, if_neg fun hc => hx hc.1]
        omega

/-- A second change that only adds references. -/
theorem Sound.trans {r q : List Vma × Refs} (h : Sound vs r) (h' : Sound r.1 q)
    (hup : ∀ x ∈ q.2, x.2 = 1) : Sound vs (q.1, r.2 ++ q.2) where
  named o ho := by
    rw [h'.named o ho, h.named o ho, Refs.of_append]
    omega
  unit x hx := (List.mem_append.mp hx).elim (h.unit x) (h'.unit x)
  added o ho := by
    have hsum : Refs.added o (r.2 ++ q.2) = Refs.added o r.2 + Refs.added o q.2 :=
      List.countP_append
    have hn := h'.named o ho
    rw [Refs.of_added hup] at hn
    simp only [hsum]
    have h₁ := h.added o ho
    have h₂ := h'.added o ho
    omega

theorem splitAt_up (vs : List Vma) (addr : Nat) : ∀ x ∈ (splitAt vs addr).2, x.2 = 1 := by
  intro x hx
  rw [splitAt] at hx
  cases hv : vs[lower vs addr]? with
  | none => simp [hv] at hx
  | some v =>
      simp only [hv] at hx
      split_ifs at hx
      · exact absurd hx (by simp)
      · obtain rfl := List.mem_singleton.mp hx
        rfl

theorem protFrom_named (stop prot : Nat) (vs : List Vma) :
    named o (protFrom stop prot vs) = named o vs := by
  induction vs with
  | nil => rfl
  | cons v vs ih =>
      rw [protFrom]
      split_ifs
      · rw [named_cons, named_cons, ih]
      · rfl

theorem protect_sound (vs : List Vma) (start stop prot : Nat) :
    Sound vs (protect vs start stop prot) := by
  have hsplit := (splitAt_sound vs start).trans (splitAt_sound (splitAt vs start).1 stop)
    (splitAt_up _ _)
  have hnamed : ∀ o, named o (protect vs start stop prot).1 =
      named o (splitAt (splitAt vs start).1 stop).1 := fun o => by
    rw [protect]
    simp only [named_append, protFrom_named]
    rw [← named_append, List.take_append_drop]
  exact ⟨fun o ho => by rw [hnamed]; exact hsplit.named o ho, hsplit.unit,
    fun o ho => by rw [hnamed]; exact hsplit.added o ho⟩

/-! ### The counts of the objects -/

/-- The regions of all spaces that name object `o`. -/
def total (o : Nat) (s : Mm) : Nat := ∑ l ∈ Finset.range MAX_PROCS, named o (s.spaces l).vmas

/-- The counts are right, up to changes that are still to be made. -/
structure Due (rs : Refs) (s : Mm) : Prop where
  live : ∀ o ≠ 0, s.HasObj o → ((s.objs o).mapRefs : Int) + Refs.of o rs = total o s
  dead : ∀ o ≠ 0, ¬ s.HasObj o → total o s = 0 ∧ ∀ x ∈ rs, x.1 ≠ o

/-- Something holds the object: a descriptor, a region, its name, or the call that made it. -/
def Held (anon : List Nat) (o : Nat) (s : Mm) : Prop :=
  0 < (s.objs o).fdRefs ∨ 0 < (s.objs o).mapRefs ∨ (s.objs o).name.isSome = true ∨ o ∈ anon

/-- The objects are counted, up to changes to be made, and each that is in use is held. -/
structure Objs (anon : List Nat) (rs : Refs) (s : Mm) : Prop where
  due : Due rs s
  held : ∀ o, s.HasObj o → Held anon o s

variable {anon : List Nat} {l id : Nat} {d : Int} {sp : Space}

theorem total_congr (h : ∀ l, (t.spaces l).vmas = (s.spaces l).vmas) : total o t = total o s :=
  Finset.sum_congr rfl fun l _ => by rw [h l]

theorem total_setSpace (sp : Space) (hl : l < MAX_PROCS) : total o (s.setSpace l sp) +
    named o (s.spaces l).vmas = total o s + named o sp.vmas := by
  have h := sum_range_change hl (f := fun j => named o (s.spaces j).vmas)
    (g := fun j => named o ((s.setSpace l sp).spaces j).vmas) fun j hj => by
      rw [Mm.spaces_setSpace_of_ne hj]
  simp only [Mm.spaces_setSpace_self] at h
  exact h

theorem named_le_total (hl : l < MAX_PROCS) : named o (s.spaces l).vmas ≤ total o s :=
  Finset.single_le_sum (f := fun l => named o (s.spaces l).vmas) (fun _ _ => Nat.zero_le _)
    (Finset.mem_range.mpr hl)

namespace Mm

theorem hasObj_setObj {x : Obj} : (s.setObj id x).HasObj o ↔
    if o = id then 1 ≤ id ∧ id ≤ MAX_OBJS ∧ x.used = true else s.HasObj o := by
  unfold HasObj
  split_ifs with h
  · rw [h, objs_setObj_self]
  · rw [objs_setObj_of_ne h]

/-- What `maybe_free` does: nothing, or the object goes, which nothing held. -/
theorem maybeFree_cases (s : Mm) (id : Nat) : s.maybeFree id = s ∧
      (s.HasObj id → 0 < (s.objs id).fdRefs ∨ 0 < (s.objs id).mapRefs ∨
        (s.objs id).name.isSome = true) ∨
    s.HasObj id ∧ (s.objs id).fdRefs = 0 ∧ (s.objs id).mapRefs = 0 ∧ (s.objs id).name = none ∧
      ∃ fr, s.maybeFree id = (s.setFrames fr).setObj id .empty := by
  unfold maybeFree
  by_cases h : s.HasObj id
  · rw [if_pos h]
    simp only
    split_ifs with hr
    · exact .inl ⟨rfl, fun _ => hr⟩
    · rw [not_or, not_or] at hr
      exact .inr ⟨h, Nat.eq_zero_of_not_pos hr.1, Nat.eq_zero_of_not_pos hr.2.1,
        Option.not_isSome_iff_eq_none.mp hr.2.2, _, rfl⟩
  · rw [if_neg h]
    exact .inl ⟨rfl, fun hc => absurd hc h⟩

end Mm

/-- The object goes when nothing holds it. -/
theorem Objs.maybeFree (h : Due rs s) (hh : ∀ o ≠ id, s.HasObj o → Held anon o s)
    (hn : (s.objs id).mapRefs = 0 → total id s = 0 ∧ ∀ x ∈ rs, x.1 ≠ id) :
    Objs anon rs (s.maybeFree id) := by
  rcases Mm.maybeFree_cases s id with ⟨heq, hr⟩ | ⟨hid, -, hm, -, fr, heq⟩
  · rw [heq]
    refine ⟨h, fun o ho => ?_⟩
    by_cases e : o = id
    · subst e
      rcases hr ho with hr | hr | hr
      · exact .inl hr
      · exact .inr (.inl hr)
      · exact .inr (.inr (.inl hr))
    · exact hh o e ho
  · have hother : ∀ o, o ≠ id → ((s.setFrames fr).setObj id .empty).objs o = s.objs o :=
      fun o ho => Mm.objs_setObj_of_ne ho
    have hhas : ∀ o, ((s.setFrames fr).setObj id .empty).HasObj o ↔ o ≠ id ∧ s.HasObj o :=
      fun o => by
        rw [Mm.hasObj_setObj]
        split_ifs with e
        · simp [e, Obj.empty]
        · exact ⟨fun hc => ⟨e, hc⟩, fun hc => hc.2⟩
    rw [heq]
    refine ⟨⟨fun o ho hc => ?_, fun o ho hc => ?_⟩, fun o hc => ?_⟩
    · obtain ⟨e, hc⟩ := (hhas o).mp hc
      rw [hother o e]
      exact h.live o ho hc
    · by_cases e : o = id
      · rw [e]
        exact hn hm
      · exact h.dead o ho fun hc' => hc ((hhas o).mpr ⟨e, hc'⟩)
    · obtain ⟨e, hc⟩ := (hhas o).mp hc
      rw [Held, hother o e]
      exact hh o e hc

/-- Only the number of references of an object is set. -/
theorem Due.setRefs {n : Nat} (h : Due (r :: rs) s) (hid : s.HasObj r.1)
    (hn : (n : Int) = (s.objs r.1).mapRefs + r.2) :
    Due rs (s.setObj r.1 { s.objs r.1 with mapRefs := n }) := by
  have hhas : ∀ o, (s.setObj r.1 { s.objs r.1 with mapRefs := n }).HasObj o ↔ s.HasObj o :=
    fun o => by
      rw [Mm.hasObj_setObj]
      split_ifs with e
      · rw [e]
        exact iff_of_true hid hid
      · rfl
  refine ⟨fun o ho hc => ?_, fun o ho hc => ?_⟩
  · have hl := h.live o ho ((hhas o).mp hc)
    rw [Refs.of_cons] at hl
    by_cases e : o = r.1
    · rw [if_pos e.symm] at hl
      subst e
      rw [Mm.objs_setObj_self]
      exact (by omega : (n : Int) + Refs.of r.1 rs = total r.1 s)
    · rw [if_neg (Ne.symm e)] at hl
      rw [Mm.objs_setObj_of_ne e]
      exact (by omega : ((s.objs o).mapRefs : Int) + Refs.of o rs = total o s)
  · obtain ⟨h₁, h₂⟩ := h.dead o ho fun hc' => hc ((hhas o).mpr hc')
    exact ⟨h₁, fun x hx => h₂ x (List.mem_cons_of_mem r hx)⟩

/-- The references that a list drops. -/
theorem Refs.of_split (h : ∀ x ∈ rs, x.2 = 1 ∨ x.2 = -1) :
    ∃ n : Nat, Refs.of o rs = Refs.added o rs - n ∧ (Refs.added o rs + n = 0 → ∀ x ∈ rs, x.1 ≠ o) := by
  induction rs with
  | nil => exact ⟨0, by simp, fun _ x hx => absurd hx List.not_mem_nil⟩
  | cons x rs ih =>
      obtain ⟨n, hn, hz⟩ := ih fun y hy => h y (List.mem_cons_of_mem x hy)
      rw [Refs.of_cons, Refs.added_cons]
      by_cases e : x.1 = o
      · rw [if_pos e]
        rcases h x List.mem_cons_self with hx | hx
        · exact ⟨n, by rw [if_pos ⟨e, hx⟩, hx]; omega, fun hc => by rw [if_pos ⟨e, hx⟩] at hc; omega⟩
        · exact ⟨n + 1, by rw [if_neg (by simp [hx]), hx]; omega, fun hc => by omega⟩
      · refine ⟨n, by rw [if_neg e, if_neg fun hc => e hc.1]; omega, fun hc y hy => ?_⟩
        rw [if_neg fun hc => e hc.1] at hc
        rcases List.mem_cons.mp hy with rfl | hy
        · exact e
        · exact hz hc y hy

/-- One change of references, with more to come: while the object is named it does not go. -/
theorem Objs.objRef (h : Objs anon (r :: rs) s) (hu : r.2 = 1 ∨ r.2 = -1 ∧
      (∀ x ∈ rs, x.2 = 1 ∨ x.2 = -1) ∧ (r.1 ≠ 0 → Refs.added r.1 rs = 0 ∨
        Refs.added r.1 rs < total r.1 s)) : Objs anon rs (s.objRef r) := by
  by_cases hr : r.1 = 0
  · rw [Mm.objRef, if_neg (by simp [hr])]
    refine ⟨⟨fun o ho hc => ?_, fun o ho hc => ?_⟩, h.held⟩
    · have hl := h.due.live o ho hc
      rwa [Refs.of_cons, if_neg (by rw [hr]; exact Ne.symm ho), Int.zero_add] at hl
    · obtain ⟨h₁, h₂⟩ := h.due.dead o ho hc
      exact ⟨h₁, fun x hx => h₂ x (List.mem_cons_of_mem r hx)⟩
  · have hid : s.HasObj r.1 := by
      by_contra hc
      exact (h.due.dead r.1 hr hc).2 r List.mem_cons_self rfl
    have hlive := h.due.live r.1 hr hid
    rw [Refs.of_cons, if_pos rfl] at hlive
    rw [Mm.objRef, if_pos hr, Mm.mapRef, if_pos hid]
    obtain ⟨n, hn⟩ : ∃ n, n = ((s.objs r.1).mapRefs + r.2).toNat := ⟨_, rfl⟩
    rw [← hn]
    have hheld : ∀ o ≠ r.1, (s.setObj r.1 { s.objs r.1 with mapRefs := n }).HasObj o →
        Held anon o (s.setObj r.1 { s.objs r.1 with mapRefs := n }) := fun o e ho => by
      rw [Mm.hasObj_setObj, if_neg e] at ho
      rw [Held, Mm.objs_setObj_of_ne e]
      exact h.held o ho
    rcases hu with hu | ⟨hu, hunit, hadded⟩
    · have hn' : (n : Int) = (s.objs r.1).mapRefs + r.2 := by rw [hn, hu]; omega
      rw [if_neg (by rw [hu]; decide)]
      refine ⟨h.due.setRefs hid hn', fun o ho => ?_⟩
      by_cases e : o = r.1
      · subst e
        refine .inr (.inl ?_)
        rw [Mm.objs_setObj_self]
        exact (by omega : 0 < n)
      · exact hheld o e ho
    · -- the references that remain are the regions that name the object
      obtain ⟨k, hk, hzero⟩ := Refs.of_split (o := r.1) hunit
      have hadded := hadded hr
      have hn' : (n : Int) = (s.objs r.1).mapRefs + r.2 := by omega
      rw [if_pos (by rw [hu]; decide)]
      refine Objs.maybeFree (h.due.setRefs hid hn') hheld fun hz => ?_
      rw [Mm.objs_setObj_self] at hz
      have hz' : n = 0 := hz
      exact ⟨(by omega : total r.1 s = 0), hzero (by omega)⟩

/-- **Changes of references in order**, of a table already changed. -/
theorem Objs.objRefs (h : Objs anon rs s) (hunit : ∀ x ∈ rs, x.2 = 1 ∨ x.2 = -1)
    (hadded : ∀ o ≠ 0, Refs.added o rs = 0 ∨ Refs.added o rs < total o s) :
    Objs anon [] (s.objRefs rs) := by
  induction rs generalizing s with
  | nil => exact h
  | cons r rs ih =>
      have hmore : ∀ o ≠ 0, Refs.added o rs = 0 ∨ Refs.added o rs < total o s := fun o ho => by
        have := hadded o ho
        rw [Refs.added_cons] at this
        omega
      have hrest : ∀ x ∈ rs, x.2 = 1 ∨ x.2 = -1 := fun x hx => hunit x (List.mem_cons_of_mem r hx)
      have hone : Objs anon rs (s.objRef r) := h.objRef <| by
        rcases hunit r List.mem_cons_self with hr | hr
        · exact .inl hr
        · exact .inr ⟨hr, hrest, hmore r.1⟩
      rw [Mm.objRefs, List.foldl_cons, ← Mm.objRefs]
      refine ih hone hrest fun o ho => ?_
      rw [total_congr (s := s) fun l => by rw [Mm.spaces_objRef]]
      exact hmore o ho

/-! ### What is done to a table -/

/-- What does not concern tables and references. -/
theorem Objs.congr (h : Objs anon rs s) (hs : ∀ l, (t.spaces l).vmas = (s.spaces l).vmas)
    (ho : ∀ o, (t.objs o).used = (s.objs o).used ∧ (t.objs o).mapRefs = (s.objs o).mapRefs ∧
      (t.objs o).fdRefs = (s.objs o).fdRefs ∧ (t.objs o).name = (s.objs o).name) :
    Objs anon rs t := by
  have hhas : ∀ o, t.HasObj o ↔ s.HasObj o := fun o => by
    rw [Mm.HasObj, Mm.HasObj, (ho o).1]
  refine ⟨⟨fun o h₀ hc => ?_, fun o h₀ hc => ?_⟩, fun o hc => ?_⟩
  · rw [total_congr hs, (ho o).2.1]
    exact h.due.live o h₀ ((hhas o).mp hc)
  · rw [total_congr hs]
    exact h.due.dead o h₀ fun hc' => hc ((hhas o).mpr hc')
  · have := h.held o ((hhas o).mp hc)
    rw [Held] at this ⊢
    rwa [(ho o).2.1, (ho o).2.2.1, (ho o).2.2.2]

/-- A table changes, and the references are due. -/
theorem Objs.setSpace (sp : Space) (h : Objs anon [] s) (hl : l < MAX_PROCS)
    (hn : ∀ o ≠ 0, (named o sp.vmas : Int) = named o (s.spaces l).vmas + Refs.of o rs)
    (hunit : ∀ x ∈ rs, x.2 = 1 ∨ x.2 = -1)
    (hadded : ∀ o ≠ 0, ¬ s.HasObj o → Refs.added o rs = 0) :
    Objs anon rs (s.setSpace l sp) := by
  have htotal : ∀ o ≠ 0, (total o (s.setSpace l sp) : Int) = total o s + Refs.of o rs :=
    fun o ho => by
      have h₁ := total_setSpace (o := o) (s := s) sp hl
      have h₂ := hn o ho
      omega
  refine ⟨⟨fun o ho hc => ?_, fun o ho hc => ?_⟩, h.held⟩
  · have hlive := h.due.live o ho hc
    rw [Refs.of_nil, Int.add_zero] at hlive
    rw [htotal o ho, ← hlive]
    rfl
  · obtain ⟨hz, -⟩ := h.due.dead o ho hc
    obtain ⟨n, h₁, h₂⟩ := Refs.of_split (o := o) hunit
    have h₃ := htotal o ho
    have h₄ := hadded o ho hc
    exact ⟨by omega, h₂ (by omega)⟩

/-- **A change of a table** keeps the counts. -/
theorem Objs.edit (h : Objs anon [] s) (hl : l < MAX_PROCS) {F : List Vma → List Vma × Refs}
    (hF : Sound (s.spaces l).vmas (F (s.spaces l).vmas)) : Objs anon [] (s.edit l F) := by
  have hlarge : ∀ o, named o (F (s.spaces l).vmas).1 ≤
      total o (s.setSpace l { s.spaces l with vmas := (F (s.spaces l).vmas).1 }) := fun o => by
    have := named_le_total (o := o) (l := l)
      (s := s.setSpace l { s.spaces l with vmas := (F (s.spaces l).vmas).1 }) hl
    rwa [Mm.spaces_setSpace_self] at this
  have hset : Objs anon (F (s.spaces l).vmas).2
      (s.setSpace l { s.spaces l with vmas := (F (s.spaces l).vmas).1 }) := by
    refine h.setSpace _ hl hF.named hF.unit fun o ho hc => ?_
    have hz := (h.due.dead o ho hc).1
    have hn := hF.named o ho
    have hle := named_le_total (o := o) (s := s) hl
    obtain ⟨n, h₁, -⟩ := Refs.of_split (o := o) hF.unit
    rcases hF.added o ho with ha | ha <;> omega
  exact hset.objRefs hF.unit fun o ho => (hF.added o ho).imp_right fun ha =>
    Nat.lt_of_lt_of_le ha (hlarge o)

theorem setSpace_objRef_up : (s.objRef (id, 1)).setSpace l sp = (s.setSpace l sp).objRef (id, 1) := by
  have hhas : (s.setSpace l sp).HasObj id ↔ s.HasObj id := .rfl
  by_cases hid : id ≠ 0
  · rw [Mm.objRef, Mm.objRef, if_pos hid, if_pos hid, Mm.mapRef, Mm.mapRef]
    by_cases hc : s.HasObj id
    · rw [if_pos hc, if_pos (hhas.mpr hc)]
      rfl
    · rw [if_neg hc, if_neg (mt hhas.mp hc)]
      rfl
  · rw [Mm.objRef, Mm.objRef, if_neg hid, if_neg hid]

/-- **A region is added** with the reference it was given, to an object that is in use. -/
theorem Objs.addVma (h : Objs anon [] s) (hl : l < MAX_PROCS) (hv : v.obj = 0 ∨ s.HasObj v.obj) :
    Objs anon [] ((s.objRef (v.obj, 1)).edit l fun vs => addVma vs v) := by
  obtain ⟨hn, hd⟩ := addVma_sound (s.spaces l).vmas v
  have hunit : ∀ x ∈ (v.obj, (1 : Int)) :: (Vm.addVma (s.spaces l).vmas v).2, x.2 = 1 ∨ x.2 = -1 :=
    fun x hx => by
      rcases List.mem_cons.mp hx with rfl | hx
      · exact .inl rfl
      · exact .inr (hd x hx)
  have hset := h.setSpace { s.spaces l with vmas := (Vm.addVma (s.spaces l).vmas v).1 } hl hn
    hunit fun o ho hc => by
      rw [Refs.added_cons, Refs.added_of_down hd, if_neg]
      rintro ⟨rfl, -⟩
      exact hv.elim ho hc
  have hone := hset.objRef (.inl rfl)
  rw [Mm.edit, Mm.spaces_objRef, setSpace_objRef_up]
  exact hone.objRefs (fun x hx => .inr (hd x hx)) fun o _ => .inl (Refs.added_of_down hd)

/-- What a region names is held by it. -/
theorem Objs.forget (h : Objs anon [] s) (hid : id = 0 ∨ 0 < total id s) :
    Objs (anon.filter (· ≠ id)) [] s := by
  refine ⟨h.due, fun o ho => ?_⟩
  by_cases e : o = id
  · subst e
    have hpos : 0 < total o s := hid.resolve_left (Nat.ne_of_gt ho.1)
    have hlive := h.due.live o (Nat.ne_of_gt ho.1) ho
    rw [Refs.of_nil, Int.add_zero] at hlive
    exact .inr (.inl (by omega))
  · rcases h.held o ho with hh | hh | hh | hh
    · exact .inl hh
    · exact .inr (.inl hh)
    · exact .inr (.inr (.inl hh))
    · exact .inr (.inr (.inr (List.mem_filter.mpr ⟨hh, by simpa using e⟩)))

theorem Refs.of_clone (vs : List Vma) : Refs.of o (vs.map fun v => (v.obj, 1)) = named o vs := by
  induction vs with
  | nil => rfl
  | cons v vs ih =>
      rw [List.map_cons, Refs.of_cons, ih, named_cons]
      split_ifs <;> omega

theorem Refs.of_release (vs : List Vma) :
    Refs.of o (vs.map fun v => (v.obj, -1)) = -(named o vs : Int) := by
  induction vs with
  | nil => rfl
  | cons v vs ih =>
      rw [List.map_cons, Refs.of_cons, ih, named_cons]
      split_ifs <;> omega

/-- **A table is cloned** into the space of another slot, which has none. -/
theorem Objs.cloneSpace {src dst : Nat} (h : Objs anon [] s) (hs : src < MAX_PROCS)
    (hd : dst < MAX_PROCS) (hempty : (s.spaces dst).vmas = []) :
    Objs anon [] (cloneSpace src dst s) := by
  obtain ⟨u, hu⟩ : ∃ u, u = s.setSpace dst { Space.empty with hint := (s.spaces src).hint } :=
    ⟨_, rfl⟩
  have hspaces : ∀ l, (u.spaces l).vmas = (s.spaces l).vmas := fun l => by
    by_cases e : l = dst
    · rw [e, hu, Mm.spaces_setSpace_self, hempty]
      rfl
    · rw [hu, Mm.spaces_setSpace_of_ne e]
  have hkeep : Objs anon [] u := h.congr hspaces fun o => by rw [hu]; exact ⟨rfl, rfl, rfl, rfl⟩
  rw [Vm.cloneSpace]
  simp only [← hu]
  split_ifs with hno
  · exact hkeep
  · split
    · exact hkeep
    · rename_i b fr _
      have hkeep' : Objs anon [] (u.setFrames fr) :=
        hkeep.congr (fun _ => rfl) fun _ => ⟨rfl, rfl, rfl, rfl⟩
      have hup : ∀ x ∈ (s.spaces src).vmas.map fun v => (v.obj, (1 : Int)), x.2 = 1 := fun x hx => by
        obtain ⟨v, -, rfl⟩ := List.mem_map.mp hx
        rfl
      have hdst : ((u.setFrames fr).spaces dst).vmas = [] := (hspaces dst).trans hempty
      have hadd : ∀ o, Refs.added o ((s.spaces src).vmas.map fun v => (v.obj, (1 : Int))) =
          named o (s.spaces src).vmas := fun o => by
        have h₁ := Refs.of_added (o := o) hup
        rw [Refs.of_clone] at h₁
        omega
      have hset := hkeep'.setSpace { s.spaces src with table := some b } hd
        (fun o _ => by rw [hdst, Refs.of_clone]; simp) (fun x hx => .inl (hup x hx))
        fun o ho hc => by
          have hz := (hkeep'.due.dead o ho hc).1
          have hle := named_le_total (o := o) (s := u.setFrames fr) hs
          have hsrc : ((u.setFrames fr).spaces src).vmas = (s.spaces src).vmas := hspaces src
          rw [hsrc] at hle
          rw [hadd]
          omega
      refine hset.objRefs (fun x hx => .inl (hup x hx)) fun o _ => ?_
      -- the source names each object as often as the copy
      rw [hadd]
      have htotal := total_setSpace (o := o) (s := u.setFrames fr)
        { s.spaces src with table := some b } hd
      have hle := named_le_total (o := o) (s := u.setFrames fr) hs
      have hsrc : ((u.setFrames fr).spaces src).vmas = (s.spaces src).vmas := hspaces src
      rw [hsrc] at hle
      rw [hdst, named_nil, Nat.add_zero] at htotal
      rcases Nat.eq_zero_or_pos (named o (s.spaces src).vmas) with hz | hpos
      · exact .inl hz
      · refine .inr (htotal ▸ ?_)
        exact Nat.lt_add_of_pos_left (Nat.lt_of_lt_of_le hpos hle)

theorem setSpace_objRef : (s.objRef r).setSpace l sp = (s.setSpace l sp).objRef r := by
  have hhas : ∀ (u : Mm) o, (u.setSpace l sp).HasObj o ↔ u.HasObj o := fun _ _ => .rfl
  have hfree : ∀ (u : Mm) o, (u.maybeFree o).setSpace l sp = (u.setSpace l sp).maybeFree o :=
    fun u o => by
      rw [Mm.maybeFree, Mm.maybeFree]
      by_cases hc : u.HasObj o
      · rw [if_pos hc, if_pos ((hhas u o).mpr hc)]
        simp only
        by_cases hr : 0 < (u.objs o).fdRefs ∨ 0 < (u.objs o).mapRefs ∨
            (u.objs o).name.isSome = true
        · rw [if_pos hr]
          exact (if_pos hr).symm
        · rw [if_neg hr]
          exact (if_neg hr).symm
      · rw [if_neg hc, if_neg (mt (hhas u o).mp hc)]
  have hmap : (s.mapRef r.1 r.2).setSpace l sp = (s.setSpace l sp).mapRef r.1 r.2 := by
    rw [Mm.mapRef, Mm.mapRef]
    by_cases hc : s.HasObj r.1
    · rw [if_pos hc, if_pos ((hhas s r.1).mpr hc)]
      split_ifs
      · exact hfree _ _
      · rfl
    · rw [if_neg hc, if_neg (mt (hhas s r.1).mp hc)]
      split_ifs
      · exact hfree _ _
      · rfl
  rw [Mm.objRef, Mm.objRef]
  split_ifs
  · exact hmap
  · rfl

theorem setSpace_objRefs : (s.objRefs rs).setSpace l sp = (s.setSpace l sp).objRefs rs := by
  induction rs generalizing s with
  | nil => rfl
  | cons r rs ih =>
      rw [Mm.objRefs, Mm.objRefs, List.foldl_cons, List.foldl_cons, ← Mm.objRefs, ← Mm.objRefs, ih,
        setSpace_objRef]

/-- **A space is released.** -/
theorem Objs.release (h : Objs anon [] s) (hl : l < MAX_PROCS) : Objs anon [] (release l s) := by
  have hunit : ∀ x ∈ (s.spaces l).vmas.map fun v => (v.obj, (-1 : Int)), x.2 = -1 := fun x hx => by
    obtain ⟨v, -, rfl⟩ := List.mem_map.mp hx
    rfl
  have hset := h.setSpace .empty hl
    (fun o _ => by rw [Refs.of_release]; simp [Space.empty]) (fun x hx => .inr (hunit x hx))
    fun o _ _ => Refs.added_of_down hunit
  have hall := hset.objRefs (fun x hx => .inr (hunit x hx)) fun o _ => .inl (Refs.added_of_down hunit)
  rw [← setSpace_objRefs] at hall
  exact hall.congr (fun _ => rfl) fun _ => ⟨rfl, rfl, rfl, rfl⟩

theorem spaces_cloneSpace {src dst m : Nat} (h : m ≠ dst) :
    (cloneSpace src dst s).spaces m = s.spaces m := by
  rw [cloneSpace]
  simp only
  split_ifs
  · exact Mm.spaces_setSpace_of_ne h
  · split
    · exact Mm.spaces_setSpace_of_ne h
    · rw [Mm.spaces_objRefs, Mm.spaces_setSpace_of_ne h]
      exact Mm.spaces_setSpace_of_ne h

theorem vmas_release (l : Nat) (s : Mm) :
    (∀ m, m ≠ l → ((release l s).spaces m) = s.spaces m) ∧ ((release l s).spaces l).vmas = [] := by
  refine ⟨fun m hm => ?_, ?_⟩
  · rw [release, Mm.spaces_setSpace_of_ne hm, Mm.spaces_setFrames, Mm.spaces_objRefs]
  · rw [release, Mm.spaces_setSpace_self]
    rfl

/-! ### The calls of `shm.rs` -/

/-- An object's references change that are not regions'. -/
theorem Objs.setHeld {x : Obj} (h : Objs anon [] s) (hid : 1 ≤ id ∧ id ≤ MAX_OBJS)
    (hx : x.used = true) (hm : x.mapRefs = total id s) {anon' : List Nat}
    (hsub : ∀ o ∈ anon, o ≠ id → o ∈ anon')
    (hheld : 0 < x.fdRefs ∨ 0 < x.mapRefs ∨ x.name.isSome = true ∨ id ∈ anon') :
    Objs anon' [] (s.setObj id x) := by
  refine ⟨⟨fun o ho hc => ?_, fun o ho hc => ?_⟩, fun o hc => ?_⟩
  · by_cases e : o = id
    · subst e
      rw [Mm.objs_setObj_self, hm]
      exact Int.add_zero _
    · rw [Mm.hasObj_setObj, if_neg e] at hc
      rw [Mm.objs_setObj_of_ne e]
      exact h.due.live o ho hc
  · rw [Mm.hasObj_setObj] at hc
    split_ifs at hc with e
    · exact absurd ⟨hid.1, hid.2, hx⟩ hc
    · exact h.due.dead o ho hc
  · by_cases e : o = id
    · subst e
      rwa [Held, Mm.objs_setObj_self]
    · rw [Mm.hasObj_setObj, if_neg e] at hc
      rw [Held, Mm.objs_setObj_of_ne e]
      rcases h.held o hc with hh | hh | hh | hh
      · exact .inl hh
      · exact .inr (.inl hh)
      · exact .inr (.inr (.inl hh))
      · exact .inr (.inr (.inr (hsub o hh e)))

theorem Objs.mapRefs_eq (h : Objs anon [] s) (hid : s.HasObj id) :
    (s.objs id).mapRefs = total id s := by
  have := h.due.live id (Nat.ne_of_gt hid.1) hid
  rw [Refs.of_nil, Int.add_zero] at this
  exact_mod_cast this

theorem freeObj_some (h : s.freeObj = some id) :
    (1 ≤ id ∧ id ≤ MAX_OBJS) ∧ (s.objs id).used = false := by
  obtain ⟨i, hi, rfl⟩ := Option.map_eq_some_iff.mp h
  have hlt := List.mem_range.mp (List.mem_of_find?_eq_some hi)
  have hused := List.find?_some hi
  exact ⟨⟨Nat.le_add_left 1 i, hlt⟩, by simpa using hused⟩

theorem Objs.create (h : Objs anon [] s) (name : Option (List UInt8)) :
    Objs anon [] (s.create name).2 := by
  unfold Mm.create
  rcases hf : s.freeObj with - | id
  · exact h
  · obtain ⟨hid, hused⟩ := freeObj_some hf
    have hdead : ¬ s.HasObj id := fun hc => absurd hc.2.2 (by simp [hused])
    obtain ⟨hz, -⟩ := h.due.dead id (Nat.ne_of_gt hid.1) hdead
    have hset := h.setHeld (x := { Obj.empty with
      used := true, fdRefs := 1, name := name.map (·.take NAME_MAX) }) hid rfl hz.symm
      (fun o ho _ => ho) (.inl Nat.one_pos)
    exact hset

theorem named?_some {name : List UInt8} (h : s.named? name = some id) : s.HasObj id := by
  obtain ⟨i, hi, rfl⟩ := Option.map_eq_some_iff.mp h
  have hlt := List.mem_range.mp (List.mem_of_find?_eq_some hi)
  have hfind := List.find?_some hi
  simp only [Bool.and_eq_true] at hfind
  exact ⟨Nat.le_add_left 1 i, hlt, hfind.1⟩

theorem Objs.openNamed (h : Objs anon [] s) (name : List UInt8) :
    Objs anon [] (s.openNamed name).2 := by
  unfold Mm.openNamed
  rcases hn : s.named? name with - | id
  · exact h
  · have hid := named?_some hn
    have hset := h.setHeld (x := { s.objs id with fdRefs := (s.objs id).fdRefs + 1 })
      ⟨hid.1, hid.2.1⟩ hid.2.2 (h.mapRefs_eq hid) (fun o ho _ => ho) (.inl (Nat.succ_pos _))
    exact hset

/-- A reference goes that is not a region's, and the object when it was the last. -/
theorem Objs.dropHeld {x : Obj} (h : Objs anon [] s) (hid : s.HasObj id) (hx : x.used = true)
    (hm : x.mapRefs = (s.objs id).mapRefs) {anon' : List Nat} (hsub : ∀ o ∈ anon, o ≠ id → o ∈ anon') :
    Objs anon' [] ((s.setObj id x).maybeFree id) := by
  have hset : Objs (id :: anon) [] (s.setObj id x) :=
    h.setHeld ⟨hid.1, hid.2.1⟩ hx (hm.trans (h.mapRefs_eq hid))
      (fun o ho _ => List.mem_cons_of_mem id ho) (.inr (.inr (.inr List.mem_cons_self)))
  refine Objs.maybeFree hset.due (fun o e ho => ?_) fun hz => ⟨?_, fun x hx => absurd hx (by simp)⟩
  · rcases hset.held o ho with hh | hh | hh | hh
    · exact .inl hh
    · exact .inr (.inl hh)
    · exact .inr (.inr (.inl hh))
    · exact .inr (.inr (.inr (hsub o ((List.mem_cons.mp hh).resolve_left e) e)))
  · rw [Mm.objs_setObj_self] at hz
    have := h.mapRefs_eq hid
    exact (by omega : total id s = 0)

theorem Objs.unlink (h : Objs anon [] s) (name : List UInt8) : Objs anon [] (s.unlink name).2 := by
  unfold Mm.unlink
  rcases hn : s.named? name with - | id
  · exact h
  · have hid := named?_some hn
    have hdrop := h.dropHeld (x := { s.objs id with name := none }) hid hid.2.2 rfl fun o ho _ => ho
    exact hdrop

theorem maybeFree_of_not (h : ¬ s.HasObj id) : s.maybeFree id = s := by rw [Mm.maybeFree, if_neg h]

theorem Objs.fdRef (h : Objs anon [] s) (id : Nat) (hd : d = 1 ∨ d = -1) :
    Objs anon [] (s.fdRef id d) := by
  rw [Mm.fdRef]
  by_cases hid : s.HasObj id
  · rw [if_pos hid]
    rcases hd with rfl | rfl
    · rw [if_neg (by decide)]
      exact h.setHeld (x := { s.objs id with fdRefs := (((s.objs id).fdRefs : Int) + 1).toNat })
        ⟨hid.1, hid.2.1⟩ hid.2.2 (h.mapRefs_eq hid) (fun o ho _ => ho)
        (.inl (show 0 < (((s.objs id).fdRefs : Int) + 1).toNat by omega))
    · rw [if_pos (by decide)]
      exact h.dropHeld (x := { s.objs id with fdRefs := (((s.objs id).fdRefs : Int) + -1).toNat })
        hid hid.2.2 rfl fun o ho _ => ho
  · rw [if_neg hid, maybeFree_of_not hid, ite_self]
    exact h

/-- `release_unused`: nothing waits for the object any longer. -/
theorem Objs.releaseUnused (h : Objs anon [] s) (id : Nat) :
    Objs (anon.filter (· ≠ id)) [] (s.maybeFree id) := by
  have hsub : ∀ o ∈ anon, o ≠ id → o ∈ anon.filter (· ≠ id) := fun o ho e =>
    List.mem_filter.mpr ⟨ho, by simpa using e⟩
  by_cases hid : s.HasObj id
  · have := h.dropHeld (x := s.objs id) hid hid.2.2 rfl hsub
    rwa [Mm.setObj, Function.update_eq_self] at this
  · rw [maybeFree_of_not hid]
    refine ⟨h.due, fun o ho => ?_⟩
    have e : o ≠ id := fun e => hid (e ▸ ho)
    rcases h.held o ho with hh | hh | hh | hh
    · exact .inl hh
    · exact .inr (.inl hh)
    · exact .inr (.inr (.inl hh))
    · exact .inr (.inr (.inr (hsub o hh e)))

/-- What `grow_index` keeps of an object. -/
theorem growIndex_some {x y : Obj} {n : Nat} {fr fr' : Frames}
    (h : Mm.growIndex x n fr = some (y, fr')) :
    y.used = x.used ∧ y.mapRefs = x.mapRefs ∧ y.fdRefs = x.fdRefs ∧ y.name = x.name := by
  unfold Mm.growIndex at h
  split_ifs at h
  · obtain ⟨rfl, -⟩ := Prod.mk.inj (Option.some.inj h)
    exact ⟨rfl, rfl, rfl, rfl⟩
  · simp only at h
    split at h
    · exact absurd h (by simp)
    · obtain ⟨rfl, -⟩ := Prod.mk.inj (Option.some.inj h)
      exact ⟨rfl, rfl, rfl, rfl⟩

/-- Another object in the place of one that has the same references. -/
theorem Objs.setObj {x : Obj} (h : Objs anon rs s) (hx : x.used = (s.objs id).used ∧
    x.mapRefs = (s.objs id).mapRefs ∧ x.fdRefs = (s.objs id).fdRefs ∧ x.name = (s.objs id).name) :
    Objs anon rs (s.setObj id x) :=
  h.congr (fun _ => rfl) fun o => by
    by_cases e : o = id
    · rw [e, Mm.objs_setObj_self]
      exact hx
    · rw [Mm.objs_setObj_of_ne e]
      exact ⟨rfl, rfl, rfl, rfl⟩

theorem Objs.setFrames (h : Objs anon rs s) (fr : Frames) : Objs anon rs (s.setFrames fr) :=
  h.congr (fun _ => rfl) fun _ => ⟨rfl, rfl, rfl, rfl⟩

theorem Objs.setMem (h : Objs anon rs s) (f : Nat) (b : Bytes) : Objs anon rs (s.setMem f b) :=
  h.congr (fun _ => rfl) fun _ => ⟨rfl, rfl, rfl, rfl⟩

theorem Objs.truncate (h : Objs anon [] s) (id size : Nat) :
    Objs anon [] (s.truncate id size).2 := by
  unfold Mm.truncate
  by_cases hs : MAX_SIZE < size
  · rw [if_pos hs]
    exact h
  · rw [if_neg hs]
    by_cases hid : s.HasObj id
    · rw [if_pos hid]
      rcases hg : Mm.growIndex (s.objs id) (Mm.pagesOf size) s.frames with - | ⟨x, fr⟩
      · exact h
      · obtain ⟨h₁, h₂, h₃, h₄⟩ := growIndex_some hg
        have hset := fun fr => (h.setFrames fr).setObj (x := { x with
          page := x.page.filter (fun p _ => decide (p < Mm.pagesOf size)), size := size })
          ⟨h₁, h₂, h₃, h₄⟩
        simp only
        split_ifs
        · split
          · exact (hset _).setMem _ _
          · exact hset _
        · exact hset _
    · rw [if_neg hid]
      exact h

theorem Objs.page (h : Objs anon [] s) (id pg : Nat) (alloc : Bool) :
    Objs anon [] (s.page id pg alloc).2 := by
  unfold Mm.page
  by_cases hid : s.HasObj id
  · rw [if_pos hid]
    simp only
    split
    · exact h
    · split
      · exact h
      · split_ifs
        · split
          · exact h
          · exact ((h.setFrames _).setMem _ _).setObj ⟨rfl, rfl, rfl, rfl⟩
        · exact h
  · rw [if_neg hid]
    exact h

/-- **An object is made** that the caller is to map. -/
theorem Objs.createAnon (h : Objs anon [] s) (size : Nat) :
    Objs ((s.createAnon size).1.elim anon (· :: anon)) [] (s.createAnon size).2 := by
  have hc := h.create none
  unfold Mm.createAnon
  rcases hcr : s.create none with ⟨- | id, u⟩
  · rw [hcr] at hc
    exact hc
  · rw [hcr] at hc
    have hid : u.HasObj id := by
      unfold Mm.create at hcr
      rcases hf : s.freeObj with - | i
      · rw [hf] at hcr
        exact absurd (congrArg Prod.fst hcr) (by simp)
      · rw [hf] at hcr
        obtain ⟨h₁, rfl⟩ := Prod.mk.inj hcr
        obtain rfl := Option.some.inj h₁
        rw [Mm.hasObj_setObj, if_pos rfl]
        exact ⟨(freeObj_some hf).1.1, (freeObj_some hf).1.2, rfl⟩
    have hdrop : Objs anon [] ((u.setObj id { u.objs id with fdRefs := 0 }).maybeFree id) :=
      Objs.dropHeld (x := { u.objs id with fdRefs := 0 }) hc hid hid.2.2 rfl fun o ho _ => ho
    simp only
    split_ifs with hs
    · exact hdrop
    · rcases hg : Mm.growIndex { u.objs id with fdRefs := 0 } (Mm.pagesOf size) u.frames with
        - | ⟨x, fr⟩
      · exact hdrop
      · obtain ⟨h₁, h₂, -, -⟩ := growIndex_some hg
        have hset := (hc.setFrames fr).setHeld (x := { x with size := size })
          ⟨hid.1, hid.2.1⟩ (h₁.trans hid.2.2) (h₂.trans (hc.mapRefs_eq hid))
          (fun o ho _ => List.mem_cons_of_mem id ho) (.inr (.inr (.inr List.mem_cons_self)))
        exact hset

/-! ### The calls of `vm.rs` -/

/-- What a call on the space of slot `l` keeps. -/
structure Kept (l : Nat) (anon : List Nat) (s t : Mm) : Prop where
  objs : Objs anon [] t
  others : ∀ m, m ≠ l → t.spaces m = s.spaces m

open Prog (Keeps)

section Calls

variable {α β : Type} {c : Cur} {addr len prot flags : Nat} {I : Mm → Prop}

theorem keeps_need {x : Option α} {e : Errno} {F : α → Call β} (h : ∀ a, x = some a → Keeps I (F a)) :
    Keeps I (need x e >>= F) := fun _ hs => wp_need (fun a ha => h a ha _ hs) hs

theorem keeps_check {p : Prop} [Decidable p] {e : Errno} : Keeps I (check p e) :=
  .ite (fun _ => .pure ()) fun _ => .throw e

theorem keeps_vmasOf : Keeps I (vmasOf l) := fun _ hs => hs

/-- A state with the same tables and references. -/
theorem Kept.congr (h : Kept l anon s t) {u : Mm} (hl : (u.spaces l).vmas = (t.spaces l).vmas)
    (hm : ∀ m, m ≠ l → u.spaces m = t.spaces m)
    (ho : ∀ o, (u.objs o).used = (t.objs o).used ∧ (u.objs o).mapRefs = (t.objs o).mapRefs ∧
      (u.objs o).fdRefs = (t.objs o).fdRefs ∧ (u.objs o).name = (t.objs o).name) : Kept l anon s u :=
  ⟨h.objs.congr (fun m => by
      by_cases e : m = l
      · rw [e, hl]
      · rw [hm m e]) ho,
    fun m e => (hm m e).trans (h.others m e)⟩

/-- The table of the slot is set, with the same regions. -/
theorem Kept.setSpace (h : Kept l anon s t) (hv : sp.vmas = (t.spaces l).vmas) :
    Kept l anon s (t.setSpace l sp) :=
  h.congr (by rw [Mm.spaces_setSpace_self, hv]) (fun m e => Mm.spaces_setSpace_of_ne e)
    fun _ => ⟨rfl, rfl, rfl, rfl⟩

theorem Kept.setFrames (h : Kept l anon s t) (fr : Frames) : Kept l anon s (t.setFrames fr) :=
  h.congr rfl (fun _ _ => rfl) fun _ => ⟨rfl, rfl, rfl, rfl⟩

theorem Kept.edit (h : Kept l anon s t) (hl : l < MAX_PROCS) {F : List Vma → List Vma × Refs}
    (hF : ∀ vs, Sound vs (F vs)) : Kept l anon s (t.edit l F) :=
  ⟨h.objs.edit hl (hF _), fun m e => by
    rw [Mm.spaces_edit, Function.update_of_ne e]
    exact h.others m e⟩

theorem Kept.reserve (h : Kept l anon s t) (k : Nat) : Kept l anon s (t.reserve l k).2 := by
  rcases Mm.reserve_cases l k t with ⟨-, hr⟩ | hr | ⟨b, fr, -, hr⟩
  · rw [hr]
    exact h
  · rw [hr]
    exact h
  · rw [hr]
    exact (h.setFrames _).setSpace rfl

theorem keeps_reserved (k : Nat) : Keeps (Kept l anon s) (reserved l k) := fun t h => by
  simp only [reserved, wp_bind, wp_get, wp_set]
  exact keeps_check _ (h.reserve k)

theorem keeps_takeGap : Keeps (Kept l anon s) (takeGap l len) := fun t h => by
  simp only [takeGap, wp_bind, wp_get]
  rw [← wp_bind]
  exact wp_need (fun a _ => h.setSpace rfl) h

theorem keeps_placeFixed (hl : c.slot < MAX_PROCS) :
    Keeps (Kept c.slot anon s) (placeFixed c addr len flags) := by
  unfold placeFixed
  refine .bind keeps_check fun _ => keeps_need fun stop _ => .bind keeps_check fun _ =>
    .bind keeps_vmasOf fun vs => ?_
  split_ifs with ho
  · refine .bind keeps_check fun _ => .bind (.modify fun t ht => ?_) fun _ =>
      .bind (.modify fun t ht => ?_) fun _ => .pure addr
    · exact ht.edit hl fun vs => carve_sound vs addr stop
    · exact ht.congr rfl (fun _ _ => rfl) fun _ => ⟨rfl, rfl, rfl, rfl⟩
  · exact .pure addr

theorem keeps_placeFree : Keeps (Kept c.slot anon s) (placeFree c addr len) := by
  unfold placeFree
  exact .bind keeps_vmasOf fun vs => .ite (fun _ => .pure _) fun _ => keeps_takeGap

theorem keeps_mmapPlace (hl : c.slot < MAX_PROCS) :
    Keeps (Kept c.slot anon s) (mmapPlace (some c) addr len prot flags) := by
  unfold mmapPlace
  refine keeps_need fun len _ => .bind keeps_check fun _ => keeps_need fun c' hc => ?_
  obtain rfl := Option.some.inj hc
  refine .bind (keeps_reserved 2) fun _ => ?_
  exact .ite (fun _ => .bind (keeps_placeFixed hl) fun start => .pure _)
    fun _ => .bind keeps_placeFree fun start => .pure _

/-- The place found is one for the space asked for. -/
theorem mmapPlace_slot {r : Cur × Nat × Nat} {u : Mm}
    (h : mmapPlace (some c) addr len prot flags t = .ok r u) : r.1 = c := by
  have hwp : wp (mmapPlace (some c) addr len prot flags) (fun r _ => r.1 = c) (fun _ _ => True) t := by
    unfold mmapPlace
    refine wp_need (fun len _ => wp_check (fun _ => wp_need (fun c' hc => ?_) trivial) trivial) trivial
    obtain rfl := Option.some.inj hc
    have hend : ∀ (x : Call Nat) (len : Nat) (t : Mm), wp (x >>= fun start => pure (c, start, len))
        (fun r _ => r.1 = c) (fun _ _ => True) t := fun x len t =>
      (wp_bind _ _).mpr <| wp_mono wp_true (fun _ _ _ => rfl) fun _ _ _ => trivial
    refine (wp_bind _ _).mpr <| wp_mono wp_true (fun _ _ _ => ?_) fun _ _ _ => trivial
    exact wp_ite.mpr ⟨fun _ => hend _ _ _, fun _ => hend _ _ _⟩
  exact hwp.ok h

theorem keeps_munmapCarve (hl : c.slot < MAX_PROCS) :
    Keeps (Kept c.slot anon s) (munmapCarve (some c) addr len) := by
  unfold munmapCarve
  refine .bind keeps_check fun _ => keeps_need fun len _ => keeps_need fun stop _ =>
    .bind keeps_check fun _ => keeps_need fun c' hc => ?_
  obtain rfl := Option.some.inj hc
  refine .bind (keeps_reserved 1) fun _ => .bind (.modify fun t ht => ?_) fun _ => .pure _
  exact ht.edit hl fun vs => carve_sound vs addr stop

theorem Kept.unmap (h : Kept l anon s t) (root start stop : Nat) :
    Kept l anon s (t.unmap root start stop) :=
  h.congr rfl (fun _ _ => rfl) fun _ => ⟨rfl, rfl, rfl, rfl⟩

theorem keeps_munmap (hl : c.slot < MAX_PROCS) :
    Keeps (Kept c.slot anon s) (munmap (some c) addr len) :=
  .bind (keeps_munmapCarve hl) fun _ => .modify fun _ ht => ht.unmap _ _ _

theorem keeps_mprotect (hl : c.slot < MAX_PROCS) :
    Keeps (Kept c.slot anon s) (mprotect (some c) addr len prot) := by
  unfold mprotect
  refine .bind keeps_check fun _ => keeps_need fun len _ => keeps_need fun stop _ =>
    .ite (fun _ => .pure ()) fun _ => keeps_need fun c' hc => ?_
  obtain rfl := Option.some.inj hc
  refine .bind keeps_vmasOf fun _ => .bind keeps_check fun _ => .bind (keeps_reserved 2) fun _ =>
    .bind (.modify fun t ht => ht.edit hl fun vs => protect_sound vs addr stop prot) fun _ =>
      .modify fun t ht => ?_
  exact ht.congr rfl (fun _ _ => rfl) fun _ => ⟨rfl, rfl, rfl, rfl⟩

theorem keeps_grow {oldLen newLen : Nat} (hl : c.slot < MAX_PROCS) :
    Keeps (Kept c.slot anon s) (grow c addr oldLen newLen flags) := by
  have hadd : ∀ start stop prot (t : Mm), Kept c.slot anon s t →
      Kept c.slot anon s (t.edit c.slot fun vs => add vs start stop prot) :=
    fun start stop prot t ht => ht.edit hl fun vs => add_sound vs start stop prot
  unfold grow
  refine .bind keeps_vmasOf fun vs => keeps_need fun v _ => .bind keeps_check fun _ =>
    .bind (keeps_reserved 2) fun _ => .ite (fun _ => ?_) fun _ => ?_
  · exact .bind (.modify (hadd _ _ _)) fun _ => .pure addr
  · refine .bind keeps_check fun _ => .bind keeps_takeGap fun new => .bind (.modify fun t ht => ?_)
      fun _ => .bind (.modify (hadd _ _ _)) fun _ => .bind (.modify fun t ht => ?_) fun _ => .pure new
    · exact ht.edit hl fun vs => carve_sound vs _ _
    · exact ht.congr rfl (fun _ _ => rfl) fun _ => ⟨rfl, rfl, rfl, rfl⟩

theorem keeps_mremap {oldLen newLen : Nat} (hl : c.slot < MAX_PROCS) :
    Keeps (Kept c.slot anon s) (mremap (some c) addr oldLen newLen flags) := by
  unfold mremap
  refine .bind keeps_check fun _ => keeps_need fun oldLen _ => keeps_need fun newLen _ =>
    keeps_need fun oldEnd _ => .bind keeps_check fun _ => .ite (fun _ => .pure addr) fun _ =>
      .ite (fun _ => .bind (keeps_munmap hl) fun _ => .pure addr) fun _ => keeps_need fun c' hc => ?_
  obtain rfl := Option.some.inj hc
  exact keeps_grow hl

theorem Kept.addRegion (h : Kept l anon s t) (hl : l < MAX_PROCS) (start stop prot : Nat) :
    Kept l anon s (addRegion l start stop prot t).2 := by
  have hres := h.reserve 1
  rw [Vm.addRegion]
  rcases hr : t.reserve l 1 with ⟨b, u⟩
  rw [hr] at hres
  cases b with
  | false => exact hres
  | true =>
      simp only
      split_ifs
      · exact hres
      · exact hres.edit hl fun vs => add_sound vs start stop prot

theorem Kept.addRegionOver (h : Kept l anon s t) (hl : l < MAX_PROCS) (start stop prot : Nat) :
    Kept l anon s (addRegionOver l start stop prot t) := by
  have hres := h.reserve 2
  rw [Vm.addRegionOver]
  split_ifs
  · exact h
  · rcases hr : t.reserve l 2 with ⟨b, u⟩
    rw [hr] at hres
    cases b with
    | false => exact hres
    | true =>
        have hcarve := hres.edit hl fun vs => carve_sound vs start stop
        exact hcarve.edit hl fun vs => add_sound vs start stop prot

end Calls

end Pulsar.Vm

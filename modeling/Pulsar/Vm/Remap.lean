import Pulsar.Vm.Gaps

/-!
# What `mremap` does to the memory of a space

`remap` is `mremap` as one function of the state, for arguments that pass its checks
(**`answer_mremap`**).  A table from which a part of an anonymous region is taken, or to which one is
added, moves no reference of an object, so such an edit changes nothing but the table
(`edit_carve`, `edit_add`).
-/

namespace Pulsar.Vm

/-- The arguments pass the checks of `mremap`. -/
def Asked (addr oldLen newLen flags : Nat) : Prop :=
  (addr % PAGE = 0 ∧ MMAP_BASE ≤ addr ∧ oldLen ≠ 0 ∧ newLen ≠ 0 ∧ flags ≤ MREMAP_MAYMOVE) ∧
    oldLen + (PAGE - 1) < 2 ^ 64 ∧ newLen + (PAGE - 1) < 2 ^ 64 ∧ addr + up oldLen ≤ MMAP_END

instance (addr oldLen newLen flags : Nat) : Decidable (Asked addr oldLen newLen flags) :=
  inferInstanceAs (Decidable (_ ∧ _))

/-- The range is part of region `v`, which is private and anonymous. -/
def Vma.Holds (v : Vma) (addr len : Nat) : Prop :=
  v.start ≤ addr ∧ addr + len ≤ v.stop ∧ v.obj = 0 ∧ v.ino = 0

instance (v : Vma) (addr len : Nat) : Decidable (v.Holds addr len) :=
  inferInstanceAs (Decidable (_ ∧ _))

/-- The region can grow where it is. -/
def InPlace (vs : List Vma) (addr old new : Nat) : Prop :=
  min (addr + new) (2 ^ 64 - 1) ≤ MMAP_END ∧
    overlaps vs (addr + old) (min (addr + new) (2 ^ 64 - 1)) = false

instance (vs : List Vma) (addr old new : Nat) : Decidable (InPlace vs addr old new) :=
  inferInstanceAs (Decidable (_ ∧ _))

/-- The end of a range is cut off. -/
def shrunk (c : Cur) (addr old new : Nat) (s : Mm) : Mm :=
  (s.edit c.slot fun vs => carve vs (addr + new) (addr + old)).unmap c.root (addr + new) (addr + old)

/-- The range goes to `a`: the table of regions and then the pages. -/
def moved (c : Cur) (addr old new prot a : Nat) (s : Mm) : Mm :=
  (((s.setSpace c.slot { s.spaces c.slot with hint := a + new }).edit c.slot fun vs =>
    carve vs addr (addr + old)).edit c.slot fun vs => add vs a (a + new) prot).movePages c.root addr
      (addr + old) a

/-- `grow` as a function. -/
def regrow (c : Cur) (addr old new flags : Nat) (s : Mm) : Option Nat × Mm :=
  match find (s.spaces c.slot).vmas addr with
  | none => (none, s)
  | some v =>
    if v.Holds addr old then
      let r := s.reserve c.slot 2
      if r.1 = false then (none, r.2)
      else if InPlace (s.spaces c.slot).vmas addr old new then
        (some addr, r.2.edit c.slot fun vs =>
          add vs (addr + old) (min (addr + new) (2 ^ 64 - 1)) v.prot)
      else if flags.testBit 0 = false then (none, r.2)
      else
        match (r.2.spaces c.slot).gap new with
        | none => (none, r.2)
        | some a => (some a, moved c addr old new v.prot a r.2)
    else (none, s)

/-- `mremap` as a function, for arguments that pass the checks and whole pages. -/
def remap (c : Cur) (addr old new flags : Nat) (s : Mm) : Option Nat × Mm :=
  if new = old then (some addr, s)
  else if new < old then
    let r := s.reserve c.slot 1
    if r.1 = false then (none, r.2) else (some addr, shrunk c addr old new r.2)
  else regrow c addr old new flags s

variable {s t u : Mm} {c : Cur} {addr oldLen newLen flags old new a l k f x : Nat} {v : Vma}

/-! ### `mremap` as a function -/

theorem pageUp_some (h : x + (PAGE - 1) < 2 ^ 64) : pageUp x = some (up x) := by
  unfold pageUp
  exact if_pos h

theorem pageUp_none (h : ¬ x + (PAGE - 1) < 2 ^ 64) : pageUp x = none := by
  unfold pageUp
  exact if_neg h

theorem up_dvd (x : Nat) : PAGE ∣ up x := Nat.dvd_mul_left _ _

theorem up_of_dvd (h : PAGE ∣ x) : up x = x := by
  obtain ⟨q, rfl⟩ := h
  rw [up, Nat.mul_add_div (by decide), Nat.div_eq_of_lt (by decide), Nat.add_zero, Nat.mul_comm]

theorem up_pos (h : x ≠ 0) : 0 < up x := by
  rw [up]
  simp only [PAGE]
  omega

section Answer

variable {α β : Type} {F : α → Call β}

theorem answer_need_some {a : α} {e : Errno} : answer (need (some a) e >>= F) s = answer (F a) s := rfl

theorem answer_need_none {e : Errno} : answer (need (none : Option α) e >>= F) s = (none, s) := rfl

theorem answer_check {p : Prop} [Decidable p] {e : Errno} {F : Unit → Call β} :
    answer (check p e >>= F) s = if p then answer (F ()) s else (none, s) := by
  rw [check]
  split_ifs <;> rfl

theorem answer_reserved {F : Unit → Call β} :
    answer (reserved l k >>= F) s =
      if (s.reserve l k).1 = false then (none, (s.reserve l k).2)
      else answer (F ()) (s.reserve l k).2 := by
  have hstep : answer (reserved l k >>= F) s =
      answer (check ((s.reserve l k).1 = true) .ENOMEM >>= F) (s.reserve l k).2 := rfl
  rw [hstep, answer_check]
  cases (s.reserve l k).1 <;> rfl

end Answer

theorem answer_grow : answer (grow c addr old new flags) s = regrow c addr old new flags s := by
  have hget : ∀ {β : Type} (F : List Vma → Call β),
      answer (vmasOf c.slot >>= F) s = answer (F (s.spaces c.slot).vmas) s := fun _ => rfl
  rw [grow, hget, regrow]
  cases find (s.spaces c.slot).vmas addr with
  | none => rfl
  | some v =>
      rw [answer_need_some, answer_check, answer_reserved]
      simp only
      refine if_congr .rfl (if_congr .rfl rfl ?_) rfl
      refine (apply_ite (fun y : Call Nat => answer y (s.reserve c.slot 2).2) _ _ _).trans ?_
      refine if_congr .rfl rfl ?_
      rw [answer_check]
      cases flags.testBit 0 with
      | false => rfl
      | true =>
          rw [if_pos rfl, if_neg (by simp)]
          have hgap : ∀ {β : Type} (F : Nat → Call β) (u : Mm), answer (takeGap c.slot new >>= F) u =
              match (u.spaces c.slot).gap new with
              | none => (none, u)
              | some a => answer (F a)
                  (u.setSpace c.slot { u.spaces c.slot with hint := a + new }) := fun F u => by
            rw [takeGap]
            have hget : answer ((do
                let s ← get
                let a ← need ((s.spaces c.slot).gap new) .ENOMEM
                modify fun s => s.setSpace c.slot { s.spaces c.slot with hint := a + new }
                pure a) >>= F) u = answer ((do
                let a ← need ((u.spaces c.slot).gap new) .ENOMEM
                modify fun s => s.setSpace c.slot { s.spaces c.slot with hint := a + new }
                pure a) >>= F) u := rfl
            rw [hget]
            cases (u.spaces c.slot).gap new <;> rfl
          rw [hgap]
          rfl

/-- The range that is cut off passes the checks of `munmap`. -/
theorem answer_munmap {start len : Nat} {F : Unit → Call Nat} (ha : PAGE ∣ start) (hl : PAGE ∣ len)
    (hpos : len ≠ 0) (hb : MMAP_BASE ≤ start) (hend : start + len ≤ MMAP_END) :
    answer (munmap (some c) start len >>= F) s =
      if (s.reserve c.slot 1).1 = false then (none, (s.reserve c.slot 1).2)
      else answer (F ()) (((s.reserve c.slot 1).2.edit c.slot fun vs =>
        carve vs start (start + len)).unmap c.root start (start + len)) := by
  have hlt : start + len < 2 ^ 64 := Nat.lt_of_le_of_lt hend (by decide)
  have hup : pageUp len = some len := by
    rw [pageUp_some, up_of_dvd hl]
    simp only [MMAP_BASE, PAGE] at *
    omega
  have hadd : checkedAdd start len = some (start + len) := if_pos hlt
  rw [munmap, munmapCarve]
  simp only [bind_assoc, pure_bind]
  rw [answer_check, if_pos (Nat.mod_eq_zero_of_dvd ha), hup, answer_need_some, hadd,
    answer_need_some, answer_check, if_pos ⟨hpos, hb, hend⟩, answer_need_some, answer_reserved]
  exact if_congr .rfl rfl rfl

/-- What follows the checks of `mremap`. -/
theorem answer_remap (ha : PAGE ∣ addr ∧ MMAP_BASE ≤ addr) (ho : PAGE ∣ old) (hn : PAGE ∣ new)
    (hend : addr + old ≤ MMAP_END) :
    answer (if new = old then pure addr
      else if new < old then do
        munmap (some c) (addr + new) (old - new)
        pure addr
      else do
        let c ← need (some c) .EINVAL
        grow c addr old new flags : Call Nat) s = remap c addr old new flags s := by
  rw [remap]
  by_cases heq : new = old
  · rw [if_pos heq, if_pos heq]
    rfl
  · rw [if_neg heq, if_neg heq]
    by_cases hlt : new < old
    · rw [if_pos hlt, if_pos hlt, answer_munmap (Nat.dvd_add ha.1 hn) (Nat.dvd_sub ho hn)
        (by omega) (by omega) (by omega), show addr + new + (old - new) = addr + old by omega]
      rfl
    · rw [if_neg hlt, if_neg hlt]
      exact answer_grow

/-- **`mremap` is `remap`** where its arguments pass the checks, and an error elsewhere. -/
theorem answer_mremap (c : Cur) (addr oldLen newLen flags : Nat) (s : Mm) :
    answer (mremap (some c) addr oldLen newLen flags) s =
      if Asked addr oldLen newLen flags then remap c addr (up oldLen) (up newLen) flags s
      else (none, s) := by
  rw [mremap, answer_check]
  by_cases h₁ : addr % PAGE = 0 ∧ MMAP_BASE ≤ addr ∧ oldLen ≠ 0 ∧ newLen ≠ 0 ∧
      flags ≤ MREMAP_MAYMOVE
  · rw [if_pos h₁]
    by_cases h₂ : oldLen + (PAGE - 1) < 2 ^ 64
    · rw [pageUp_some h₂, answer_need_some]
      by_cases h₃ : newLen + (PAGE - 1) < 2 ^ 64
      · rw [pageUp_some h₃, answer_need_some, checkedAdd]
        by_cases h₄ : addr + up oldLen ≤ MMAP_END
        · have hasked : Asked addr oldLen newLen flags := ⟨h₁, h₂, h₃, h₄⟩
          have hlt : addr + up oldLen < 2 ^ 64 := Nat.lt_of_le_of_lt h₄ (by decide)
          rw [if_pos hlt, answer_need_some, answer_check, if_pos h₄, if_pos hasked]
          exact answer_remap ⟨Nat.dvd_of_mod_eq_zero h₁.1, h₁.2.1⟩ (up_dvd _) (up_dvd _) h₄
        · rw [@if_neg (Asked addr oldLen newLen flags) _ fun hc => h₄ hc.2.2.2]
          by_cases hlt : addr + up oldLen < 2 ^ 64
          · rw [if_pos hlt, answer_need_some, answer_check, if_neg h₄]
          · rw [if_neg hlt, answer_need_none]
      · rw [pageUp_none h₃, answer_need_none, if_neg fun hc => h₃ hc.2.2.1]
    · rw [pageUp_none h₂, answer_need_none, if_neg fun hc => h₂ hc.2.1]
  · rw [if_neg h₁, if_neg fun hc => h₁ hc.1]

/-- The ways in which `remap` answers. -/
inductive Remapped (c : Cur) (addr old new flags : Nat) (s : Mm) : Nat → Mm → Prop where
  | same (h : new = old) : Remapped c addr old new flags s addr s
  | shrunk (h : new < old) (hr : (s.reserve c.slot 1).1 = true) :
      Remapped c addr old new flags s addr (shrunk c addr old new (s.reserve c.slot 1).2)
  | grown (v : Vma) (h : old < new) (hv : find (s.spaces c.slot).vmas addr = some v)
      (hh : v.Holds addr old) (hr : (s.reserve c.slot 2).1 = true)
      (hin : InPlace (s.spaces c.slot).vmas addr old new) :
      Remapped c addr old new flags s addr ((s.reserve c.slot 2).2.edit c.slot fun vs =>
        add vs (addr + old) (min (addr + new) (2 ^ 64 - 1)) v.prot)
  | moved (v : Vma) (a : Nat) (h : old < new) (hv : find (s.spaces c.slot).vmas addr = some v)
      (hh : v.Holds addr old) (hr : (s.reserve c.slot 2).1 = true)
      (hin : ¬ InPlace (s.spaces c.slot).vmas addr old new) (hf : flags.testBit 0 = true)
      (hg : ((s.reserve c.slot 2).2.spaces c.slot).gap new = some a) :
      Remapped c addr old new flags s a (moved c addr old new v.prot a (s.reserve c.slot 2).2)

theorem remap_cases (c : Cur) (addr old new flags : Nat) (s : Mm) :
    (∃ k, remap c addr old new flags s = (none, s) ∨
      remap c addr old new flags s = (none, (s.reserve c.slot k).2)) ∨
    ∃ a t, remap c addr old new flags s = (some a, t) ∧ Remapped c addr old new flags s a t := by
  rw [remap]
  by_cases h₁ : new = old
  · rw [if_pos h₁]
    exact .inr ⟨addr, s, rfl, .same h₁⟩
  · rw [if_neg h₁]
    by_cases h₂ : new < old
    · rw [if_pos h₂]
      cases hr : (s.reserve c.slot 1).1 with
      | false => exact .inl ⟨1, .inr (if_pos hr)⟩
      | true => exact .inr ⟨addr, _, if_neg (by simp [hr]), .shrunk h₂ hr⟩
    · rw [if_neg h₂, regrow]
      cases hv : find (s.spaces c.slot).vmas addr with
      | none => exact .inl ⟨0, .inl rfl⟩
      | some v =>
          simp only
          by_cases hh : v.Holds addr old
          · rw [if_pos hh]
            cases hr : (s.reserve c.slot 2).1 with
            | false => exact .inl ⟨2, .inr (if_pos rfl)⟩
            | true =>
                rw [if_neg (by simp)]
                by_cases hin : InPlace (s.spaces c.slot).vmas addr old new
                · rw [if_pos hin]
                  exact .inr ⟨addr, _, rfl, .grown v (by omega) hv hh hr hin⟩
                · rw [if_neg hin]
                  cases hf : flags.testBit 0 with
                  | false => exact .inl ⟨2, .inr (if_pos rfl)⟩
                  | true =>
                      rw [if_neg (by simp)]
                      cases hg : ((s.reserve c.slot 2).2.spaces c.slot).gap new with
                      | none => exact .inl ⟨2, .inr rfl⟩
                      | some a => exact .inr ⟨a, _, rfl, .moved v a (by omega) hv hh hr hin hf hg⟩
          · rw [if_neg hh]
            exact .inl ⟨0, .inl rfl⟩

theorem remap_shrunk (h : new < old) (hr : (s.reserve c.slot 1).1 = true) :
    remap c addr old new flags s = (some addr, shrunk c addr old new (s.reserve c.slot 1).2) := by
  rw [remap, if_neg (Nat.ne_of_lt h), if_pos h]
  exact if_neg (by simp [hr])

theorem remap_moved (h : old < new) (hv : find (s.spaces c.slot).vmas addr = some v)
    (hh : v.Holds addr old) (hr : (s.reserve c.slot 2).1 = true)
    (hin : ¬ InPlace (s.spaces c.slot).vmas addr old new) (hf : flags.testBit 0 = true)
    (hg : ((s.reserve c.slot 2).2.spaces c.slot).gap new = some a) :
    remap c addr old new flags s =
      (some a, moved c addr old new v.prot a (s.reserve c.slot 2).2) := by
  rw [remap, if_neg (Nat.ne_of_gt h), if_neg (Nat.not_lt.mpr (Nat.le_of_lt h)), regrow, hv]
  simp only
  rw [if_pos hh, if_neg (by simp [hr]), if_neg hin, if_neg (by simp [hf]), hg]

/-! ### Edits that move no reference -/

section Edits

variable {vs : List Vma} {w : Vma} {i start stop prot : Nat}

/-- A merge with a region of object `o` moves references of that object only. -/
theorem mergeAt_refs {o : Nat} (ho : ∀ x, vs[i]? = some x → x.obj = o) :
    ∀ r ∈ (mergeAt vs i).2, r.1 = o := by
  intro r hr
  rcases mergeAt_cases vs i with h | ⟨x, y, hx, -, hxy, h⟩
  · rw [h] at hr
    exact absurd hr List.not_mem_nil
  · rw [h] at hr
    obtain rfl := List.mem_singleton.mp hr
    exact (mergeable_obj hxy).symm.trans (ho x hx)

/-- The references that `add_vma` gives back are those of the object of the new region. -/
theorem addVma_refs (h : Fine vs) : ∀ r ∈ (addVma vs v).2, r.1 = v.obj := by
  obtain ⟨pre, suf, hvs, -, -, hl, -, -⟩ := h.cut v.start
  have hle : lower vs v.start ≤ vs.length := by
    rw [← hl, hvs, List.length_append]
    exact Nat.le_add_right _ _
  obtain ⟨i, hi⟩ : ∃ i, i = lower vs v.start := ⟨_, rfl⟩
  obtain ⟨ws, hws⟩ : ∃ ws, ws = vs.insertIdx i v := ⟨_, rfl⟩
  have hat : ∀ x, ws[i]? = some x → x = v := fun x hx => by
    rw [hws, List.getElem?_insertIdx_self, if_pos (by omega)] at hx
    exact (Option.some.inj hx).symm
  simp only [addVma, ← hi, ← hws]
  cases i with
  | zero => exact mergeAt_refs fun x hx => congrArg Vma.obj (hat x hx)
  | succ j =>
      rw [if_pos (Nat.succ_pos j), Nat.add_sub_cancel]
      rcases mergeAt_cases ws j with hm | ⟨x, y, hx, hy, hxy, hm⟩
      · rw [hm, if_neg (Nat.lt_irrefl _)]
        exact mergeAt_refs fun x hx => congrArg Vma.obj (hat x hx)
      · obtain rfl := hat y hy
        obtain ⟨hj, -⟩ := List.getElem?_eq_some_iff.mp hx
        obtain ⟨hj', -⟩ := List.getElem?_eq_some_iff.mp hy
        have hlen : ((ws.set j { x with stop := y.stop }).eraseIdx (j + 1)).length < ws.length := by
          rw [List.length_eraseIdx, List.length_set, if_pos hj']
          omega
        rw [hm]
        simp only [if_pos hlen]
        intro r hr
        rcases List.mem_append.mp hr with hr | hr
        · rw [List.mem_singleton.mp hr]
        · -- the region before, with the new one merged into it
          refine mergeAt_refs (fun z hz => ?_) r hr
          rw [List.getElem?_eraseIdx_of_lt (Nat.lt_succ_self j), List.getElem?_set_self hj] at hz
          obtain rfl := Option.some.inj hz
          exact mergeable_obj (v := x) hxy

theorem carveFrom_refs (hall : ∀ w ∈ vs, start < w.stop) : ∀ r ∈ (carveFrom start stop vs).2,
    ∃ w ∈ vs, w.start < stop ∧ start < w.stop ∧ r.1 = w.obj := by
  induction vs with
  | nil => exact fun r hr => absurd hr List.not_mem_nil
  | cons w vs ih =>
      have hw := hall w List.mem_cons_self
      have hrest : ∀ r ∈ (carveFrom start stop vs).2,
          ∃ u ∈ w :: vs, u.start < stop ∧ start < u.stop ∧ r.1 = u.obj := fun r hr => by
        obtain ⟨u, hu, hrest⟩ := ih (fun u hu => hall u (List.mem_cons_of_mem w hu)) r hr
        exact ⟨u, List.mem_cons_of_mem w hu, hrest⟩
      intro r hr
      rw [carveFrom] at hr
      split_ifs at hr with h₁ h₂ h₃ h₄
      · exact absurd hr List.not_mem_nil
      · rw [List.mem_singleton.mp hr]
        exact ⟨w, List.mem_cons_self, by omega, hw, rfl⟩
      · exact hrest r hr
      · exact absurd hr List.not_mem_nil
      · rcases List.mem_cons.mp hr with rfl | hr
        · exact ⟨w, List.mem_cons_self, by omega, hw, rfl⟩
        · exact hrest r hr

theorem carve_refs (h : Fine vs) (hv : v ∈ vs) (hlt : start < stop) (hs : v.start ≤ start)
    (he : stop ≤ v.stop) : ∀ r ∈ (carve vs start stop).2, r.1 = v.obj := by
  obtain ⟨pre, suf, hvs, -, hsuf, -, -, hafter⟩ := h.cut start
  intro r hr
  simp only [carve, hsuf] at hr
  obtain ⟨w, hw, h₁, h₂, hobj⟩ := carveFrom_refs hafter r hr
  have hmem : w ∈ vs := hvs ▸ List.mem_append_right pre hw
  have hwlt := h.sorted.lt w hmem
  have hin : ∀ u ∈ vs, u.start ≤ max start w.start → max start w.start < u.stop →
      lookup vs (max start w.start) = some u := fun u hu h₃ h₄ =>
    Spans.look_of_mem h.sorted hu ⟨h₃, h₄⟩
  have hsame := (hin w hmem (by omega) (by omega)).symm.trans (hin v hv (by omega) (by omega))
  rw [hobj, Option.some.inj hsame]

theorem edit_anon {F : List Vma → List Vma × Refs} (h : ∀ r ∈ (F (s.spaces l).vmas).2, r.1 = 0) :
    s.edit l F = s.setSpace l { s.spaces l with vmas := (F (s.spaces l).vmas).1 } := by
  have hall : ∀ (rs : Refs) (t : Mm), (∀ r ∈ rs, r.1 = 0) → t.objRefs rs = t := fun rs => by
    induction rs with
    | nil => exact fun _ _ => rfl
    | cons r rs ih =>
        intro t hrs
        have hr : t.objRef r = t := if_neg fun hc => hc (hrs r List.mem_cons_self)
        rw [Mm.objRefs, List.foldl_cons, hr]
        exact ih t fun r hr => hrs r (List.mem_cons_of_mem _ hr)
  exact hall _ _ h

theorem edit_add (h : Fine (s.spaces l).vmas) : s.edit l (fun vs => add vs start stop prot) =
    s.setSpace l { s.spaces l with vmas := (add (s.spaces l).vmas start stop prot).1 } :=
  edit_anon (addVma_refs h)

theorem edit_carve (h : Fine (s.spaces l).vmas) (hv : v ∈ (s.spaces l).vmas) (hobj : v.obj = 0)
    (hlt : start < stop) (hs : v.start ≤ start) (he : stop ≤ v.stop) :
    s.edit l (fun vs => carve vs start stop) =
      s.setSpace l { s.spaces l with vmas := (carve (s.spaces l).vmas start stop).1 } :=
  edit_anon fun r hr => (carve_refs h hv hlt hs he r hr).trans hobj

end Edits

end Pulsar.Vm

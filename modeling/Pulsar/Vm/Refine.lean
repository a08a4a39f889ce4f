import Pulsar.Vm.Calls
import Pulsar.Vm.Edit

/-!
# The calls refine a function of pages

What a call asks for is a change of the function that the table of its space stands for
(`Request.effect`).  `Now l s t f k` says that the table of slot `l` is well-formed in `t`, has the
function `f` and room for `k` more regions, and that the tables of the other slots are those of
`s`: each piece of a call moves it in its own way, and `request_refines` puts them together.
-/

namespace Pulsar.Vm

variable {s t : Mm} {l k j : Nat} {f g : Nat → Option Desc}

/-- A well-formed table: sorted, disjoint, not empty, aligned, and not longer than its array. -/
structure Space.Well (sp : Space) : Prop where
  fine : Fine sp.vmas
  room : sp.vmas.length ≤ sp.cap
  hint : PAGE ∣ sp.hint

/-! ### What leaves the tables alone -/

namespace Mm

@[simp] theorem spaces_setFrames (fr : Frames) : (s.setFrames fr).spaces = s.spaces := rfl

@[simp] theorem spaces_setObj (id : Nat) (o : Obj) : (s.setObj id o).spaces = s.spaces := rfl

@[simp] theorem spaces_maybeFree (id : Nat) : (s.maybeFree id).spaces = s.spaces := by
  unfold maybeFree
  split_ifs
  · simp only
    split_ifs <;> rfl
  · rfl

@[simp] theorem spaces_mapRef (id : Nat) (d : Int) : (s.mapRef id d).spaces = s.spaces := by
  unfold mapRef
  split_ifs <;> simp

@[simp] theorem spaces_objRef (r : Nat × Int) : (s.objRef r).spaces = s.spaces := by
  unfold objRef
  split_ifs
  · exact spaces_mapRef _ _
  · rfl

@[simp] theorem spaces_objRefs (rs : Refs) : (s.objRefs rs).spaces = s.spaces := by
  induction rs generalizing s with
  | nil => rfl
  | cons r rs ih => rw [objRefs, List.foldl_cons, ← objRefs, ih, spaces_objRef]

@[simp] theorem spaces_unmap (r a b : Nat) : (s.unmap r a b).spaces = s.spaces := rfl

@[simp] theorem spaces_protectPages (r a b : Nat) (p : PageFlags) :
    (s.protectPages r a b p).spaces = s.spaces := rfl

@[simp] theorem spaces_movePages (r a b c : Nat) : (s.movePages r a b c).spaces = s.spaces := rfl

@[simp] theorem spaces_edit (F : List Vma → List Vma × Refs) : (s.edit l F).spaces =
    Function.update s.spaces l { s.spaces l with vmas := (F (s.spaces l).vmas).1 } := by
  rw [edit, spaces_objRefs]
  rfl

end Mm

/-! ### One table on its way -/

/-- The table of slot `l` in `t`, the other tables as in `s`. -/
structure Now (l : Nat) (s t : Mm) (f : Nat → Option Desc) (k : Nat) : Prop where
  fine : Fine (t.spaces l).vmas
  room : (t.spaces l).vmas.length + k ≤ (t.spaces l).cap
  hint : PAGE ∣ (t.spaces l).hint
  desc : ∀ x, descAt (t.spaces l).vmas x = f x
  others : ∀ m, m ≠ l → t.spaces m = s.spaces m

namespace Now

theorem start (h : (s.spaces l).Well) : Now l s s (descAt (s.spaces l).vmas) 0 :=
  ⟨h.fine, h.room, h.hint, fun _ => rfl, fun _ _ => rfl⟩

theorem well (h : Now l s t f k) : (t.spaces l).Well :=
  ⟨h.fine, by have := h.room; omega, h.hint⟩

theorem congr (h : Now l s t f k) {u : Mm} (hu : u.spaces = t.spaces) : Now l s u f k := by
  obtain ⟨h₁, h₂, h₃, h₄, h₅⟩ := h
  exact ⟨hu ▸ h₁, hu ▸ h₂, hu ▸ h₃, hu ▸ h₄, hu ▸ h₅⟩

theorem less (h : Now l s t f k) (hj : j ≤ k) : Now l s t f j :=
  ⟨h.fine, by have := h.room; omega, h.hint, h.desc, h.others⟩

theorem vmas (h : Now l s t f k) : descAt (t.spaces l).vmas = f := funext h.desc

theorem edit (h : Now l s t f (k + j)) {F : List Vma → List Vma × Refs} {rs : Refs}
    (he : Edit (t.spaces l).vmas g j ((F (t.spaces l).vmas).1, rs)) :
    Now l s (t.edit l F) g k := by
  have hs := Mm.spaces_edit (s := t) (l := l) F
  refine ⟨?_, ?_, ?_, ?_, fun m hm => ?_⟩
  · rw [hs, Function.update_self]
    exact he.fine
  · rw [hs, Function.update_self]
    have := h.room
    have := he.len
    simp only [Space.cap] at *
    omega
  · rw [hs, Function.update_self]
    exact h.hint
  · rw [hs, Function.update_self]
    exact he.desc
  · rw [hs, Function.update_of_ne hm]
    exact h.others m hm

/-- `reserve` changes no table, and makes room if it says so. -/
theorem reserve (h : Now l s t f 0) (hk : k ≤ 2) : Now l s (t.reserve l k).2 f 0 ∧
    ((t.reserve l k).1 = true → Now l s (t.reserve l k).2 f k) := by
  rcases Mm.reserve_cases l k t with ⟨hroom, hr⟩ | hr | ⟨b, fr, -, hr⟩
  · rw [hr]
    exact ⟨h, fun _ => ⟨h.fine, hroom, h.hint, h.desc, h.others⟩⟩
  · rw [hr]
    exact ⟨h, fun hc => absurd hc (by simp)⟩
  · have hnow : Now l s (t.reserve l k).2 f k := by
      rw [hr]
      refine ⟨?_, ?_, ?_, ?_, fun m hm => ?_⟩
      · simpa [Mm.setSpace] using h.fine
      · have hroom := h.room
        simp only [Mm.setSpace, Function.update_self, Space.cap, PAGE, VMA_SIZE, Mm.nextPages,
          FIRST_PAGES] at hroom ⊢
        split_ifs <;> omega
      · simpa [Mm.setSpace] using h.hint
      · simpa [Mm.setSpace] using h.desc
      · simpa [Mm.setSpace, Function.update_of_ne hm] using h.others m hm
    exact ⟨hnow.less (Nat.zero_le k), fun _ => hnow⟩

end Now

/-! ### Rules for the pieces of a call -/

section Rules

variable {α β : Type} {Q : β → Mm → Prop} {E : Errno → Mm → Prop}

theorem wp_need {x : Option α} {e : Errno} {F : α → Call β}
    (hQ : ∀ a, x = some a → wp (F a) Q E t) (hE : E e t) : wp (need x e >>= F) Q E t := by
  cases x with
  | none => exact hE
  | some a => exact hQ a rfl

theorem wp_check {c : Prop} [Decidable c] {e : Errno} {F : Unit → Call β}
    (hQ : c → wp (F ()) Q E t) (hE : E e t) : wp (check c e >>= F) Q E t := by
  rw [wp_bind, check]
  split_ifs with h
  · exact hQ h
  · exact hE

theorem wp_vmasOf {F : List Vma → Call β} (hQ : wp (F (t.spaces l).vmas) Q E t) :
    wp (vmasOf l >>= F) Q E t := by
  rw [wp_bind]
  exact hQ

theorem wp_change {φ : Mm → Mm} {F : Unit → Call β} (hQ : wp (F ()) Q E (φ t)) :
    wp (modify φ >>= F) Q E t := by
  rw [wp_bind, wp_modify]
  exact hQ

theorem wp_reserved {F : Unit → Call β} (h : Now l s t f 0) (hk : k ≤ 2)
    (hQ : ∀ u, Now l s u f k → wp (F ()) Q E u) (hE : ∀ e u, Now l s u f 0 → E e u) :
    wp (reserved l k >>= F) Q E t := by
  obtain ⟨h₁, h₂⟩ := h.reserve hk
  simp only [reserved, wp_bind, wp_get, wp_set]
  rw [← wp_bind]
  exact wp_check (fun hr => hQ _ (h₂ hr)) (hE _ _ h₁)

theorem wp_takeGap {len : Nat} {F : Nat → Call β} (h : Now l s t f k) (hlen : PAGE ∣ len)
    (hQ : ∀ a u, Now l s u f k → MMAP_BASE ≤ a → a + len ≤ MMAP_END → PAGE ∣ a →
      overlaps (u.spaces l).vmas a (a + len) = false → wp (F a) Q E u)
    (hE : ∀ e u, Now l s u f k → E e u) : wp (takeGap l len >>= F) Q E t := by
  simp only [takeGap, wp_bind, wp_get]
  rw [← wp_bind]
  refine wp_need (fun a ha => ?_) (hE _ _ h)
  obtain ⟨h₁, h₂, h₃, h₄⟩ : MMAP_BASE ≤ a ∧ a + len ≤ MMAP_END ∧ PAGE ∣ a ∧
      overlaps (t.spaces l).vmas a (a + len) = false := by
    rw [Space.gap, Option.or_eq_some_iff] at ha
    rcases ha with ha | ⟨-, ha⟩
    · exact gapFrom_spec h.fine h.hint ha
    · exact gapFrom_spec h.fine (by decide) ha
  have hv : ((t.setSpace l { t.spaces l with hint := a + len }).spaces l).vmas =
      (t.spaces l).vmas := by simp [Mm.setSpace]
  refine hQ a _ ⟨?_, ?_, ?_, ?_, fun m hm => ?_⟩ h₁ h₂ h₃ (hv ▸ h₄)
  · exact hv ▸ h.fine
  · simpa [Mm.setSpace, Space.cap] using h.room
  · simpa [Mm.setSpace] using (Nat.dvd_add h₃ hlen)
  · exact hv ▸ h.desc
  · simpa [Mm.setSpace, Function.update_of_ne hm] using h.others m hm

end Rules

theorem pageUp_dvd {x len : Nat} (h : pageUp x = some len) : PAGE ∣ len := by
  unfold pageUp at h
  split_ifs at h
  cases h
  exact Nat.dvd_mul_left _ _

theorem checkedAdd_eq {x y z : Nat} (h : checkedAdd x y = some z) : z = x + y := by
  unfold checkedAdd at h
  split_ifs at h
  exact (Option.some.inj h).symm

/-! ### The calls -/

/-- The pages of a length, in bytes. -/
def up (x : Nat) : Nat := (x + (PAGE - 1)) / PAGE * PAGE

theorem pageUp_eq {x len : Nat} (h : pageUp x = some len) : len = up x := by
  unfold pageUp at h
  split_ifs at h
  exact (Option.some.inj h).symm

/-- Nothing is mapped in the range. -/
def Unmapped (start stop : Nat) (f : Nat → Option Desc) : Prop :=
  ∀ x, start ≤ x → x < stop → f x = none

theorem Fine.unmapped {vs : List Vma} {start stop : Nat} (h : Fine vs)
    (hno : overlaps vs start stop = false) : Unmapped start stop (descAt vs) := fun x h₁ h₂ =>
  descAt_none fun v hv => by
    have := h.free hno hv
    omega

theorem Fine.overlaps_of_unmapped {vs : List Vma} {start stop : Nat} (h : Fine vs)
    (hss : start < stop) (hu : Unmapped start stop (descAt vs)) : overlaps vs start stop = false := by
  refine Bool.eq_false_iff.mpr fun hc => ?_
  obtain ⟨v, hv, h₁, h₂⟩ := h.overlaps_iff.mp hc
  have hlt := h.sorted.lt v hv
  have hlook : lookup vs (max start v.start) = some v :=
    Spans.look_of_mem h.sorted hv ⟨Nat.le_max_right _ _, by omega⟩
  have hnone := hu (max start v.start) (Nat.le_max_left _ _) (by omega)
  rw [descAt, hlook] at hnone
  exact absurd hnone (by simp)

section Calls

variable {c : Cur} {addr len prot flags obj ino pgoff start stop newLen oldLen : Nat}

/-- Where `mmap` may put a region: `NOREPLACE` and the search for a place keep what is mapped. -/
def MayPlace (flags addr a len : Nat) (f : Nat → Option Desc) : Prop :=
  PAGE ∣ a ∧ MMAP_BASE ≤ a ∧ a + len ≤ MMAP_END ∧ (MAP_FIXED flags = true → a = addr) ∧
    ((MAP_FIXED flags = true → MAP_NOREPLACE flags = true) → Unmapped a (a + len) f)

/-- A range out of which `carve` took everything is not mapped. -/
theorem unmapped_without : Unmapped start stop (without start stop f) := fun x h₁ h₂ => by
  rw [without, if_pos ⟨h₁, h₂⟩]

theorem placeFixed_spec {β : Type} {Q : β → Mm → Prop} {E : Errno → Mm → Prop}
    {F : Nat → Call β} (h : Now c.slot s t f 2) (hfix : MAP_FIXED flags = true)
    (hlen : PAGE ∣ len) (hpos : len ≠ 0)
    (hQ : ∀ u g, Now c.slot s u g 1 → MayPlace flags addr addr len f →
      Unmapped addr (addr + len) g → (g = f ∨ g = without addr (addr + len) f) →
      wp (F addr) Q E u) (hE : ∀ e u, Now c.slot s u f 0 → E e u) :
    wp (placeFixed c addr len flags >>= F) Q E t := by
  have hE₀ : ∀ e, E e t := fun e => hE e t (h.less (by decide))
  rw [placeFixed, bind_assoc]
  refine wp_check (fun hal => ?_) (hE₀ _)
  rw [bind_assoc]
  refine wp_need (fun stop hstop => ?_) (hE₀ _)
  obtain rfl := checkedAdd_eq hstop
  rw [bind_assoc]
  refine wp_check (fun hr => ?_) (hE₀ _)
  rw [bind_assoc]
  refine wp_vmasOf ?_
  have hdvd : PAGE ∣ addr := Nat.dvd_of_mod_eq_zero hal
  have hplace (hu : MAP_NOREPLACE flags = true → Unmapped addr (addr + len) f) :
      MayPlace flags addr addr len f := ⟨hdvd, hr.1, hr.2, fun _ => rfl, fun hn => hu (hn hfix)⟩
  by_cases ho : overlaps (t.spaces c.slot).vmas addr (addr + len) = true
  · rw [if_pos ho, bind_assoc]
    refine wp_check (fun hn => ?_) (hE₀ _)
    simp only [bind_assoc, pure_bind]
    refine wp_change (wp_change ?_)
    have hcarve := carve_edit (by omega) hdvd (Nat.dvd_add hdvd hlen) h.fine
    have hnow : Now c.slot s _ _ 1 :=
      h.edit (F := fun vs => carve vs addr (addr + len)) hcarve
    rw [h.vmas] at hnow
    exact hQ _ _ (hnow.congr (Mm.spaces_unmap _ _ _)) (hplace fun hc => by simp [hn] at hc)
      unmapped_without (.inr rfl)
  · have hu : Unmapped addr (addr + len) f :=
      h.vmas ▸ h.fine.unmapped (Bool.eq_false_iff.mpr ho)
    rw [if_neg ho, pure_bind]
    exact hQ _ f (h.less (by decide)) (hplace fun _ => hu) hu (.inl rfl)

theorem placeFree_spec {β : Type} {Q : β → Mm → Prop} {E : Errno → Mm → Prop}
    {F : Nat → Call β} (h : Now c.slot s t f 2) (hfix : MAP_FIXED flags = false)
    (hlen : PAGE ∣ len) (hQ : ∀ a u, Now c.slot s u f 1 → MayPlace flags addr a len f →
      Unmapped a (a + len) f → wp (F a) Q E u) (hE : ∀ e u, Now c.slot s u f 0 → E e u) :
    wp (placeFree c addr len >>= F) Q E t := by
  have hplace : ∀ a, PAGE ∣ a → MMAP_BASE ≤ a → a + len ≤ MMAP_END →
      Unmapped a (a + len) f → MayPlace flags addr a len f := fun a h₁ h₂ h₃ h₄ =>
    ⟨h₁, h₂, h₃, fun hc => by simp [hfix] at hc, fun _ => h₄⟩
  rw [placeFree, bind_assoc]
  refine wp_vmasOf ?_
  split_ifs with hh
  · have hu : Unmapped _ _ f := h.vmas ▸ h.fine.unmapped hh.2.2.2
    rw [pure_bind]
    exact hQ _ _ (h.less (by decide)) (hplace _ (Nat.dvd_mul_left _ _) hh.1 hh.2.2.1 hu) hu
  · refine wp_takeGap h hlen (fun a u hu h₁ h₂ h₃ ho => ?_) fun e u hu => hE e u (hu.less (by decide))
    have hun : Unmapped a (a + len) f := hu.vmas ▸ hu.fine.unmapped ho
    exact hQ _ _ (hu.less (by decide)) (hplace a h₃ h₁ h₂ hun) hun

theorem placed_without {v : Vma} (h : g = f ∨ g = without v.start v.stop f) :
    placed v g = placed v f := by
  rcases h with rfl | rfl
  · rfl
  · funext x
    simp only [placed, without]
    split_ifs <;> rfl

/-- **`mmap`** puts the region where it may go. -/
theorem mmapFull_spec (h : Now c.slot s t f 0) :
    wp (mmapFull (some c) addr len prot flags obj ino pgoff)
      (fun a u => Now c.slot s u (placed ⟨a, a + up len, prot, obj, ino, pgoff⟩ f) 0 ∧
        MayPlace flags addr a (up len) f) (fun _ u => Now c.slot s u f 0) t := by
  rw [mmapFull]
  refine wp_need (fun len' hlen => ?_) h
  have hdvd := pageUp_dvd hlen
  obtain rfl := pageUp_eq hlen
  refine wp_check (fun hc => ?_) h
  refine wp_need (fun c' hc' => ?_) h
  obtain rfl := Option.some.inj hc'
  refine wp_reserved h (Nat.le_refl 2) (fun u hu => ?_) fun _ _ hu => hu
  -- the region goes to a place that is free by now
  have hput : ∀ a u g, Now c.slot s u g 1 → MayPlace flags addr a (up len) f →
      Unmapped a (a + up len) g → (g = f ∨ g = without a (a + up len) f) →
      Now c.slot s ((u.objRef (obj, 1)).edit c.slot fun vs =>
        addVma vs ⟨a, a + up len, prot, obj, ino, pgoff⟩)
        (placed ⟨a, a + up len, prot, obj, ino, pgoff⟩ f) 0 ∧ MayPlace flags addr a (up len) f := by
    intro a u g hu hm hun hg
    have hu' : Now c.slot s (u.objRef (obj, 1)) g 1 := hu.congr (Mm.spaces_objRef _)
    have hno := hu'.fine.overlaps_of_unmapped (by omega) (hu'.vmas.symm ▸ hun)
    have hadd := addVma_edit (v := ⟨a, a + up len, prot, obj, ino, pgoff⟩) hu'.fine
      (by simp only; omega) hm.1 (Nat.dvd_add hm.1 hdvd) hno
    have hnow : Now c.slot s _ _ 0 := hu'.edit (F := fun vs => addVma vs _) hadd
    rw [hu'.vmas, placed_without hg] at hnow
    exact ⟨hnow, hm⟩
  cases hfix : MAP_FIXED flags with
  | true =>
      rw [if_pos rfl]
      exact placeFixed_spec hu hfix hdvd hc.1 (fun w g hw hm hun hg => hput _ _ _ hw hm hun hg)
        fun _ _ hw => hw
  | false =>
      rw [if_neg Bool.false_ne_true]
      exact placeFree_spec hu hfix hdvd (fun a w hw hm hun => hput _ _ _ hw hm hun (.inl rfl))
        fun _ _ hw => hw

/-- **`munmap`** takes the range out. -/
theorem munmap_spec {β : Type} {Q : β → Mm → Prop} {E : Errno → Mm → Prop} {F : Unit → Call β}
    (h : Now c.slot s t f 0)
    (hQ : ∀ u, Now c.slot s u (without addr (addr + up len) f) 0 → wp (F ()) Q E u)
    (hE : ∀ e u, Now c.slot s u f 0 → E e u) : wp (munmap (some c) addr len >>= F) Q E t := by
  rw [munmap, munmapCarve]
  simp only [bind_assoc, pure_bind]
  refine wp_check (fun hal => ?_) (hE _ _ h)
  refine wp_need (fun len' hlen => ?_) (hE _ _ h)
  have hdvd := pageUp_dvd hlen
  obtain rfl := pageUp_eq hlen
  refine wp_need (fun stop hstop => ?_) (hE _ _ h)
  obtain rfl := checkedAdd_eq hstop
  refine wp_check (fun hc => ?_) (hE _ _ h)
  refine wp_need (fun c' hc' => ?_) (hE _ _ h)
  obtain rfl := Option.some.inj hc'
  refine wp_reserved h (by decide) (fun u hu => ?_) hE
  have ha : PAGE ∣ addr := Nat.dvd_of_mod_eq_zero hal
  have hcarve := carve_edit (by omega) ha (Nat.dvd_add ha hdvd) hu.fine
  have hnow : Now c.slot s _ _ 0 :=
    hu.edit (F := fun vs => carve vs addr (addr + up len)) hcarve
  rw [hu.vmas] at hnow
  exact wp_change (wp_change (hQ _ (hnow.congr (Mm.spaces_unmap _ _ _))))

/-- **`mprotect`** changes the protection of a range that is mapped all over. -/
theorem mprotect_spec (h : Now c.slot s t f 0) : wp (mprotect (some c) addr len prot)
    (fun _ u => Now c.slot s u (reprot addr (addr + up len) prot f) 0 ∧
      ∀ x, addr ≤ x → x < addr + up len → f x ≠ none) (fun _ u => Now c.slot s u f 0) t := by
  rw [mprotect]
  refine wp_check (fun hal => ?_) h
  refine wp_need (fun len' hlen => ?_) h
  have hdvd := pageUp_dvd hlen
  obtain rfl := pageUp_eq hlen
  refine wp_need (fun stop hstop => ?_) h
  obtain rfl := checkedAdd_eq hstop
  split_ifs with hz
  · have hnone : reprot addr (addr + up len) prot f = f := funext fun x => by
      rw [reprot, if_neg (by omega)]
    rw [wp_pure, hnone]
    exact ⟨h, fun x h₁ h₂ => by omega⟩
  · refine wp_need (fun c' hc' => ?_) h
    obtain rfl := Option.some.inj hc'
    refine wp_vmasOf (wp_check (fun hcov => ?_) h)
    refine wp_reserved h (Nat.le_refl 2) (fun u hu => ?_) fun _ _ hu => hu
    have ha : PAGE ∣ addr := Nat.dvd_of_mod_eq_zero hal.1
    have hprot := protect_edit prot hu.fine ha (Nat.dvd_add ha hdvd)
    have hnow : Now c.slot s _ _ 0 :=
      hu.edit (F := fun vs => protect vs addr (addr + up len) prot) hprot
    rw [hu.vmas] at hnow
    refine wp_change ⟨hnow.congr (Mm.spaces_protectPages _ _ _ _), fun x h₁ h₂ => ?_⟩
    rw [← h.desc]
    exact covered_mapped h.fine hcov h₁ h₂

/-- What `mremap` makes of a function when it answers `a`. -/
def remapped (addr oldLen newLen a : Nat) (f : Nat → Option Desc) : Nat → Option Desc :=
  let prot := ((f addr).map Desc.prot).getD 0
  if newLen ≤ oldLen then without (addr + newLen) (addr + oldLen) f
  else if a = addr then placed (.anon (addr + oldLen) (addr + newLen) prot) f
  else placed (.anon a (a + newLen) prot) (without addr (addr + oldLen) f)

/-- What `mremap` requires of a region that is to grow, and where it may go: the old range is
private and anonymous under one protection, the new pages were not mapped. -/
def MayGrow (addr oldLen newLen a : Nat) (f : Nat → Option Desc) : Prop :=
  (∃ prot, ∀ x, addr ≤ x → x < addr + oldLen → f x = some ⟨prot, 0, 0, 0⟩) ∧
    Unmapped (if a = addr then addr + oldLen else a) (a + newLen) f

theorem desc_anon {v : Vma} {x : Nat} (h : v.obj = 0 ∧ v.ino = 0) :
    v.desc x = ⟨v.prot, 0, 0, 0⟩ := by
  simp only [Vma.desc, h.1, h.2, and_self, if_true]

/-- The region that `find` finds, in terms of the function. -/
theorem Now.find (h : Now l s t f k) {v : Vma} (hv : find (t.spaces l).vmas addr = some v) :
    v.start ≤ addr ∧ addr < v.stop ∧
      ∀ x, v.start ≤ x → x < v.stop → f x = some (v.desc x) := by
  rw [h.fine.find_eq] at hv
  obtain ⟨hmem, h₁, h₂⟩ := Spans.look_some hv
  refine ⟨h₁, h₂, fun x h₃ h₄ => ?_⟩
  rw [← h.desc, descAt, lookup, Spans.look_of_mem h.fine.sorted hmem ⟨h₃, h₄⟩, Option.map_some]

theorem Now.add (prot : Nat) (h : Now l s t f (k + 1)) (hlt : start < stop) (hs : PAGE ∣ start)
    (he : PAGE ∣ stop) (hu : Unmapped start stop f) :
    Now l s (t.edit l fun vs => add vs start stop prot) (placed (.anon start stop prot) f) k := by
  have hno := h.fine.overlaps_of_unmapped hlt (h.vmas.symm ▸ hu)
  have hadd := addVma_edit (v := .anon start stop prot) h.fine hlt hs he hno
  have hnow : Now l s _ _ k := h.edit (F := fun vs => Vm.add vs start stop prot) hadd
  rwa [h.vmas] at hnow

theorem Now.carve (h : Now l s t f (k + 1)) (hlt : start < stop) (hs : PAGE ∣ start)
    (he : PAGE ∣ stop) :
    Now l s (t.edit l fun vs => carve vs start stop) (without start stop f) k := by
  have hnow : Now l s _ _ k :=
    h.edit (F := fun vs => Vm.carve vs start stop) (carve_edit hlt hs he h.fine)
  rwa [h.vmas] at hnow

theorem grow_spec (h : Now c.slot s t f 0) (ha : PAGE ∣ addr) (ho : PAGE ∣ oldLen)
    (hn : PAGE ∣ newLen) (hpos : oldLen ≠ 0) (hlt : oldLen < newLen) :
    wp (grow c addr oldLen newLen flags)
      (fun a u => Now c.slot s u (remapped addr oldLen newLen a f) 0 ∧
        MayGrow addr oldLen newLen a f) (fun _ u => Now c.slot s u f 0) t := by
  rw [grow]
  refine wp_vmasOf (wp_need (fun v hv => ?_) h)
  obtain ⟨hv₁, hv₂, hdesc⟩ := h.find hv
  refine wp_check (fun hc => ?_) h
  have hold : ∀ x, addr ≤ x → x < addr + oldLen → f x = some ⟨v.prot, 0, 0, 0⟩ := fun x h₁ h₂ => by
    rw [hdesc x (by omega) (by omega), desc_anon hc.2.2]
  have hprot : ((f addr).map Desc.prot).getD 0 = v.prot := by
    rw [hold addr (Nat.le_refl _) (by omega)]
    rfl
  refine wp_reserved h (Nat.le_refl 2) (fun u hu => ?_) fun _ _ hu => hu
  dsimp only
  split_ifs with hin
  · -- in place
    have hend : min (addr + newLen) (2 ^ 64 - 1) = addr + newLen := by
      have := hin.1
      simp only [MMAP_END] at this
      omega
    rw [hend] at hin ⊢
    have hun : Unmapped (addr + oldLen) (addr + newLen) f := by
      have := h.fine.unmapped hin.2
      rwa [h.vmas] at this
    have hadd := (hu.less (k := 2) (j := 1) (by decide)).add v.prot (k := 0) (by omega)
      (Nat.dvd_add ha ho) (Nat.dvd_add ha hn) hun
    refine wp_change ?_
    rw [wp_pure, remapped, if_neg (by omega), if_pos rfl, hprot]
    exact ⟨hadd, ⟨v.prot, hold⟩, by rwa [if_pos rfl]⟩
  · refine wp_check (fun _ => ?_) (hu.less (by decide))
    refine wp_takeGap hu hn (fun a w hw h₁ h₂ h₃ hno => ?_) fun _ _ hw => hw.less (by decide)
    have hun : Unmapped a (a + newLen) f := hw.vmas ▸ hw.fine.unmapped hno
    have hne : a ≠ addr := by
      rintro rfl
      have := hun a (Nat.le_refl _) (by omega)
      rw [hold a (Nat.le_refl _) (by omega)] at this
      exact absurd this (by simp)
    have hcarve := hw.carve (by omega) ha (Nat.dvd_add ha ho)
    have hadd := hcarve.add v.prot (k := 0) (by omega) h₃ (Nat.dvd_add h₃ hn)
      fun x h₄ h₅ => by
        rw [without]
        split_ifs
        · rfl
        · exact hun x h₄ h₅
    refine wp_change (wp_change (wp_change ?_))
    rw [wp_pure, remapped, if_neg (by omega), if_neg hne, hprot]
    refine ⟨hadd.congr (Mm.spaces_movePages _ _ _ _), ⟨v.prot, hold⟩, ?_⟩
    rwa [if_neg hne]

/-- **`mremap`** cuts the end off, or makes the region longer where it may. -/
theorem mremap_spec (h : Now c.slot s t f 0) : wp (mremap (some c) addr oldLen newLen flags)
    (fun a u => Now c.slot s u (remapped addr (up oldLen) (up newLen) a f) 0 ∧
      (up newLen ≤ up oldLen → a = addr) ∧
      (up oldLen < up newLen → MayGrow addr (up oldLen) (up newLen) a f))
    (fun _ u => Now c.slot s u f 0) t := by
  rw [mremap]
  refine wp_check (fun hc => ?_) h
  have ha : PAGE ∣ addr := Nat.dvd_of_mod_eq_zero hc.1
  refine wp_need (fun o ho => ?_) h
  have hod := pageUp_dvd ho
  obtain rfl := pageUp_eq ho
  refine wp_need (fun n hn => ?_) h
  have hnd := pageUp_dvd hn
  obtain rfl := pageUp_eq hn
  refine wp_need (fun e he => ?_) h
  obtain rfl := checkedAdd_eq he
  refine wp_check (fun hend => ?_) h
  split_ifs with heq hlt
  · rw [wp_pure, heq, remapped, if_pos (Nat.le_refl _)]
    refine ⟨?_, fun _ => rfl, fun hc => by omega⟩
    have hnone : without (addr + up oldLen) (addr + up oldLen) f = f := funext fun x => by
      rw [without, if_neg (by omega)]
    rwa [hnone]
  · refine munmap_spec h (fun u hu => ?_) fun _ _ hu => hu
    have hlen : up (up oldLen - up newLen) = up oldLen - up newLen := by
      obtain ⟨q, hq⟩ := Nat.dvd_sub hod hnd
      rw [hq, up, Nat.mul_add_div (by decide), Nat.div_eq_of_lt (by decide), Nat.add_zero,
        Nat.mul_comm]
    rw [hlen, show addr + up newLen + (up oldLen - up newLen) = addr + up oldLen by omega] at hu
    rw [wp_pure, remapped, if_pos (Nat.le_of_lt hlt)]
    exact ⟨hu, fun _ => rfl, fun hc => by omega⟩
  · refine wp_need (fun c' hc' => ?_) h
    obtain rfl := Option.some.inj hc'
    have hpos : up oldLen ≠ 0 := by
      rw [up]
      have := hc.2.2.1
      simp only [PAGE]
      omega
    exact wp_mono (grow_spec h ha hod hnd hpos (by omega))
      (fun a u hu => ⟨hu.1, fun hc => by omega, fun _ => hu.2⟩) fun _ _ hu => hu

/-- **`add_region`** adds a region or changes nothing. -/
theorem addRegion_spec (prot : Nat) (h : Now l s t f 0) (hlt : start < stop) (hs : PAGE ∣ start)
    (he : PAGE ∣ stop) :
    ((addRegion l start stop prot t).1 = true ∧ Unmapped start stop f ∧
      Now l s (addRegion l start stop prot t).2 (placed (.anon start stop prot) f) 0) ∨
    (addRegion l start stop prot t).1 = false ∧
      Now l s (addRegion l start stop prot t).2 f 0 := by
  obtain ⟨h₁, h₂⟩ := h.reserve (k := 1) (by decide)
  unfold addRegion
  rcases hr : t.reserve l 1 with ⟨-|-, u⟩
  · rw [hr] at h₁
    exact .inr ⟨rfl, h₁⟩
  · rw [hr] at h₁ h₂
    simp only
    split_ifs with ho
    · exact .inr ⟨rfl, h₁⟩
    · have hun : Unmapped start stop f :=
        h₁.vmas ▸ h₁.fine.unmapped (Bool.eq_false_iff.mpr ho)
      exact .inl ⟨rfl, hun, (h₂ rfl).add prot hlt hs he hun⟩

/-- **`add_region_over`** adds a region over what is there, if there is room. -/
theorem addRegionOver_spec (prot : Nat) (h : Now l s t f 0) (hs : PAGE ∣ start) (he : PAGE ∣ stop) :
    (start < stop ∧ (t.reserve l 2).1 = true ∧
      Now l s (addRegionOver l start stop prot t) (placed (.anon start stop prot) f) 0) ∨
    ¬ (start < stop ∧ (t.reserve l 2).1 = true) ∧
      Now l s (addRegionOver l start stop prot t) f 0 := by
  obtain ⟨h₁, h₂⟩ := h.reserve (Nat.le_refl 2)
  unfold addRegionOver
  split_ifs with hle
  · exact .inr ⟨fun hc => by omega, h⟩
  · have hlt : start < stop := by omega
    rcases hr : t.reserve l 2 with ⟨-|-, u⟩
    · rw [hr] at h₁
      exact .inr ⟨fun hc => Bool.noConfusion hc.2, h₁⟩
    · rw [hr] at h₂
      have hcarve := (h₂ rfl).carve hlt hs he
      have hadd := hcarve.add prot (k := 0) hlt hs he unmapped_without
      have hover : placed (.anon start stop prot) (without start stop f) =
          placed (.anon start stop prot) f := placed_without (.inr rfl)
      exact .inl ⟨hlt, rfl, hover ▸ hadd⟩

end Calls

/-! ### Requests -/

/-- What can be asked of the table of an address space. -/
inductive Request where
  | mmap (addr len prot flags obj ino pgoff : Nat)
  | munmap (addr len : Nat)
  | mprotect (addr len prot : Nat)
  | mremap (addr oldLen newLen flags : Nat)
  | addRegion (start stop prot : Nat)
  | addRegionOver (start stop prot : Nat)

/-- The value of a call, if it returns one, and the state it leaves. -/
def answer {α : Type} (x : Call α) (s : Mm) : Option α × Mm :=
  match x s with
  | .ok a t => (some a, t)
  | .error _ t => (none, t)

theorem answer_spec {α : Type} {x : Call α} {Q : α → Mm → Prop} {E : Mm → Prop}
    (h : wp x Q (fun _ => E) s) :
    (∃ a, (answer x s).1 = some a ∧ Q a (answer x s).2) ∨
      (answer x s).1 = none ∧ E (answer x s).2 := by
  unfold wp at h
  unfold answer
  rcases hx : x s with ⟨a, t⟩ | ⟨e, t⟩
  · rw [hx] at h
    exact .inl ⟨a, rfl, h⟩
  · rw [hx] at h
    exact .inr ⟨rfl, h⟩

namespace Request

/-- A request, served for the space `c`: its value, unless it is an error. -/
def run (c : Cur) : Request → Mm → Option Nat × Mm
  | mmap addr len prot flags obj ino pgoff, s =>
    answer (mmapFull (some c) addr len prot flags obj ino pgoff) s
  | munmap addr len, s => answer ((fun _ => 0) <$> Vm.munmap (some c) addr len) s
  | mprotect addr len prot, s => answer ((fun _ => 0) <$> Vm.mprotect (some c) addr len prot) s
  | mremap addr oldLen newLen flags, s => answer (Vm.mremap (some c) addr oldLen newLen flags) s
  | addRegion start stop prot, s =>
    let r := Vm.addRegion c.slot start stop prot s
    (if r.1 then some 0 else none, r.2)
  | addRegionOver start stop prot, s =>
    (if start < stop ∧ (s.reserve c.slot 2).1 = true then some 0 else none,
      Vm.addRegionOver c.slot start stop prot s)

/-- What the callers of the requests promise: `add_region` and `add_region_over` are called with
ranges of pages. -/
def Admitted : Request → Prop
  | addRegion start stop _ => start < stop ∧ PAGE ∣ start ∧ PAGE ∣ stop
  | addRegionOver start stop _ => PAGE ∣ start ∧ PAGE ∣ stop
  | _ => True

/-- What a request makes of the function when its value is `a`. -/
def effect (a : Nat) (f : Nat → Option Desc) : Request → Nat → Option Desc
  | mmap _ len prot _ obj ino pgoff => placed ⟨a, a + up len, prot, obj, ino, pgoff⟩ f
  | munmap addr len => without addr (addr + up len) f
  | mprotect addr len prot => reprot addr (addr + up len) prot f
  | mremap addr oldLen newLen _ => remapped addr (up oldLen) (up newLen) a f
  | addRegion start stop prot => placed (.anon start stop prot) f
  | addRegionOver start stop prot => placed (.anon start stop prot) f

/-- Where a request may have its effect, when its value is `a`. -/
def Allowed (a : Nat) (f : Nat → Option Desc) : Request → Prop
  | mmap addr len _ flags _ _ _ => MayPlace flags addr a (up len) f
  | munmap _ _ => True
  | mprotect addr len _ => ∀ x, addr ≤ x → x < addr + up len → f x ≠ none
  | mremap addr oldLen newLen _ => (up newLen ≤ up oldLen → a = addr) ∧
      (up oldLen < up newLen → MayGrow addr (up oldLen) (up newLen) a f)
  | addRegion start stop _ => Unmapped start stop f
  | addRegionOver _ _ _ => True

/-- What a request with this answer has made of function `f`: the effect, or nothing. -/
def Outcome (q : Request) (f g : Nat → Option Desc) : Option Nat → Prop
  | some a => g = q.effect a f ∧ q.Allowed a f
  | none => g = f

end Request

/-- What is shown of the table of slot `l` after a request with answer `r`. -/
structure Refines (l : Nat) (q : Request) (s t : Mm) (r : Option Nat) : Prop where
  well : (t.spaces l).Well
  outcome : q.Outcome (descAt (s.spaces l).vmas) (descAt (t.spaces l).vmas) r
  others : ∀ m, m ≠ l → t.spaces m = s.spaces m

theorem Now.refines {q : Request} {r : Option Nat} (h : Now l s t g 0)
    (ho : q.Outcome (descAt (s.spaces l).vmas) g r) : Refines l q s t r :=
  ⟨h.well, h.vmas ▸ ho, h.others⟩

/-- **The table refines a partial function from pages**: every request leaves a well-formed table
whose function is the old one, changed as asked where it is allowed, or not at all when the answer
is an error; and no other table changes. -/
theorem request_refines (c : Cur) (q : Request) (hq : q.Admitted) (s : Mm)
    (h : (s.spaces c.slot).Well) : Refines c.slot q s (q.run c s).2 (q.run c s).1 := by
  have hnow := Now.start h
  cases q with
  | mmap addr len prot flags obj ino pgoff =>
      rcases answer_spec (mmapFull_spec hnow) with ⟨a, ha, hu, hok⟩ | ⟨ha, hu⟩
      · exact hu.refines (by simp only [Request.run, ha]; exact ⟨rfl, hok⟩)
      · exact hu.refines (by simp only [Request.run, ha]; rfl)
  | munmap addr len =>
      have hspec : wp ((fun _ => 0) <$> munmap (some c) addr len)
          (fun _ u => Now c.slot s u (without addr (addr + up len)
            (descAt (s.spaces c.slot).vmas)) 0)
          (fun _ u => Now c.slot s u (descAt (s.spaces c.slot).vmas) 0) s := by
        rw [map_eq_pure_bind]
        exact munmap_spec hnow (fun u hu => hu) fun _ _ hu => hu
      rcases answer_spec hspec with ⟨a, ha, hu⟩ | ⟨ha, hu⟩
      · exact hu.refines (by simp only [Request.run, ha]; exact ⟨rfl, trivial⟩)
      · exact hu.refines (by simp only [Request.run, ha]; rfl)
  | mprotect addr len prot =>
      have hspec : wp ((fun _ => 0) <$> mprotect (some c) addr len prot)
          (fun _ u => Now c.slot s u (reprot addr (addr + up len) prot
            (descAt (s.spaces c.slot).vmas)) 0 ∧ ∀ x, addr ≤ x → x < addr + up len →
              descAt (s.spaces c.slot).vmas x ≠ none)
          (fun _ u => Now c.slot s u (descAt (s.spaces c.slot).vmas) 0) s :=
        (wp_map _ fun _ => 0).mpr (mprotect_spec hnow)
      rcases answer_spec hspec with ⟨a, ha, hu, hok⟩ | ⟨ha, hu⟩
      · exact hu.refines (by simp only [Request.run, ha]; exact ⟨rfl, hok⟩)
      · exact hu.refines (by simp only [Request.run, ha]; rfl)
  | mremap addr oldLen newLen flags =>
      rcases answer_spec (mremap_spec hnow) with ⟨a, ha, hu, hok⟩ | ⟨ha, hu⟩
      · exact hu.refines (by simp only [Request.run, ha]; exact ⟨rfl, hok⟩)
      · exact hu.refines (by simp only [Request.run, ha]; rfl)
  | addRegion start stop prot =>
      rcases addRegion_spec prot hnow hq.1 hq.2.1 hq.2.2 with ⟨ha, hun, hu⟩ | ⟨ha, hu⟩
      · exact hu.refines (by simp only [Request.run, ha]; exact ⟨rfl, hun⟩)
      · exact hu.refines (by simp only [Request.run, ha]; rfl)
  | addRegionOver start stop prot =>
      rcases addRegionOver_spec prot hnow hq.1 hq.2 with ⟨hlt, ha, hu⟩ | ⟨ha, hu⟩
      · exact hu.refines (by simp only [Request.run, if_pos (And.intro hlt ha)]; exact ⟨rfl, trivial⟩)
      · exact hu.refines (by simp only [Request.run, if_neg ha]; rfl)

/-- Three pages of a file are mapped. -/
def threePages : Mm :=
  ((Request.mmap MMAP_BASE 12288 3 256 0 7 2).run ⟨0, 0⟩ (.boot (.boot 8 fun _ => false))).2

/-- The page in the middle gets another protection, so that there are three regions. -/
theorem request_refines_split :
    (threePages.spaces 0).vmas.length = 1 ∧
    (((Request.mprotect (MMAP_BASE + 4096) 4096 1).run ⟨0, 0⟩ threePages).2.spaces 0).vmas.length = 3 ∧
    Refines 0 (.mprotect (MMAP_BASE + 4096) 4096 1) threePages
      ((Request.mprotect (MMAP_BASE + 4096) 4096 1).run ⟨0, 0⟩ threePages).2
      ((Request.mprotect (MMAP_BASE + 4096) 4096 1).run ⟨0, 0⟩ threePages).1 :=
  ⟨by decide +kernel, by decide +kernel,
    request_refines ⟨0, 0⟩ (.mprotect (MMAP_BASE + 4096) 4096 1) trivial _
      (request_refines ⟨0, 0⟩ (.mmap MMAP_BASE 12288 3 256 0 7 2) trivial
        (.boot (.boot 8 fun _ => false)) ⟨fine_nil, Nat.le_refl 0, by decide⟩).well⟩

end Pulsar.Vm

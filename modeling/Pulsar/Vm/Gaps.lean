import Pulsar.Vm.Refine

/-!
# The search for a free range (`vm.rs`)

`gap` takes the first free range after the hint, or else the first of all: what it finds is free,
and it finds something wherever there is something to find.

* `gap_complete`: it answers exactly if the window of `mmap` has a free range of the length.
-/

namespace Pulsar.Vm

variable {vs : List Vma} {v : Vma} {sp : Space} {a k len : Nat}

/-- The `len` bytes from `a` on lie in the window of `mmap` and meet no region. -/
structure IsGap (vs : List Vma) (a len : Nat) : Prop where
  base : MMAP_BASE ≤ a
  limit : a + len ≤ MMAP_END
  free : ∀ v ∈ vs, v.stop ≤ a ∨ a + len ≤ v.start

/-- The sums that the loop of `gap_from` forms, one for each candidate. -/
def gapSums (len : Nat) : Nat → List Vma → List Nat
  | cand, [] => [cand + len]
  | cand, v :: vs =>
    (cand + len) ::
      if cand + len < 2 ^ 64 ∧ cand + len ≤ MMAP_END ∧ v.start < cand + len then
        gapSums len (max cand v.stop) vs
      else []

theorem gapLoop_finds (hk : k ≤ a) (ha : a + len ≤ MMAP_END)
    (hfree : ∀ v ∈ vs, v.stop ≤ a ∨ a + len ≤ v.start) : (gapLoop len k vs).isSome = true := by
  have hsum : k + len ≤ MMAP_END := Nat.le_trans (Nat.add_le_add_right hk len) ha
  have hword : ¬ 2 ^ 64 ≤ k + len := Nat.not_le.mpr (Nat.lt_of_le_of_lt hsum (by decide))
  induction vs generalizing k with
  | nil =>
      rw [gapLoop, if_neg hword, if_neg (Nat.not_lt.mpr hsum)]
      rfl
  | cons v vs ih =>
      rw [gapLoop, if_neg hword, if_neg (Nat.not_lt.mpr hsum)]
      split_ifs with hv
      · rfl
      · -- the region ends before the free range, as it begins before the end of the candidate
        have hstop : v.stop ≤ a := by
          rcases hfree v List.mem_cons_self with h | h
          · exact h
          · exact absurd (Nat.le_trans (Nat.add_le_add_right hk len) h) hv
        have hmax : max k v.stop ≤ a := Nat.max_le.mpr ⟨hk, hstop⟩
        have hsum' : max k v.stop + len ≤ MMAP_END :=
          Nat.le_trans (Nat.add_le_add_right hmax len) ha
        exact ih hmax (fun w hw => hfree w (List.mem_cons_of_mem v hw)) hsum'
          (Nat.not_le.mpr (Nat.lt_of_le_of_lt hsum' (by decide)))

theorem gapFrom_finds (h : IsGap vs a len) : (gapFrom vs MMAP_BASE len).isSome = true := by
  rw [gapFrom]
  refine gapLoop_finds (a := a) ?_ h.limit fun v hv => h.free v (List.mem_of_mem_drop hv)
  rw [Nat.max_self]
  exact h.base

theorem gapLoop_overflow {e : Nat} (he : e ∈ gapSums len k vs) (hw : 2 ^ 64 ≤ e) :
    gapLoop len k vs = none := by
  induction vs generalizing k with
  | nil =>
      obtain rfl := List.mem_singleton.mp he
      rw [gapLoop, if_pos hw]
  | cons v vs ih =>
      rw [gapLoop]
      rcases List.mem_cons.mp he with rfl | he
      · rw [if_pos hw]
      · split_ifs at he with hc
        · rw [if_neg (Nat.not_le.mpr hc.1), if_neg (Nat.not_lt.mpr hc.2.1)]
          rw [if_neg (Nat.not_le.mpr hc.2.2)]
          exact ih he
        · exact absurd he List.not_mem_nil

theorem Space.Well.gap_spec (h : sp.Well) (ha : sp.gap len = some a) :
    PAGE ∣ a ∧ IsGap sp.vmas a len := by
  have hfrom : ∀ fro, PAGE ∣ fro → gapFrom sp.vmas fro len = some a →
      PAGE ∣ a ∧ IsGap sp.vmas a len := by
    intro fro hdvd hg
    obtain ⟨h₁, h₂, h₃, h₄⟩ := gapFrom_spec h.fine hdvd hg
    exact ⟨h₃, h₁, h₂, fun v hv => h.fine.free h₄ hv⟩
  rw [Space.gap, Option.or_eq_some_iff] at ha
  rcases ha with ha | ⟨-, ha⟩
  · exact hfrom sp.hint h.hint ha
  · exact hfrom MMAP_BASE (by decide) ha

/-- **The search for a free range** answers exactly if the window has one of this length; what it
answers is free, in the window and aligned to pages; and no sum that leaves 64 bits is used. -/
theorem gap_complete (h : sp.Well) (hlen : PAGE ∣ len) :
    ((sp.gap len).isSome = true ↔ ∃ a, IsGap sp.vmas a len) ∧
      (∀ a, sp.gap len = some a →
        PAGE ∣ a ∧ PAGE ∣ a + len ∧ a + len < 2 ^ 64 ∧ IsGap sp.vmas a len) ∧
      ∀ k ∈ [sp.hint, MMAP_BASE], ∀ e ∈ gapSums len (max k MMAP_BASE)
        (sp.vmas.drop (lower sp.vmas (max k MMAP_BASE))), 2 ^ 64 ≤ e → gapFrom sp.vmas k len = none := by
  refine ⟨⟨fun hs => ?_, fun ⟨a, ha⟩ => ?_⟩, fun a ha => ?_, fun k _ e he hw => ?_⟩
  · obtain ⟨a, ha⟩ := Option.isSome_iff_exists.mp hs
    exact ⟨a, (h.gap_spec ha).2⟩
  · rw [Space.gap, Option.isSome_or, gapFrom_finds ha, Bool.or_true]
  · obtain ⟨hdvd, hgap⟩ := h.gap_spec ha
    exact ⟨hdvd, Nat.dvd_add hdvd hlen, Nat.lt_of_le_of_lt hgap.limit (by decide), hgap⟩
  · exact gapLoop_overflow he hw

/-- After the only region there is room, though the hint lies at the end of the window. -/
theorem gap_complete_restart :
    let sp : Space := ⟨some 1, 4, [⟨MMAP_BASE, MMAP_BASE + PAGE, 3, 0, 0, 0⟩], MMAP_END⟩
    sp.gap PAGE = some (MMAP_BASE + PAGE) ∧
      ((sp.gap PAGE).isSome = true ↔ ∃ a, IsGap sp.vmas a PAGE) := by
  refine ⟨by decide, (gap_complete ⟨?_, by decide, by decide⟩ (by decide)).1⟩
  exact fine_cons.mpr ⟨by decide, by decide, by decide, fun w hw => absurd hw List.not_mem_nil, fine_nil⟩

end Pulsar.Vm

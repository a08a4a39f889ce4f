import Mathlib.Tactic.Common

/-!
# Loops that look for the least key

`least` is the loop over a list that looks for the first element with the least key, among those
that a test lets through.
-/

namespace Pulsar

variable {α : Type} {key : α → Int}

/-- The first of the elements with the least key. -/
def least (univ : List α) (among : α → Bool) (key : α → Int) : Option α :=
  univ.foldl (fun best i =>
    if among i ∧ best.all (fun b => key i < key b) then some i else best) none

section

variable {univ : List α} {among : α → Bool} {i : α}

/-- What is kept of the elements seen so far. -/
theorem least_step (best : Option α) (seen : α → Prop)
    (hb : ∀ b, best = some b → seen b ∧ among b = true ∧
      ∀ a, seen a → among a = true → key b ≤ key a)
    (hn : best = none → ∀ a, seen a → among a = false) :
    (∀ b, univ.foldl (fun best i =>
        if among i ∧ best.all (fun b => key i < key b) then some i else best) best = some b →
      (seen b ∨ b ∈ univ) ∧ among b = true ∧
        ∀ a, seen a ∨ a ∈ univ → among a = true → key b ≤ key a) ∧
    (univ.foldl (fun best i =>
        if among i ∧ best.all (fun b => key i < key b) then some i else best) best = none →
      ∀ a, seen a ∨ a ∈ univ → among a = false) := by
  induction univ generalizing best seen with
  | nil =>
      refine ⟨fun b h => ?_, fun h a ha => ?_⟩
      · obtain ⟨hs, ha, hl⟩ := hb b h
        exact ⟨.inl hs, ha, fun a hm => hl a (hm.resolve_right List.not_mem_nil)⟩
      · exact hn h a (ha.resolve_right List.not_mem_nil)
  | cons i l ih =>
      have hiff : ∀ a, (seen a ∨ a = i) ∨ a ∈ l ↔ seen a ∨ a ∈ i :: l := fun a => by
        rw [List.mem_cons, or_assoc]
      simp only [← hiff]
      rw [List.foldl_cons]
      refine ih _ _ (fun b h => ?_) fun h a hs => ?_
      · split at h
        · rename_i hi
          obtain rfl := Option.some.inj h
          refine ⟨.inr rfl, hi.1, fun a hs ha => ?_⟩
          obtain hs | rfl := hs
          · cases best with
            | none => exact absurd ha (by rw [hn rfl a hs]; decide)
            | some c =>
                have hlt : key i < key c := by simpa using hi.2
                exact Int.le_trans (Int.le_of_lt hlt) ((hb c rfl).2.2 a hs ha)
          · exact Int.le_refl _
        · rename_i hi
          obtain ⟨hs, hab, hl⟩ := hb b h
          refine ⟨.inl hs, hab, fun a hs ha => ?_⟩
          obtain hs | rfl := hs
          · exact hl a hs ha
          · by_contra hlt
            refine hi ⟨ha, ?_⟩
            rw [h]
            exact decide_eq_true (Int.not_le.mp hlt)
      · split at h
        · exact absurd h (by simp)
        · rename_i hi
          obtain hs | rfl := hs
          · exact hn h a hs
          · rw [h] at hi
            simpa using hi

/-- What is found is among the elements, and none of them has a lower key. -/
theorem least_some (h : least univ among key = some i) :
    i ∈ univ ∧ among i = true ∧ ∀ a ∈ univ, among a = true → key i ≤ key a := by
  obtain ⟨hs, ha, hl⟩ := (@least_step _ key univ among none (fun _ => False)
    (fun _ h => absurd h (by simp)) fun _ _ h => h.elim).1 i h
  exact ⟨hs.resolve_left id, ha, fun a hm => hl a (.inr hm)⟩

end

end Pulsar

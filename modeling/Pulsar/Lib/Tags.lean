import Mathlib.Tactic.Common

/-!
# Tags

A cache whose entries bear the tag of the holder they were made for, where a tag may be given out
again.  `Apart held entry` says that no two holders hold the same tag and that the entries with a
tag that is held were made for its holder.  It is kept when holders and entries go, when an entry
is made for a holder, and when a tag that nobody holds is given out and its entries are dropped.
-/

namespace Pulsar.Tags

variable {H T : Type*} {held held' : H → T → Prop} {entry entry' : T → H → Prop} {a : H} {t : T}

/-- The holders of tags, and the entries made for them, are told apart by their tags. -/
structure Apart (held : H → T → Prop) (entry : T → H → Prop) : Prop where
  one : ∀ {a b t}, held a t → held b t → a = b
  own : ∀ {a b t}, held a t → entry t b → b = a

theorem Apart.mono (h : Apart held entry) (hh : ∀ {a t}, held' a t → held a t)
    (he : ∀ {a t}, entry' t a → entry t a) : Apart held' entry' :=
  ⟨fun h₁ h₂ => h.one (hh h₁) (hh h₂), fun h₁ h₂ => h.own (hh h₁) (he h₂)⟩

theorem Apart.load (h : Apart held entry) (ha : held a t)
    (he : ∀ {b u}, entry' u b → entry u b ∨ u = t ∧ b = a) : Apart held entry' := by
  refine ⟨h.one, fun hb hu => ?_⟩
  rcases he hu with hu | ⟨rfl, rfl⟩
  · exact h.own hb hu
  · exact h.one ha hb

/-- A tag that nobody holds is given out, without its entries. -/
theorem Apart.hand (h : Apart held entry) (hfree : ∀ b, ¬ held b t)
    (hh : ∀ {b u}, held' b u → held b u ∨ b = a ∧ u = t)
    (he : ∀ {b u}, entry' u b → entry u b ∧ u ≠ t) : Apart held' entry' := by
  refine ⟨fun hb hc => ?_, fun hb hu => ?_⟩
  · rcases hh hb with hb' | ⟨rfl, rfl⟩
    · rcases hh hc with hc' | ⟨rfl, rfl⟩
      · exact h.one hb' hc'
      · exact absurd hb' (hfree _)
    · rcases hh hc with hc' | ⟨rfl, -⟩
      · exact absurd hc' (hfree _)
      · rfl
  · rcases hh hb with hb' | ⟨-, rfl⟩
    · exact h.own hb' (he hu).1
    · exact absurd rfl (he hu).2

end Pulsar.Tags

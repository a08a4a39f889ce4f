import Mathlib.Tactic.Common

/-!
# Runs of a system

A system takes a step at each event that can happen in its state.  `Reached step init P` are the
states of the runs whose events satisfy `P` where they happen; `run` takes the steps of a list.

* `Reached.invariant`: what holds at first and is kept by each step holds in every state reached.
* `noted`: the system with a note of its steps, which records what its states forget.
-/

namespace Pulsar.Runs

variable {S E : Type} {step : S → E → Option S} {init : S → Prop} {P Q : S → E → Prop} {s t : S}

/-- What is reached from the states of `init` by events that satisfy `P` where they happen. -/
inductive Reached (step : S → E → Option S) (init : S → Prop) (P : S → E → Prop) : S → Prop where
  | init {s : S} (h : init s) : Reached step init P s
  | step {s t : S} {e : E} (h : Reached step init P s) (he : P s e) (hs : step s e = some t) :
      Reached step init P t

/-- **An invariant** holds in every state reached. -/
theorem Reached.invariant {I : S → Prop} (h₀ : ∀ s, init s → I s)
    (hI : ∀ s e t, I s → P s e → step s e = some t → I t) (h : Reached step init P s) : I s := by
  induction h with
  | init h => exact h₀ _ h
  | step _ he hs ih => exact hI _ _ _ ih he hs

/-- The events one after the other, each where it satisfies `P`. -/
def run (step : S → E → Option S) (P : S → E → Prop) [∀ s e, Decidable (P s e)] :
    List E → S → Option S
  | [], s => some s
  | e :: es, s => if P s e then (step s e).bind (run step P es) else none

theorem Reached.run [∀ s e, Decidable (P s e)] {es : List E} (h : Reached step init P s)
    (hr : run step P es s = some t) : Reached step init P t := by
  induction es generalizing s with
  | nil => exact Option.some.inj hr ▸ h
  | cons e es ih =>
      obtain ⟨he, hr⟩ := (Option.ite_none_right_eq_some ..).mp hr
      obtain ⟨u, hs, hr⟩ := Option.bind_eq_some_iff.mp hr
      exact ih (h.step he hs) hr

theorem Reached.run_any [∀ s e, Decidable (P s e)] {es : List E} {C : S → Prop} [DecidablePred C]
    (h : Reached step init P s) (hr : (Runs.run step P es s).any (fun t => decide (C t)) = true) :
    ∃ t, Reached step init P t ∧ C t := by
  obtain ⟨t, ht, hc⟩ := (Option.any_eq_true _ _).mp hr
  exact ⟨t, h.run ht, of_decide_eq_true hc⟩

/-! ### Notes kept of a run -/

variable {H : Type} {note : S → E → S → H → H}

/-- The system with a note that is kept of its steps. -/
def noted (step : S → E → Option S) (note : S → E → S → H → H) (x : S × H) (e : E) :
    Option (S × H) :=
  (step x.1 e).map fun t => (t, note x.1 e t x.2)

theorem noted_some {x y : S × H} {e : E} (h : noted step note x e = some y) :
    step x.1 e = some y.1 ∧ y.2 = note x.1 e y.1 x.2 := by
  obtain ⟨t, ht, rfl⟩ := Option.map_eq_some_iff.mp h
  exact ⟨ht, rfl⟩

/-- What is reached with a note that is `h₀` at first. -/
def Noted (step : S → E → Option S) (note : S → E → S → H → H) (init : S → Prop) (h₀ : H)
    (P : S → E → Prop) : S × H → Prop :=
  Reached (noted step note) (fun x => init x.1 ∧ x.2 = h₀) fun x e => P x.1 e

variable {h₀ : H} {x y : S × H}

theorem Noted.start (h : init s) : Noted step note init h₀ P (s, h₀) := Reached.init ⟨h, rfl⟩

theorem Noted.next {e : E} (h : Noted step note init h₀ P x) (he : P x.1 e)
    (hs : step x.1 e = some t) : Noted step note init h₀ P (t, note x.1 e t x.2) :=
  Reached.step h he (Option.map_eq_some_iff.mpr ⟨t, hs, rfl⟩)

theorem Noted.reached (h : Noted step note init h₀ P x) : Reached step init P x.1 := by
  induction h with
  | init h => exact .init h.1
  | step _ he hs ih => exact ih.step he (noted_some hs).1

/-- **An invariant** of the system and its note holds in every state reached. -/
theorem Noted.invariant {I : S → H → Prop} (hinit : ∀ s, init s → I s h₀)
    (hI : ∀ s e t h, I s h → P s e → step s e = some t → I t (note s e t h))
    (h : Noted step note init h₀ P x) : I x.1 x.2 := by
  refine Reached.invariant (I := fun x => I x.1 x.2) (fun x hx => ?_) (fun x e y hx he hs => ?_) h
  · rw [hx.2]
    exact hinit x.1 hx.1
  · obtain ⟨hs, hn⟩ := noted_some hs
    rw [hn]
    exact hI _ _ _ _ hx he hs

end Pulsar.Runs

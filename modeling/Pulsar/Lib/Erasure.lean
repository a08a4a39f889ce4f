import Pulsar.Lib.Prog

/-!
# Programs with more in their state

A program over states `σ` erases to one over `τ` when what it does to the part `π s` of its state,
and how it ends, is what the other does.  There is one rule for each way of building a program.
-/

namespace Pulsar

variable {ε σ τ α β : Type} {π : σ → τ} {x : EStateM ε σ α} {y : EStateM ε τ α}

/-- The run of `x` does to `π` of the state what `y` does, and ends as it does. -/
def Prog.Erases (π : σ → τ) (x : EStateM ε σ α) (y : EStateM ε τ α) : Prop :=
  ∀ s, wp x (fun a t => y (π s) = .ok a (π t)) (fun e t => y (π s) = .error e (π t)) s

namespace Prog.Erases

theorem pure (a : α) : Erases π (Pure.pure a : EStateM ε σ α) (Pure.pure a) := fun _ => rfl

theorem throw (e : ε) :
    Erases π (MonadExcept.throw e : EStateM ε σ α) (MonadExcept.throw e) := fun _ => rfl

theorem bind {f : α → EStateM ε σ β} {g : α → EStateM ε τ β} (h : Erases π x y)
    (hf : ∀ a, Erases π (f a) (g a)) : Erases π (x >>= f) (y >>= g) := fun s => by
  refine (wp_bind x f).mpr (wp_mono (h s) (fun a t ht => ?_) fun e t ht => ?_)
  · have hbind : (y >>= g) (π s) = g a (π t) := by
      simp only [Bind.bind, EStateM.bind, ht]
    exact wp_mono (hf a t) (fun _ _ hu => hbind.trans hu) fun _ _ hu => hbind.trans hu
  · simp only [Bind.bind, EStateM.bind, ht]

/-- A program that erases to the giving of a value. -/
theorem bind_pure {f : α → EStateM ε σ β} {a : α} {z : EStateM ε τ β}
    (h : Erases π x (Pure.pure a)) (hf : Erases π (f a) z) : Erases π (x >>= f) z := fun s => by
  refine (wp_bind x f).mpr (wp_mono (h s) (fun b t ht => ?_) fun e t ht => ?_)
  · obtain ⟨rfl, hst⟩ := EStateM.Result.ok.inj ht
    exact hst ▸ hf t
  · exact absurd ht nofun

theorem ite {c : Prop} [Decidable c] {x' : EStateM ε σ α} {y' : EStateM ε τ α}
    (h : c → Erases π x y) (h' : ¬ c → Erases π x' y') :
    Erases π (if c then x else x') (if c then y else y') := by
  split_ifs with hc
  · exact h hc
  · exact h' hc

theorem error (h : Erases π x y) {s t : σ} {e : ε} (hx : x s = .error e t) :
    y (π s) = .error e (π t) := (h s).error hx

end Prog.Erases

end Pulsar

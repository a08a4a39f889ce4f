import Mathlib.Logic.Basic
import Mathlib.Tactic.Common
import Mathlib.Tactic.SplitIfs

/-!
# Programs with state and early return

A program over states `σ` that may stop with an error `ε` is an `EStateM ε σ α`: an error keeps
the state it was raised in, as `?` does in code that updates memory in place.  `wp x Q E s` says
that the run of `x` from `s` ends normally in `Q` or stops in `E`; there is one rule for each
way of building a program, and `wp_mono` to cite a specification proved elsewhere.  `Prog.Keeps`
and `Prog.Moves` have the same rules for an invariant and for a relation, and `Prog.KeepsIff` for
what an invariant that is not always kept asks; a `Change` is a relation on a part of the state.

`Prog.zoom` runs a program over a part of the state.
-/

namespace Pulsar

variable {ε σ τ α β : Type}

/-- The run of `x` from `s` returns `a` in a state with `Q a`, or stops with an error in `E`. -/
def wp (x : EStateM ε σ α) (Q : α → σ → Prop) (E : ε → σ → Prop) (s : σ) : Prop :=
  match x s with
  | .ok a t => Q a t
  | .error e t => E e t

theorem wp_ok {x : EStateM ε σ α} {Q : α → σ → Prop} {E : ε → σ → Prop} {s t : σ} {a : α}
    (h : x s = .ok a t) : wp x Q E s ↔ Q a t := by
  simp only [wp, h]

theorem wp_error {x : EStateM ε σ α} {Q : α → σ → Prop} {E : ε → σ → Prop} {s t : σ} {e : ε}
    (h : x s = .error e t) : wp x Q E s ↔ E e t := by
  simp only [wp, h]

instance {x : EStateM ε σ α} {Q : α → σ → Prop} {E : ε → σ → Prop} {s : σ}
    [∀ a t, Decidable (Q a t)] [∀ e t, Decidable (E e t)] : Decidable (wp x Q E s) :=
  match h : x s with
  | .ok a t => decidable_of_iff (Q a t) (wp_ok h).symm
  | .error e t => decidable_of_iff (E e t) (wp_error h).symm

theorem wp.ok {x : EStateM ε σ α} {Q : α → σ → Prop} {E : ε → σ → Prop} {s t : σ} {a : α}
    (h : wp x Q E s) (hx : x s = .ok a t) : Q a t := (wp_ok hx).mp h

theorem wp.error {x : EStateM ε σ α} {Q : α → σ → Prop} {E : ε → σ → Prop} {s t : σ} {e : ε}
    (h : wp x Q E s) (hx : x s = .error e t) : E e t := (wp_error hx).mp h

theorem wp.returns {x : EStateM ε σ α} {Q : α → σ → Prop} {s : σ}
    (h : wp x Q (fun _ _ => False) s) : ∃ a t, x s = .ok a t ∧ Q a t := by
  unfold wp at h
  split at h
  · rename_i a t hx
    exact ⟨a, t, hx, h⟩
  · exact h.elim

theorem wp_mono {x : EStateM ε σ α} {Q Q' : α → σ → Prop} {E E' : ε → σ → Prop} {s : σ}
    (h : wp x Q E s) (hQ : ∀ a t, Q a t → Q' a t) (hE : ∀ e t, E e t → E' e t) :
    wp x Q' E' s := by
  unfold wp at h ⊢
  split at h
  · exact hQ _ _ h
  · exact hE _ _ h

theorem wp_true {x : EStateM ε σ α} {s : σ} : wp x (fun _ _ => True) (fun _ _ => True) s := by
  unfold wp
  split <;> trivial

theorem wp_and {x : EStateM ε σ α} {Q Q' : α → σ → Prop} {E E' : ε → σ → Prop} {s : σ}
    (h : wp x Q E s) (h' : wp x Q' E' s) :
    wp x (fun a t => Q a t ∧ Q' a t) (fun e t => E e t ∧ E' e t) s := by
  unfold wp at h h' ⊢
  split at h <;> simp_all

@[simp] theorem wp_pure {Q : α → σ → Prop} {E : ε → σ → Prop} {s : σ} (a : α) :
    wp (pure a : EStateM ε σ α) Q E s ↔ Q a s := Iff.rfl

@[simp] theorem wp_throw {Q : α → σ → Prop} {E : ε → σ → Prop} {s : σ} (e : ε) :
    wp (throw e : EStateM ε σ α) Q E s ↔ E e s := Iff.rfl

@[simp] theorem wp_get {Q : σ → σ → Prop} {E : ε → σ → Prop} {s : σ} :
    wp (get : EStateM ε σ σ) Q E s ↔ Q s s := Iff.rfl

@[simp] theorem wp_set {Q : PUnit → σ → Prop} {E : ε → σ → Prop} {s : σ} (t : σ) :
    wp (set t : EStateM ε σ PUnit) Q E s ↔ Q ⟨⟩ t := Iff.rfl

@[simp] theorem wp_modify {Q : PUnit → σ → Prop} {E : ε → σ → Prop} {s : σ} (f : σ → σ) :
    wp (modify f : EStateM ε σ PUnit) Q E s ↔ Q ⟨⟩ (f s) := Iff.rfl

@[simp] theorem wp_bind {Q : β → σ → Prop} {E : ε → σ → Prop} {s : σ} (x : EStateM ε σ α)
    (f : α → EStateM ε σ β) : wp (x >>= f) Q E s ↔ wp x (fun a => wp (f a) Q E) E s := by
  simp only [wp, bind, EStateM.bind]
  cases x s <;> rfl

@[simp] theorem wp_map {Q : β → σ → Prop} {E : ε → σ → Prop} {s : σ} (x : EStateM ε σ α)
    (f : α → β) : wp (f <$> x) Q E s ↔ wp x (fun a => Q (f a)) E s := by
  simp only [wp, Functor.map, EStateM.map]
  cases x s <;> rfl

theorem wp_ite {Q : α → σ → Prop} {E : ε → σ → Prop} {s : σ} {c : Prop} [Decidable c]
    {x y : EStateM ε σ α} :
    wp (if c then x else y) Q E s ↔ (c → wp x Q E s) ∧ (¬ c → wp y Q E s) := by
  split <;> simp_all

theorem wp_foldlM {I : α → σ → Prop} {E : ε → σ → Prop} {f : α → β → EStateM ε σ α} {l : List β}
    (h : ∀ b ∈ l, ∀ a s, I a s → wp (f a b) I E s) {a : α} {s : σ} (ha : I a s) :
    wp (l.foldlM f a) I E s := by
  induction l generalizing a s with
  | nil => exact ha
  | cons b l ih =>
      refine (wp_bind _ _).mpr (wp_mono (h b List.mem_cons_self a s ha) (fun a' t ht => ?_)
        fun _ _ he => he)
      exact ih (fun b' hb' => h b' (List.mem_cons_of_mem b hb')) ht

/-- The program keeps `I`, also when it stops. -/
def Prog.Keeps (I : σ → Prop) (x : EStateM ε σ α) : Prop :=
  ∀ s, I s → wp x (fun _ => I) (fun _ => I) s

namespace Prog.Keeps

variable {I : σ → Prop} {x : EStateM ε σ α} {f : α → EStateM ε σ β}

theorem pure (a : α) : Keeps I (Pure.pure a : EStateM ε σ α) := fun _ h => h

theorem throw (e : ε) : Keeps I (MonadExcept.throw e : EStateM ε σ α) := fun _ h => h

theorem bind (h : Keeps I x) (hf : ∀ a, Keeps I (f a)) : Keeps I (x >>= f) := fun s hs =>
  (wp_bind x f).mpr (wp_mono (h s hs) (fun a t ht => hf a t ht) fun _ _ ht => ht)

theorem modify {f : σ → σ} (h : ∀ s, I s → I (f s)) :
    Keeps I (modifyGet fun s => (PUnit.unit, f s) : EStateM ε σ PUnit) := fun s hs => h s hs

theorem ite {c : Prop} [Decidable c] {y : EStateM ε σ α} (h : c → Keeps I x)
    (h' : ¬ c → Keeps I y) : Keeps I (if c then x else y) := by
  split_ifs with hc
  · exact h hc
  · exact h' hc

end Prog.Keeps

/-- The program keeps `I` exactly from the states in `C`, also when it stops. -/
def Prog.KeepsIff (I : σ → Prop) (x : EStateM ε σ α) (C : σ → Prop) : Prop :=
  ∀ s, wp x (fun _ t => I t ↔ I s ∧ C s) (fun _ t => I t ↔ I s ∧ C s) s

namespace Prog.KeepsIff

variable {I C C' : σ → Prop} {D : α → σ → Prop} {x y : EStateM ε σ α} {f : α → EStateM ε σ β}

theorem congr (h : KeepsIff I x C) (hC : ∀ s, C s ↔ C' s) : KeepsIff I x C' := fun s => by
  rw [← hC s]
  exact h s

/-- A program that never changes whether `I` holds. -/
theorem always (h : ∀ s, wp x (fun _ t => I t ↔ I s) (fun _ t => I t ↔ I s) s) (hC : ∀ s, C s) :
    KeepsIff I x C := fun s =>
  wp_mono (h s) (fun _ _ ht => ht.trans (and_iff_left (hC s)).symm)
    fun _ _ ht => ht.trans (and_iff_left (hC s)).symm

theorem pure (a : α) (hC : ∀ s, C s) : KeepsIff I (Pure.pure a : EStateM ε σ α) C :=
  always (fun _ => Iff.rfl) hC

theorem throw (e : ε) (hC : ∀ s, C s) : KeepsIff I (MonadExcept.throw e : EStateM ε σ α) C :=
  always (fun _ => Iff.rfl) hC

theorem bind (h : KeepsIff I x C) (hf : ∀ a, KeepsIff I (f a) (D a)) :
    KeepsIff I (x >>= f) fun s => C s ∧ wp x D (fun _ _ => True) s := fun s => by
  refine (wp_bind x f).mpr ?_
  have hx := h s
  simp only [← and_assoc]
  rcases hr : x s with ⟨a, t⟩ | ⟨e, t⟩
  · simp only [wp_ok hr] at hx ⊢
    rw [← hx]
    exact hf a t
  · simp only [wp_error hr, and_true] at hx ⊢
    exact hx

/-- After a program that never changes whether `I` holds. -/
theorem after (h : ∀ s, wp x (fun _ t => I t ↔ I s) (fun _ t => I t ↔ I s) s)
    (hf : ∀ a, KeepsIff I (f a) (D a)) :
    KeepsIff I (x >>= f) fun s => wp x D (fun _ _ => True) s :=
  (bind (C := fun _ => True) (always h fun _ => trivial) hf).congr fun _ => and_iff_right trivial

/-- Before programs that never change whether `I` holds. -/
theorem before (h : KeepsIff I x C) (hf : ∀ a, KeepsIff I (f a) fun _ => True) :
    KeepsIff I (x >>= f) C := (h.bind hf).congr fun _ => and_iff_left wp_true

theorem ite {c : Prop} [Decidable c] (h : c → KeepsIff I x C) (h' : ¬ c → KeepsIff I y C) :
    KeepsIff I (if c then x else y) C := by
  split_ifs with hc
  · exact h hc
  · exact h' hc

/-- A program that is refused where `c` holds. -/
theorem guard {c : Prop} [Decidable c] (e : ε) (h : ¬ c → KeepsIff I y C) :
    KeepsIff I (if c then MonadExcept.throw e else y) fun s => ¬ c → C s :=
  ite (fun hc => throw e fun _ hn => absurd hc hn) fun hc =>
    (h hc).congr fun _ => ⟨fun h _ => h, fun h => h hc⟩

end Prog.KeepsIff

/-- A relation that runs can go along: a program that does nothing, and one after the other. -/
class Prog.Path (R : σ → σ → Prop) : Prop where
  refl : ∀ s, R s s
  trans : ∀ {s t u}, R s t → R t u → R s u

/-- A run of the program that returns goes along `R`. -/
structure Prog.Moves (R : σ → σ → Prop) (x : EStateM ε σ α) : Prop where
  along : ∀ s, wp x (fun _ t => R s t) (fun _ _ => True) s

namespace Prog.Moves

variable {R : σ → σ → Prop} {x : EStateM ε σ α} {f : α → EStateM ε σ β}

theorem ok (h : Moves R x) {s t : σ} {a : α} (hx : x s = .ok a t) : R s t := (h.along s).ok hx

theorem throw (e : ε) : Moves R (MonadExcept.throw e : EStateM ε σ α) := ⟨fun _ => trivial⟩

theorem modify {f : σ → σ} (h : ∀ s, R s (f s)) :
    Moves R (modifyGet fun s => (PUnit.unit, f s) : EStateM ε σ PUnit) := ⟨fun s => h s⟩

theorem get_at {f : σ → EStateM ε σ β} (h : ∀ s, wp (f s) (fun _ t => R s t) (fun _ _ => True) s) :
    Moves R (MonadState.get >>= f) := ⟨fun s => (wp_bind _ _).mpr (h s)⟩

theorem ite {c : Prop} [Decidable c] {y : EStateM ε σ α} (h : c → Moves R x)
    (h' : ¬ c → Moves R y) : Moves R (if c then x else y) := by
  split_ifs with hc
  · exact h hc
  · exact h' hc

variable [Path R]

theorem pure (a : α) : Moves R (Pure.pure a : EStateM ε σ α) := ⟨fun s => Path.refl s⟩

theorem get : Moves R (MonadState.get : EStateM ε σ σ) := ⟨fun s => Path.refl s⟩

theorem bind (h : Moves R x) (hf : ∀ a, Moves R (f a)) : Moves R (x >>= f) where
  along s := (wp_bind x f).mpr (wp_mono (h.along s)
    (fun a t ht => wp_mono ((hf a).along t) (fun _ _ hu => Path.trans ht hu) fun _ _ h => h)
    fun _ _ h => h)

theorem forM {l : List β} {f : β → EStateM ε σ PUnit} (h : ∀ b ∈ l, Moves R (f b)) :
    Moves R (l.forM f) := by
  induction l with
  | nil => exact pure _
  | cons b l ih =>
      exact bind (h b (List.mem_cons_self ..)) fun _ =>
        ih fun b hb => h b (List.mem_cons_of_mem _ hb)

theorem foldlM {l : List β} {f : α → β → EStateM ε σ α} (h : ∀ a b, Moves R (f a b)) (a : α) :
    Moves R (l.foldlM f a) := by
  induction l generalizing a with
  | nil => exact pure _
  | cons b l ih => exact bind (h a b) ih

end Prog.Moves

/-- A way in which a value may change: not at all, or one change after the other. -/
structure Change (α : Type) where
  rel : α → α → Prop
  refl : ∀ a, rel a a
  trans : ∀ {a b c}, rel a b → rel b c → rel a c

namespace Change

/-- Any change. -/
protected def any : Change α := ⟨fun _ _ => True, fun _ => trivial, fun _ _ => trivial⟩

/-- The changes that keep what `f` reads. -/
protected def keeping (f : α → β) : Change α :=
  ⟨fun a b => f b = f a, fun _ => rfl, fun h h' => h'.trans h⟩

/-- No change. -/
protected def none : Change α := Change.keeping id

end Change

/-- A program over a part of the state, run on the whole. -/
def Prog.zoom (g : σ → τ) (p : τ → σ → σ) (x : EStateM ε τ α) : EStateM ε σ α := fun s =>
  match x (g s) with
  | .ok a t => .ok a (p t s)
  | .error e t => .error e (p t s)

@[simp] theorem wp_zoom {Q : α → σ → Prop} {E : ε → σ → Prop} {s : σ} (g : σ → τ) (p : τ → σ → σ)
    (x : EStateM ε τ α) :
    wp (Prog.zoom g p x) Q E s ↔ wp x (fun a t => Q a (p t s)) (fun e t => E e (p t s)) (g s) := by
  simp only [wp, Prog.zoom]
  cases x (g s) <;> rfl

end Pulsar

import Mathlib.Data.List.Count
import Mathlib.Tactic.Common

/-!
# Memory shared out among spans

A span is where it starts and its length.  `cover rs x` is how many of the spans `rs` have `x`.
Spans that make up the same memory have the same `cover`, and none overlap where it is at most 1.

* `cover_join`: two spans that touch are one.
* `apart`: spans of two lists do not meet where their covers add up to at most 1.
-/

namespace Pulsar.Cover

/-- A start and a length. -/
abbrev Span := Nat × Nat

/-- The span has `x`. -/
def Has (r : Span) (x : Nat) : Prop := r.1 ≤ x ∧ x < r.1 + r.2

instance (r : Span) (x : Nat) : Decidable (Has r x) := by
  unfold Has
  infer_instance

/-- How many spans have `x`. -/
def cover (rs : List Span) (x : Nat) : Nat := rs.countP fun r => decide (Has r x)

/-- One span is below the other. -/
def Apart (r r' : Span) : Prop := r.1 + r.2 ≤ r'.1 ∨ r'.1 + r'.2 ≤ r.1

variable {r r' : Span} {rs ss : List Span} {x a s t : Nat}

@[simp] theorem cover_nil : cover [] x = 0 := rfl

theorem cover_cons : cover (r :: rs) x = cover [r] x + cover rs x := by
  simp only [cover, List.countP_cons, List.countP_nil]
  omega

@[simp] theorem cover_append : cover (rs ++ ss) x = cover rs x + cover ss x :=
  List.countP_append

theorem cover_one : cover [r] x = if Has r x then 1 else 0 := by
  simp [cover, List.countP_cons]

theorem cover_empty : cover [(a, 0)] x = 0 := by
  rw [cover_one, if_neg]
  rintro ⟨h, h'⟩
  exact absurd h' (by simpa using h)

/-- **Two spans that touch** are one. -/
theorem cover_join : cover [(a, s + t)] x = cover [(a, s)] x + cover [(a + s, t)] x := by
  have hx : Has (a, s + t) x ↔ Has (a, s) x ∨ Has (a + s, t) x := by
    unfold Has
    dsimp only
    omega
  have hnot : Has (a, s) x → ¬ Has (a + s, t) x := fun h h' => absurd h.2 (Nat.not_lt.mpr h'.1)
  rw [cover_one, cover_one, cover_one]
  by_cases h : Has (a, s) x
  · rw [if_pos (hx.mpr (.inl h)), if_pos h, if_neg (hnot h)]
  · rw [if_congr (hx.trans (or_iff_right h)) rfl rfl, if_neg h, Nat.zero_add]

theorem cover_pos (h : r ∈ rs) (hx : Has r x) : 0 < cover rs x :=
  List.countP_pos_iff.mpr ⟨r, h, decide_eq_true hx⟩

theorem exists_of_cover (h : 0 < cover rs x) : ∃ r ∈ rs, Has r x := by
  obtain ⟨r, hr, hx⟩ := List.countP_pos_iff.mp h
  exact ⟨r, hr, of_decide_eq_true hx⟩

/-- **Spans of two lists** that cover nothing twice do not meet. -/
theorem apart (h : ∀ x, cover rs x + cover ss x ≤ 1) (hr : r ∈ rs) (hs : r' ∈ ss) (hx : Has r x) :
    ¬ Has r' x := fun hx' => by
  have := h x
  have := cover_pos hr hx
  have := cover_pos hs hx'
  omega

theorem apart_le (h : ∀ x, cover rs x + cover ss x ≤ 1) (hr : r ∈ rs) (hs : r' ∈ ss)
    (hpos : 0 < r.2) (hpos' : 0 < r'.2) : Apart r r' := by
  unfold Apart
  by_contra hne
  have hx : Has r (max r.1 r'.1) := by
    unfold Has
    omega
  exact apart h hr hs hx (by unfold Has; omega)

/-- **Spans that cover nothing twice** are apart. -/
theorem pairwise_of_cover (h : ∀ x, cover rs x ≤ 1) (hpos : ∀ r ∈ rs, 0 < r.2) :
    rs.Pairwise Apart := by
  induction rs with
  | nil => exact .nil
  | cons r rs ih =>
      have hr : ∀ x, cover [r] x + cover rs x ≤ 1 := fun x => cover_cons ▸ h x
      refine .cons (fun r' hr' => apart_le hr (List.mem_singleton_self r) hr'
        (hpos r List.mem_cons_self) (hpos r' (List.mem_cons_of_mem _ hr'))) ?_
      exact ih (fun x => Nat.le_trans (Nat.le_add_left _ _) (hr x))
        fun r' hr' => hpos r' (List.mem_cons_of_mem _ hr')

end Pulsar.Cover

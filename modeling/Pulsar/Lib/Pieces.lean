import Mathlib.Data.List.TakeWhile

/-!
# The pieces of a list between separators

`pieces sep l` are the pieces of `l` between the separators, without the empty ones, and `spell sep ws`
puts a separator before each of `ws`.
-/

namespace Pulsar

variable {α : Type} {sep : α} {l l' w : List α} {ws ws' : List (List α)}

/-! ### Spelling -/

/-- Each of the pieces after a separator. -/
def spell (sep : α) (ws : List (List α)) : List α := ws.flatMap (sep :: ·)

@[simp] theorem spell_nil : spell sep [] = [] := rfl

@[simp] theorem spell_cons : spell sep (w :: ws) = sep :: (w ++ spell sep ws) := by
  simp [spell]

@[simp] theorem spell_append : spell sep (ws ++ ws') = spell sep ws ++ spell sep ws' := by
  simp [spell]

theorem spell_head : spell sep ws = [] ∨ (spell sep ws).head? = some sep := by
  cases ws <;> simp

theorem spell_eq_nil : spell sep ws = [] ↔ ws = [] := by
  cases ws <;> simp

variable [DecidableEq α]

theorem spell_dropWhile (hw : w ≠ []) (hsep : sep ∉ w) :
    (spell sep (w :: ws)).dropWhile (· = sep) = w ++ spell sep ws := by
  obtain ⟨c, cs, rfl⟩ := List.exists_cons_of_ne_nil hw
  have hc : ¬c = sep := fun h => hsep (h ▸ List.mem_cons_self)
  simp [hc]

theorem word_next (hsep : sep ∉ w) (hl : l = [] ∨ l.head? = some sep) :
    (w ++ l).takeWhile (· ≠ sep) = w ∧ (w ++ l).dropWhile (· ≠ sep) = l := by
  have hw : ∀ x ∈ w, decide (x ≠ sep) = true := fun x hx =>
    decide_eq_true fun h => hsep (h ▸ hx)
  rw [List.takeWhile_append_of_pos hw, List.dropWhile_append_of_pos hw]
  cases l with
  | nil => simp
  | cons c cs =>
      obtain rfl : c = sep := by simpa using hl
      simp

/-! ### Pieces -/

/-- The pieces between separators, without the empty ones. -/
def pieces (sep : α) (l : List α) : List (List α) := (l.splitOn sep).filter (· ≠ [])

@[simp] theorem pieces_nil : pieces sep [] = [] := by
  simp [pieces]

theorem pieces_append_cons : pieces sep (l ++ sep :: l') = pieces sep l ++ pieces sep l' := by
  simp [pieces, List.splitOn_eq_splitOnP, List.splitOnP_append_cons]

@[simp] theorem pieces_cons : pieces sep (sep :: l) = pieces sep l := by
  simpa using @pieces_append_cons _ sep [] l _

/-- A list before one that is empty or begins with a separator. -/
theorem pieces_append (hl : l' = [] ∨ l'.head? = some sep) :
    pieces sep (l ++ l') = pieces sep l ++ pieces sep l' := by
  cases l' with
  | nil => simp
  | cons c cs =>
      obtain rfl : c = sep := by simpa using hl
      rw [pieces_append_cons, pieces_cons]

theorem pieces_word (hw : w ≠ []) (hsep : sep ∉ w) (hl : l = [] ∨ l.head? = some sep) :
    pieces sep (w ++ l) = w :: pieces sep l := by
  have hone : pieces sep w = [w] := by
    have hsplit : w.splitOnP (· == sep) = [w] := List.splitOnP_eq_singleton fun x hx => by
      simp only [beq_eq_false_iff_ne]
      exact fun he => hsep (he ▸ hx)
    simp [pieces, List.splitOn_eq_splitOnP, hsplit, hw]
  rw [pieces_append hl, hone, List.singleton_append]

theorem pieces_dropWhile : pieces sep (l.dropWhile (· = sep)) = pieces sep l := by
  induction l with
  | nil => rfl
  | cons c cs ih =>
      by_cases h : c = sep
      · subst h
        simpa using ih
      · simp [h]

theorem pieces_seps (h : ∀ c ∈ l, c = sep) : pieces sep (l ++ l') = pieces sep l' := by
  induction l with
  | nil => rfl
  | cons c cs ih =>
      obtain ⟨rfl, hcs⟩ := List.forall_mem_cons.mp h
      rw [List.cons_append, pieces_cons, ih hcs]

/-- The first piece of what is left after the separators, and what is left after it. -/
theorem pieces_next (hl : l.dropWhile (· = sep) = l') (hne : l' ≠ []) :
    pieces sep l = l'.takeWhile (· ≠ sep) :: pieces sep (l'.dropWhile (· ≠ sep)) ∧
      l'.takeWhile (· ≠ sep) ≠ [] ∧ sep ∉ l'.takeWhile (· ≠ sep) ∧
      (l'.dropWhile (· ≠ sep) = [] ∨ (l'.dropWhile (· ≠ sep)).head? = some sep) := by
  have hword : l'.takeWhile (· ≠ sep) ≠ [] := by
    obtain ⟨c, cs, rfl⟩ := List.exists_cons_of_ne_nil hne
    have hc : ¬c = sep := by
      have := List.head?_dropWhile_not (fun x => decide (x = sep)) l
      rw [hl] at this
      simpa using this
    simp [hc]
  have hsep : sep ∉ l'.takeWhile (· ≠ sep) := fun h => by
    have := List.mem_takeWhile_imp h
    simp at this
  have hrest : l'.dropWhile (· ≠ sep) = [] ∨ (l'.dropWhile (· ≠ sep)).head? = some sep := by
    have := List.head?_dropWhile_not (fun x => decide (x ≠ sep)) l'
    cases hd : l'.dropWhile (· ≠ sep) with
    | nil => exact .inl rfl
    | cons c cs =>
        rw [hd] at this
        exact .inr (by simpa using this)
  refine ⟨?_, hword, hsep, hrest⟩
  rw [← pieces_dropWhile, hl]
  calc pieces sep l'
      = pieces sep (l'.takeWhile (· ≠ sep) ++ l'.dropWhile (· ≠ sep)) := by
        rw [List.takeWhile_append_dropWhile]
    _ = _ := pieces_word hword hsep hrest

/-- After a separator, a piece and what is left are shorter. -/
theorem next_shorter (h : l = [] ∨ l.head? = some sep) (hl : l.dropWhile (· = sep) = l')
    (hne : l' ≠ []) :
    (l'.takeWhile (· ≠ sep)).length + (l'.dropWhile (· ≠ sep)).length < l.length := by
  have hcut := congrArg List.length (List.takeWhile_append_dropWhile (p := (· ≠ sep)) (l := l'))
  rw [List.length_append] at hcut
  cases l with
  | nil => exact absurd hl.symm hne
  | cons c cs =>
      obtain rfl : c = sep := by simpa using h
      rw [List.dropWhile_cons_of_pos (by simp)] at hl
      have hle := (List.dropWhile_suffix (· = c) (l := cs)).length_le
      rw [hl] at hle
      rw [hcut, List.length_cons]
      exact Nat.lt_succ_of_le hle

theorem pieces_spell (h : ∀ w ∈ ws, w ≠ [] ∧ sep ∉ w) : pieces sep (spell sep ws) = ws := by
  induction ws with
  | nil => simp
  | cons w ws ih =>
      obtain ⟨⟨hw, hsep⟩, hws⟩ := List.forall_mem_cons.mp h
      rw [spell_cons, pieces_cons, pieces_word hw hsep spell_head, ih hws]

end Pulsar

import Mathlib.Data.List.Basic
import Mathlib.Data.List.Pairwise

/-!
# Sorted lists of spans

Elements that occupy half-open spans `[lo a, hi a)`, in a list in which each span ends before the
next begins.  `look xs x` is the element whose span has `x`; a list that is cut in two is looked up
in both parts (`look_append`), and an element is found from any point of its span (`look_of_mem`).
`lower xs x` is the index of the first span that ends after `x`, by binary search.
-/

namespace Pulsar.Spans

variable {α : Type} (lo hi : α → Nat)

/-- The spans are not empty, and each ends before the next begins. -/
structure Sorted (xs : List α) : Prop where
  lt : ∀ a ∈ xs, lo a < hi a
  apart : xs.Pairwise fun a b => hi a ≤ lo b

/-- The element whose span has `x`. -/
def look (xs : List α) (x : Nat) : Option α := xs.find? fun a => decide (lo a ≤ x ∧ x < hi a)

/-- The binary search between `l` and `h`. -/
def lowerLoop (xs : List α) (x : Nat) : Nat → Nat → Nat → Nat
  | 0, l, _ => l
  | n + 1, l, h =>
    if l < h then
      let mid := (l + h) / 2
      match xs[mid]? with
      | some a => if hi a ≤ x then lowerLoop xs x n (mid + 1) h else lowerLoop xs x n l mid
      | none => l
    else l

/-- The index of the first span that ends after `x`. -/
def lower (xs : List α) (x : Nat) : Nat := lowerLoop hi xs x xs.length 0 xs.length

variable {lo hi} {xs ys : List α} {a b : α} {x : Nat}

@[simp] theorem look_nil : look lo hi [] x = none := rfl

theorem look_cons : look lo hi (a :: xs) x =
    if lo a ≤ x ∧ x < hi a then some a else look lo hi xs x := by
  simp only [look, List.find?_cons]
  by_cases h : lo a ≤ x ∧ x < hi a <;> simp [h]

theorem look_append : look lo hi (xs ++ ys) x = (look lo hi xs x).or (look lo hi ys x) := by
  simp only [look, List.find?_append]

theorem look_some (h : look lo hi xs x = some a) : a ∈ xs ∧ lo a ≤ x ∧ x < hi a := by
  have hp := List.find?_some h
  simp only [decide_eq_true_eq] at hp
  exact ⟨List.mem_of_find?_eq_some h, hp⟩

theorem look_none (h : ∀ a ∈ xs, hi a ≤ x ∨ x < lo a) : look lo hi xs x = none := by
  refine List.find?_eq_none.mpr fun a ha => ?_
  have := h a ha
  simp only [decide_eq_true_eq]
  omega

theorem sorted_nil : Sorted lo hi ([] : List α) := ⟨fun a ha => by simp at ha, .nil⟩

theorem sorted_cons : Sorted lo hi (a :: xs) ↔
    lo a < hi a ∧ (∀ b ∈ xs, hi a ≤ lo b) ∧ Sorted lo hi xs := by
  constructor
  · rintro ⟨hlt, hap⟩
    obtain ⟨h₁, h₂⟩ := List.pairwise_cons.mp hap
    exact ⟨hlt a List.mem_cons_self, h₁, fun b hb => hlt b (List.mem_cons_of_mem a hb), h₂⟩
  · rintro ⟨h, h₁, h₂⟩
    refine ⟨fun b hb => ?_, List.pairwise_cons.mpr ⟨h₁, h₂.apart⟩⟩
    rcases List.mem_cons.mp hb with rfl | hb
    · exact h
    · exact h₂.lt b hb

theorem sorted_append : Sorted lo hi (xs ++ ys) ↔
    Sorted lo hi xs ∧ Sorted lo hi ys ∧ ∀ a ∈ xs, ∀ b ∈ ys, hi a ≤ lo b := by
  constructor
  · rintro ⟨hlt, hap⟩
    obtain ⟨h₁, h₂, h₃⟩ := List.pairwise_append.mp hap
    exact ⟨⟨fun a ha => hlt a (List.mem_append_left _ ha), h₁⟩,
      ⟨fun a ha => hlt a (List.mem_append_right _ ha), h₂⟩, h₃⟩
  · rintro ⟨h₁, h₂, h₃⟩
    refine ⟨fun a ha => ?_, List.pairwise_append.mpr ⟨h₁.apart, h₂.apart, h₃⟩⟩
    rcases List.mem_append.mp ha with ha | ha
    · exact h₁.lt a ha
    · exact h₂.lt a ha

theorem look_of_mem (h : Sorted lo hi xs) (ha : a ∈ xs) (hx : lo a ≤ x ∧ x < hi a) :
    look lo hi xs x = some a := by
  induction xs with
  | nil => simp at ha
  | cons b xs ih =>
      obtain ⟨hb, hbs, hs⟩ := sorted_cons.mp h
      rw [look_cons]
      rcases List.mem_cons.mp ha with rfl | ha
      · rw [if_pos hx]
      · have := hbs a ha
        rw [if_neg (by omega)]
        exact ih hs ha

theorem Sorted.hi_lt (h : Sorted lo hi xs) {i j : Nat} (hij : i < j)
    (hi' : xs[i]? = some a) (hj : xs[j]? = some b) : hi a < hi b := by
  obtain ⟨hil, rfl⟩ := List.getElem?_eq_some_iff.mp hi'
  obtain ⟨hjl, rfl⟩ := List.getElem?_eq_some_iff.mp hj
  have h₁ := List.pairwise_iff_getElem.mp h.apart i j hil hjl hij
  have h₂ := h.lt _ (List.getElem_mem hjl)
  omega

theorem lowerLoop_spec (h : Sorted lo hi xs) (n : Nat) : ∀ l r, r - l ≤ n → l ≤ r →
    r ≤ xs.length → (∀ i < l, ∀ a, xs[i]? = some a → hi a ≤ x) →
    (∀ i, r ≤ i → ∀ a, xs[i]? = some a → x < hi a) →
    let m := lowerLoop hi xs x n l r
    m ≤ xs.length ∧ (∀ i < m, ∀ a, xs[i]? = some a → hi a ≤ x) ∧
      ∀ i, m ≤ i → ∀ a, xs[i]? = some a → x < hi a := by
  induction n with
  | zero =>
      intro l r hn hlr hr hl hu
      obtain rfl : l = r := by omega
      exact ⟨hr, hl, hu⟩
  | succ n ih =>
      intro l r hn hlr hr hl hu
      rw [lowerLoop]
      by_cases hlt : l < r
      · have hmid : (l + r) / 2 < xs.length := by omega
        obtain ⟨a, ha⟩ : ∃ a, xs[(l + r) / 2]? = some a :=
          ⟨_, List.getElem?_eq_getElem hmid⟩
        simp only [hlt, if_true, ha]
        by_cases hc : hi a ≤ x
        · rw [if_pos hc]
          refine ih ((l + r) / 2 + 1) r (by omega) (by omega) hr (fun i hi' b hb => ?_) hu
          rcases Nat.lt_or_eq_of_le (Nat.lt_succ_iff.mp hi') with hi' | rfl
          · exact Nat.le_trans (Nat.le_of_lt (h.hi_lt hi' hb ha)) hc
          · rw [ha] at hb
            rwa [← Option.some.inj hb]
        · rw [if_neg hc]
          refine ih l ((l + r) / 2) (by omega) (by omega) (by omega) hl fun i hi' b hb => ?_
          rcases Nat.lt_or_eq_of_le hi' with hi' | rfl
          · exact Nat.lt_trans (Nat.lt_of_not_le hc) (h.hi_lt hi' ha hb)
          · rw [ha] at hb
            rw [← Option.some.inj hb]
            exact Nat.lt_of_not_le hc
      · rw [if_neg hlt]
        obtain rfl : l = r := by omega
        exact ⟨hr, hl, hu⟩

/-- **The binary search** cuts the list where the spans start to end after `x`. -/
theorem lowerLoop_le {x : Nat} (n : Nat) : ∀ l r, l ≤ xs.length → r ≤ xs.length →
    lowerLoop hi xs x n l r ≤ xs.length := by
  induction n with
  | zero => exact fun l r hl _ => hl
  | succ n ih =>
      intro l r hl hr
      rw [lowerLoop]
      split_ifs with hlr
      · simp only
        cases hm : xs[(l + r) / 2]? with
        | none => exact hl
        | some a =>
            simp only
            split_ifs
            · exact ih _ _ (by omega) hr
            · exact ih _ _ hl (by omega)
      · exact hl

/-- The index found is one of the list, or its end, also when the list is not sorted. -/
theorem lower_le (xs : List α) (x : Nat) : lower hi xs x ≤ xs.length :=
  lowerLoop_le xs.length 0 xs.length (Nat.zero_le _) (Nat.le_refl _)

theorem lower_spec (h : Sorted lo hi xs) (x : Nat) : lower hi xs x ≤ xs.length ∧
    (∀ a ∈ xs.take (lower hi xs x), hi a ≤ x) ∧ ∀ a ∈ xs.drop (lower hi xs x), x < hi a := by
  obtain ⟨h₁, h₂, h₃⟩ := lowerLoop_spec (x := x) h xs.length 0 xs.length (by omega) (by omega)
    (Nat.le_refl _) (fun i hi' => absurd hi' (Nat.not_lt_zero i)) fun i hi' a ha => by
      rw [List.getElem?_eq_none hi'] at ha
      exact absurd ha (by simp)
  rw [← lower] at h₁ h₂ h₃
  refine ⟨h₁, fun a ha => ?_, fun a ha => ?_⟩
  · obtain ⟨i, hi', rfl⟩ := List.mem_take_iff_getElem.mp ha
    exact h₂ i (by omega) _ (List.getElem?_eq_getElem (by omega))
  · obtain ⟨i, hi', rfl⟩ := List.mem_drop_iff_getElem.mp ha
    exact h₃ _ (Nat.le_add_right _ i) _ (List.getElem?_eq_getElem (by omega))

theorem lower_cut (h : Sorted lo hi xs) (x : Nat) : ∃ pre suf, xs = pre ++ suf ∧
    pre = xs.take (lower hi xs x) ∧ suf = xs.drop (lower hi xs x) ∧
    pre.length = lower hi xs x ∧ (∀ a ∈ pre, hi a ≤ x) ∧ ∀ a ∈ suf, x < hi a := by
  obtain ⟨h₁, h₂, h₃⟩ := lower_spec h x
  refine ⟨_, _, (List.take_append_drop _ _).symm, rfl, rfl, ?_, h₂, h₃⟩
  rw [List.length_take, Nat.min_eq_left h₁]

end Pulsar.Spans

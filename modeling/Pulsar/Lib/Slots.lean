import Mathlib.Logic.Function.Basic
import Mathlib.Data.List.Basic

/-!
# Queues that lie in slots

A queue may lie in slots that are freed in any order: its contents are what is in the slots, in the
order in which they are gone through.

* `contents_update`: what is found first and freed is erased from the contents.
* `filter_eraseP`: of the elements of a kind, the first is erased.
-/

namespace Pulsar.Slots

variable {ι α : Type}

/-- What lies in the slots, in their order. -/
def contents (order : List ι) (slots : ι → Option α) : List α := order.filterMap slots

/-- What is found first in the slots is what is first in the contents. -/
theorem contents_find? (order : List ι) (slots : ι → Option α) (p : α → Bool) :
    (contents order slots).find? p =
      (order.find? fun i => (slots i).any p).bind slots :=
  List.find?_filterMap ..

theorem contents_congr {order : List ι} {slots slots' : ι → Option α}
    (h : ∀ i ∈ order, slots i = slots' i) : contents order slots = contents order slots' :=
  List.filterMap_congr h

/-- **What is found first** and freed is erased from the contents. -/
theorem contents_update [DecidableEq ι] {slots : ι → Option α} {p : α → Bool} {i : ι} :
    ∀ {order : List ι}, order.Nodup → (order.find? fun j => (slots j).any p) = some i →
      contents order (Function.update slots i none) = (contents order slots).eraseP p := by
  intro order hnodup hfind
  induction order with
  | nil => simp at hfind
  | cons j order ih =>
      obtain ⟨hj, hnodup⟩ := List.nodup_cons.mp hnodup
      rw [List.find?_cons] at hfind
      cases hp : (slots j).any p with
      | true =>
          rw [hp] at hfind
          obtain rfl := Option.some.inj hfind
          obtain ⟨x, hx, hpx⟩ := (Option.any_eq_true _ _).mp hp
          have hrest : contents order (Function.update slots j none) = contents order slots :=
            contents_congr fun k hk => Function.update_of_ne (ne_of_mem_of_not_mem hk hj) ..
          rw [contents, List.filterMap_cons_none (Function.update_self ..), contents,
            List.filterMap_cons_some hx, List.eraseP_cons_of_pos hpx]
          exact hrest
      | false =>
          rw [hp] at hfind
          have hij : j ≠ i := fun h => hj (h ▸ List.mem_of_find?_eq_some hfind)
          have hsame : Function.update slots i none j = slots j := Function.update_of_ne hij ..
          have hrest := ih hnodup hfind
          rw [contents] at hrest ⊢
          rw [contents, List.filterMap_cons, List.filterMap_cons, hsame, hrest]
          cases hx : slots j with
          | none => rfl
          | some x =>
              rw [hx, Option.any_some] at hp
              exact (List.eraseP_cons_of_neg (by simp [hp])).symm

theorem filter_eraseP (p : α → Bool) (l : List α) : (l.eraseP p).filter p = (l.filter p).tail := by
  induction l with
  | nil => rfl
  | cons x l ih =>
      cases hp : p x with
      | true => rw [List.eraseP_cons_of_pos hp, List.filter_cons_of_pos hp, List.tail_cons]
      | false =>
          have hx : ¬ p x = true := by simp [hp]
          rw [List.eraseP_cons_of_neg hx, List.filter_cons_of_neg hx, List.filter_cons_of_neg hx, ih]

theorem filter_eraseP_of_not {p r : α → Bool} (h : ∀ x, p x = true → r x = false) (l : List α) :
    (l.eraseP p).filter r = l.filter r := by
  induction l with
  | nil => rfl
  | cons x l ih =>
      cases hp : p x with
      | true =>
          rw [List.eraseP_cons_of_pos hp, List.filter_cons_of_neg (by simp [h x hp])]
      | false =>
          rw [List.eraseP_cons_of_neg (by simp [hp]), List.filter_cons, List.filter_cons, ih]

end Pulsar.Slots

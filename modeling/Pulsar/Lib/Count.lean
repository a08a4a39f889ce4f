import Mathlib.Algebra.BigOperators.Group.Finset.Basic
import Mathlib.Algebra.BigOperators.Group.Finset.Piecewise
import Mathlib.Algebra.Order.BigOperators.Group.Finset
import Mathlib.Algebra.Ring.Nat

/-!
# Counting over a table

How a count, or a sum, over the slots of a fixed table moves when one slot changes.
-/

namespace Pulsar

theorem sum_map_range (n : Nat) (f : Nat → Nat) :
    ((List.range n).map f).sum = ∑ i ∈ Finset.range n, f i := by
  induction n with
  | zero => rfl
  | succ n ih => rw [List.range_succ, List.map_append, List.sum_append, ih, Finset.sum_range_succ,
      List.map_singleton, List.sum_singleton]

/-- A sum over a table, one slot of which changes from `f i` to `g i`. -/
theorem sum_range_change {n i : Nat} (hi : i < n) {f g : Nat → Nat} (h : ∀ j, j ≠ i → g j = f j) :
    ∑ j ∈ Finset.range n, g j + f i = ∑ j ∈ Finset.range n, f j + g i := by
  have hi' : i ∈ Finset.range n := Finset.mem_range.mpr hi
  rw [← Finset.add_sum_erase _ f hi', ← Finset.add_sum_erase _ g hi']
  have : ∑ j ∈ (Finset.range n).erase i, g j = ∑ j ∈ (Finset.range n).erase i, f j :=
    Finset.sum_congr rfl fun j hj => h j (Finset.ne_of_mem_erase hj)
  omega

/-- A count over a table, one slot of which changes. -/
theorem card_filter_change {n i : Nat} (hi : i < n) {p q : Nat → Prop} [DecidablePred p]
    [DecidablePred q] (h : ∀ j, j ≠ i → (q j ↔ p j)) :
    ((Finset.range n).filter q).card + (if p i then 1 else 0) =
      ((Finset.range n).filter p).card + (if q i then 1 else 0) := by
  simp only [Finset.card_filter]
  exact sum_range_change hi (f := fun j => if p j then 1 else 0)
    (g := fun j => if q j then 1 else 0) fun j hj => if_congr (h j hj) rfl rfl

/-- The entries of a table, one slot of which changes. -/
theorem filterMap_range_change {α : Type} {n i : Nat} (hi : i < n) {f g : Nat → Option α}
    (h : ∀ j, j ≠ i → g j = f j) :
    ((f i).toList ++ (List.range n).filterMap g).Perm
      ((g i).toList ++ (List.range n).filterMap f) := by
  have hp : (List.range n).Perm (i :: (List.range n).erase i) :=
    List.perm_cons_erase (List.mem_range.mpr hi)
  have hrest : ((List.range n).erase i).filterMap g = ((List.range n).erase i).filterMap f :=
    List.filterMap_congr fun j hj => h j (List.nodup_range.mem_erase_iff.mp hj).1
  have hcons : ∀ f : Nat → Option α, (List.range n).filterMap f |>.Perm
      ((f i).toList ++ ((List.range n).erase i).filterMap f) := fun f =>
    (hp.filterMap f).trans (by cases hf : f i <;> simp [hf])
  calc (f i).toList ++ (List.range n).filterMap g
    _ |>.Perm ((f i).toList ++ ((g i).toList ++ ((List.range n).erase i).filterMap f)) :=
      hrest ▸ (hcons g).append_left _
    _ |>.Perm ((g i).toList ++ ((f i).toList ++ ((List.range n).erase i).filterMap f)) := by
      simp only [← List.append_assoc]
      exact List.perm_append_comm.append_right _
    _ |>.Perm ((g i).toList ++ (List.range n).filterMap f) := (hcons f).symm.append_left _

theorem filterMap_range_without {α : Type} {n i : Nat} (hi : i < n) {f : Nat → Option α} {a : α}
    (ha : f i = some a) :
    ((List.range n).filterMap f).Perm
      (a :: (List.range n).filterMap (Function.update f i none)) := by
  have hp := filterMap_range_change hi (f := f) (g := Function.update f i none)
    fun j hj => Function.update_of_ne hj ..
  rw [ha, Function.update_self] at hp
  exact hp.symm

theorem filterMap_range_inj {α β : Type} {n i j : Nat} (hi : i < n) (hj : j < n)
    {f : Nat → Option α} {g : α → β} (h : (((List.range n).filterMap f).map g).Nodup) {a b : α}
    (ha : f i = some a) (hb : f j = some b) (hab : g a = g b) : i = j := by
  by_contra hne
  have hn := ((filterMap_range_without hi ha).map g).nodup_iff.mp h
  rw [List.map_cons, List.nodup_cons] at hn
  refine hn.1 (hab ▸ List.mem_map_of_mem (List.mem_filterMap.mpr ⟨j, List.mem_range.mpr hj, ?_⟩))
  rw [Function.update_of_ne (Ne.symm hne)]
  exact hb

end Pulsar

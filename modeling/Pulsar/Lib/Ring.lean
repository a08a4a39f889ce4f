import Mathlib.Logic.Function.Basic
import Mathlib.Data.List.Basic

/-!
# Ring buffers

The memory of a ring of `cap` cells is a function of the index.  `slice` is what lies in it from a
place on, in order, and `store` puts elements there one after the other; both go round the end.

* `slice_store`: what is stored behind the contents, where it fits, is appended to them.
* `slice_take`: what is taken from the front is the first part of the contents.
-/

namespace Pulsar.Ring

variable {α : Type} {cap : Nat}

/-- The `n` elements of a ring from `head` on. -/
def slice (ring : Nat → α) (cap head n : Nat) : List α :=
  (List.range n).map fun i => ring ((head + i) % cap)

/-- The ring after the elements of a list were stored one after the other, the first at `start`. -/
def store (cap : Nat) : (Nat → α) → Nat → List α → Nat → α
  | ring, _, [] => ring
  | ring, start, x :: xs => store cap (Function.update ring (start % cap) x) (start + 1) xs

@[simp] theorem slice_length (ring : Nat → α) (head n : Nat) :
    (slice ring cap head n).length = n := by
  simp [slice]

@[simp] theorem slice_zero (ring : Nat → α) (head : Nat) : slice ring cap head 0 = [] := rfl

theorem slice_congr {ring ring' : Nat → α} {head n : Nat}
    (h : ∀ i < n, ring ((head + i) % cap) = ring' ((head + i) % cap)) :
    slice ring cap head n = slice ring' cap head n :=
  List.map_congr_left fun i hi => h i (List.mem_range.mp hi)

@[simp] theorem slice_mod (ring : Nat → α) (head n : Nat) :
    slice ring cap (head % cap) n = slice ring cap head n := by
  simp only [slice, Nat.mod_add_mod]

theorem slice_add (ring : Nat → α) (head m n : Nat) :
    slice ring cap head (m + n) = slice ring cap head m ++ slice ring cap (head + m) n := by
  simp only [slice, List.range_add, List.map_append, List.map_map]
  congr 1
  exact List.map_congr_left fun i _ => by simp only [Function.comp, Nat.add_assoc]

theorem slice_take {ring : Nat → α} {head m n : Nat} (h : m ≤ n) :
    slice ring cap head m = (slice ring cap head n).take m := by
  obtain ⟨k, rfl⟩ := Nat.exists_eq_add_of_le h
  rw [slice_add, List.take_left' (slice_length ..)]

theorem cell_ne {a i j : Nat} (hi : i < j) (hj : j < i + cap) : (a + i) % cap ≠ (a + j) % cap := by
  intro h
  have hzero := Nat.sub_mod_eq_zero_of_mod_eq h.symm
  rw [Nat.add_sub_add_left, Nat.mod_eq_of_lt (by omega)] at hzero
  exact Nat.sub_ne_zero_of_lt hi hzero

/-- **What is stored behind the contents** of a ring, where it fits, is appended to them. -/
theorem slice_store {head : Nat} : ∀ {xs : List α} {ring : Nat → α} {n : Nat},
    n + xs.length ≤ cap → slice (store cap ring (head + n) xs) cap head (n + xs.length) =
      slice ring cap head n ++ xs := by
  intro xs
  induction xs with
  | nil => simp [store]
  | cons x xs ih =>
      intro ring n hfit
      rw [List.length_cons] at hfit ⊢
      have hlen : n + (xs.length + 1) = n + 1 + xs.length := by omega
      rw [store, hlen, Nat.add_assoc head, ih (by omega), slice_add, List.append_assoc]
      congr 1
      · exact slice_congr fun i hi => Function.update_of_ne (cell_ne hi (by omega)) ..
      · simp [slice]

end Pulsar.Ring

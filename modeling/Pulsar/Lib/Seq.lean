import Mathlib.Data.UInt

/-!
# Sequence numbers

The elements of a stream are numbered from a first number on, modulo `2 ^ 32`: `nth x n` is the
number of element `n` of the stream whose first number is `x`.  The difference of two numbers tells
how far apart two elements are, as long as they are less than `2 ^ 32` apart.
-/

namespace Pulsar.Seq

/-- The number of element `n` of a stream that starts with `x`. -/
def nth (x : UInt32) (n : Nat) : UInt32 := x + UInt32.ofNat n

@[simp] theorem nth_zero (x : UInt32) : nth x 0 = x := by
  simp [nth]

theorem nth_add (x : UInt32) (m n : Nat) : nth x (m + n) = nth x m + UInt32.ofNat n := by
  rw [nth, nth, UInt32.ofNat_add, UInt32.add_assoc]

theorem nth_sub (x : UInt32) (m n : Nat) : (nth x (m + n) - nth x m).toNat = n % 2 ^ 32 := by
  rw [nth_add, UInt32.add_comm, UInt32.add_sub_cancel]
  exact UInt32.toNat_ofNat'

theorem nth_sub_self {x : UInt32} {m n : Nat} (h : n < 2 ^ 32) :
    (nth x (m + n) - nth x m).toNat = n := by
  rw [nth_sub, Nat.mod_eq_of_lt h]

/-- How far an element is before another one, going forward. -/
theorem nth_sub_back {x : UInt32} {m n : Nat} (h₀ : 0 < n) (h : n < 2 ^ 32) :
    (nth x m - nth x (m + n)).toNat = 2 ^ 32 - n := by
  have hsub := nth_sub_self (x := x) (m := m) h
  rw [← UInt32.neg_sub, UInt32.toNat_neg, hsub]
  exact Nat.mod_eq_of_lt (Nat.sub_lt (Nat.two_pow_pos 32) h₀)

theorem add_ofNat_toNat (x y : UInt32) : x + UInt32.ofNat (y - x).toNat = y := by
  rw [UInt32.ofNat_toNat, UInt32.add_comm, UInt32.sub_add_cancel]

end Pulsar.Seq

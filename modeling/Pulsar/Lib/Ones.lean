import Mathlib.Algebra.Order.Group.Nat
import Mathlib.Algebra.BigOperators.Group.List.Basic
import Mathlib.Algebra.Ring.Nat
import Mathlib.Tactic.Common

/-!
# Sums in ones' complement

Words of 16 bits are added with the carry brought round to the end.  The sum is the integer sum
modulo 65535, where zero is only the sum of zeros.

* `sum_eq_top`: the sum is all ones when the integer sum is a multiple of 65535 that is not zero.
* `words_append`: bytes of an even number and those behind them are added one after the other.
-/

namespace Pulsar.Ones

/-- The words of a string of bytes, the high byte first; a last byte alone is a high byte. -/
def words : List UInt8 → List Nat
  | x :: y :: l => (256 * x.toNat + y.toNat) :: words l
  | [x] => [256 * x.toNat]
  | [] => []

/-- The sum of two words, with the carry brought round. -/
def add (a b : Nat) : Nat := if a + b < 65536 then a + b else a + b - 65535

def sum (ws : List Nat) : Nat := ws.foldl add 0

theorem words_le {l : List UInt8} : ∀ w ∈ words l, w ≤ 65535 := by
  induction l using words.induct with
  | case1 x y l ih =>
      intro w hw
      obtain rfl | hw := List.mem_cons.mp hw
      · have hx := x.toNat_lt
        have hy := y.toNat_lt
        omega
      · exact ih w hw
  | case2 x =>
      intro w hw
      obtain rfl := List.mem_singleton.mp hw
      have hx := x.toNat_lt
      omega
  | case3 => exact fun w hw => absurd hw List.not_mem_nil

/-- **Bytes of an even number** and those behind them have the words of both. -/
theorem words_append {a : List UInt8} (h : a.length % 2 = 0) (b : List UInt8) :
    words (a ++ b) = words a ++ words b := by
  induction a using words.induct with
  | case1 x y l ih =>
      have heven : l.length % 2 = 0 := by
        rw [List.length_cons, List.length_cons] at h
        omega
      exact congrArg _ (ih heven)
  | case2 x => exact absurd h (by simp)
  | case3 => rfl

theorem words_sum_le (l : List UInt8) : (words l).sum ≤ 65535 * l.length := by
  induction l using words.induct with
  | case1 x y l ih =>
      have hx := x.toNat_lt
      have hy := y.toNat_lt
      simp only [words, List.sum_cons, List.length_cons]
      omega
  | case2 x =>
      have hx := x.toNat_lt
      simp only [words, List.sum_cons, List.sum_nil, List.length_cons, List.length_nil]
      omega
  | case3 => exact Nat.zero_le _

theorem add_facts {a b : Nat} (ha : a ≤ 65535) (hb : b ≤ 65535) :
    add a b ≤ 65535 ∧ add a b % 65535 = (a + b) % 65535 ∧ (add a b = 0 ↔ a + b = 0) := by
  rw [add]
  split <;> omega

theorem foldl_add_facts {ws : List Nat} (h : ∀ w ∈ ws, w ≤ 65535) : ∀ {a : Nat}, a ≤ 65535 →
    ws.foldl add a ≤ 65535 ∧ ws.foldl add a % 65535 = (a + ws.sum) % 65535 ∧
      (ws.foldl add a = 0 ↔ a + ws.sum = 0) := by
  induction ws with
  | nil => exact fun ha => ⟨ha, rfl, Iff.rfl⟩
  | cons w ws ih =>
      intro a ha
      obtain ⟨hle, hmod, hzero⟩ := add_facts ha (h w List.mem_cons_self)
      obtain ⟨hle', hmod', hzero'⟩ := ih (fun v hv => h v (List.mem_cons_of_mem w hv)) hle
      rw [List.foldl_cons, List.sum_cons]
      refine ⟨hle', ?_, ?_⟩ <;> omega

/-- **The sum is all ones** when the integer sum is a multiple of 65535 that is not zero. -/
theorem sum_eq_top {ws : List Nat} (h : ∀ w ∈ ws, w ≤ 65535) :
    sum ws = 65535 ↔ ws.sum % 65535 = 0 ∧ ws.sum ≠ 0 := by
  obtain ⟨hle, hmod, hzero⟩ := foldl_add_facts h (Nat.zero_le 65535)
  rw [sum]
  omega

end Pulsar.Ones

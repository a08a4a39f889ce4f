import Mathlib.Data.Option.Basic
import Mathlib.Data.Int.GCD
import Mathlib.Data.Nat.Prime.Pow

/-!
# Arithmetic of machine words that may be undefined

Each operation on words of `w` bits answers nothing where the machine's would wrap around, divide
by zero or shift too far.  The rules say when an operation is defined, and what it is then.

`multiples_reach`: among the multiples of a number modulo a power of two, one lies close below it
unless the number is a multiple of the distance.
-/

namespace Pulsar.Checked

variable {w a b c : Nat}

def add (w a b : Nat) : Option Nat := if a + b < 2 ^ w then some (a + b) else none

def sub (a b : Nat) : Option Nat := if b ≤ a then some (a - b) else none

def mul (w a b : Nat) : Option Nat := if a * b < 2 ^ w then some (a * b) else none

def div (a b : Nat) : Option Nat := if b ≠ 0 then some (a / b) else none

def mod (a b : Nat) : Option Nat := if b ≠ 0 then some (a % b) else none

/-- The quotient, rounded up. -/
def divCeil (a b : Nat) : Option Nat := if b ≠ 0 then some ((a + (b - 1)) / b) else none

/-- A shift to the left; bits that leave the word are lost. -/
def shl (w a n : Nat) : Option Nat := if n < w then some (a * 2 ^ n % 2 ^ w) else none

/-- A number in a narrower word. -/
def narrow (w a : Nat) : Option Nat := if a < 2 ^ w then some a else none

@[simp] theorem add_some : add w a b = some c ↔ a + b < 2 ^ w ∧ a + b = c := by
  simp [add]

@[simp] theorem sub_some : sub a b = some c ↔ b ≤ a ∧ a - b = c := by
  simp [sub]

@[simp] theorem mul_some : mul w a b = some c ↔ a * b < 2 ^ w ∧ a * b = c := by
  simp [mul]

@[simp] theorem div_some : div a b = some c ↔ b ≠ 0 ∧ a / b = c := by
  simp [div]

@[simp] theorem mod_some : mod a b = some c ↔ b ≠ 0 ∧ a % b = c := by
  simp [mod]

@[simp] theorem divCeil_some : divCeil a b = some c ↔ b ≠ 0 ∧ (a + (b - 1)) / b = c := by
  simp [divCeil]

@[simp] theorem shl_some {n : Nat} : shl w a n = some c ↔ n < w ∧ a * 2 ^ n % 2 ^ w = c := by
  simp [shl]

@[simp] theorem narrow_some : narrow w a = some c ↔ a < 2 ^ w ∧ a = c := by
  simp [narrow]

/-- A number that is no multiple of `2 ^ j` has a multiple which, modulo `2 ^ n`, is less than
`2 ^ j` below `2 ^ n`. -/
theorem multiples_reach {r j n : Nat} (hjn : j ≤ n) (hr : ¬ 2 ^ j ∣ r) :
    ∃ i < 2 ^ n, 2 ^ n < i * r % 2 ^ n + 2 ^ j := by
  -- the multiples of `r` reach all those of its common divisor with the power of two
  obtain ⟨k, hk, hd⟩ := (Nat.dvd_prime_pow Nat.prime_two).mp (Nat.gcd_dvd_right r (2 ^ n))
  have hlt : 2 ^ k < 2 ^ j := by
    by_contra hc
    have hle : j ≤ k := (Nat.pow_le_pow_iff_right (by decide)).mp (Nat.le_of_not_lt hc)
    exact hr ((Nat.pow_dvd_pow 2 hle).trans (hd ▸ Nat.gcd_dvd_left r (2 ^ n)))
  have hle : 2 ^ j ≤ 2 ^ n := Nat.pow_le_pow_right (by decide) hjn
  have hpos : 0 < 2 ^ k := Nat.two_pow_pos k
  obtain ⟨m, hm, hmul⟩ := Nat.exists_mul_mod_eq_gcd (n := r) (k := 2 ^ n) (by omega)
  rw [hd] at hmul
  have hm₀ : m ≠ 0 := by
    rintro rfl
    rw [Nat.mul_zero, Nat.zero_mod] at hmul
    omega
  -- the complement of that multiple
  have hsum : ((2 ^ n - m) * r + r * m) % 2 ^ n = 0 := by
    rw [Nat.mul_comm r m, ← Nat.add_mul, Nat.sub_add_cancel (Nat.le_of_lt hm)]
    exact Nat.mul_mod_right _ _
  rw [Nat.add_mod, hmul] at hsum
  have hlast : (2 ^ n - m) * r % 2 ^ n < 2 ^ n := Nat.mod_lt _ (by omega)
  refine ⟨2 ^ n - m, by omega, ?_⟩
  have hdvd := Nat.le_of_dvd (by omega) (Nat.dvd_of_mod_eq_zero hsum)
  omega

end Pulsar.Checked

import Mathlib.Data.Nat.Basic
import Mathlib.Data.UInt

/-!
# Little-endian numbers in a run of bytes

`leGet d off n` is the number in the `n` bytes of `d` from `off` on, least significant first, and
`lePut d off n v` writes `v` there.  What is written is what is read, and nothing else moves.
`blit d off n src` copies `n` bytes of `src` there.
-/

namespace Pulsar

/-- The number in the `n` bytes from `off` on. -/
def leGet (d : Nat → UInt8) : Nat → Nat → Nat
  | _, 0 => 0
  | off, n + 1 => (d off).toNat + 256 * leGet d (off + 1) n

/-- The `n` bytes from `off` on become the number `v`. -/
def lePut (d : Nat → UInt8) (off n v : Nat) : Nat → UInt8 := fun x =>
  if off ≤ x ∧ x < off + n then UInt8.ofNat (v / 256 ^ (x - off)) else d x

theorem lePut_outside {d : Nat → UInt8} {off n v x : Nat} (h : x < off ∨ off + n ≤ x) :
    lePut d off n v x = d x := by
  have : ¬ (off ≤ x ∧ x < off + n) := by omega
  simp [lePut, this]

theorem lePut_inside {d : Nat → UInt8} {off n v k : Nat} (h : k < n) :
    lePut d off n v (off + k) = UInt8.ofNat (v / 256 ^ k) := by
  simp [lePut, h]

theorem leGet_congr {d d' : Nat → UInt8} : ∀ {n off : Nat},
    (∀ k < n, d (off + k) = d' (off + k)) → leGet d off n = leGet d' off n
  | 0, _, _ => rfl
  | n + 1, off, h => by
      have h0 := h 0 (Nat.succ_pos n)
      have hs : leGet d (off + 1) n = leGet d' (off + 1) n := leGet_congr fun k hk => by
        have := h (k + 1) (by omega)
        rwa [Nat.add_assoc, Nat.add_comm 1]
      simp only [Nat.add_zero] at h0
      simp only [leGet, h0, hs]

/-- A number found at another place of another run of bytes. -/
theorem leGet_shift {d d' : Nat → UInt8} {a : Nat} : ∀ {n off : Nat},
    (∀ k < n, d (a + off + k) = d' (off + k)) → leGet d (a + off) n = leGet d' off n
  | 0, _, _ => rfl
  | n + 1, off, h => by
      have h0 := h 0 (Nat.succ_pos n)
      have hs : leGet d (a + (off + 1)) n = leGet d' (off + 1) n := leGet_shift fun k hk => by
        have := h (k + 1) (by omega)
        rwa [← Nat.add_assoc, Nat.add_assoc (a + off), Nat.add_assoc off, Nat.add_comm 1]
      simp only [Nat.add_zero] at h0
      simp only [leGet, h0, ← hs, Nat.add_assoc]

theorem leGet_lt (d : Nat → UInt8) : ∀ (n off : Nat), leGet d off n < 256 ^ n
  | 0, _ => Nat.one_pos
  | n + 1, off => by
      have h₁ := leGet_lt d n (off + 1)
      have h₂ : (d off).toNat < 256 := (d off).toNat_lt
      simp only [leGet, Nat.pow_succ]
      omega

theorem leGet_lePut (d : Nat → UInt8) (off n v : Nat) : leGet (lePut d off n v) off n = v % 256 ^ n := by
  have key : ∀ (m k : Nat), k + m = n →
      leGet (lePut d off n v) (off + k) m = v / 256 ^ k % 256 ^ m := by
    intro m
    induction m with
    | zero => intro k _; simp [leGet, Nat.mod_one]
    | succ m ih =>
        intro k hk
        have hrest := ih (k + 1) (by omega)
        rw [← Nat.add_assoc] at hrest
        rw [leGet, hrest, lePut_inside (by omega), Nat.pow_succ 256 k, ← Nat.div_div_eq_div_mul,
          Nat.pow_succ, Nat.mul_comm (256 ^ m), Nat.mod_mul, UInt8.toNat_ofNat']
  simpa using key n 0 (by omega)

theorem leGet_lePut_of_disjoint {d : Nat → UInt8} {off n v off' n' : Nat}
    (h : off' + n' ≤ off ∨ off + n ≤ off') : leGet (lePut d off n v) off' n' = leGet d off' n' :=
  leGet_congr fun k hk => lePut_outside (by omega)

/-! ### Copies -/

/-- The `n` bytes of `src` come to `off`. -/
def blit (d : Nat → UInt8) (off n : Nat) (src : Nat → UInt8) : Nat → UInt8 := fun x =>
  if off ≤ x ∧ x < off + n then src (x - off) else d x

theorem blit_outside {d src : Nat → UInt8} {off n x : Nat} (h : x < off ∨ off + n ≤ x) :
    blit d off n src x = d x := by
  have : ¬ (off ≤ x ∧ x < off + n) := by omega
  simp [blit, this]

theorem blit_inside {d src : Nat → UInt8} {off n k : Nat} (h : k < n) :
    blit d off n src (off + k) = src k := by
  simp [blit, h]

theorem blit_start {d src : Nat → UInt8} {n x : Nat} (h : x < n) : blit d 0 n src x = src x := by
  simp [blit, h]

theorem leGet_blit_start {d src : Nat → UInt8} {n k m : Nat} (h : k + m ≤ n) :
    leGet (blit d 0 n src) k m = leGet src k m :=
  leGet_congr fun j hj => blit_start (by omega)

theorem leGet_blit_of_disjoint {d src : Nat → UInt8} {off n off' n' : Nat}
    (h : off' + n' ≤ off ∨ off + n ≤ off') : leGet (blit d off n src) off' n' = leGet d off' n' :=
  leGet_congr fun k hk => blit_outside (by omega)

theorem blit_congr {d src src' : Nat → UInt8} {off n : Nat} (h : ∀ i < n, src i = src' i) :
    blit d off n src = blit d off n src' := by
  funext x
  unfold blit
  split
  · exact h _ (by omega)
  · rfl

theorem blit_nothing {d src : Nat → UInt8} {off : Nat} : blit d off 0 src = d :=
  funext fun _ => blit_outside (by omega)

theorem blit_blit {d src src' src'' : Nat → UInt8} {off n m : Nat} (h : ∀ i < n, src'' i = src i)
    (h' : ∀ i < m, src'' (n + i) = src' i) :
    blit (blit d off n src) (off + n) m src' = blit d off (n + m) src'' := by
  funext x
  by_cases hlt : x < off + n
  · rw [blit_outside (.inl hlt)]
    by_cases ho : off ≤ x
    · obtain ⟨i, rfl⟩ := Nat.exists_eq_add_of_le ho
      rw [blit_inside (by omega), blit_inside (by omega), h i (by omega)]
    · rw [blit_outside (by omega), blit_outside (by omega)]
  · obtain ⟨i, rfl⟩ := Nat.exists_eq_add_of_le (Nat.le_of_not_lt hlt)
    by_cases hi : i < m
    · rw [blit_inside hi, Nat.add_assoc, blit_inside (by omega), h' i hi]
    · rw [blit_outside (by omega), blit_outside (by omega), blit_outside (by omega)]

end Pulsar

import Mathlib.Data.Nat.Bitwise
import Mathlib.Algebra.Ring.Nat
import Mathlib.Tactic.Ring
import Mathlib.Tactic.Common

/-!
# Rows of pixels (`plib/src/gfx.rs`)

`copy_px`, `fill_px` and `blend_px` work on words of two pixels where they can.  A pixel has a
number, its address by four; a word is aligned if its first pixel is even.  On `aarch64` blocks of
sixteen pixels go first.

* `copyPx_copies`: what is copied, and what is read for it.
* `fillPx_fills`, `blendPx_blends`: what is written; a pixel is blended as `mix` does it.
* **`packed_pixel_rows`**: all three, for every count and alignment.
-/

namespace Pulsar.Plib

/-- Two pixels in a word. -/
def word (lo hi : UInt32) : UInt64 := lo.toUInt64 ||| hi.toUInt64 <<< 32

def low (v : UInt64) : UInt32 := v.toUInt32

def high (v : UInt64) : UInt32 := (v >>> 32).toUInt32

/-- The pixels in memory, and those of the source that were read. -/
structure Px where
  mem : Nat → UInt32
  reads : List Nat

namespace Px

/-- A pixel is read. -/
def load (a : Nat) (x : Px) : UInt32 × Px := (x.mem a, { x with reads := a :: x.reads })

/-- A word is read. -/
def load8 (a : Nat) (x : Px) : UInt64 × Px :=
  (word (x.mem a) (x.mem (a + 1)), { x with reads := a :: (a + 1) :: x.reads })

def store (a : Nat) (c : UInt32) (x : Px) : Px := { x with mem := Function.update x.mem a c }

def store8 (a : Nat) (v : UInt64) (x : Px) : Px := (x.store a (low v)).store (a + 1) (high v)

end Px

/-! ### `copy_px` -/

/-- The pixels from `d` on, `n` of them, become those of `g`. -/
def overwrite (d n : Nat) (g m : Nat → UInt32) : Nat → UInt32 :=
  fun a => if d ≤ a ∧ a < d + n then g a else m a

/-- Sixteen pixels in four registers. -/
def copyBlock (d s : Nat) (x : Px) : Px where
  mem := overwrite d 16 (fun a => x.mem (s + (a - d))) x.mem
  reads := (List.range 16).map (s + ·) ++ x.reads

def copyBlocks : Nat → Nat → Nat → Px → Px
  | 0, _, _, x => x
  | k + 1, d, s, x => copyBlocks k (d + 16) (s + 16) (copyBlock d s x)

/-- `*d = *s`. -/
def copyOne (d s : Nat) (x : Px) : Px :=
  let (c, x) := x.load s
  x.store d c

/-- The words of an aligned source. -/
def copyWords : Nat → Nat → Nat → Px → Px
  | 0, _, _, x => x
  | k + 1, d, s, x =>
    let (v, x) := x.load8 s
    copyWords k (d + 2) (s + 2) (x.store8 d v)

/-- The same, four at a time as long as there are so many. -/
def copyQuads (k d s : Nat) (x : Px) : Px :=
  if 4 ≤ k then
    let (a, x) := x.load8 s
    let (b, x) := x.load8 (s + 2)
    let (c, x) := x.load8 (s + 4)
    let (e, x) := x.load8 (s + 6)
    let x := (((x.store8 d a).store8 (d + 2) b).store8 (d + 4) c).store8 (d + 6) e
    copyQuads (k - 4) (d + 8) (s + 8) x
  else copyWords k d s x
termination_by k

/-- The words of a source that is not aligned: each is made of two. -/
def copyShifted : Nat → Nat → Nat → UInt64 → Px → Px
  | 0, _, _, _, x => x
  | k + 1, d, s, prev, x =>
    let (next, x) := x.load8 (s + 2)
    copyShifted k (d + 2) (s + 2) next (x.store8 d (prev >>> 32 ||| next <<< 32))

/-- `for i in done..n { *d.add(i) = *s.add(i) }`, with `k` pixels left. -/
def copyTail : Nat → Nat → Nat → Px → Px
  | 0, _, _, x => x
  | k + 1, d, s, x => copyTail k (d + 1) (s + 1) (copyOne d s x)

/-- `copy_px` from an aligned destination on. -/
def copyAligned (d s n : Nat) (x : Px) : Px :=
  if s % 2 = 0 then
    copyTail (n - n / 2 * 2) (d + n / 2 * 2) (s + n / 2 * 2) (copyQuads (n / 2) d s x)
  else if 3 ≤ n then
    let (prev, x) := x.load8 (s - 1)
    copyTail (n - (n - 1) / 2 * 2) (d + (n - 1) / 2 * 2) (s + (n - 1) / 2 * 2)
      (copyShifted ((n - 1) / 2) d (s - 1) prev x)
  else copyTail n d s x

/-- `copy_px` without the blocks. -/
def copyRow (d s n : Nat) (x : Px) : Px :=
  if n = 0 then x
  else if d % 2 ≠ 0 then copyAligned (d + 1) (s + 1) (n - 1) (copyOne d s x)
  else copyAligned d s n x

/-- `copy_px(d, s, n)`. -/
def copyPx (aarch64 : Bool) (d s n : Nat) (x : Px) : Px :=
  if aarch64 then
    copyRow (d + n / 16 * 16) (s + n / 16 * 16) (n - n / 16 * 16) (copyBlocks (n / 16) d s x)
  else copyRow d s n x

/-! ### `fill_px` -/

/-- Sixteen pixels in four registers. -/
def fillBlocks (c : UInt32) : Nat → Nat → Px → Px
  | 0, _, x => x
  | k + 1, d, x => fillBlocks c k (d + 16) { x with mem := overwrite d 16 (fun _ => c) x.mem }

def fillWords (v : UInt64) : Nat → Nat → Px → Px
  | 0, _, x => x
  | k + 1, d, x => fillWords v k (d + 2) (x.store8 d v)

def fillQuads (v : UInt64) (k d : Nat) (x : Px) : Px :=
  if 4 ≤ k then
    fillQuads v (k - 4) (d + 8)
      ((((x.store8 d v).store8 (d + 2) v).store8 (d + 4) v).store8 (d + 6) v)
  else fillWords v k d x
termination_by k

/-- `fill_px` from an aligned pixel on. -/
def fillAligned (d n : Nat) (c : UInt32) (x : Px) : Px :=
  let x := fillQuads (word c c) (n / 2) d x
  if n % 2 ≠ 0 then x.store (d + (n - 1)) c else x

/-- `fill_px` without the blocks. -/
def fillRow (d n : Nat) (c : UInt32) (x : Px) : Px :=
  if n = 0 then x
  else if d % 2 ≠ 0 then fillAligned (d + 1) (n - 1) c (x.store d c)
  else fillAligned d n c x

/-- `fill_px(d, n, c)`. -/
def fillPx (aarch64 : Bool) (d n : Nat) (c : UInt32) (x : Px) : Px :=
  if aarch64 then fillRow (d + n / 16 * 16) (n - n / 16 * 16) c (fillBlocks c (n / 16) d x)
  else fillRow d n c x

/-! ### `blend_px` -/

/-- `mix(bg, fg, a)`. -/
def mix (bg fg a : UInt32) : UInt32 :=
  if 255 ≤ a then fg
  else
    let a := a + a >>> 7
    let ia := 256 - a
    let rb := ((fg &&& 0xFF00FF) * a + (bg &&& 0xFF00FF) * ia) >>> 8
    let g := ((fg &&& 0x00FF00) * a + (bg &&& 0x00FF00) * ia) >>> 8
    rb &&& 0xFF00FF ||| g &&& 0x00FF00

/-- Red and blue of two pixels. -/
def MASK_RB : UInt64 := 0x00FF00FF00FF00FF

/-- Green of two pixels, moved down. -/
def MASK_G : UInt64 := 0x000000FF000000FF

/-- Two pixels are blended with `c`; `a` is at most `256`. -/
def blendWord (c : UInt32) (a p : UInt64) : UInt64 :=
  let ia := 256 - a
  let frb := (word c c &&& MASK_RB) * a
  let fg := (word c c >>> 8 &&& MASK_G) * a
  let rb := ((p &&& MASK_RB) * ia + frb) >>> 8 &&& MASK_RB
  let g := ((p >>> 8 &&& MASK_G) * ia + fg) &&& MASK_G <<< 8
  rb ||| g

/-- `one(p)`. -/
def blendOne (c : UInt32) (a : UInt64) (p : UInt32) : UInt32 := low (blendWord c a p.toUInt64)

def blendWords (c : UInt32) (a : UInt64) : Nat → Nat → Px → Px
  | 0, _, x => x
  | k + 1, d, x =>
    blendWords c a k (d + 2) (x.store8 d (blendWord c a (word (x.mem d) (x.mem (d + 1)))))

/-- `blend_px` from an aligned pixel on. -/
def blendAligned (d n : Nat) (c : UInt32) (a : UInt64) (x : Px) : Px :=
  let x := blendWords c a (n / 2) d x
  if n % 2 ≠ 0 then x.store (d + (n - 1)) (blendOne c a (x.mem (d + (n - 1)))) else x

/-- `blend_px(d, n, c, a)`. -/
def blendPx (d n : Nat) (c a : UInt32) (x : Px) : Px :=
  let a := (a + a >>> 7).toUInt64
  if n = 0 then x
  else if d % 2 ≠ 0 then
    blendAligned (d + 1) (n - 1) c a (x.store d (blendOne c a (x.mem d)))
  else blendAligned d n c a x

/-! ### Words -/

theorem toNat_word (lo hi : UInt32) : (word lo hi).toNat = hi.toNat * 2 ^ 32 + lo.toNat := by
  have hlo : lo.toNat < 2 ^ 32 := lo.toNat_lt
  have hhi : hi.toNat <<< 32 < 2 ^ 64 := by
    have : hi.toNat < 2 ^ 32 := hi.toNat_lt
    rw [Nat.shiftLeft_eq]
    omega
  rw [word, UInt64.toNat_or, UInt64.toNat_shiftLeft, UInt32.toNat_toUInt64, UInt32.toNat_toUInt64]
  change lo.toNat ||| hi.toNat <<< 32 % 2 ^ 64 = _
  rw [Nat.mod_eq_of_lt hhi, Nat.or_comm, ← Nat.shiftLeft_add_eq_or_of_lt hlo, Nat.shiftLeft_eq]

theorem toNat_low (v : UInt64) : (low v).toNat = v.toNat % 2 ^ 32 := UInt64.toNat_toUInt32 v

theorem toNat_high (v : UInt64) : (high v).toNat = v.toNat / 2 ^ 32 := by
  have hv : v.toNat < 2 ^ 64 := v.toNat_lt
  rw [high, UInt64.toNat_toUInt32, UInt64.toNat_shiftRight]
  change v.toNat >>> 32 % 2 ^ 32 = _
  rw [Nat.shiftRight_eq_div_pow]
  exact Nat.mod_eq_of_lt (by omega)

@[simp] theorem low_word (lo hi : UInt32) : low (word lo hi) = lo := by
  have hlo : lo.toNat < 2 ^ 32 := lo.toNat_lt
  refine UInt32.toNat_inj.mp ?_
  rw [toNat_low, toNat_word]
  omega

@[simp] theorem high_word (lo hi : UInt32) : high (word lo hi) = hi := by
  have hlo : lo.toNat < 2 ^ 32 := lo.toNat_lt
  refine UInt32.toNat_inj.mp ?_
  rw [toNat_high, toNat_word]
  omega

theorem shifted_words (a b c e : UInt32) :
    word a b >>> 32 ||| word c e <<< 32 = word b c := by
  refine UInt64.toNat_inj.mp ?_
  have hb : b.toNat < 2 ^ 32 := b.toNat_lt
  have ha : a.toNat < 2 ^ 32 := a.toNat_lt
  have hc : c.toNat < 2 ^ 32 := c.toNat_lt
  have hdown : (word a b >>> 32).toNat = b.toNat := by
    rw [UInt64.toNat_shiftRight, toNat_word]
    change (b.toNat * 2 ^ 32 + a.toNat) >>> 32 = _
    rw [Nat.shiftRight_eq_div_pow]
    omega
  have hup : (word c e <<< 32).toNat = c.toNat <<< 32 := by
    rw [UInt64.toNat_shiftLeft, toNat_word]
    change (e.toNat * 2 ^ 32 + c.toNat) <<< 32 % 2 ^ 64 = _
    rw [Nat.shiftLeft_eq, Nat.shiftLeft_eq]
    omega
  rw [UInt64.toNat_or, hdown, hup, toNat_word, Nat.or_comm, ← Nat.shiftLeft_add_eq_or_of_lt hb,
    Nat.shiftLeft_eq]

/-! ### What is copied -/

section

variable {x₀ g m₀ : Nat → UInt32} {d s n m k D S i : Nat} {x : Px} {v prev : UInt64}

theorem overwrite_zero : overwrite d 0 g m₀ = m₀ :=
  funext fun _ => if_neg fun h => absurd h.2 (Nat.not_lt.mpr h.1)

theorem overwrite_add : overwrite (d + m) k g (overwrite d m g m₀) = overwrite d (m + k) g m₀ := by
  funext a
  unfold overwrite
  split_ifs <;> first | rfl | omega

theorem update_over :
    Function.update (overwrite d m g m₀) (d + m) (g (d + m)) = overwrite d (m + 1) g m₀ := by
  rw [← overwrite_add]
  funext a
  by_cases ha : a = d + m
  · rw [ha, Function.update_self]
    exact (if_pos ⟨Nat.le_refl _, Nat.lt_succ_self _⟩).symm
  · rw [Function.update_of_ne ha]
    exact (if_neg fun h => ha (by omega)).symm

/-- A source and a destination of `n` pixels that have none in common. -/
def Apart (d s n : Nat) : Prop := d + n ≤ s ∨ s + n ≤ d

/-- The first `m` of `n` pixels were copied; what was read is of the source, or of a word that has a
pixel of it. -/
structure Copying (x₀ : Nat → UInt32) (d s n m : Nat) (x : Px) : Prop where
  mem : x.mem = overwrite d m (fun a => x₀ (s + (a - d))) x₀
  reads : ∀ a ∈ x.reads, ∃ i < n, a / 2 = (s + i) / 2

namespace Copying

theorem start (x₀ : Nat → UInt32) (d s n : Nat) : Copying x₀ d s n 0 ⟨x₀, []⟩ :=
  ⟨overwrite_zero.symm, fun _ ha => absurd ha List.not_mem_nil⟩

theorem source (h : Copying x₀ d s n m x) (hd : Apart d s n) (hm : m ≤ n) (hi : i < n) :
    x.mem (s + i) = x₀ (s + i) := by
  rw [h.mem]
  refine if_neg fun hc => ?_
  rcases hd with hd | hd <;> omega

theorem read (h : Copying x₀ d s n m x) (hi : i < n) {l : List Nat}
    (hl : ∀ a ∈ l, a / 2 = (s + i) / 2) : Copying x₀ d s n m ⟨x.mem, l ++ x.reads⟩ :=
  ⟨h.mem, fun a ha => (List.mem_append.mp ha).elim (fun ha => ⟨i, hi, hl a ha⟩) (h.reads a)⟩

theorem load (h : Copying x₀ d s n m x) (hi : i < n) (ha : k = s + i) :
    Copying x₀ d s n m (x.load k).2 :=
  h.read hi (l := [k]) fun a hk => by rw [List.mem_singleton.mp hk, ha]

theorem load8 (h : Copying x₀ d s n m x) (hi : i + 1 < n) (ha : k = s + i) :
    Copying x₀ d s n m (x.load8 k).2 :=
  (h.read hi (l := [k + 1]) fun a hk => by rw [List.mem_singleton.mp hk, ha, Nat.add_assoc]).read
    (Nat.lt_of_succ_lt hi) (l := [k]) fun a hk => by rw [List.mem_singleton.mp hk, ha]

theorem load8_val (h : Copying x₀ d s n m x) (hd : Apart d s n) (hm : m ≤ n) (hi : i + 1 < n)
    (ha : k = s + i) : (x.load8 k).1 = word (x₀ (s + i)) (x₀ (s + (i + 1))) := by
  subst ha
  exact congrArg₂ word (h.source hd hm (Nat.lt_of_succ_lt hi)) (h.source hd hm hi)

theorem store {c : UInt32} (h : Copying x₀ d s n m x) (hD : D = d + m) (hc : c = x₀ (s + m)) :
    Copying x₀ d s n (m + 1) (x.store D c) := by
  refine ⟨?_, h.reads⟩
  have hsrc : c = (fun a => x₀ (s + (a - d))) (d + m) := by
    beta_reduce
    rw [hc, Nat.add_sub_cancel_left]
  subst hD
  rw [Px.store, h.mem, hsrc]
  exact update_over

theorem store8 (h : Copying x₀ d s n m x) (hD : D = d + m)
    (hv : v = word (x₀ (s + m)) (x₀ (s + (m + 1)))) :
    Copying x₀ d s n (m + 2) (x.store8 D v) := by
  subst hv
  exact (h.store hD (low_word ..)).store (by omega) (high_word ..)

theorem one (h : Copying x₀ d s n m x) (hd : Apart d s n) (hm : m < n) (hD : D = d + m)
    (hS : S = s + m) : Copying x₀ d s n (m + 1) (copyOne D S x) :=
  (h.load hm hS).store hD (by rw [hS]; exact h.source hd (Nat.le_of_lt hm) hm)

theorem words (h : Copying x₀ d s n m x) (hd : Apart d s n) (hm : m + 2 * k ≤ n) (hD : D = d + m)
    (hS : S = s + m) : Copying x₀ d s n (m + 2 * k) (copyWords k D S x) := by
  induction k generalizing m D S x with
  | zero => exact h
  | succ k ih =>
      have hnext := ((h.load8 (by omega) hS).store8 hD (h.load8_val hd (by omega) (by omega) hS))
      have hrest := ih hnext (by omega) (D := D + 2) (S := S + 2) (by omega) (by omega)
      rwa [show m + 2 + 2 * k = m + 2 * (k + 1) by omega] at hrest

theorem quads (h : Copying x₀ d s n m x) (hd : Apart d s n) (hm : m + 2 * k ≤ n) (hD : D = d + m)
    (hS : S = s + m) : Copying x₀ d s n (m + 2 * k) (copyQuads k D S x) := by
  induction k using Nat.strong_induction_on generalizing m D S x with
  | _ k ih =>
      rw [copyQuads]
      split_ifs with hk
      · have h1 := h.load8 (i := m) (by omega) hS
        have h2 := h1.load8 (i := m + 2) (k := S + 2) (by omega) (by omega)
        have h3 := h2.load8 (i := m + 4) (k := S + 4) (by omega) (by omega)
        have h4 := h3.load8 (i := m + 6) (k := S + 6) (by omega) (by omega)
        have w1 := h4.store8 hD (h.load8_val hd (by omega) (by omega) hS)
        have w2 := w1.store8 (D := D + 2) (by omega)
          (h1.load8_val hd (i := m + 2) (k := S + 2) (by omega) (by omega) (by omega))
        have w3 := w2.store8 (D := D + 4) (by omega)
          (h2.load8_val hd (i := m + 4) (k := S + 4) (by omega) (by omega) (by omega))
        have w4 := w3.store8 (D := D + 6) (by omega)
          (h3.load8_val hd (i := m + 6) (k := S + 6) (by omega) (by omega) (by omega))
        have hrest := ih (k - 4) (by omega) w4 (D := D + 8) (S := S + 8) (by omega) (by omega)
          (by omega)
        rwa [show m + 2 + 2 + 2 + 2 + 2 * (k - 4) = m + 2 * k by omega] at hrest
      · exact h.words hd hm hD hS

theorem shifted {p : UInt32} (h : Copying x₀ d s n m x) (hd : Apart d s n) (hm : m + 2 * k < n)
    (hD : D = d + m) (hS : S + 1 = s + m) (hp : prev = word p (x₀ (s + m))) :
    Copying x₀ d s n (m + 2 * k) (copyShifted k D S prev x) := by
  induction k generalizing m D S x prev p with
  | zero => exact h
  | succ k ih =>
      have hload := h.load8 (i := m + 1) (k := S + 2) (by omega) (by omega)
      have hval := h.load8_val hd (i := m + 1) (k := S + 2) (by omega) (by omega) (by omega)
      have hnext := hload.store8 (v := prev >>> 32 ||| (x.load8 (S + 2)).1 <<< 32) hD (by
        rw [hp, hval, shifted_words])
      have hrest := ih hnext (by omega) (D := D + 2) (S := S + 2) (by omega) (by omega) hval
      rwa [show m + 2 + 2 * k = m + 2 * (k + 1) by omega] at hrest

theorem tail (h : Copying x₀ d s n m x) (hd : Apart d s n) (hm : m + k ≤ n) (hD : D = d + m)
    (hS : S = s + m) : Copying x₀ d s n (m + k) (copyTail k D S x) := by
  induction k generalizing m D S x with
  | zero => exact h
  | succ k ih =>
      have hrest := ih (h.one hd (by omega) hD hS) (by omega) (D := D + 1) (S := S + 1) (by omega)
        (by omega)
      rwa [Nat.add_assoc, Nat.add_comm 1 k] at hrest

theorem aligned (h : Copying x₀ d s n m x) (hd : Apart d s n) (hm : m + k = n) (hD : D = d + m)
    (hS : S = s + m) : Copying x₀ d s n n (copyAligned D S k x) := by
  unfold copyAligned
  split_ifs with heven hlong
  · have hwords := h.quads hd (k := k / 2) (by omega) hD hS
    have htail := hwords.tail hd (k := k - k / 2 * 2) (D := D + k / 2 * 2) (S := S + k / 2 * 2)
      (by omega) (by omega) (by omega)
    rwa [show m + 2 * (k / 2) + (k - k / 2 * 2) = n by omega] at htail
  · have hfirst : Copying x₀ d s n m (x.load8 (S - 1)).2 :=
      h.read (i := m) (by omega) (l := [S - 1, S - 1 + 1]) fun a ha => by
        rcases List.mem_cons.mp ha with rfl | ha
        · omega
        · obtain rfl := List.mem_singleton.mp ha
          omega
    have hval : (x.load8 (S - 1)).1 = word (x.mem (S - 1)) (x₀ (s + m)) := by
      refine congrArg (word _) ?_
      rw [show S - 1 + 1 = s + m by omega]
      exact h.source hd (by omega) (by omega)
    have hwords := hfirst.shifted hd (k := (k - 1) / 2) (S := S - 1) (by omega) hD (by omega) hval
    have htail := hwords.tail hd (k := k - (k - 1) / 2 * 2) (D := D + (k - 1) / 2 * 2)
      (S := S + (k - 1) / 2 * 2) (by omega) (by omega) (by omega)
    rwa [show m + 2 * ((k - 1) / 2) + (k - (k - 1) / 2 * 2) = n by omega] at htail
  · have htail := h.tail hd (k := k) (by omega) hD hS
    rwa [hm] at htail

theorem row (h : Copying x₀ d s n m x) (hd : Apart d s n) (hm : m + k = n) (hD : D = d + m)
    (hS : S = s + m) : Copying x₀ d s n n (copyRow D S k x) := by
  unfold copyRow
  split_ifs with hk hodd
  · obtain rfl : m = n := by omega
    exact h
  · exact (h.one hd (by omega) hD hS).aligned hd (by omega) (by omega) (by omega)
  · exact h.aligned hd hm hD hS

theorem block (h : Copying x₀ d s n m x) (hd : Apart d s n) (hm : m + 16 ≤ n) (hD : D = d + m)
    (hS : S = s + m) : Copying x₀ d s n (m + 16) (copyBlock D S x) := by
  constructor
  · subst hD hS
    rw [← overwrite_add, ← h.mem]
    funext a
    refine if_ctx_congr Iff.rfl (fun ha => ?_) fun _ => rfl
    rw [show s + m + (a - (d + m)) = s + (a - d) by omega]
    exact h.source hd (by omega) (by omega)
  · intro a ha
    rcases List.mem_append.mp ha with ha | ha
    · obtain ⟨i, hi, rfl⟩ := List.mem_map.mp ha
      have := List.mem_range.mp hi
      exact ⟨m + i, by omega, by rw [hS, Nat.add_assoc]⟩
    · exact h.reads a ha

theorem blocks (h : Copying x₀ d s n m x) (hd : Apart d s n) (hm : m + k * 16 ≤ n)
    (hD : D = d + m) (hS : S = s + m) : Copying x₀ d s n (m + k * 16) (copyBlocks k D S x) := by
  induction k generalizing m D S x with
  | zero => exact (Nat.zero_mul 16).symm ▸ h
  | succ k ih =>
      have hrest := ih (h.block hd (by omega) hD hS) (by omega) (D := D + 16) (S := S + 16)
        (by omega) (by omega)
      rwa [show m + 16 + k * 16 = m + (k + 1) * 16 by omega] at hrest

end Copying

/-- The first `m` pixels became what `f` makes of them, and nothing was read for it. -/
structure Mapping (f : UInt32 → UInt32) (x₀ : Nat → UInt32) (d m : Nat) (x : Px) : Prop where
  mem : x.mem = overwrite d m (fun a => f (x₀ a)) x₀
  reads : x.reads = []

namespace Mapping

variable {f : UInt32 → UInt32} {c : UInt32} {a : UInt64}

theorem start (f : UInt32 → UInt32) (x₀ : Nat → UInt32) (d : Nat) : Mapping f x₀ d 0 ⟨x₀, []⟩ :=
  ⟨overwrite_zero.symm, rfl⟩

theorem rest (h : Mapping f x₀ d m x) (hD : d + m ≤ D) : x.mem D = x₀ D := by
  rw [h.mem]
  exact if_neg fun hc => by omega

theorem store (h : Mapping f x₀ d m x) (hD : D = d + m) (hc : c = f (x₀ D)) :
    Mapping f x₀ d (m + 1) (x.store D c) := by
  refine ⟨?_, h.reads⟩
  subst hD
  rw [Px.store, h.mem, hc]
  exact update_over

theorem store8 (h : Mapping f x₀ d m x) (hD : D = d + m)
    (hlow : low v = f (x₀ D)) (hhigh : high v = f (x₀ (D + 1))) :
    Mapping f x₀ d (m + 2) (x.store8 D v) :=
  (h.store hD hlow).store (by omega) hhigh

theorem fillWords (h : Mapping (fun _ => c) x₀ d m x) (hD : D = d + m) :
    Mapping (fun _ => c) x₀ d (m + 2 * k) (fillWords (word c c) k D x) := by
  induction k generalizing m D x with
  | zero => exact h
  | succ k ih =>
      have hrest := ih (h.store8 hD (low_word c c) (high_word c c)) (D := D + 2) (by omega)
      rwa [show m + 2 + 2 * k = m + 2 * (k + 1) by omega] at hrest

theorem fillQuads (h : Mapping (fun _ => c) x₀ d m x) (hD : D = d + m) :
    Mapping (fun _ => c) x₀ d (m + 2 * k) (fillQuads (word c c) k D x) := by
  induction k using Nat.strong_induction_on generalizing m D x with
  | _ k ih =>
      rw [Plib.fillQuads]
      split_ifs with hk
      · have h2 := h.store8 hD (low_word c c) (high_word c c)
        have h4 := h2.store8 (D := D + 2) (by omega) (low_word c c) (high_word c c)
        have h6 := h4.store8 (D := D + 4) (by omega) (low_word c c) (high_word c c)
        have h8 := h6.store8 (D := D + 6) (by omega) (low_word c c) (high_word c c)
        have hrest := ih (k - 4) (by omega) h8 (D := D + 8) (by omega)
        rwa [show m + 2 + 2 + 2 + 2 + 2 * (k - 4) = m + 2 * k by omega] at hrest
      · exact h.fillWords hD

theorem fillAligned (h : Mapping (fun _ => c) x₀ d m x) (hD : D = d + m) :
    Mapping (fun _ => c) x₀ d (m + k) (fillAligned D k c x) := by
  have hwords := h.fillQuads (k := k / 2) hD
  unfold Plib.fillAligned
  by_cases hk : k % 2 ≠ 0
  · have hlast := hwords.store (D := D + (k - 1)) (c := c) (by omega) rfl
    rw [show m + 2 * (k / 2) + 1 = m + k by omega] at hlast
    exact (if_pos hk).symm ▸ hlast
  · rw [show m + 2 * (k / 2) = m + k by omega] at hwords
    exact (if_neg hk).symm ▸ hwords

theorem fillRow (h : Mapping (fun _ => c) x₀ d m x) (hD : D = d + m) :
    Mapping (fun _ => c) x₀ d (m + k) (fillRow D k c x) := by
  unfold Plib.fillRow
  split_ifs with hk
  · exact hk.symm ▸ h
  · have hrest := (h.store (c := c) hD rfl).fillAligned (k := k - 1) (D := D + 1) (by omega)
    rwa [show m + 1 + (k - 1) = m + k by omega] at hrest
  · exact h.fillAligned hD

theorem fillBlocks (h : Mapping (fun _ => c) x₀ d m x) (hD : D = d + m) :
    Mapping (fun _ => c) x₀ d (m + k * 16) (fillBlocks c k D x) := by
  induction k generalizing m D x with
  | zero => exact (Nat.zero_mul 16).symm ▸ h
  | succ k ih =>
      have hblock : Mapping (fun _ => c) x₀ d (m + 16)
          { x with mem := overwrite D 16 (fun _ => c) x.mem } :=
        ⟨by rw [h.mem, hD]; exact overwrite_add, h.reads⟩
      have hrest := ih hblock (D := D + 16) (by omega)
      rwa [show m + 16 + k * 16 = m + (k + 1) * 16 by omega] at hrest

theorem blendWords (hf : ∀ p q, low (blendWord c a (word p q)) = f p ∧
      high (blendWord c a (word p q)) = f q) (h : Mapping f x₀ d m x) (hD : D = d + m) :
    Mapping f x₀ d (m + 2 * k) (blendWords c a k D x) := by
  induction k generalizing m D x with
  | zero => exact h
  | succ k ih =>
      obtain ⟨hlow, hhigh⟩ := hf (x.mem D) (x.mem (D + 1))
      have hlow := hlow.trans (congrArg f (h.rest (D := D) (by omega)))
      have hhigh := hhigh.trans (congrArg f (h.rest (D := D + 1) (by omega)))
      have hrest := ih (h.store8 hD hlow hhigh) (D := D + 2) (by omega)
      rwa [show m + 2 + 2 * k = m + 2 * (k + 1) by omega] at hrest

theorem blendAligned (hf : ∀ p q, low (blendWord c a (word p q)) = f p ∧
      high (blendWord c a (word p q)) = f q) (h1 : ∀ p, blendOne c a p = f p)
    (h : Mapping f x₀ d m x) (hD : D = d + m) :
    Mapping f x₀ d (m + k) (blendAligned D k c a x) := by
  have hwords := h.blendWords hf (k := k / 2) hD
  unfold Plib.blendAligned
  by_cases hk : k % 2 ≠ 0
  · have hlast := hwords.store (D := D + (k - 1)) (by omega)
      ((h1 _).trans (congrArg f (hwords.rest (by omega))))
    rw [show m + 2 * (k / 2) + 1 = m + k by omega] at hlast
    exact (if_pos hk).symm ▸ hlast
  · rw [show m + 2 * (k / 2) = m + k by omega] at hwords
    exact (if_neg hk).symm ▸ hwords

end Mapping

/-- **`copy_px`** copies the `n` pixels, and reads no others but in a word that has one. -/
theorem copyPx_copies (aarch64 : Bool) (hd : Apart d s n) (x₀ : Nat → UInt32) :
    Copying x₀ d s n n (copyPx aarch64 d s n ⟨x₀, []⟩) := by
  have hstart := Copying.start x₀ d s n
  unfold copyPx
  split_ifs
  · exact (hstart.blocks hd (by omega) rfl rfl).row hd (by omega) (by omega) (by omega)
  · exact hstart.row hd (Nat.zero_add n) rfl rfl

end

/-! ### Lanes -/

theorem and_split (k n B : Nat) {A : Nat} (hA : A < 2 ^ k) :
    n &&& (2 ^ k * B + A) = 2 ^ k * (n / 2 ^ k &&& B) + (n % 2 ^ k &&& A) := by
  have hlow : n % 2 ^ k &&& A < 2 ^ k := Nat.lt_of_le_of_lt Nat.and_le_right hA
  refine Nat.eq_of_testBit_eq fun j => ?_
  rw [Nat.testBit_and, Nat.testBit_two_pow_mul_add _ hA, Nat.testBit_two_pow_mul_add _ hlow]
  split_ifs with hj
  · rw [Nat.testBit_and, Nat.testBit_mod_two_pow, decide_eq_true hj, Bool.true_and]
  · rw [Nat.testBit_and, Nat.testBit_div_two_pow, Nat.sub_add_cancel (Nat.le_of_not_lt hj)]

theorem and_ff (n : Nat) : n &&& 0xFF = n % 2 ^ 8 := Nat.and_two_pow_sub_one_eq_mod n 8

theorem and_rb (n : Nat) : n &&& 0xFF00FF = 2 ^ 16 * (n / 2 ^ 16 % 2 ^ 8) + n % 2 ^ 8 := by
  rw [show 0xFF00FF = 2 ^ 16 * 0xFF + 0xFF by rfl, and_split 16 n _ (by decide), and_ff, and_ff]
  omega

theorem and_g (n : Nat) : n &&& 0xFF00 = 2 ^ 8 * (n / 2 ^ 8 % 2 ^ 8) := by
  rw [show 0xFF00 = 2 ^ 8 * 0xFF + 0 by rfl, and_split 8 n _ (by decide), and_ff, Nat.and_zero]
  rfl

/-- What a channel of `p`, blended with that of `c`, comes to; it has sixteen bits. -/
def mixed (p c a k : Nat) : Nat := c / 2 ^ k % 2 ^ 8 * a + p / 2 ^ k % 2 ^ 8 * (256 - a)

theorem mixed_le {a : Nat} (ha : a ≤ 256) (p c k : Nat) : mixed p c a k ≤ 255 * 256 := by
  have hc : c / 2 ^ k % 2 ^ 8 ≤ 255 := Nat.le_of_lt_succ (Nat.mod_lt _ (by decide))
  have hp : p / 2 ^ k % 2 ^ 8 ≤ 255 := Nat.le_of_lt_succ (Nat.mod_lt _ (by decide))
  calc mixed p c a k ≤ 255 * a + 255 * (256 - a) :=
        Nat.add_le_add (Nat.mul_le_mul_right _ hc) (Nat.mul_le_mul_right _ hp)
    _ = 255 * 256 := by omega

/-- The pixel of the three channels. -/
def blended (p c a : Nat) : Nat :=
  2 ^ 16 * (mixed p c a 16 / 2 ^ 8) + 2 ^ 8 * (mixed p c a 8 / 2 ^ 8) + mixed p c a 0 / 2 ^ 8

theorem lanes_rb (p c a : Nat) : (c &&& 0xFF00FF) * a + (p &&& 0xFF00FF) * (256 - a) =
    2 ^ 16 * mixed p c a 16 + mixed p c a 0 := by
  rw [and_rb, and_rb, mixed, mixed, Nat.pow_zero, Nat.div_one, Nat.div_one]
  ring

theorem lanes_g (p c a : Nat) : (c &&& 0xFF00) * a + (p &&& 0xFF00) * (256 - a) =
    2 ^ 8 * mixed p c a 8 := by
  rw [and_g, and_g, mixed]
  ring

theorem or_disjoint {x y M N : UInt32} (h : M &&& N = 0) :
    x &&& M ||| y &&& N = (x &&& M) + (y &&& N) := by
  have hz : (x &&& M) &&& (y &&& N) = 0 := by
    rw [UInt32.and_assoc, ← UInt32.and_assoc M, UInt32.and_comm M, UInt32.and_assoc, h,
      UInt32.and_zero, UInt32.and_zero]
  exact UInt32.toBitVec_inj.mp
    (BitVec.add_eq_or_of_and_eq_zero _ _ (congrArg UInt32.toBitVec hz)).symm

theorem or_disjoint8 {x y M N : UInt64} (h : M &&& N = 0) :
    x &&& M ||| y &&& N = (x &&& M) + (y &&& N) := by
  have hz : (x &&& M) &&& (y &&& N) = 0 := by
    rw [UInt64.and_assoc, ← UInt64.and_assoc M, UInt64.and_comm M, UInt64.and_assoc, h,
      UInt64.and_zero, UInt64.and_zero]
  exact UInt64.toBitVec_inj.mp
    (BitVec.add_eq_or_of_and_eq_zero _ _ (congrArg UInt64.toBitVec hz)).symm

theorem toNat_mul_add {u a v b : UInt32} (h : u.toNat * a.toNat + v.toNat * b.toNat < 2 ^ 32) :
    (u * a + v * b).toNat = u.toNat * a.toNat + v.toNat * b.toNat := by
  rw [UInt32.toNat_add, UInt32.toNat_mul, UInt32.toNat_mul]
  omega

/-- `a + (a >> 7)`. -/
theorem toNat_alpha {a : UInt32} (ha : a.toNat ≤ 255) :
    (a + a >>> 7).toNat = a.toNat + a.toNat / 2 ^ 7 := by
  have hshift : (a >>> 7).toNat = a.toNat / 2 ^ 7 := by
    rw [UInt32.toNat_shiftRight]
    exact Nat.shiftRight_eq_div_pow _ 7
  rw [UInt32.toNat_add, hshift]
  omega

theorem blended_lt {a : Nat} (ha : a ≤ 256) (p c : Nat) : blended p c a < 2 ^ 24 := by
  have h16 := mixed_le ha p c 16
  have h8 := mixed_le ha p c 8
  have h0 := mixed_le ha p c 0
  unfold blended
  omega

theorem lanes_down {x y : Nat} (hx : x ≤ 255 * 256) (hy : y ≤ 255 * 256) :
    (2 ^ 16 * x + y) / 2 ^ 8 &&& 0xFF00FF = 2 ^ 16 * (x / 2 ^ 8) + y / 2 ^ 8 := by
  rw [and_rb]
  omega

/-- **`mix`**, in its three channels. -/
theorem toNat_mix (p c : UInt32) {a : UInt32} (ha : a.toNat ≤ 255) :
    (mix p c a &&& 0xFFFFFF).toNat = blended p.toNat c.toNat (a + a >>> 7).toNat := by
  have halpha := toNat_alpha ha
  rw [UInt32.toNat_and]
  change _ &&& (2 ^ 24 - 1) = _
  rw [Nat.and_two_pow_sub_one_eq_mod]
  unfold mix
  split_ifs with h255
  · have h : 255 ≤ a.toNat := h255
    have hfull : (a + a >>> 7).toNat = 256 := by omega
    rw [hfull]
    simp only [blended, mixed, Nat.sub_self, Nat.mul_zero, Nat.add_zero]
    omega
  · generalize a + a >>> 7 = a at *
    have hle : a.toNat ≤ 256 := by omega
    have hia : (256 - a).toNat = 256 - a.toNat := UInt32.toNat_sub_of_le 256 a hle
    have h16 := mixed_le hle p.toNat c.toNat 16
    have h8 := mixed_le hle p.toNat c.toNat 8
    have h0 := mixed_le hle p.toNat c.toNat 0
    have hrb : ((c &&& 0xFF00FF) * a + (p &&& 0xFF00FF) * (256 - a)).toNat =
        2 ^ 16 * mixed p.toNat c.toNat a.toNat 16 + mixed p.toNat c.toNat a.toNat 0 := by
      have hlanes := lanes_rb p.toNat c.toNat a.toNat
      have hc : (c &&& 0xFF00FF).toNat = c.toNat &&& 0xFF00FF := UInt32.toNat_and ..
      have hp : (p &&& 0xFF00FF).toNat = p.toNat &&& 0xFF00FF := UInt32.toNat_and ..
      rw [← hlanes, ← hc, ← hp, ← hia]
      refine toNat_mul_add ?_
      rw [hc, hp, hia, hlanes]
      omega
    have hg : ((c &&& 0x00FF00) * a + (p &&& 0x00FF00) * (256 - a)).toNat =
        2 ^ 8 * mixed p.toNat c.toNat a.toNat 8 := by
      have hlanes := lanes_g p.toNat c.toNat a.toNat
      have hc : (c &&& 0x00FF00).toNat = c.toNat &&& 0xFF00 := UInt32.toNat_and ..
      have hp : (p &&& 0x00FF00).toNat = p.toNat &&& 0xFF00 := UInt32.toNat_and ..
      rw [← hlanes, ← hc, ← hp, ← hia]
      refine toNat_mul_add ?_
      rw [hc, hp, hia, hlanes]
      omega
    rw [or_disjoint (by decide), UInt32.toNat_add, UInt32.toNat_and, UInt32.toNat_and,
      UInt32.toNat_shiftRight, UInt32.toNat_shiftRight, hrb, hg]
    change (((2 ^ 16 * mixed p.toNat c.toNat a.toNat 16 + mixed p.toNat c.toNat a.toNat 0) >>> 8 &&&
        0xFF00FF) +
      ((2 ^ 8 * mixed p.toNat c.toNat a.toNat 8) >>> 8 &&& 0xFF00)) % 2 ^ 32 % 2 ^ 24 = _
    rw [Nat.shiftRight_eq_div_pow, Nat.shiftRight_eq_div_pow, lanes_down h16 h0, and_g, blended]
    omega

theorem toNat_mul_add8 {u a v b : UInt64} (h : u.toNat * a.toNat + v.toNat * b.toNat < 2 ^ 64) :
    (u * a + v * b).toNat = u.toNat * a.toNat + v.toNat * b.toNat := by
  rw [UInt64.toNat_add, UInt64.toNat_mul, UInt64.toNat_mul]
  omega

theorem toNat_and_rb (v : UInt64) : (v &&& MASK_RB).toNat =
    2 ^ 32 * (v.toNat / 2 ^ 32 &&& 0xFF00FF) + (v.toNat % 2 ^ 32 &&& 0xFF00FF) := by
  rw [UInt64.toNat_and]
  exact and_split 32 _ 0xFF00FF (A := 0xFF00FF) (by decide)

theorem toNat_and_g (v : UInt64) : (v >>> 8 &&& MASK_G).toNat =
    2 ^ 32 * (v.toNat / 2 ^ 32 / 2 ^ 8 % 2 ^ 8) + v.toNat % 2 ^ 32 / 2 ^ 8 % 2 ^ 8 := by
  have hsplit := and_split 32 (v.toNat / 2 ^ 8) 0xFF (A := 0xFF) (by decide)
  rw [and_ff, and_ff] at hsplit
  rw [UInt64.toNat_and, UInt64.toNat_shiftRight]
  change v.toNat >>> 8 &&& (2 ^ 32 * 0xFF + 0xFF) = _
  rw [Nat.shiftRight_eq_div_pow, hsplit]
  omega

theorem lanes_down8 {x y z w : Nat} (hx : x ≤ 255 * 256) (hy : y ≤ 255 * 256)
    (hz : z ≤ 255 * 256) (hw : w ≤ 255 * 256) :
    2 ^ 32 * ((2 ^ 32 * (2 ^ 16 * x + y) + (2 ^ 16 * z + w)) / 2 ^ 8 / 2 ^ 32 &&& 0xFF00FF) +
        ((2 ^ 32 * (2 ^ 16 * x + y) + (2 ^ 16 * z + w)) / 2 ^ 8 % 2 ^ 32 &&& 0xFF00FF) =
      2 ^ 32 * (2 ^ 16 * (x / 2 ^ 8) + y / 2 ^ 8) + (2 ^ 16 * (z / 2 ^ 8) + w / 2 ^ 8) := by
  have hhigh (u v : Nat) (hv : v < 2 ^ 32) : (2 ^ 32 * u + v) / 2 ^ 8 / 2 ^ 32 = u / 2 ^ 8 := by
    omega
  have hlow (u v : Nat) (hv : v < 2 ^ 32) :
      ((2 ^ 32 * u + v) / 2 ^ 8 % 2 ^ 32) % 2 ^ 24 = v / 2 ^ 8 := by
    omega
  have hmask (n : Nat) : n &&& 0xFF00FF = n % 2 ^ 24 &&& 0xFF00FF := by
    rw [and_rb, and_rb]
    omega
  have hsmall : 2 ^ 16 * z + w < 2 ^ 32 := by omega
  rw [hhigh _ _ hsmall, hmask (_ % 2 ^ 32), hlow _ _ hsmall, lanes_down hx hy, lanes_down hz hw]

/-- **Two pixels at once**: no lane runs into the next. -/
theorem toNat_blendWord (c : UInt32) (v : UInt64) {a : UInt64} (ha : a.toNat ≤ 256) :
    (blendWord c a v).toNat = 2 ^ 32 * blended (v.toNat / 2 ^ 32) c.toNat a.toNat +
      blended (v.toNat % 2 ^ 32) c.toNat a.toNat := by
  have hia : (256 - a).toNat = 256 - a.toNat := UInt64.toNat_sub_of_le 256 a ha
  have hclt : c.toNat < 2 ^ 32 := c.toNat_lt
  have hword := toNat_word c c
  have hcc : (word c c).toNat / 2 ^ 32 = c.toNat ∧ (word c c).toNat % 2 ^ 32 = c.toNat := by
    omega
  have h16 (p : Nat) := mixed_le ha p c.toNat 16
  have h8 (p : Nat) := mixed_le ha p c.toNat 8
  have h0 (p : Nat) := mixed_le ha p c.toNat 0
  have hrb : ((v &&& MASK_RB) * ((256 : UInt64) - a) + (word c c &&& MASK_RB) * a).toNat =
      2 ^ 32 * (2 ^ 16 * mixed (v.toNat / 2 ^ 32) c.toNat a.toNat 16 +
        mixed (v.toNat / 2 ^ 32) c.toNat a.toNat 0) +
      (2 ^ 16 * mixed (v.toNat % 2 ^ 32) c.toNat a.toNat 16 +
        mixed (v.toNat % 2 ^ 32) c.toNat a.toNat 0) := by
    have hsum : (v &&& MASK_RB).toNat * ((256 : UInt64) - a).toNat +
        (word c c &&& MASK_RB).toNat * a.toNat =
        2 ^ 32 * (2 ^ 16 * mixed (v.toNat / 2 ^ 32) c.toNat a.toNat 16 +
          mixed (v.toNat / 2 ^ 32) c.toNat a.toNat 0) +
        (2 ^ 16 * mixed (v.toNat % 2 ^ 32) c.toNat a.toNat 16 +
          mixed (v.toNat % 2 ^ 32) c.toNat a.toNat 0) := by
      rw [toNat_and_rb, toNat_and_rb, hcc.1, hcc.2, hia, ← lanes_rb, ← lanes_rb]
      ring
    have hx := h16 (v.toNat / 2 ^ 32)
    have hy := h0 (v.toNat / 2 ^ 32)
    have hz := h16 (v.toNat % 2 ^ 32)
    have hw := h0 (v.toNat % 2 ^ 32)
    rw [toNat_mul_add8 (hsum ▸ by omega), hsum]
  have hg : ((v >>> 8 &&& MASK_G) * ((256 : UInt64) - a) + (word c c >>> 8 &&& MASK_G) * a).toNat =
      2 ^ 32 * mixed (v.toNat / 2 ^ 32) c.toNat a.toNat 8 +
        mixed (v.toNat % 2 ^ 32) c.toNat a.toNat 8 := by
    have hsum : (v >>> 8 &&& MASK_G).toNat * ((256 : UInt64) - a).toNat +
        (word c c >>> 8 &&& MASK_G).toNat * a.toNat =
        2 ^ 32 * mixed (v.toNat / 2 ^ 32) c.toNat a.toNat 8 +
          mixed (v.toNat % 2 ^ 32) c.toNat a.toNat 8 := by
      rw [toNat_and_g, toNat_and_g, hcc.1, hcc.2, hia, mixed, mixed]
      ring
    have hx := h8 (v.toNat / 2 ^ 32)
    have hy := h8 (v.toNat % 2 ^ 32)
    rw [toNat_mul_add8 (hsum ▸ by omega), hsum]
  have hx := h16 (v.toNat / 2 ^ 32)
  have hy := h0 (v.toNat / 2 ^ 32)
  have hz := h16 (v.toNat % 2 ^ 32)
  have hw := h0 (v.toNat % 2 ^ 32)
  have hgx := h8 (v.toNat / 2 ^ 32)
  have hgy := h8 (v.toNat % 2 ^ 32)
  have hred : (((v &&& MASK_RB) * ((256 : UInt64) - a) + (word c c &&& MASK_RB) * a) >>> 8 &&&
      MASK_RB).toNat = 2 ^ 32 * (2 ^ 16 * (mixed (v.toNat / 2 ^ 32) c.toNat a.toNat 16 / 2 ^ 8) +
        mixed (v.toNat / 2 ^ 32) c.toNat a.toNat 0 / 2 ^ 8) +
      (2 ^ 16 * (mixed (v.toNat % 2 ^ 32) c.toNat a.toNat 16 / 2 ^ 8) +
        mixed (v.toNat % 2 ^ 32) c.toNat a.toNat 0 / 2 ^ 8) := by
    rw [toNat_and_rb, UInt64.toNat_shiftRight, hrb]
    change 2 ^ 32 * ((_ >>> 8) / 2 ^ 32 &&& _) + ((_ >>> 8) % 2 ^ 32 &&& _) = _
    rw [Nat.shiftRight_eq_div_pow]
    exact lanes_down8 hx hy hz hw
  have hgreen : (((v >>> 8 &&& MASK_G) * ((256 : UInt64) - a) +
      (word c c >>> 8 &&& MASK_G) * a) &&& MASK_G <<< 8).toNat =
      2 ^ 32 * (2 ^ 8 * (mixed (v.toNat / 2 ^ 32) c.toNat a.toNat 8 / 2 ^ 8)) +
        2 ^ 8 * (mixed (v.toNat % 2 ^ 32) c.toNat a.toNat 8 / 2 ^ 8) := by
    rw [UInt64.toNat_and, hg]
    change _ &&& (2 ^ 32 * 0xFF00 + 0xFF00) = _
    rw [and_split 32 _ _ (by decide), and_g, and_g]
    omega
  have hsplit : blendWord c a v = (((v &&& MASK_RB) * ((256 : UInt64) - a) +
      (word c c &&& MASK_RB) * a) >>> 8 &&& MASK_RB) +
      (((v >>> 8 &&& MASK_G) * ((256 : UInt64) - a) + (word c c >>> 8 &&& MASK_G) * a) &&&
        MASK_G <<< 8) := or_disjoint8 (by decide)
  rw [hsplit, UInt64.toNat_add, hred, hgreen, blended, blended]
  omega

theorem blendWord_word (c : UInt32) {a : UInt64} (ha : a.toNat ≤ 256) (p q : UInt32) :
    (low (blendWord c a (word p q))).toNat = blended p.toNat c.toNat a.toNat ∧
      (high (blendWord c a (word p q))).toNat = blended q.toNat c.toNat a.toNat := by
  have hp : p.toNat < 2 ^ 32 := p.toNat_lt
  have hlo : (word p q).toNat % 2 ^ 32 = p.toNat := by
    rw [toNat_word]
    omega
  have hhi : (word p q).toNat / 2 ^ 32 = q.toNat := by
    rw [toNat_word]
    omega
  have h1 := blended_lt ha p.toNat c.toNat
  have h2 := blended_lt ha q.toNat c.toNat
  rw [toNat_low, toNat_high, toNat_blendWord c _ ha, hlo, hhi]
  omega

theorem word_zero (p : UInt32) : word p 0 = p.toUInt64 := by
  refine UInt64.toNat_inj.mp ?_
  rw [toNat_word, UInt32.toNat_toUInt64]
  exact Nat.zero_add _

/-- **`blend_px`** makes of each pixel what `mix` makes of it, in the three channels. -/
theorem blendPx_blends (d n : Nat) (c : UInt32) {a : UInt32} (ha : a.toNat ≤ 255)
    (x₀ : Nat → UInt32) :
    Mapping (fun p => mix p c a &&& 0xFFFFFF) x₀ d n (blendPx d n c a ⟨x₀, []⟩) := by
  have halpha := toNat_alpha ha
  have hle : (a + a >>> 7).toUInt64.toNat ≤ 256 := by
    rw [UInt32.toNat_toUInt64]
    omega
  have hval (p : UInt32) (v : UInt32) (hv : v.toNat = blended p.toNat c.toNat
      (a + a >>> 7).toUInt64.toNat) : v = mix p c a &&& 0xFFFFFF := by
    refine UInt32.toNat_inj.mp ?_
    rw [hv, toNat_mix p c ha, UInt32.toNat_toUInt64]
  have hword (p q : UInt32) : low (blendWord c (a + a >>> 7).toUInt64 (word p q)) =
        mix p c a &&& 0xFFFFFF ∧
      high (blendWord c (a + a >>> 7).toUInt64 (word p q)) = mix q c a &&& 0xFFFFFF :=
    ⟨hval p _ (blendWord_word c hle p q).1, hval q _ (blendWord_word c hle p q).2⟩
  have hone (p : UInt32) : blendOne c (a + a >>> 7).toUInt64 p = mix p c a &&& 0xFFFFFF := by
    rw [blendOne, ← word_zero p]
    exact (hword p 0).1
  have hstart := Mapping.start (fun p => mix p c a &&& 0xFFFFFF) x₀ d
  unfold blendPx
  simp only
  split_ifs with hn
  · exact hn.symm ▸ hstart
  · have hfirst := hstart.store (D := d) rfl (hone (x₀ d))
    have hrest := hfirst.blendAligned hword hone (k := n - 1) (D := d + 1) rfl
    rwa [show 0 + 1 + (n - 1) = n by omega] at hrest
  · have hrest := hstart.blendAligned hword hone (k := n) rfl
    rwa [Nat.zero_add] at hrest

/-- **`fill_px`** sets each pixel. -/
theorem fillPx_fills (aarch64 : Bool) (d n : Nat) (c : UInt32) (x₀ : Nat → UInt32) :
    Mapping (fun _ => c) x₀ d n (fillPx aarch64 d n c ⟨x₀, []⟩) := by
  have hstart := Mapping.start (fun _ => c) x₀ d
  unfold fillPx
  split_ifs
  · have hrest := (hstart.fillBlocks (k := n / 16) rfl).fillRow (k := n - n / 16 * 16)
      (D := d + n / 16 * 16) (by omega)
    rwa [show 0 + n / 16 * 16 + (n - n / 16 * 16) = n by omega] at hrest
  · have hrest := hstart.fillRow (k := n) rfl
    rwa [Nat.zero_add] at hrest

/-- **The rows of pixels**: each of the three routines does to the `n` pixels what the definition
for one pixel says, and to no other; `copy_px` reads no pixel beside those of the source, but in an
aligned word that has one. -/
theorem packed_pixel_rows (aarch64 : Bool) {d s n : Nat} (hd : Apart d s n) (c : UInt32)
    {a : UInt32} (ha : a.toNat ≤ 255) (x₀ : Nat → UInt32) :
    ((copyPx aarch64 d s n ⟨x₀, []⟩).mem = overwrite d n (fun p => x₀ (s + (p - d))) x₀ ∧
      ∀ p ∈ (copyPx aarch64 d s n ⟨x₀, []⟩).reads, ∃ i < n, p / 2 = (s + i) / 2) ∧
    ((fillPx aarch64 d n c ⟨x₀, []⟩).mem = overwrite d n (fun _ => c) x₀ ∧
      (fillPx aarch64 d n c ⟨x₀, []⟩).reads = []) ∧
    ((blendPx d n c a ⟨x₀, []⟩).mem = overwrite d n (fun p => mix (x₀ p) c a &&& 0xFFFFFF) x₀ ∧
      (blendPx d n c a ⟨x₀, []⟩).reads = []) := by
  have hcopy := copyPx_copies aarch64 hd x₀
  have hfill := fillPx_fills aarch64 d n c x₀
  have hblend := blendPx_blends d n c ha x₀
  exact ⟨⟨hcopy.mem, hcopy.reads⟩, ⟨hfill.mem, hfill.reads⟩, hblend.mem, hblend.reads⟩

/-- Five pixels, from an odd one to an even one. -/
theorem packed_pixel_rows_five :
    (copyPx false 10 3 5 ⟨fun a => .ofNat a, []⟩).mem 13 = 6 ∧
      (blendPx 10 5 0xFF0000 128 ⟨fun _ => 0x0000FF, []⟩).mem 12 = 0x80007E := by
  obtain ⟨⟨hcopy, -⟩, -, -⟩ := packed_pixel_rows false (show Apart 10 3 5 from .inr (by decide))
    0xFF0000 (show (128 : UInt32).toNat ≤ 255 by decide) fun a => .ofNat a
  obtain ⟨-, -, hblend, -⟩ := packed_pixel_rows false (show Apart 10 3 5 from .inr (by decide))
    0xFF0000 (show (128 : UInt32).toNat ≤ 255 by decide) fun _ => 0x0000FF
  rw [hcopy, hblend]
  exact ⟨by decide, by decide⟩

end Pulsar.Plib

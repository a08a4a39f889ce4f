import Mathlib.Data.List.Basic
import Mathlib.Algebra.Ring.Nat
import Mathlib.Order.Monotone.Basic
import Mathlib.Tactic.Common

/-!
# Text in UTF-8 (`plib/src/lib.rs`, `plib/src/text.rs`)

`utf8_encode` writes a character, and `next_char` reads one at a position: what is not well formed
is read as `?`, and reading goes on behind the part that was understood.  `width` and `fit` measure
text by the characters that are read of it.

* `nextChar_bounds`: reading goes forward, and stays in the text.
* `decode_encode_iff`: text that was written is read back if its characters are below `0x10000`.
* `fit_longest_iff`: `fit` is the longest prefix that is no wider than the limit.
* **`text_iff`**: both at once; `encode_lost` is a character that is not read back.
-/

namespace Pulsar.Plib

/-- `utf8_encode(cp, out)`: the bytes that were written. -/
def utf8Encode (cp : UInt32) : List UInt8 :=
  if cp < 0x80 then [cp.toUInt8]
  else if cp < 0x800 then
    [(0xC0 : UInt8) ||| (cp >>> 6).toUInt8, (0x80 : UInt8) ||| (cp &&& 0x3F).toUInt8]
  else [(0xE0 : UInt8) ||| (cp >>> 12).toUInt8, (0x80 : UInt8) ||| (cp >>> 6 &&& 0x3F).toUInt8,
    (0x80 : UInt8) ||| (cp &&& 0x3F).toUInt8]

/-- `'?'`. -/
def QUESTION : UInt32 := 63

/-- The loop over the `n` bytes that go on with a character. -/
def follow (s : List UInt8) : Nat → UInt32 → Nat → UInt32 × Nat
  | 0, cp, i => (cp, i)
  | n + 1, cp, i =>
    if h : i < s.length then
      if s[i] &&& 0xC0 ≠ 0x80 then (QUESTION, i)
      else follow s n (cp <<< 6 ||| (s[i] &&& 0x3F).toUInt32) (i + 1)
    else (QUESTION, i)

/-- `next_char(s, i)`: the character, and where the next is. -/
def nextChar (s : List UInt8) (i : Nat) (h : i < s.length) : UInt32 × Nat :=
  if s[i] < 0x80 then (s[i].toUInt32, i + 1)
  else if s[i] &&& 0xE0 = 0xC0 then follow s 1 (s[i] &&& 0x1F).toUInt32 (i + 1)
  else if s[i] &&& 0xF0 = 0xE0 then follow s 2 (s[i] &&& 0x0F).toUInt32 (i + 1)
  else if s[i] &&& 0xF8 = 0xF0 then follow s 3 (s[i] &&& 0x07).toUInt32 (i + 1)
  else (QUESTION, i + 1)

/-- `char_count(s)`. -/
def charCount (s : List UInt8) : Nat := (s.filter fun b => b &&& 0xC0 ≠ 0x80).length

/-! ### Reading goes forward -/

variable {s t : List UInt8} {i n : Nat} {cp : UInt32}

theorem follow_bounds (s : List UInt8) (n : Nat) (cp : UInt32) (hi : i ≤ s.length) :
    i ≤ (follow s n cp i).2 ∧ (follow s n cp i).2 ≤ s.length := by
  induction n generalizing cp i with
  | zero => exact ⟨Nat.le_refl i, hi⟩
  | succ n ih =>
      unfold follow
      split_ifs with h hc
      · exact ⟨Nat.le_refl i, hi⟩
      · obtain ⟨hle, hlen⟩ := ih (cp <<< 6 ||| (s[i] &&& 0x3F).toUInt32) (Nat.succ_le_of_lt h)
        exact ⟨Nat.le_of_succ_le hle, hlen⟩
      · exact ⟨Nat.le_refl i, hi⟩

/-- **Reading goes forward**, by a byte at least, and not beyond the text. -/
theorem nextChar_bounds (h : i < s.length) :
    i < (nextChar s i h).2 ∧ (nextChar s i h).2 ≤ s.length := by
  have hfollow (n : Nat) (cp : UInt32) := follow_bounds s n cp (Nat.succ_le_of_lt h)
  unfold nextChar
  split_ifs
  · exact ⟨Nat.lt_succ_self i, h⟩
  · exact hfollow 1 _
  · exact hfollow 2 _
  · exact hfollow 3 _
  · exact ⟨Nat.lt_succ_self i, h⟩

/-- All characters from position `i` on. -/
def decodeFrom (s : List UInt8) (i : Nat) : List UInt32 :=
  if h : i < s.length then (nextChar s i h).1 :: decodeFrom s (nextChar s i h).2 else []
termination_by s.length - i
decreasing_by
  have := nextChar_bounds h
  omega

def decode (s : List UInt8) : List UInt32 := decodeFrom s 0

/-- The bytes of a list of characters. -/
def encode (l : List Char) : List UInt8 := l.flatMap fun c => utf8Encode c.val

/-! ### Widths -/

/-- `Font`: how far each of its glyphs moves the pen.  In none of the fonts of `fonts.rs` does a glyph
move it back. -/
structure Font where
  adv : List Nat
  length_adv : adv.length = 191
  adv_le : ∀ a ∈ adv, a < 2 ^ 15

namespace Font

/-- `Font::index(cp)`. -/
def index (cp : Nat) : Nat :=
  if 32 ≤ cp ∧ cp ≤ 126 then cp - 32
  else if 160 ≤ cp ∧ cp ≤ 255 then cp - 160 + 95
  else if 0x2010 ≤ cp ∧ cp ≤ 0x2015 ∨ cp = 0x2212 then 45 - 32
  else if 0x2018 ≤ cp ∧ cp ≤ 0x201B then 39 - 32
  else if 0x201C ≤ cp ∧ cp ≤ 0x201F then 34 - 32
  else if cp = 0x2022 ∨ cp = 0x2026 then 0xB7 - 160 + 95
  else 63 - 32

theorem index_lt (f : Font) (cp : Nat) : index cp < f.adv.length := by
  rw [f.length_adv]
  unfold index
  split_ifs <;> omega

def charWidth (f : Font) (cp : UInt32) : Nat := f.adv.get ⟨index cp.toNat, f.index_lt _⟩

theorem charWidth_lt (f : Font) (cp : UInt32) : f.charWidth cp < 2 ^ 15 :=
  f.adv_le _ (List.get_mem ..)

end Font

/-- A sum of `i32`, which goes around. -/
def i32 (x : Int) : Int := x.bmod (2 ^ 32)

/-- The loop of `width`. -/
def widthFrom (f : Font) (s : List UInt8) (i : Nat) (w : Int) : Int :=
  if h : i < s.length then
    widthFrom f s (nextChar s i h).2 (i32 (w + f.charWidth (nextChar s i h).1))
  else w
termination_by s.length - i
decreasing_by
  have := nextChar_bounds h
  omega

/-- `width(s)`. -/
def width (f : Font) (s : List UInt8) : Int := widthFrom f s 0 0

/-- The loop of `fit`. -/
def fitFrom (f : Font) (s : List UInt8) (maxW : Int32) (i : Nat) (w : Int) : Nat :=
  if h : i < s.length then
    if maxW.toInt < i32 (w + f.charWidth (nextChar s i h).1) then i
    else fitFrom f s maxW (nextChar s i h).2 (i32 (w + f.charWidth (nextChar s i h).1))
  else s.length
termination_by s.length - i
decreasing_by
  have := nextChar_bounds h
  omega

/-- `fit(s, max_w)`. -/
def fit (f : Font) (s : List UInt8) (maxW : Int32) : Nat := fitFrom f s maxW 0 0

/-! ### What it is for -/

/-- Where the text may be cut: behind its first `k` characters. -/
def cutAt (s : List UInt8) : Nat → Nat
  | 0 => 0
  | k + 1 => if h : cutAt s k < s.length then (nextChar s (cutAt s k) h).2 else cutAt s k

/-- The width of a text, as a number. -/
def textWidth (f : Font) (s : List UInt8) : Nat := ((decode s).map f.charWidth).sum

/-- The longest prefix that is no wider than the limit; the empty one, if none is. -/
structure Longest (f : Font) (s : List UInt8) (maxW : Int32) (n : Nat) : Prop where
  cut : ∃ k, cutAt s k = n
  fits : (textWidth f (s.take n) : Int) ≤ maxW.toInt ∨ n = 0
  longest : ∀ k, (textWidth f (s.take (cutAt s k)) : Int) ≤ maxW.toInt → cutAt s k ≤ n

/-- The first prefix that is wider than the limit is narrower than `2 ^ 31`. -/
def Narrow (f : Font) (s : List UInt8) (maxW : Int32) : Prop :=
  ∀ k, (textWidth f (s.take (cutAt s k)) : Int) ≤ maxW.toInt →
    textWidth f (s.take (cutAt s (k + 1))) < 2 ^ 31

/-! ### Reading what was written -/

theorem follow_append (p s : List UInt8) (n : Nat) (cp : UInt32) (i : Nat) :
    follow (p ++ s) n cp (p.length + i) =
      ((follow s n cp i).1, p.length + (follow s n cp i).2) := by
  induction n generalizing cp i with
  | zero => rfl
  | succ n ih =>
      have hlen : p.length + i < (p ++ s).length ↔ i < s.length := by
        rw [List.length_append]
        omega
      unfold follow
      by_cases h : i < s.length
      · have hlt := hlen.mpr h
        have hget : (p ++ s)[p.length + i] = s[i] := by
          rw [List.getElem_append_right (Nat.le_add_right _ _)]
          simp only [Nat.add_sub_cancel_left]
        rw [dif_pos h, dif_pos hlt, hget]
        split_ifs
        · rfl
        · exact ih _ (i + 1)
      · rw [dif_neg h, dif_neg (mt hlen.mp h)]

theorem nextChar_append (p : List UInt8) (h : i < s.length) (h' : p.length + i < (p ++ s).length) :
    nextChar (p ++ s) (p.length + i) h' =
      ((nextChar s i h).1, p.length + (nextChar s i h).2) := by
  have hget : (p ++ s)[p.length + i] = s[i] := by
    rw [List.getElem_append_right (Nat.le_add_right _ _)]
    simp only [Nat.add_sub_cancel_left]
  unfold nextChar
  rw [hget]
  split_ifs
  · rfl
  · exact follow_append p s 1 _ (i + 1)
  · exact follow_append p s 2 _ (i + 1)
  · exact follow_append p s 3 _ (i + 1)
  · rfl

section

variable {b : UInt8}

theorem follow_tail (b : UInt8) (s : List UInt8) (n : Nat) (cp : UInt32) :
    follow (b :: s) n cp 1 = ((follow s n cp 0).1, (follow s n cp 0).2 + 1) := by
  rw [Nat.add_comm]
  exact follow_append [b] s n cp 0

theorem follow_cons (hb : b &&& 0xC0 = 0x80) (s : List UInt8) (n : Nat) (cp : UInt32) :
    follow (b :: s) (n + 1) cp 0 =
      ((follow s n (cp <<< 6 ||| (b &&& 0x3F).toUInt32) 0).1,
        (follow s n (cp <<< 6 ||| (b &&& 0x3F).toUInt32) 0).2 + 1) := by
  have hpos : 0 < (b :: s).length := Nat.succ_pos _
  rw [← follow_tail b, follow, dif_pos hpos]
  exact if_neg (not_not_intro hb)

theorem follow_stop (hb : ∀ b ∈ s.head?, b &&& 0xC0 ≠ 0x80) (n : Nat) (cp : UInt32) :
    follow s (n + 1) cp 0 = (QUESTION, 0) := by
  rw [follow]
  cases s with
  | nil => rfl
  | cons b s =>
      have hpos : 0 < (b :: s).length := Nat.succ_pos _
      rw [dif_pos hpos]
      exact if_pos (hb b rfl)

end

theorem forall_u8 {P : UInt8 → Prop} (h : ∀ n : Fin 256, P (UInt8.ofNat n)) (b : UInt8) : P b := by
  have := h ⟨b.toNat, b.toNat_lt⟩
  rwa [UInt8.ofNat_toNat] at this

theorem cont_byte (y : UInt8) (hy : y < 64) :
    ((0x80 : UInt8) ||| y) &&& 0xC0 = 0x80 ∧ ((0x80 : UInt8) ||| y) &&& 0x3F = y :=
  forall_u8 (P := fun y => y < 64 →
    ((0x80 : UInt8) ||| y) &&& 0xC0 = 0x80 ∧ ((0x80 : UInt8) ||| y) &&& 0x3F = y)
    (by decide +kernel) y hy

theorem lead_two (x : UInt8) (hx : x < 32) : ¬ (0xC0 : UInt8) ||| x < 0x80 ∧
    ((0xC0 : UInt8) ||| x) &&& 0xE0 = 0xC0 ∧ ((0xC0 : UInt8) ||| x) &&& 0x1F = x :=
  forall_u8 (P := fun x => x < 32 → ¬ (0xC0 : UInt8) ||| x < 0x80 ∧
    ((0xC0 : UInt8) ||| x) &&& 0xE0 = 0xC0 ∧ ((0xC0 : UInt8) ||| x) &&& 0x1F = x)
    (by decide +kernel) x hx

theorem lead_three (x : UInt8) (hx : x < 16) : ¬ (0xE0 : UInt8) ||| x < 0x80 ∧
    ((0xE0 : UInt8) ||| x) &&& 0xE0 ≠ 0xC0 ∧ ((0xE0 : UInt8) ||| x) &&& 0xF0 = 0xE0 ∧
    ((0xE0 : UInt8) ||| x) &&& 0x0F = x :=
  forall_u8 (P := fun x => x < 16 → ¬ (0xE0 : UInt8) ||| x < 0x80 ∧
    ((0xE0 : UInt8) ||| x) &&& 0xE0 ≠ 0xC0 ∧ ((0xE0 : UInt8) ||| x) &&& 0xF0 = 0xE0 ∧
    ((0xE0 : UInt8) ||| x) &&& 0x0F = x) (by decide +kernel) x hx

theorem toNat_joined {x y : UInt32} (hx : x.toNat < 2 ^ 26) (hy : y.toNat < 2 ^ 6) :
    (x <<< 6 ||| y).toNat = x.toNat * 2 ^ 6 + y.toNat := by
  have hlt : x.toNat <<< 6 < 2 ^ 32 := by
    rw [Nat.shiftLeft_eq]
    omega
  rw [UInt32.toNat_or, UInt32.toNat_shiftLeft]
  change x.toNat <<< 6 % 2 ^ 32 ||| y.toNat = _
  rw [Nat.mod_eq_of_lt hlt, ← Nat.shiftLeft_add_eq_or_of_lt hy, Nat.shiftLeft_eq]

theorem toUInt8_lt {x : UInt32} {k : Nat} (hx : x.toNat < k) (hk : k ≤ 2 ^ 8) :
    x.toUInt8.toUInt32 = x ∧ x.toUInt8.toNat < k := by
  have hmod : x.toUInt8.toNat = x.toNat := Nat.mod_eq_of_lt (Nat.lt_of_lt_of_le hx hk)
  refine ⟨UInt32.toNat_inj.mp ?_, hmod ▸ hx⟩
  rw [UInt8.toNat_toUInt32, hmod]

theorem toNat_sixBits (cp : UInt32) : (cp &&& 0x3F).toNat = cp.toNat % 2 ^ 6 := by
  rw [UInt32.toNat_and]
  exact Nat.and_two_pow_sub_one_eq_mod _ 6

theorem toNat_down (cp : UInt32) (k : UInt32) (hk : k.toNat < 32) :
    (cp >>> k).toNat = cp.toNat / 2 ^ k.toNat := by
  rw [UInt32.toNat_shiftRight, Nat.mod_eq_of_lt hk, Nat.shiftRight_eq_div_pow]

theorem utf8Encode_one (h : cp.toNat < 0x80) : utf8Encode cp = [cp.toUInt8] := if_pos h

theorem utf8Encode_two (h : ¬ cp.toNat < 0x80) (h' : cp.toNat < 0x800) :
    utf8Encode cp = [(0xC0 : UInt8) ||| (cp >>> 6).toUInt8,
      (0x80 : UInt8) ||| (cp &&& 0x3F).toUInt8] :=
  (if_neg h).trans (if_pos h')

theorem utf8Encode_three (h : ¬ cp.toNat < 0x800) :
    utf8Encode cp = [(0xE0 : UInt8) ||| (cp >>> 12).toUInt8,
      (0x80 : UInt8) ||| (cp >>> 6 &&& 0x3F).toUInt8, (0x80 : UInt8) ||| (cp &&& 0x3F).toUInt8] :=
  (if_neg fun hc : cp.toNat < 0x80 => h (by omega)).trans (if_neg h)

theorem follow_zero (s : List UInt8) (cp : UInt32) (i : Nat) : follow s 0 cp i = (cp, i) := rfl

theorem nextChar_one {b : UInt8} (h : b < 0x80) (t : List UInt8) (h0 : 0 < (b :: t).length) :
    nextChar (b :: t) 0 h0 = (b.toUInt32, 1) := if_pos h

theorem nextChar_two {b : UInt8} (h : ¬ b < 0x80) (h2 : b &&& 0xE0 = 0xC0) (t : List UInt8)
    (h0 : 0 < (b :: t).length) : nextChar (b :: t) 0 h0 =
      ((follow t 1 (b &&& 0x1F).toUInt32 0).1, (follow t 1 (b &&& 0x1F).toUInt32 0).2 + 1) :=
  (if_neg h).trans ((if_pos h2).trans (follow_tail b t 1 _))

theorem nextChar_three {b : UInt8} (h : ¬ b < 0x80) (h2 : b &&& 0xE0 ≠ 0xC0)
    (h3 : b &&& 0xF0 = 0xE0) (t : List UInt8) (h0 : 0 < (b :: t).length) : nextChar (b :: t) 0 h0 =
      ((follow t 2 (b &&& 0x0F).toUInt32 0).1, (follow t 2 (b &&& 0x0F).toUInt32 0).2 + 1) :=
  (if_neg h).trans ((if_neg h2).trans ((if_pos h3).trans (follow_tail b t 2 _)))

/-- **A character that was written** is read back, if it is below `0x10000`. -/
theorem nextChar_encode (hcp : cp.toNat < 0x10000) (t : List UInt8)
    (h : 0 < (utf8Encode cp ++ t).length) :
    nextChar (utf8Encode cp ++ t) 0 h = (cp, (utf8Encode cp).length) := by
  have hlow : (cp &&& 0x3F).toNat < 2 ^ 6 := toNat_sixBits cp ▸ Nat.mod_lt _ (by decide)
  obtain ⟨hy, hylt⟩ := toUInt8_lt hlow (by decide)
  obtain ⟨hcont, hrest⟩ := cont_byte _ hylt
  have h6 : (cp >>> 6).toNat = cp.toNat / 2 ^ 6 := toNat_down cp 6 (by decide)
  have hjoin : (cp >>> 6) <<< 6 ||| (cp &&& 0x3F) = cp := UInt32.toNat_inj.mp (by
    rw [toNat_joined (by omega) hlow, toNat_sixBits, h6]
    omega)
  by_cases h1 : cp.toNat < 0x80
  · obtain ⟨hx, hxlt⟩ := toUInt8_lt h1 (by decide)
    simp only [utf8Encode_one h1]
    exact (nextChar_one hxlt t _).trans (congrArg (·, 1) hx)
  by_cases h2 : cp.toNat < 0x800
  · have hhigh : (cp >>> 6).toNat < 2 ^ 5 := by omega
    obtain ⟨hx, hxlt⟩ := toUInt8_lt hhigh (by decide)
    obtain ⟨hl1, hl2, hl3⟩ := lead_two _ hxlt
    simp only [utf8Encode_two h1 h2]
    refine (nextChar_two hl1 hl2 (_ :: t) _).trans ?_
    simp only [follow_cons hcont, follow_zero, hl3, hrest, hx, hy, hjoin, List.length_cons,
      List.length_nil]
  · have h12 : (cp >>> 12).toNat = cp.toNat / 2 ^ 12 := toNat_down cp 12 (by decide)
    have hhigh : (cp >>> 12).toNat < 2 ^ 4 := by omega
    have hmid : (cp >>> 6 &&& 0x3F).toNat < 2 ^ 6 := toNat_sixBits _ ▸ Nat.mod_lt _ (by decide)
    obtain ⟨hx, hxlt⟩ := toUInt8_lt hhigh (by decide)
    obtain ⟨hz, hzlt⟩ := toUInt8_lt hmid (by decide)
    obtain ⟨hl1, hl2, hl3, hl4⟩ := lead_three _ hxlt
    obtain ⟨hcont', hrest'⟩ := cont_byte _ hzlt
    have hjoin' : (cp >>> 12) <<< 6 ||| (cp >>> 6 &&& (0x3F : UInt32)) = cp >>> 6 :=
      UInt32.toNat_inj.mp (by
      rw [toNat_joined (by omega) hmid, toNat_sixBits, h6, h12]
      omega)
    simp only [utf8Encode_three h2]
    refine (nextChar_three hl1 hl2 hl3 (_ :: _ :: t) _).trans ?_
    simp only [follow_cons hcont', follow_cons hcont, follow_zero, hl4, hrest, hrest', hx, hy, hz,
      hjoin, hjoin', List.length_cons, List.length_nil]

theorem nextChar_four {b : UInt8} (h : ¬ b < 0x80) (h2 : b &&& 0xE0 ≠ 0xC0)
    (h3 : b &&& 0xF0 ≠ 0xE0) (h4 : b &&& 0xF8 = 0xF0) (t : List UInt8)
    (h0 : 0 < (b :: t).length) : nextChar (b :: t) 0 h0 =
      ((follow t 3 (b &&& 0x07).toUInt32 0).1, (follow t 3 (b &&& 0x07).toUInt32 0).2 + 1) :=
  (if_neg h).trans ((if_neg h2).trans ((if_neg h3).trans ((if_pos h4).trans
    (follow_tail b t 3 _))))

theorem nextChar_other {b : UInt8} (h : ¬ b < 0x80) (h2 : b &&& 0xE0 ≠ 0xC0)
    (h3 : b &&& 0xF0 ≠ 0xE0) (h4 : b &&& 0xF8 ≠ 0xF0) (t : List UInt8)
    (h0 : 0 < (b :: t).length) : nextChar (b :: t) 0 h0 = (QUESTION, 1) :=
  (if_neg h).trans ((if_neg h2).trans ((if_neg h3).trans (if_neg h4)))

theorem lead_any (x : UInt8) : ¬ (0xE0 : UInt8) ||| x < 0x80 ∧
    ((0xE0 : UInt8) ||| x) &&& 0xE0 ≠ 0xC0 ∧ ((0xE0 : UInt8) ||| x) &&& 0xC0 ≠ 0x80 ∧
    ((0xC0 : UInt8) ||| x) &&& 0xC0 ≠ 0x80 ∧ (x &&& 0x0F).toNat < 2 ^ 4 ∧
    (x < 0x80 → x &&& 0xC0 ≠ 0x80) :=
  forall_u8 (P := fun x => ¬ (0xE0 : UInt8) ||| x < 0x80 ∧
    ((0xE0 : UInt8) ||| x) &&& 0xE0 ≠ 0xC0 ∧ ((0xE0 : UInt8) ||| x) &&& 0xC0 ≠ 0x80 ∧
    ((0xC0 : UInt8) ||| x) &&& 0xC0 ≠ 0x80 ∧ (x &&& 0x0F).toNat < 2 ^ 4 ∧
    (x < 0x80 → x &&& 0xC0 ≠ 0x80)) (by decide +kernel) x

/-- **A character from `0x10000` on** is not read back: three bytes are too few for it. -/
theorem nextChar_lost (hcp : 0x10000 ≤ cp.toNat) (ht : ∀ b ∈ t.head?, b &&& 0xC0 ≠ 0x80)
    (h : 0 < (utf8Encode cp ++ t).length) : (nextChar (utf8Encode cp ++ t) 0 h).1 ≠ cp := by
  have hlow : (cp &&& 0x3F).toNat < 2 ^ 6 := toNat_sixBits cp ▸ Nat.mod_lt _ (by decide)
  have hmid : (cp >>> 6 &&& 0x3F).toNat < 2 ^ 6 := toNat_sixBits _ ▸ Nat.mod_lt _ (by decide)
  obtain ⟨hy, hylt⟩ := toUInt8_lt hlow (by decide)
  obtain ⟨hz, hzlt⟩ := toUInt8_lt hmid (by decide)
  obtain ⟨hcont, hrest⟩ := cont_byte _ hylt
  obtain ⟨hcont', hrest'⟩ := cont_byte _ hzlt
  obtain ⟨hl1, hl2, -⟩ := lead_any (cp >>> 12).toUInt8
  have hquestion : QUESTION ≠ cp := fun hc => by
    rw [← hc] at hcp
    exact absurd hcp (by decide)
  simp only [utf8Encode_three (show ¬ cp.toNat < 0x800 by omega)]
  by_cases h3 : ((0xE0 : UInt8) ||| (cp >>> 12).toUInt8) &&& 0xF0 = 0xE0
  · refine fun hc => absurd ((congrArg Prod.fst
      (nextChar_three hl1 hl2 h3 (_ :: _ :: t) _)).symm.trans hc) fun hval => ?_
    simp only [follow_cons hcont', follow_cons hcont, follow_zero, hrest, hrest', hy, hz] at hval
    have hlead : (((0xE0 : UInt8) ||| (cp >>> 12).toUInt8) &&& 0x0F).toUInt32.toNat < 2 ^ 4 :=
      (lead_any _).2.2.2.2.1
    generalize (((0xE0 : UInt8) ||| (cp >>> 12).toUInt8) &&& 0x0F).toUInt32 = x at *
    have hin := toNat_joined (x := x) (by omega) hmid
    have hout := toNat_joined (x := x <<< 6 ||| (cp >>> 6 &&& (0x3F : UInt32))) (by omega) hlow
    rw [hval] at hout
    omega
  by_cases h4 : ((0xE0 : UInt8) ||| (cp >>> 12).toUInt8) &&& 0xF8 = 0xF0
  · refine fun hc => absurd ((congrArg Prod.fst
      (nextChar_four hl1 hl2 h3 h4 (_ :: _ :: t) _)).symm.trans hc) fun hval => ?_
    simp only [follow_cons hcont', follow_cons hcont, follow_stop ht] at hval
    exact hquestion hval
  · exact fun hc => hquestion ((congrArg Prod.fst
      (nextChar_other hl1 hl2 h3 h4 (_ :: _ :: t) _)).symm.trans hc)

/-! ### Lists of characters -/

theorem utf8Encode_cases (cp : UInt32) : (cp.toNat < 0x80 ∧ utf8Encode cp = [cp.toUInt8]) ∨
    (∃ x y : UInt8, y < 64 ∧ utf8Encode cp = [(0xC0 : UInt8) ||| x, (0x80 : UInt8) ||| y]) ∨
    ∃ x y z : UInt8, y < 64 ∧ z < 64 ∧
      utf8Encode cp = [(0xE0 : UInt8) ||| x, (0x80 : UInt8) ||| y, (0x80 : UInt8) ||| z] := by
  have hlow (x : UInt32) : (x &&& 0x3F).toUInt8 < 64 :=
    (toUInt8_lt (toNat_sixBits x ▸ Nat.mod_lt _ (by decide)) (by decide)).2
  by_cases h1 : cp.toNat < 0x80
  · exact .inl ⟨h1, utf8Encode_one h1⟩
  by_cases h2 : cp.toNat < 0x800
  · exact .inr (.inl ⟨_, _, hlow cp, utf8Encode_two h1 h2⟩)
  · exact .inr (.inr ⟨_, _, _, hlow _, hlow cp, utf8Encode_three h2⟩)

theorem encode_cons (c : Char) (l : List Char) : encode (c :: l) = utf8Encode c.val ++ encode l :=
  List.flatMap_cons

theorem utf8Encode_pos (cp : UInt32) (t : List UInt8) : 0 < (utf8Encode cp ++ t).length := by
  obtain ⟨-, h⟩ | ⟨x, y, -, h⟩ | ⟨x, y, z, -, -, h⟩ := utf8Encode_cases cp
  all_goals
    rw [h]
    exact Nat.succ_pos _

theorem head_encode (l : List Char) : ∀ b ∈ (encode l).head?, b &&& 0xC0 ≠ 0x80 := by
  cases l with
  | nil => exact fun b hb => absurd hb (Option.not_mem_none b)
  | cons c l =>
      rw [encode_cons]
      obtain ⟨h1, h⟩ | ⟨x, y, -, h⟩ | ⟨x, y, z, -, -, h⟩ := utf8Encode_cases c.val
      · rw [h]
        rintro b ⟨⟩
        exact (lead_any _).2.2.2.2.2 (toUInt8_lt h1 (by decide)).2
      · rw [h]
        rintro b ⟨⟩
        exact (lead_any x).2.2.2.1
      · rw [h]
        rintro b ⟨⟩
        exact (lead_any x).2.2.1

theorem charCount_append (s t : List UInt8) : charCount (s ++ t) = charCount s + charCount t := by
  rw [charCount, List.filter_append, List.length_append]
  rfl

theorem charCount_utf8Encode (cp : UInt32) : charCount (utf8Encode cp) = 1 := by
  obtain ⟨h1, h⟩ | ⟨x, y, hy, h⟩ | ⟨x, y, z, hy, hz, h⟩ := utf8Encode_cases cp
  · have hc := (lead_any cp.toUInt8).2.2.2.2.2 (toUInt8_lt h1 (by decide)).2
    simp [charCount, h, hc]
  · simp [charCount, h, (lead_any x).2.2.2.1, (cont_byte y hy).1]
  · simp [charCount, h, (lead_any x).2.2.1, (cont_byte y hy).1, (cont_byte z hz).1]

/-- **Each character counts once.** -/
theorem charCount_encode (l : List Char) : charCount (encode l) = l.length := by
  induction l with
  | nil => rfl
  | cons c l ih => rw [encode_cons, charCount_append, charCount_utf8Encode, ih, List.length_cons,
      Nat.add_comm]

theorem decodeFrom_cons (p : List UInt8) (cp : UInt32) (t : List UInt8) :
    decodeFrom (p ++ (utf8Encode cp ++ t)) p.length =
      (nextChar (utf8Encode cp ++ t) 0 (utf8Encode_pos cp t)).1 ::
        decodeFrom (p ++ (utf8Encode cp ++ t))
          (p.length + (nextChar (utf8Encode cp ++ t) 0 (utf8Encode_pos cp t)).2) := by
  have hlt : p.length < (p ++ (utf8Encode cp ++ t)).length := by
    rw [List.length_append]
    exact Nat.add_lt_add_left (utf8Encode_pos cp t) _
  have hread := nextChar_append p (utf8Encode_pos cp t) hlt
  rw [decodeFrom, dif_pos hlt]
  exact congrArg (fun r : UInt32 × Nat => r.1 :: decodeFrom _ r.2) hread

theorem decodeFrom_encode_iff (p : List UInt8) (l : List Char) :
    decodeFrom (p ++ encode l) p.length = l.map (·.val) ↔ ∀ c ∈ l, c.val.toNat < 0x10000 := by
  induction l generalizing p with
  | nil =>
      rw [decodeFrom, dif_neg (by simp [encode])]
      exact iff_of_true rfl fun c hc => absurd hc List.not_mem_nil
  | cons c l ih =>
      rw [encode_cons, decodeFrom_cons, List.map_cons, List.forall_mem_cons, List.cons.injEq]
      by_cases hc : c.val.toNat < 0x10000
      · have hrest := ih (p ++ utf8Encode c.val)
        rw [List.length_append, List.append_assoc] at hrest
        rw [nextChar_encode hc]
        simp only [hrest, hc, true_and]
      · have hlost := nextChar_lost (Nat.le_of_not_lt hc) (head_encode l) (utf8Encode_pos c.val _)
        exact iff_of_false (fun h => hlost h.1) fun h => hc h.1

/-- **Text is read back** exactly if its characters are below `0x10000`. -/
theorem decode_encode_iff (l : List Char) :
    decode (encode l) = l.map (·.val) ↔ ∀ c ∈ l, c.val.toNat < 0x10000 :=
  decodeFrom_encode_iff [] l

/-! ### Prefixes -/

section

variable {f : Font} {maxW : Int32} {j k m : Nat}

theorem follow_take (hi : i ≤ m) (h : (follow s n cp i).2 ≤ m) :
    follow (s.take m) n cp i = follow s n cp i := by
  induction n generalizing cp i with
  | zero => rfl
  | succ n ih =>
      rw [follow] at h ⊢
      rw [follow]
      by_cases hs : i < s.length
      · rw [dif_pos hs] at h ⊢
        rcases Nat.lt_or_eq_of_le hi with hlt | rfl
        · have ht : i < (s.take m).length := by
            rw [List.length_take]
            exact lt_min hlt hs
          rw [dif_pos ht, List.getElem_take]
          split_ifs at h ⊢ with hc
          · rfl
          · exact ih hlt h
        · have ht : ¬ i < (s.take i).length := by
            rw [List.length_take]
            omega
          rw [dif_neg ht]
          split_ifs at h ⊢ with hc
          · rfl
          · have hgt := (follow_bounds s n (cp <<< 6 ||| (s[i] &&& 0x3F).toUInt32)
              (Nat.succ_le_of_lt hs)).1
            exact absurd (Nat.le_trans hgt h) (Nat.not_succ_le_self i)
      · have ht : ¬ i < (s.take m).length := by
          rw [List.length_take]
          omega
        rw [dif_neg hs, dif_neg ht]

theorem nextChar_take (hs : i < s.length) (h : (nextChar s i hs).2 ≤ m)
    (ht : i < (s.take m).length) : nextChar (s.take m) i ht = nextChar s i hs := by
  have hlt : i + 1 ≤ m := Nat.le_trans (nextChar_bounds hs).1 h
  unfold nextChar at h ⊢
  rw [List.getElem_take]
  split_ifs at h ⊢
  · rfl
  · exact follow_take hlt h
  · exact follow_take hlt h
  · exact follow_take hlt h
  · rfl

theorem cutAt_succ (h : cutAt s k < s.length) :
    cutAt s (k + 1) = (nextChar s (cutAt s k) h).2 := dif_pos h

theorem cutAt_stop (h : ¬ cutAt s k < s.length) : cutAt s (k + 1) = cutAt s k := dif_neg h

theorem cutAt_le_succ (s : List UInt8) (k : Nat) : cutAt s k ≤ cutAt s (k + 1) := by
  by_cases h : cutAt s k < s.length
  · exact cutAt_succ h ▸ Nat.le_of_lt (nextChar_bounds h).1
  · exact (cutAt_stop h).ge

theorem cutAt_mono (s : List UInt8) : Monotone (cutAt s) :=
  monotone_nat_of_le_succ (cutAt_le_succ s)

theorem cutAt_le_length (s : List UInt8) (k : Nat) : cutAt s k ≤ s.length := by
  induction k with
  | zero => exact Nat.zero_le _
  | succ k ih =>
      by_cases h : cutAt s k < s.length
      · exact cutAt_succ h ▸ (nextChar_bounds h).2
      · exact (cutAt_stop h).trans_le ih

/-- What is read at a cut. -/
def readAt (s : List UInt8) (k : Nat) : List UInt32 :=
  if h : cutAt s k < s.length then [(nextChar s (cutAt s k) h).1] else []

theorem decodeFrom_take (s : List UInt8) (d j : Nat) :
    decodeFrom (s.take (cutAt s (j + d))) (cutAt s j) = (List.range' j d).flatMap (readAt s) := by
  induction d generalizing j with
  | zero =>
      have hstop : ¬ cutAt s j < (s.take (cutAt s (j + 0))).length := by
        rw [List.length_take]
        exact Nat.not_lt.mpr (Nat.min_le_left ..)
      rw [decodeFrom, dif_neg hstop]
      rfl
  | succ d ih =>
      have hrest := ih (j + 1)
      rw [Nat.add_right_comm, Nat.add_assoc] at hrest
      rw [List.range'_succ, List.flatMap_cons, ← hrest, readAt]
      by_cases h : cutAt s j < s.length
      · have hle : (nextChar s (cutAt s j) h).2 ≤ cutAt s (j + (d + 1)) :=
          cutAt_succ h ▸ cutAt_mono s (by omega)
        have ht : cutAt s j < (s.take (cutAt s (j + (d + 1)))).length := by
          rw [List.length_take]
          exact lt_min (Nat.lt_of_lt_of_le (nextChar_bounds h).1 hle) h
        rw [decodeFrom, dif_pos ht, dif_pos h, nextChar_take h hle, cutAt_succ h]
        rfl
      · rw [dif_neg h, cutAt_stop h]
        rfl

theorem textWidth_succ (f : Font) (s : List UInt8) (k : Nat) :
    textWidth f (s.take (cutAt s (k + 1))) =
      textWidth f (s.take (cutAt s k)) + ((readAt s k).map f.charWidth).sum := by
  have hread (k : Nat) : decode (s.take (cutAt s k)) = (List.range' 0 k).flatMap (readAt s) := by
    have h := decodeFrom_take s k 0
    rwa [Nat.zero_add] at h
  rw [textWidth, textWidth, hread, hread, List.range'_1_concat, List.flatMap_append,
    List.map_append, List.sum_append, Nat.zero_add, List.flatMap_singleton]

theorem textWidth_read (h : cutAt s k < s.length) :
    textWidth f (s.take (cutAt s (k + 1))) =
      textWidth f (s.take (cutAt s k)) + f.charWidth (nextChar s (cutAt s k) h).1 := by
  rw [textWidth_succ, readAt, dif_pos h, List.map_singleton, List.sum_singleton]

theorem textWidth_mono (f : Font) (s : List UInt8) :
    Monotone fun k => textWidth f (s.take (cutAt s k)) :=
  monotone_nat_of_le_succ fun k => textWidth_succ f s k ▸ Nat.le_add_right ..

/-! ### The part that fits -/

theorem i32_small {x : Nat} (h : x < 2 ^ 31) : i32 x = x :=
  Int.bmod_eq_of_le (by omega) (by omega)

/-- **`width` is the width** of the text, as a sum of `i32`. -/
theorem width_eq (f : Font) (s : List UInt8) : width f s = i32 (textWidth f s) := by
  have hgo : ∀ i (w : Int), widthFrom f s i (i32 w) =
      i32 (w + (((decodeFrom s i).map f.charWidth).sum : Nat)) := fun i w => by
    induction i, (0 : Int) using widthFrom.induct f s generalizing w with
    | case1 i _ h ih =>
        have hsum : i32 (i32 w + f.charWidth (nextChar s i h).1) =
            i32 (w + f.charWidth (nextChar s i h).1) := by simp [i32]
        rw [widthFrom, dif_pos h, decodeFrom, dif_pos h, hsum, ih]
        push_cast [List.map_cons, List.sum_cons]
        rw [Int.add_assoc]
    | case2 i _ h => rw [widthFrom, dif_neg h, decodeFrom, dif_neg h]; simp
  simpa [width, textWidth, decode, i32] using hgo 0 0

theorem i32_over {x : Nat} (h : 2 ^ 31 ≤ x) (h' : x < 2 ^ 31 + 2 ^ 15) : i32 x < 0 := by
  unfold i32
  rw [Int.bmod_def]
  omega

theorem fitFrom_ge (f : Font) (s : List UInt8) (maxW : Int32) (hi : i ≤ s.length) (w : Int) :
    i ≤ fitFrom f s maxW i w := by
  induction hm : s.length - i using Nat.strong_induction_on generalizing i w with
  | _ m ih =>
      rw [fitFrom]
      split_ifs with h hw
      · exact Nat.le_refl i
      · obtain ⟨hlt, hle⟩ := nextChar_bounds h
        exact Nat.le_trans (Nat.le_of_lt hlt) (ih _ (by omega) hle _ rfl)
      · exact hi

/-- **The loop**, from a cut up to which the text fits. -/
theorem fitFrom_longest (hN : Narrow f s maxW) (k : Nat)
    (hk : (textWidth f (s.take (cutAt s k)) : Int) ≤ maxW.toInt ∨ k = 0) :
    Longest f s maxW (fitFrom f s maxW (cutAt s k) (textWidth f (s.take (cutAt s k)))) := by
  induction hm : s.length - cutAt s k using Nat.strong_induction_on generalizing k with
  | _ m ih =>
      rw [fitFrom]
      by_cases h : cutAt s k < s.length
      · have hsum : (textWidth f (s.take (cutAt s k)) : Int) +
            f.charWidth (nextChar s (cutAt s k) h).1 =
              (textWidth f (s.take (cutAt s (k + 1))) : Nat) := by
          rw [textWidth_read h, Int.natCast_add]
        have hsmall : textWidth f (s.take (cutAt s (k + 1))) < 2 ^ 31 := by
          rcases hk with hk | rfl
          · exact hN k hk
          · have hzero : textWidth f (s.take (cutAt s 0)) = 0 := by
              simp [textWidth, decode, decodeFrom, cutAt]
            have hlt := f.charWidth_lt (nextChar s (cutAt s 0) h).1
            rw [textWidth_read h, hzero]
            omega
        rw [dif_pos h, hsum, i32_small hsmall]
        split_ifs with hw
        · refine ⟨⟨k, rfl⟩, hk.imp_right fun h0 => congrArg (cutAt s) h0,
            fun j hj => cutAt_mono s ?_⟩
          refine Nat.le_of_not_lt fun hlt => ?_
          have := textWidth_mono f s (show k + 1 ≤ j from hlt)
          simp only at this
          omega
        · rw [← cutAt_succ h]
          refine ih _ ?_ (k + 1) (.inl (by omega)) rfl
          have := (nextChar_bounds h).1
          rw [cutAt_succ h]
          omega
      · have hend : cutAt s k = s.length :=
          Nat.le_antisymm (cutAt_le_length s k) (Nat.le_of_not_lt h)
        rw [dif_neg h]
        refine ⟨⟨k, hend⟩, ?_, fun j _ => cutAt_le_length s j⟩
        rw [← hend]
        exact hk.imp_right fun h0 => congrArg (cutAt s) h0

/-- A prefix that is too wide for `i32` is passed. -/
theorem fitFrom_passes (hk : (textWidth f (s.take (cutAt s k)) : Int) ≤ maxW.toInt)
    (hover : 2 ^ 31 ≤ textWidth f (s.take (cutAt s (k + 1)))) (d j : Nat) (hj : j + d = k) :
    cutAt s (k + 1) ≤ fitFrom f s maxW (cutAt s j) (textWidth f (s.take (cutAt s j))) := by
  have hmax : maxW.toInt < 2 ^ 31 := maxW.toInt_lt
  induction d generalizing j with
  | zero =>
      obtain rfl : j = k := hj
      rw [fitFrom]
      split_ifs with h hw
      · rw [← Int.natCast_add, ← textWidth_read h] at hw
        have hlt := f.charWidth_lt (nextChar s (cutAt s j) h).1
        have hread := textWidth_read (f := f) h
        have hneg := i32_over hover (by omega)
        omega
      · rw [cutAt_succ h]
        exact fitFrom_ge f s maxW (nextChar_bounds h).2 _
      · exact cutAt_le_length s (j + 1)
  | succ d ih =>
      have hnext := ih (j + 1) (by omega)
      rw [fitFrom]
      split_ifs with h hw
      · have hle := textWidth_mono f s (show j + 1 ≤ k by omega)
        simp only at hle
        rw [← Int.natCast_add, ← textWidth_read h, i32_small (by omega)] at hw
        omega
      · have hle := textWidth_mono f s (show j + 1 ≤ k by omega)
        simp only at hle
        rwa [← Int.natCast_add, ← textWidth_read h, i32_small (by omega), ← cutAt_succ h]
      · exact cutAt_le_length s (k + 1)

/-- **`fit`** is the longest prefix that is no wider than the limit, exactly if no sum that it needs
goes over. -/
theorem fit_longest_iff (f : Font) (s : List UInt8) (maxW : Int32) :
    Longest f s maxW (fit f s maxW) ↔ Narrow f s maxW := by
  have hstart : fit f s maxW = fitFrom f s maxW (cutAt s 0) (textWidth f (s.take (cutAt s 0))) := by
    simp [fit, textWidth, decode, decodeFrom, cutAt]
  constructor
  · intro hl
    by_contra hN
    obtain ⟨k, hk⟩ := not_forall.mp hN
    obtain ⟨hk, hover⟩ := Classical.not_imp.mp hk
    have hover := Nat.le_of_not_lt hover
    have hmax : maxW.toInt < 2 ^ 31 := maxW.toInt_lt
    have hpass := fitFrom_passes hk hover k 0 (Nat.zero_add k)
    rw [← hstart] at hpass
    have hgrow : cutAt s k < cutAt s (k + 1) := by
      by_cases h : cutAt s k < s.length
      · exact cutAt_succ h ▸ (nextChar_bounds h).1
      · rw [cutAt_stop h] at hover
        omega
    obtain ⟨j, hj⟩ := hl.cut
    rcases hl.fits with hfits | hzero
    · have hjk : j ≤ k := Nat.le_of_not_lt fun hlt => by
        have hle := textWidth_mono f s (show k + 1 ≤ j from hlt)
        simp only at hle
        rw [← hj] at hfits
        omega
      have := cutAt_mono s hjk
      omega
    · omega
  · intro hN
    rw [hstart]
    exact fitFrom_longest hN 0 (.inr rfl)

end

/-! ### Both -/

/-- **Text**: what is written is read back and counted, reading goes forward within the text, `width`
is the sum of the advances and `fit` the longest prefix that fits, exactly if the characters are
below `0x10000` and the sums are in range. -/
theorem text_iff (l : List Char) (f : Font) (s : List UInt8) (maxW : Int32) :
    ((decode (encode l) = l.map (·.val) ∧ charCount (encode l) = l.length) ∧
      (∀ i h, i < (nextChar s i h).2 ∧ (nextChar s i h).2 ≤ s.length) ∧
      width f s = i32 (textWidth f s) ∧ Longest f s maxW (fit f s maxW)) ↔
    (∀ c ∈ l, c.val.toNat < 0x10000) ∧ Narrow f s maxW := by
  rw [decode_encode_iff, fit_longest_iff]
  exact ⟨fun h => ⟨h.1.1, h.2.2.2⟩, fun h => ⟨⟨h.1, charCount_encode l⟩,
    fun _ h => nextChar_bounds h, width_eq f s, h.2⟩⟩

/-- An emoji is written as three bytes, and read as a question mark. -/
theorem encode_lost : encode [Char.ofNat 0x1F600] = [0xFF, 0x98, 0x80] ∧
    decode (encode [Char.ofNat 0x1F600]) ≠ [Char.ofNat 0x1F600].map (·.val) := by
  refine ⟨by decide, fun h => ?_⟩
  have hlow := (decode_encode_iff _).mp h _ List.mem_cons_self
  exact absurd hlow (by decide)

end Pulsar.Plib

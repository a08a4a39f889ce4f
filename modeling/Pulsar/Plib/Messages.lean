import Mathlib.Data.Nat.Bitwise
import Mathlib.Algebra.Ring.Nat
import Mathlib.Order.Bounds.Defs
import Mathlib.Tactic.Common
import Pulsar.Shell.Rect

/-!
# Messages to and from the window server (`plib/src/lib.rs`, `libc/src/wm.c`, `shell/src/main.rs`)

What is sent is packed in words by the library for Rust programs, by the one for C programs (`C`),
and by the window server, and is taken apart on the other side.

* `commit_pack_damage`, `commit_size`: what a program says of a frame it drew.
* `unpack_pack_title`, `C.unpack_pack_title`: a title, cut where a character begins.
* `decode_fillPoll`, `C.decode_fillPoll`: what the window server says of the events.
* **`messages_agree`**: all of them; `size_clamped` is a window that is larger than a surface.
-/

namespace Pulsar.Plib

open Shell (Rect)

/-- `x as u64`, of a signed number. -/
def asU64 (x : Int32) : UInt64 := x.toInt64.toUInt64

/-- `v as i32`. -/
def asI32 (v : UInt64) : Int32 := v.toUInt32.toInt32

/-! ### Frames -/

/-- `pack_damage(r)`. -/
def packDamage (r : Rect) : UInt64 :=
  (1 : UInt64) <<< 63 ||| (asU64 r.x &&& 0x7FFF) <<< 48 ||| (asU64 r.y &&& 0xFFFF) <<< 32 |||
    (asU64 r.w &&& 0xFFFF) <<< 16 ||| (asU64 r.h &&& 0xFFFF)

/-- `commit_damage(v)`. -/
def commitDamage (v : UInt64) : Option Rect :=
  if v >>> 63 = 0 then none
  else
    let r : Rect := ⟨asI32 (v >>> 48 &&& 0x7FFF), asI32 (v >>> 32 &&& 0xFFFF),
      asI32 (v >>> 16 &&& 0xFFFF), asI32 (v &&& 0xFFFF)⟩
    if r.is_empty then none else some r

/-- `data[1]` of a frame, in both libraries. -/
def packSize (w h : Int32) : UInt64 := asU64 w <<< 16 ||| asU64 h

/-- The size that the window server reads there. -/
def commitSize (v : UInt64) : Int32 × Int32 :=
  (asI32 (v >>> 16) &&& 0xFFFF, asI32 v &&& 0xFFFF)

/-- `data[2]` of `app_commit_rect(a, d)`. -/
def C.packDamage (d : Rect) : UInt64 :=
  if 0 < d.w ∧ 0 < d.h then
    (1 : UInt64) <<< 63 ||| asU64 (d.x &&& 0x7FFF) <<< 48 ||| asU64 (d.y &&& 0xFFFF) <<< 32 |||
      asU64 (d.w &&& 0xFFFF) <<< 16 ||| asU64 (d.h &&& 0xFFFF)
  else 0

/-! ### Titles -/

/-- `b & 0xC0 == 0x80`: no character begins with `b`. -/
def goesOn (b : UInt8) : Bool := b &&& 0xC0 = 0x80

/-- The loop of `pack_title`, from `n` bytes back to where a character begins. -/
def backTo (t : List UInt8) : Nat → Nat
  | 0 => 0
  | n + 1 => if n + 1 < t.length ∧ goesOn (t.getD (n + 1) 0) then backTo t n else n + 1

/-- The bytes of a word, the first lowest. -/
def packWord (f : Nat → UInt8) : UInt64 :=
  (List.range 8).foldl (fun v (b : Nat) => v ||| (f b).toUInt64 <<< .ofNat (b * 8)) 0

/-- `pack_title(t, out)`, of three words. -/
def packTitle (t : List UInt8) : List UInt64 :=
  let n := backTo t (min t.length 24)
  (List.range 3).map fun i => packWord fun b => if i * 8 + b < n then t.getD (i * 8 + b) 0 else 0

/-- `unpack_title(words, out)`: the bytes up to the first zero. -/
def unpackTitle (words : List UInt64) : List UInt8 :=
  ((List.range 24).map fun k => (words.getD (k / 8) 0 >>> .ofNat (k % 8 * 8)).toUInt8).takeWhile
    (· ≠ 0)

/-- `while(n<24 && t[n]) n++`, with `k` bytes to go. -/
def C.scan (t : Nat → UInt8) : Nat → Nat → Nat
  | 0, n => n
  | k + 1, n => if t n ≠ 0 then C.scan t k (n + 1) else n

/-- `while(n>0 && t[n] && ((u8)t[n]&0xC0)==0x80) n--`. -/
def C.backTo (t : Nat → UInt8) : Nat → Nat
  | 0 => 0
  | n + 1 => if t (n + 1) ≠ 0 ∧ goesOn (t (n + 1)) then C.backTo t n else n + 1

/-- `pack_title(t, out)`. -/
def C.packTitle (t : Nat → UInt8) : List UInt64 :=
  let n := C.backTo t (C.scan t 24 0)
  (List.range 3).map fun i => packWord fun b => if i * 8 + b < n then t (i * 8 + b) else 0

/-- The string in the memory of a C program. -/
def C.string (t : List UInt8) (i : Nat) : UInt8 := t.getD i 0

/-! ### Events -/

def WM_FLAG_CLOSE : UInt64 := 1
def WM_FLAG_FOCUS : UInt64 := 2
def WM_FLAG_DARK : UInt64 := 4
def WM_FLAG_MORE : UInt64 := 8
def WM_FLAG_VISIBLE : UInt64 := 16

def WM_MOUSE_DOWN : UInt64 := 1
def WM_MOUSE_CLICK : UInt64 := 2
def WM_MOUSE_RCLICK : UInt64 := 4
def WM_MOUSE_DOUBLE : UInt64 := 8

def SURF_W : Int32 := 2560
def SURF_H : Int32 := 1440

structure Key where
  code : UInt16
  ch : UInt32
  mods : UInt8
  deriving DecidableEq

/-- `Key::pack`. -/
def Key.pack (k : Key) : UInt64 :=
  k.code.toUInt64 ||| k.mods.toUInt64 <<< 16 ||| k.ch.toUInt64 <<< 32

/-- `Key::unpack(v)`. -/
def Key.unpack (v : UInt64) : Option Key :=
  if v &&& 0xFFFF = 0 then none
  else some ⟨v.toUInt16, (v >>> 32).toUInt32, (v >>> 16).toUInt8⟩

/-- What an answer of the window server is made of. -/
structure News where
  close : Bool
  focused : Bool
  dark : Bool
  more : Bool
  visible : Bool
  w : Int32
  h : Int32
  mx : Int32
  my : Int32
  down : Bool
  click : Bool
  rclick : Bool
  double : Bool
  wheel : Int32
  key : UInt64
  menu : UInt16
  accent : UInt32
  deriving DecidableEq

/-- The words of a message. -/
structure Data where
  d0 : UInt64
  d1 : UInt64
  d2 : UInt64
  d3 : UInt64
  d4 : UInt64
  d5 : UInt64
  deriving DecidableEq

/-- `if c { f |= b }`. -/
def orIf (c : Bool) (b f : UInt64) : UInt64 := if c then f ||| b else f

/-- `wheel.clamp(-127, 127) as i8 as u8`. -/
def wheelByte (wheel : Int32) : UInt8 := (max (-127) (min wheel 127)).toInt8.toUInt8

/-- The words that `fill_poll` writes. -/
def News.data (n : News) : Data where
  d0 := orIf n.visible WM_FLAG_VISIBLE (orIf n.more WM_FLAG_MORE (orIf n.dark WM_FLAG_DARK
    (orIf n.focused WM_FLAG_FOCUS (orIf n.close WM_FLAG_CLOSE
      (asU64 (min n.w SURF_W) <<< 16 ||| asU64 (min n.h SURF_H) <<< 32)))))
  d1 := asU64 n.mx
  d2 := asU64 n.my
  d3 := orIf n.double WM_MOUSE_DOUBLE (orIf n.rclick WM_MOUSE_RCLICK (orIf n.click WM_MOUSE_CLICK
    (orIf n.down WM_MOUSE_DOWN 0))) ||| (wheelByte n.wheel).toUInt64 <<< 8
  d4 := n.key
  d5 := n.menu.toUInt64 ||| n.accent.toUInt64 <<< 32

/-- `WmEvent` of the library for Rust programs. -/
@[ext] structure WmEvent where
  close : Bool
  focused : Bool
  dark : Bool
  visible : Bool
  more : Bool
  changed : Bool
  w : Int32
  h : Int32
  mx : Int32
  my : Int32
  down : Bool
  click : Bool
  rclick : Bool
  double : Bool
  wheel : Int32
  key : Option Key
  menu : UInt16
  accent : UInt32
  deriving DecidableEq

/-- `WmEvent::decode(m)`. -/
def WmEvent.decode (m : Data) : WmEvent where
  close := m.d0 &&& WM_FLAG_CLOSE ≠ 0
  focused := m.d0 &&& WM_FLAG_FOCUS ≠ 0
  dark := m.d0 &&& WM_FLAG_DARK ≠ 0
  visible := m.d0 &&& WM_FLAG_VISIBLE ≠ 0
  more := m.d0 &&& WM_FLAG_MORE ≠ 0
  changed := false
  w := asI32 (m.d0 >>> 16 &&& 0xFFFF)
  h := asI32 (m.d0 >>> 32 &&& 0xFFFF)
  mx := m.d1.toInt64.toInt32
  my := m.d2.toInt64.toInt32
  down := m.d3 &&& WM_MOUSE_DOWN ≠ 0
  click := m.d3 &&& WM_MOUSE_CLICK ≠ 0
  rclick := m.d3 &&& WM_MOUSE_RCLICK ≠ 0
  double := m.d3 &&& WM_MOUSE_DOUBLE ≠ 0
  wheel := (m.d3 >>> 8 &&& 0xFF).toUInt8.toInt8.toInt32
  key := Key.unpack m.d4
  menu := m.d5.toUInt16
  accent := (m.d5 >>> 32).toUInt32 &&& 0xFFFFFF

/-- `WmEvent` of the library for C programs. -/
@[ext] structure C.WmEvent where
  close : Bool
  focused : Bool
  dark : Bool
  more : Bool
  visible : Bool
  changed : Bool
  w : Int32
  h : Int32
  mx : Int32
  my : Int32
  down : Bool
  click : Bool
  rclick : Bool
  dbl : Bool
  wheel : Int32
  key : UInt16
  mods : UInt8
  ch : UInt32
  menu : UInt16
  accent : UInt32
  deriving DecidableEq

/-- `decode(m)`. -/
def C.decode (m : Data) : C.WmEvent where
  close := m.d0 &&& 1 ≠ 0
  focused := m.d0 &&& 2 ≠ 0
  dark := m.d0 &&& 4 ≠ 0
  more := m.d0 &&& 8 ≠ 0
  visible := m.d0 &&& 16 ≠ 0
  changed := false
  w := asI32 (m.d0 >>> 16 &&& 0xFFFF)
  h := asI32 (m.d0 >>> 32 &&& 0xFFFF)
  mx := asI32 m.d1
  my := asI32 m.d2
  down := m.d3 &&& 1 ≠ 0
  click := m.d3 &&& 2 ≠ 0
  rclick := m.d3 &&& 4 ≠ 0
  dbl := m.d3 &&& 8 ≠ 0
  wheel := (m.d3 >>> 8).toUInt8.toInt8.toInt32
  key := m.d4.toUInt16
  mods := (m.d4 >>> 16).toUInt8
  ch := (m.d4 >>> 32).toUInt32
  menu := m.d5.toUInt16
  accent := (m.d5 >>> 32).toUInt32 &&& 0xFFFFFF

/-! ### Words and their parts -/

theorem or_eq_add (k : Nat) {x y : Nat} (hx : x % 2 ^ k = 0) (hy : y < 2 ^ k) :
    x ||| y = x + y := by
  have hmul : 2 ^ k * (x / 2 ^ k) = x := Nat.mul_div_cancel' (Nat.dvd_of_mod_eq_zero hx)
  rw [← hmul, Nat.two_pow_add_eq_or_of_lt hy]

theorem toNat_or8 (k : Nat) {x y : UInt64} (hx : x.toNat % 2 ^ k = 0) (hy : y.toNat < 2 ^ k) :
    (x ||| y).toNat = x.toNat + y.toNat := by
  rw [UInt64.toNat_or, or_eq_add k hx hy]

theorem toNat_shl {x s : UInt64} (hs : s.toNat < 64) (hx : x.toNat * 2 ^ s.toNat < 2 ^ 64) :
    (x <<< s).toNat = x.toNat * 2 ^ s.toNat := by
  rw [UInt64.toNat_shiftLeft, Nat.mod_eq_of_lt hs, Nat.shiftLeft_eq, Nat.mod_eq_of_lt hx]

theorem toNat_shr {x s : UInt64} (hs : s.toNat < 64) :
    (x >>> s).toNat = x.toNat / 2 ^ s.toNat := by
  rw [UInt64.toNat_shiftRight, Nat.mod_eq_of_lt hs, Nat.shiftRight_eq_div_pow]

theorem toNat_mask (k : Nat) (x : UInt64) {m : UInt64} (hm : m.toNat = 2 ^ k - 1) :
    (x &&& m).toNat = x.toNat % 2 ^ k := by
  rw [UInt64.toNat_and, hm, Nat.and_two_pow_sub_one_eq_mod]

theorem bit_iff (k : Nat) (x : UInt64) {b : UInt64} (hb : b.toNat = 2 ^ k) :
    decide (x &&& b ≠ 0) = decide (x.toNat / 2 ^ k % 2 = 1) := by
  refine decide_eq_decide.mpr ?_
  have hzero : x &&& b = 0 ↔ x.toNat &&& 2 ^ k = 0 := by
    rw [← UInt64.toNat_inj, UInt64.toNat_and, hb]
    rfl
  have hbit : x.toNat / 2 ^ k % 2 = 1 ↔ x.toNat.testBit k = true := by
    rw [Nat.testBit_eq_decide_div_mod_eq, decide_eq_true_iff]
  rw [Ne, hzero, hbit, Nat.and_two_pow]
  cases x.toNat.testBit k
  · simp
  · simp

theorem toNat_asU64 {x : Int32} (h : 0 ≤ x.toInt) : (asU64 x).toNat = x.toInt.toNat := by
  have hle : 0 ≤ x.toInt64 := Int64.le_iff_toInt_le.mpr (Int32.toInt_toInt64 x ▸ h)
  rw [asU64, Int64.toNat_toUInt64_of_le hle]
  exact congrArg Int.toNat (Int32.toInt_toInt64 x)

theorem asI32_eq {v : UInt64} {x : Int32} (hx : 0 ≤ x.toInt) (hv : v.toNat = x.toInt.toNat) :
    asI32 v = x := by
  have hle : 0 ≤ x := Int32.le_iff_toInt_le.mpr hx
  have hlt : x.toInt < 2 ^ 31 := x.toInt_lt
  have hsame : v.toUInt32 = x.toUInt32 := by
    refine UInt32.toNat_inj.mp ?_
    rw [UInt64.toNat_toUInt32, hv, Int32.toNat_toUInt32_of_le hle]
    exact Nat.mod_eq_of_lt (by omega)
  rw [asI32, hsame, Int32.toInt32_toUInt32]

/-- A number of `k` bits. -/
def Bits (k : Nat) (x : Int32) : Prop := 0 ≤ x.toInt ∧ x.toInt < (2 ^ k : Nat)

theorem Bits.toNat_asU64 {k : Nat} {x : Int32} (h : Bits k x) :
    (asU64 x).toNat = x.toInt.toNat ∧ x.toInt.toNat < 2 ^ k :=
  ⟨Plib.toNat_asU64 h.1, (Int.toNat_lt h.1).mpr h.2⟩

/-- A mask of `Int32` that is as wide as the number. -/
theorem and_mask {k : Nat} {x y m : Int32} (hx : Bits k x) (hm : m.toUInt32.toNat = 2 ^ k - 1)
    (hy : y.toUInt32.toNat % 2 ^ k = x.toInt.toNat) : y &&& m = x := by
  have hle : 0 ≤ x := Int32.le_iff_toInt_le.mpr hx.1
  have hsame : (y &&& m).toUInt32 = x.toUInt32 := by
    refine UInt32.toNat_inj.mp ?_
    rw [Int32.toUInt32_and, UInt32.toNat_and, hm, Nat.and_two_pow_sub_one_eq_mod, hy,
      Int32.toNat_toUInt32_of_le hle]
    rfl
  rw [← Int32.toInt32_toUInt32 (y &&& m), hsame, Int32.toInt32_toUInt32]

theorem Bits.and_mask {k : Nat} {x m : Int32} (hx : Bits k x)
    (hm : m.toUInt32.toNat = 2 ^ k - 1) : x &&& m = x := by
  have hle : 0 ≤ x := Int32.le_iff_toInt_le.mpr hx.1
  refine Plib.and_mask hx hm ?_
  rw [Int32.toNat_toUInt32_of_le hle]
  exact Nat.mod_eq_of_lt hx.toNat_asU64.2

/-! ### Frames -/

/-- A rectangle that fits in the word. -/
structure Sendable (r : Rect) : Prop where
  x : Bits 15 r.x
  y : Bits 16 r.y
  w : Bits 16 r.w
  h : Bits 16 r.h
  notEmpty : r.is_empty = false

/-- The word that says which part of a frame is new. -/
def damageWord (r : Rect) : Nat :=
  2 ^ 63 + r.x.toInt.toNat * 2 ^ 48 + r.y.toInt.toNat * 2 ^ 32 + r.w.toInt.toNat * 2 ^ 16 +
    r.h.toInt.toNat

theorem toNat_parts {a b c d : UInt64} (ha : a.toNat < 2 ^ 15) (hb : b.toNat < 2 ^ 16)
    (hc : c.toNat < 2 ^ 16) (hd : d.toNat < 2 ^ 16) :
    ((1 : UInt64) <<< 63 ||| a <<< 48 ||| b <<< 32 ||| c <<< 16 ||| d).toNat =
      2 ^ 63 + a.toNat * 2 ^ 48 + b.toNat * 2 ^ 32 + c.toNat * 2 ^ 16 + d.toNat := by
  have h0 : ((1 : UInt64) <<< 63).toNat = 2 ^ 63 := rfl
  have h1 : (a <<< 48).toNat = a.toNat * 2 ^ 48 :=
    toNat_shl (s := 48) (by decide) (show a.toNat * 2 ^ 48 < 2 ^ 64 by omega)
  have h2 : (b <<< 32).toNat = b.toNat * 2 ^ 32 :=
    toNat_shl (s := 32) (by decide) (show b.toNat * 2 ^ 32 < 2 ^ 64 by omega)
  have h3 : (c <<< 16).toNat = c.toNat * 2 ^ 16 :=
    toNat_shl (s := 16) (by decide) (show c.toNat * 2 ^ 16 < 2 ^ 64 by omega)
  have e1 : ((1 : UInt64) <<< 63 ||| a <<< 48).toNat = 2 ^ 63 + a.toNat * 2 ^ 48 := by
    rw [toNat_or8 63 (by omega) (by omega), h0, h1]
  have e2 : ((1 : UInt64) <<< 63 ||| a <<< 48 ||| b <<< 32).toNat =
      2 ^ 63 + a.toNat * 2 ^ 48 + b.toNat * 2 ^ 32 := by
    rw [toNat_or8 48 (by omega) (by omega), e1, h2]
  have e3 : ((1 : UInt64) <<< 63 ||| a <<< 48 ||| b <<< 32 ||| c <<< 16).toNat =
      2 ^ 63 + a.toNat * 2 ^ 48 + b.toNat * 2 ^ 32 + c.toNat * 2 ^ 16 := by
    rw [toNat_or8 32 (by omega) (by omega), e2, h3]
  rw [toNat_or8 16 (by omega) (by omega), e3]

section

variable {r : Rect}

theorem toNat_packDamage (h : Sendable r) : (packDamage r).toNat = damageWord r := by
  have part {k : Nat} {x : Int32} {m : UInt64} (hx : Bits k x) (hm : m.toNat = 2 ^ k - 1) :
      (asU64 x &&& m).toNat = x.toInt.toNat ∧ (asU64 x &&& m).toNat < 2 ^ k := by
    obtain ⟨hval, hlt⟩ := hx.toNat_asU64
    rw [toNat_mask k _ hm, hval, Nat.mod_eq_of_lt hlt]
    exact ⟨rfl, hlt⟩
  obtain ⟨hx, hxlt⟩ := part h.x (m := 0x7FFF) rfl
  obtain ⟨hy, hylt⟩ := part h.y (m := 0xFFFF) rfl
  obtain ⟨hw, hwlt⟩ := part h.w (m := 0xFFFF) rfl
  obtain ⟨hh, hhlt⟩ := part h.h (m := 0xFFFF) rfl
  rw [packDamage, toNat_parts hxlt hylt hwlt hhlt, hx, hy, hw, hh]
  rfl

theorem commitDamage_word {v : UInt64} (h : Sendable r) (hv : v.toNat = damageWord r) :
    commitDamage v = some r := by
  obtain ⟨-, hx⟩ := h.x.toNat_asU64
  obtain ⟨-, hy⟩ := h.y.toNat_asU64
  obtain ⟨-, hw⟩ := h.w.toNat_asU64
  obtain ⟨-, hh⟩ := h.h.toNat_asU64
  unfold damageWord at hv
  have hset : v >>> 63 ≠ 0 := by
    intro hc
    have := congrArg UInt64.toNat hc
    rw [toNat_shr (s := 63) (by decide)] at this
    change v.toNat / 2 ^ 63 = 0 at this
    omega
  have part {k : Nat} {x : Int32} {m s : UInt64} (hx : Bits k x) (hm : m.toNat = 2 ^ k - 1)
      (hs : s.toNat < 64) (hval : v.toNat / 2 ^ s.toNat % 2 ^ k = x.toInt.toNat) :
      asI32 (v >>> s &&& m) = x := by
    refine asI32_eq hx.1 ?_
    rw [toNat_mask k _ hm, toNat_shr hs, hval]
  have ex : asI32 (v >>> 48 &&& 0x7FFF) = r.x :=
    part h.x rfl (by decide) (show v.toNat / 2 ^ 48 % 2 ^ 15 = _ by omega)
  have ey : asI32 (v >>> 32 &&& 0xFFFF) = r.y :=
    part h.y rfl (by decide) (show v.toNat / 2 ^ 32 % 2 ^ 16 = _ by omega)
  have ew : asI32 (v >>> 16 &&& 0xFFFF) = r.w :=
    part h.w rfl (by decide) (show v.toNat / 2 ^ 16 % 2 ^ 16 = _ by omega)
  have eh : asI32 (v &&& 0xFFFF) = r.h := by
    refine asI32_eq h.h.1 ?_
    rw [toNat_mask 16 _ rfl]
    omega
  unfold commitDamage
  rw [if_neg hset, ex, ey, ew, eh]
  exact if_neg (by rw [h.notEmpty]; exact Bool.false_ne_true)

/-- **The part of a frame that is new** is what the window server reads. -/
theorem commit_pack_damage (h : Sendable r) : commitDamage (packDamage r) = some r :=
  commitDamage_word h (toNat_packDamage h)

theorem C.commit_pack_damage (h : Sendable r) : commitDamage (C.packDamage r) = some r := by
  obtain ⟨hx, hxlt⟩ := h.x.toNat_asU64
  obtain ⟨hy, hylt⟩ := h.y.toNat_asU64
  obtain ⟨hw, hwlt⟩ := h.w.toNat_asU64
  obtain ⟨hh, hhlt⟩ := h.h.toNat_asU64
  have hpos : 0 < r.w ∧ 0 < r.h := by
    have hne := h.notEmpty
    simp only [Rect.is_empty, Bool.or_eq_false_iff, decide_eq_false_iff_not, Int32.not_le] at hne
    exact hne
  refine commitDamage_word h ?_
  rw [C.packDamage, if_pos hpos, h.x.and_mask rfl, h.y.and_mask rfl, h.w.and_mask rfl,
    h.h.and_mask rfl, toNat_parts (hx ▸ hxlt) (hy ▸ hylt) (hw ▸ hwlt) (hh ▸ hhlt), hx, hy, hw, hh]
  rfl

/-- **The size of a frame** is what the window server reads. -/
theorem commit_size {w h : Int32} (hw : Bits 16 w) (hh : Bits 16 h) :
    commitSize (packSize w h) = (w, h) := by
  obtain ⟨hwv, hwlt⟩ := hw.toNat_asU64
  obtain ⟨hhv, hhlt⟩ := hh.toNat_asU64
  have hshl : (asU64 w <<< 16).toNat = w.toInt.toNat * 2 ^ 16 := by
    rw [toNat_shl (s := 16) (by decide) (show (asU64 w).toNat * 2 ^ 16 < 2 ^ 64 by omega), hwv]
    rfl
  have hval : (packSize w h).toNat = w.toInt.toNat * 2 ^ 16 + h.toInt.toNat := by
    rw [packSize, toNat_or8 16 (by omega) (by omega), hshl, hhv]
  refine Prod.ext ?_ ?_
  · refine and_mask hw rfl ?_
    change ((packSize w h) >>> 16).toUInt32.toNat % 2 ^ 16 = w.toInt.toNat
    rw [UInt64.toNat_toUInt32, toNat_shr (s := 16) (by decide), hval]
    change (w.toInt.toNat * 2 ^ 16 + h.toInt.toNat) / 2 ^ 16 % 2 ^ 32 % 2 ^ 16 = w.toInt.toNat
    omega
  · refine and_mask hh rfl ?_
    change (packSize w h).toUInt32.toNat % 2 ^ 16 = h.toInt.toNat
    rw [UInt64.toNat_toUInt32, hval]
    omega

end

/-! ### Titles -/

/-- The number in `k` bytes. -/
def byteSum (f : Nat → UInt8) : Nat → Nat
  | 0 => 0
  | k + 1 => byteSum f k + (f k).toNat * 2 ^ (8 * k)

theorem byteSum_lt (f : Nat → UInt8) (k : Nat) : byteSum f k < 2 ^ (8 * k) := by
  induction k with
  | zero => exact Nat.one_pos
  | succ k ih =>
      have hb : (f k).toNat ≤ 255 := Nat.le_of_lt_succ (f k).toNat_lt
      have hmul := Nat.mul_le_mul_right (2 ^ (8 * k)) hb
      rw [byteSum, show 8 * (k + 1) = 8 * k + 8 by omega, Nat.pow_add]
      omega

theorem byteSum_byte (f : Nat → UInt8) {b k : Nat} (hb : b < k) :
    byteSum f k / 2 ^ (8 * b) % 2 ^ 8 = (f b).toNat := by
  have hpos : 0 < 2 ^ (8 * b) := Nat.two_pow_pos _
  induction k with
  | zero => exact absurd hb (Nat.not_lt_zero b)
  | succ k ih =>
      rw [byteSum]
      rcases Nat.lt_succ_iff_lt_or_eq.mp hb with hlt | rfl
      · have hsplit : (f k).toNat * 2 ^ (8 * k) =
            2 ^ (8 * b) * (2 ^ 8 * ((f k).toNat * 2 ^ (8 * (k - b - 1)))) := by
          rw [← Nat.mul_assoc, ← Nat.pow_add, Nat.mul_left_comm, ← Nat.pow_add]
          congr 2
          omega
        rw [hsplit, Nat.add_mul_div_left _ _ hpos, Nat.add_mul_mod_self_left, ih hlt]
      · rw [Nat.mul_comm, Nat.add_mul_div_left _ _ hpos, Nat.div_eq_of_lt (byteSum_lt f b),
          Nat.zero_add]
        exact Nat.mod_eq_of_lt (f b).toNat_lt

theorem foldl_packWord (f : Nat → UInt8) {k : Nat} (hk : k ≤ 8) :
    ((List.range k).foldl (fun v (b : Nat) => v ||| (f b).toUInt64 <<< .ofNat (b * 8))
      (0 : UInt64)).toNat = byteSum f k := by
  induction k with
  | zero => rfl
  | succ k ih =>
      have hb : (f k).toNat < 2 ^ 8 := (f k).toNat_lt
      have hamt : (UInt64.ofNat (k * 8)).toNat = 8 * k := by
        rw [UInt64.toNat_ofNat_of_lt' (show k * 8 < 2 ^ 64 by omega), Nat.mul_comm]
      have hle : 2 ^ (8 * k) ≤ 2 ^ 56 := Nat.pow_le_pow_right (by decide) (by omega)
      have hprod : (f k).toNat * 2 ^ (8 * k) < 2 ^ 64 :=
        Nat.lt_of_lt_of_le (Nat.mul_lt_mul_of_lt_of_le hb hle (by decide)) (by decide)
      have hshl : ((f k).toUInt64 <<< .ofNat (k * 8)).toNat = (f k).toNat * 2 ^ (8 * k) := by
        rw [toNat_shl (by omega) (by rw [hamt, UInt8.toNat_toUInt64]; exact hprod), hamt,
          UInt8.toNat_toUInt64]
      rw [List.range_succ, List.foldl_append, List.foldl_cons, List.foldl_nil, UInt64.toNat_or,
        ih (Nat.le_of_succ_le hk), hshl, Nat.or_comm, or_eq_add (8 * k) (Nat.mul_mod_left ..)
        (byteSum_lt f k), byteSum, Nat.add_comm]

theorem packWord_byte (f : Nat → UInt8) {b : Nat} (hb : b < 8) :
    (packWord f >>> .ofNat (b * 8)).toUInt8 = f b := by
  have hamt : (UInt64.ofNat (b * 8)).toNat = 8 * b := by
    rw [UInt64.toNat_ofNat_of_lt' (show b * 8 < 2 ^ 64 by omega), Nat.mul_comm]
  refine UInt8.toNat_inj.mp ?_
  rw [UInt64.toNat_toUInt8, toNat_shr (by omega), hamt, packWord,
    foldl_packWord f (Nat.le_refl 8), byteSum_byte f hb]

/-- **Bytes in three words** are read back up to the first zero. -/
theorem unpackTitle_words (f : Nat → UInt8) :
    unpackTitle ((List.range 3).map fun i => packWord fun b => f (i * 8 + b)) =
      ((List.range 24).map f).takeWhile (· ≠ 0) := by
  refine congrArg (List.takeWhile _) (List.map_congr_left fun k hk => ?_)
  have hk := List.mem_range.mp hk
  have hlt : k / 8 < 3 := by omega
  have hword : ((List.range 3).map fun i => packWord fun b => f (i * 8 + b)).getD (k / 8) 0 =
      packWord fun b => f (k / 8 * 8 + b) := by
    rw [List.getD_eq_getElem?_getD, List.getElem?_map, List.getElem?_range hlt]
    rfl
  rw [hword, packWord_byte _ (Nat.mod_lt k (by decide)), Nat.div_add_mod' k 8]

/-- A character begins at byte `n` of the text, or the text ends. -/
def Boundary (t : List UInt8) (n : Nat) : Prop :=
  n ≤ t.length ∧ (n = 0 ∨ n = t.length ∨ goesOn (t.getD n 0) = false)

/-- The title that is sent: the longest part of at most 24 bytes that ends where a character does. -/
structure Sent (t u : List UInt8) : Prop where
  prefix_take : u = t.take u.length
  greatest : IsGreatest {n | n ≤ 24 ∧ Boundary t n} u.length

section

variable {t : List UInt8} {n m k : Nat}

theorem backTo_greatest (hm : m ≤ t.length) :
    IsGreatest {n | n ≤ m ∧ Boundary t n} (backTo t m) := by
  induction m with
  | zero => exact ⟨⟨Nat.le_refl 0, Nat.zero_le _, .inl rfl⟩, fun n hn => hn.1⟩
  | succ m ih =>
      rw [backTo]
      split_ifs with h
      · obtain ⟨⟨hle, hb⟩, hmax⟩ := ih (Nat.le_of_succ_le hm)
        refine ⟨⟨Nat.le_succ_of_le hle, hb⟩, fun n hn => ?_⟩
        rcases Nat.lt_or_eq_of_le hn.1 with hlt | rfl
        · exact hmax ⟨Nat.le_of_lt_succ hlt, hn.2⟩
        · rcases hn.2.2 with h0 | hend | hgo
          · exact absurd h0 (Nat.succ_ne_zero m)
          · exact absurd h.1 (Nat.not_lt.mpr hend.ge)
          · exact absurd (hgo.symm.trans h.2) Bool.false_ne_true
      · refine ⟨⟨Nat.le_refl _, hm, .inr ?_⟩, fun n hn => hn.1⟩
        rcases Nat.lt_or_eq_of_le hm with hlt | heq
        · exact .inr (Bool.eq_false_of_not_eq_true fun hgo => h ⟨hlt, hgo⟩)
        · exact .inl heq

theorem takeWhile_title (ht : ∀ b ∈ t, b ≠ 0) (hn : n ≤ 24) (hlen : n ≤ t.length) :
    ((List.range 24).map fun k => if k < n then t.getD k 0 else 0).takeWhile (· ≠ 0) =
      t.take n := by
  have hlist : ((List.range 24).map fun k => if k < n then t.getD k 0 else 0) =
      t.take n ++ List.replicate (24 - n) 0 := by
    refine List.ext_getElem ?_ fun k h₁ h₂ => ?_
    · rw [List.length_map, List.length_range, List.length_append, List.length_take,
        List.length_replicate]
      omega
    · rw [List.getElem_map, List.getElem_range, List.getElem_append]
      have hk : (t.take n).length = n := by
        rw [List.length_take]
        exact min_eq_left hlen
      by_cases hlt : k < n
      · rw [if_pos hlt, dif_pos (Nat.lt_of_lt_of_eq hlt hk.symm), List.getElem_take,
          List.getD_eq_getElem?_getD, List.getElem?_eq_getElem (Nat.lt_of_lt_of_le hlt hlen),
          Option.getD_some]
      · rw [if_neg hlt, dif_neg fun hc => hlt (Nat.lt_of_lt_of_eq hc hk),
          List.getElem_replicate]
  rw [hlist, List.takeWhile_append_of_pos fun b hb => by
    simpa using ht b (List.mem_of_mem_take hb)]
  cases 24 - n with
  | zero => exact List.append_nil _
  | succ j => simp [List.replicate_succ]

theorem sent_take (t : List UInt8) : Sent t (t.take (backTo t (min t.length 24))) := by
  obtain ⟨⟨hle, hb⟩, hmax⟩ := backTo_greatest (m := min t.length 24) (Nat.min_le_left t.length 24)
  have hlen : (t.take (backTo t (min t.length 24))).length = backTo t (min t.length 24) := by
    rw [List.length_take]
    exact min_eq_left hb.1
  refine ⟨by rw [hlen], ⟨⟨?_, ?_⟩, fun n hn => ?_⟩⟩
  · rw [hlen]
    exact hle.trans (Nat.min_le_right ..)
  · rw [hlen]
    exact hb
  · rw [hlen]
    exact hmax ⟨le_min hn.2.1 hn.1, hn.2⟩

/-- **A title** is read back as far as it fits. -/
theorem unpack_pack_title (ht : ∀ b ∈ t, b ≠ 0) : Sent t (unpackTitle (packTitle t)) := by
  obtain ⟨⟨hle, hb⟩, -⟩ := backTo_greatest (m := min t.length 24) (Nat.min_le_left t.length 24)
  have hread : unpackTitle (packTitle t) = t.take (backTo t (min t.length 24)) :=
    (unpackTitle_words fun k => if k < backTo t (min t.length 24) then t.getD k 0 else 0).trans
      (takeWhile_title ht (hle.trans (Nat.min_le_right ..)) hb.1)
  exact hread ▸ sent_take t

theorem C.string_ne_zero (ht : ∀ b ∈ t, b ≠ 0) (n : Nat) : C.string t n ≠ 0 ↔ n < t.length := by
  unfold C.string
  rw [List.getD_eq_getElem?_getD]
  by_cases hn : n < t.length
  · rw [List.getElem?_eq_getElem hn, Option.getD_some]
    exact iff_of_true (ht _ (List.getElem_mem hn)) hn
  · rw [List.getElem?_eq_none (Nat.le_of_not_lt hn), Option.getD_none]
    exact iff_of_false (not_not_intro rfl) hn

theorem C.scan_eq (ht : ∀ b ∈ t, b ≠ 0) (hn : n ≤ t.length) :
    C.scan (C.string t) k n = min t.length (n + k) := by
  induction k generalizing n with
  | zero => exact (min_eq_right hn).symm
  | succ k ih =>
      rw [C.scan]
      by_cases hlt : n < t.length
      · rw [if_pos ((C.string_ne_zero ht n).mpr hlt), ih hlt]
        exact congrArg (min t.length) (by omega)
      · rw [if_neg (mt (C.string_ne_zero ht n).mp hlt)]
        omega

theorem C.backTo_eq (ht : ∀ b ∈ t, b ≠ 0) (n : Nat) :
    C.backTo (C.string t) n = Plib.backTo t n := by
  induction n with
  | zero => rfl
  | succ n ih =>
      rw [C.backTo, Plib.backTo, ih]
      exact if_congr (and_congr (C.string_ne_zero ht (n + 1)) Iff.rfl) rfl rfl

theorem C.packTitle_eq (ht : ∀ b ∈ t, b ≠ 0) : C.packTitle (C.string t) = Plib.packTitle t := by
  unfold C.packTitle Plib.packTitle
  rw [C.scan_eq ht (Nat.zero_le _), Nat.zero_add, C.backTo_eq ht]
  rfl

end

/-! ### Events -/

section

variable {x : Int32} {n : News}

theorem orIf_or (c : Bool) (b f g : UInt64) : orIf c b (f ||| g) = f ||| orIf c b g := by
  cases c
  · rfl
  · exact UInt64.or_assoc ..

theorem toNat_flags (c₀ c₁ c₂ c₃ c₄ : Bool) :
    (orIf c₄ 16 (orIf c₃ 8 (orIf c₂ 4 (orIf c₁ 2 (orIf c₀ 1 0))))).toNat =
      c₀.toNat + 2 * c₁.toNat + 4 * c₂.toNat + 8 * c₃.toNat + 16 * c₄.toNat := by
  cases c₀ <;> cases c₁ <;> cases c₂ <;> cases c₃ <;> cases c₄ <;> rfl

/-- What the window server may say: sizes of sixteen bits, a wheel that is not clamped, a colour. -/
structure News.Sendable (n : News) : Prop where
  w : Bits 16 n.w
  h : Bits 16 n.h
  wheel : -127 ≤ n.wheel ∧ n.wheel ≤ 127
  accent : n.accent.toNat < 2 ^ 24

/-- What a program reads: the size of the window, as far as it is on the surface, and the rest as it
was. -/
def News.event (n : News) (key : Option Key) : WmEvent where
  close := n.close
  focused := n.focused
  dark := n.dark
  visible := n.visible
  more := n.more
  changed := false
  w := min n.w SURF_W
  h := min n.h SURF_H
  mx := n.mx
  my := n.my
  down := n.down
  click := n.click
  rclick := n.rclick
  double := n.double
  wheel := n.wheel
  key := key
  menu := n.menu
  accent := n.accent

/-- The same for a C program. -/
def C.event (n : News) (key : Key) : C.WmEvent where
  close := n.close
  focused := n.focused
  dark := n.dark
  more := n.more
  visible := n.visible
  changed := false
  w := min n.w SURF_W
  h := min n.h SURF_H
  mx := n.mx
  my := n.my
  down := n.down
  click := n.click
  rclick := n.rclick
  dbl := n.double
  wheel := n.wheel
  key := key.code
  mods := key.mods
  ch := key.ch
  menu := n.menu
  accent := n.accent

theorem min_eq (x y : Int32) : min x y = x ∨ min x y = y := by
  change (if x ≤ y then x else y) = x ∨ (if x ≤ y then x else y) = y
  split_ifs
  · exact .inl rfl
  · exact .inr rfl

theorem Bits.min {k : Nat} {y : Int32} (hx : Bits k x) (hy : Bits k y) : Bits k (min x y) := by
  rcases min_eq x y with h | h <;> rw [h]
  · exact hx
  · exact hy

theorem News.toNat_d0 (hw : Bits 16 n.w) (hh : Bits 16 n.h) : n.data.d0.toNat =
    (min n.w SURF_W).toInt.toNat * 2 ^ 16 + (min n.h SURF_H).toInt.toNat * 2 ^ 32 +
      (n.close.toNat + 2 * n.focused.toNat + 4 * n.dark.toNat + 8 * n.more.toNat +
        16 * n.visible.toNat) := by
  obtain ⟨hwv, hwlt⟩ := (hw.min (y := SURF_W) ⟨by decide, by decide⟩).toNat_asU64
  obtain ⟨hhv, hhlt⟩ := (hh.min (y := SURF_H) ⟨by decide, by decide⟩).toNat_asU64
  have hw' : (asU64 (min n.w SURF_W) <<< 16).toNat = (min n.w SURF_W).toInt.toNat * 2 ^ 16 := by
    rw [toNat_shl (s := 16) (by decide)
      (show (asU64 (min n.w SURF_W)).toNat * 2 ^ 16 < 2 ^ 64 by omega), hwv]
    rfl
  have hh' : (asU64 (min n.h SURF_H) <<< 32).toNat = (min n.h SURF_H).toInt.toNat * 2 ^ 32 := by
    rw [toNat_shl (s := 32) (by decide)
      (show (asU64 (min n.h SURF_H)).toNat * 2 ^ 32 < 2 ^ 64 by omega), hhv]
    rfl
  have hsize : (asU64 (min n.w SURF_W) <<< 16 ||| asU64 (min n.h SURF_H) <<< 32).toNat =
      (min n.w SURF_W).toInt.toNat * 2 ^ 16 + (min n.h SURF_H).toInt.toNat * 2 ^ 32 := by
    rw [UInt64.or_comm, toNat_or8 32 (by omega) (by omega), hw', hh', Nat.add_comm]
  have hflags : n.data.d0 = (asU64 (min n.w SURF_W) <<< 16 ||| asU64 (min n.h SURF_H) <<< 32) |||
      orIf n.visible 16 (orIf n.more 8 (orIf n.dark 4 (orIf n.focused 2 (orIf n.close 1 0)))) := by
    rw [← orIf_or, ← orIf_or, ← orIf_or, ← orIf_or, ← orIf_or, UInt64.or_zero]
    rfl
  have h0 := n.close.toNat_le
  have h1 := n.focused.toNat_le
  have h2 := n.dark.toNat_le
  have h3 := n.more.toNat_le
  have h4 := n.visible.toNat_le
  rw [hflags, toNat_or8 16 (by omega) (by rw [toNat_flags]; omega), hsize, toNat_flags]

theorem bit_eq (k : Nat) {v b : UInt64} {c : Bool} (hb : b.toNat = 2 ^ k)
    (hv : v.toNat / 2 ^ k % 2 = c.toNat) : decide (v &&& b ≠ 0) = c := by
  rw [bit_iff k v hb, hv]
  cases c <;> rfl

theorem News.toNat_d3 (n : News) : n.data.d3.toNat = (wheelByte n.wheel).toNat * 2 ^ 8 +
    (n.down.toNat + 2 * n.click.toNat + 4 * n.rclick.toNat + 8 * n.double.toNat) := by
  have hb : (wheelByte n.wheel).toNat < 2 ^ 8 := (wheelByte n.wheel).toNat_lt
  have hwheel : ((wheelByte n.wheel).toUInt64 <<< 8).toNat = (wheelByte n.wheel).toNat * 2 ^ 8 := by
    rw [toNat_shl (s := 8) (by decide)
      (show (wheelByte n.wheel).toUInt64.toNat * 2 ^ 8 < 2 ^ 64 by
        rw [UInt8.toNat_toUInt64]
        omega), UInt8.toNat_toUInt64]
    rfl
  have hflags := toNat_flags n.down n.click n.rclick n.double false
  have h0 := n.down.toNat_le
  have h1 := n.click.toNat_le
  have h2 := n.rclick.toNat_le
  have h3 := n.double.toNat_le
  change (orIf n.double 8 (orIf n.rclick 4 (orIf n.click 2 (orIf n.down 1 0))) |||
    (wheelByte n.wheel).toUInt64 <<< 8).toNat = _
  change (orIf n.double 8 (orIf n.rclick 4 (orIf n.click 2 (orIf n.down 1 0)))).toNat = _ at hflags
  rw [Bool.toNat_false] at hflags
  rw [UInt64.or_comm, toNat_or8 8 (by omega) (by omega), hwheel, hflags]
  rfl

theorem wheelByte_eq (h : -127 ≤ x ∧ x ≤ 127) : (wheelByte x).toInt8.toInt32 = x := by
  have hclamp : max (-127) (min x 127) = x := by
    have hmin : min x 127 = x := if_pos h.2
    rw [hmin]
    exact if_pos h.1
  have hlow : -127 ≤ x.toInt := Int32.le_iff_toInt_le.mp h.1
  have hhigh : x.toInt ≤ 127 := Int32.le_iff_toInt_le.mp h.2
  rw [wheelByte, hclamp, Int8.toInt8_toUInt8, ← Int32.toInt_inj, Int8.toInt_toInt32,
    Int32.toInt_toInt8]
  exact Int.bmod_eq_of_le (by omega) (by omega)

theorem News.d5_eq (ha : n.accent.toNat < 2 ^ 24) :
    n.data.d5.toUInt16 = n.menu ∧ (n.data.d5 >>> 32).toUInt32 &&& 0xFFFFFF = n.accent := by
  have hm : n.menu.toNat < 2 ^ 16 := n.menu.toNat_lt
  have hacc : (n.accent.toUInt64 <<< 32).toNat = n.accent.toNat * 2 ^ 32 := by
    rw [toNat_shl (s := 32) (by decide)
      (show n.accent.toUInt64.toNat * 2 ^ 32 < 2 ^ 64 by
        rw [UInt32.toNat_toUInt64]
        omega), UInt32.toNat_toUInt64]
    rfl
  have hval : n.data.d5.toNat = n.accent.toNat * 2 ^ 32 + n.menu.toNat := by
    change (n.menu.toUInt64 ||| n.accent.toUInt64 <<< 32).toNat = _
    rw [UInt64.or_comm, toNat_or8 32 (by omega) (by rw [UInt16.toNat_toUInt64]; omega), hacc,
      UInt16.toNat_toUInt64]
  constructor
  · refine UInt16.toNat_inj.mp ?_
    rw [UInt64.toNat_toUInt16, hval]
    omega
  · refine UInt32.toNat_inj.mp ?_
    rw [UInt32.toNat_and, UInt64.toNat_toUInt32, toNat_shr (s := 32) (by decide), hval]
    change (n.accent.toNat * 2 ^ 32 + n.menu.toNat) / 2 ^ 32 % 2 ^ 32 &&& (2 ^ 24 - 1) = _
    rw [Nat.and_two_pow_sub_one_eq_mod]
    omega

theorem Key.toNat_pack (k : Key) :
    k.pack.toNat = k.code.toNat + k.mods.toNat * 2 ^ 16 + k.ch.toNat * 2 ^ 32 := by
  have hc : k.code.toNat < 2 ^ 16 := k.code.toNat_lt
  have hm : k.mods.toNat < 2 ^ 8 := k.mods.toNat_lt
  have hch : k.ch.toNat < 2 ^ 32 := k.ch.toNat_lt
  have hmods : (k.mods.toUInt64 <<< 16).toNat = k.mods.toNat * 2 ^ 16 := by
    rw [toNat_shl (s := 16) (by decide)
      (show k.mods.toUInt64.toNat * 2 ^ 16 < 2 ^ 64 by
        rw [UInt8.toNat_toUInt64]
        omega), UInt8.toNat_toUInt64]
    rfl
  have hchar : (k.ch.toUInt64 <<< 32).toNat = k.ch.toNat * 2 ^ 32 := by
    rw [toNat_shl (s := 32) (by decide)
      (show k.ch.toUInt64.toNat * 2 ^ 32 < 2 ^ 64 by
        rw [UInt32.toNat_toUInt64]
        omega), UInt32.toNat_toUInt64]
    rfl
  have hlow : (k.code.toUInt64 ||| k.mods.toUInt64 <<< 16).toNat =
      k.code.toNat + k.mods.toNat * 2 ^ 16 := by
    rw [UInt64.or_comm, toNat_or8 16 (by omega) (by rw [UInt16.toNat_toUInt64]; omega), hmods,
      UInt16.toNat_toUInt64, Nat.add_comm]
  rw [Key.pack, UInt64.or_comm, toNat_or8 32 (by omega) (by omega), hchar, hlow, Nat.add_comm]

theorem Key.parts (k : Key) : k.pack.toUInt16 = k.code ∧ (k.pack >>> 16).toUInt8 = k.mods ∧
    (k.pack >>> 32).toUInt32 = k.ch := by
  have hc : k.code.toNat < 2 ^ 16 := k.code.toNat_lt
  have hm : k.mods.toNat < 2 ^ 8 := k.mods.toNat_lt
  have hch : k.ch.toNat < 2 ^ 32 := k.ch.toNat_lt
  have hval := k.toNat_pack
  refine ⟨UInt16.toNat_inj.mp ?_, UInt8.toNat_inj.mp ?_, UInt32.toNat_inj.mp ?_⟩
  · rw [UInt64.toNat_toUInt16, hval]
    omega
  · rw [UInt64.toNat_toUInt8, toNat_shr (s := 16) (by decide), hval]
    change (k.code.toNat + k.mods.toNat * 2 ^ 16 + k.ch.toNat * 2 ^ 32) / 2 ^ 16 % 2 ^ 8 = _
    omega
  · rw [UInt64.toNat_toUInt32, toNat_shr (s := 32) (by decide), hval]
    change (k.code.toNat + k.mods.toNat * 2 ^ 16 + k.ch.toNat * 2 ^ 32) / 2 ^ 32 % 2 ^ 32 = _
    omega

theorem Key.unpack_pack {k : Key} (hk : k.code ≠ 0) : Key.unpack k.pack = some k := by
  have hne : k.pack &&& 0xFFFF ≠ 0 := by
    intro hc
    have hzero := congrArg UInt64.toNat hc
    rw [toNat_mask 16 _ rfl, k.toNat_pack] at hzero
    have hlt : k.code.toNat < 2 ^ 16 := k.code.toNat_lt
    change _ = 0 at hzero
    exact hk (UInt16.toNat_inj.mp (show k.code.toNat = 0 by omega))
  obtain ⟨hcode, hmods, hch⟩ := k.parts
  rw [Key.unpack, if_neg hne, hcode, hmods, hch]

theorem News.fields (h : n.Sendable) :
    (decide (n.data.d0 &&& 1 ≠ 0) = n.close ∧ decide (n.data.d0 &&& 2 ≠ 0) = n.focused ∧
      decide (n.data.d0 &&& 4 ≠ 0) = n.dark ∧ decide (n.data.d0 &&& 8 ≠ 0) = n.more ∧
      decide (n.data.d0 &&& 16 ≠ 0) = n.visible) ∧
    (asI32 (n.data.d0 >>> 16 &&& 0xFFFF) = min n.w SURF_W ∧
      asI32 (n.data.d0 >>> 32 &&& 0xFFFF) = min n.h SURF_H) ∧
    (decide (n.data.d3 &&& 1 ≠ 0) = n.down ∧ decide (n.data.d3 &&& 2 ≠ 0) = n.click ∧
      decide (n.data.d3 &&& 4 ≠ 0) = n.rclick ∧ decide (n.data.d3 &&& 8 ≠ 0) = n.double) ∧
    (n.data.d3 >>> 8).toUInt8.toInt8.toInt32 = n.wheel := by
  have hw := h.w.min (y := SURF_W) ⟨by decide, by decide⟩
  have hh := h.h.min (y := SURF_H) ⟨by decide, by decide⟩
  have hwlt := hw.toNat_asU64.2
  have hhlt := hh.toNat_asU64.2
  have hd0 := n.toNat_d0 h.w h.h
  have hd3 := n.toNat_d3
  have hb : (wheelByte n.wheel).toNat < 2 ^ 8 := (wheelByte n.wheel).toNat_lt
  have h0 := n.close.toNat_le
  have h1 := n.focused.toNat_le
  have h2 := n.dark.toNat_le
  have h3 := n.more.toNat_le
  have h4 := n.visible.toNat_le
  have k0 := n.down.toNat_le
  have k1 := n.click.toNat_le
  have k2 := n.rclick.toNat_le
  have k3 := n.double.toNat_le
  refine ⟨⟨bit_eq 0 rfl (by omega), bit_eq 1 rfl (by omega), bit_eq 2 rfl (by omega),
      bit_eq 3 rfl (by omega), bit_eq 4 rfl (by omega)⟩, ⟨asI32_eq hw.1 ?_, asI32_eq hh.1 ?_⟩,
    ⟨bit_eq 0 rfl (by omega), bit_eq 1 rfl (by omega), bit_eq 2 rfl (by omega),
      bit_eq 3 rfl (by omega)⟩, ?_⟩
  · rw [toNat_mask 16 _ rfl, toNat_shr (s := 16) (by decide)]
    change n.data.d0.toNat / 2 ^ 16 % 2 ^ 16 = _
    omega
  · rw [toNat_mask 16 _ rfl, toNat_shr (s := 32) (by decide)]
    change n.data.d0.toNat / 2 ^ 32 % 2 ^ 16 = _
    omega
  · have hbyte : (n.data.d3 >>> 8).toUInt8 = wheelByte n.wheel := by
      refine UInt8.toNat_inj.mp ?_
      rw [UInt64.toNat_toUInt8, toNat_shr (s := 8) (by decide)]
      change n.data.d3.toNat / 2 ^ 8 % 2 ^ 8 = _
      omega
    rw [hbyte, wheelByte_eq h.wheel]

theorem asU64_back (x : Int32) : (asU64 x).toInt64.toInt32 = x ∧ asI32 (asU64 x) = x := by
  refine ⟨by simp [asU64], ?_⟩
  rw [← Int32.toBitVec_inj]
  refine BitVec.eq_of_getLsbD_eq fun i hi => ?_
  have hlow : (BitVec.setWidth 32 (BitVec.signExtend 64 x.toBitVec)).getLsbD i =
      x.toBitVec.getLsbD i := by
    rw [BitVec.getLsbD_setWidth, BitVec.getLsbD_signExtend]
    simp only [hi, decide_true, Bool.true_and, if_true, show i < 64 by omega]
  simpa [asI32, asU64] using hlow

/-- **The events**, as a Rust program reads them. -/
theorem decode_fillPoll (h : n.Sendable) :
    WmEvent.decode n.data = n.event (Key.unpack n.key) := by
  obtain ⟨⟨hclose, hfocus, hdark, hmore, hvis⟩, ⟨hw, hh⟩, ⟨hdown, hclick, hrclick, hdouble⟩,
    hwheel⟩ := News.fields h
  obtain ⟨hmenu, hacc⟩ := News.d5_eq h.accent
  have hbyte : (n.data.d3 >>> 8 &&& 0xFF).toUInt8 = (n.data.d3 >>> 8).toUInt8 := by
    refine UInt8.toNat_inj.mp ?_
    rw [UInt64.toNat_toUInt8, UInt64.toNat_toUInt8, toNat_mask 8 _ rfl, Nat.mod_mod]
  exact WmEvent.ext hclose hfocus hdark hvis hmore rfl hw hh (asU64_back n.mx).1
    (asU64_back n.my).1 hdown hclick hrclick hdouble
    ((congrArg (fun b : UInt8 => b.toInt8.toInt32) hbyte).trans hwheel) rfl hmenu hacc

/-- **The events**, as a C program reads them. -/
theorem C.decode_fillPoll (h : n.Sendable) {k : Key} (hk : n.key = k.pack) :
    C.decode n.data = C.event n k := by
  obtain ⟨⟨hclose, hfocus, hdark, hmore, hvis⟩, ⟨hw, hh⟩, ⟨hdown, hclick, hrclick, hdouble⟩,
    hwheel⟩ := News.fields h
  obtain ⟨hmenu, hacc⟩ := News.d5_eq h.accent
  obtain ⟨hcode, hmods, hch⟩ := k.parts
  rw [← hk] at hcode hmods hch
  exact C.WmEvent.ext hclose hfocus hdark hmore hvis rfl hw hh (asU64_back n.mx).2
    (asU64_back n.my).2 hdown hclick hrclick hdouble hwheel hcode hmods hch hmenu hacc

end

/-! ### All messages -/

/-- **The messages agree**: what one side packs, the other reads, whatever the libraries are; of the
size of a window what is on its surface, and of a title what fits. -/
theorem messages_agree {r : Rect} (hr : Sendable r) {w h : Int32} (hw : Bits 16 w) (hh : Bits 16 h)
    {t : List UInt8} (ht : ∀ b ∈ t, b ≠ 0) {n : News} (hn : n.Sendable) {k : Key}
    (hk : k.code ≠ 0) :
    (commitDamage (packDamage r) = some r ∧ commitDamage (C.packDamage r) = some r ∧
      commitSize (packSize w h) = (w, h)) ∧
    (Sent t (unpackTitle (packTitle t)) ∧
      Sent t (unpackTitle (C.packTitle (C.string t)))) ∧
    WmEvent.decode { n with key := k.pack }.data = n.event (some k) ∧
      C.decode { n with key := k.pack }.data = C.event n k := by
  have hn' : News.Sendable { n with key := k.pack } := ⟨hn.w, hn.h, hn.wheel, hn.accent⟩
  refine ⟨⟨commit_pack_damage hr, C.commit_pack_damage hr, commit_size hw hh⟩,
    ⟨unpack_pack_title ht, ?_⟩, ?_, ?_⟩
  · rw [C.packTitle_eq ht]
    exact unpack_pack_title ht
  · refine (decode_fillPoll hn').trans ?_
    rw [Key.unpack_pack hk]
    rfl
  · exact C.decode_fillPoll hn' rfl

/-- A window of 800 by 600, with the focus. -/
def small : News where
  close := false
  focused := true
  dark := true
  more := false
  visible := true
  w := 800
  h := 600
  mx := -5
  my := 17
  down := true
  click := false
  rclick := false
  double := false
  wheel := -3
  key := 0
  menu := 7
  accent := 0x3B82F6

/-- A title of 40 bytes is cut. -/
theorem messages_agree_small :
    (commitDamage (packDamage ⟨1, 2, 30, 40⟩) = some ⟨1, 2, 30, 40⟩ ∧
      commitDamage (C.packDamage ⟨1, 2, 30, 40⟩) = some ⟨1, 2, 30, 40⟩ ∧
      commitSize (packSize 800 600) = (800, 600)) ∧
    (Sent (List.replicate 40 80) (unpackTitle (packTitle (List.replicate 40 80))) ∧
      Sent (List.replicate 40 80) (unpackTitle (C.packTitle (C.string (List.replicate 40 80))))) ∧
    WmEvent.decode { small with key := (Key.mk 30 97 1).pack }.data =
        small.event (some ⟨30, 97, 1⟩) ∧
      C.decode { small with key := (Key.mk 30 97 1).pack }.data = C.event small ⟨30, 97, 1⟩ :=
  messages_agree
    ⟨⟨by decide, by decide⟩, ⟨by decide, by decide⟩, ⟨by decide, by decide⟩,
      ⟨by decide, by decide⟩, by decide⟩ ⟨by decide, by decide⟩ ⟨by decide, by decide⟩
    (fun b hb => List.eq_of_mem_replicate hb ▸ by decide) ⟨⟨by decide, by decide⟩, ⟨by decide, by decide⟩, by decide, by decide⟩ (by decide)

/-- A window of 3000 is sent as wide as a surface is, and a key without a code is sent as none. -/
theorem size_clamped :
    (WmEvent.decode { small with w := 3000 }.data).w = 2560 ∧
      (C.decode { small with w := 3000 }.data).w = 2560 ∧
      (WmEvent.decode { small with key := (Key.mk 0 97 0).pack }.data).key = none := by
  decide

end Pulsar.Plib

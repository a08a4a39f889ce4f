import Mathlib.Logic.Function.Basic
import Mathlib.Tactic.Common
import Pulsar.Plib.Messages
import Pulsar.Shell.Config

/-!
# The keyboard (`Keyboard::feed` in `plib/src/lib.rs`, `plib/src/keymaps.rs`)

A keyboard has one bit for each modifier, set by a key that is pressed and cleared by one that is
released, and a dead key that waits for a character. `Board` is what is on the desk: the keys that
are held, how often Caps Lock was pressed, and the accent that waits.

* `packMods_update`: the bits of the modifiers, after one of them changes.
* `feed_agrees`: an event keeps both the same, unless it releases a modifier that another key holds
  or repeats Caps Lock.
* **`keys_agree`**: a run of such events; `modifier_lost` is one with the others.
-/

namespace Pulsar.Plib

open Shell (Layout)

namespace key

def LCTRL : UInt16 := 29
def LSHIFT : UInt16 := 42
def RSHIFT : UInt16 := 54
def LALT : UInt16 := 56
def CAPS : UInt16 := 58
def RCTRL : UInt16 := 97
def RALT : UInt16 := 100
def LMETA : UInt16 := 125
def RMETA : UInt16 := 126

end key

def MOD_SHIFT : UInt8 := 1
def MOD_CTRL : UInt8 := 2
def MOD_ALT : UInt8 := 4
def MOD_META : UInt8 := 8
def MOD_ALTGR : UInt8 := 16
def MOD_CAPS : UInt8 := 32

def DEAD_BIT : UInt32 := 0x80000000

/-! ### The layouts -/

/-- The keys with a character: without and with Shift, and with AltGr without and with Shift. -/
structure LayoutDef where
  altgr : Bool
  keys : List (UInt16 × UInt32 × UInt32 × UInt32 × UInt32)

def ABNT : LayoutDef where
  altgr := true
  keys := [
    (2, 0x31, 0x21, 0xb9, 0), (3, 0x32, 0x40, 0xb2, 0), (4, 0x33, 0x23, 0xb3, 0),
    (5, 0x34, 0x24, 0xa3, 0), (6, 0x35, 0x25, 0xa2, 0), (7, 0x36, 0x800000a8, 0xac, 0),
    (8, 0x37, 0x26, 0, 0), (9, 0x38, 0x2a, 0, 0), (10, 0x39, 0x28, 0, 0), (11, 0x30, 0x29, 0, 0),
    (12, 0x2d, 0x5f, 0, 0), (13, 0x3d, 0x2b, 0xa7, 0), (16, 0x71, 0x51, 0x2f, 0),
    (17, 0x77, 0x57, 0x3f, 0), (18, 0x65, 0x45, 0xb0, 0), (19, 0x72, 0x52, 0, 0),
    (20, 0x74, 0x54, 0, 0), (21, 0x79, 0x59, 0, 0), (22, 0x75, 0x55, 0, 0), (23, 0x69, 0x49, 0, 0),
    (24, 0x6f, 0x4f, 0, 0), (25, 0x70, 0x50, 0, 0), (26, 0x800000b4, 0x80000060, 0, 0),
    (27, 0x5b, 0x7b, 0xaa, 0), (30, 0x61, 0x41, 0, 0), (31, 0x73, 0x53, 0, 0),
    (32, 0x64, 0x44, 0, 0), (33, 0x66, 0x46, 0, 0), (34, 0x67, 0x47, 0, 0), (35, 0x68, 0x48, 0, 0),
    (36, 0x6a, 0x4a, 0, 0), (37, 0x6b, 0x4b, 0, 0), (38, 0x6c, 0x4c, 0, 0), (39, 0xe7, 0xc7, 0, 0),
    (40, 0x8000007e, 0x8000005e, 0, 0), (41, 0x27, 0x22, 0, 0), (43, 0x5d, 0x7d, 0xba, 0),
    (44, 0x7a, 0x5a, 0, 0), (45, 0x78, 0x58, 0, 0), (46, 0x63, 0x43, 0, 0), (47, 0x76, 0x56, 0, 0),
    (48, 0x62, 0x42, 0, 0), (49, 0x6e, 0x4e, 0, 0), (50, 0x6d, 0x4d, 0, 0), (51, 0x2c, 0x3c, 0, 0),
    (52, 0x2e, 0x3e, 0, 0), (53, 0x3b, 0x3a, 0, 0), (86, 0x5c, 0x7c, 0, 0)]

def ABNT2 : LayoutDef where
  altgr := true
  keys := [
    (2, 0x31, 0x21, 0xb9, 0), (3, 0x32, 0x40, 0xb2, 0), (4, 0x33, 0x23, 0xb3, 0),
    (5, 0x34, 0x24, 0xa3, 0), (6, 0x35, 0x25, 0xa2, 0), (7, 0x36, 0x800000a8, 0xac, 0),
    (8, 0x37, 0x26, 0, 0), (9, 0x38, 0x2a, 0, 0), (10, 0x39, 0x28, 0, 0), (11, 0x30, 0x29, 0, 0),
    (12, 0x2d, 0x5f, 0, 0), (13, 0x3d, 0x2b, 0xa7, 0), (16, 0x71, 0x51, 0x2f, 0),
    (17, 0x77, 0x57, 0x3f, 0), (18, 0x65, 0x45, 0xb0, 0), (19, 0x72, 0x52, 0, 0),
    (20, 0x74, 0x54, 0, 0), (21, 0x79, 0x59, 0, 0), (22, 0x75, 0x55, 0, 0), (23, 0x69, 0x49, 0, 0),
    (24, 0x6f, 0x4f, 0, 0), (25, 0x70, 0x50, 0, 0), (26, 0x800000b4, 0x80000060, 0, 0),
    (27, 0x5b, 0x7b, 0xaa, 0), (30, 0x61, 0x41, 0, 0), (31, 0x73, 0x53, 0, 0),
    (32, 0x64, 0x44, 0, 0), (33, 0x66, 0x46, 0, 0), (34, 0x67, 0x47, 0, 0), (35, 0x68, 0x48, 0, 0),
    (36, 0x6a, 0x4a, 0, 0), (37, 0x6b, 0x4b, 0, 0), (38, 0x6c, 0x4c, 0, 0), (39, 0xe7, 0xc7, 0, 0),
    (40, 0x8000007e, 0x8000005e, 0, 0), (41, 0x27, 0x22, 0, 0), (43, 0x5d, 0x7d, 0xba, 0),
    (44, 0x7a, 0x5a, 0, 0), (45, 0x78, 0x58, 0, 0), (46, 0x63, 0x43, 0, 0), (47, 0x76, 0x56, 0, 0),
    (48, 0x62, 0x42, 0, 0), (49, 0x6e, 0x4e, 0, 0), (50, 0x6d, 0x4d, 0, 0), (51, 0x2c, 0x3c, 0, 0),
    (52, 0x2e, 0x3e, 0, 0), (53, 0x3b, 0x3a, 0, 0), (86, 0x5c, 0x7c, 0, 0),
    (89, 0x2f, 0x3f, 0xb0, 0)]

def US : LayoutDef where
  altgr := false
  keys := [
    (2, 0x31, 0x21, 0, 0), (3, 0x32, 0x40, 0, 0), (4, 0x33, 0x23, 0, 0), (5, 0x34, 0x24, 0, 0),
    (6, 0x35, 0x25, 0, 0), (7, 0x36, 0x5e, 0, 0), (8, 0x37, 0x26, 0, 0), (9, 0x38, 0x2a, 0, 0),
    (10, 0x39, 0x28, 0, 0), (11, 0x30, 0x29, 0, 0), (12, 0x2d, 0x5f, 0, 0), (13, 0x3d, 0x2b, 0, 0),
    (16, 0x71, 0x51, 0, 0), (17, 0x77, 0x57, 0, 0), (18, 0x65, 0x45, 0, 0), (19, 0x72, 0x52, 0, 0),
    (20, 0x74, 0x54, 0, 0), (21, 0x79, 0x59, 0, 0), (22, 0x75, 0x55, 0, 0), (23, 0x69, 0x49, 0, 0),
    (24, 0x6f, 0x4f, 0, 0), (25, 0x70, 0x50, 0, 0), (26, 0x5b, 0x7b, 0, 0), (27, 0x5d, 0x7d, 0, 0),
    (30, 0x61, 0x41, 0, 0), (31, 0x73, 0x53, 0, 0), (32, 0x64, 0x44, 0, 0), (33, 0x66, 0x46, 0, 0),
    (34, 0x67, 0x47, 0, 0), (35, 0x68, 0x48, 0, 0), (36, 0x6a, 0x4a, 0, 0), (37, 0x6b, 0x4b, 0, 0),
    (38, 0x6c, 0x4c, 0, 0), (39, 0x3b, 0x3a, 0, 0), (40, 0x27, 0x22, 0, 0), (41, 0x60, 0x7e, 0, 0),
    (43, 0x5c, 0x7c, 0, 0), (44, 0x7a, 0x5a, 0, 0), (45, 0x78, 0x58, 0, 0), (46, 0x63, 0x43, 0, 0),
    (47, 0x76, 0x56, 0, 0), (48, 0x62, 0x42, 0, 0), (49, 0x6e, 0x4e, 0, 0), (50, 0x6d, 0x4d, 0, 0),
    (51, 0x2c, 0x3c, 0, 0), (52, 0x2e, 0x3e, 0, 0), (53, 0x2f, 0x3f, 0, 0), (86, 0x5c, 0x7c, 0, 0)]

def US_INTL : LayoutDef where
  altgr := true
  keys := [
    (2, 0x31, 0x21, 0xa1, 0xb9), (3, 0x32, 0x40, 0xb2, 0), (4, 0x33, 0x23, 0xb3, 0),
    (5, 0x34, 0x24, 0xa4, 0xa3), (6, 0x35, 0x25, 0x20ac, 0), (7, 0x36, 0x8000005e, 0xbc, 0),
    (8, 0x37, 0x26, 0, 0), (9, 0x38, 0x2a, 0, 0), (10, 0x39, 0x28, 0, 0), (11, 0x30, 0x29, 0, 0),
    (12, 0x2d, 0x5f, 0, 0), (13, 0x3d, 0x2b, 0xd7, 0xf7), (16, 0x71, 0x51, 0xe4, 0xc4),
    (17, 0x77, 0x57, 0, 0), (18, 0x65, 0x45, 0xe9, 0xc9), (19, 0x72, 0x52, 0xae, 0),
    (20, 0x74, 0x54, 0, 0), (21, 0x79, 0x59, 0xfc, 0xdc), (22, 0x75, 0x55, 0xfa, 0xda),
    (23, 0x69, 0x49, 0xed, 0xcd), (24, 0x6f, 0x4f, 0xf3, 0xd3), (25, 0x70, 0x50, 0xf6, 0xd6),
    (26, 0x5b, 0x7b, 0, 0), (27, 0x5d, 0x7d, 0, 0), (30, 0x61, 0x41, 0xe1, 0xc1),
    (31, 0x73, 0x53, 0xdf, 0xa7), (32, 0x64, 0x44, 0, 0), (33, 0x66, 0x46, 0, 0),
    (34, 0x67, 0x47, 0, 0), (35, 0x68, 0x48, 0, 0), (36, 0x6a, 0x4a, 0, 0), (37, 0x6b, 0x4b, 0, 0),
    (38, 0x6c, 0x4c, 0, 0), (39, 0x3b, 0x3a, 0, 0), (40, 0x800000b4, 0x800000a8, 0x27, 0x22),
    (41, 0x80000060, 0x8000007e, 0x60, 0x7e), (43, 0x5c, 0x7c, 0, 0), (44, 0x7a, 0x5a, 0, 0),
    (45, 0x78, 0x58, 0, 0), (46, 0x63, 0x43, 0xa9, 0), (47, 0x76, 0x56, 0, 0),
    (48, 0x62, 0x42, 0, 0), (49, 0x6e, 0x4e, 0xf1, 0xd1), (50, 0x6d, 0x4d, 0, 0),
    (51, 0x2c, 0x3c, 0xe7, 0xc7), (52, 0x2e, 0x3e, 0, 0), (53, 0x2f, 0x3f, 0xbf, 0),
    (86, 0x5c, 0x7c, 0, 0)]

def layoutDef : Layout → LayoutDef
  | .abnt => ABNT
  | .abnt2 => ABNT2
  | .us => US
  | .usIntl => US_INTL

def ALPHA : List UInt16 := [
    16, 17, 18, 19, 20, 21, 22, 23, 24, 25, 30, 31, 32, 33, 34, 35, 36, 37, 38, 39, 44, 45, 46, 47,
    48, 49, 50]

/-- The accent of the dead key, the character, and what both make. -/
def COMPOSE : List (UInt32 × UInt32 × UInt32) := [
    (0xb4, 0x61, 0xe1), (0xb4, 0x65, 0xe9), (0xb4, 0x69, 0xed), (0xb4, 0x6f, 0xf3),
    (0xb4, 0x75, 0xfa), (0xb4, 0x41, 0xc1), (0xb4, 0x45, 0xc9), (0xb4, 0x49, 0xcd),
    (0xb4, 0x4f, 0xd3), (0xb4, 0x55, 0xda), (0xb4, 0x79, 0xfd), (0xb4, 0x59, 0xdd),
    (0xb4, 0x63, 0xe7), (0xb4, 0x43, 0xc7), (0xb4, 0x20, 0xb4), (0xb4, 0xb4, 0xb4),
    (0x60, 0x61, 0xe0), (0x60, 0x65, 0xe8), (0x60, 0x69, 0xec), (0x60, 0x6f, 0xf2),
    (0x60, 0x75, 0xf9), (0x60, 0x41, 0xc0), (0x60, 0x45, 0xc8), (0x60, 0x49, 0xcc),
    (0x60, 0x4f, 0xd2), (0x60, 0x55, 0xd9), (0x60, 0x20, 0x60), (0x60, 0x60, 0x60),
    (0x5e, 0x61, 0xe2), (0x5e, 0x65, 0xea), (0x5e, 0x69, 0xee), (0x5e, 0x6f, 0xf4),
    (0x5e, 0x75, 0xfb), (0x5e, 0x41, 0xc2), (0x5e, 0x45, 0xca), (0x5e, 0x49, 0xce),
    (0x5e, 0x4f, 0xd4), (0x5e, 0x55, 0xdb), (0x5e, 0x20, 0x5e), (0x5e, 0x5e, 0x5e),
    (0x7e, 0x61, 0xe3), (0x7e, 0x6f, 0xf5), (0x7e, 0x6e, 0xf1), (0x7e, 0x41, 0xc3),
    (0x7e, 0x4f, 0xd5), (0x7e, 0x4e, 0xd1), (0x7e, 0x20, 0x7e), (0x7e, 0x7e, 0x7e),
    (0xa8, 0x61, 0xe4), (0xa8, 0x65, 0xeb), (0xa8, 0x69, 0xef), (0xa8, 0x6f, 0xf6),
    (0xa8, 0x75, 0xfc), (0xa8, 0x41, 0xc4), (0xa8, 0x45, 0xcb), (0xa8, 0x49, 0xcf),
    (0xa8, 0x4f, 0xd6), (0xa8, 0x55, 0xdc), (0xa8, 0x79, 0xff), (0xa8, 0x20, 0xa8),
    (0xa8, 0xa8, 0xa8)]

def compose (dead c : UInt32) : Option UInt32 :=
  (COMPOSE.find? fun e => e.1 = dead ∧ e.2.1 = c).map (·.2.2)

/-- The keys that `translate` has for every layout. -/
def keypad (layout : Layout) (code : UInt16) : UInt32 :=
  if code = 57 then ' '.val else if code = 55 then '*'.val
  else if code = 71 then '7'.val else if code = 72 then '8'.val else if code = 73 then '9'.val
  else if code = 74 then '-'.val else if code = 75 then '4'.val else if code = 76 then '5'.val
  else if code = 77 then '6'.val else if code = 78 then '+'.val else if code = 79 then '1'.val
  else if code = 80 then '2'.val else if code = 81 then '3'.val else if code = 82 then '0'.val
  else if code = 83 then (if layout = .abnt ∨ layout = .abnt2 then ','.val else '.'.val)
  else if code = 98 then '/'.val
  else 0

/-- `def.keys[code]`. -/
def levels (layout : Layout) (code : UInt16) : UInt32 × UInt32 × UInt32 × UInt32 :=
  ((layoutDef layout).keys.find? (·.1 = code)).elim (0, 0, 0, 0) (·.2)

def atLevel (lv : UInt32 × UInt32 × UInt32 × UInt32) : Bool → Bool → UInt32
  | false, false => lv.1
  | false, true => lv.2.1
  | true, false => lv.2.2.1
  | true, true => if lv.2.2.2 ≠ 0 then lv.2.2.2 else lv.2.2.1

/-- The character of a key, at the level of AltGr, and of Shift and Caps Lock. -/
def levelChar (layout : Layout) (shift caps ag : Bool) (code : UInt16) : UInt32 :=
  if code < 128 ∧ levels layout code ≠ (0, 0, 0, 0) then
    atLevel (levels layout code) ag (if code ∈ ALPHA then shift ^^ caps else shift)
  else keypad layout code

/-! ### The keyboard -/

structure Keyboard where
  mods : UInt8
  caps : Bool
  dead : UInt32
  layout : Layout

/-- The bit of a key, 0 when it is no modifier. -/
def modBit (altgr : Bool) (code : UInt16) : UInt8 :=
  if code = key.LSHIFT ∨ code = key.RSHIFT then MOD_SHIFT
  else if code = key.LCTRL ∨ code = key.RCTRL then MOD_CTRL
  else if code = key.LALT then MOD_ALT
  else if code = key.RALT then (if altgr then MOD_ALTGR else MOD_ALT)
  else if code = key.LMETA ∨ code = key.RMETA then MOD_META
  else 0

namespace Keyboard

/-- `Keyboard::new()`, with the layout of the configuration. -/
def new (layout : Layout) : Keyboard := ⟨0, false, 0, layout⟩

def mods_now (k : Keyboard) : UInt8 := k.mods ||| if k.caps then MOD_CAPS else 0

def translate (k : Keyboard) (code : UInt16) : UInt32 :=
  levelChar k.layout (k.mods &&& MOD_SHIFT ≠ 0) k.caps (k.mods &&& MOD_ALTGR ≠ 0) code

/-- `feed(code, value)`. -/
def feed (k : Keyboard) (code : UInt16) (value : UInt32) : Keyboard × Option Key :=
  let down := value ≠ 0
  let bit := modBit (layoutDef k.layout).altgr code
  if bit ≠ 0 then
    let k := { k with mods := if down then k.mods ||| bit else k.mods &&& ~~~bit }
    (k, if down then some ⟨code, 0, k.mods_now⟩ else none)
  else if ¬ down then (k, none)
  else if code = key.CAPS then ({ k with caps := ! k.caps }, none)
  else if k.mods &&& (MOD_CTRL ||| MOD_META ||| MOD_ALT) ≠ 0 then
    -- only the code, with a modifier of shortcuts
    (k, some ⟨code, 0, k.mods_now⟩)
  else
    let v := k.translate code
    if v &&& DEAD_BIT ≠ 0 then
      let d := v &&& ~~~DEAD_BIT
      if k.dead ≠ 0 then
        ({ k with dead := if k.dead = d then 0 else d }, some ⟨code, k.dead, k.mods_now⟩)
      else ({ k with dead := d }, some ⟨code, 0, k.mods_now⟩)
    else if k.dead ≠ 0 ∧ v ≠ 0 then
      ({ k with dead := 0 },
        some ⟨code, if v = ' '.val then k.dead else (compose k.dead v).getD v, k.mods_now⟩)
    else (k, some ⟨code, v, k.mods_now⟩)

end Keyboard

/-! ### The desk -/

/-- The keys that are modifiers, and their bits. -/
def modKeys : List UInt16 :=
  [key.LSHIFT, key.RSHIFT, key.LCTRL, key.RCTRL, key.LALT, key.RALT, key.LMETA, key.RMETA]

def modBits : List UInt8 := [
  MOD_SHIFT, MOD_CTRL, MOD_ALT, MOD_META, MOD_ALTGR]

/-- The bits of some modifiers. -/
def packMods (a : UInt8 → Bool) : UInt8 := modBits.foldl (fun f m => if a m then f ||| m else f) 0

structure Board where
  layout : Layout
  held : UInt16 → Bool
  presses : Nat
  pending : Option UInt32

/-- A character, with the accent that waits for it. -/
def composed : Option UInt32 → UInt32 → UInt32
  | none, v => v
  | some d, v => if v = ' '.val then d else (compose d v).getD v

namespace Board

def new (layout : Layout) : Board := ⟨layout, fun _ => false, 0, none⟩

/-- A key of the modifier is held. -/
def active (b : Board) (m : UInt8) : Bool :=
  modKeys.any fun c => b.held c && modBit (layoutDef b.layout).altgr c = m

/-- Caps Lock was pressed an odd number of times. -/
def capsOn (b : Board) : Bool := b.presses % 2 = 1

/-- The modifiers that are reported. -/
def reported (b : Board) : UInt8 := packMods b.active ||| if b.capsOn then MOD_CAPS else 0

/-- The character of a key, as the keys that are held choose its level. -/
def char (b : Board) (code : UInt16) : UInt32 :=
  levelChar b.layout (b.active MOD_SHIFT) b.capsOn (b.active MOD_ALTGR) code

/-- A key is held (value 1, or 2 when it repeats) or is not (0). -/
def moved (b : Board) (code : UInt16) (value : UInt32) : Board where
  layout := b.layout
  held := Function.update b.held code (value ≠ 0)
  presses := if code = key.CAPS ∧ value = 1 then b.presses + 1 else b.presses
  pending := b.pending

/-- The character of a key that is pressed, and the accent that waits after it. -/
def typed (b : Board) (code : UInt16) : UInt32 × Option UInt32 :=
  if b.active MOD_CTRL ∨ b.active MOD_ALT ∨ b.active MOD_META then (0, b.pending)
  else if b.char code &&& DEAD_BIT ≠ 0 then
    (b.pending.getD 0, if b.pending = some (b.char code &&& ~~~DEAD_BIT) then none
      else some (b.char code &&& ~~~DEAD_BIT))
  else if b.char code = 0 then (0, b.pending)
  else (composed b.pending (b.char code), none)

/-- An event, and the key that is told. -/
def step (b : Board) (code : UInt16) (value : UInt32) : Board × Option Key :=
  let b := b.moved code value
  if value = 0 then (b, none)
  else if modBit (layoutDef b.layout).altgr code ≠ 0 then (b, some ⟨code, 0, b.reported⟩)
  else if code = key.CAPS then (b, none)
  else ({ b with pending := (b.typed code).2 }, some ⟨code, (b.typed code).1, b.reported⟩)

end Board

/-! ### Bits -/

section

variable {a c : UInt8 → Bool} {m : UInt8}

theorem packMods_eq (a : UInt8 → Bool) : packMods a =
    (if a MOD_SHIFT then 1 else 0) ||| (if a MOD_CTRL then 2 else 0) |||
      (if a MOD_ALT then 4 else 0) ||| (if a MOD_META then 8 else 0) |||
        (if a MOD_ALTGR then 16 else 0) := by
  simp only [packMods, modBits, List.foldl_cons, List.foldl_nil]
  generalize a MOD_SHIFT = x₁, a MOD_CTRL = x₂, a MOD_ALT = x₃, a MOD_META = x₄, a MOD_ALTGR = x₅
  revert x₁ x₂ x₃ x₄ x₅
  decide

theorem mem_modBits : m ∈ modBits ↔ m = MOD_SHIFT ∨ m = MOD_CTRL ∨ m = MOD_ALT ∨ m = MOD_META ∨
    m = MOD_ALTGR := by
  simp [modBits]

theorem packMods_bit (hm : m ∈ modBits) : decide (packMods a &&& m ≠ 0) = a m := by
  rw [packMods_eq]
  rcases mem_modBits.mp hm with rfl | rfl | rfl | rfl | rfl <;>
    (generalize a MOD_SHIFT = x₁, a MOD_CTRL = x₂, a MOD_ALT = x₃, a MOD_META = x₄,
      a MOD_ALTGR = x₅
     revert x₁ x₂ x₃ x₄ x₅
     decide)

/-- **One modifier changes**, and the others do not. -/
theorem packMods_update (hm : m ∈ modBits) (h : ∀ x ∈ modBits, x ≠ m → c x = a x) :
    packMods c = if c m then packMods a ||| m else packMods a &&& ~~~m := by
  have hc : ∀ x ∈ modBits, c x = if x = m then c m else a x := fun x hx => by
    split_ifs with hxm
    · rw [hxm]
    · exact h x hx hxm
  rw [packMods_eq c, packMods_eq a, hc MOD_SHIFT (by decide), hc MOD_CTRL (by decide),
    hc MOD_ALT (by decide), hc MOD_META (by decide), hc MOD_ALTGR (by decide)]
  generalize c m = y, a MOD_SHIFT = x₁, a MOD_CTRL = x₂, a MOD_ALT = x₃, a MOD_META = x₄,
    a MOD_ALTGR = x₅
  revert y x₁ x₂ x₃ x₄ x₅
  rcases mem_modBits.mp hm with rfl | rfl | rfl | rfl | rfl <;> decide

end

theorem modBit_mem {altgr : Bool} {code : UInt16} (h : modBit altgr code ≠ 0) :
    code ∈ modKeys ∧ modBit altgr code ∈ modBits := by
  unfold modBit at h ⊢
  split_ifs at h ⊢ with h₁ h₂ h₃ h₄ h₅ h₆
  · exact ⟨by rcases h₁ with rfl | rfl <;> decide, by decide⟩
  · exact ⟨by rcases h₂ with rfl | rfl <;> decide, by decide⟩
  · exact ⟨by rw [h₃]; decide, by decide⟩
  · exact ⟨by rw [h₄]; decide, by decide⟩
  · exact ⟨by rw [h₄]; decide, by decide⟩
  · exact ⟨by rcases h₆ with rfl | rfl <;> decide, by decide⟩
  · exact absurd rfl h

/-! ### One event -/

section

variable {k : Keyboard} {b : Board} {code : UInt16} {value : UInt32} {m : UInt8}

theorem Board.active_iff : b.active m = true ↔
    ∃ c ∈ modKeys, b.held c = true ∧ modBit (layoutDef b.layout).altgr c = m := by
  simp [Board.active]

/-- The keyboard has what is on the desk. -/
structure Agrees (k : Keyboard) (b : Board) : Prop where
  mods : k.mods = packMods b.active
  caps : k.caps = b.capsOn
  dead : b.pending = if k.dead = 0 then none else some k.dead
  layout : k.layout = b.layout

/-- An event that neither releases a modifier that another key holds nor repeats Caps Lock. -/
def Board.Clear (b : Board) (code : UInt16) (value : UInt32) : Prop :=
  (code = key.CAPS → value = 0 ∨ value = 1) ∧
    (value = 0 → ∀ c ∈ modKeys, c ≠ code → b.held c = true →
      modBit (layoutDef b.layout).altgr c ≠ modBit (layoutDef b.layout).altgr code)

theorem Board.moved_held_self : (b.moved code value).held code = decide (value ≠ 0) :=
  Function.update_self ..

theorem Board.moved_held_of_ne {c : UInt16} (h : c ≠ code) :
    (b.moved code value).held c = b.held c := Function.update_of_ne h ..

theorem Board.moved_active_of_ne (h : modBit (layoutDef b.layout).altgr code ≠ m) :
    (b.moved code value).active m = b.active m := by
  have hheld {c : UInt16} (hc : modBit (layoutDef b.layout).altgr c = m) :
      (b.moved code value).held c = b.held c :=
    Board.moved_held_of_ne fun heq => h (by rw [← heq, hc])
  rw [Bool.eq_iff_iff, Board.active_iff, Board.active_iff]
  constructor
  · rintro ⟨c, hkey, hon, hbit⟩
    exact ⟨c, hkey, (hheld hbit).symm.trans hon, hbit⟩
  · rintro ⟨c, hkey, hon, hbit⟩
    exact ⟨c, hkey, (hheld hbit).trans hon, hbit⟩

/-- **A modifier** is held when its key is pressed, and is not when it is released. -/
theorem Board.moved_active (hc : b.Clear code value)
    (h : modBit (layoutDef b.layout).altgr code ≠ 0) :
    (b.moved code value).active (modBit (layoutDef b.layout).altgr code) = decide (value ≠ 0) := by
  rw [Bool.eq_iff_iff, Board.active_iff, decide_eq_true_iff]
  constructor
  · rintro ⟨c, hkey, hon, hbit⟩ hzero
    by_cases heq : c = code
    · rw [heq, Board.moved_held_self, decide_eq_true_iff] at hon
      exact hon hzero
    · rw [Board.moved_held_of_ne heq] at hon
      exact hc.2 hzero c hkey heq hon hbit
  · intro hdown
    exact ⟨code, (modBit_mem h).1, Board.moved_held_self.trans (decide_eq_true hdown), rfl⟩

theorem packMods_congr {a c : UInt8 → Bool} (h : ∀ m ∈ modBits, c m = a m) :
    packMods c = packMods a := by
  rw [packMods_eq, packMods_eq, h _ (by decide), h _ (by decide), h _ (by decide), h _ (by decide),
    h _ (by decide)]

theorem packMods_shortcut (a : UInt8 → Bool) :
    packMods a &&& (MOD_CTRL ||| MOD_META ||| MOD_ALT) ≠ 0 ↔
      a MOD_CTRL = true ∨ a MOD_ALT = true ∨ a MOD_META = true := by
  rw [packMods_eq]
  generalize a MOD_SHIFT = x₁, a MOD_CTRL = x₂, a MOD_ALT = x₃, a MOD_META = x₄, a MOD_ALTGR = x₅
  revert x₁ x₂ x₃ x₄ x₅
  decide

/-- A value that is no dead key, or a dead key with its accent. -/
def Accented (v : UInt32) : Prop := v &&& DEAD_BIT ≠ 0 → v &&& ~~~DEAD_BIT ≠ 0

instance (v : UInt32) : Decidable (Accented v) := inferInstanceAs (Decidable (_ → _))

theorem levels_accented (layout : Layout) (code : UInt16) :
    Accented (levels layout code).1 ∧ Accented (levels layout code).2.1 ∧
      Accented (levels layout code).2.2.1 ∧ Accented (levels layout code).2.2.2 := by
  have hall : (layoutDef layout).keys.all (fun e => decide (Accented e.2.1 ∧ Accented e.2.2.1 ∧
      Accented e.2.2.2.1 ∧ Accented e.2.2.2.2)) = true := by
    cases layout <;> decide +kernel
  have htable : ∀ e ∈ (layoutDef layout).keys, Accented e.2.1 ∧ Accented e.2.2.1 ∧
      Accented e.2.2.2.1 ∧ Accented e.2.2.2.2 :=
    fun e he => of_decide_eq_true (List.all_eq_true.mp hall e he)
  unfold levels
  generalize (layoutDef layout).keys = keys at htable
  cases hfind : keys.find? (·.1 = code) with
  | none => exact ⟨by decide, by decide, by decide, by decide⟩
  | some e => exact htable e (List.mem_of_find?_eq_some hfind)

theorem atLevel_accented {lv : UInt32 × UInt32 × UInt32 × UInt32} (h : Accented lv.1 ∧
    Accented lv.2.1 ∧ Accented lv.2.2.1 ∧ Accented lv.2.2.2) (ag up : Bool) :
    Accented (atLevel lv ag up) := by
  obtain ⟨h₁, h₂, h₃, h₄⟩ := h
  cases ag <;> cases up
  · exact h₁
  · exact h₂
  · exact h₃
  · unfold atLevel
    split_ifs
    · exact h₄
    · exact h₃

theorem accented_ite {c : Prop} [Decidable c] {v w : UInt32} (hv : Accented v) (hw : Accented w) :
    Accented (if c then v else w) := by
  by_cases h : c
  · rwa [if_pos h]
  · rwa [if_neg h]

theorem keypad_accented (layout : Layout) (code : UInt16) : Accented (keypad layout code) := by
  unfold keypad
  repeat' apply accented_ite
  all_goals decide

/-- **A dead key** has an accent, in each layout. -/
theorem levelChar_accented (layout : Layout) (shift caps ag : Bool) (code : UInt16) :
    Accented (levelChar layout shift caps ag code) :=
  accented_ite (atLevel_accented (levels_accented layout code) ag _) (keypad_accented layout code)

theorem Agrees.mods_now (h : Agrees k b) : k.mods_now = b.reported := by
  rw [Keyboard.mods_now, Board.reported, h.mods, h.caps]

theorem Agrees.mods_moved (h : Agrees k b) (hbit : modBit (layoutDef b.layout).altgr code = 0) :
    k.mods = packMods (b.moved code value).active :=
  h.mods.trans (packMods_congr fun m hm => Board.moved_active_of_ne fun heq => by
    rw [hbit] at heq
    subst heq
    exact absurd hm (by decide)).symm

theorem Agrees.moved (h : Agrees k b) (hbit : modBit (layoutDef b.layout).altgr code = 0)
    (hcaps : ¬ (code = key.CAPS ∧ value = 1)) : Agrees k (b.moved code value) where
  mods := h.mods_moved hbit
  caps := by
    rw [h.caps, Board.capsOn, Board.capsOn, Board.moved, if_neg hcaps]
  dead := h.dead
  layout := h.layout

theorem Agrees.caps_pressed (h : Agrees k b) (hcaps : code = key.CAPS) (hone : value = 1)
    (hbit : modBit (layoutDef b.layout).altgr code = 0) :
    Agrees { k with caps := ! k.caps } (b.moved code value) where
  mods := h.mods_moved hbit
  caps := by
    rw [Board.capsOn, Board.moved, if_pos ⟨hcaps, hone⟩, h.caps, Board.capsOn]
    rcases Nat.mod_two_eq_zero_or_one b.presses with hp | hp
    · have hnext : (b.presses + 1) % 2 = 1 := by omega
      rw [hp, hnext]
      rfl
    · have hnext : (b.presses + 1) % 2 = 0 := by omega
      rw [hp, hnext]
      rfl
  dead := h.dead
  layout := h.layout

theorem Agrees.translate (h : Agrees k b) (code : UInt16) : k.translate code = b.char code := by
  rw [Keyboard.translate, Board.char, h.layout, h.caps, h.mods, packMods_bit (by decide),
    packMods_bit (by decide)]

theorem Agrees.typed (h : Agrees k b) (hbit : modBit (layoutDef k.layout).altgr code = 0)
    (hdown : value ≠ 0) (hcaps : code ≠ key.CAPS) :
    Agrees (k.feed code value).1 { b with pending := (b.typed code).2 } ∧
      (k.feed code value).2 = some ⟨code, (b.typed code).1, b.reported⟩ := by
  have hkeep (d : UInt32) (q : Option UInt32) (hq : q = if d = 0 then none else some d) :
      Agrees { k with dead := d } { b with pending := q } := ⟨h.mods, h.caps, hq, h.layout⟩
  have hsame : Agrees k { b with pending := b.pending } := ⟨h.mods, h.caps, h.dead, h.layout⟩
  have hnow (d : UInt32) : ({ k with dead := d } : Keyboard).mods_now = b.reported := h.mods_now
  unfold Keyboard.feed Board.typed
  rw [if_neg (not_not_intro hbit), if_neg (not_not_intro hdown), if_neg hcaps]
  by_cases hshort : k.mods &&& (MOD_CTRL ||| MOD_META ||| MOD_ALT) ≠ 0
  · have hactive := (packMods_shortcut b.active).mp (h.mods ▸ hshort)
    rw [if_pos hshort, if_pos hactive, h.mods_now]
    exact ⟨hsame, rfl⟩
  have hactive := mt (packMods_shortcut b.active).mpr (h.mods ▸ hshort)
  rw [if_neg hshort, if_neg hactive, h.translate, h.dead]
  have haccent : Accented (b.char code) := levelChar_accented _ _ _ _ _
  generalize b.char code = v at haccent
  by_cases hdead : v &&& DEAD_BIT ≠ 0
  · have hd := haccent hdead
    rw [if_pos hdead, if_pos hdead]
    by_cases h0 : k.dead = 0
    · rw [if_neg (not_not_intro h0), if_pos h0, if_neg (Option.some_ne_none _).symm]
      exact ⟨hkeep _ _ (if_neg hd).symm, congrArg some (congrArg (Key.mk code 0) (hnow _))⟩
    · rw [if_pos h0, if_neg h0]
      have hpending : (if some k.dead = some (v &&& ~~~DEAD_BIT) then none
          else some (v &&& ~~~DEAD_BIT)) =
          if (if k.dead = v &&& ~~~DEAD_BIT then 0 else v &&& ~~~DEAD_BIT) = 0 then none
          else some (if k.dead = v &&& ~~~DEAD_BIT then 0 else v &&& ~~~DEAD_BIT) := by
        by_cases heq : k.dead = v &&& ~~~DEAD_BIT
        · rw [if_pos heq, if_pos (congrArg some heq), if_pos rfl]
        · rw [if_neg heq, if_neg fun hc => heq (Option.some.inj hc), if_neg hd]
      exact ⟨hkeep _ _ hpending, congrArg some (congrArg (Key.mk code k.dead) (hnow _))⟩
  · rw [if_neg hdead, if_neg hdead]
    by_cases hv : v = 0
    · rw [if_neg fun hc => hc.2 hv, if_pos hv, hv]
      exact ⟨h.dead ▸ hsame, congrArg some (congrArg (Key.mk code 0) (hnow _))⟩
    rw [if_neg hv]
    by_cases h0 : k.dead = 0
    · rw [if_neg fun hc => hc.1 h0, if_pos h0]
      exact ⟨⟨h.mods, h.caps, (if_pos h0).symm, h.layout⟩,
        congrArg some (congrArg (Key.mk code v) (hnow _))⟩
    · rw [if_pos ⟨h0, hv⟩, if_neg h0]
      exact ⟨hkeep 0 none rfl, congrArg some (congrArg (Key.mk code _) (hnow _))⟩

/-- **An event** keeps both the same, and tells the same key. -/
theorem feed_agrees (h : Agrees k b) (hc : b.Clear code value) :
    Agrees (k.feed code value).1 (b.step code value).1 ∧
      (k.feed code value).2 = (b.step code value).2 := by
  by_cases hbit : modBit (layoutDef b.layout).altgr code = 0
  · have hbit' : modBit (layoutDef k.layout).altgr code = 0 := by rw [h.layout, hbit]
    have hstay : modBit (layoutDef (b.moved code value).layout).altgr code = 0 := hbit
    by_cases hdown : value = 0
    · have hk : Agrees k (b.moved code value) :=
        h.moved hbit fun hc => absurd (hdown.symm.trans hc.2) (by decide)
      unfold Keyboard.feed Board.step
      rw [if_neg (not_not_intro hbit'), if_pos (not_not_intro hdown), if_pos hdown]
      exact ⟨hk, rfl⟩
    by_cases hcaps : code = key.CAPS
    · have hone : value = 1 := (hc.1 hcaps).resolve_left hdown
      unfold Keyboard.feed Board.step
      rw [if_neg (not_not_intro hbit'), if_neg (not_not_intro hdown), if_pos hcaps, if_neg hdown,
        if_neg (not_not_intro hstay), if_pos hcaps]
      exact ⟨h.caps_pressed hcaps hone hbit, rfl⟩
    have hk : Agrees k (b.moved code value) := h.moved hbit fun hc => hcaps hc.1
    obtain ⟨hagrees, hkey⟩ := hk.typed hbit' hdown hcaps
    unfold Board.step
    rw [if_neg hdown, if_neg (not_not_intro hstay), if_neg hcaps]
    exact ⟨hagrees, hkey⟩
  · have hbit' : modBit (layoutDef k.layout).altgr code ≠ 0 := by rwa [h.layout]
    have hstay : modBit (layoutDef (b.moved code value).layout).altgr code ≠ 0 := hbit
    have hupd := packMods_update (a := b.active) (c := (b.moved code value).active)
      (modBit_mem hbit).2 fun x _ hx => Board.moved_active_of_ne hx.symm
    rw [Board.moved_active hc hbit, ← h.mods, ← h.layout] at hupd
    have hcode : code ≠ key.CAPS := by
      rintro rfl
      exact absurd (modBit_mem hbit).1 (by decide)
    have hagrees : Agrees
        { k with mods := if value ≠ 0 then k.mods ||| modBit (layoutDef k.layout).altgr code
            else k.mods &&& ~~~modBit (layoutDef k.layout).altgr code } (b.moved code value) := by
      refine ⟨?_, ?_, h.dead, h.layout⟩
      · rw [hupd]
        exact if_congr decide_eq_true_iff.symm rfl rfl
      · rw [h.caps, Board.capsOn, Board.capsOn, Board.moved, if_neg fun hc => hcode hc.1]
    have hnow := hagrees.mods_now
    unfold Keyboard.feed Board.step
    rw [if_pos hbit']
    by_cases hdown : value = 0
    · rw [if_pos hdown]
      exact ⟨hagrees, if_neg (not_not_intro hdown)⟩
    · rw [if_neg hdown, if_pos hstay]
      exact ⟨hagrees, (if_pos hdown).trans (congrArg some (congrArg (Key.mk code 0) hnow))⟩

end

/-! ### Runs -/

/-- The keyboard after some events. -/
def Keyboard.run (k : Keyboard) (es : List (UInt16 × UInt32)) : Keyboard :=
  es.foldl (fun k e => (k.feed e.1 e.2).1) k

/-- The desk after them. -/
def Board.run (b : Board) (es : List (UInt16 × UInt32)) : Board :=
  es.foldl (fun b e => (b.step e.1 e.2).1) b

theorem Board.step_layout {b : Board} {code : UInt16} {value : UInt32} :
    (b.step code value).1.layout = b.layout := by
  unfold Board.step
  dsimp only
  split_ifs <;> rfl

theorem Board.run_layout (b : Board) (es : List (UInt16 × UInt32)) :
    (b.run es).layout = b.layout := by
  induction es generalizing b with
  | nil => rfl
  | cons e es ih => exact (ih _).trans Board.step_layout

/-- Each event is clear when it comes. -/
def Board.Calm (b : Board) : List (UInt16 × UInt32) → Prop
  | [] => True
  | e :: es => b.Clear e.1 e.2 ∧ (b.step e.1 e.2).1.Calm es

/-- **A run** keeps both the same. -/
theorem run_agrees {k : Keyboard} {b : Board} {es : List (UInt16 × UInt32)} (h : Agrees k b)
    (hc : b.Calm es) : Agrees (k.run es) (b.run es) := by
  induction es generalizing k b with
  | nil => exact h
  | cons e es ih => exact ih (feed_agrees h hc.1).1 hc.2

theorem Board.Calm.append {b : Board} {pre post : List (UInt16 × UInt32)}
    (h : b.Calm (pre ++ post)) : b.Calm pre ∧ (b.run pre).Calm post := by
  induction pre generalizing b with
  | nil => exact ⟨trivial, h⟩
  | cons e es ih => exact ⟨⟨h.1, (ih h.2).1⟩, (ih h.2).2⟩

theorem new_agrees (layout : Layout) : Agrees (.new layout) (.new layout) where
  mods := rfl
  caps := rfl
  dead := rfl
  layout := rfl

/-- **The keyboard is what is on the desk**, in a run from its start in which no key of a modifier
is released while another one is held, and Caps Lock does not repeat: after each event a modifier
is reported as long as a key of it is held, Caps Lock when it was pressed an odd number of times,
and the key that is told has the character that is typed on the desk. -/
theorem keys_agree (layout : Layout) {es : List (UInt16 × UInt32)} (h : (Board.new layout).Calm es)
    {pre post : List (UInt16 × UInt32)} {code : UInt16} {value : UInt32}
    (he : es = pre ++ (code, value) :: post) :
    let k := (Keyboard.new layout).run pre
    let b := (Board.new layout).run pre
    (k.feed code value).2 = (b.step code value).2 ∧
      (∀ m ∈ modBits, (k.feed code value).1.mods &&& m ≠ 0 ↔ ∃ c ∈ modKeys,
        (b.step code value).1.held c = true ∧ modBit (layoutDef layout).altgr c = m) ∧
      (k.feed code value).1.caps = (b.step code value).1.capsOn := by
  intro k b
  have hcalm := (he ▸ h).append
  have hk : Agrees k b := run_agrees (new_agrees layout) hcalm.1
  obtain ⟨hagrees, hkey⟩ := feed_agrees hk hcalm.2.1
  have hlayout : (b.step code value).1.layout = layout :=
    Board.step_layout.trans (Board.run_layout _ _)
  refine ⟨hkey, fun m hm => ?_, hagrees.caps⟩
  have hactive := Board.active_iff (b := (b.step code value).1) (m := m)
  rw [hlayout] at hactive
  rw [← hactive, hagrees.mods, ← packMods_bit (a := (b.step code value).1.active) hm,
    decide_eq_true_iff]

/-- Shift and `a`, on a keyboard for the United States. -/
theorem keys_agree_shift :
    let k := (Keyboard.new .us).run [(42, 1)]
    let b := (Board.new .us).run [(42, 1)]
    (k.feed 30 1).2 = (b.step 30 1).2 ∧
      (∀ m ∈ modBits, (k.feed 30 1).1.mods &&& m ≠ 0 ↔ ∃ c ∈ modKeys,
        (b.step 30 1).1.held c = true ∧ modBit (layoutDef .us).altgr c = m) ∧
      (k.feed 30 1).1.caps = (b.step 30 1).1.capsOn :=
  have hpress {b : Board} (code : UInt16) (hcode : code ≠ key.CAPS) : b.Clear code 1 :=
    ⟨fun hc => absurd hc hcode, fun hc => absurd hc (by decide)⟩
  have hcalm : (Board.new .us).Calm [(42, 1), (30, 1)] :=
    ⟨hpress 42 (by decide), hpress 30 (by decide), trivial⟩
  keys_agree .us hcalm rfl

/-- Both keys of Shift are pressed, and one is released: Shift is no longer reported. Caps Lock that
repeats is off again. With Ctrl a key is told without its character. -/
theorem modifier_lost :
    ((Keyboard.new .us).run [(42, 1), (54, 1), (42, 0)]).mods = 0 ∧
      ((Board.new .us).run [(42, 1), (54, 1), (42, 0)]).active MOD_SHIFT = true ∧
      ((Keyboard.new .us).run [(58, 1), (58, 2)]).caps = false ∧
      ((Board.new .us).run [(58, 1), (58, 2)]).capsOn = true ∧
      (((Keyboard.new .us).run [(29, 1)]).feed 30 1).2 = some ⟨30, 0, MOD_CTRL⟩ ∧
      (Board.new .us).char 30 = 'a'.val := by
  decide +kernel

end Pulsar.Plib

import Mathlib.Algebra.Ring.Nat
import Mathlib.Data.List.Nodup
import Mathlib.Tactic.Common

/-!
# The configuration (`shell/src/config.rs`)

A text of lines `key=value` is read into a configuration, and a configuration is written as such a
text, with a comment before it. What is read may be any bytes; where a slice or an index is outside
of its array the program ends (`none`).

* `Config.parse_inRange`: the parser ends, with every field in its range.
* `decimal_spec`, `parseRes_decimal`, `Config.value_spec`: a value is read back from what is written.
* **`parse_serialize`**: what was parsed is written whole, and read back as it was.
-/

namespace Pulsar.Shell

/-- The bytes of a text. -/
def utf8 (s : String) : List UInt8 := s.toUTF8.data.toList

def WALL_KEYS : List String :=
  ["aurora", "ondas", "oceano", "por-do-sol", "grafite", "nebulosa"]

def ACCENT_KEYS : List String :=
  ["azul", "roxo", "rosa", "vermelho", "laranja", "amarelo", "verde", "grafite"]

def DOCK_SIZE_KEYS : List String := ["small", "medium", "large"]

inductive Layout where
  | abnt
  | abnt2
  | us
  | usIntl
  deriving DecidableEq

/-- `Layout::name`, of the tables in `keymaps.rs`. -/
def Layout.name : Layout → String
  | .abnt => "abnt"
  | .abnt2 => "abnt2"
  | .us => "us"
  | .usIntl => "us-intl"

def Layout.fromName (n : List UInt8) : Option Layout :=
  if n = utf8 "abnt" then some .abnt
  else if n = utf8 "abnt2" then some .abnt2
  else if n = utf8 "us" then some .us
  else if n = utf8 "us-intl" then some .usIntl
  else none

@[ext] structure Config where
  dark : Bool
  accent : UInt8
  wallpaper : UInt8
  dock_size : UInt8
  dock_magnify : Bool
  dock_left : Bool
  clock24 : Bool
  seconds : Bool
  cpu_meter : Bool
  glass : Bool
  layout : Layout
  dock_minimize : Bool
  res_w : UInt16
  res_h : UInt16
  deriving DecidableEq

def Config.default : Config where
  dark := false
  accent := 0
  wallpaper := 0
  dock_size := 1
  dock_magnify := false
  dock_left := false
  clock24 := true
  seconds := false
  cpu_meter := true
  glass := true
  layout := .abnt2
  dock_minimize := false
  res_w := 1280
  res_h := 800

/-! ### Reading -/

/-- `u8::is_ascii_whitespace`. -/
def isWhitespace (c : UInt8) : Bool := c = 32 ∨ c = 9 ∨ c = 10 ∨ c = 12 ∨ c = 13

/-- `&s[a..b]`. -/
def slice (s : List UInt8) (a b : Nat) : Option (List UInt8) :=
  if a ≤ b ∧ b ≤ s.length then some ((s.take b).drop a) else none

/-- `s.iter().rposition(p)`. -/
def rposition (p : UInt8 → Bool) (s : List UInt8) : Option Nat :=
  (s.reverse.findIdx? p).map (s.length - 1 - ·)

def trim (s : List UInt8) : Option (List UInt8) :=
  let a := (s.findIdx? (! isWhitespace ·)).getD s.length
  let b := ((rposition (! isWhitespace ·) s).map (· + 1)).getD a
  slice s a (max b a)

def find (keys : List String) (v : List UInt8) : Option UInt8 :=
  (keys.findIdx? (utf8 · = v)).map .ofNat

/-- The loop of `parse_u16`. -/
def u16Loop (v : UInt32) : List UInt8 → Option UInt32
  | [] => some v
  | c :: cs =>
      if 48 ≤ c ∧ c ≤ 57 then
        let v := v * 10 + (c - 48).toUInt32
        if 65535 < v then none else u16Loop v cs
      else none

def parseU16 (s : List UInt8) : Option UInt16 :=
  if s.isEmpty then none else (u16Loop 0 s).map (·.toUInt16)

/-- `parse_res(v)`, of a text that may have no resolution. -/
def parseRes (v : List UInt8) : Option (Option (UInt16 × UInt16)) :=
  match v.findIdx? (fun c => c = 'x'.toUInt8 ∨ c = 'X'.toUInt8) with
  | none => some none
  | some sep => do
      match parseU16 (← trim (← slice v 0 sep)) with
      | none => some none
      | some w =>
          match parseU16 (← trim (← slice v (sep + 1) v.length)) with
          | none => some none
          | some h =>
              let w := w &&& ~~~1
              let h := h &&& ~~~1
              some (if (640 ≤ w ∧ w ≤ 2560) ∧ 480 ≤ h ∧ h ≤ 1440 then some (w, h) else none)

/-- The keys, in the order of the text that is written. -/
inductive Field where
  | theme
  | accent
  | wallpaper
  | resolution
  | dockSize
  | dockMagnify
  | dockPosition
  | dockClickMinimizes
  | clock24h
  | clockSeconds
  | menubarCpu
  | glass
  | keyboard
  deriving DecidableEq

namespace Field

def all : List Field :=
  [theme, accent, wallpaper, resolution, dockSize, dockMagnify, dockPosition, dockClickMinimizes,
    clock24h, clockSeconds, menubarCpu, glass, keyboard]

def name : Field → String
  | theme => "theme"
  | accent => "accent"
  | wallpaper => "wallpaper"
  | resolution => "resolution"
  | dockSize => "dock.size"
  | dockMagnify => "dock.magnify"
  | dockPosition => "dock.position"
  | dockClickMinimizes => "dock.click_minimizes"
  | clock24h => "clock.24h"
  | clockSeconds => "clock.seconds"
  | menubarCpu => "menubar.cpu"
  | glass => "glass"
  | keyboard => "keyboard"

def ofName (k : List UInt8) : Option Field := all.find? (utf8 ·.name = k)

end Field

namespace Config

/-- The branch of `match k` for a key, with the value `v`. -/
def set (c : Config) (v : List UInt8) : Field → Option Config :=
  let on : Bool := v = utf8 "on" ∨ v = utf8 "1" ∨ v = utf8 "true" ∨ v = utf8 "sim"
  fun
  | .theme => some { c with dark := v = utf8 "dark" }
  | .accent => some ((find ACCENT_KEYS v).elim c fun i => { c with accent := i })
  | .wallpaper => some ((find WALL_KEYS v).elim c fun i => { c with wallpaper := i })
  | .resolution => do
      some ((← parseRes v).elim c fun (w, h) => { c with res_w := w, res_h := h })
  | .dockSize => some ((find DOCK_SIZE_KEYS v).elim c fun i => { c with dock_size := i })
  | .dockMagnify => some { c with dock_magnify := on }
  | .dockPosition => some { c with dock_left := v = utf8 "left" }
  | .dockClickMinimizes => some { c with dock_minimize := on }
  | .clock24h => some { c with clock24 := on }
  | .clockSeconds => some { c with seconds := on }
  | .menubarCpu => some { c with cpu_meter := on }
  | .glass => some { c with glass := on }
  | .keyboard => some ((Layout.fromName v).elim c fun l => { c with layout := l })

/-- One line of `parse`. -/
def parseLine (c : Config) (line : List UInt8) : Option Config := do
  let line ← trim line
  if line.isEmpty then some c
  else if (← line.head?) = '#'.toUInt8 then some c
  else
    match line.findIdx? (· = '='.toUInt8) with
    | none => some c
    | some eq =>
        let k ← trim (← slice line 0 eq)
        let v ← trim (← slice line (eq + 1) line.length)
        match Field.ofName k with
        | none => some c
        | some f => c.set v f

def parse (c : Config) (text : List UInt8) : Option Config :=
  (text.splitOn 10).foldlM parseLine c

end Config

/-! ### Writing -/

/-- `Buf::bytes`, of a buffer of `n` bytes. -/
def Buf.bytes (n : Nat) (b s : List UInt8) : List UInt8 :=
  s.foldl (fun b c => if b.length < n then b ++ [c] else b) b

/-- `while v > 0`, with `i` bytes before those that are written. -/
def uLoop : Nat → UInt64 → List UInt8 → Option (List UInt8)
  | 0, v, t => if 0 < v then none else some t
  | i + 1, v, t => if 0 < v then uLoop i (v / 10) ((48 + (v % 10).toUInt8) :: t) else some t

/-- The digits that `Buf::u` writes. -/
def decimal (v : UInt64) : Option (List UInt8) :=
  if v = 0 then uLoop 19 v [48] else uLoop 20 v []

/-- The comment, one line after the other. -/
def header : List String :=
  ["# Pulsar OS — configuração do ambiente (pulsar.cfg)\n",
    "# Edite aqui ou em Configurações; o desktop aplica ao salvar.\n",
    "# theme: light|dark  accent: azul|roxo|rosa|vermelho|laranja|amarelo|verde|grafite\n",
    "# wallpaper: aurora|ondas|oceano|por-do-sol|grafite|nebulosa\n",
    "# resolution: 1024x768|1280x720|1280x800|1366x768|1440x900|1600x900|1920x1080|1920x1200|" ++
      "2560x1440\n",
    "# dock.size: small|medium|large  dock.position: bottom|left  " ++
      "keyboard: abnt|abnt2|us|us-intl\n",
    "# dock.click_minimizes: on = clicar no app em foco minimiza (como no Windows)\n\n"]

namespace Config

/-- What is written after a key. -/
def value (c : Config) : Field → Option (List (List UInt8)) :=
  let b (v : Bool) := some [utf8 (if v then "on" else "off")]
  fun
  | .theme => some [utf8 (if c.dark then "dark" else "light")]
  | .accent => some [utf8 (ACCENT_KEYS.getD (c.accent.toNat % 8) "")]
  | .wallpaper => some [utf8 (WALL_KEYS.getD (c.wallpaper.toNat % 6) "")]
  | .resolution => do some [← decimal c.res_w.toUInt64, utf8 "x", ← decimal c.res_h.toUInt64]
  | .dockSize => some [utf8 (DOCK_SIZE_KEYS.getD (c.dock_size.toNat % 3) "")]
  | .dockMagnify => b c.dock_magnify
  | .dockPosition => some [utf8 (if c.dock_left then "left" else "bottom")]
  | .dockClickMinimizes => b c.dock_minimize
  | .clock24h => b c.clock24
  | .clockSeconds => b c.seconds
  | .menubarCpu => b c.cpu_meter
  | .glass => b c.glass
  | .keyboard => some [utf8 c.layout.name]

/-- The parts of the lines of some keys. -/
def lines (c : Config) : List Field → Option (List (List UInt8))
  | [] => some []
  | f :: fs => do
      let v ← c.value f
      let rest ← c.lines fs
      some (utf8 (f.name ++ "=") :: v ++ utf8 "\n" :: rest)

/-- What is written, part after part. -/
def pieces (c : Config) : Option (List (List UInt8)) := do
  some (header.map utf8 ++ (← c.lines Field.all))

def serialize (c : Config) : Option (List UInt8) := do
  some ((← c.pieces).foldl (Buf.bytes 1024) [])

end Config

/-! ### Slices -/

section

variable {s : List UInt8} {a b : Nat}

theorem slice_of_le (ha : a ≤ b) (hb : b ≤ s.length) : slice s a b = some ((s.take b).drop a) :=
  if_pos ⟨ha, hb⟩

theorem findIdx?_le {p : UInt8 → Bool} {i : Nat} (h : s.findIdx? p = some i) : i < s.length :=
  (List.findIdx?_eq_some_iff_getElem.mp h).1

/-- **Trimming** slices inside of the text. -/
theorem trim_total (s : List UInt8) : ∃ t, trim s = some t := by
  have ha : (s.findIdx? (! isWhitespace ·)).getD s.length ≤ s.length := by
    cases h : s.findIdx? (! isWhitespace ·) with
    | none => exact Nat.le_refl _
    | some i => exact Nat.le_of_lt (findIdx?_le h)
  refine ⟨_, slice_of_le (Nat.le_max_right ..) (max_le ?_ ha)⟩
  unfold rposition
  cases h : s.reverse.findIdx? (! isWhitespace ·) with
  | none => exact ha
  | some i =>
      have hi := findIdx?_le h
      rw [List.length_reverse] at hi
      simp only [Option.map_some, Option.getD_some]
      omega

/-- No whitespace at either end. -/
def Tight (s : List UInt8) : Bool :=
  s.head?.all (! isWhitespace ·) && s.getLast?.all (! isWhitespace ·)

theorem findIdx?_head {p : UInt8 → Bool} (hne : s ≠ []) (h : s.head?.all p = true) :
    s.findIdx? p = some 0 := by
  cases s with
  | nil => exact absurd rfl hne
  | cons x xs => exact (List.findIdx?_cons ..).trans (if_pos h)

theorem trim_tight (h : Tight s = true) : trim s = some s := by
  obtain ⟨hhead, hlast⟩ := Bool.and_eq_true_iff.mp h
  cases s with
  | nil => rfl
  | cons x xs =>
      have hfirst := findIdx?_head (List.cons_ne_nil x xs) hhead
      have hend : (x :: xs).reverse.findIdx? (! isWhitespace ·) = some 0 := by
        rw [List.getLast?_eq_head?_reverse] at hlast
        exact findIdx?_head (mt List.reverse_eq_nil_iff.mp (List.cons_ne_nil x xs)) hlast
      have hlen : (x :: xs).length - 1 - 0 + 1 = (x :: xs).length := rfl
      unfold trim rposition
      simp only [hfirst, hend, Option.map_some, Option.getD_some, hlen, Nat.max_zero]
      rw [slice_of_le (Nat.zero_le _) (Nat.le_refl _), List.take_length, List.drop_zero]

theorem trim_cons {x : UInt8} (hx : isWhitespace x = false) (xs : List UInt8) :
    ∃ ys, trim (x :: xs) = some (x :: ys) := by
  have hnot : (! isWhitespace x) = true := by rw [hx]; rfl
  have hfirst : (x :: xs).findIdx? (! isWhitespace ·) = some 0 :=
    (List.findIdx?_cons ..).trans (if_pos hnot)
  cases h : (x :: xs).reverse.findIdx? (! isWhitespace ·) with
  | none =>
      have hall := List.findIdx?_eq_none_iff.mp h x (List.mem_reverse.mpr List.mem_cons_self)
      exact absurd (hnot.symm.trans hall) (by decide)
  | some i =>
      have hi := findIdx?_le h
      rw [List.length_reverse, List.length_cons] at hi
      have hend : (x :: xs).length - 1 - i + 1 = xs.length - i + 1 := rfl
      refine ⟨xs.take (xs.length - i), ?_⟩
      unfold trim rposition
      simp only [hfirst, h, Option.map_some, Option.getD_some, hend, Nat.max_zero]
      rw [slice_of_le (Nat.zero_le _) (by rw [List.length_cons]; omega), List.take_succ_cons,
        List.drop_zero]

end

/-! ### What is read -/

/-- The fields of a configuration that has its indices inside of their tables, and a resolution
inside of the limits. -/
structure Config.InRange (c : Config) : Prop where
  accent : c.accent.toNat < ACCENT_KEYS.length
  wallpaper : c.wallpaper.toNat < WALL_KEYS.length
  dock_size : c.dock_size.toNat < DOCK_SIZE_KEYS.length
  res_w : 640 ≤ c.res_w ∧ c.res_w ≤ 2560
  res_h : 480 ≤ c.res_h ∧ c.res_h ≤ 1440
  even : c.res_w.toNat % 2 = 0 ∧ c.res_h.toNat % 2 = 0

theorem Config.default_inRange : default.InRange :=
  ⟨by decide, by decide, by decide, by decide, by decide, by decide⟩

theorem find_lt {keys : List String} {v : List UInt8} {i : UInt8} (hk : keys.length ≤ 256)
    (h : find keys v = some i) : i.toNat < keys.length := by
  obtain ⟨j, hj, rfl⟩ := Option.map_eq_some_iff.mp h
  have hlt : j < keys.length := (List.findIdx?_eq_some_iff_getElem.mp hj).1
  rw [UInt8.toNat_ofNat_of_lt' (Nat.lt_of_lt_of_le hlt hk)]
  exact hlt

theorem even_mask (x : UInt16) : (x &&& ~~~1).toNat % 2 = 0 := by
  have hmask : (x &&& ~~~1) &&& 1 = 0 := by
    rw [UInt16.and_assoc]
    exact UInt16.and_zero
  have hnat := congrArg UInt16.toNat hmask
  rw [UInt16.toNat_and] at hnat
  exact (Nat.and_one_is_mod _).symm.trans hnat

section

variable {c d : Config} {v : List UInt8}

/-- **A resolution** is inside of the limits. -/
theorem parseRes_inRange (v : List UInt8) : ∃ r, parseRes v = some r ∧ ∀ w h, r = some (w, h) →
    ((640 ≤ w ∧ w ≤ 2560) ∧ 480 ≤ h ∧ h ≤ 1440) ∧ w.toNat % 2 = 0 ∧ h.toNat % 2 = 0 := by
  have hnone : ∃ r : Option (UInt16 × UInt16), some none = some r ∧ ∀ w h, r = some (w, h) →
      ((640 ≤ w ∧ w ≤ 2560) ∧ 480 ≤ h ∧ h ≤ 1440) ∧ w.toNat % 2 = 0 ∧ h.toNat % 2 = 0 :=
    ⟨none, rfl, fun _ _ h => by cases h⟩
  unfold parseRes
  cases hsep : v.findIdx? fun c => c = 'x'.toUInt8 ∨ c = 'X'.toUInt8 with
  | none => exact hnone
  | some sep =>
      have hlt := findIdx?_le hsep
      obtain ⟨s, hs⟩ := trim_total ((v.take sep).drop 0)
      obtain ⟨t, ht⟩ := trim_total ((v.take v.length).drop (sep + 1))
      simp only [slice_of_le (Nat.zero_le sep) (Nat.le_of_lt hlt),
        slice_of_le (show sep + 1 ≤ v.length from hlt) (Nat.le_refl _), Option.bind_eq_bind,
        Option.bind_some, hs, ht]
      cases parseU16 s with
      | none => exact hnone
      | some w =>
          cases parseU16 t with
          | none => exact hnone
          | some h =>
              refine ⟨_, rfl, fun w' h' hr => ?_⟩
              split_ifs at hr with hin
              cases hr
              exact ⟨hin, even_mask w, even_mask h⟩

/-- **One key** leaves each field in its range. -/
theorem Config.set_inRange (hc : c.InRange) (v : List UInt8) (f : Field) :
    ∃ d, c.set v f = some d ∧ d.InRange := by
  have index {keys : List String} (hk : keys.length ≤ 256) {g : UInt8 → Config}
      (hg : ∀ i, i.toNat < keys.length → (g i).InRange) :
      ((find keys v).elim c g).InRange := by
    cases h : find keys v with
    | none => exact hc
    | some i => exact hg i (find_lt hk h)
  cases f with
  | accent => exact ⟨_, rfl, index (by decide) fun i hi => { hc with accent := hi }⟩
  | wallpaper => exact ⟨_, rfl, index (by decide) fun i hi => { hc with wallpaper := hi }⟩
  | dockSize => exact ⟨_, rfl, index (by decide) fun i hi => { hc with dock_size := hi }⟩
  | resolution =>
      obtain ⟨r, hr, hin⟩ := parseRes_inRange v
      refine ⟨r.elim c fun (w, h) => { c with res_w := w, res_h := h }, ?_, ?_⟩
      · simp only [Config.set, hr, Option.bind_eq_bind, Option.bind_some]
      · match r, hin with
        | none, _ => exact hc
        | some (w, h), hin =>
            obtain ⟨⟨hw, hh⟩, heven⟩ := hin w h rfl
            exact { hc with res_w := hw, res_h := hh, even := heven }
  | keyboard =>
      refine ⟨_, rfl, ?_⟩
      cases Layout.fromName v with
      | none => exact hc
      | some l => exact { hc with }
  | _ => exact ⟨_, rfl, { hc with }⟩

/-- **One line** leaves each field in its range. -/
theorem Config.parseLine_inRange (hc : c.InRange) (line : List UInt8) :
    ∃ d, c.parseLine line = some d ∧ d.InRange := by
  obtain ⟨s, hs⟩ := trim_total line
  unfold Config.parseLine
  simp only [hs, Option.bind_eq_bind, Option.bind_some]
  cases s with
  | nil => exact ⟨c, rfl, hc⟩
  | cons x xs =>
      simp only [List.isEmpty_cons, Bool.false_eq_true, if_false, List.head?_cons,
        Option.bind_some]
      split_ifs with hx
      · exact ⟨c, rfl, hc⟩
      · cases heq : (x :: xs).findIdx? (· = '='.toUInt8) with
        | none => exact ⟨c, rfl, hc⟩
        | some eq =>
            have hlt := findIdx?_le heq
            obtain ⟨k, hk⟩ := trim_total (((x :: xs).take eq).drop 0)
            obtain ⟨v, hv⟩ := trim_total (((x :: xs).take (x :: xs).length).drop (eq + 1))
            simp only [slice_of_le (Nat.zero_le eq) (Nat.le_of_lt hlt),
              slice_of_le (show eq + 1 ≤ (x :: xs).length from hlt) (Nat.le_refl _),
              Option.bind_some, hk, hv]
            cases Field.ofName k with
            | none => exact ⟨c, rfl, hc⟩
            | some f => exact Config.set_inRange hc v f

/-- **The parser ends**, with each field in its range. -/
theorem Config.parse_inRange (hc : c.InRange) (text : List UInt8) :
    ∃ d, c.parse text = some d ∧ d.InRange := by
  unfold Config.parse
  induction text.splitOn 10 generalizing c with
  | nil => exact ⟨c, rfl, hc⟩
  | cons l ls ih =>
      obtain ⟨d, hd, hin⟩ := Config.parseLine_inRange hc l
      rw [List.foldlM_cons, hd]
      exact ih hin

end

/-! ### Digits -/

theorem uLoop_spec {k i : Nat} {v : UInt64} (t : List UInt8) (hv : v.toNat < 10 ^ k) (hk : k ≤ i) :
    ∃ ds, uLoop i v t = some (ds ++ t) ∧ ds.length ≤ k ∧ (v ≠ 0 → ds ≠ []) ∧
      (∀ c ∈ ds, 48 ≤ c ∧ c ≤ 57) ∧
      ∀ rest, v.toNat ≤ 65535 → u16Loop 0 (ds ++ rest) = u16Loop v.toUInt32 rest := by
  have hstop {i : Nat} {v : UInt64} {t : List UInt8} (h : v = 0) : uLoop i v t = some t := by
    cases i <;> exact if_neg (by rw [h]; decide)
  induction k generalizing i v t with
  | zero =>
      have h0 : v = 0 := UInt64.toNat_inj.mp (Nat.lt_one_iff.mp hv)
      exact ⟨[], hstop h0, Nat.le_refl 0, absurd h0, fun _ hc => absurd hc List.not_mem_nil,
        fun _ _ => by rw [h0]; rfl⟩
  | succ k ih =>
      by_cases h0 : v = 0
      · exact ⟨[], hstop h0, Nat.zero_le _, absurd h0, fun _ hc => absurd hc List.not_mem_nil,
          fun _ _ => by rw [h0]; rfl⟩
      obtain ⟨j, rfl⟩ := Nat.exists_eq_add_of_lt (Nat.lt_of_lt_of_le k.succ_pos hk)
      rw [Nat.zero_add] at hk ⊢
      have hdiv : (v / 10).toNat = v.toNat / 10 := UInt64.toNat_div v 10
      have hmod : (v % 10).toNat = v.toNat % 10 := UInt64.toNat_mod v 10
      have hdigit : (48 + (v % 10).toUInt8).toNat = 48 + v.toNat % 10 := by
        rw [UInt8.toNat_add, UInt64.toNat_toUInt8, hmod]
        change (48 + v.toNat % 10 % 256) % 256 = _
        omega
      obtain ⟨ds, hds, hlen, -, hdig, hread⟩ :=
        ih (v := v / 10) ((48 + (v % 10).toUInt8) :: t) (by omega) (Nat.le_of_succ_le_succ hk)
      have hlow : 48 ≤ 48 + (v % 10).toUInt8 ∧ 48 + (v % 10).toUInt8 ≤ 57 := by
        rw [UInt8.le_iff_toNat_le, UInt8.le_iff_toNat_le, hdigit]
        change 48 ≤ _ ∧ _ ≤ 57
        omega
      have hpos : 0 < v := UInt64.pos_iff_ne_zero.mpr h0
      refine ⟨ds ++ [48 + (v % 10).toUInt8], ?_, ?_, fun _ => by simp, ?_, fun rest hle => ?_⟩
      · rw [uLoop, if_pos hpos, hds, List.append_assoc]
        rfl
      · rw [List.length_append]
        exact Nat.succ_le_succ hlen
      · intro c hc
        rcases List.mem_append.mp hc with hc | hc
        · exact hdig c hc
        · rw [List.mem_singleton.mp hc]
          exact hlow
      · have hnext : (v / 10).toUInt32 * 10 + (48 + (v % 10).toUInt8 - 48).toUInt32 =
            v.toUInt32 := by
          refine UInt32.toNat_inj.mp ?_
          rw [UInt32.toNat_add, UInt32.toNat_mul, UInt64.toNat_toUInt32, UInt64.toNat_toUInt32,
            hdiv, UInt8.toNat_toUInt32, UInt8.toNat_sub_of_le _ _ hlow.1, hdigit]
          change (v.toNat / 10 % 2 ^ 32 * 10 % 2 ^ 32 + (48 + v.toNat % 10 - 48)) % 2 ^ 32 =
            v.toNat % 2 ^ 32
          omega
        have hsmall : ¬ 65535 < v.toUInt32 := by
          rw [UInt32.lt_iff_toNat_lt, UInt64.toNat_toUInt32]
          change ¬ 65535 < v.toNat % 2 ^ 32
          omega
        rw [List.append_assoc, hread _ (by omega), List.singleton_append, u16Loop, if_pos hlow,
          hnext]
        exact if_neg hsmall

/-- **The digits of a number** are read as this number. -/
theorem decimal_spec (w : UInt16) : ∃ ds, decimal w.toUInt64 = some ds ∧ ds ≠ [] ∧
    ds.length ≤ 5 ∧ (∀ c ∈ ds, 48 ≤ c ∧ c ≤ 57) ∧ parseU16 ds = some w := by
  have hw : w.toNat < 2 ^ 16 := w.toNat_lt
  have hval : w.toUInt64.toNat = w.toNat := UInt16.toNat_toUInt64 w
  by_cases h0 : w = 0
  · subst h0
    have hdig : ∀ c ∈ ([48] : List UInt8), 48 ≤ c ∧ c ≤ 57 :=
      List.forall_mem_singleton.mpr (by decide)
    exact ⟨[48], rfl, List.cons_ne_nil 48 [], by decide, hdig, rfl⟩
  have hne : w.toUInt64 ≠ 0 := fun h => h0 (UInt16.toNat_inj.mp
    ((hval.symm.trans (congrArg UInt64.toNat h)).trans UInt64.toNat_zero))
  obtain ⟨ds, hds, hlen, hnil, hdig, hread⟩ := uLoop_spec (k := 5) (i := 20) (v := w.toUInt64) []
    (by omega) (by decide)
  rw [List.append_nil] at hds
  have hloop := hread [] (by omega)
  rw [List.append_nil] at hloop
  refine ⟨ds, (if_neg hne).trans hds, hnil hne, hlen, hdig, ?_⟩
  rw [parseU16, if_neg (by simpa using hnil hne), hloop]
  refine congrArg some (UInt16.toNat_inj.mp ?_)
  rw [UInt32.toNat_toUInt16, UInt64.toNat_toUInt32, hval]
  omega

/-! ### What is written -/

theorem bytes_eq {n : Nat} {b s : List UInt8} (h : b.length + s.length ≤ n) :
    Buf.bytes n b s = b ++ s := by
  induction s generalizing b with
  | nil => exact (List.append_nil b).symm
  | cons c cs ih =>
      rw [List.length_cons] at h
      rw [Buf.bytes, List.foldl_cons, if_pos (by omega)]
      refine (ih (b := b ++ [c]) ?_).trans (by simp)
      rw [List.length_append, List.length_singleton]
      omega

theorem foldl_bytes {n : Nat} {b : List UInt8} {ps : List (List UInt8)}
    (h : b.length + ps.flatten.length ≤ n) : ps.foldl (Buf.bytes n) b = b ++ ps.flatten := by
  induction ps generalizing b with
  | nil => exact (List.append_nil b).symm
  | cons p ps ih =>
      rw [List.flatten_cons, List.length_append] at h
      rw [List.foldl_cons, bytes_eq (by omega), ih (by rw [List.length_append]; omega),
        List.flatten_cons, List.append_assoc]

/-- What stands after a key: it is not empty, is on one line, and nothing of it is trimmed. -/
def Word (v : List UInt8) : Bool := Tight v && v ≠ [] && 10 ∉ v && v.length ≤ 11

/-- `d`, with one field of `c`. -/
def Config.take (d c : Config) : Field → Config
  | .theme => { d with dark := c.dark }
  | .accent => { d with accent := c.accent }
  | .wallpaper => { d with wallpaper := c.wallpaper }
  | .resolution => { d with res_w := c.res_w, res_h := c.res_h }
  | .dockSize => { d with dock_size := c.dock_size }
  | .dockMagnify => { d with dock_magnify := c.dock_magnify }
  | .dockPosition => { d with dock_left := c.dock_left }
  | .dockClickMinimizes => { d with dock_minimize := c.dock_minimize }
  | .clock24h => { d with clock24 := c.clock24 }
  | .clockSeconds => { d with seconds := c.seconds }
  | .menubarCpu => { d with cpu_meter := c.cpu_meter }
  | .glass => { d with glass := c.glass }
  | .keyboard => { d with layout := c.layout }

theorem find_getD {keys : List String} (hnodup : (keys.map utf8).Nodup) {i : UInt8}
    (hi : i.toNat < keys.length) :
    find keys (utf8 (keys.getD (i.toNat % keys.length) "")) = some i := by
  have hkey : keys.getD (i.toNat % keys.length) "" = keys[i.toNat] := by
    rw [Nat.mod_eq_of_lt hi, List.getD_eq_getElem?_getD, List.getElem?_eq_getElem hi,
      Option.getD_some]
  have hidx : keys.findIdx? (utf8 · = utf8 keys[i.toNat]) = some i.toNat := by
    refine List.findIdx?_eq_some_iff_getElem.mpr ⟨hi, decide_eq_true rfl, fun j hj => ?_⟩
    rw [Bool.not_eq_true, decide_eq_false_iff_not]
    intro heq
    have hlen : (keys.map utf8).length = keys.length := List.length_map ..
    have hmap : (keys.map utf8)[j] = (keys.map utf8)[i.toNat] := by
      rw [List.getElem_map, List.getElem_map]
      exact heq
    exact Nat.ne_of_lt hj (hnodup.getElem_inj_iff.mp hmap)
  rw [hkey, find, hidx, Option.map_some, UInt8.ofNat_toNat]

theorem mask_even {w : UInt16} (h : w.toNat % 2 = 0) : w &&& ~~~1 = w := by
  have hbit : w &&& 1 = 0 := by
    refine UInt16.toNat_inj.mp ?_
    rw [UInt16.toNat_and]
    exact (Nat.and_one_is_mod _).trans h
  calc w &&& ~~~1 = (w &&& ~~~1) ||| (w &&& 1) := by rw [hbit, UInt16.or_zero]
    _ = w &&& (~~~1 ||| 1) := UInt16.toBitVec_inj.mp BitVec.and_or_distrib_left.symm
    _ = w &&& -1 := rfl
    _ = w := UInt16.and_neg_one

section

variable {c d : Config} {v : List UInt8}

theorem tight_digits (hdig : ∀ c ∈ v, 48 ≤ c ∧ c ≤ 57) : Tight v = true := by
  have hws {b : UInt8} (h : 48 ≤ b ∧ b ≤ 57) : (! isWhitespace b) = true := by
    obtain ⟨hlow, -⟩ := h
    rw [UInt8.le_iff_toNat_le] at hlow
    simp only [isWhitespace, Bool.not_eq_true', decide_eq_false_iff_not, ← UInt8.toNat_inj]
    change 48 ≤ _ at hlow
    change ¬ (b.toNat = 32 ∨ b.toNat = 9 ∨ b.toNat = 10 ∨ b.toNat = 12 ∨ b.toNat = 13)
    omega
  refine Bool.and_eq_true_iff.mpr ⟨?_, ?_⟩
  · cases h : v.head? with
    | none => rfl
    | some b => exact hws (hdig b (List.mem_of_head? h))
  · cases h : v.getLast? with
    | none => rfl
    | some b => exact hws (hdig b (List.mem_of_getLast? h))

/-- **A resolution** is read back. -/
theorem parseRes_decimal {w h : UInt16} {ds es : List UInt8} (hds : ∀ c ∈ ds, 48 ≤ c ∧ c ≤ 57)
    (hes : ∀ c ∈ es, 48 ≤ c ∧ c ≤ 57) (hw : parseU16 ds = some w) (hh : parseU16 es = some h)
    (hin : (640 ≤ w ∧ w ≤ 2560) ∧ 480 ≤ h ∧ h ≤ 1440)
    (heven : w.toNat % 2 = 0 ∧ h.toNat % 2 = 0) :
    parseRes (ds ++ 'x'.toUInt8 :: es) = some (some (w, h)) := by
  have hnone : ds.findIdx? (fun c => c = 'x'.toUInt8 ∨ c = 'X'.toUInt8) = none := by
    refine List.findIdx?_eq_none_iff.mpr fun c hc => decide_eq_false ?_
    rintro (rfl | rfl)
    · exact absurd (hds _ hc) (by decide)
    · exact absurd (hds _ hc) (by decide)
  have hsep : (ds ++ 'x'.toUInt8 :: es).findIdx? (fun c => c = 'x'.toUInt8 ∨ c = 'X'.toUInt8) =
      some ds.length := by
    rw [List.findIdx?_append, hnone, List.findIdx?_cons, if_pos (by decide)]
    exact congrArg some (Nat.zero_add _)
  have hlen : (ds ++ 'x'.toUInt8 :: es).length = ds.length + 1 + es.length := by
    rw [List.length_append, List.length_cons, Nat.add_right_comm, Nat.add_assoc]
  have hfst : slice (ds ++ 'x'.toUInt8 :: es) 0 ds.length = some ds := by
    rw [slice_of_le (Nat.zero_le _) (by omega), List.take_left, List.drop_zero]
  have hsnd : slice (ds ++ 'x'.toUInt8 :: es) (ds.length + 1) (ds ++ 'x'.toUInt8 :: es).length =
      some es := by
    rw [slice_of_le (by omega) (Nat.le_refl _), List.take_length, List.drop_append]
    simp
  unfold parseRes
  simp only [hsep, hfst, hsnd, Option.bind_eq_bind, Option.bind_some, trim_tight (tight_digits hds),
    trim_tight (tight_digits hes), hw, hh, mask_even heven.1, mask_even heven.2, if_pos hin]

theorem Word.parts (h : Word v = true) :
    Tight v = true ∧ v ≠ [] ∧ 10 ∉ v ∧ v.length ≤ 11 := by
  simpa [Word, and_assoc] using h

theorem word_decimal {ds es : List UInt8} (hds : ∀ c ∈ ds, 48 ≤ c ∧ c ≤ 57)
    (hes : ∀ c ∈ es, 48 ≤ c ∧ c ≤ 57) (hdne : ds ≠ []) (hene : es ≠ []) (hdlen : ds.length ≤ 5)
    (helen : es.length ≤ 5) : Word (ds ++ 'x'.toUInt8 :: es) = true := by
  have hhead : (ds ++ 'x'.toUInt8 :: es).head? = ds.head? := List.head?_append_of_ne_nil _ hdne
  have hlast : (ds ++ 'x'.toUInt8 :: es).getLast? = es.getLast? := by
    rw [List.getLast?_append_cons, List.getLast?_cons_of_ne_nil hene]
  have hnl {l : List UInt8} (hl : ∀ c ∈ l, 48 ≤ c ∧ c ≤ 57) : 10 ∉ l :=
    fun hmem => absurd (hl 10 hmem) (by decide)
  have htight : Tight (ds ++ 'x'.toUInt8 :: es) = true := by
    rw [Tight, hhead, hlast]
    exact Bool.and_eq_true_iff.mpr ⟨(Bool.and_eq_true_iff.mp (tight_digits hds)).1,
      (Bool.and_eq_true_iff.mp (tight_digits hes)).2⟩
  have hlen : (ds ++ 'x'.toUInt8 :: es).length ≤ 11 := by
    rw [List.length_append, List.length_cons]
    omega
  have hline : 10 ∉ ds ++ 'x'.toUInt8 :: es := by
    rw [List.mem_append, List.mem_cons]
    rintro (hmem | hmem | hmem)
    · exact hnl hds hmem
    · exact absurd hmem (by decide)
    · exact hnl hes hmem
  simpa [Word, htight, hline] using hlen

/-- **One value** is written on a line, and its field is read back. -/
theorem Config.value_spec (hc : c.InRange) (f : Field) : ∃ vs, c.value f = some vs ∧
    Word vs.flatten = true ∧ ∀ d : Config, d.set vs.flatten f = some (d.take c f) := by
  have one {s : String} (h : Word (utf8 s) = true) : Word [utf8 s].flatten = true := by
    rw [List.flatten_singleton]
    exact h
  have word (b : Bool) : Word [utf8 (if b then "on" else "off")].flatten = true := by
    cases b <;> decide
  have on (b : Bool) : decide ([utf8 (if b then "on" else "off")].flatten = utf8 "on" ∨
      [utf8 (if b then "on" else "off")].flatten = utf8 "1" ∨
      [utf8 (if b then "on" else "off")].flatten = utf8 "true" ∨
      [utf8 (if b then "on" else "off")].flatten = utf8 "sim") = b := by
    cases b <;> decide
  have same {α : Type} {a b : α} (g : α → Config) (h : a = b) : some (g a) = some (g b) :=
    congrArg (fun x => some (g x)) h
  have table {keys : List String} {v : List UInt8} {d : Config} {i : UInt8} (g : UInt8 → Config)
      (h : find keys v = some i) : some ((find keys [v].flatten).elim d g) = some (g i) := by
    rw [List.flatten_singleton, h]
    rfl
  have key (keys : List String) (hw : ∀ k ∈ keys, Word (utf8 k) = true) {i : Nat}
      (hi : 0 < keys.length) : Word (utf8 (keys.getD (i % keys.length) "")) = true := by
    have hlt := Nat.mod_lt i hi
    rw [List.getD_eq_getElem?_getD, List.getElem?_eq_getElem hlt, Option.getD_some]
    exact hw _ (List.getElem_mem hlt)
  cases f with
  | resolution =>
      obtain ⟨ds, hds, hdne, hdlen, hddig, hdread⟩ := decimal_spec c.res_w
      obtain ⟨es, hes, hene, helen, hedig, heread⟩ := decimal_spec c.res_h
      have hflat : [ds, utf8 "x", es].flatten = ds ++ 'x'.toUInt8 :: es := by
        simp [utf8]
        rfl
      refine ⟨[ds, utf8 "x", es], ?_, ?_, fun d => ?_⟩
      · simp only [Config.value, hds, hes, Option.bind_eq_bind, Option.bind_some]
      · rw [hflat]
        exact word_decimal hddig hedig hdne hene hdlen helen
      · have hread := parseRes_decimal hddig hedig hdread heread ⟨hc.res_w, hc.res_h⟩ hc.even
        simp only [Config.set, hflat, hread, Option.bind_eq_bind, Option.bind_some]
        rfl
  | accent =>
      refine ⟨_, rfl, one (key ACCENT_KEYS (by decide) (by decide)), fun d => ?_⟩
      exact table (fun i => { d with accent := i }) (find_getD (by decide) hc.accent)
  | wallpaper =>
      refine ⟨_, rfl, one (key WALL_KEYS (by decide) (by decide)), fun d => ?_⟩
      exact table (fun i => { d with wallpaper := i }) (find_getD (by decide) hc.wallpaper)
  | dockSize =>
      refine ⟨_, rfl, one (key DOCK_SIZE_KEYS (by decide) (by decide)), fun d => ?_⟩
      exact table (fun i => { d with dock_size := i }) (find_getD (by decide) hc.dock_size)
  | theme =>
      exact ⟨_, rfl, by cases c.dark <;> decide, fun d =>
        same (fun b => { d with dark := b }) (by cases c.dark <;> decide)⟩
  | dockPosition =>
      exact ⟨_, rfl, by cases c.dock_left <;> decide, fun d =>
        same (fun b => { d with dock_left := b }) (by cases c.dock_left <;> decide)⟩
  | keyboard =>
      exact ⟨_, rfl, by cases c.layout <;> decide, fun d =>
        same (fun l : Option Layout => l.elim d fun l => { d with layout := l })
          (show Layout.fromName [utf8 c.layout.name].flatten = some c.layout by
            cases c.layout <;> decide)⟩
  | dockMagnify =>
      exact ⟨_, rfl, word c.dock_magnify, fun d =>
        same (fun b => { d with dock_magnify := b }) (on c.dock_magnify)⟩
  | dockClickMinimizes =>
      exact ⟨_, rfl, word c.dock_minimize, fun d =>
        same (fun b => { d with dock_minimize := b }) (on c.dock_minimize)⟩
  | clock24h =>
      exact ⟨_, rfl, word c.clock24, fun d =>
        same (fun b => { d with clock24 := b }) (on c.clock24)⟩
  | clockSeconds =>
      exact ⟨_, rfl, word c.seconds, fun d =>
        same (fun b => { d with seconds := b }) (on c.seconds)⟩
  | menubarCpu =>
      exact ⟨_, rfl, word c.cpu_meter, fun d =>
        same (fun b => { d with cpu_meter := b }) (on c.cpu_meter)⟩
  | glass =>
      exact ⟨_, rfl, word c.glass, fun d =>
        same (fun b => { d with glass := b }) (on c.glass)⟩

/-- **A line with a key** sets its field. -/
theorem Config.parseLine_name (d : Config) (f : Field) (hv : Word v = true) :
    d.parseLine (utf8 f.name ++ '='.toUInt8 :: v) = d.set v f := by
  obtain ⟨htight, hne, -, -⟩ := Word.parts hv
  have hname : utf8 f.name ≠ [] ∧ Tight (utf8 f.name) = true ∧ '='.toUInt8 ∉ utf8 f.name ∧
      (utf8 f.name).head? ≠ some '#'.toUInt8 ∧ Field.ofName (utf8 f.name) = some f := by
    cases f <;> decide
  obtain ⟨hnil, hkt, heq, hhash, hof⟩ := hname
  have hlen : (utf8 f.name ++ '='.toUInt8 :: v).length = (utf8 f.name).length + 1 + v.length := by
    rw [List.length_append, List.length_cons, Nat.add_right_comm, Nat.add_assoc]
  have hline : Tight (utf8 f.name ++ '='.toUInt8 :: v) = true := by
    rw [Tight, List.head?_append_of_ne_nil _ hnil, List.getLast?_append_cons,
      List.getLast?_cons_of_ne_nil hne]
    exact Bool.and_eq_true_iff.mpr ⟨(Bool.and_eq_true_iff.mp hkt).1,
      (Bool.and_eq_true_iff.mp htight).2⟩
  have hidx : (utf8 f.name ++ '='.toUInt8 :: v).findIdx? (· = '='.toUInt8) =
      some (utf8 f.name).length := by
    have hnone : (utf8 f.name).findIdx? (· = '='.toUInt8) = none :=
      List.findIdx?_eq_none_iff.mpr fun c hc => decide_eq_false fun h => heq (h ▸ hc)
    rw [List.findIdx?_append, hnone, List.findIdx?_cons, if_pos (by decide)]
    exact congrArg some (Nat.zero_add _)
  have hkey : slice (utf8 f.name ++ '='.toUInt8 :: v) 0 (utf8 f.name).length =
      some (utf8 f.name) := by
    rw [slice_of_le (Nat.zero_le _) (by omega), List.take_left, List.drop_zero]
  have hval : slice (utf8 f.name ++ '='.toUInt8 :: v) ((utf8 f.name).length + 1)
      (utf8 f.name ++ '='.toUInt8 :: v).length = some v := by
    rw [slice_of_le (by omega) (Nat.le_refl _), List.take_length, List.drop_append]
    simp
  have hempty : (utf8 f.name ++ '='.toUInt8 :: v).isEmpty = false := by simp
  have hfirst : ∃ b, (utf8 f.name ++ '='.toUInt8 :: v).head? = some b ∧ b ≠ '#'.toUInt8 := by
    cases hk : utf8 f.name with
    | nil => exact absurd hk hnil
    | cons b bs => exact ⟨b, rfl, fun h => hhash (by rw [hk, h]; rfl)⟩
  obtain ⟨b, hb, hbne⟩ := hfirst
  unfold Config.parseLine
  simp only [trim_tight hline, Option.bind_eq_bind, Option.bind_some, hempty, hb, hbne, hidx, hkey,
    hval, trim_tight hkt, trim_tight htight, hof, if_false, Bool.false_eq_true]

/-- A line that is empty, or a comment. -/
def Idle (l : List UInt8) : Bool := l.isEmpty || l.head? = some '#'.toUInt8

/-- **A comment** sets nothing. -/
theorem Config.parseLine_idle (d : Config) {l : List UInt8} (h : Idle l = true) :
    d.parseLine l = some d := by
  cases l with
  | nil => rfl
  | cons x xs =>
      obtain rfl : x = '#'.toUInt8 := by simpa [Idle] using h
      obtain ⟨ys, hys⟩ := trim_cons (x := '#'.toUInt8) (by decide) xs
      unfold Config.parseLine
      simp only [hys, Option.bind_eq_bind, Option.bind_some, List.isEmpty_cons, Bool.false_eq_true,
        if_false, List.head?_cons, if_true]

theorem Config.lines_spec (hc : c.InRange) (fs : List Field) : ∃ ps, c.lines fs = some ps ∧
    ps.flatten.length ≤ 33 * fs.length ∧
    ∀ d : Config, (ps.flatten.splitOn 10).foldlM Config.parseLine d =
      some (fs.foldl (fun d f => d.take c f) d) := by
  induction fs with
  | nil => exact ⟨[], rfl, Nat.le_refl _, fun d => rfl⟩
  | cons f fs ih =>
      obtain ⟨ps, hps, hlen, hread⟩ := ih
      obtain ⟨vs, hvs, hword, hset⟩ := Config.value_spec hc f
      obtain ⟨-, -, hnl, hvlen⟩ := Word.parts hword
      have hname : utf8 (f.name ++ "=") = utf8 f.name ++ ['='.toUInt8] ∧
          (utf8 f.name).length ≤ 20 ∧ 10 ∉ utf8 f.name := by
        cases f <;> decide
      obtain ⟨hkey, hklen, hknl⟩ := hname
      have hflat : (utf8 (f.name ++ "=") :: vs ++ utf8 "\n" :: ps).flatten =
          (utf8 f.name ++ '='.toUInt8 :: vs.flatten) ++ 10 :: ps.flatten := by
        rw [List.cons_append, List.flatten_cons, List.flatten_append, List.flatten_cons, hkey]
        simp
        rfl
      refine ⟨utf8 (f.name ++ "=") :: vs ++ utf8 "\n" :: ps, ?_, ?_, fun d => ?_⟩
      · simp only [Config.lines, hvs, hps, Option.bind_eq_bind, Option.bind_some]
      · rw [hflat]
        simp only [List.length_append, List.length_cons]
        omega
      · have hline : 10 ∉ utf8 f.name ++ '='.toUInt8 :: vs.flatten := by
          rw [List.mem_append, List.mem_cons]
          rintro (hmem | hmem | hmem)
          · exact hknl hmem
          · exact absurd hmem (by decide)
          · exact hnl hmem
        rw [hflat, List.splitOn_append_cons_self, List.splitOn_eq_singleton hline,
          List.singleton_append, List.foldlM_cons, Config.parseLine_name d f hword, hset]
        exact hread (d.take c f)

theorem Config.take_all (c d : Config) : Field.all.foldl (fun d f => d.take c f) d = c := by
  simp only [Field.all, List.foldl_cons, List.foldl_nil, Config.take]

theorem header_lines (d : Config) (rest : List UInt8) :
    (((header.map utf8).flatten ++ rest).splitOn 10).foldlM Config.parseLine d =
      (rest.splitOn 10).foldlM Config.parseLine d := by
  have hend : (header.map utf8).flatten = (header.map utf8).flatten.dropLast ++ [10] := by
    decide +kernel
  have hidle : ∀ l ∈ (header.map utf8).flatten.dropLast.splitOn 10, Idle l = true := by
    decide +kernel
  have hskip {ls : List (List UInt8)} (hls : ∀ l ∈ ls, Idle l = true) (d : Config) :
      ls.foldlM Config.parseLine d = some d := by
    induction ls with
    | nil => rfl
    | cons l ls ih =>
        rw [List.foldlM_cons, Config.parseLine_idle d (hls l List.mem_cons_self)]
        exact ih fun m hm => hls m (List.mem_cons_of_mem l hm)
  rw [hend, List.append_assoc, List.singleton_append, List.splitOn_append_cons_self,
    List.foldlM_append, hskip hidle]
  rfl

/-- **What was parsed is written, and read back as it was**: of every text the fields are in their
ranges, what is written of them is whole, and parsing it gives them again. -/
theorem parse_serialize (text : List UInt8) : ∃ c ps s, Config.default.parse text = some c ∧
    c.InRange ∧ c.pieces = some ps ∧ c.serialize = some s ∧ s = ps.flatten ∧ s.length ≤ 1024 ∧
    Config.default.parse s = some c := by
  obtain ⟨c, hparse, hc⟩ := Config.parse_inRange Config.default_inRange text
  obtain ⟨ps, hps, hlen, hread⟩ := Config.lines_spec hc Field.all
  have hheader : (header.map utf8).flatten.length = 534 := by decide +kernel
  have hsize : (header.map utf8 ++ ps).flatten.length ≤ 1024 := by
    rw [List.flatten_append, List.length_append, hheader]
    exact Nat.le_trans (Nat.add_le_add_left hlen 534) (by decide)
  have hpieces : c.pieces = some (header.map utf8 ++ ps) := by
    simp only [Config.pieces, hps, Option.bind_eq_bind, Option.bind_some]
  refine ⟨c, _, _, hparse, hc, hpieces, ?_, rfl, hsize, ?_⟩
  · rw [Config.serialize, hpieces]
    refine congrArg some ((foldl_bytes ?_).trans (List.nil_append _))
    rw [List.length_nil, Nat.zero_add]
    exact hsize
  · rw [Config.parse, List.flatten_append, header_lines, hread]
    exact congrArg some (Config.take_all c _)

end

end Pulsar.Shell

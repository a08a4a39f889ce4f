import Mathlib.Algebra.Ring.Nat
import Mathlib.Data.List.TakeWhile
import Mathlib.Data.UInt

/-!
# Numbers from text

`strtoll` and `strtoull` of the C library.  A string is its bytes up to the terminator, and a
pointer into it the bytes from there on; `end` is such a pointer.

What the conversion is to read is said apart from the code: white space, a sign, the prefix that
the base allows and digits, at least one (`Numeral`), as many bytes as possible (`Longest`).

* `strto_iff`: both functions follow the rule, and `strtoll` negates a number without overflow,
  exactly if the number read is not the least of 64 bits.
-/

namespace Pulsar.Libc

/-! ### Characters -/

def isspace (c : UInt8) : Bool := c.toNat == 32 || (9 ≤ c.toNat && c.toNat ≤ 13)

def isdigit (c : UInt8) : Bool := 48 ≤ c.toNat && c.toNat ≤ 57

def isalpha (c : UInt8) : Bool :=
  (65 ≤ c.toNat && c.toNat ≤ 90) || (97 ≤ c.toNat && c.toNat ≤ 122)

def isxdigit (c : UInt8) : Bool :=
  isdigit c || (97 ≤ c.toNat && c.toNat ≤ 102) || (65 ≤ c.toNat && c.toNat ≤ 70)

/-- The value of a digit or a letter. -/
def digitVal (c : UInt8) : Option Nat :=
  if isdigit c then some (c.toNat - 48)
  else if isalpha c then some ((c.toNat ||| 32) - 97 + 10)
  else none

/-- `*p`, zero at the end. -/
def peek (p : List UInt8) : UInt8 := p.headD 0

/-! ### The functions -/

/-- The loop over the digits: where it stops, the value modulo `2 ^ 64`, and if it is too large. -/
def digits (base : Nat) : List UInt8 → Nat → Bool → List UInt8 × Nat × Bool
  | [], v, ovf => ([], v, ovf)
  | c :: p, v, ovf =>
    match digitVal c with
    | none => (c :: p, v, ovf)
    | some d =>
      if d ≥ base then (c :: p, v, ovf)
      else digits base p ((v * base + d) % 2 ^ 64) (ovf || v > (2 ^ 64 - 1 - d) / base)

structure Parsed where
  v : Nat
  endp : List UInt8
  neg : Bool
  ovf : Bool

/-- After the sign: the prefix is skipped, and the base is known. -/
def parseBase (p : List UInt8) (base : Nat) : List UInt8 × Nat :=
  if (base = 0 ∨ base = 16) ∧ peek p = 48 ∧ (peek p.tail).toNat ||| 32 = 120 ∧
      isxdigit (peek (p.drop 2)) then (p.drop 2, 16)
  else if base = 0 then (p, if peek p = 48 then 8 else 10)
  else (p, base)

def parse_u (s : List UInt8) (base : Nat) : Parsed :=
  let p := s.dropWhile isspace
  let neg := peek p == 45
  let p := if peek p = 43 ∨ peek p = 45 then p.tail else p
  let (p, base) := parseBase p base
  let r := digits base p 0 false
  { v := r.2.1, endp := if r.1.length = p.length then s else r.1, neg, ovf := r.2.2 }

/-- What a conversion gives: the number, `*end`, and `ERANGE` in `errno` or not. -/
structure Converted where
  val : Int
  endp : List UInt8
  erange : Bool
deriving DecidableEq

/-- `(long long)v`. -/
def toI64 (v : Nat) : Int := if v < 2 ^ 63 then v else v - 2 ^ 64

/-- `-x` of 64 bits, `none` when it overflows. -/
def negI64 (x : Int) : Option Int := if x = -2 ^ 63 then none else some (-x)

def strtoll (s : List UInt8) (base : Nat) : Option Converted :=
  let r := parse_u s base
  if r.ovf || r.v > (if r.neg then 2 ^ 63 else 2 ^ 63 - 1) then
    some ⟨if r.neg then toI64 (2 ^ 63) else 2 ^ 63 - 1, r.endp, true⟩
  else if r.neg then (negI64 (toI64 r.v)).map fun x => ⟨x, r.endp, false⟩
  else some ⟨toI64 r.v, r.endp, false⟩

def strtoull (s : List UInt8) (base : Nat) : Converted :=
  let r := parse_u s base
  if r.ovf then ⟨2 ^ 64 - 1, r.endp, true⟩
  else ⟨if r.neg then ((2 ^ 64 - r.v) % 2 ^ 64 : Nat) else r.v, r.endp, false⟩

/-! ### The rule -/

/-- A digit of a base. -/
def isDigit (base : Nat) (c : UInt8) : Bool :=
  match digitVal c with
  | some d => d < base
  | none => false

/-- The number that digits stand for. -/
def value (base : Nat) (ds : List UInt8) : Nat :=
  ds.foldl (fun v c => v * base + (digitVal c).getD 0) 0

/-- What may stand between the sign and the digits, and the base of the digits then. -/
inductive Base : Nat → List UInt8 → List UInt8 → Nat → Prop where
  | given {base : Nat} (ds : List UInt8) : base ≠ 0 → Base base [] ds base
  | hex {base : Nat} {x : UInt8} (ds : List UInt8) : base = 0 ∨ base = 16 → x = 88 ∨ x = 120 →
      Base base [48, x] ds 16
  | octal (ds : List UInt8) : Base 0 [] (48 :: ds) 8
  | decimal {c : UInt8} (ds : List UInt8) : c ≠ 48 → Base 0 [] (c :: ds) 10

/-- A prefix of the base and digits, at least one. -/
structure Body (base : Nat) (pre ds : List UInt8) (b : Nat) : Prop where
  base : Base base pre ds b
  some : ds ≠ []
  digits : ∀ c ∈ ds, isDigit b c

/-- The signs. -/
inductive Sign : List UInt8 → Bool → Prop where
  | none : Sign [] false
  | plus : Sign [43] false
  | minus : Sign [45] true

/-- A whole numeral, with its sign and the number without it. -/
def Numeral (base : Nat) (l : List UInt8) (neg : Bool) (mag : Nat) : Prop :=
  ∃ ws sg pre ds b, l = ws ++ (sg ++ (pre ++ ds)) ∧ (∀ c ∈ ws, isspace c) ∧ Sign sg neg ∧
    Body base pre ds b ∧ mag = value b ds

/-- The longest numeral that a string begins with. -/
structure Longest (base : Nat) (s l rest : List UInt8) (neg : Bool) (mag : Nat) : Prop where
  split : s = l ++ rest
  numeral : Numeral base l neg mag
  longest : ∀ l' rest' neg' mag', s = l' ++ rest' → Numeral base l' neg' mag' →
    l'.length ≤ l.length

/-! ### Digits -/

theorem forall_byte {P : UInt8 → Prop} (h : ∀ n : Fin 256, P (UInt8.ofNat n)) (c : UInt8) :
    P c := by
  have := h ⟨c.toNat, c.toNat_lt⟩
  rwa [UInt8.ofNat_toNat] at this

theorem isxdigit_eq (c : UInt8) : isxdigit c = isDigit 16 c :=
  forall_byte (P := fun c => isxdigit c = isDigit 16 c) (by decide +kernel) c

theorem x_eq (c : UInt8) : c.toNat ||| 32 = 120 ↔ c = 88 ∨ c = 120 :=
  forall_byte (P := fun c => c.toNat ||| 32 = 120 ↔ c = 88 ∨ c = 120) (by decide +kernel) c

theorem not_space (b : Nat) {c : UInt8} (h : isDigit b c) :
    isspace c = false ∧ c ≠ 43 ∧ c ≠ 45 := by
  have hval : digitVal c ≠ none := fun hn => by simp [isDigit, hn] at h
  exact forall_byte (P := fun c => digitVal c ≠ none → isspace c = false ∧ c ≠ 43 ∧ c ≠ 45)
    (by decide +kernel) c hval

theorem not_octal_x {x : UInt8} {b : Nat} (hb : b ≤ 16) (hx : x = 88 ∨ x = 120) :
    isDigit b x = false := by
  have hval : digitVal x = some 33 := by rcases hx with rfl | rfl <;> rfl
  simp [isDigit, hval]
  omega

/-- The value so far, and whether it is too large. -/
def Tracks (e v : Nat) (ovf : Bool) : Prop := if ovf then 2 ^ 64 ≤ e else v = e ∧ e < 2 ^ 64

theorem Tracks.digit {e v base d : Nat} {ovf : Bool} (h : Tracks e v ovf) (hd : d < base)
    (hb : base ≤ 36) : Tracks (e * base + d) ((v * base + d) % 2 ^ 64)
      (ovf || v > (2 ^ 64 - 1 - d) / base) := by
  cases ovf with
  | true =>
      have he : 2 ^ 64 ≤ e := h
      have hmul : e ≤ e * base := Nat.le_mul_of_pos_right e (by omega)
      exact he.trans (hmul.trans (Nat.le_add_right _ d))
  | false =>
      obtain ⟨rfl, he⟩ : v = e ∧ e < 2 ^ 64 := h
      have htest : v > (2 ^ 64 - 1 - d) / base ↔ 2 ^ 64 ≤ v * base + d := by
        rw [gt_iff_lt, Nat.div_lt_iff_lt_mul (by omega)]
        omega
      rw [Bool.false_or]
      by_cases hbig : 2 ^ 64 ≤ v * base + d
      · rw [decide_eq_true (htest.mpr hbig)]
        exact hbig
      · rw [decide_eq_false (mt htest.mp hbig)]
        exact ⟨Nat.mod_eq_of_lt (Nat.lt_of_not_le hbig), Nat.lt_of_not_le hbig⟩

theorem digits_spec {base : Nat} (hb : base ≤ 36) (p : List UInt8) {e v : Nat} {ovf : Bool}
    (h : Tracks e v ovf) :
    (digits base p v ovf).1 = p.dropWhile (isDigit base) ∧
      Tracks ((p.takeWhile (isDigit base)).foldl (fun v c => v * base + (digitVal c).getD 0) e)
        (digits base p v ovf).2.1 (digits base p v ovf).2.2 := by
  induction p generalizing e v ovf with
  | nil => exact ⟨rfl, h⟩
  | cons c p ih =>
      unfold digits
      cases hc : digitVal c with
      | none =>
          have hd : isDigit base c = false := by simp [isDigit, hc]
          simp only [List.dropWhile_cons, List.takeWhile_cons, hd]
          exact ⟨rfl, h⟩
      | some d =>
          dsimp only
          split
          next hge =>
            have hd : isDigit base c = false := by simp [isDigit, hc, hge]
            simp only [List.dropWhile_cons, List.takeWhile_cons, hd]
            exact ⟨rfl, h⟩
          next hlt =>
            have hd : isDigit base c = true := by simp [isDigit, hc, Nat.lt_of_not_le hlt]
            simp only [List.dropWhile_cons, List.takeWhile_cons, hd, if_true, List.foldl_cons, hc,
              Option.getD_some]
            exact ih (h.digit (Nat.lt_of_not_le hlt) hb)

/-! ### The longest body -/

theorem Body.begins {base b : Nat} {pre ds t : List UInt8} (h : Body base pre ds b) :
    ∃ c r, pre ++ (ds ++ t) = c :: r ∧ isspace c = false ∧ c ≠ 43 ∧ c ≠ 45 := by
  obtain ⟨hbase, hsome, hdigits⟩ := h
  cases hbase with
  | hex ds hb hx => exact ⟨48, _, rfl, by decide, by decide, by decide⟩
  | given ds hb =>
      obtain ⟨c, ds, rfl⟩ := List.exists_cons_of_ne_nil hsome
      exact ⟨c, _, rfl, not_space _ (hdigits c (List.mem_cons_self ..))⟩
  | octal ds => exact ⟨48, _, rfl, by decide, by decide, by decide⟩
  | decimal ds hc => exact ⟨_, _, rfl, not_space _ (hdigits _ (List.mem_cons_self ..))⟩

theorem length_le_takeWhile {α : Type} {p : α → Bool} {l t : List α} (h : ∀ x ∈ l, p x) :
    l.length ≤ ((l ++ t).takeWhile p).length := by
  rw [List.takeWhile_append_of_pos h, List.length_append]
  exact Nat.le_add_right _ _

/-- Digits that stop at an `x`. -/
theorem length_le_one {b : Nat} {ds t r : List UInt8} {c x : UInt8} (h : ds ++ t = c :: x :: r)
    (hd : ∀ c ∈ ds, isDigit b c) (hx : isDigit b x = false) : ds.length ≤ 1 := by
  match ds with
  | [] | [_] => simp
  | c' :: x' :: ds =>
      obtain ⟨rfl, rfl, -⟩ : c' = c ∧ x' = x ∧ ds ++ t = r := by simpa using h
      have := hd x' (by simp)
      rw [hx] at this
      contradiction

/-- The digits that the code takes after the prefix it skips. -/
def taken (q : List UInt8) (base : Nat) : List UInt8 :=
  (parseBase q base).1.takeWhile (isDigit (parseBase q base).2)

/-- What the code takes for the body: a body if there is one, the longest there is. -/
structure Takes (base : Nat) (q pre ds : List UInt8) (b : Nat) : Prop where
  body : ds ≠ [] → Body base pre ds b
  nothing : pre = [] ∨ ds ≠ []
  longest : ∀ pre' ds' t b', q = pre' ++ (ds' ++ t) → Body base pre' ds' b' →
    pre'.length + ds'.length ≤ pre.length + ds.length

theorem digits_takeWhile (b : Nat) (l : List UInt8) : ∀ c ∈ l.takeWhile (isDigit b), isDigit b c :=
  fun _ hc => List.mem_takeWhile_imp hc

theorem hex_seen {q ds t : List UInt8} {x : UInt8} (hq : q = [48, x] ++ (ds ++ t))
    (hx : x = 88 ∨ x = 120) (hs : ds ≠ []) (hd : ∀ c ∈ ds, isDigit 16 c) :
    peek q = 48 ∧ (peek q.tail).toNat ||| 32 = 120 ∧ isxdigit (peek (q.drop 2)) := by
  obtain ⟨c, ds, rfl⟩ := List.exists_cons_of_ne_nil hs
  subst hq
  refine ⟨rfl, (x_eq x).mpr hx, ?_⟩
  rw [isxdigit_eq]
  exact hd c (List.mem_cons_self ..)

theorem takes_hex {base : Nat} {r : List UInt8} {x c : UInt8} (hb : base = 0 ∨ base = 16)
    (hx : x = 88 ∨ x = 120) (hc : isDigit 16 c) :
    Takes base (48 :: x :: c :: r) [48, x] ((c :: r).takeWhile (isDigit 16)) 16 := by
  have hsome : (c :: r).takeWhile (isDigit 16) ≠ [] := by simp [hc]
  refine ⟨fun _ => ⟨.hex _ hb hx, hsome, digits_takeWhile 16 _⟩, .inr hsome, ?_⟩
  intro pre' ds' t b' hq ⟨hbase, hs, hd⟩
  have hone : 1 ≤ ((c :: r).takeWhile (isDigit 16)).length := List.length_pos_iff.mpr hsome
  cases hbase with
  | given ds' hne =>
      have hq : ds' ++ t = _ := hq.symm
      have := length_le_one hq hd (not_octal_x (by omega) hx)
      simp only [List.length_cons, List.length_nil]
      omega
  | hex ds' _ _ =>
      obtain ⟨-, -, hrest⟩ : 48 = 48 ∧ x = _ ∧ c :: r = ds' ++ t := by simpa using hq
      rw [hrest]
      exact Nat.add_le_add_left (length_le_takeWhile hd) 2
  | octal ds' =>
      have hq : 48 :: ds' ++ t = _ := hq.symm
      have := length_le_one hq hd (not_octal_x (by decide) hx)
      simp only [List.length_cons, List.length_nil] at *
      omega
  | decimal ds' hne =>
      have hq : 48 :: x :: c :: r = _ :: (ds' ++ t) := hq
      exact absurd (List.cons.inj hq).1.symm hne

theorem takes_plain {base b : Nat} {q : List UInt8}
    (hhex : ¬ ((base = 0 ∨ base = 16) ∧ peek q = 48 ∧ (peek q.tail).toNat ||| 32 = 120 ∧
      isxdigit (peek (q.drop 2))))
    (hb : b = if base = 0 then if peek q = 48 then 8 else 10 else base) :
    Takes base q [] (q.takeWhile (isDigit b)) b := by
  refine ⟨fun hs => ⟨?_, hs, digits_takeWhile b q⟩, .inl rfl, ?_⟩
  · cases q with
    | nil => exact absurd rfl hs
    | cons c q =>
        have hc : isDigit b c = true := by
          by_contra h
          exact hs (by simp [h])
        rw [List.takeWhile_cons_of_pos hc]
        split_ifs at hb with h0 h8
        · obtain rfl : c = 48 := h8
          subst h0 hb
          exact .octal _
        · subst h0 hb
          exact .decimal _ h8
        · subst hb
          exact .given _ h0
  · intro pre' ds' t b' hq ⟨hbase, hs, hd⟩
    cases hbase with
    | given ds' hne =>
        rw [if_neg hne] at hb
        subst hb hq
        exact Nat.add_le_add_left (length_le_takeWhile hd) 0
    | hex ds' hbase hx => exact absurd ⟨hbase, hex_seen hq hx hs hd⟩ hhex
    | octal ds' =>
        subst hq
        obtain rfl : b = 8 := hb
        exact Nat.add_le_add_left (length_le_takeWhile hd) 0
    | decimal ds' hne =>
        subst hq
        obtain rfl : b = 10 := hb.trans ((if_pos rfl).trans (if_neg hne))
        exact Nat.add_le_add_left (length_le_takeWhile hd) 0

theorem parseBase_spec (q : List UInt8) (base : Nat) :
    ∃ pre, q = pre ++ (parseBase q base).1 ∧
      Takes base q pre (taken q base) (parseBase q base).2 := by
  unfold taken parseBase
  split_ifs with hhex h0 h8
  · obtain ⟨hb, h48, hx, hd⟩ := hhex
    match q with
    | [] => exact absurd h48 (by decide)
    | [_] => exact absurd hx (show ¬ (0 : UInt8).toNat ||| 32 = 120 by decide)
    | [_, _] => exact absurd hd (show ¬ isxdigit 0 = true by decide)
    | _ :: x :: c :: r =>
        obtain rfl : _ = (48 : UInt8) := h48
        rw [isxdigit_eq] at hd
        exact ⟨[48, x], rfl, takes_hex hb ((x_eq x).mp hx) hd⟩
  · exact ⟨[], rfl, takes_plain hhex (by rw [if_pos h0, if_pos h8])⟩
  · exact ⟨[], rfl, takes_plain hhex (by rw [if_pos h0, if_neg h8])⟩
  · exact ⟨[], rfl, takes_plain hhex (by rw [if_neg h0])⟩

/-! ### The longest numeral -/

/-- Where the code stands after white space and a sign. -/
def afterSign (s : List UInt8) : List UInt8 :=
  let p := s.dropWhile isspace
  if peek p = 43 ∨ peek p = 45 then p.tail else p

def signOf (s : List UInt8) : Bool := peek (s.dropWhile isspace) == 45

theorem lead (s : List UInt8) : ∃ ws sg, s = ws ++ (sg ++ afterSign s) ∧ (∀ c ∈ ws, isspace c) ∧
    Sign sg (signOf s) := by
  have hsplit : s = s.takeWhile isspace ++ s.dropWhile isspace :=
    List.takeWhile_append_dropWhile.symm
  have hspace : ∀ c ∈ s.takeWhile isspace, isspace c := fun _ hc => List.mem_takeWhile_imp hc
  unfold afterSign signOf
  generalize s.dropWhile isspace = p at hsplit ⊢
  refine ⟨s.takeWhile isspace, ?_⟩
  match p with
  | [] => exact ⟨[], hsplit, hspace, .none⟩
  | c :: p =>
      by_cases hplus : c = 43
      · subst hplus
        exact ⟨[43], hsplit, hspace, .plus⟩
      by_cases hminus : c = 45
      · subst hminus
        exact ⟨[45], hsplit, hspace, .minus⟩
      · have hneg : (peek (c :: p) == 45) = false := beq_false_of_ne hminus
        have hsign : ¬ (peek (c :: p) = 43 ∨ peek (c :: p) = 45) := fun h => h.elim hplus hminus
        refine ⟨[], ?_, hspace, hneg ▸ .none⟩
        dsimp only
        rw [if_neg hsign]
        exact hsplit

theorem lead_unique {ws sg u : List UInt8} {neg : Bool} {c : UInt8} {r : List UInt8}
    (hws : ∀ c ∈ ws, isspace c) (hsg : Sign sg neg) (hu : u = c :: r)
    (hc : isspace c = false ∧ c ≠ 43 ∧ c ≠ 45) :
    afterSign (ws ++ (sg ++ u)) = u ∧ signOf (ws ++ (sg ++ u)) = neg := by
  have hdrop : (ws ++ (sg ++ u)).dropWhile isspace = sg ++ u := by
    rw [List.dropWhile_append_of_pos hws]
    cases hsg with
    | none => rw [hu]; exact List.dropWhile_cons_of_neg (by simp [hc.1])
    | plus => rfl
    | minus => rfl
  unfold afterSign signOf
  rw [hdrop]
  cases hsg with
  | none =>
      subst hu
      exact ⟨if_neg (show ¬ (c = 43 ∨ c = 45) by tauto), beq_false_of_ne hc.2.2⟩
  | plus => exact ⟨rfl, rfl⟩
  | minus => exact ⟨rfl, rfl⟩

theorem Numeral.body {base : Nat} {s l rest : List UInt8} {neg : Bool} {mag : Nat}
    (h : Numeral base l neg mag) (hs : s = l ++ rest) : ∃ pre ds b, Body base pre ds b ∧
      afterSign s = pre ++ (ds ++ rest) ∧ neg = signOf s ∧ mag = value b ds ∧
      s.length + (pre.length + ds.length) = l.length + (afterSign s).length := by
  obtain ⟨ws, sg, pre, ds, b, rfl, hws, hsg, hbody, hmag⟩ := h
  obtain ⟨c, r, hcr, hc⟩ := hbody.begins (t := rest)
  obtain ⟨hafter, hneg⟩ := lead_unique hws hsg hcr hc
  have hs' : s = ws ++ (sg ++ (pre ++ (ds ++ rest))) := by simpa only [List.append_assoc] using hs
  rw [← hs'] at hafter hneg
  refine ⟨pre, ds, b, hbody, hafter, hneg.symm, hmag, ?_⟩
  rw [hafter, hs']
  simp only [List.length_append]
  omega

/-- What `parse_u` finds. -/
theorem parse_spec (s : List UInt8) {base : Nat} (hb : base ≤ 36) :
    (∃ l mag, Longest base s l (parse_u s base).endp (parse_u s base).neg mag ∧
        Tracks mag (parse_u s base).v (parse_u s base).ovf) ∨
      (∀ l rest neg mag, s = l ++ rest → ¬ Numeral base l neg mag) ∧
        (parse_u s base).endp = s ∧ (parse_u s base).v = 0 ∧ (parse_u s base).ovf = false := by
  obtain ⟨ws, sg, hs, hws, hsg⟩ := lead s
  obtain ⟨pre, hq, htakes⟩ := parseBase_spec (afterSign s) base
  have hb' : (parseBase (afterSign s) base).2 ≤ 36 := by
    unfold parseBase
    split_ifs <;> dsimp only <;> omega
  obtain ⟨hrest, htracks⟩ := digits_spec hb' (parseBase (afterSign s) base).1
    (show Tracks 0 0 false from ⟨rfl, by decide⟩)
  have hsplit : taken (afterSign s) base ++ (parseBase (afterSign s) base).1.dropWhile
      (isDigit (parseBase (afterSign s) base).2) = (parseBase (afterSign s) base).1 :=
    List.takeWhile_append_dropWhile
  have hend : (parse_u s base).endp =
      if (digits (parseBase (afterSign s) base).2
          (parseBase (afterSign s) base).1 0 false).1.length =
        (parseBase (afterSign s) base).1.length then s
      else (digits (parseBase (afterSign s) base).2
        (parseBase (afterSign s) base).1 0 false).1 := rfl
  have hv : Tracks (value (parseBase (afterSign s) base).2 (taken (afterSign s) base))
      (parse_u s base).v (parse_u s base).ovf := htracks
  have hneg : (parse_u s base).neg = signOf s := rfl
  have hlen := congrArg List.length hsplit
  rw [hrest] at hend
  rw [List.length_append] at hlen
  generalize (parse_u s base).v = v, (parse_u s base).ovf = ovf, (parse_u s base).neg = neg,
    (parse_u s base).endp = endp at *
  generalize (parseBase (afterSign s) base).1 = p, (parseBase (afterSign s) base).2 = b at *
  generalize taken (afterSign s) base = ds at *
  by_cases hds : ds = []
  · subst hds
    refine .inr ⟨fun l rest neg mag hl hnum => ?_, ?_, ?_⟩
    · obtain ⟨pre', ds', b', hbody, hafter, -⟩ := hnum.body hl
      have hle := htakes.longest _ _ _ _ hafter hbody
      have hpos := List.length_pos_iff.mpr hbody.some
      obtain rfl : pre = [] := htakes.nothing.resolve_right (not_not.mpr rfl)
      simp only [List.length_nil] at hle
      omega
    · rw [hend, if_pos (by simpa using hlen)]
    · cases ovf with
      | true => exact absurd (show 2 ^ 64 ≤ 0 from hv) (by decide)
      | false => exact ⟨(show v = 0 ∧ 0 < 2 ^ 64 from hv).1, rfl⟩
  · have hbody := htakes.body hds
    have hpos := List.length_pos_iff.mpr hds
    rw [if_neg (by omega)] at hend
    subst hend hneg
    refine .inl ⟨ws ++ (sg ++ (pre ++ ds)), value b ds, ⟨?_, ?_, ?_⟩, hv⟩
    · simp only [List.append_assoc, hsplit]
      rw [← hq]
      exact hs
    · exact ⟨ws, sg, pre, ds, b, rfl, hws, hsg, hbody, rfl⟩
    · intro l' rest' neg' mag' hl' hnum
      obtain ⟨pre', ds', b', hbody', hafter, -, -, hlen'⟩ := hnum.body hl'
      have hle := htakes.longest _ _ _ _ hafter hbody'
      have hs' := congrArg List.length hs
      simp only [List.length_append] at hs' ⊢
      omega

/-! ### The two conversions -/

/-- The rule for a conversion: the longest numeral, as `fit` makes it a number of the type, and the
end behind it, or zero and the start. -/
def Follows (fit : Bool → Nat → Int) (base : Nat) (s : List UInt8) (r : Converted) : Prop :=
  (∃ l neg mag, Longest base s l r.endp neg mag ∧ r.val = fit neg mag) ∨
    (∀ l rest neg mag, s = l ++ rest → ¬ Numeral base l neg mag) ∧ r.endp = s ∧ r.val = 0

/-- A signed number of 64 bits, the nearest one. -/
def fitSigned (neg : Bool) (mag : Nat) : Int :=
  if neg then max (-2 ^ 63) (-(mag : Int)) else min (2 ^ 63 - 1) mag

/-- An unsigned number of 64 bits: the largest one when the numeral is too large, and otherwise
negated in the type. -/
def fitUnsigned (neg : Bool) (mag : Nat) : Int :=
  if 2 ^ 64 ≤ mag then 2 ^ 64 - 1 else if neg then (-(mag : Int)) % 2 ^ 64 else mag

theorem strtoull_follows (s : List UInt8) {base : Nat} (hb : base ≤ 36) :
    Follows fitUnsigned base s (strtoull s base) := by
  have hparse := parse_spec s hb
  unfold strtoull
  generalize parse_u s base = r at hparse
  obtain ⟨v, endp, neg, ovf⟩ := r
  rcases hparse with ⟨l, mag, hlong, htracks⟩ | ⟨hnone, rfl, rfl, rfl⟩
  · refine .inl ⟨l, neg, mag, ?_⟩
    cases ovf with
    | true => exact ⟨hlong, (if_pos (show 2 ^ 64 ≤ mag from htracks)).symm⟩
    | false =>
        obtain ⟨rfl, hlt⟩ : v = mag ∧ mag < 2 ^ 64 := htracks
        refine ⟨hlong, ?_⟩
        simp only [fitUnsigned, if_neg (Nat.not_le_of_lt hlt), Bool.false_eq_true, if_false]
        split
        · omega
        · rfl
  · exact .inr ⟨hnone, rfl, by cases neg <;> simp⟩

theorem Body.value_eq {base b b' : Nat} {pre pre' ds ds' : List UInt8} (h : Body base pre ds b)
    (h' : Body base pre' ds' b') (heq : pre ++ ds = pre' ++ ds') : value b ds = value b' ds' := by
  -- a body with the prefix is not one without it: `x` is no digit of its base
  have hx : ∀ {x : UInt8} {b : Nat} {l l' : List UInt8}, x = 88 ∨ x = 120 → b ≤ 16 →
      (∀ c ∈ l, isDigit b c) → 48 :: x :: l' ≠ l := by
    rintro x b l l' hx hb hl rfl
    have := hl x (by simp)
    rw [not_octal_x hb hx] at this
    contradiction
  obtain ⟨hbase, -, hd⟩ := h
  obtain ⟨hbase', -, hd'⟩ := h'
  cases hbase with
  | given ds hne =>
      cases hbase' with
      | given => rw [show ds = ds' from heq]
      | hex _ hb hx' => exact absurd heq.symm (hx hx' (by omega) hd)
      | octal => exact absurd rfl hne
      | decimal => exact absurd rfl hne
  | hex ds hb hx₀ =>
      cases hbase' with
      | given => exact absurd heq (hx hx₀ (by omega) hd')
      | hex _ _ _ => exact congrArg (value 16) (List.cons.inj (List.cons.inj heq).2).2
      | octal => exact absurd heq (hx hx₀ (by decide) hd')
      | decimal _ hc => exact absurd (List.cons.inj heq).1.symm hc
  | octal ds =>
      cases hbase' with
      | given _ hne => exact absurd rfl hne
      | hex _ _ hx' => exact absurd heq.symm (hx hx' (by decide) hd)
      | octal => exact congrArg (value 8) heq
      | decimal _ hc => exact absurd (List.cons.inj heq).1.symm hc
  | decimal ds hc =>
      cases hbase' with
      | given _ hne => exact absurd rfl hne
      | hex => exact absurd (List.cons.inj heq).1 hc
      | octal => exact absurd (List.cons.inj heq).1 hc
      | decimal => exact congrArg (value 10) heq

theorem Longest.unique {base : Nat} {s l rest l' rest' : List UInt8} {neg neg' : Bool}
    {mag mag' : Nat} (h : Longest base s l rest neg mag) (h' : Longest base s l' rest' neg' mag') :
    neg = neg' ∧ mag = mag' := by
  have hlen : l.length = l'.length :=
    Nat.le_antisymm (h'.longest _ _ _ _ h.split h.numeral) (h.longest _ _ _ _ h'.split h'.numeral)
  obtain ⟨rfl, rfl⟩ := List.append_inj (h.split.symm.trans h'.split) hlen
  obtain ⟨pre, ds, b, hbody, hafter, rfl, rfl, -⟩ := h.numeral.body h.split
  obtain ⟨pre', ds', b', hbody', hafter', rfl, rfl, -⟩ := h'.numeral.body h.split
  refine ⟨rfl, hbody.value_eq hbody' ?_⟩
  rw [hafter, ← List.append_assoc, ← List.append_assoc] at hafter'
  exact List.append_cancel_right hafter'

/-- The numeral that `strtoll` cannot negate: the least number of 64 bits. -/
def Least (s : List UInt8) (base : Nat) : Prop :=
  ∃ l rest, Longest base s l rest true (2 ^ 63)

theorem strtoll_follows (s : List UInt8) {base : Nat} (hb : base ≤ 36) :
    (∃ r, strtoll s base = some r ∧ Follows fitSigned base s r) ↔ ¬ Least s base := by
  have hparse := parse_spec s hb
  unfold strtoll
  generalize parse_u s base = r at hparse
  obtain ⟨v, endp, neg, ovf⟩ := r
  dsimp only at hparse ⊢
  rcases hparse with ⟨l, mag, hlong, htracks⟩ | ⟨hnone, rfl, rfl, rfl⟩
  · have hleast : Least s base ↔ neg = true ∧ mag = 2 ^ 63 := by
      constructor
      · rintro ⟨l', rest', hl'⟩
        exact hlong.unique hl'
      · rintro ⟨rfl, rfl⟩
        exact ⟨l, _, hlong⟩
    by_cases hbig : (ovf || decide (v > if neg then 2 ^ 63 else 2 ^ 63 - 1)) = true
    · have hmag : (if neg then 2 ^ 63 else 2 ^ 63 - 1) < mag := by
        cases ovf with
        | true =>
            have hge : 2 ^ 64 ≤ mag := htracks
            split <;> omega
        | false =>
            obtain ⟨rfl, -⟩ : v = mag ∧ mag < 2 ^ 64 := htracks
            simpa using hbig
      rw [if_pos hbig]
      refine iff_of_true ⟨_, rfl, .inl ⟨l, neg, mag, hlong, ?_⟩⟩ ?_
      · cases neg with
        | true => simp [toI64, fitSigned] at hmag ⊢; omega
        | false => simp [fitSigned] at hmag ⊢; omega
      · rw [hleast]
        rintro ⟨rfl, rfl⟩
        exact absurd hmag (by simp)
    · rw [if_neg hbig, hleast]
      obtain ⟨rfl, hle⟩ : ovf = false ∧ v ≤ if neg then 2 ^ 63 else 2 ^ 63 - 1 := by
        simpa [not_or] using hbig
      obtain ⟨rfl, -⟩ : v = mag ∧ mag < 2 ^ 64 := htracks
      cases neg with
      | false =>
          have hlt : v < 2 ^ 63 := Nat.lt_of_le_pred (by decide) hle
          refine iff_of_true ⟨_, rfl, .inl ⟨l, false, v, hlong, ?_⟩⟩ (by simp)
          simp [toI64, fitSigned]
          omega
      | true =>
          have hle : v ≤ 2 ^ 63 := hle
          by_cases hv : v = 2 ^ 63
          · -- the value is the least number, and its negation overflows
            subst hv
            refine iff_of_false ?_ (by simp)
            rintro ⟨r, hr, -⟩
            exact absurd hr (by simp [toI64, negI64])
          · have hlt : v < 2 ^ 63 := Nat.lt_of_le_of_ne hle hv
            have hneg : negI64 (toI64 v) = some (-(v : Int)) := by
              rw [toI64, if_pos hlt, negI64, if_neg (by omega)]
            refine iff_of_true ⟨⟨-(v : Int), endp, false⟩, by simp [hneg], ?_⟩ fun h => hv h.2
            refine .inl ⟨l, true, v, hlong, ?_⟩
            simp only [fitSigned, if_true]
            omega
  · refine iff_of_true ?_ ?_
    · have hzero : negI64 0 = some 0 := by decide
      refine ⟨⟨0, endp, false⟩, ?_, .inr ⟨hnone, rfl, rfl⟩⟩
      cases neg <;> simp [hzero, toI64]
    · rintro ⟨l, rest, hl⟩
      exact hnone _ _ _ _ hl.split hl.numeral

/-- **Numbers from text**: both conversions follow the rule without overflow exactly for the
strings whose numeral is not the least number of 64 bits, which `strtoll` negates. -/
theorem strto_iff (s : List UInt8) {base : Nat} (hb : base = 0 ∨ 2 ≤ base ∧ base ≤ 36) :
    (Follows fitUnsigned base s (strtoull s base) ∧
      ∃ r, strtoll s base = some r ∧ Follows fitSigned base s r) ↔ ¬ Least s base := by
  have hb' : base ≤ 36 := by omega
  rw [and_iff_right (strtoull_follows s hb')]
  exact strtoll_follows s hb'

theorem strto_iff_ten : (Follows fitUnsigned 10 [45, 49] (strtoull [45, 49] 10) ∧
    ∃ r, strtoll [45, 49] 10 = some r ∧ Follows fitSigned 10 [45, 49] r) ↔ ¬ Least [45, 49] 10 :=
  strto_iff [45, 49] (.inr ⟨by decide, by decide⟩)

/-- `"-9223372036854775808"`: the negation overflows, and there is no number. -/
theorem strtoll_least : ¬ ∃ r,
    strtoll [45, 57, 50, 50, 51, 51, 55, 50, 48, 51, 54, 56, 53, 52, 55, 55, 53, 56, 48, 56] 10 =
      some r := by
  rw [show strtoll [45, 57, 50, 50, 51, 51, 55, 50, 48, 51, 54, 56, 53, 52, 55, 55, 53, 56, 48, 56]
    10 = none by decide +kernel]
  simp

end Pulsar.Libc

import Mathlib.Algebra.BigOperators.Intervals
import Mathlib.Algebra.Ring.Nat
import Mathlib.Tactic.IntervalCases

/-!
# Civil time

A number of seconds since 1970 becomes a date and a time of day, in C (`string.c`) and in Rust
(`plib`).  Both count days from the first of March of the year 0, in eras of 400 years.

* `civil_time_iff`: the two agree, and what they give is the date and the time of the second asked
  for as long as its year is less than `2 ^ 32`.
-/

namespace Pulsar.Libc

/-! ### The calendar -/

def leap (y : Nat) : Bool := y % 4 == 0 && (y % 100 != 0 || y % 400 == 0)

def yearDays (y : Nat) : Nat := if leap y then 366 else 365

def monthDays (y m : Nat) : Nat :=
  if m = 2 then if leap y then 29 else 28
  else if m = 4 ∨ m = 6 ∨ m = 9 ∨ m = 11 then 30 else 31

/-- The days from the first of January 1970 to a date. -/
def dayCount (y m d : Nat) : Nat :=
  ∑ i ∈ Finset.Ico 1970 y, yearDays i + ∑ i ∈ Finset.Ico 1 m, monthDays y i + (d - 1)

/-- What `civil_time` gives. -/
structure Civil where
  y : UInt32
  mo : UInt32
  d : UInt32
  h : UInt32
  mi : UInt32
  s : UInt32
  wd : UInt32
deriving DecidableEq

namespace Civil

/-- A date of the Gregorian calendar from 1970 on, with a time of day. -/
structure Valid (c : Civil) : Prop where
  year : 1970 ≤ c.y.toNat
  month : 1 ≤ c.mo.toNat ∧ c.mo.toNat ≤ 12
  day : 1 ≤ c.d.toNat ∧ c.d.toNat ≤ monthDays c.y.toNat c.mo.toNat
  hour : c.h.toNat < 24
  minute : c.mi.toNat < 60
  second : c.s.toNat < 60

def days (c : Civil) : Nat := dayCount c.y.toNat c.mo.toNat c.d.toNat

def seconds (c : Civil) : Nat :=
  c.days * 86400 + c.h.toNat * 3600 + c.mi.toNat * 60 + c.s.toNat

/-- `c` is the date, the time and the day of the week of second `secs`.  The first of January 1970
was a Thursday, day 4. -/
structure Of (c : Civil) (secs : UInt64) : Prop where
  valid : c.Valid
  seconds : c.seconds = secs.toNat
  weekday : c.wd.toNat = (c.days + 4) % 7

end Civil

/-! ### The two functions -/

/-- A cast to 32 bits. -/
def u32 (x : Int) : UInt32 := UInt32.ofNat (x % 2 ^ 32).toNat

/-- `civil_time` of `string.c`; its `/` and `%` go towards zero. -/
def civil_time (secs : UInt64) : Civil :=
  let days : Int := (secs.toNat / 86400 : Nat)
  let rem := secs.toNat % 86400
  let wd := u32 ((days + 4).tmod 7)
  let z := days + 719468
  let era := (if z ≥ 0 then z else z - 146096).tdiv 146097
  let doe := z - era * 146097
  let yoe := (doe - doe.tdiv 1460 + doe.tdiv 36524 - doe.tdiv 146096).tdiv 365
  let yy := yoe + era * 400
  let doy := doe - (365 * yoe + yoe.tdiv 4 - yoe.tdiv 100)
  let mp := (5 * doy + 2).tdiv 153
  let d := u32 (doy - (153 * mp + 2).tdiv 5 + 1)
  let mo := u32 (if mp < 10 then mp + 3 else mp - 9)
  let y := u32 (if mo.toNat ≤ 2 then yy + 1 else yy)
  ⟨y, mo, d, u32 (rem / 3600 : Nat), u32 (rem / 60 % 60 : Nat), u32 (rem % 60 : Nat), wd⟩

/-- `civil_time` of `plib`; `div_euclid` goes down. -/
def plib.civil_time (secs : UInt64) : Civil :=
  let days : Int := (secs.toNat / 86400 : Nat)
  let rem := secs.toNat % 86400
  let wday := u32 ((days + 4).tmod 7)
  let z := days + 719468
  let era := z / 146097
  let doe := z - era * 146097
  let yoe := (doe - doe.tdiv 1460 + doe.tdiv 36524 - doe.tdiv 146096).tdiv 365
  let y := yoe + era * 400
  let doy := doe - (365 * yoe + yoe.tdiv 4 - yoe.tdiv 100)
  let mp := (5 * doy + 2).tdiv 153
  let d := doy - (153 * mp + 2).tdiv 5 + 1
  let m := if mp < 10 then mp + 3 else mp - 9
  let y := if m ≤ 2 then y + 1 else y
  ⟨u32 y, u32 m, u32 d, u32 (rem / 3600 : Nat), u32 (rem / 60 % 60 : Nat), u32 (rem % 60 : Nat),
    wday⟩

/-! ### Sums of the calendar -/

/-- The days from the first of January of the year 0 to that of `y`. -/
def yearStart (y : Nat) : Nat := 365 * y + (y + 3) / 4 - (y + 99) / 100 + (y + 399) / 400

theorem yearStart_succ (y : Nat) : yearStart (y + 1) = yearStart y + yearDays y := by
  have h4 : (y + 1 + 3) / 4 = (y + 3) / 4 + if y % 4 = 0 then 1 else 0 := by split <;> omega
  have h100 : (y + 1 + 99) / 100 = (y + 99) / 100 + if y % 100 = 0 then 1 else 0 := by
    split <;> omega
  have h400 : (y + 1 + 399) / 400 = (y + 399) / 400 + if y % 400 = 0 then 1 else 0 := by
    split <;> omega
  have hle : (y + 99) / 100 ≤ (y + 3) / 4 := by omega
  have hd : yearDays y + (if y % 100 = 0 then 1 else 0) =
      365 + (if y % 4 = 0 then 1 else 0) + if y % 400 = 0 then 1 else 0 := by
    simp only [yearDays, leap, Bool.and_eq_true, Bool.or_eq_true, beq_iff_eq, bne_iff_ne]
    split_ifs <;> omega
  simp only [yearStart, h4, h100, h400]
  omega

theorem years_eq {y : Nat} (h : 1970 ≤ y) :
    ∑ i ∈ Finset.Ico 1970 y, yearDays i + 719528 = yearStart y := by
  induction y, h using Nat.le_induction with
  | base => simp [yearStart]
  | succ y h ih => rw [Finset.sum_Ico_succ_top h, yearStart_succ, ← ih]; omega

theorem months_zero (y : Nat) : ∑ i ∈ Finset.Ico 1 1, monthDays y i = 0 := by simp

theorem months_succ (y : Nat) {m : Nat} (h : 1 ≤ m) :
    ∑ i ∈ Finset.Ico 1 (m + 1), monthDays y i =
      ∑ i ∈ Finset.Ico 1 m, monthDays y i + monthDays y m :=
  Finset.sum_Ico_succ_top h _

theorem monthDays_feb (y : Nat) : monthDays y 2 + 337 = yearDays y := by
  unfold monthDays yearDays
  cases leap y <;> rfl

theorem monthDays_march (y : Nat) {mp : Nat} (h : mp < 10) :
    (153 * mp + 2) / 5 + monthDays y (mp + 3) = (153 * (mp + 1) + 2) / 5 := by
  interval_cases mp <;> rfl

/-- The days before the month `mp` months after March. -/
theorem months_eq (y : Nat) {mp : Nat} (h : mp < 10) :
    ∑ i ∈ Finset.Ico 1 (mp + 3), monthDays y i + 306 = yearDays y + (153 * mp + 2) / 5 := by
  induction mp with
  | zero =>
      have h1 : monthDays y 1 = 31 := rfl
      have h2 := monthDays_feb y
      rw [months_succ y (by decide), months_succ y (by decide), months_zero]
      omega
  | succ mp ih =>
      have hm := monthDays_march y (show mp < 10 by omega)
      have hs := ih (by omega)
      rw [show mp + 1 + 3 = mp + 3 + 1 from rfl, months_succ y (by omega)]
      omega

/-! ### Years from March -/

theorem doe_split {doe : Nat} (h : doe < 146097) :
    ∃ c k j doy, doe = 36524 * c + 1461 * k + 365 * j + doy ∧ c ≤ 3 ∧ k ≤ 24 ∧ j ≤ 3 ∧ doy ≤ 365 ∧
      (doy = 365 → j = 3 ∧ (k = 24 → c = 3)) := by
  obtain ⟨c, r, hc, h3, hr⟩ : ∃ c r, doe = 36524 * c + r ∧ c ≤ 3 ∧
      (r < 36524 ∨ r = 36524 ∧ c = 3) :=
    ⟨min (doe / 36524) 3, doe - 36524 * min (doe / 36524) 3, by omega, by omega, by omega⟩
  obtain ⟨k, r', hk, hr'⟩ : ∃ k r', r = 1461 * k + r' ∧ r' < 1461 :=
    ⟨r / 1461, r % 1461, by omega, by omega⟩
  obtain ⟨j, doy, hj, hd⟩ : ∃ j doy, r' = 365 * j + doy ∧ j ≤ 3 ∧
      (doy < 365 ∨ doy = 365 ∧ j = 3) :=
    ⟨min (r' / 365) 3, r' - 365 * min (r' / 365) 3, by omega, by omega, by omega⟩
  exact ⟨c, k, j, doy, by omega, h3, by omega, hd.1, by omega, by omega⟩

/-- A day counted from the first of March of the year 0, as the two functions take it apart. -/
structure March (z era doe yoe doy mp : Nat) : Prop where
  split : z = 146097 * era + doe
  inside : doe < 146097
  year : (doe - doe / 1460 + doe / 36524 - doe / 146096) / 365 = yoe
  year_le : yoe ≤ 399
  day : doe = 365 * yoe + yoe / 4 - yoe / 100 + doy
  day_le : doy ≤ 365
  long : doy = 365 → yoe % 4 = 3 ∧ (yoe % 100 = 99 → yoe = 399)
  month : (5 * doy + 2) / 153 = mp

theorem march (z : Nat) : ∃ era doe yoe doy mp, March z era doe yoe doy mp := by
  have hlt : z % 146097 < 146097 := Nat.mod_lt z (by decide)
  obtain ⟨c, k, j, doy, hdoe, hc, hk, hj, hd, hl⟩ := doe_split hlt
  have h4 : (100 * c + 4 * k + j) / 4 = 25 * c + k := by omega
  have h100 : (100 * c + 4 * k + j) / 100 = c := by omega
  refine ⟨z / 146097, z % 146097, 100 * c + 4 * k + j, doy, _, by omega, by omega, ?_, by omega,
    by omega, hd, by omega, rfl⟩
  -- the correction of a day in 1460 comes when the year has begun, and a year is not over then
  generalize z % 146097 = doe at *
  have hc' : doe / 36524 = c + doe / 146096 := by
    rcases Nat.lt_or_ge doe 146096 with hlast | hlast
    · have h0 : doe / 146096 = 0 := Nat.div_eq_of_lt hlast
      have h1 : doe / 36524 = c := by omega
      omega
    · obtain rfl : doe = 146096 := by omega
      omega
  have hk' : doe / 1460 = 25 * c + k + (24 * c + k + 365 * j + doy) / 1460 := by omega
  have hlate : (24 * c + k + 365 * j + doy) / 1460 = 0 ∨
      (24 * c + k + 365 * j + doy) / 1460 = 1 ∧ j = 3 ∧ 200 ≤ doy := by omega
  omega

theorem u32_natCast (n : Nat) : u32 n = UInt32.ofNat n := by
  apply UInt32.toNat_inj.mp
  simp only [u32, UInt32.toNat_ofNat']
  omega

/-- The time of `secs`, on day `doy` of the year from March `yy`, in month `mp` of it. -/
def ofMarch (secs : UInt64) (yy doy mp : Nat) : Civil where
  y := UInt32.ofNat (if mp < 10 then yy else yy + 1)
  mo := UInt32.ofNat (if mp < 10 then mp + 3 else mp - 9)
  d := UInt32.ofNat (doy - (153 * mp + 2) / 5 + 1)
  h := UInt32.ofNat (secs.toNat % 86400 / 3600)
  mi := UInt32.ofNat (secs.toNat % 86400 / 60 % 60)
  s := UInt32.ofNat (secs.toNat % 86400 % 60)
  wd := UInt32.ofNat ((secs.toNat / 86400 + 4) % 7)

namespace March

variable {z era doe yoe doy mp : Nat} {secs : UInt64}

theorem month_lt (h : March z era doe yoe doy mp) : mp < 12 ∧ (153 * mp + 2) / 5 ≤ doy := by
  have := h.month
  have := h.day_le
  omega

theorem ints (h : March z era doe yoe doy mp) :
    (z : Int) / 146097 = era ∧ (z : Int) - era * 146097 = doe ∧
    ((doe : Int) - (doe : Int).tdiv 1460 + (doe : Int).tdiv 36524 -
      (doe : Int).tdiv 146096).tdiv 365 = yoe ∧
    (doe : Int) - (365 * yoe + (yoe : Int).tdiv 4 - (yoe : Int).tdiv 100) = doy ∧
    (5 * (doy : Int) + 2).tdiv 153 = mp ∧
    (doy : Int) - (153 * (mp : Int) + 2).tdiv 5 + 1 =
      ((doy - (153 * mp + 2) / 5 + 1 : Nat) : Int) := by
  have hm := h.month_lt
  obtain ⟨hz, hdoe, hyear, hle, hday, -, -, hmonth⟩ := h
  have hback : doe / 1460 ≤ doe := Nat.div_le_self _ _
  simp only [Int.natCast_tdiv_eq_ediv]
  refine ⟨by omega, by omega, ?_, by omega, ?_, ?_⟩
  · rw [Int.tdiv_eq_ediv_of_nonneg (by omega), ← hyear]
    omega
  · rw [Int.tdiv_eq_ediv_of_nonneg (by omega)]
    omega
  · rw [Int.tdiv_eq_ediv_of_nonneg (by omega)]
    omega

/-- The day, the day of the week, the month and the year, as they are counted with `Int`. -/
theorem casts {n : Nat} (h : March (n + 719468) era doe yoe doy mp) :
    (n : Int) + 719468 = (n + 719468 : Nat) ∧ ((n : Int) + 4).tmod 7 = ((n + 4) % 7 : Nat) ∧
    (if (mp : Int) < 10 then (mp : Int) + 3 else mp - 9) =
      ((if mp < 10 then mp + 3 else mp - 9 : Nat) : Int) ∧
    (if (if mp < 10 then mp + 3 else mp - 9) ≤ 2 then (yoe : Int) + era * 400 + 1
      else yoe + era * 400) =
      ((if mp < 10 then yoe + era * 400 else yoe + era * 400 + 1 : Nat) : Int) := by
  have hm := h.month_lt
  refine ⟨rfl, rfl, ?_, ?_⟩
  · split_ifs <;> omega
  · split_ifs <;> omega

theorem plib_eq (h : March (secs.toNat / 86400 + 719468) era doe yoe doy mp) :
    plib.civil_time secs = ofMarch secs (yoe + era * 400) doy mp := by
  have hm := h.month_lt
  obtain ⟨hera, hdoe, hyoe, hdoy, hmp, hd⟩ := h.ints
  obtain ⟨hz, hw, hmo, hy⟩ := h.casts
  have hle : ((if mp < 10 then mp + 3 else mp - 9 : Nat) : Int) ≤ 2 ↔
      (if mp < 10 then mp + 3 else mp - 9) ≤ 2 := by omega
  simp only [plib.civil_time, hz, hera, hdoe, hyoe, hdoy, hmp, hd, hw, hmo, hle, hy, u32_natCast,
    ofMarch]

theorem c_eq (h : March (secs.toNat / 86400 + 719468) era doe yoe doy mp) :
    civil_time secs = ofMarch secs (yoe + era * 400) doy mp := by
  have hm := h.month_lt
  obtain ⟨hera, hdoe, hyoe, hdoy, hmp, hd⟩ := h.ints
  obtain ⟨hz, hw, hmo, hy⟩ := h.casts
  have hpos : ((secs.toNat / 86400 + 719468 : Nat) : Int) ≥ 0 := Int.natCast_nonneg _
  have hmo' : (UInt32.ofNat (if mp < 10 then mp + 3 else mp - 9)).toNat =
      if mp < 10 then mp + 3 else mp - 9 := by
    rw [UInt32.toNat_ofNat']
    split_ifs <;> omega
  simp only [civil_time, hz, if_pos hpos, Int.tdiv_eq_ediv_of_nonneg hpos, hera, hdoe, hyoe, hdoy,
    hmp, hd, hw, hmo, hmo', hy, u32_natCast, ofMarch]

theorem start (h : March z era doe yoe doy mp) :
    z + 366 = yearStart (yoe + era * 400 + 1) + doy := by
  obtain ⟨hz, -, -, hle, hday, -, -, -⟩ := h
  have h4 : (yoe + era * 400 + 1 + 3) / 4 = yoe / 4 + era * 100 + 1 := by omega
  have h100 : (yoe + era * 400 + 1 + 99) / 100 = yoe / 100 + era * 4 + 1 := by omega
  have h400 : (yoe + era * 400 + 1 + 399) / 400 = era + 1 := by omega
  simp only [yearStart, h4, h100, h400]
  omega

theorem long_leap (h : March z era doe yoe doy mp) (hd : doy = 365) :
    monthDays (yoe + era * 400 + 1) 2 = 29 := by
  obtain ⟨h4, h100⟩ := h.long hd
  have hleap : leap (yoe + era * 400 + 1) = true := by
    simp only [leap, Bool.and_eq_true, Bool.or_eq_true, beq_iff_eq, bne_iff_ne]
    omega
  simp [monthDays, hleap]

/-- The date: a day of its month, as many days after the first of January of the year 0 as `z`
says. -/
theorem date (h : March z era doe yoe doy mp) :
    ∃ y m, (if mp < 10 then yoe + era * 400 else yoe + era * 400 + 1) = y ∧
      (if mp < 10 then mp + 3 else mp - 9) = m ∧ 1 ≤ m ∧ m ≤ 12 ∧
      doy - (153 * mp + 2) / 5 + 1 ≤ monthDays y m ∧
      yearStart y + ∑ i ∈ Finset.Ico 1 m, monthDays y i + (doy - (153 * mp + 2) / 5) = z + 60 := by
  have hm := h.month_lt
  have hstart := h.start
  have hmonth := h.month
  rcases Nat.lt_or_ge mp 10 with hlt | hge
  · have hnext := yearStart_succ (yoe + era * 400)
    have hbefore := months_eq (yoe + era * 400) hlt
    have hthis := monthDays_march (yoe + era * 400) hlt
    refine ⟨_, _, if_pos hlt, if_pos hlt, by omega, by omega, by omega, by omega⟩
  · obtain rfl | rfl : mp = 10 ∨ mp = 11 := by omega
    · have h1 : monthDays (yoe + era * 400 + 1) 1 = 31 := rfl
      refine ⟨_, 1, if_neg (by decide), if_neg (by decide), by decide, by decide, by omega, ?_⟩
      rw [months_zero]
      omega
    · have h1 : monthDays (yoe + era * 400 + 1) 1 = 31 := rfl
      have h2 : doy - (153 * 11 + 2) / 5 + 1 ≤ monthDays (yoe + era * 400 + 1) 2 := by
        have hfeb := monthDays_feb (yoe + era * 400 + 1)
        have hday := h.day_le
        have hlong := h.long_leap
        have hyear : 365 ≤ yearDays (yoe + era * 400 + 1) := by unfold yearDays; split <;> omega
        omega
      refine ⟨_, _, if_neg (by decide), if_neg (by decide), by decide, by decide, h2, ?_⟩
      rw [months_succ _ (by decide), months_zero]
      omega

end March

/-! ### The result -/

theorem months_le (y : Nat) {m : Nat} (h1 : 1 ≤ m) (h12 : m ≤ 12) :
    ∑ i ∈ Finset.Ico 1 m, monthDays y i + monthDays y m ≤ yearDays y := by
  have hjan : monthDays y 1 = 31 := rfl
  have hfeb := monthDays_feb y
  obtain rfl | rfl | ⟨mp, rfl, hmp⟩ : m = 1 ∨ m = 2 ∨ ∃ mp, m = mp + 3 ∧ mp < 10 :=
    if h : m < 3 then by omega else .inr (.inr ⟨m - 3, by omega, by omega⟩)
  · rw [months_zero]; omega
  · rw [months_succ y (by decide), months_zero]; omega
  · have hbefore := months_eq y hmp
    have hthis := monthDays_march y hmp
    omega

/-- The first second of the year `2 ^ 32`. -/
def yearLimit : Nat := (yearStart (2 ^ 32) - 719528) * 86400

theorem yearStart_mono {y y' : Nat} (h : y ≤ y') : yearStart y ≤ yearStart y' := by
  induction y', h using Nat.le_induction with
  | base => exact Nat.le_refl _
  | succ y' _ ih => rw [yearStart_succ]; omega

theorem Civil.Valid.seconds_lt {c : Civil} (h : c.Valid) : c.seconds < yearLimit := by
  have hstart := years_eq h.year
  have hnext := yearStart_succ c.y.toNat
  have hmonths := months_le c.y.toNat h.month.1 h.month.2
  have hmono : yearStart (c.y.toNat + 1) ≤ yearStart (2 ^ 32) := yearStart_mono c.y.toNat_lt
  obtain ⟨-, -, hday, hhour, hminute, hsecond⟩ := h
  unfold Civil.seconds Civil.days dayCount yearLimit
  omega

theorem ofMarch_of {secs : UInt64} {era doe yoe doy mp : Nat} (hs : secs.toNat < yearLimit)
    (h : March (secs.toNat / 86400 + 719468) era doe yoe doy mp) :
    (ofMarch secs (yoe + era * 400) doy mp).Of secs := by
  obtain ⟨y, m, hy, hm, h1, h12, hd, hsum⟩ := h.date
  have hmonths := months_le y h1 h12
  have hnext := yearStart_succ y
  have hlt : y < 2 ^ 32 := by
    by_contra hge
    have := yearStart_mono (Nat.le_of_not_lt hge)
    unfold yearLimit at hs
    omega
  have hge : 1970 ≤ y := by
    by_contra hlt
    have : yearStart (y + 1) ≤ yearStart 1970 := yearStart_mono (by omega)
    have h1970 : yearStart 1970 = 719528 := rfl
    omega
  have hstart := years_eq hge
  have hday := h.day_le
  have heqy : (UInt32.ofNat y).toNat = y := UInt32.toNat_ofNat_of_lt' hlt
  have heqm : (UInt32.ofNat m).toNat = m := UInt32.toNat_ofNat_of_lt' (show m < 2 ^ 32 by omega)
  have heqd : (UInt32.ofNat (doy - (153 * mp + 2) / 5 + 1)).toNat = doy - (153 * mp + 2) / 5 + 1 :=
    UInt32.toNat_ofNat_of_lt' (show _ < 2 ^ 32 by omega)
  have hdays : (ofMarch secs (yoe + era * 400) doy mp).days = secs.toNat / 86400 := by
    simp only [Civil.days, ofMarch, hy, hm, heqy, heqm, heqd, dayCount]
    omega
  refine ⟨⟨?_, ?_, ?_, ?_, ?_, ?_⟩, ?_, ?_⟩
  · simpa only [ofMarch, hy, heqy] using hge
  · simpa only [ofMarch, hm, heqm] using ⟨h1, h12⟩
  · simp only [ofMarch, hy, hm, heqy, heqm, heqd]
    omega
  · simp only [ofMarch, UInt32.toNat_ofNat']
    omega
  · simp only [ofMarch, UInt32.toNat_ofNat']
    omega
  · simp only [ofMarch, UInt32.toNat_ofNat']
    omega
  · simp only [Civil.seconds, hdays]
    simp only [ofMarch, UInt32.toNat_ofNat']
    omega
  · rw [hdays]
    simp only [ofMarch, UInt32.toNat_ofNat']
    omega

/-- **Civil time**: the two functions give the same, and the second asked for is of the date and the
time of day they give exactly if its year is less than `2 ^ 32`. -/
theorem civil_time_iff (secs : UInt64) :
    civil_time secs = plib.civil_time secs ∧
      ((civil_time secs).Of secs ↔ secs.toNat < yearLimit) := by
  obtain ⟨era, doe, yoe, doy, mp, h⟩ := march (secs.toNat / 86400 + 719468)
  refine ⟨h.c_eq.trans h.plib_eq.symm, fun hof => ?_, fun hs => ?_⟩
  · rw [← hof.seconds]
    exact hof.valid.seconds_lt
  · rw [h.c_eq]
    exact ofMarch_of hs h

example : civil_time 951782400 = ⟨2000, 2, 29, 0, 0, 0, 2⟩ := by decide +kernel

/-- The last second that 64 bits count is of the year 584554051223, which 32 bits do not hold. -/
theorem civil_time_max : ¬ (civil_time 18446744073709551615).Of 18446744073709551615 := by
  intro h
  have hlt := h.valid.seconds_lt
  rw [h.seconds] at hlt
  have hsecs : UInt64.toNat 18446744073709551615 = 18446744073709551615 := rfl
  unfold yearLimit yearStart at hlt
  omega

end Pulsar.Libc

import Mathlib.Algebra.Ring.Nat
import Mathlib.Logic.Function.Basic
import Mathlib.Tactic.Common

/-!
# The interval timer (`set_alarm`, `wake_sleepers`, `setitimer` and `getitimer`)

The threads of a process set its timer, and read it; a timer interrupt posts the signal when its
clock is reached. A reading is two calls of `set_alarm`, which stops the timer and starts it again
with the time that was left, so that another CPU can come between them.

* `roundtrip`: ticks are nanoseconds and back, of a clock that is not faster than these.
* `Undisturbed.same`: the timer is as it was after a reading of a timer that runs, at one clock.
* **`reading_changes_nothing`**: in a run with such readings the signals are those of the run
  without them; `alarm_lost` is a reading of a timer that was due.
-/

namespace Pulsar.Proc

/-- What the leader of a process has of the timer: the clock of the next signal, 0 when there is
none, and the interval. -/
@[ext] structure Alarm where
  alarm_at : UInt64
  alarm_every : UInt64
  deriving DecidableEq

/-- `to_ticks(ns)`, at `f` ticks a second. -/
def toTicks (f ns : UInt64) : UInt64 := .ofNat ((ns.toNat * f.toNat + 999999999) / 1000000000)

/-- `to_ns(t)`. -/
def toNs (f t : UInt64) : UInt64 := .ofNat (t.toNat * 1000000000 / f.toNat)

namespace Alarm

/-- The nanoseconds that are left. -/
def left (f now : UInt64) (p : Alarm) : UInt64 :=
  if now < p.alarm_at then toNs f (p.alarm_at - now) else 0

/-- `set_alarm(value_ns, every_ns)`, with the time that was left and the interval. -/
def set (f now value_ns every_ns : UInt64) (p : Alarm) : Alarm × UInt64 × UInt64 :=
  (⟨if 0 < value_ns then now + max (toTicks f value_ns) 1 else 0, toTicks f every_ns⟩,
    p.left f now, toNs f p.alarm_every)

/-- The test of `wake_sleepers`, where `alive` says that the leader is in use and no zombie. -/
def due (now : UInt64) (alive : Bool) (p : Alarm) : Bool :=
  p.alarm_at ≠ 0 ∧ p.alarm_at ≤ now ∧ alive

/-- `wake_sleepers(now)`, of one process. -/
def wake (now : UInt64) (alive : Bool) (p : Alarm) : Alarm :=
  if p.due now alive then
    { p with alarm_at := if p.alarm_every ≠ 0 then now + p.alarm_every else 0 }
  else p

end Alarm

/-- The times that `setitimer` reads. -/
structure Itimer where
  interval_sec : Int64
  interval_usec : Int64
  value_sec : Int64
  value_usec : Int64

/-- `ns(s, us)`. -/
def ns (s us : Int64) : UInt64 :=
  (max s 0).toUInt64 * 1000000000 + (max us 0).toUInt64 * 1000

/-- `tv(ns)`: seconds and microseconds. -/
def tv (ns : UInt64) : UInt64 × UInt64 := (ns / 1000000000, ns / 1000 % 1000000)

/-- What the threads and the interrupts do. -/
inductive TimerEvent where
  /-- `setitimer`: what is read, if there is a pointer, and whether the old times are asked for. -/
  | setitimer (now : UInt64) (new : Option Itimer) (old : Bool)
  /-- `set_alarm(0, 0)` of a `getitimer`. -/
  | stop (thread : Nat) (now : UInt64)
  /-- `set_alarm(o.0, o.1)` of the same. -/
  | resume (thread : Nat) (now : UInt64)
  /-- `wake_sleepers(now)`. -/
  | tick (now : UInt64) (alive : Bool)

/-- The timer, and what each thread has taken from it. -/
structure TimerState where
  alarm : Alarm
  taken : Nat → UInt64 × UInt64

namespace TimerState

variable (f : UInt64)

def step (s : TimerState) : TimerEvent → TimerState
  | .setitimer now new _ =>
      let (value, every) := new.elim (0, 0) fun v =>
        (ns v.value_sec v.value_usec, ns v.interval_sec v.interval_usec)
      { s with alarm := (s.alarm.set f now value every).1 }
  | .stop t now =>
      let (p, o) := s.alarm.set f now 0 0
      ⟨p, Function.update s.taken t o⟩
  | .resume t now => { s with alarm := (s.alarm.set f now (s.taken t).1 (s.taken t).2).1 }
  | .tick now alive => { s with alarm := s.alarm.wake now alive }

/-- The time that is left, where an event tells it. -/
def told (s : TimerState) : TimerEvent → Option UInt64
  | .setitimer now _ true => some (s.alarm.left f now)
  | .stop _ now => some (s.alarm.left f now)
  | _ => none

def run (s : TimerState) (es : List TimerEvent) : TimerState := es.foldl (step f) s

/-- The clock of each tick, and whether it posts a signal. -/
def signals (s : TimerState) : List TimerEvent → List (UInt64 × Bool)
  | [] => []
  | .tick now alive :: es => (now, s.alarm.due now alive) :: signals (s.step f (.tick now alive)) es
  | e :: es => signals (s.step f e) es

end TimerState

/-- An event that is no part of a reading. -/
def TimerEvent.kept : TimerEvent → Bool
  | .stop .. | .resume .. => false
  | _ => true

/-! ### Times and back -/

/-- A number of ticks that is the same after the way to nanoseconds and back. -/
def Exact (f d : UInt64) : Prop := toTicks f (toNs f d) = d

/-- **Ticks are nanoseconds and back**, of a clock that is not faster than these. -/
theorem roundtrip {f d : UInt64} (hpos : 0 < f.toNat) (hf : f.toNat ≤ 1000000000)
    (hfits : d.toNat * 1000000000 / f.toNat < 2 ^ 64) : Exact f d := by
  have hdiv := Nat.div_add_mod' (d.toNat * 1000000000) f.toNat
  have hmod := Nat.mod_lt (d.toNat * 1000000000) hpos
  have hback : (d.toNat * 1000000000 / f.toNat * f.toNat + 999999999) / 1000000000 = d.toNat := by
    omega
  rw [Exact, toTicks, toNs, UInt64.toNat_ofNat_of_lt' hfits, hback, UInt64.ofNat_toNat]

theorem tv_ne_zero {ns : UInt64} (h : 1000 ≤ ns.toNat) : tv ns ≠ (0, 0) := by
  intro hzero
  have hsec := congrArg (fun p => p.1.toNat) hzero
  have husec := congrArg (fun p => p.2.toNat) hzero
  simp only [tv, UInt64.toNat_div, UInt64.toNat_mod] at hsec husec
  change ns.toNat / 1000000000 = 0 at hsec
  change ns.toNat / 1000 % 1000000 = 0 at husec
  omega

/-! ### Readings -/

namespace Alarm

/-- The same signals will come. -/
def Same (p q : Alarm) : Prop :=
  p.alarm_at = q.alarm_at ∧ (p.alarm_at ≠ 0 → p.alarm_every = q.alarm_every)

/-- There is no timer, or it runs and has a microsecond to go. -/
def Shown (f now : UInt64) (p : Alarm) : Prop :=
  p.alarm_at = 0 ∨ now < p.alarm_at ∧ 1000 ≤ (toNs f (p.alarm_at - now)).toNat

/-- There is no timer, or its times are the same after the way to nanoseconds and back, and the
clock is the same when it is started again. -/
def Kept (f now later : UInt64) (p : Alarm) : Prop :=
  p.alarm_at = 0 ∨ later = now ∧ Exact f (p.alarm_at - now) ∧ Exact f p.alarm_every

section

variable {f now later : UInt64} {p q r : Alarm} {alive : Bool}

theorem Same.trans (h : p.Same q) (h' : q.Same r) : p.Same r :=
  ⟨h.1.trans h'.1, fun hp => (h.2 hp).trans (h'.2 (h.1 ▸ hp))⟩

theorem Shown.ne_zero (h : p.Shown f now) (hp : p.alarm_at ≠ 0) : tv (p.left f now) ≠ (0, 0) := by
  obtain ⟨hlt, hle⟩ := h.resolve_left hp
  rw [left, if_pos hlt]
  exact tv_ne_zero hle

/-- **A reading** starts the timer again as it was. -/
theorem set_set (hs : p.Shown f now) (hk : p.Kept f now later) :
    ((p.set f now 0 0).1.set f later (p.left f now) (toNs f p.alarm_every)).1.Same p := by
  by_cases h0 : p.alarm_at = 0
  · have hleft : p.left f now = 0 := by
      rw [left, h0]
      exact if_neg UInt64.not_lt_zero
    refine ⟨?_, fun hne => absurd ?_ hne⟩ <;> rw [set, hleft]
    · exact h0.symm
    · rfl
  obtain ⟨hlt, hle⟩ := hs.resolve_left h0
  obtain ⟨rfl, hat, hevery⟩ := hk.resolve_left h0
  have hleft : p.left f later = toNs f (p.alarm_at - later) := if_pos hlt
  have hpos : 0 < toNs f (p.alarm_at - later) := by
    rw [UInt64.lt_iff_toNat_lt]
    exact Nat.lt_of_lt_of_le (by decide) hle
  have hone : 1 ≤ p.alarm_at - later := by
    rw [UInt64.le_iff_toNat_le, UInt64.toNat_sub_of_le _ _ (UInt64.le_of_lt hlt)]
    exact Nat.sub_pos_of_lt hlt
  have hmax : max (p.alarm_at - later) 1 = p.alarm_at - later := by
    change (if p.alarm_at - later ≤ 1 then 1 else p.alarm_at - later) = _
    split_ifs with h
    · exact UInt64.le_antisymm hone h
    · rfl
  refine ⟨?_, fun _ => hevery⟩
  change (if 0 < p.left f later then later + max (toTicks f (p.left f later)) 1 else 0) = p.alarm_at
  rw [hleft, if_pos hpos, hat, hmax, UInt64.add_comm, UInt64.sub_add_cancel]

theorem Same.due (h : p.Same q) (now : UInt64) (alive : Bool) :
    p.due now alive = q.due now alive := by
  rw [Alarm.due, Alarm.due, h.1]

theorem Same.wake (h : p.Same q) (now : UInt64) (alive : Bool) :
    (p.wake now alive).Same (q.wake now alive) := by
  rw [Alarm.wake, Alarm.wake, ← h.due now alive]
  by_cases hdue : p.due now alive = true
  · have hne : p.alarm_at ≠ 0 := (of_decide_eq_true hdue).1
    rw [if_pos hdue, if_pos hdue, h.2 hne]
    exact ⟨rfl, fun _ => rfl⟩
  · rw [if_neg hdue, if_neg hdue]
    exact h

end

end Alarm

/-! ### Runs -/

namespace TimerState

/-- A run in which each reading is of a timer with a microsecond to go, ends before another event,
and keeps the times; and where `setitimer` tells the old times, there is a microsecond to go too. -/
inductive Undisturbed (f : UInt64) : TimerState → List TimerEvent → Prop where
  | nil (s : TimerState) : Undisturbed f s []
  | setitimer {s : TimerState} {now : UInt64} {new : Option Itimer} {old : Bool}
      {es : List TimerEvent} (hs : old = true → s.alarm.Shown f now)
      (h : Undisturbed f (s.step f (.setitimer now new old)) es) :
      Undisturbed f s (.setitimer now new old :: es)
  | tick {s : TimerState} {now : UInt64} {alive : Bool} {es : List TimerEvent}
      (h : Undisturbed f (s.step f (.tick now alive)) es) : Undisturbed f s (.tick now alive :: es)
  | getitimer {s : TimerState} {t : Nat} {now later : UInt64} {es : List TimerEvent}
      (hs : s.alarm.Shown f now) (hk : s.alarm.Kept f now later)
      (h : Undisturbed f ((s.step f (.stop t now)).step f (.resume t later)) es) :
      Undisturbed f s (.stop t now :: .resume t later :: es)

section

variable {f : UInt64} {s u : TimerState} {es : List TimerEvent}

theorem reading_same {t : Nat} {now later : UInt64} (hs : s.alarm.Shown f now)
    (hk : s.alarm.Kept f now later) :
    ((s.step f (.stop t now)).step f (.resume t later)).alarm.Same s.alarm := by
  have htaken : (s.step f (.stop t now)).taken t =
      (s.alarm.left f now, toNs f s.alarm.alarm_every) := Function.update_self ..
  change ((s.step f (.stop t now)).alarm.set f later ((s.step f (.stop t now)).taken t).1
    ((s.step f (.stop t now)).taken t).2).1.Same s.alarm
  rw [htaken]
  exact Alarm.set_set hs hk

/-- **The signals** are those of a run in the same state without the readings. -/
theorem signals_filter (h : Undisturbed f s es) (hu : s.alarm.Same u.alarm) :
    signals f s es = signals f u (es.filter (·.kept)) := by
  induction h generalizing u with
  | nil s => rfl
  | setitimer hs h ih => exact ih ⟨rfl, fun _ => rfl⟩
  | @tick s now alive es h ih =>
      exact congrArg₂ List.cons (congrArg (Prod.mk now) (hu.due now alive)) (ih (hu.wake now alive))
  | getitimer hs hk h ih => exact ih ((reading_same hs hk).trans hu)

/-- **What is told** is not zero while the timer is armed. -/
theorem told_ne_zero (h : Undisturbed f s es) {pre post : List TimerEvent} {e : TimerEvent}
    (he : es = pre ++ e :: post) {rem : UInt64} (hrem : (s.run f pre).told f e = some rem)
    (harmed : (s.run f pre).alarm.alarm_at ≠ 0) : tv rem ≠ (0, 0) := by
  induction h generalizing pre with
  | nil s => exact absurd he.symm (List.append_ne_nil_of_right_ne_nil pre (List.cons_ne_nil e post))
  | @setitimer s now new old es hs h ih =>
      cases pre with
      | nil =>
          obtain ⟨rfl, rfl⟩ := List.cons.inj he
          cases old with
          | false => exact absurd hrem (Option.some_ne_none rem).symm
          | true => exact Option.some.inj hrem ▸ (hs rfl).ne_zero harmed
      | cons x pre =>
          obtain ⟨rfl, htail⟩ := List.cons.inj he
          exact ih htail hrem harmed
  | tick h ih =>
      cases pre with
      | nil =>
          obtain ⟨rfl, rfl⟩ := List.cons.inj he
          exact absurd hrem (Option.some_ne_none rem).symm
      | cons x pre =>
          obtain ⟨rfl, htail⟩ := List.cons.inj he
          exact ih htail hrem harmed
  | getitimer hs hk h ih =>
      match pre with
      | [] =>
          obtain ⟨rfl, rfl⟩ := List.cons.inj he
          exact Option.some.inj hrem ▸ hs.ne_zero harmed
      | [x] =>
          obtain ⟨rfl, htail⟩ := List.cons.inj he
          obtain ⟨rfl, rfl⟩ := List.cons.inj htail
          exact absurd hrem (Option.some_ne_none rem).symm
      | x :: y :: pre =>
          obtain ⟨rfl, hnext⟩ := List.cons.inj he
          obtain ⟨rfl, htail⟩ := List.cons.inj hnext
          exact ih htail hrem harmed

/-- **Reading the timer changes nothing**, in a run in which no reading is of a timer that is due or
loses time: the signals are those of the run without the readings, at the same ticks, and what is
told of an armed timer is not zero. -/
theorem reading_changes_nothing (h : Undisturbed f s es) :
    signals f s es = signals f s (es.filter (·.kept)) ∧
      ∀ pre e post, es = pre ++ e :: post → ∀ rem, (s.run f pre).told f e = some rem →
        (s.run f pre).alarm.alarm_at ≠ 0 → tv rem ≠ (0, 0) :=
  ⟨signals_filter h ⟨rfl, fun _ => rfl⟩, fun _ _ _ he _ hrem harmed =>
    told_ne_zero h he hrem harmed⟩

end

/-- A process that has set no timer. -/
def fresh : TimerState := ⟨⟨0, 0⟩, fun _ => (0, 0)⟩

/-- Every second, from half a second on. -/
def halfSecond : Itimer := ⟨1, 0, 0, 500000⟩

theorem reading_changes_nothing_before :
    let es : List TimerEvent := [.setitimer 0 (some halfSecond) false, .stop 1 2000000,
      .resume 1 2000000, .tick 5000000 true]
    signals 10000000 fresh es = signals 10000000 fresh (es.filter (·.kept)) ∧
      ∀ pre e post, es = pre ++ e :: post → ∀ rem,
        (fresh.run 10000000 pre).told 10000000 e = some rem →
        (fresh.run 10000000 pre).alarm.alarm_at ≠ 0 → tv rem ≠ (0, 0) :=
  reading_changes_nothing (.setitimer (fun h => absurd h Bool.false_ne_true)
    (.getitimer (.inr (by decide)) (.inr ⟨rfl, roundtrip (by decide) (by decide) (by decide),
      roundtrip (by decide) (by decide) (by decide)⟩) (.tick (.nil _))))

/-- A reading when the timer is due, before the tick: it tells zero, and no signal is posted. -/
theorem alarm_lost :
    let es : List TimerEvent := [.setitimer 0 (some halfSecond) false, .stop 1 5000000,
      .resume 1 5000000, .tick 5000000 true]
    signals 10000000 fresh es = [(5000000, false)] ∧
      signals 10000000 fresh (es.filter (·.kept)) = [(5000000, true)] ∧
      ((fresh.run 10000000 (es.take 1)).told 10000000 (.stop 1 5000000)).map tv = some (0, 0) ∧
      (fresh.run 10000000 (es.take 1)).alarm.alarm_at ≠ 0 := by
  decide

end TimerState

end Pulsar.Proc

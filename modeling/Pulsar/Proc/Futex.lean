import Pulsar.Proc.Turns

/-!
# Futexes (`process.rs`, `linux.rs`)

A thread sleeps on a word of its space as long as nobody wakes it.  It looks at the word and goes to
sleep under SCHED; words change at any time.  What ends a sleep is a wake of that word, the clock, a
signal, or the end of the thread.

* `wakeLoop_spec`: whom a wake wakes.
* `futex_sound`: no wake misses a waiter, each wake wakes as many as it can, and each sleep ends
  once.
-/

namespace Pulsar.Proc

open Runs

/-! ### The waiters of a word -/

namespace Procs

/-- The slots of a list that wait on the word, in its order. -/
def waiters (root : Option Nat) (addr : Nat) (is : List Nat) (ps : Procs) : List Nat :=
  is.filter fun i => decide (waitsOn root addr (ps i))

/-- These slots go on. -/
def wakeThem (is : List Nat) (ps : Procs) : Procs := fun i =>
  if i ∈ is then { ps i with ret := 0, state := .ready } else ps i

variable {root : Option Nat} {addr n i : Nat} {is : List Nat} {ps : Procs}

theorem mem_waiters : i ∈ ps.waiters root addr is ↔ i ∈ is ∧ waitsOn root addr (ps i) := by
  rw [waiters, List.mem_filter, decide_eq_true_eq]

theorem waiters_edit {f : Process → Process} (h : i ∉ is) :
    (ps.edit i f).waiters root addr is = ps.waiters root addr is := by
  refine List.filter_congr fun j hj => ?_
  rw [edit_of_ne fun e => h (by rwa [← e])]

@[simp] theorem wakeThem_nil : ps.wakeThem [] = ps := funext fun _ => if_neg List.not_mem_nil

/-- **Whom a wake wakes**: the first `n` of those that wait. -/
theorem wakeLoop_spec (h : is.Nodup) (n : Nat) (ps : Procs) :
    wakeLoop root addr n is ps = (min n (ps.waiters root addr is).length,
      ps.wakeThem ((ps.waiters root addr is).take n)) := by
  induction is generalizing n ps with
  | nil => cases n <;> simp [wakeLoop, waiters]
  | cons i is ih =>
      obtain ⟨hi, his⟩ := List.nodup_cons.mp h
      cases n with
      | zero => simp [wakeLoop]
      | succ n =>
          rw [wakeLoop]
          split_ifs with hw
          · have hcons : ps.waiters root addr (i :: is) = i :: ps.waiters root addr is :=
              List.filter_cons_of_pos (decide_eq_true hw)
            rw [ih his, waiters_edit hi, hcons, List.length_cons, Nat.succ_min_succ,
              List.take_succ_cons]
            refine Prod.ext rfl (funext fun j => ?_)
            have hnot : i ∉ (ps.waiters root addr is).take n := fun hm =>
              hi (mem_waiters.mp (List.mem_of_mem_take hm)).1
            by_cases hj : j = i
            · subst hj
              simp [wakeThem, hnot, edit_self]
            · simp [wakeThem, hj]
          · have hcons : ps.waiters root addr (i :: is) = ps.waiters root addr is :=
              List.filter_cons_of_neg (by simpa using hw)
            rw [ih his, hcons]

theorem futexWake_spec : ps.futexWake root addr n =
    (min n (ps.waiters root addr (List.range MAX_PROCS)).length,
      ps.wakeThem ((ps.waiters root addr (List.range MAX_PROCS)).take n)) :=
  wakeLoop_spec List.nodup_range n ps

end Procs

/-! ### The system -/

/-- A look at a word that has the value expected: its slot holds SCHED and goes to sleep. -/
structure Look where
  slot : Nat
  addr : Nat
  ticks : Nat

/-- The table, with `abi` and `wake_at` of its slots; the clock, the words of all spaces, and who
is in `futex_wait_ticks`. -/
structure Futexes where
  procs : Procs
  linux : Nat → Bool
  wakeAt : Nat → Nat
  now : Nat
  word : Option Nat → Nat → UInt32
  looked : Option Look

/-- What concerns futexes. -/
inductive FutexAct where
  /-- Memory changes. -/
  | memory (word : Option Nat → Nat → UInt32)
  | look (s addr : Nat) (val : UInt32) (ticks : Nat)
  | sleep
  | wake (s addr n : Nat)
  | requeue (s addr val val2 : Nat)
  | exit (s : Nat) (mapped : Bool)
  | clock (now : Nat)
  | signal (s : Nat)
  /-- A slot changes otherwise. -/
  | other (s : Nat) (p : Process)

namespace Futexes

/-- `futex_wait_ticks(addr, val, ticks)` of slot `s`, up to the test. -/
def look (s addr : Nat) (val : UInt32) (ticks : Nat) (σ : Futexes) : Futexes :=
  if σ.word (σ.procs s).root addr = val then { σ with looked := some ⟨s, addr, ticks⟩ }
  else
    { σ with procs := σ.procs.setRet s (if σ.linux s then 2 ^ 64 - 11 else 2 ^ 64 - 1) }

/-- `futex_wait_ticks` after the test, up to `block`. -/
def sleep (x : Look) (σ : Futexes) : Futexes :=
  { σ with
    procs := σ.procs.edit x.slot fun p =>
      { p with ret := 0, state := .futexWait, futexAddr := x.addr }
    wakeAt := Function.update σ.wakeAt x.slot
      (if 0 < x.ticks then (σ.now + x.ticks) % 2 ^ 64 else 0)
    looked := none }

/-- `futex_wake_locked(root, addr, n)`. -/
def wake (root : Option Nat) (addr n : Nat) (σ : Futexes) : Nat × Futexes :=
  let r := σ.procs.futexWake root addr n
  (r.1, { σ with
    procs := r.2
    wakeAt := fun i => if (r.2 i).state = (σ.procs i).state then σ.wakeAt i else 0 })

/-- `futex_wake(addr, n)` of slot `s`, with its result. -/
def futexWake (s addr n : Nat) (σ : Futexes) : Futexes :=
  let r := σ.wake (σ.procs s).root addr n
  { r.2 with procs := r.2.procs.setRet s r.1 }

/-- How many `FUTEX_REQUEUE` wakes: those that it would move are woken, too. -/
def requeueCount (val val2 : Nat) : Nat := min (val + val2 % 2 ^ 31) (2 ^ 64 - 1)

/-- `exit_locked`: the word of `set_tid_address`. -/
def clearTid (s : Nat) (mapped : Bool) (σ : Futexes) : Futexes :=
  let p := σ.procs s
  if p.clearTid ≠ 0 ∧ mapped then
    (wake p.root p.clearTid 1 { σ with
      word := Function.update σ.word p.root (Function.update (σ.word p.root) p.clearTid 0) }).2
  else σ

/-- The time of a waiter is over. -/
def Due (now i : Nat) (σ : Futexes) : Prop :=
  i < MAX_PROCS ∧ (σ.procs i).state = .futexWait ∧ σ.wakeAt i ≠ 0 ∧ σ.wakeAt i ≤ now

instance (now i : Nat) (σ : Futexes) : Decidable (σ.Due now i) := by
  unfold Due
  infer_instance

/-- `wake_sleepers(now)`. -/
def wakeSleepers (now : Nat) (σ : Futexes) : Futexes :=
  { σ with
    now := now
    procs := fun i =>
      if σ.Due now i then
        { σ.procs i with
          ret := if σ.linux i then 2 ^ 64 - 110 else 2 ^ 64 - 2
          state := .ready }
      else σ.procs i
    wakeAt := fun i => if σ.Due now i then 0 else σ.wakeAt i }

/-- `post_signal_locked`, for a waiter that does not block the signal. -/
def signal (s : Nat) (σ : Futexes) : Futexes :=
  if (σ.procs s).state = .futexWait then
    { σ with
      procs := σ.procs.edit s fun p =>
        { p with ret := if σ.linux s then 2 ^ 64 - 4 else p.ret, state := .ready }
      wakeAt := Function.update σ.wakeAt s 0 }
  else σ

/-- What a slot becomes otherwise: no waiter, and a waiter ends. -/
def Becomes (s : Nat) (p : Process) (σ : Futexes) : Prop :=
  p.state ≠ .futexWait ∧ ((σ.procs s).state = .futexWait → ¬ p.Live)

instance (s : Nat) (p : Process) (σ : Futexes) : Decidable (σ.Becomes s p) := by
  unfold Becomes
  infer_instance

/-- Slot `s` is on a processor. -/
def Runs (s : Nat) (σ : Futexes) : Prop := s < MAX_PROCS ∧ (σ.procs s).state = .running

instance (s : Nat) (σ : Futexes) : Decidable (σ.Runs s) := by
  unfold Futexes.Runs
  infer_instance

/-- What happens with SCHED free. -/
def act (σ : Futexes) : FutexAct → Option Futexes
  | .memory _ | .sleep => none
  | .look s addr val ticks => if σ.Runs s then some (σ.look s addr val ticks) else none
  | .wake s addr n => if σ.Runs s then some (σ.futexWake s addr n) else none
  | .requeue s addr val val2 =>
    if σ.Runs s then some (σ.futexWake s addr (requeueCount val val2)) else none
  | .exit s mapped => if σ.Runs s then some (σ.clearTid s mapped) else none
  | .clock now => some (σ.wakeSleepers now)
  | .signal s => some (σ.signal s)
  | .other s p =>
    if σ.Becomes s p then some { σ with procs := Function.update σ.procs s p } else none

/-- One act.  Memory changes at any time; SCHED is held from a look that found its value to the
sleep. -/
def step (σ : Futexes) : FutexAct → Option Futexes
  | .memory word => some { σ with word := word }
  | .sleep => σ.looked.map fun x => σ.sleep x
  | a => if σ.looked.isNone then σ.act a else none

end Futexes

/-! ### Notes -/

/-- A wake: who waited on the word, and who went on. -/
structure Wake where
  root : Option Nat
  addr : Nat
  n : Nat
  waiters : List Nat
  woken : List Nat

/-- The last look of a slot: the word, the value expected, the one found, and the wakes since. -/
structure Watch where
  root : Option Nat
  addr : Nat
  val : UInt32
  seen : UInt32
  wakes : List Wake

/-- What ends a sleep. -/
inductive Ending where
  | wake | timeout | signal | over
  deriving DecidableEq

/-- Of each slot: its last look, how often it went to sleep, how its sleeps ended, and the result of
the last one until it goes on; and all wakes. -/
structure Sleeps where
  watch : Nat → Watch
  begun : Nat → Nat
  ended : Nat → List Ending
  result : Nat → Option Nat
  wakes : List Wake

namespace Sleeps

def none : Sleeps :=
  { watch := fun _ => ⟨.none, 0, 0, 0, []⟩, begun := fun _ => 0, ended := fun _ => [],
    result := fun _ => .none, wakes := [] }

/-- The slot waited in `σ` and does not in `τ`. -/
def left (σ τ : Futexes) (i : Nat) : Prop :=
  (σ.procs i).state = .futexWait ∧ (τ.procs i).state ≠ .futexWait

instance (σ τ : Futexes) (i : Nat) : Decidable (left σ τ i) := by
  unfold left
  infer_instance

/-- The sleeps that end. -/
def ends (σ τ : Futexes) (how : Ending) (H : Sleeps) : Sleeps :=
  { H with
    ended := fun i => if left σ τ i then H.ended i ++ [how] else H.ended i
    result := fun i => if left σ τ i then some (τ.procs i).ret else H.result i }

/-- A wake that counts. -/
def woke (root : Option Nat) (addr n : Nat) (σ τ : Futexes) (H : Sleeps) : Sleeps :=
  let w : Wake := ⟨root, addr, n, σ.procs.waiters root addr (List.range MAX_PROCS),
    (List.range MAX_PROCS).filter fun i =>
      decide ((σ.procs i).state = .futexWait ∧ (τ.procs i).state = .ready)⟩
  { H.ends σ τ .wake with
    watch := fun i => { H.watch i with wakes := (H.watch i).wakes ++ [w] }
    wakes := H.wakes ++ [w] }

/-- The note of one act. -/
def note (σ : Futexes) (a : FutexAct) (τ : Futexes) (H : Sleeps) : Sleeps :=
  match a with
  | .memory _ => H
  | .look s addr val _ =>
    let root := (σ.procs s).root
    if τ.looked.isSome then
      { H with watch := Function.update H.watch s ⟨root, addr, val, σ.word root addr, []⟩ }
    else H
  | .sleep => { H with begun := fun i => H.begun i + if left τ σ i then 1 else 0 }
  | .wake s addr n => H.woke (σ.procs s).root addr n σ τ
  | .requeue s addr val val2 => H.woke (σ.procs s).root addr (Futexes.requeueCount val val2) σ τ
  | .exit s mapped =>
    if (σ.procs s).clearTid ≠ 0 ∧ mapped then
      H.woke (σ.procs s).root (σ.procs s).clearTid 1 σ τ
    else H
  | .clock _ => H.ends σ τ .timeout
  | .signal _ => H.ends σ τ .signal
  | .other s _ =>
    let H := H.ends σ τ .over
    { H with result := Function.update H.result s .none }

end Sleeps

/-! ### What is promised -/

/-- A wake makes as many of the waiters of its word ready as it can, and nobody else. -/
structure Wake.Fair (w : Wake) : Prop where
  nodup : w.woken.Nodup
  waited : w.woken ⊆ w.waiters
  length : w.woken.length = min w.n w.waiters.length

/-- A waiter found its value, it waits on its word, and each wake of that word since its look found
it waiting, and chose others. -/
structure Watch.Meets (w : Watch) (s : Nat) (p : Process) : Prop where
  found : w.seen = w.val
  waits : Procs.waitsOn w.root w.addr p
  met : ∀ k ∈ w.wakes, k.root = w.root → k.addr = w.addr → s ∈ k.waiters ∧ s ∉ k.woken

/-- Waiters are missed by no wake, wakes are fair, and a sleep that has begun lasts or has ended
once, with the result that the slot still has until it goes on. -/
structure Sleeps.Sound (σ : Futexes) (H : Sleeps) : Prop where
  meets : ∀ s, (σ.procs s).state = .futexWait → (H.watch s).Meets s (σ.procs s)
  fair : ∀ w ∈ H.wakes, w.Fair
  once : ∀ s, H.begun s =
    (H.ended s).length + if (σ.procs s).state = .futexWait then 1 else 0
  result : ∀ s v, H.result s = some v → (σ.procs s).state = .ready ∧ (σ.procs s).ret = v

/-- Beside what is promised: slots in `futex_wait_ticks` found their value. -/
structure Sleeps.Inv (σ : Futexes) (H : Sleeps) : Prop extends Sleeps.Sound σ H where
  bound : ∀ s, (σ.procs s).state = .futexWait → s < MAX_PROCS
  looks : ∀ x ∈ σ.looked, σ.Runs x.slot ∧ ∃ v,
    H.watch x.slot = ⟨(σ.procs x.slot).root, x.addr, v, v, []⟩

/-- Some waiters go on, and some of those that run get a result. -/
def Futexes.Rouses (σ τ : Futexes) : Prop :=
  τ.looked = σ.looked ∧ ∀ i, τ.procs i = σ.procs i ∨
    (σ.procs i).state = .futexWait ∧
      (∃ v, τ.procs i = { σ.procs i with ret := v, state := .ready }) ∨
    (σ.procs i).state = .running ∧ ∃ v, τ.procs i = { σ.procs i with ret := v }

variable {σ τ : Futexes} {H : Sleeps} {s addr n : Nat} {root : Option Nat}

namespace Futexes.Rouses

theorem asleep {i : Nat} (h : σ.Rouses τ) (hi : (τ.procs i).state = .futexWait) :
    τ.procs i = σ.procs i := by
  rcases h.2 i with h | ⟨-, v, h⟩ | ⟨hr, v, h⟩
  · exact h
  · rw [h] at hi
    cases hi
  · rw [h] at hi
    exact absurd (hr.symm.trans hi) (by decide)

theorem space (h : σ.Rouses τ) (i : Nat) : (τ.procs i).root = (σ.procs i).root := by
  rcases h.2 i with h | ⟨-, v, h⟩ | ⟨-, v, h⟩ <;> rw [h]

theorem trans {υ : Futexes} (h : σ.Rouses τ) (h' : τ.Rouses υ) : σ.Rouses υ := by
  refine ⟨h'.1.trans h.1, fun i => ?_⟩
  rcases h.2 i with e | ⟨hw, v, e⟩ | ⟨hr, v, e⟩
  · have := h'.2 i
    rwa [e] at this
  · rcases h'.2 i with e' | ⟨hw', -⟩ | ⟨hr', -⟩
    · exact .inr (.inl ⟨hw, v, e'.trans e⟩)
    · rw [e] at hw'
      cases hw'
    · rw [e] at hr'
      cases hr'
  · rcases h'.2 i with e' | ⟨hw', -⟩ | ⟨-, v', e'⟩
    · exact .inr (.inr ⟨hr, v, e'.trans e⟩)
    · rw [e] at hw'
      exact absurd (hr.symm.trans hw') (by decide)
    · exact .inr (.inr ⟨hr, v', by rw [e', e]⟩)

end Futexes.Rouses

namespace Futexes

theorem wake_procs : (σ.wake root addr n).2.procs =
    σ.procs.wakeThem ((σ.procs.waiters root addr (List.range MAX_PROCS)).take n) := by
  rw [wake, Procs.futexWake_spec]

theorem wake_rouses : σ.Rouses (σ.wake root addr n).2 := by
  refine ⟨rfl, fun i => ?_⟩
  rw [wake_procs, Procs.wakeThem]
  split_ifs with hi
  · exact .inr (.inl ⟨(Procs.mem_waiters.mp (List.mem_of_mem_take hi)).2.1, 0, rfl⟩)
  · exact .inl rfl

theorem wake_woken {i : Nat} : (σ.procs i).state = .futexWait ∧
      ((σ.wake root addr n).2.procs i).state = .ready ↔
    i ∈ (σ.procs.waiters root addr (List.range MAX_PROCS)).take n := by
  rw [wake_procs, Procs.wakeThem]
  split_ifs with hi
  · exact iff_of_true ⟨(Procs.mem_waiters.mp (List.mem_of_mem_take hi)).2.1, rfl⟩ hi
  · exact iff_of_false (fun h => absurd (h.1.symm.trans h.2) (by decide)) hi

theorem setRet_rouses {v : Nat} (h : (σ.procs s).state = .running) :
    σ.Rouses { σ with procs := σ.procs.setRet s v } := by
  refine ⟨rfl, fun i => ?_⟩
  by_cases hi : i = s
  · subst hi
    exact .inr (.inr ⟨h, v, by simp [Procs.setRet]⟩)
  · exact .inl (by simp [Procs.setRet, hi])

theorem wake_running (h : (σ.procs s).state = .running) :
    ((σ.wake root addr n).2.procs s).state = .running := by
  have hrouse : σ.Rouses (σ.wake root addr n).2 := wake_rouses
  rcases hrouse.2 s with e | ⟨hw, -⟩ | ⟨-, v, e⟩
  · rw [e, h]
  · exact absurd (h.symm.trans hw) (by decide)
  · rw [e, ← h]

theorem futexWake_rouses (h : (σ.procs s).state = .running) : σ.Rouses (σ.futexWake s addr n) :=
  wake_rouses.trans (setRet_rouses (wake_running h))

theorem futexWake_woken {i : Nat} (h : (σ.procs s).state = .running) :
    (σ.procs i).state = .futexWait ∧ ((σ.futexWake s addr n).procs i).state = .ready ↔
      i ∈ (σ.procs.waiters (σ.procs s).root addr (List.range MAX_PROCS)).take n := by
  refine Iff.trans ?_ wake_woken
  by_cases hi : i = s
  · subst hi
    rw [h]
    simp
  · simp [futexWake, Procs.setRet, hi]

theorem wakeSleepers_rouses {now : Nat} : σ.Rouses (σ.wakeSleepers now) := by
  refine ⟨rfl, fun i => ?_⟩
  by_cases hi : σ.Due now i
  · exact .inr (.inl ⟨hi.2.1, _, if_pos hi⟩)
  · exact .inl (by simp [wakeSleepers, hi])

theorem signal_rouses : σ.Rouses (σ.signal s) := by
  by_cases h : (σ.procs s).state = .futexWait
  · rw [signal, if_pos h]
    refine ⟨rfl, fun i => ?_⟩
    by_cases hi : i = s
    · subst hi
      exact .inr (.inl ⟨h, if σ.linux i then 2 ^ 64 - 4 else (σ.procs i).ret, by simp⟩)
    · exact .inl (by simp [hi])
  · rw [signal, if_neg h]
    exact ⟨rfl, fun _ => .inl rfl⟩

end Futexes

namespace Sleeps.Inv

variable {how : Ending}

theorem ends (h : H.Inv σ) (hr : σ.Rouses τ) (hl : σ.looked = .none) :
    (H.ends σ τ how).Inv τ where
  meets s hs := hr.asleep hs ▸ h.meets s (hr.asleep hs ▸ hs)
  fair := h.fair
  bound s hs := h.bound s (hr.asleep hs ▸ hs)
  looks x hx := by
    rw [hr.1, hl] at hx
    cases hx
  once s := by
    have honce := h.once s
    simp only [Sleeps.ends, left]
    rcases hr.2 s with e | ⟨hw, v, e⟩ | ⟨hrun, v, e⟩
    · simpa [e] using honce
    · simpa [hw, e] using honce
    · simpa [e, hrun] using honce
  result s v hv := by
    simp only [Sleeps.ends, left] at hv
    rcases hr.2 s with e | ⟨hw, u, e⟩ | ⟨hrun, u, e⟩
    · rw [e]
      exact h.result s v (by simpa [e] using hv)
    · exact ⟨by rw [e], by simpa [hw, e] using hv⟩
    · obtain ⟨hready, -⟩ := h.result s _ (by simpa [hrun] using hv)
      exact absurd (hrun.symm.trans hready) (by decide)

theorem same (h : H.Inv σ) (hr : σ.Rouses τ) (hl : σ.looked = .none)
    (hs : ∀ i, ¬ left σ τ i) : H.Inv τ := by
  have hsame : H.ends σ τ .wake = H := by
    simp only [Sleeps.ends, hs, if_false]
  exact hsame ▸ h.ends hr hl

/-- The waiters of a word are woken in a step from `σ` to `τ`. -/
theorem woke (h : H.Inv σ) (hr : σ.Rouses τ) (hl : σ.looked = .none)
    (hw : ∀ i, (σ.procs i).state = .futexWait ∧ (τ.procs i).state = .ready ↔
      i ∈ (σ.procs.waiters root addr (List.range MAX_PROCS)).take n) :
    (H.woke root addr n σ τ).Inv τ := by
  have hends : (H.ends σ τ .wake).Inv τ := h.ends hr hl
  refine { hends with meets := fun s hs => ?_, fair := fun w hw' => ?_, looks := fun x hx => ?_ }
  · have hmeets := hends.meets s hs
    refine ⟨hmeets.found, hmeets.waits, fun k hk hroot haddr => ?_⟩
    rcases List.mem_append.mp hk with hk | hk
    · exact hmeets.met k hk hroot haddr
    · obtain rfl := List.mem_singleton.mp hk
      have hsame := hr.asleep hs
      have hasleep : (σ.procs s).state = .futexWait := hsame ▸ hs
      refine ⟨Procs.mem_waiters.mpr ⟨List.mem_range.mpr (h.bound s hasleep), ?_⟩, fun hm => ?_⟩
      · have hwaits := (h.meets s hasleep).waits
        dsimp only at hroot haddr
        rw [hroot, haddr]
        exact hwaits
      · obtain ⟨-, hm⟩ := List.mem_filter.mp hm
        exact absurd ((of_decide_eq_true hm).2.symm.trans hs) (by decide)
  · rcases List.mem_append.mp hw' with hw' | hw'
    · exact h.fair w hw'
    · obtain rfl := List.mem_singleton.mp hw'
      have hnodup : (σ.procs.waiters root addr (List.range MAX_PROCS)).Nodup :=
        List.nodup_range.filter _
      have hperm : List.Perm ((List.range MAX_PROCS).filter fun i =>
          decide ((σ.procs i).state = .futexWait ∧ (τ.procs i).state = .ready))
          ((σ.procs.waiters root addr (List.range MAX_PROCS)).take n) := by
        refine (List.perm_ext_iff_of_nodup (List.nodup_range.filter _)
          (hnodup.sublist (List.take_sublist _ _))).mpr fun i => ?_
        rw [List.mem_filter, decide_eq_true_eq, hw i]
        exact and_iff_right_of_imp fun hi =>
          (Procs.mem_waiters.mp (List.mem_of_mem_take hi)).1
      exact ⟨List.nodup_range.filter _, fun i hi => List.mem_of_mem_take (hperm.subset hi),
        hperm.length_eq.trans List.length_take⟩
  · rw [hr.1, hl] at hx
    cases hx

theorem look {val : UInt32} {ticks : Nat} (h : H.Inv σ) (hl : σ.looked = .none) (hr : σ.Runs s) :
    (H.note σ (.look s addr val ticks) (σ.look s addr val ticks)).Inv
      (σ.look s addr val ticks) := by
  by_cases hv : σ.word (σ.procs s).root addr = val
  · have hlook : σ.look s addr val ticks = { σ with looked := some ⟨s, addr, ticks⟩ } := if_pos hv
    have hne : ∀ i, (σ.procs i).state = .futexWait → i ≠ s := fun i hi e =>
      absurd (hr.2.symm.trans (e ▸ hi)) (by decide)
    rw [hlook]
    exact {
      meets := fun i hi => by
        simp only [note, Option.isSome_some, if_true, Function.update_of_ne (hne i hi)]
        exact h.meets i hi
      fair := h.fair
      once := h.once
      result := h.result
      bound := h.bound
      looks := fun x hx => by
        obtain rfl := Option.some.inj hx
        exact ⟨hr, val, by simp [note, hv]⟩ }
  · have hlook : σ.look s addr val ticks = { σ with
        procs := σ.procs.setRet s (if σ.linux s then 2 ^ 64 - 11 else 2 ^ 64 - 1) } := if_neg hv
    have hnote : H.note σ (.look s addr val ticks) (σ.look s addr val ticks) = H := by
      simp [note, hlook, hl]
    rw [hnote, hlook]
    refine h.same (Futexes.setRet_rouses hr.2) hl fun i hi => hi.2 ?_
    have hne : i ≠ s := fun e => absurd (hr.2.symm.trans (e ▸ hi.1)) (by decide)
    simpa [Procs.setRet, hne] using hi.1

theorem sleep {x : Look} (h : H.Inv σ) (hx : σ.looked = some x) :
    (H.note σ .sleep (σ.sleep x)).Inv (σ.sleep x) := by
  obtain ⟨hr, v, hwatch⟩ := h.looks x hx
  have hself : (σ.sleep x).procs x.slot =
      { σ.procs x.slot with ret := 0, state := .futexWait, futexAddr := x.addr } :=
    by simp [Futexes.sleep]
  have hother : ∀ i, i ≠ x.slot → (σ.sleep x).procs i = σ.procs i := fun i hi =>
    by simp [Futexes.sleep, hi]
  refine ⟨⟨fun i hi => ?_, h.fair, fun i => ?_, fun i v hv => ?_⟩, fun i hi => ?_, nofun⟩
  all_goals by_cases e : i = x.slot
  · subst e
    simp only [note, hself, hwatch]
    exact ⟨rfl, ⟨rfl, rfl, rfl⟩, fun k hk => nomatch hk⟩
  · rw [hother i e] at hi ⊢
    exact h.meets i hi
  · subst e
    simpa [note, left, hself, hr.2] using h.once x.slot
  · simpa [note, left, hother i e] using h.once i
  · subst e
    exact absurd (hr.2.symm.trans (h.result _ v hv).1) (by decide)
  · rw [hother i e]
    exact h.result i v hv
  · exact e ▸ hr.1
  · exact h.bound i (hother i e ▸ hi)

theorem other {p : Process} (h : H.Inv σ) (hl : σ.looked = .none) (hb : σ.Becomes s p) :
    (H.note σ (.other s p) { σ with procs := Function.update σ.procs s p }).Inv
      { σ with procs := Function.update σ.procs s p } := by
  refine ⟨⟨fun i hi => ?_, h.fair, fun i => ?_, fun i v hv => ?_⟩, fun i hi => ?_, fun x hx => ?_⟩
  rotate_right
  · rw [hl] at hx
    cases hx
  all_goals by_cases e : i = s
  · subst e
    exact absurd (by simpa using hi) hb.1
  · have hi : (σ.procs i).state = .futexWait := by simpa [e] using hi
    simpa [e, note, Sleeps.ends] using h.meets i hi
  · subst e
    have honce := h.once i
    by_cases hi : (σ.procs i).state = .futexWait
    · simpa [note, Sleeps.ends, left, hb.1, hi] using honce
    · simpa [note, Sleeps.ends, left, hb.1, hi] using honce
  · simpa [note, Sleeps.ends, left, e] using h.once i
  · subst e
    simp [note] at hv
  · simp only [note, Sleeps.ends, left, Function.update_of_ne e] at hv ⊢
    exact h.result i v (by simpa using hv)
  · subst e
    exact absurd (by simpa using hi) hb.1
  · exact h.bound i (by simpa [e] using hi)

theorem step {a : FutexAct} (h : H.Inv σ) (hs : σ.step a = some τ) : (H.note σ a τ).Inv τ := by
  have hact : σ.looked = .none → σ.act a = some τ → (H.note σ a τ).Inv τ := by
    intro hl hs
    cases a with
    | memory _ => cases hs
    | sleep => cases hs
    | look s addr val ticks =>
        obtain ⟨hr, hs⟩ := (Option.ite_none_right_eq_some ..).mp hs
        exact Option.some.inj hs ▸ h.look hl hr
    | wake s addr n =>
        obtain ⟨hr, hs⟩ := (Option.ite_none_right_eq_some ..).mp hs
        obtain rfl := Option.some.inj hs
        exact h.woke (Futexes.futexWake_rouses hr.2) hl fun _ => Futexes.futexWake_woken hr.2
    | requeue s addr val val2 =>
        obtain ⟨hr, hs⟩ := (Option.ite_none_right_eq_some ..).mp hs
        obtain rfl := Option.some.inj hs
        exact h.woke (Futexes.futexWake_rouses hr.2) hl fun _ => Futexes.futexWake_woken hr.2
    | exit s mapped =>
        obtain ⟨-, hs⟩ := (Option.ite_none_right_eq_some ..).mp hs
        obtain rfl := Option.some.inj hs
        by_cases hc : (σ.procs s).clearTid ≠ 0 ∧ mapped
        · rw [Futexes.clearTid, note, if_pos hc, if_pos hc]
          exact h.woke ⟨hl ▸ rfl, Futexes.wake_rouses.2⟩ hl fun _ => Futexes.wake_woken
        · rw [Futexes.clearTid, note, if_neg hc, if_neg hc]
          exact h
    | clock now =>
        obtain rfl := Option.some.inj hs
        exact h.ends Futexes.wakeSleepers_rouses hl
    | signal s =>
        obtain rfl := Option.some.inj hs
        exact h.ends Futexes.signal_rouses hl
    | other s p =>
        obtain ⟨hb, hs⟩ := (Option.ite_none_right_eq_some ..).mp hs
        exact Option.some.inj hs ▸ h.other hl hb
  cases a with
  | memory _ =>
      obtain rfl := Option.some.inj hs
      exact ⟨⟨h.meets, h.fair, h.once, h.result⟩, h.bound, h.looks⟩
  | sleep =>
      obtain ⟨x, hx, rfl⟩ := Option.map_eq_some_iff.mp hs
      exact h.sleep hx
  | _ =>
      obtain ⟨hl, hs⟩ := (Option.ite_none_right_eq_some ..).mp hs
      exact hact (Option.isNone_iff_eq_none.mp hl) hs

end Sleeps.Inv

/-- Nobody waits yet. -/
def Futexes.Fresh (σ : Futexes) : Prop :=
  σ.looked = none ∧ ∀ s, (σ.procs s).state ≠ .futexWait

theorem Sleeps.Inv.fresh (h : σ.Fresh) : Sleeps.Inv σ .none := by
  refine ⟨⟨fun s hs => absurd hs (h.2 s), fun w hw => absurd hw List.not_mem_nil, fun s => ?_,
    nofun⟩, fun s hs => absurd hs (h.2 s), fun x hx => ?_⟩
  · simp [Sleeps.none, h.2 s]
  · rw [h.1] at hx
    cases hx

/-- The runs with the note of the sleeps. -/
abbrev Waiting : Futexes × Sleeps → Prop :=
  Noted Futexes.step Sleeps.note Futexes.Fresh .none fun _ _ => True

/-- **Futexes**: a waiter found its value, and each wake of its word since then saw it; a wake
makes as many of the waiters of its word in its space ready as it can, and nobody else; a sleep
ends once. -/
theorem futex_sound (h : Waiting (σ, H)) : H.Sound σ := by
  refine (Noted.invariant (I := fun σ H => Sleeps.Inv σ H) (fun σ hσ => .fresh hσ) ?_ h).toSound
  intro σ a τ H hI _ hs
  exact hI.step hs

/-- Three threads run, the last in a space of its own. -/
def threads : Futexes :=
  { procs := fun s => { Process.empty with
      state := if s < 3 then .running else .unused
      root := some (if s < 2 then 5 else 6) }
    linux := fun _ => false, wakeAt := fun _ => 0, now := 0, word := fun _ _ => 0, looked := none }

/-- Two threads wait at one address, and the one of the waker's space is woken. -/
theorem futex_sound_run : ∃ (σ : Futexes) (H : Sleeps), H.Sound σ ∧
    H.wakes.map (fun w => (w.waiters, w.woken)) = [([0], [0])] ∧ H.ended 0 = [.wake] ∧
    H.begun 2 = 1 ∧ H.ended 2 = [] := by
  have hfresh : Waiting (threads, .none) := by
    refine Noted.start ⟨rfl, fun s => ?_⟩
    dsimp only [threads]
    split_ifs <;> decide
  have hrun : (Runs.run (noted Futexes.step Sleeps.note) (fun _ _ => True)
      [.look 0 64 0 0, .sleep, .look 2 64 0 0, .sleep, .wake 1 64 2] (threads, .none)).any
      (fun x => decide (x.2.wakes.map (fun w => (w.waiters, w.woken)) = [([0], [0])] ∧
        x.2.ended 0 = [.wake] ∧ x.2.begun 2 = 1 ∧ x.2.ended 2 = [])) = true := by
    decide +kernel
  obtain ⟨x, hx, hc⟩ := (Option.any_eq_true _ _).mp hrun
  obtain ⟨hwakes, hended, hbegun, hnone⟩ := of_decide_eq_true hc
  have hw : Waiting (x.1, x.2) := Reached.run hfresh hx
  exact ⟨x.1, x.2, futex_sound hw, hwakes, hended, hbegun, hnone⟩

end Pulsar.Proc

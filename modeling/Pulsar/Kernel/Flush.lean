import Pulsar.Lib.Runs
import Pulsar.Kernel.Telling

/-!
# Wakes that are pushed and flushed

Keys passed to `push_wake` wait in `PENDING` until a processor takes them all and wakes, one key
after the other, whoever sleeps on it (`file.rs`, `io_wake` of `process.rs`).

* `pushed_wakes`: while no key finds `PENDING` full, a flush makes ready whoever sleeps on a key
  that was pushed before it.
* `pushed_wake_dropped`: one of 65 keys pushed between two flushes wakes nobody.
-/

namespace Pulsar.Kernel

/-! ### `PENDING` -/

/-- What `push_wake(key)` does to `PENDING`. -/
def enqueue (key : Nat) (pending : List Nat) : List Nat :=
  if key ∈ pending then pending
  else if pending.length < PENDING_MAX then pending ++ [key]
  else pending

theorem mem_enqueue_of_mem {key x : Nat} {pending : List Nat} (h : x ∈ pending) :
    x ∈ enqueue key pending := by
  unfold enqueue
  split_ifs
  · exact h
  · exact List.mem_append_left _ h
  · exact h

theorem mem_enqueue {key : Nat} {pending : List Nat}
    (h : key ∈ pending ∨ pending.length < PENDING_MAX) : key ∈ enqueue key pending := by
  unfold enqueue
  split_ifs with h₁ h₂
  · exact h₁
  · exact List.mem_append_right _ (List.mem_singleton.mpr rfl)
  · exact absurd h (not_or.mpr ⟨h₁, h₂⟩)

/-! ### The system -/

/-- What a process in state `IoWait` sleeps on: `io_key` and `io_mask`. -/
structure IoWait where
  key : Nat
  mask : Nat
  deriving DecidableEq

/-- `io_wake(key)` is for this sleeper. -/
def IoWait.Hears (w : IoWait) (key : Nat) : Prop :=
  w.key = key ∨ w.key = POLL_KEY ∧ w.mask.testBit (keyBucket key) = true

instance (w : IoWait) (key : Nat) : Decidable (w.Hears key) := by
  unfold IoWait.Hears
  infer_instance

/-- Where a processor is in `flush_wakes`, or in `flush_wakes_sched_held`. -/
inductive Flush where
  | away
  /-- It has seen `PENDING_ANY`. -/
  | loaded
  /-- It has the keys it took, and wakes for one after the other. -/
  | waking (keys : List Nat)
  deriving DecidableEq

/-- `PENDING`, `PENDING_ANY`, the processes in state `IoWait` and the processors.  Two things are
only observed: how often each process was made ready, and the keys pushed since keys were taken. -/
structure Wakes where
  pending : List Nat
  any : Bool
  procs : Nat → Option IoWait
  ready : Nat → Nat
  flush : Nat → Flush
  pushed : List Nat

inductive WakeEvent where
  /-- `push_wake(key)`, by whoever holds FS. -/
  | push (key : Nat)
  /-- `io_wait_until` and `io_wait_mask`. -/
  | sleep (p : Nat) (w : IoWait)
  /-- A deadline or a signal. -/
  | poke (p : Nat)
  /-- The first line of `flush_wakes`. -/
  | load (c : Nat)
  /-- `take_wakes`. -/
  | take (c : Nat)
  /-- `io_wake` of the next key that was taken. -/
  | wake (c : Nat)
  /-- The loop of `flush_wakes` is over. -/
  | done (c : Nat)

namespace Wakes

def boot : Wakes := ⟨[], false, fun _ => none, fun _ => 0, fun _ => .away, []⟩

/-- Processes are made ready. -/
def wakeUp (who : Nat → Prop) [DecidablePred who] (σ : Wakes) : Wakes :=
  { σ with
    procs := fun p => if who p then none else σ.procs p
    ready := fun p => if who p then σ.ready p + 1 else σ.ready p }

/-- Process `p` sleeps on `key`. -/
def SleepsOn (σ : Wakes) (key p : Nat) : Prop := ∃ w ∈ σ.procs p, w.Hears key

instance (σ : Wakes) (key p : Nat) : Decidable (σ.SleepsOn key p) := by
  unfold SleepsOn
  infer_instance

def setFlush (c : Nat) (f : Flush) (σ : Wakes) : Wakes :=
  { σ with flush := Function.update σ.flush c f }

/-- One event, where it can happen. -/
def step (σ : Wakes) : WakeEvent → Option Wakes
  | .push key => some { σ with
      pending := enqueue key σ.pending, any := true, pushed := key :: σ.pushed }
  | .sleep p w =>
    if σ.procs p = none then some { σ with procs := Function.update σ.procs p (some w) } else none
  | .poke p => if σ.procs p = none then none else some (σ.wakeUp (· = p))
  | .load c =>
    if σ.flush c = .away then some (if σ.any then σ.setFlush c .loaded else σ) else none
  | .take c =>
    if σ.flush c = .loaded then
      some { σ.setFlush c (.waking σ.pending) with pending := [], any := false, pushed := [] }
    else none
  | .wake c =>
    match σ.flush c with
    | .waking (key :: keys) => some ((σ.wakeUp (σ.SleepsOn key)).setFlush c (.waking keys))
    | _ => none
  | .done c => if σ.flush c = .waking [] then some (σ.setFlush c .away) else none

/-- A key that is pushed is pending already, or fewer than 64 others are. -/
def Fits (σ : Wakes) : WakeEvent → Prop
  | .push key => key ∈ σ.pending ∨ σ.pending.length < PENDING_MAX
  | _ => True

/-- **No pushed wake is dropped**: a flush that finds nothing to do leaves no key behind, and one
that takes the keys has made ready, when it is over, whoever slept on a key pushed before. -/
def Delivers (σ : Wakes) : Prop :=
  (σ.any = false → σ.pushed = []) ∧
    ∀ c τ υ p key, σ.step (.take c) = some τ →
      Runs.Reached step (· = τ) (fun _ _ => True) υ → υ.flush c = .away →
      key ∈ σ.pushed → σ.SleepsOn key p → σ.ready p < υ.ready p

/-! ### Keys on their way -/

variable {σ τ υ : Wakes} {e : WakeEvent} {c p key : Nat} {w : IoWait}

/-- The keys pushed are pending, and whoever flushes can tell. -/
structure Kept (σ : Wakes) : Prop where
  pending : ∀ key ∈ σ.pushed, key ∈ σ.pending
  any : σ.any = false → σ.pushed = []

theorem Kept.same (h : σ.Kept) (hpend : τ.pending = σ.pending) (hany : τ.any = σ.any)
    (hpush : τ.pushed = σ.pushed) : τ.Kept := by
  refine ⟨fun key hk => ?_, fun ha => ?_⟩
  · rw [hpend]
    exact h.pending key (hpush ▸ hk)
  · rw [hpush]
    exact h.any (hany ▸ ha)

theorem Kept.push (h : σ.Kept) (hf : σ.Fits (.push key)) (hs : σ.step (.push key) = some τ) :
    τ.Kept := by
  obtain rfl := Option.some.inj hs
  refine ⟨fun x hx => ?_, fun ha => absurd ha (by simp)⟩
  rcases List.mem_cons.mp hx with rfl | hx
  · exact mem_enqueue hf
  · exact mem_enqueue_of_mem (h.pending x hx)

theorem Kept.step (h : σ.Kept) (hf : σ.Fits e) (hs : σ.step e = some τ) : τ.Kept := by
  cases e with
  | push key => exact h.push hf hs
  | sleep p w =>
      simp only [Wakes.step, Option.ite_none_right_eq_some, Option.some.injEq] at hs
      obtain ⟨-, rfl⟩ := hs
      exact h.same rfl rfl rfl
  | poke p =>
      simp only [Wakes.step, Option.ite_none_left_eq_some, Option.some.injEq] at hs
      obtain ⟨-, rfl⟩ := hs
      exact h.same rfl rfl rfl
  | load c =>
      simp only [Wakes.step, Option.ite_none_right_eq_some, Option.some.injEq] at hs
      obtain ⟨-, rfl⟩ := hs
      split_ifs
      · exact h.same rfl rfl rfl
      · exact h
  | take c =>
      simp only [Wakes.step, Option.ite_none_right_eq_some, Option.some.injEq] at hs
      obtain ⟨-, rfl⟩ := hs
      exact ⟨fun key hk => absurd hk (by simp), fun _ => rfl⟩
  | wake c =>
      simp only [Wakes.step] at hs
      split at hs
      · obtain rfl := Option.some.inj hs
        exact h.same rfl rfl rfl
      · exact absurd hs (by simp)
  | done c =>
      simp only [Wakes.step, Option.ite_none_right_eq_some, Option.some.injEq] at hs
      obtain ⟨-, rfl⟩ := hs
      exact h.same rfl rfl rfl

theorem kept_boot : boot.Kept := ⟨fun _ h => h, fun _ => rfl⟩

/-! ### Sleepers -/

/-- Process `p`, asleep on `w` when it had been made ready `n` times, has been made ready since,
or processor `c` still has `key` to wake. -/
def Due (c p n key : Nat) (w : IoWait) (σ : Wakes) : Prop :=
  n < σ.ready p ∨
    (n = σ.ready p ∧ σ.procs p = some w ∧ ∃ keys, σ.flush c = .waking keys ∧ key ∈ keys)

theorem Due.wakeUp {n : Nat} (h : Due c p n key w σ) (who : Nat → Prop) [DecidablePred who] :
    Due c p n key w (σ.wakeUp who) := by
  rcases h with h | ⟨hn, hp, hc⟩
  · refine Or.inl ?_
    simp only [Wakes.wakeUp]
    split_ifs
    · exact Nat.lt_succ_of_lt h
    · exact h
  · by_cases hw : who p
    · refine Or.inl ?_
      simp only [Wakes.wakeUp, hw, if_true]
      exact Nat.lt_succ_of_le (Nat.le_of_eq hn)
    · refine Or.inr ⟨?_, ?_, hc⟩
      · simp only [Wakes.wakeUp, hw, if_false, hn]
      · simp only [Wakes.wakeUp, hw, if_false, hp]

theorem Due.setFlush {n d : Nat} {f : Flush} (h : Due c p n key w σ) (hd : d ≠ c) :
    Due c p n key w (σ.setFlush d f) := by
  rcases h with h | ⟨hn, hp, hc⟩
  · exact Or.inl h
  · refine Or.inr ⟨hn, hp, ?_⟩
    simpa only [Wakes.setFlush, Function.update_of_ne (Ne.symm hd)] using hc

theorem Due.ready {n d : Nat} {f : Flush} (h : n < σ.ready p) : Due c p n key w (σ.setFlush d f) :=
  Or.inl h

theorem Due.wake {n x d : Nat} {keys : List Nat} (h : Due c p n key w σ) (hw : w.Hears key)
    (hd : σ.flush d = .waking (x :: keys)) :
    Due c p n key w ((σ.wakeUp (σ.SleepsOn x)).setFlush d (.waking keys)) := by
  by_cases hdc : d = c
  · subst hdc
    rcases h.wakeUp (σ.SleepsOn x) with h' | ⟨hn, hp, ks, hk, hm⟩
    · exact .ready h'
    · have hks : ks = x :: keys := by
        have : Flush.waking ks = .waking (x :: keys) := hk.symm.trans hd
        exact Flush.waking.inj this
      subst hks
      rcases List.mem_cons.mp hm with rfl | hm
      · -- the key itself: the sleeper would have been woken
        have hsleep : σ.SleepsOn key p := by
          by_contra hno
          have hp' : σ.procs p = some w := by
            simpa only [Wakes.wakeUp, hno, if_false] using hp
          exact hno ⟨w, hp', hw⟩
        simp only [Wakes.wakeUp, hsleep, if_true, reduceCtorEq] at hp
      · refine Or.inr ⟨hn, hp, keys, ?_, hm⟩
        simp only [Wakes.setFlush, Function.update_self]
  · exact (h.wakeUp _).setFlush hdc

theorem Due.step {n : Nat} (h : Due c p n key w σ) (hw : w.Hears key) (hs : σ.step e = some τ) :
    Due c p n key w τ := by
  cases e with
  | push x =>
      obtain rfl := Option.some.inj hs
      exact h
  | sleep q v =>
      simp only [Wakes.step, Option.ite_none_right_eq_some, Option.some.injEq] at hs
      obtain ⟨hq, rfl⟩ := hs
      rcases h with h | ⟨hn, hp, hc⟩
      · exact Or.inl h
      · have hqp : p ≠ q := by
          rintro rfl
          rw [hp] at hq
          exact absurd hq (by simp)
        exact Or.inr ⟨hn, (Function.update_of_ne hqp ..).trans hp, hc⟩
  | poke q =>
      simp only [Wakes.step, Option.ite_none_left_eq_some, Option.some.injEq] at hs
      obtain ⟨-, rfl⟩ := hs
      exact h.wakeUp _
  | load d =>
      simp only [Wakes.step, Option.ite_none_right_eq_some, Option.some.injEq] at hs
      obtain ⟨hd, rfl⟩ := hs
      split_ifs
      · by_cases hdc : d = c
        · subst hdc
          rcases h with h | ⟨-, -, ks, hk, -⟩
          · exact .ready h
          · exact absurd (hd.symm.trans hk) (by simp)
        · exact h.setFlush hdc
      · exact h
  | take d =>
      simp only [Wakes.step, Option.ite_none_right_eq_some, Option.some.injEq] at hs
      obtain ⟨hd, rfl⟩ := hs
      by_cases hdc : d = c
      · subst hdc
        rcases h with h | ⟨-, -, ks, hk, -⟩
        · exact Or.inl h
        · exact absurd (hd.symm.trans hk) (by simp)
      · exact h.setFlush (f := .waking σ.pending) hdc
  | wake d =>
      simp only [Wakes.step] at hs
      split at hs
      · rename_i x keys hd
        obtain rfl := Option.some.inj hs
        exact h.wake hw hd
      · exact absurd hs (by simp)
  | done d =>
      simp only [Wakes.step, Option.ite_none_right_eq_some, Option.some.injEq] at hs
      obtain ⟨hd, rfl⟩ := hs
      by_cases hdc : d = c
      · subst hdc
        rcases h with h | ⟨-, -, ks, hk, hm⟩
        · exact .ready h
        · obtain rfl : ks = [] := Flush.waking.inj (hk.symm.trans hd)
          exact absurd hm (by simp)
      · exact h.setFlush hdc

theorem Kept.delivers (h : σ.Kept) : σ.Delivers := by
  refine ⟨h.any, fun c τ υ p key ht hr hu hk hp => ?_⟩
  obtain ⟨w, hw, hh⟩ := hp
  have hdue : Due c p (σ.ready p) key w τ := by
    simp only [Wakes.step, Option.ite_none_right_eq_some, Option.some.injEq] at ht
    obtain ⟨-, rfl⟩ := ht
    exact Or.inr ⟨rfl, hw, σ.pending, Function.update_self .., h.pending key hk⟩
  have hall : Due c p (σ.ready p) key w υ := by
    refine Runs.Reached.invariant (fun s hs => ?_) (fun _ _ _ hd _ hs => Due.step hd hh hs) hr
    rw [hs]
    exact hdue
  rcases hall with hlt | ⟨-, -, ks, hks, -⟩
  · exact hlt
  · exact absurd (hu.symm.trans hks) (by simp)

/-- **Pushed wakes arrive** in every run in which no key finds `PENDING` full. -/
theorem pushed_wakes (h : Runs.Reached step (· = boot) Fits σ) : σ.Delivers := by
  refine Kept.delivers (h.invariant (fun s hs => ?_) fun _ _ _ hk he hs => Kept.step hk he hs)
  rw [hs]
  exact kept_boot

instance (σ : Wakes) : (e : WakeEvent) → Decidable (σ.Fits e)
  | .push _ => inferInstanceAs (Decidable (_ ∨ _))
  | .sleep _ _ | .poke _ | .load _ | .take _ | .wake _ | .done _ => inferInstanceAs (Decidable True)

/-- A process sleeps on a key that is pushed, and a processor begins to flush. -/
theorem pushed_wakes_one : ∃ σ, Runs.Reached step (· = boot) Fits σ ∧
    (σ.flush 0 = .loaded ∧ 7 ∈ σ.pushed ∧ σ.SleepsOn 7 0) ∧ σ.Delivers := by
  have hboot : Runs.Reached step (· = boot) Fits boot := .init rfl
  have hrun : (Runs.run step Fits [.sleep 0 ⟨7, 0⟩, .push 7, .load 0] boot).any
      (fun σ => decide (σ.flush 0 = .loaded ∧ 7 ∈ σ.pushed ∧ σ.SleepsOn 7 0)) = true := by decide
  obtain ⟨σ, hr, hc⟩ := hboot.run_any hrun
  exact ⟨σ, hr, hc, pushed_wakes hr⟩

/-- The flush by processor 0 of 64 keys, from their taking. -/
def flushAll : List WakeEvent := (List.range 64).map (fun _ => .wake 0) ++ [.done 0]

/-- **A pushed wake is dropped**: process 0 sleeps on the last of 65 keys that are pushed before
anybody flushes, and still sleeps when the flush is over. -/
theorem pushed_wake_dropped :
    ∃ σ, Runs.Reached step (· = boot) (fun _ _ => True) σ ∧ ¬ σ.Delivers := by
  have hboot : Runs.Reached step (· = boot) (fun _ _ => True) boot := .init rfl
  have hrun : (Runs.run step (fun _ _ => True)
      (.sleep 0 ⟨64, 0⟩ :: (List.range 65).map .push ++ [.load 0]) boot).any (fun σ => decide
        (64 ∈ σ.pushed ∧ σ.SleepsOn 64 0 ∧ ((σ.step (.take 0)).any fun τ =>
          (Runs.run step (fun _ _ => True) flushAll τ).any fun υ =>
            decide (υ.flush 0 = .away ∧ υ.ready 0 = σ.ready 0)) = true)) = true := by
    decide +kernel
  obtain ⟨σ, hr, hc⟩ := hboot.run_any hrun
  obtain ⟨hk, hp, hf⟩ := hc
  obtain ⟨τ, ht, hf⟩ := (Option.any_eq_true _ _).mp hf
  have hτ : Runs.Reached step (· = τ) (fun _ _ => True) τ := .init rfl
  obtain ⟨υ, hu, hl, heq⟩ := hτ.run_any hf
  exact ⟨σ, hr, fun hd => absurd (hd.2 0 τ υ 0 64 ht hu hl hk hp) (by omega)⟩

end Wakes

end Pulsar.Kernel

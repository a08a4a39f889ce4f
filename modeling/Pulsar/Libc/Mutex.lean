import Pulsar.Proc.Futex

/-!
# The mutex of the C library (`thread.c`)

The word is 0 if the mutex is free, 1 if it is taken, and 2 if it is taken and threads may wait.
Threads take steps of the code in any order, beside whatever else happens to the processes.

* `mutex_sound`: one thread at a time has the mutex, and if it is free while threads sleep, a wake
  is still to come, or the exchange of a thread whose sleep is over.
-/

namespace Pulsar.Libc

open Proc Runs

/-! ### The code -/

/-- Where a thread is in the code. -/
inductive Place where
  /-- Not in it. -/
  | out
  /-- `mutex_lock`, before attempt `i` of the loop. -/
  | spin (i : Nat)
  /-- `mutex_lock`, before the exchange ahead of the loop that waits. -/
  | mark
  /-- `mutex_lock`, before `sys_futex_wait`. -/
  | wait
  /-- `mutex_lock`, in `sys_futex_wait`. -/
  | kernel
  /-- `mutex_lock`, before the exchange after `sys_futex_wait`. -/
  | again
  /-- From the return of `mutex_lock` to `mutex_unlock`. -/
  | holds
  /-- `mutex_unlock`, before `sys_futex_wake`. -/
  | wake
  deriving DecidableEq

/-- The attempts of `mutex_lock` before it waits. -/
def SPINS : Nat := 64

/-- The processes, and where their threads are. -/
structure Mutex where
  kernel : Futexes
  place : Nat → Place

inductive MutexAct where
  /-- A thread calls `mutex_lock`. -/
  | lock (s : Nat)
  /-- A thread calls `mutex_unlock`. -/
  | unlock (s : Nat)
  /-- A thread goes on in one of them. -/
  | thread (s : Nat)
  /-- `sys_futex_wait` refuses to wait. -/
  | refused (s : Nat)
  | other (a : FutexAct)

namespace Mutex

variable (root : Option Nat) (v s : Nat)

/-- The word of the mutex. -/
def word (μ : Mutex) : UInt32 := μ.kernel.word root v

/-- A thread goes on. -/
def goes (p : Place) (μ : Mutex) : Mutex := { μ with place := Function.update μ.place s p }

/-- A thread writes the word and goes on. -/
def put (x : UInt32) (p : Place) (μ : Mutex) : Mutex :=
  { kernel := { μ.kernel with
      word := Function.update μ.kernel.word root (Function.update (μ.kernel.word root) v x) }
    place := Function.update μ.place s p }

/-- `__atomic_compare_exchange_n(&m->v, &c, 1, ..)`: where a thread goes with the `c` it found. -/
def attempt (next : UInt32 → Place) (μ : Mutex) : Mutex :=
  if μ.word root v = 0 then μ.put root v s 1 .holds else μ.goes s (next (μ.word root v))

/-- After attempt `i`, which found `c`. -/
def afterSpin (i : Nat) (c : UInt32) : Place :=
  if i + 1 < SPINS then .spin (i + 1) else if c ≠ 2 then .mark else .wait

/-- `c = __atomic_exchange_n(&m->v, 2, ..)`, and the test of the loop. -/
def exchange (μ : Mutex) : Mutex :=
  μ.put root v s 2 (if μ.word root v ≠ 0 then .wait else .holds)

/-- `mutex_unlock` up to `sys_futex_wake`. -/
def unlock (μ : Mutex) : Mutex :=
  μ.put root v s 0 (if μ.word root v = 2 then .wake else .out)

/-- A thread of the process is on a processor, and not in the kernel with SCHED held. -/
def Runs (μ : Mutex) : Prop :=
  μ.kernel.Runs s ∧ (μ.kernel.procs s).root = root ∧ ∀ x ∈ μ.kernel.looked, x.slot ≠ s

/-- `sys_futex_wait(&m->v, 2, 0)`, if it waits. -/
def waits (μ : Mutex) : Option Mutex :=
  (μ.kernel.step (.look s v 2 0)).map fun κ =>
    { kernel := κ
      place := Function.update μ.place s (if κ.looked.isSome then .kernel else .again) }

/-- `sys_futex_wake(&m->v, 1)`. -/
def wakes (μ : Mutex) : Option Mutex :=
  (μ.kernel.step (.wake s v 1)).map fun κ =>
    { kernel := κ
      place := Function.update μ.place s .out }

/-- The next step of a thread. -/
def thread (μ : Mutex) : Option Mutex :=
  match μ.place s with
  | .out | .holds => none
  | .spin i => some (μ.attempt root v s (afterSpin i))
  | .mark | .again => some (μ.exchange root v s)
  | .wait => μ.waits v s
  | .kernel => some (μ.goes s .again)
  | .wake => μ.wakes v s

/-- What else happens: nobody else writes the word, waits on it, or ends in the code. -/
def Apart (μ : Mutex) : FutexAct → Prop
  | .memory w => w root v = μ.word root v
  | .look s addr _ _ => μ.place s = .out ∧ ((μ.kernel.procs s).root = root → addr ≠ v)
  | .wake s _ _ | .requeue s _ _ _ => μ.place s = .out
  | .exit s _ => μ.place s = .out ∧
    ((μ.kernel.procs s).root = root → (μ.kernel.procs s).clearTid ≠ v)
  | .other s p => μ.place s = .out ∨ p.root = root ∧ (p.state = .running ∨ p.state = .ready) ∧
    ((μ.kernel.procs s).state = .running ∨ (μ.kernel.procs s).state = .ready)
  | .sleep | .clock _ | .signal _ => True

instance (μ : Mutex) (a : FutexAct) : Decidable (μ.Apart root v a) := by
  unfold Apart
  split <;> infer_instance

instance (μ : Mutex) : Decidable (μ.Runs root s) := by
  unfold Mutex.Runs
  infer_instance

/-- One act. -/
def step (μ : Mutex) : MutexAct → Option Mutex
  | .lock s =>
    if μ.Runs root s ∧ μ.place s = .out then some (μ.attempt root v s fun _ => .spin 0) else none
  | .unlock s => if μ.Runs root s ∧ μ.place s = .holds then some (μ.unlock root v s) else none
  | .thread s => if μ.Runs root s then μ.thread root v s else none
  | .refused s => if μ.Runs root s ∧ μ.place s = .wait then some (μ.goes s .again) else none
  | .other a =>
    if μ.Apart root v a then (μ.kernel.step a).map fun κ => { μ with kernel := κ } else none

end Mutex

/-! ### The invariant -/

/-- The slot sleeps on the word, or is about to. -/
def Sleeper (root : Option Nat) (v : Nat) (κ : Futexes) (s : Nat) : Prop :=
  Procs.waitsOn root v (κ.procs s) ∨
    ∃ x ∈ κ.looked, x.slot = s ∧ x.addr = v ∧ (κ.procs s).root = root

/-- A thread is about to wake one, or its own sleep is over and its exchange still to come. -/
def Place.Cares (asleep : Prop) : Place → Prop
  | .wake | .again => True
  | .kernel => ¬ asleep
  | _ => False

namespace Mutex

variable {root : Option Nat} {v s t : Nat} {μ ν : Mutex} {κ : Futexes} {p : Place} {a : FutexAct}

/-- A thread will see to the others that sleep. -/
def Cares (root : Option Nat) (v : Nat) (μ : Mutex) (s : Nat) : Prop :=
  (μ.place s).Cares (Sleeper root v μ.kernel s)

structure Inv (root : Option Nat) (v : Nat) (μ : Mutex) : Prop where
  sleeps : ∃ H : Sleeps, H.Inv μ.kernel
  member : ∀ s, μ.place s ≠ .out → s < MAX_PROCS ∧ (μ.kernel.procs s).root = root
  held : μ.word root v ≠ 0 ↔ ∃ s, μ.place s = .holds
  one : ∀ s t, μ.place s = .holds → μ.place t = .holds → s = t
  place : ∀ s, Sleeper root v μ.kernel s → μ.place s = .kernel
  cares : (∃ s, Sleeper root v μ.kernel s) → μ.word root v = 2 ∨ ∃ s, μ.Cares root v s

theorem Runs.awake (h : μ.Runs root s) : ¬ Sleeper root v μ.kernel s := by
  rintro (hw | ⟨x, hx, hs, -⟩)
  · exact absurd (h.1.2.symm.trans hw.1) (by decide)
  · exact h.2.2 x hx hs

theorem Place.Cares.imp {P Q : Prop} (h : p.Cares P) (hQ : Q → P) : p.Cares Q := by
  cases p
  case kernel => exact fun hq => h (hQ hq)
  all_goals exact h

theorem Inv.moves (h : μ.Inv root v) (hsleeps : ∃ H : Sleeps, H.Inv κ)
    (hroot : ∀ t, (κ.procs t).root = (μ.kernel.procs t).root)
    (hs : p ≠ .out → s < MAX_PROCS ∧ (μ.kernel.procs s).root = root)
    (hsleep : ∀ t, t ≠ s → Sleeper root v κ t → Sleeper root v μ.kernel t)
    (hself : Sleeper root v κ s → p = .kernel)
    (hheld : κ.word root v ≠ 0 ↔ p = .holds ∨ ∃ t, t ≠ s ∧ μ.place t = .holds)
    (hone : p = .holds → ∀ t, t ≠ s → μ.place t ≠ .holds)
    (hcares : (∃ t, Sleeper root v κ t) → κ.word root v = 2 ∨ p.Cares (Sleeper root v κ s) ∨
      ∃ t, t ≠ s ∧ (μ.place t).Cares (Sleeper root v κ t)) :
    Inv root v ⟨κ, Function.update μ.place s p⟩ where
  sleeps := hsleeps
  member t ht := by
    rw [hroot t]
    by_cases e : t = s
    · subst e
      exact hs (by simpa using ht)
    · exact h.member t (by simpa [e] using ht)
  held := by
    refine hheld.trans ⟨fun hp => ?_, fun ⟨t, ht⟩ => ?_⟩
    · rcases hp with rfl | ⟨t, hne, ht⟩
      · exact ⟨s, Function.update_self ..⟩
      · exact ⟨t, by simpa [hne] using ht⟩
    · by_cases e : t = s
      · subst e
        exact .inl (by simpa using ht)
      · exact .inr ⟨t, e, by simpa [e] using ht⟩
  one t u ht hu := by
    by_cases et : t = s <;> by_cases eu : u = s
    · rw [et, eu]
    · subst et
      exact absurd (by simpa [eu] using hu) (hone (by simpa using ht) u eu)
    · subst eu
      exact absurd (by simpa [et] using ht) (hone (by simpa using hu) t et)
    · exact h.one t u (by simpa [et] using ht) (by simpa [eu] using hu)
  place t ht := by
    by_cases e : t = s
    · subst e
      simpa using hself ht
    · simpa [e] using h.place t (hsleep t e ht)
  cares ht := by
    rcases hcares ht with hw | hp | ⟨t, hne, hc⟩
    · exact .inl hw
    · exact .inr ⟨s, by simpa [Cares] using hp⟩
    · exact .inr ⟨t, by simpa [Cares, hne] using hc⟩

/-! ### Steps of the code -/

theorem Inv.put {x : UInt32} (h : μ.Inv root v) (hr : μ.Runs root s) (hp : p ≠ .kernel)
    (hheld : x ≠ 0 ↔ p = .holds ∨ ∃ t, t ≠ s ∧ μ.place t = .holds)
    (hone : p = .holds → ∀ t, t ≠ s → μ.place t ≠ .holds)
    (hcares : (∃ t, Sleeper root v μ.kernel t) → x = 2 ∨ p = .wake ∨
      ∃ t, t ≠ s ∧ μ.Cares root v t) : (μ.put root v s x p).Inv root v := by
  obtain ⟨H, hH⟩ := h.sleeps
  refine h.moves ⟨H, hH.step (a := .memory _) rfl⟩ (fun _ => rfl) (fun _ => ⟨hr.1.1, hr.2.1⟩)
    (fun _ _ => id) (fun hs => absurd hs hr.awake) ?_ hone fun ht => ?_
  · simpa using hheld
  · rcases hcares ht with rfl | rfl | hc
    · exact .inl (by simp)
    · exact .inr (.inl trivial)
    · exact .inr (.inr hc)

theorem Inv.goes (h : μ.Inv root v) (hr : μ.Runs root s) (hp : p ≠ .holds)
    (hs : μ.place s ≠ .holds) (hc : μ.Cares root v s → p.Cares (Sleeper root v μ.kernel s)) :
    (μ.goes s p).Inv root v := by
  refine h.moves h.sleeps (fun _ => rfl) (fun _ => ⟨hr.1.1, hr.2.1⟩) (fun _ _ => id)
    (fun hw => absurd hw hr.awake) ?_ (fun e => absurd e hp) fun ht => ?_
  · refine h.held.trans ⟨fun ⟨t, ht⟩ => .inr ⟨t, fun e => hs (e ▸ ht), ht⟩, fun ht => ?_⟩
    obtain ⟨t, -, ht⟩ := ht.resolve_left hp
    exact ⟨t, ht⟩
  · rcases h.cares ht with hw | ⟨t, hc'⟩
    · exact .inl hw
    · by_cases e : t = s
      · exact .inr (.inl (hc (e ▸ hc')))
      · exact .inr (.inr ⟨t, e, hc'⟩)

theorem Inv.others (h : μ.Inv root v) (hw : μ.word root v ≠ 2) (hs : ¬ μ.Cares root v s)
    (ht : ∃ t, Sleeper root v μ.kernel t) : ∃ t, t ≠ s ∧ μ.Cares root v t := by
  obtain ⟨t, hc⟩ := (h.cares ht).resolve_left hw
  exact ⟨t, fun e => hs (e ▸ hc), hc⟩

theorem Inv.free (h : μ.Inv root v) (hw : μ.word root v = 0) (t : Nat) : μ.place t ≠ .holds :=
  fun ht => h.held.mpr ⟨t, ht⟩ hw

theorem Inv.attempt {next : UInt32 → Place} (h : μ.Inv root v) (hr : μ.Runs root s)
    (hs : μ.place s = .out ∨ ∃ i, μ.place s = .spin i) (hnext : ∀ c, next c ≠ .holds) :
    (μ.attempt root v s next).Inv root v := by
  have hcare : ¬ μ.Cares root v s := by
    rcases hs with hs | ⟨i, hs⟩ <;> simp [Cares, hs, Place.Cares]
  rw [Mutex.attempt]
  split_ifs with hw
  · refine h.put hr nofun (iff_of_true (by decide) (.inl rfl)) (fun _ t _ => h.free hw t)
      fun ht => .inr (.inr (h.others (by rw [hw]; decide) hcare ht))
  · refine h.goes hr (hnext _) ?_ fun hc => absurd hc hcare
    rcases hs with hs | ⟨i, hs⟩ <;> simp [hs]

theorem Inv.exchange (h : μ.Inv root v) (hr : μ.Runs root s)
    (hs : μ.place s = .mark ∨ μ.place s = .again) : (μ.exchange root v s).Inv root v := by
  have hne : μ.place s ≠ .holds := by
    rcases hs with hs | hs <;> simp [hs]
  rw [Mutex.exchange]
  by_cases hw : μ.word root v = 0
  · rw [if_neg (not_not_intro hw)]
    exact h.put hr nofun (iff_of_true (by decide) (.inl rfl)) (fun _ t _ => h.free hw t)
      fun _ => .inl rfl
  · rw [if_pos hw]
    refine h.put hr nofun (iff_of_true (by decide) ?_) nofun fun _ => .inl rfl
    obtain ⟨t, ht⟩ := h.held.mp hw
    exact .inr ⟨t, fun e => hne (e ▸ ht), ht⟩

theorem Inv.unlock (h : μ.Inv root v) (hr : μ.Runs root s) (hs : μ.place s = .holds) :
    (μ.unlock root v s).Inv root v := by
  have hcare : ¬ μ.Cares root v s := by simp [Cares, hs, Place.Cares]
  have hfree : ∀ t, t ≠ s → μ.place t ≠ .holds := fun t hne ht => hne (h.one t s ht hs)
  rw [Mutex.unlock]
  split_ifs with hw
  · exact h.put hr nofun (iff_of_false (by simp) (by simpa using hfree)) nofun
      fun _ => .inr (.inl rfl)
  · exact h.put hr nofun (iff_of_false (by simp) (by simpa using hfree)) nofun
      fun ht => .inr (.inr (h.others hw hcare ht))

/-! ### Steps of the kernel -/

theorem sleeper_of_rouses {τ : Futexes} (h : κ.Rouses τ) (ht : Sleeper root v τ t) :
    Sleeper root v κ t := by
  rcases ht with hw | ⟨x, hx, hs, hv, hr⟩
  · exact .inl (h.asleep hw.1 ▸ hw)
  · exact .inr ⟨x, h.1 ▸ hx, hs, hv, h.space t ▸ hr⟩

theorem sleeper_of_sleep {x : Look} (hx : κ.looked = some x)
    (ht : Sleeper root v (κ.sleep x) t) : Sleeper root v κ t := by
  rcases ht with hw | ⟨y, hy, -⟩
  · by_cases e : t = x.slot
    · subst e
      obtain ⟨-, hr, hv⟩ : Procs.waitsOn root v
          { κ.procs x.slot with ret := 0, state := .futexWait, futexAddr := x.addr } := by
        simpa [Futexes.sleep] using hw
      exact .inr ⟨x, hx, rfl, hv, hr⟩
    · exact .inl (by simpa [Futexes.sleep, e] using hw)
  · cases hy

theorem Inv.calm (h : μ.Inv root v) (hsleeps : ∃ H : Sleeps, H.Inv κ)
    (hword : κ.word root v = μ.word root v)
    (hmember : ∀ t, μ.place t ≠ .out → t < MAX_PROCS ∧ (κ.procs t).root = root)
    (hsleep : ∀ t, Sleeper root v κ t → Sleeper root v μ.kernel t) :
    Inv root v { μ with kernel := κ } where
  sleeps := hsleeps
  member := hmember
  held := (iff_of_eq (congrArg (· ≠ 0) hword)).trans h.held
  one := h.one
  place t ht := h.place t (hsleep t ht)
  cares := by
    rintro ⟨t, ht⟩
    refine (h.cares ⟨t, hsleep t ht⟩).imp hword.trans ?_
    rintro ⟨u, hu⟩
    exact ⟨u, Place.Cares.imp hu (hsleep u)⟩

theorem Inv.rouses (h : μ.Inv root v) (hsleeps : ∃ H : Sleeps, H.Inv κ)
    (hword : κ.word root v = μ.word root v) (hr : μ.kernel.Rouses κ) :
    Inv root v { μ with kernel := κ } :=
  h.calm hsleeps hword (fun t ht => (h.member t ht).imp_right (hr.space t).trans)
    fun _ => sleeper_of_rouses hr

theorem Inv.kernel (h : μ.Inv root v) (ha : μ.Apart root v a)
    (hs : μ.kernel.step a = some κ) : Inv root v { μ with kernel := κ } := by
  obtain ⟨H, hH⟩ := h.sleeps
  have hsleeps : ∃ H : Sleeps, H.Inv κ := ⟨_, hH.step hs⟩
  have hact : μ.kernel.looked = none → μ.kernel.act a = some κ →
      Inv root v { μ with kernel := κ } := by
    intro hl hs
    cases a with
    | memory _ => cases hs
    | sleep => cases hs
    | look s addr val ticks =>
        obtain ⟨hr, hs⟩ := (Option.ite_none_right_eq_some ..).mp hs
        obtain rfl := Option.some.inj hs
        rw [Futexes.look] at hsleeps ⊢
        split_ifs at hsleeps ⊢
        · refine h.calm hsleeps rfl h.member fun t ht => ?_
          rcases ht with hw | ⟨x, hx, rfl, hv, hroot⟩
          · exact .inl hw
          · obtain rfl := Option.some.inj hx
            exact absurd hv (ha.2 hroot)
        all_goals exact h.rouses hsleeps rfl (Futexes.setRet_rouses hr.2)
    | wake s addr n | requeue s addr n m =>
        obtain ⟨hr, hs⟩ := (Option.ite_none_right_eq_some ..).mp hs
        obtain rfl := Option.some.inj hs
        exact h.rouses hsleeps rfl (Futexes.futexWake_rouses hr.2)
    | exit s mapped =>
        obtain ⟨-, hs⟩ := (Option.ite_none_right_eq_some ..).mp hs
        obtain rfl := Option.some.inj hs
        rw [Futexes.clearTid] at hsleeps ⊢
        split_ifs at hsleeps ⊢
        · refine h.rouses hsleeps ?_ ⟨rfl, Futexes.wake_rouses.2⟩
          by_cases hroot : root = (μ.kernel.procs s).root
          · have hne : v ≠ (μ.kernel.procs s).clearTid := (ha.2 hroot.symm).symm
            simp [Futexes.wake, Mutex.word, hroot, hne]
          · simp [Futexes.wake, Mutex.word, hroot]
        · exact h
    | clock now =>
        obtain rfl := Option.some.inj hs
        exact h.rouses hsleeps rfl Futexes.wakeSleepers_rouses
    | signal s =>
        obtain rfl := Option.some.inj hs
        refine h.rouses hsleeps ?_ Futexes.signal_rouses
        rw [Futexes.signal]
        split <;> rfl
    | other s p =>
        obtain ⟨hb, hs⟩ := (Option.ite_none_right_eq_some ..).mp hs
        obtain rfl := Option.some.inj hs
        refine h.calm hsleeps rfl (fun t ht => ?_) fun t ht => ?_
        all_goals by_cases e : t = s
        · subst e
          exact ⟨(h.member t ht).1, by simpa using (ha.resolve_left ht).1⟩
        · simpa [e] using h.member t ht
        · subst e
          rcases ht with hw | ⟨x, hx, -⟩
          · exact absurd (by simpa using hw.1) hb.1
          · rw [hl] at hx
            cases hx
        · simpa [Sleeper, e] using ht
  cases a with
  | memory w =>
      obtain rfl := Option.some.inj hs
      exact h.calm hsleeps ha h.member fun _ => id
  | sleep =>
      obtain ⟨x, hx, rfl⟩ := Option.map_eq_some_iff.mp hs
      refine h.calm hsleeps rfl (fun t ht => ?_) fun _ => sleeper_of_sleep hx
      by_cases e : t = x.slot
      · subst e
        simpa [Futexes.sleep] using h.member x.slot ht
      · simpa [Futexes.sleep, e] using h.member t ht
  | _ =>
      obtain ⟨hl, hs⟩ := (Option.ite_none_right_eq_some ..).mp hs
      exact hact (Option.isNone_iff_eq_none.mp hl) hs

/-- `sys_futex_wait` of a thread. -/
theorem Inv.waits (h : μ.Inv root v) (hr : μ.Runs root s) (hp : μ.place s = .wait)
    (hs : μ.waits v s = some ν) : ν.Inv root v := by
  obtain ⟨H, hH⟩ := h.sleeps
  obtain ⟨κ, hκ, rfl⟩ := Option.map_eq_some_iff.mp hs
  have hsleeps : ∃ H : Sleeps, H.Inv κ := ⟨_, hH.step hκ⟩
  obtain ⟨hl, hκ⟩ := (Option.ite_none_right_eq_some ..).mp hκ
  obtain ⟨-, hκ⟩ := (Option.ite_none_right_eq_some ..).mp hκ
  obtain rfl := Option.some.inj hκ
  have hother : (∃ t, t ≠ s ∧ μ.place t = .holds) ↔ ∃ t, μ.place t = .holds := by
    refine exists_congr fun t => and_iff_right_of_imp fun ht e => ?_
    rw [e, hp] at ht
    cases ht
  by_cases hv : μ.word root v = 2
  · have hlook : μ.kernel.look s v 2 0 = { μ.kernel with looked := some ⟨s, v, 0⟩ } :=
      if_pos (by rw [hr.2.1]; exact hv)
    rw [hlook] at hsleeps ⊢
    refine h.moves hsleeps (fun _ => rfl) (fun _ => ⟨hr.1.1, hr.2.1⟩) (fun t hne ht => ?_)
      (fun _ => rfl) (h.held.trans ?_) nofun fun _ => .inl hv
    · rcases ht with hw | ⟨x, hx, he, -⟩
      · exact .inl hw
      · obtain rfl := Option.some.inj hx
        exact absurd he.symm hne
    · rw [hother]
      simp
  · have hlook : μ.kernel.look s v 2 0 = { μ.kernel with
        procs := μ.kernel.procs.setRet s
          (if μ.kernel.linux s then 2 ^ 64 - 11 else 2 ^ 64 - 1) } :=
      if_neg (by rw [hr.2.1]; exact hv)
    have hrouse := Futexes.setRet_rouses (v := if μ.kernel.linux s then 2 ^ 64 - 11 else 2 ^ 64 - 1)
      hr.1.2
    have hplace : (if (μ.kernel.look s v 2 0).looked.isSome then Place.kernel else .again) =
        .again := by
      simp [hlook, Option.isNone_iff_eq_none.mp hl]
    rw [hplace]
    rw [hlook] at hsleeps ⊢
    refine h.moves hsleeps hrouse.space (fun _ => ⟨hr.1.1, hr.2.1⟩)
      (fun t _ => sleeper_of_rouses hrouse)
      (fun ht => absurd (sleeper_of_rouses hrouse ht) hr.awake) (h.held.trans ?_) nofun
      fun _ => .inr (.inl trivial)
    rw [hother]
    simp

/-- `sys_futex_wake` of a thread: whoever still sleeps then leaves a thread that was woken. -/
theorem Inv.wakes (h : μ.Inv root v) (hr : μ.Runs root s) (hp : μ.place s = .wake)
    (hs : μ.wakes v s = some ν) : ν.Inv root v := by
  obtain ⟨H, hH⟩ := h.sleeps
  obtain ⟨κ, hκ, rfl⟩ := Option.map_eq_some_iff.mp hs
  have hsleeps : ∃ H : Sleeps, H.Inv κ := ⟨_, hH.step hκ⟩
  obtain ⟨hl, hκ⟩ := (Option.ite_none_right_eq_some ..).mp hκ
  obtain ⟨-, hκ⟩ := (Option.ite_none_right_eq_some ..).mp hκ
  obtain rfl := Option.some.inj hκ
  have hnone : μ.kernel.looked = none := Option.isNone_iff_eq_none.mp hl
  have hrouse : μ.kernel.Rouses (μ.kernel.futexWake s v 1) := Futexes.futexWake_rouses hr.1.2
  refine h.moves hsleeps hrouse.space (fun _ => ⟨hr.1.1, hr.2.1⟩)
    (fun t _ => sleeper_of_rouses hrouse)
    (fun ht => absurd (sleeper_of_rouses hrouse ht) hr.awake) (h.held.trans ?_) nofun ?_
  · refine ⟨fun ⟨t, ht⟩ => .inr ⟨t, fun e => by simp [e, hp] at ht, ht⟩, fun ht => ?_⟩
    obtain ⟨t, -, ht⟩ := ht.resolve_left nofun
    exact ⟨t, ht⟩
  · rintro ⟨t, ht⟩
    rcases sleeper_of_rouses hrouse ht with hw | ⟨x, hx, -⟩
    · obtain ⟨u, us, hus⟩ : ∃ u us, μ.kernel.procs.waiters (μ.kernel.procs s).root v
          (List.range MAX_PROCS) = u :: us := by
        refine List.exists_cons_of_ne_nil (List.ne_nil_of_mem (a := t) ?_)
        rw [hr.2.1]
        exact Procs.mem_waiters.mpr ⟨List.mem_range.mpr (hH.bound t hw.1), hw⟩
      have hmem : u ∈ μ.kernel.procs.waiters (μ.kernel.procs s).root v (List.range MAX_PROCS) := by
        rw [hus]
        exact List.mem_cons_self
      obtain ⟨hwait, hready⟩ := (Futexes.futexWake_woken (i := u) (n := 1) hr.1.2).mpr
        (by rw [hus]; exact List.mem_cons_self)
      have hsleeper : Sleeper root v μ.kernel u := .inl (hr.2.1 ▸ (Procs.mem_waiters.mp hmem).2)
      refine .inr (.inr ⟨u, fun e => ?_, ?_⟩)
      · exact absurd ((e ▸ hwait).symm.trans hr.1.2) (by decide)
      · rw [h.place u hsleeper]
        rintro (hw | ⟨x, hx, -⟩)
        · exact absurd (hready.symm.trans hw.1) (by decide)
        · rw [hrouse.1, hnone] at hx
          cases hx
    · rw [hnone] at hx
      cases hx

theorem Inv.thread (h : μ.Inv root v) (hr : μ.Runs root s) (hs : μ.thread root v s = some ν) :
    ν.Inv root v := by
  rw [Mutex.thread] at hs
  cases hp : μ.place s with
  | out | holds => simp [hp] at hs
  | spin i =>
      simp only [hp] at hs
      refine Option.some.inj hs ▸ h.attempt hr (.inr ⟨i, hp⟩) fun c => ?_
      rw [afterSpin]
      split_ifs <;> exact nofun
  | mark | again =>
      simp only [hp] at hs
      exact Option.some.inj hs ▸ h.exchange hr (by simp [hp])
  | wait =>
      simp only [hp] at hs
      exact h.waits hr hp hs
  | kernel =>
      simp only [hp] at hs
      exact Option.some.inj hs ▸ h.goes hr nofun (by simp [hp]) fun _ => trivial
  | wake =>
      simp only [hp] at hs
      exact h.wakes hr hp hs

theorem Inv.step {e : MutexAct} (h : μ.Inv root v) (hs : μ.step root v e = some ν) :
    ν.Inv root v := by
  cases e with
  | lock s =>
      obtain ⟨⟨hr, hp⟩, hs⟩ := (Option.ite_none_right_eq_some ..).mp hs
      exact Option.some.inj hs ▸ h.attempt hr (.inl hp) fun _ => nofun
  | unlock s =>
      obtain ⟨⟨hr, hp⟩, hs⟩ := (Option.ite_none_right_eq_some ..).mp hs
      exact Option.some.inj hs ▸ h.unlock hr hp
  | thread s =>
      obtain ⟨hr, hs⟩ := (Option.ite_none_right_eq_some ..).mp hs
      exact h.thread hr hs
  | refused s =>
      obtain ⟨⟨hr, hp⟩, hs⟩ := (Option.ite_none_right_eq_some ..).mp hs
      exact Option.some.inj hs ▸ h.goes hr nofun (by simp [hp]) fun _ => trivial
  | other a =>
      obtain ⟨ha, hs⟩ := (Option.ite_none_right_eq_some ..).mp hs
      obtain ⟨κ, hκ, rfl⟩ := Option.map_eq_some_iff.mp hs
      exact h.kernel ha hκ

/-! ### Runs -/

/-- The mutex is free, nobody is in its code, and no thread sleeps yet. -/
def Fresh (root : Option Nat) (v : Nat) (μ : Mutex) : Prop :=
  μ.kernel.Fresh ∧ μ.word root v = 0 ∧ ∀ s, μ.place s = .out

/-- The runs of the threads that use a mutex. -/
abbrev Contended (root : Option Nat) (v : Nat) : Mutex → Prop :=
  Reached (step root v) (Fresh root v) fun _ _ => True

theorem contended_inv (h : Contended root v μ) : μ.Inv root v := by
  refine h.invariant (fun μ hμ => ?_) fun μ e ν hI _ hs => hI.step hs
  obtain ⟨hfresh, hword, hout⟩ := hμ
  have hnone : ∀ s, ¬ Sleeper root v μ.kernel s := by
    rintro s (hw | ⟨x, hx, -⟩)
    · exact hfresh.2 s hw.1
    · rw [hfresh.1] at hx
      cases hx
  exact {
    sleeps := ⟨.none, Sleeps.Inv.fresh hfresh⟩
    member := fun s hs => absurd (hout s) hs
    held := iff_of_false (not_not_intro hword) fun ⟨s, hs⟩ => nomatch (hout s).symm.trans hs
    one := fun s t hs => nomatch (hout s).symm.trans hs
    place := fun s hs => absurd hs (hnone s)
    cares := fun ⟨s, hs⟩ => absurd hs (hnone s) }

end Mutex

open Mutex

/-- **The mutex**: at most one thread has it; and if it is free while a thread sleeps, a thread is
about to wake one, or the sleep of one is over and its exchange still to come. -/
theorem mutex_sound {root : Option Nat} {v : Nat} {μ : Mutex} (h : Contended root v μ) :
    (∀ s t, μ.place s = .holds → μ.place t = .holds → s = t) ∧
    (μ.word root v = 0 → (∃ s, Procs.waitsOn root v (μ.kernel.procs s)) →
      ∃ s, μ.place s = .wake ∨ μ.place s = .again ∨
        μ.place s = .kernel ∧ ¬ Sleeper root v μ.kernel s) := by
  have hinv := contended_inv h
  refine ⟨hinv.one, fun hw ⟨s, hs⟩ => ?_⟩
  obtain ⟨t, ht⟩ := (hinv.cares ⟨s, .inl hs⟩).resolve_left (by rw [hw]; decide)
  refine ⟨t, ?_⟩
  cases hp : μ.place t with
  | kernel => exact .inr (.inr ⟨rfl, by simpa [Cares, hp, Place.Cares] using ht⟩)
  | wake => exact .inl rfl
  | again => exact .inr (.inl rfl)
  | _ => simp [Cares, hp, Place.Cares] at ht

/-- A thread has the mutex, two others sleep, and one of them has been woken. -/
def handover : List MutexAct :=
  [.lock 0] ++ [.lock 1] ++ List.replicate 66 (.thread 1) ++ [.other .sleep] ++
  [.lock 2] ++ List.replicate 65 (.thread 2) ++ [.other .sleep] ++ [.unlock 0, .thread 0]

/-- Three threads of one process run. -/
def mutexThreads : Mutex :=
  { kernel :=
      { procs := fun s => { Process.empty with
          state := if s < 3 then .running else .unused
          root := some 5 }
        linux := fun _ => false, wakeAt := fun _ => 0, now := 0, word := fun _ _ => 0
        looked := none }
    place := fun _ => .out }

theorem handover_run : ∃ μ, Contended (some 5) 64 μ ∧ μ.word (some 5) 64 = 0 ∧
    Procs.waitsOn (some 5) 64 (μ.kernel.procs 2) ∧ ∀ s < MAX_PROCS, μ.place s ≠ .wake := by
  have hfresh : Contended (some 5) 64 mutexThreads := by
    refine .init ⟨⟨rfl, fun s => ?_⟩, rfl, fun _ => rfl⟩
    dsimp only [mutexThreads]
    split_ifs <;> decide
  have hrun : (Runs.run (step (some 5) 64) (fun _ _ => True) handover mutexThreads).any
      (fun μ => decide (μ.word (some 5) 64 = 0 ∧ Procs.waitsOn (some 5) 64 (μ.kernel.procs 2) ∧
        ∀ s < MAX_PROCS, μ.place s ≠ .wake)) = true := by
    decide +kernel
  exact hfresh.run_any hrun

/-- A thread of those that sleep has been woken, and has not come to its exchange. -/
theorem mutex_sound_handover : ∃ μ : Mutex, Procs.waitsOn (some 5) 64 (μ.kernel.procs 2) ∧
    ∃ s, μ.place s = .wake ∨ μ.place s = .again ∨
      μ.place s = .kernel ∧ ¬ Sleeper (some 5) 64 μ.kernel s := by
  obtain ⟨μ, hμ, hword, hwait, -⟩ := handover_run
  exact ⟨μ, hwait, (mutex_sound hμ).2 hword ⟨2, hwait⟩⟩

/-- Between a wake and the exchange of the thread that was woken, the mutex is free, another thread
sleeps, and no wake is still to come. -/
theorem free_while_asleep : ¬ ∀ μ, Contended (some 5) 64 μ → μ.word (some 5) 64 = 0 →
    (∃ s, Procs.waitsOn (some 5) 64 (μ.kernel.procs s)) → ∃ s, μ.place s = .wake := by
  intro hall
  obtain ⟨μ, hμ, hword, hwait, hnone⟩ := handover_run
  obtain ⟨s, hs⟩ := hall μ hμ hword ⟨2, hwait⟩
  exact hnone s ((contended_inv hμ).member s (by simp [hs])).1 hs

end Pulsar.Libc

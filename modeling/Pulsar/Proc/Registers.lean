import Pulsar.Arch.Context

/-!
# The registers of threads (`process.rs`, `arch/*/context.rs`, `trap.S`)

A trap saves the registers of the thread in a frame, which the kernel changes and the return loads.
The floating-point registers stay in the processor: `dispatch` saves them when another thread is
chosen, and on riscv64 only when they are dirty.  The base of `%gs` on x86_64 stays there too, and
nothing saves it; that of `%fs` is in the frame, but a return does not load it when it is 0.

`Registers` has the threads and the processors; any ready slot may be chosen.  Beside a run stands
what each thread's registers are (`View`): what it left there itself, or what the operation that
made or changed them says.

* **`Registers.registers_kept`**: the registers that user code finds are those of its thread.
-/

namespace Pulsar.Proc

open Runs

/-- What the scheduler and the entries of the kernel do to the registers `C` of a frame, and the
floating-point registers `F`. -/
class Hardware (C : Type) (F : outParam Type) extends Context C where
  newUser : BitVec 64 → BitVec 64 → C
  setSp : BitVec 64 → C → C
  setTls : BitVec 64 → C → C
  fpTakeDirty : C → Bool × C
  markFpDirty : C → C
  zeroed : F
  /-- The frame `f` is loaded on a processor that has the registers `r`. -/
  enter (r f : C) : C
  /-- What user code can see. -/
  seen : C → C
  /-- There is a call that sets the base of `%gs`. -/
  hasGs : Bool
  seen_take : ∀ c, seen (fpTakeDirty c).2 = seen c
  seen_mark : ∀ c, seen (markFpDirty c) = seen c
  take_mark : ∀ c, (fpTakeDirty (markFpDirty c)).1 = true
  seen_setRet : ∀ v c, seen (setRet v c) = setRet v (seen c)
  seen_setSp : ∀ v c, seen (setSp v c) = setSp v (seen c)
  seen_setTls : ∀ v c, seen (setTls v c) = setTls v (seen c)
  seen_rewind : ∀ c, seen (rewindSyscall c) = rewindSyscall (seen c)
  seen_skip : ∀ c, seen (skipSyscall c) = skipSyscall (seen c)
  take_setRet : ∀ v c, (fpTakeDirty (setRet v c)).1 = (fpTakeDirty c).1
  take_setTls : ∀ v c, (fpTakeDirty (setTls v c)).1 = (fpTakeDirty c).1
  take_rewind : ∀ c, (fpTakeDirty (rewindSyscall c)).1 = (fpTakeDirty c).1
  take_skip : ∀ c, (fpTakeDirty (skipSyscall c)).1 = (fpTakeDirty c).1

open Hardware

variable {C F : Type}

/-- A change that the kernel makes to the registers of a thread, from these registers and what the
call is given: its result, a restart, the start of a handler, the registers of `rt_sigreturn`. -/
structure Change (C : Type) {F : Type} [Hardware C F] where
  fn : C → C
  seen : ∀ a b, Hardware.seen a = Hardware.seen b → Hardware.seen (fn a) = Hardware.seen (fn b)
  dirty : ∀ c, (fpTakeDirty (fn c)).1 = (fpTakeDirty c).1

namespace Change

variable [Hardware C F]

/-- A change that does to what is seen what it does to all. -/
def of (fn : C → C) (hseen : ∀ c, Hardware.seen (fn c) = fn (Hardware.seen c))
    (hdirty : ∀ c, (fpTakeDirty (fn c)).1 = (fpTakeDirty c).1) : Change C :=
  ⟨fn, fun a b h => by rw [hseen, hseen, h], hdirty⟩

def setRet (v : Nat) : Change C := .of (Context.setRet v) (seen_setRet v) (take_setRet v)
def setTls (v : BitVec 64) : Change C := .of (Hardware.setTls v) (seen_setTls v) (take_setTls v)
def rewindSyscall : Change C := .of Context.rewindSyscall seen_rewind take_rewind
def skipSyscall : Change C := .of Context.skipSyscall seen_skip take_skip

end Change

/-- The registers of a new thread, from the frame of the call that makes it. -/
def cloned [Hardware C F] (stack : BitVec 64) (tls : Option (BitVec 64)) (c : C) : C :=
  let c := Context.setRet 0 c
  let c := if stack ≠ 0 then setSp stack c else c
  match tls with
  | some v => setTls v c
  | none => c

/-- A slot. -/
structure Thread (C F : Type) where
  state : State
  ctx : C
  fp : F

/-- A processor: the thread that is current, whether user code runs, the registers it runs with, the
frame of the last trap, the floating-point registers and the base of `%gs`. -/
structure Cpu (C F : Type) where
  current : Option Nat
  user : Bool
  regs : C
  frame : C
  fpu : F
  gs : BitVec 64

structure Registers (C F : Type) where
  threads : Nat → Thread C F
  cpus : Nat → Cpu C F

namespace Registers

def edit (t : Nat) (f : Thread C F → Thread C F) (σ : Registers C F) : Registers C F :=
  { σ with threads := Function.update σ.threads t (f (σ.threads t)) }

def onCpu (c : Nat) (f : Cpu C F → Cpu C F) (σ : Registers C F) : Registers C F :=
  { σ with cpus := Function.update σ.cpus c (f (σ.cpus c)) }

@[simp] theorem edit_cpus (t : Nat) (f : Thread C F → Thread C F) (σ : Registers C F) :
    (σ.edit t f).cpus = σ.cpus := rfl

@[simp] theorem onCpu_threads (c : Nat) (f : Cpu C F → Cpu C F) (σ : Registers C F) :
    (σ.onCpu c f).threads = σ.threads := rfl

@[simp] theorem edit_self (t : Nat) (f : Thread C F → Thread C F) (σ : Registers C F) :
    (σ.edit t f).threads t = f (σ.threads t) := Function.update_self ..

@[simp] theorem onCpu_self (c : Nat) (f : Cpu C F → Cpu C F) (σ : Registers C F) :
    (σ.onCpu c f).cpus c = f (σ.cpus c) := Function.update_self ..

theorem edit_of_ne {t u : Nat} (h : u ≠ t) (f : Thread C F → Thread C F) (σ : Registers C F) :
    (σ.edit t f).threads u = σ.threads u := Function.update_of_ne h ..

theorem onCpu_of_ne {c d : Nat} (h : d ≠ c) (f : Cpu C F → Cpu C F) (σ : Registers C F) :
    (σ.onCpu c f).cpus d = σ.cpus d := Function.update_of_ne h ..

variable [Hardware C F]

/-! ### The scheduler -/

/-- The floating-point registers of slot `t` are saved, if they are dirty. -/
def saveFp (fpu : F) (p : Thread C F) : Thread C F :=
  if (fpTakeDirty p.ctx).1 then { p with ctx := (fpTakeDirty p.ctx).2, fp := fpu } else p

/-- The floating-point registers of the chosen thread are restored. -/
def restoreFp (c : Nat) (o : Option Nat) (σ : Registers C F) : Registers C F :=
  match o with
  | some t => σ.onCpu c fun p => { p with fpu := (σ.threads t).fp }
  | none => σ

/-- The floating-point registers, when the thread that has them changes. -/
def switchFp (c : Nat) (o : Option Nat) (σ : Registers C F) : Registers C F :=
  match (σ.cpus c).current with
  | some t => (σ.edit t (saveFp (σ.cpus c).fpu)).restoreFp c o
  | none => σ.restoreFp c o

/-- The chosen thread becomes current, or the idle loop, whose frame is left out. -/
def load (c : Nat) (o : Option Nat) (σ : Registers C F) : Registers C F :=
  match o with
  | some t =>
    (σ.edit t fun p => { p with state := .running }).onCpu c fun p =>
      { p with current := some t, frame := (σ.threads t).ctx }
  | none => σ.onCpu c fun p => { p with current := none }

/-- `dispatch`, with the slot it chooses. -/
def dispatch (c : Nat) (o : Option Nat) (σ : Registers C F) : Registers C F :=
  (if o = (σ.cpus c).current then σ else σ.switchFp c o).load c o

/-- The frame of slot `t`, current on `c`, is saved, and it is in state `st`. -/
def save (c t : Nat) (st : State) (σ : Registers C F) : Registers C F :=
  σ.edit t fun p => { p with ctx := (σ.cpus c).frame, state := st }

/-- The slot can be chosen. -/
def Ready (o : Option Nat) (σ : Registers C F) : Prop := ∀ t ∈ o, (σ.threads t).state = .ready

instance (o : Option Nat) (σ : Registers C F) : Decidable (σ.Ready o) :=
  match o with
  | none => isTrue fun _ h => nomatch h
  | some t => decidable_of_iff ((σ.threads t).state = .ready)
      ⟨fun h _ hu => Option.some.inj hu ▸ h, fun h => h t rfl⟩

/-- A slot that waits. -/
def Waits (st : State) : Prop := st ≠ .unused ∧ st ≠ .zombie ∧ st ≠ .ready ∧ st ≠ .running

instance (st : State) : Decidable (Waits st) :=
  inferInstanceAs (Decidable (st ≠ .unused ∧ st ≠ .zombie ∧ st ≠ .ready ∧ st ≠ .running))

/-- The state of a slot that is over. -/
def ended (zombie : Bool) : State := if zombie then .zombie else .unused

/-- Slot `t` is current on `c`, in the kernel. -/
def Inside (c t : Nat) (σ : Registers C F) : Prop :=
  (σ.cpus c).current = some t ∧ (σ.cpus c).user = false

instance (c t : Nat) (σ : Registers C F) : Decidable (σ.Inside c t) :=
  inferInstanceAs (Decidable ((σ.cpus c).current = some t ∧ (σ.cpus c).user = false))

end Registers

/-! ### The system -/

/-- What happens; `t` is the current slot of processor `c` where both are given first. -/
inductive RegAct (C F : Type) [Hardware C F] where
  /-- User code enters the kernel. -/
  | trap (c t : Nat)
  /-- Back to user code. -/
  | resume (c t : Nat)
  /-- User code changes its registers, and perhaps those of floating point. -/
  | user (c t : Nat) (regs : C) (fpu : Option F)
  | schedule (c t : Nat) (o : Option Nat)
  | block (c t : Nat) (st : State) (o : Option Nat)
  /-- `exit_locked`. -/
  | exit (c t : Nat) (zombie : Bool) (o : Option Nat)
  /-- `enter_scheduler`, or a tick or an IPI on an idle processor. -/
  | idle (c : Nat) (o : Option Nat)
  /-- What the call of the current thread, or a signal, does to its frame. -/
  | change (c t : Nat) (g : Change C)
  | sigreturn (c t : Nat) (g : Change C) (fp : F)
  /-- `arch_prctl(ARCH_SET_GS, v)`. -/
  | setGs (c t : Nat) (v : BitVec 64)
  | execReplace (c t : Nat) (entry sp : BitVec 64)
  /-- `clone_thread` and `fork`, up to the wait of a `vfork`: slot `i` begins. -/
  | clone (c t i : Nat) (stack : BitVec 64) (tls : Option (BitVec 64))
  /-- `thread_create`. -/
  | threadCreate (i : Nat) (entry sp : BitVec 64) (arg : Nat)
  | create (i : Nat) (entry sp : BitVec 64)
  /-- A slot that waits goes on. -/
  | wake (t : Nat) (g : Change C)
  /-- A slot that does not run is over, or what was left of it is. -/
  | reap (t : Nat) (zombie : Bool)

namespace Registers

variable [Hardware C F]

/-- One act, where it can happen. -/
def step (σ : Registers C F) : RegAct C F → Option (Registers C F)
  | .trap c t =>
    if (σ.cpus c).current = some t ∧ (σ.cpus c).user = true then
      some (σ.onCpu c fun p => { p with user := false, frame := p.regs })
    else none
  | .resume c t =>
    if σ.Inside c t then
      some (σ.onCpu c fun p => { p with user := true, regs := enter p.regs p.frame })
    else none
  | .user c t regs fpu =>
    -- registers of floating point that are written become dirty, and dirty ones stay so
    if (σ.cpus c).current = some t ∧ (σ.cpus c).user = true ∧
        (fpu.isSome = true ∨ (fpTakeDirty (σ.cpus c).regs).1 = true →
          (fpTakeDirty regs).1 = true) then
      some (σ.onCpu c fun p => { p with regs := regs, fpu := fpu.getD p.fpu })
    else none
  | .schedule c t o =>
    let τ := σ.save c t .ready
    if σ.Inside c t ∧ τ.Ready o then some (τ.dispatch c o) else none
  | .block c t st o =>
    let τ := σ.save c t st
    if σ.Inside c t ∧ Waits st ∧ τ.Ready o then some (τ.dispatch c o) else none
  | .exit c t zombie o =>
    let τ := (σ.save c t (ended zombie)).onCpu c fun p => { p with current := none }
    if σ.Inside c t ∧ τ.Ready o then some (τ.dispatch c o) else none
  | .idle c o => if (σ.cpus c).current = none ∧ σ.Ready o then some (σ.dispatch c o) else none
  | .change c t g =>
    if σ.Inside c t then some (σ.onCpu c fun p => { p with frame := g.fn p.frame }) else none
  | .sigreturn c t g fp =>
    if σ.Inside c t then
      some (σ.onCpu c fun p => { p with frame := markFpDirty (g.fn p.frame), fpu := fp })
    else none
  | .setGs c t v =>
    if σ.Inside c t ∧ hasGs C = true then some (σ.onCpu c fun p => { p with gs := v }) else none
  | .execReplace c t entry sp =>
    if σ.Inside c t then
      some ((σ.edit t fun p => { p with fp := zeroed C }).onCpu c fun p =>
        { p with frame := newUser entry sp, fpu := zeroed C })
    else none
  | .clone c t i stack tls =>
    if σ.Inside c t ∧ (σ.threads i).state = .unused then
      some (σ.edit i fun _ => ⟨.ready, cloned stack tls (σ.cpus c).frame, (σ.cpus c).fpu⟩)
    else none
  | .threadCreate i entry sp arg =>
    if (σ.threads i).state = .unused then
      some (σ.edit i fun _ => ⟨.ready, Context.setRet arg (newUser entry sp), zeroed C⟩)
    else none
  | .create i entry sp =>
    if (σ.threads i).state = .unused then
      some (σ.edit i fun _ => ⟨.ready, newUser entry sp, zeroed C⟩)
    else none
  | .wake t g =>
    if Waits (σ.threads t).state then
      some (σ.edit t fun p => { p with ctx := g.fn p.ctx, state := .ready })
    else none
  | .reap t zombie =>
    if (σ.threads t).state ≠ .running ∧ (σ.threads t).state ≠ .unused then
      some (σ.edit t fun p => { p with state := ended zombie })
    else none

/-- No thread yet, and every processor idle. -/
def Boot (σ : Registers C F) : Prop :=
  (∀ t, (σ.threads t).state = .unused) ∧
    ∀ c, (σ.cpus c).current = none ∧ (σ.cpus c).user = false ∧ (σ.cpus c).gs = 0

/-! ### The registers of a thread -/

end Registers

/-- What a thread has in its registers. -/
structure View (C F : Type) where
  ctx : C
  fp : F
  gs : BitVec 64

namespace View

variable [Hardware C F]

/-- What the threads have in their registers after an act. -/
def note (_ : Registers C F) (a : RegAct C F) (_ : Registers C F) (own : Nat → View C F) :
    Nat → View C F :=
  let put := fun t v => Function.update own t v
  match a with
  | .user _ t regs fpu => put t { own t with ctx := regs, fp := fpu.getD (own t).fp }
  | .change _ t g => put t { own t with ctx := g.fn (own t).ctx }
  | .sigreturn _ t g fp => put t { own t with ctx := g.fn (own t).ctx, fp := fp }
  | .setGs _ t v => put t { own t with gs := v }
  | .execReplace _ t entry sp => put t ⟨newUser entry sp, zeroed C, 0⟩
  | .clone _ t i stack tls => put i { own t with ctx := cloned stack tls (own t).ctx }
  | .threadCreate i entry sp arg => put i ⟨Context.setRet arg (newUser entry sp), zeroed C, 0⟩
  | .create i entry sp => put i ⟨newUser entry sp, zeroed C, 0⟩
  | .wake t g => put t { own t with ctx := g.fn (own t).ctx }
  | _ => own

end View

namespace Registers

/-- The processors with the bases of `%gs` that they had. -/
def SameGs (σ τ : Registers C F) : Prop := ∀ c, (τ.cpus c).gs = (σ.cpus c).gs

theorem sameGs_onCpu {σ : Registers C F} (c : Nat) (f : Cpu C F → Cpu C F)
    (h : (f (σ.cpus c)).gs = (σ.cpus c).gs) : SameGs σ (σ.onCpu c f) := fun d => by
  by_cases e : d = c
  · rw [e, onCpu_self, h]
  · rw [onCpu_of_ne e]

theorem SameGs.trans {σ τ μ : Registers C F} (h : SameGs σ τ)
    (h' : SameGs τ μ) : SameGs σ μ :=
  fun c => (h' c).trans (h c)

theorem flat_put {own : Nat → View C F} {t : Nat} (h : ∀ t, (own t).gs = 0) {v : View C F}
    (hv : v.gs = 0) : ∀ u, (Function.update own t v u).gs = 0 := fun u => by
  by_cases e : u = t
  · rw [e, Function.update_self]
    exact hv
  · rw [Function.update_of_ne e]
    exact h u

variable [Hardware C F]

/-- User code finds the registers of its thread. -/
def Faithful (σ : Registers C F) (own : Nat → View C F) : Prop :=
  ∀ c t, (σ.cpus c).current = some t → (σ.cpus c).user = true →
    seen (σ.cpus c).regs = seen (own t).ctx ∧ (σ.cpus c).fpu = (own t).fp ∧
      (σ.cpus c).gs = (own t).gs

/-- No base of `%gs` but 0 is set, and a frame is loaded as it is. -/
def Plain (σ : Registers C F) : RegAct C F → Prop
  | .setGs _ _ v => v = 0
  | .resume c _ => enter (σ.cpus c).regs (σ.cpus c).frame = (σ.cpus c).frame
  | _ => True

/-! ### What one act keeps -/

/-- A processor has the registers of its current thread. -/
structure On (p : Cpu C F) (th : Thread C F) (v : View C F) : Prop where
  ctx : seen (if p.user then p.regs else p.frame) = seen v.ctx
  fp : p.fpu = v.fp
  clean : (fpTakeDirty (if p.user then p.regs else p.frame)).1 = false → th.fp = p.fpu

/-- The registers of a thread that is current nowhere are saved. -/
def Saved (th : Thread C F) (v : View C F) : Prop :=
  th.state ≠ .unused → th.state ≠ .zombie → seen th.ctx = seen v.ctx ∧ th.fp = v.fp

/-- The registers of every thread are on the one processor where it is current, or saved; but for
the processors `away`, which have none, and the slots `loose`. -/
structure Held (away loose : Nat → Prop) (σ : Registers C F) (own : Nat → View C F) : Prop where
  one : ∀ c d t, ¬ away c → ¬ away d → (σ.cpus c).current = some t → (σ.cpus d).current = some t →
    c = d
  runs : ∀ c t, ¬ away c → (σ.cpus c).current = some t → (σ.threads t).state = .running
  on : ∀ c t, ¬ away c → (σ.cpus c).current = some t → On (σ.cpus c) (σ.threads t) (own t)
  off : ∀ t, ¬ loose t → (∀ c, ¬ away c → (σ.cpus c).current ≠ some t) → Saved (σ.threads t) (own t)
  kernel : ∀ c, away c ∨ (σ.cpus c).current = none → (σ.cpus c).user = false

/-- No slot, or no processor. -/
abbrev No : Nat → Prop := fun _ => False

section Acts

variable {σ τ : Registers C F} {own own' : Nat → View C F} {c t i : Nat} {o : Option Nat}
  {st : State}

theorem Held.at (h : Held No No σ own) (hc : (σ.cpus c).current = some t)
    (hcpus : ∀ d, d ≠ c → τ.cpus d = σ.cpus d) (hthreads : ∀ u, u ≠ t → τ.threads u = σ.threads u)
    (hown : ∀ u, u ≠ t → own' u = own u) (hcur : (τ.cpus c).current = some t)
    (hst : (τ.threads t).state = .running) (hon : On (τ.cpus c) (τ.threads t) (own' t)) :
    Held No No τ own' := by
  have hcurrent : ∀ d, (τ.cpus d).current = (σ.cpus d).current := fun d => by
    by_cases e : d = c
    · rw [e, hcur, hc]
    · rw [hcpus d e]
  have hother : ∀ d u, d ≠ c → (σ.cpus d).current = some u → u ≠ t := fun d u e hd hu =>
    e (h.one d c t id id (hu ▸ hd) hc)
  refine ⟨fun d d' u _ _ h₁ h₂ => ?_, fun d u _ hd => ?_, fun d u _ hd => ?_, fun u _ hu => ?_,
    fun d hd => ?_⟩
  · exact h.one d d' u id id (hcurrent d ▸ h₁) (hcurrent d' ▸ h₂)
  · rw [hcurrent d] at hd
    by_cases e : d = c
    · obtain rfl : t = u := Option.some.inj (hc.symm.trans (e ▸ hd))
      exact hst
    · rw [hthreads u (hother d u e hd)]
      exact h.runs d u id hd
  · rw [hcurrent d] at hd
    by_cases e : d = c
    · obtain rfl : t = u := Option.some.inj (hc.symm.trans (e ▸ hd))
      exact e ▸ hon
    · rw [hcpus d e, hthreads u (hother d u e hd), hown u (hother d u e hd)]
      exact h.on d u id hd
  · have hne : u ≠ t := fun e => hu c id (e ▸ hcur)
    rw [hthreads u hne, hown u hne]
    exact h.off u id fun d _ hd => hu d id ((hcurrent d).trans hd)
  · rw [hcurrent d] at hd
    have e : d ≠ c := fun e => by
      rw [e, hc] at hd
      exact hd.elim id (by simp)
    rw [hcpus d e]
    exact h.kernel d hd

theorem Held.aside (h : Held No No σ own) (ht : (σ.threads t).state ≠ .running)
    (hcpus : τ.cpus = σ.cpus) (hthreads : ∀ u, u ≠ t → τ.threads u = σ.threads u)
    (hown : ∀ u, u ≠ t → own' u = own u) (hsaved : Saved (τ.threads t) (own' t)) :
    Held No No τ own' := by
  have hne : ∀ d u, (σ.cpus d).current = some u → u ≠ t := fun d u hd e =>
    ht (h.runs d t id (e ▸ hd))
  refine ⟨fun d d' u => ?_, fun d u _ hd => ?_, fun d u _ hd => ?_, fun u _ hu => ?_, fun d => ?_⟩
  · rw [hcpus]
    exact h.one d d' u
  · rw [hcpus] at hd
    rw [hthreads u (hne d u hd)]
    exact h.runs d u id hd
  · rw [hcpus] at hd ⊢
    rw [hthreads u (hne d u hd), hown u (hne d u hd)]
    exact h.on d u id hd
  · rw [hcpus] at hu
    by_cases e : u = t
    · exact e ▸ hsaved
    · rw [hthreads u e, hown u e]
      exact h.off u id hu
  · rw [hcpus]
    exact h.kernel d

/-! ### The scheduler -/

/-- What the thread that leaves processor `c` has there. -/
structure Leaving (c t : Nat) (σ : Registers C F) (own : Nat → View C F) : Prop where
  held : Held (· = c) (· = t) σ own
  only : ∀ d, d ≠ c → (σ.cpus d).current ≠ some t
  ctx : seen (σ.threads t).ctx = seen (own t).ctx
  fp : (σ.cpus c).fpu = (own t).fp
  clean : (fpTakeDirty (σ.threads t).ctx).1 = false → (σ.threads t).fp = (σ.cpus c).fpu

/-- The thread that is current on `c` is edited, which has no registers there from now on. -/
theorem Held.vacate (h : Held No No σ own) (hi : σ.Inside c t) (f : Thread C F → Thread C F) :
    Held (· = c) (· = t) (σ.edit t f) own := by
  have hother : ∀ d u, d ≠ c → (σ.cpus d).current = some u → u ≠ t := fun d u e hd hu =>
    e (h.one d c t id id (hu ▸ hd) hi.1)
  refine ⟨fun d d' u _ _ h₁ h₂ => h.one d d' u id id h₁ h₂, fun d u hd hu => ?_,
    fun d u hd hu => ?_, fun u hut hu => ?_, fun d hd => ?_⟩
  · rw [edit_of_ne (hother d u hd hu)]
    exact h.runs d u id hu
  · rw [edit_of_ne (hother d u hd hu)]
    exact h.on d u id hu
  · rw [edit_of_ne hut]
    refine h.off u id fun d _ hd => ?_
    by_cases e : d = c
    · exact hut (Option.some.inj ((e ▸ hd).symm.trans hi.1))
    · exact hu d e hd
  · rcases hd with rfl | hd
    · exact hi.2
    · exact h.kernel d (.inr hd)

theorem Held.save (h : Held No No σ own) (hi : σ.Inside c t) (st : State) :
    Leaving c t (σ.save c t st) own := by
  have hon := h.on c t id hi.1
  obtain ⟨hctx, hfp, hclean⟩ := hon
  rw [hi.2] at hctx hclean
  refine ⟨h.vacate hi _, fun d e hd => e (h.one d c t id id hd hi.1), ?_, ?_, ?_⟩
  · rw [Registers.save, edit_self]
    exact hctx
  · exact hfp
  · rw [Registers.save, edit_self]
    exact hclean

theorem Leaving.saveFp (h : Leaving c t σ own) :
    Held (· = c) No (σ.edit t (saveFp (σ.cpus c).fpu)) own := by
  obtain ⟨⟨hone, hruns, hon, hoff, hkernel⟩, honly, hctx, hfp, hclean⟩ := h
  have hother : ∀ d u, d ≠ c → (σ.cpus d).current = some u → u ≠ t := fun d u e hd hu =>
    honly d e (hu ▸ hd)
  refine ⟨hone, fun d u hd hu => ?_, fun d u hd hu => ?_, fun u _ hu => ?_, hkernel⟩
  · rw [edit_of_ne (hother d u hd hu)]
    exact hruns d u hd hu
  · rw [edit_of_ne (hother d u hd hu)]
    exact hon d u hd hu
  · by_cases e : u = t
    · subst e
      rw [edit_self]
      unfold Registers.saveFp
      split_ifs with hd
      · exact fun _ _ => ⟨(seen_take _).trans hctx, hfp⟩
      · exact fun _ _ => ⟨hctx, (hclean (by simpa using hd)).trans hfp⟩
    · rw [edit_of_ne e]
      exact hoff u e hu

theorem Held.load (h : Held (· = c) (· = t) σ own) (hst : (σ.threads t).state = .ready)
    (hctx : seen (σ.threads t).ctx = seen (own t).ctx) (hfp : (σ.cpus c).fpu = (own t).fp)
    (hclean : (fpTakeDirty (σ.threads t).ctx).1 = false → (σ.threads t).fp = (σ.cpus c).fpu) :
    Held No No (σ.load c (some t)) own := by
  obtain ⟨hone, hruns, hon, hoff, hkernel⟩ := h
  have hother : ∀ d u, d ≠ c → (σ.cpus d).current = some u → u ≠ t := fun d u e hd hu => by
    have := hruns d u e hd
    rw [hu, hst] at this
    exact absurd this (by decide)
  have hself : (σ.load c (some t)).cpus c =
      { σ.cpus c with current := some t, frame := (σ.threads t).ctx } :=
    Function.update_self ..
  have hcpus : ∀ d, d ≠ c → (σ.load c (some t)).cpus d = σ.cpus d := fun d e =>
    Function.update_of_ne e ..
  have hthread : (σ.load c (some t)).threads t = { σ.threads t with state := .running } :=
    Function.update_self ..
  have hthreads : ∀ u, u ≠ t → (σ.load c (some t)).threads u = σ.threads u := fun u e =>
    Function.update_of_ne e ..
  refine ⟨fun d d' u _ _ h₁ h₂ => ?_, fun d u _ hd => ?_, fun d u _ hd => ?_, fun u _ hu => ?_,
    fun d hd => ?_⟩
  · by_cases e : d = c <;> by_cases e' : d' = c
    · rw [e, e']
    · subst e
      rw [hself] at h₁
      rw [hcpus d' e'] at h₂
      exact absurd (Option.some.inj h₁).symm (hother d' u e' h₂)
    · subst e'
      rw [hself] at h₂
      rw [hcpus d e] at h₁
      exact absurd (Option.some.inj h₂).symm (hother d u e h₁)
    · rw [hcpus d e] at h₁
      rw [hcpus d' e'] at h₂
      exact hone d d' u e e' h₁ h₂
  · by_cases e : d = c
    · subst e
      rw [hself] at hd
      obtain rfl := Option.some.inj hd
      rw [hthread]
    · rw [hcpus d e] at hd
      rw [hthreads u (hother d u e hd)]
      exact hruns d u e hd
  · by_cases e : d = c
    · subst e
      rw [hself] at hd
      obtain rfl := Option.some.inj hd
      have hkern := hkernel d (.inl rfl)
      rw [hself, hthread]
      refine ⟨?_, hfp, ?_⟩
      · simp only [hkern]
        exact hctx
      · simp only [hkern]
        exact hclean
    · rw [hcpus d e] at hd ⊢
      rw [hthreads u (hother d u e hd)]
      exact hon d u e hd
  · have hne : u ≠ t := fun e => by
      refine hu c id ?_
      rw [hself, e]
    rw [hthreads u hne]
    refine hoff u hne fun d e hd => hu d id ?_
    rw [hcpus d e]
    exact hd
  · by_cases e : d = c
    · subst e
      rw [hself]
      exact hkernel d (.inl rfl)
    · rw [hcpus d e] at hd ⊢
      exact hkernel d (.inr (hd.resolve_left id))

theorem Held.idle (h : Held (· = c) No σ own) : Held No No (σ.load c none) own := by
  obtain ⟨hone, hruns, hon, hoff, hkernel⟩ := h
  have hself : (σ.load c none).cpus c = { σ.cpus c with current := none } := Function.update_self ..
  have hcpus : ∀ d, d ≠ c → (σ.load c none).cpus d = σ.cpus d := fun d e =>
    Function.update_of_ne e ..
  have hne : ∀ d u, ((σ.load c none).cpus d).current = some u → d ≠ c := fun d u hd e => by
    subst e
    rw [hself] at hd
    exact absurd hd (by simp)
  refine ⟨fun d d' u _ _ h₁ h₂ => ?_, fun d u _ hd => ?_, fun d u _ hd => ?_, fun u _ hu => ?_,
    fun d hd => ?_⟩
  · have e := hne d u h₁
    have e' := hne d' u h₂
    rw [hcpus d e] at h₁
    rw [hcpus d' e'] at h₂
    exact hone d d' u e e' h₁ h₂
  · have e := hne d u hd
    rw [hcpus d e] at hd
    exact hruns d u e hd
  · have e := hne d u hd
    rw [hcpus d e] at hd ⊢
    exact hon d u e hd
  · refine hoff u id fun d e hd => hu d id ?_
    rw [hcpus d e]
    exact hd
  · by_cases e : d = c
    · subst e
      rw [hself]
      exact hkernel d (.inl rfl)
    · rw [hcpus d e] at hd ⊢
      exact hkernel d (.inr (hd.resolve_left id))

theorem Held.fresh (h : Held (· = c) No σ own) (ho : σ.Ready o) :
    Held No No ((σ.restoreFp c o).load c o) own := by
  cases o with
  | none => exact h.idle
  | some t =>
      have hst : (σ.threads t).state = .ready := ho t rfl
      have hsaved := h.off t id fun d e hd => by
        have := h.runs d t e hd
        rw [hst] at this
        exact absurd this (by decide)
      obtain ⟨hctx, hfp⟩ := hsaved (by rw [hst]; decide) (by rw [hst]; decide)
      obtain ⟨hone, hruns, hon, hoff, hkernel⟩ := h
      obtain ⟨τ, hτ⟩ : ∃ τ, τ = σ.onCpu c fun p => { p with fpu := (σ.threads t).fp } := ⟨_, rfl⟩
      have hcpus : ∀ d, d ≠ c → τ.cpus d = σ.cpus d := fun d e => hτ ▸ onCpu_of_ne e ..
      have hcur : ∀ d, (τ.cpus d).current = (σ.cpus d).current ∧
          (τ.cpus d).user = (σ.cpus d).user := fun d => by
        by_cases e : d = c
        · rw [e, hτ, onCpu_self]
          exact ⟨rfl, rfl⟩
        · rw [hcpus d e]
          exact ⟨rfl, rfl⟩
      have hthreads : τ.threads = σ.threads := by rw [hτ, onCpu_threads]
      have hfpu : (τ.cpus c).fpu = (σ.threads t).fp := by rw [hτ, onCpu_self]
      have hheld : Held (· = c) (· = t) τ own := by
        refine ⟨fun d d' u e e' h₁ h₂ => ?_, fun d u e hd => ?_, fun d u e hd => ?_,
          fun u _ hu => ?_, fun d hd => ?_⟩
        · exact hone d d' u e e' ((hcur d).1 ▸ h₁) ((hcur d').1 ▸ h₂)
        · rw [hthreads]
          exact hruns d u e ((hcur d).1 ▸ hd)
        · rw [hthreads, hcpus d e]
          exact hon d u e ((hcur d).1 ▸ hd)
        · rw [hthreads]
          exact hoff u id fun d e hd => hu d e ((hcur d).1.trans hd)
        · rw [(hcur d).2]
          exact hkernel d ((hcur d).1 ▸ hd)
      rw [restoreFp, ← hτ]
      refine hheld.load ?_ ?_ ?_ ?_
      · rw [hthreads]
        exact hst
      · rw [hthreads]
        exact hctx
      · rw [hfpu]
        exact hfp
      · rw [hthreads, hfpu]
        exact fun _ => rfl

/-- **A thread leaves** its processor, and another may be chosen, or the same. -/
theorem Leaving.dispatch (h : Leaving c t σ own) (hc : (σ.cpus c).current = some t)
    (ho : σ.Ready o) : Held No No (σ.dispatch c o) own := by
  unfold Registers.dispatch
  by_cases he : o = (σ.cpus c).current
  · rw [if_pos he]
    rw [hc] at he
    subst he
    exact h.held.load (ho t rfl) h.ctx h.fp h.clean
  · rw [if_neg he]
    have hready : (σ.edit t (Registers.saveFp (σ.cpus c).fpu)).Ready o := fun u hu => by
      by_cases e : u = t
      · subst e
        rw [edit_self]
        unfold Registers.saveFp
        split_ifs <;> exact ho u hu
      · rw [edit_of_ne e]
        exact ho u hu
    have hend := h.saveFp.fresh hready
    unfold switchFp
    rw [hc]
    exact hend

theorem Held.dispatch (h : Held (· = c) No σ own) (hc : (σ.cpus c).current = none)
    (ho : σ.Ready o) : Held No No (σ.dispatch c o) own := by
  unfold Registers.dispatch
  by_cases he : o = (σ.cpus c).current
  · rw [if_pos he]
    rw [hc] at he
    subst he
    exact h.idle
  · rw [if_neg he]
    have hend := h.fresh ho
    unfold switchFp
    rw [hc]
    exact hend

theorem Held.left (h : Held No No σ own) (hc : (σ.cpus c).current = none) :
    Held (· = c) No σ own := by
  refine ⟨fun d d' u _ _ => h.one d d' u id id, fun d u _ => h.runs d u id,
    fun d u _ => h.on d u id, fun u _ hu => h.off u id fun d _ hd => ?_, fun d hd => ?_⟩
  · by_cases e : d = c
    · rw [e, hc] at hd
      exact absurd hd (by simp)
    · exact hu d e hd
  · rcases hd with rfl | hd
    · exact h.kernel d (.inr hc)
    · exact h.kernel d (.inr hd)

theorem Leaving.ended (h : Leaving c t σ own)
    (hst : (σ.threads t).state = .unused ∨ (σ.threads t).state = .zombie) :
    Held (· = c) No (σ.onCpu c fun p => { p with current := none }) own := by
  obtain ⟨hone, hruns, hon, hoff, hkernel⟩ := h.held
  have hcpus : ∀ d, d ≠ c → (σ.onCpu c fun p => { p with current := none }).cpus d = σ.cpus d :=
    fun d e => onCpu_of_ne e _ _
  refine ⟨fun d d' u e e' h₁ h₂ => ?_, fun d u e hd => ?_, fun d u e hd => ?_, fun u _ hu => ?_,
    fun d hd => ?_⟩
  · rw [hcpus d e] at h₁
    rw [hcpus d' e'] at h₂
    exact hone d d' u e e' h₁ h₂
  · rw [hcpus d e] at hd
    exact hruns d u e hd
  · rw [hcpus d e] at hd ⊢
    exact hon d u e hd
  · by_cases e : u = t
    · subst e
      intro h₁ h₂
      exact absurd hst (not_or.mpr ⟨h₁, h₂⟩)
    · refine hoff u e fun d e hd => hu d e ?_
      rw [hcpus d e]
      exact hd
  · by_cases e : d = c
    · subst e
      rw [onCpu_self]
      exact hkernel d (.inl rfl)
    · rw [hcpus d e] at hd ⊢
      exact hkernel d (.inr (hd.resolve_left e))

/-! ### One act -/

theorem Held.inside (h : Held No No σ own) (hi : σ.Inside c t) {f : Cpu C F → Cpu C F}
    {v : View C F}
    (hcur : (f (σ.cpus c)).current = some t)
    (hon : On (f (σ.cpus c)) (σ.threads t) v) :
    Held No No (σ.onCpu c f) (Function.update own t v) := by
  refine h.at hi.1 (fun d e => onCpu_of_ne e _ _) (fun u e => rfl)
    (fun u e => Function.update_of_ne e _ _) ?_ (h.runs c t id hi.1) ?_
  · rw [onCpu_self]
    exact hcur
  · rw [onCpu_self, Function.update_self]
    exact hon

theorem Held.outside (h : Held No No σ own) (ht : (σ.threads t).state ≠ .running)
    {f : Thread C F → Thread C F} {v : View C F} (hsaved : Saved (f (σ.threads t)) v) :
    Held No No (σ.edit t f) (Function.update own t v) := by
  refine h.aside ht rfl (fun u e => edit_of_ne e _ _) (fun u e => Function.update_of_ne e _ _) ?_
  rw [edit_self, Function.update_self]
  exact hsaved

theorem cloned_seen (stack : BitVec 64) (tls : Option (BitVec 64)) {a b : C}
    (h : seen a = seen b) : seen (cloned stack tls a) = seen (cloned stack tls b) := by
  have hall : ∀ c : C, seen (cloned stack tls c) = cloned stack tls (seen c) := fun c => by
    unfold cloned
    cases tls <;> split_ifs <;> simp only [seen_setTls, seen_setSp, seen_setRet]
  rw [hall, hall, h]

theorem Held.trap {c t : Nat} (h : Held No No σ own)
    (hs : σ.step (.trap c t) = some τ) :
    Held No No τ (View.note σ (.trap c t) τ own) := by
  obtain ⟨⟨hc, hu⟩, hd⟩ := (Option.ite_none_right_eq_some ..).mp hs
  obtain rfl := Option.some.inj hd
  obtain ⟨hctx, hfp, hclean⟩ := h.on c t id hc
  rw [hu] at hctx hclean
  refine h.at hc (fun d e => onCpu_of_ne e _ _) (fun u e => rfl) (fun u e => rfl) ?_
    (h.runs c t id hc) ?_
  · rw [onCpu_self]
    exact hc
  · rw [onCpu_self]
    exact ⟨hctx, hfp, hclean⟩

theorem Held.resume {c t : Nat} (h : Held No No σ own)
    (ha : Plain σ (.resume c t))
    (hs : σ.step (.resume c t) = some τ) :
    Held No No τ (View.note σ (.resume c t) τ own) := by
  obtain ⟨hi, hd⟩ := (Option.ite_none_right_eq_some ..).mp hs
  obtain rfl := Option.some.inj hd
  obtain ⟨hctx, hfp, hclean⟩ := h.on c t id hi.1
  rw [hi.2] at hctx hclean
  have hsame : enter (σ.cpus c).regs (σ.cpus c).frame = (σ.cpus c).frame := ha
  refine h.at hi.1 (fun d e => onCpu_of_ne e _ _) (fun u e => rfl) (fun u e => rfl) ?_
    (h.runs c t id hi.1) ?_
  · rw [onCpu_self]
    exact hi.1
  · rw [onCpu_self]
    refine ⟨?_, hfp, ?_⟩
    · simp only [if_true, hsame]
      exact hctx
    · simp only [if_true, hsame]
      exact hclean

theorem Held.user {c t : Nat} {regs : C} {fpu : Option F} (h : Held No No σ own)
    (hs : σ.step (.user c t regs fpu) = some τ) :
    Held No No τ (View.note σ (.user c t regs fpu) τ own) := by
  obtain ⟨⟨hc, hu, hdirty⟩, hd⟩ := (Option.ite_none_right_eq_some ..).mp hs
  obtain rfl := Option.some.inj hd
  obtain ⟨hctx, hfp, hclean⟩ := h.on c t id hc
  rw [hu] at hclean
  refine h.at hc (fun d e => onCpu_of_ne e _ _) (fun u e => rfl)
    (fun u e => Function.update_of_ne e _ _) ?_ (h.runs c t id hc) ?_
  · rw [onCpu_self]
    exact hc
  · rw [onCpu_self, onCpu_threads]
    simp only [View.note, Function.update_self]
    refine ⟨?_, ?_, fun hcl => ?_⟩
    · rw [if_pos hu]
    · exact congrArg fpu.getD hfp
    · -- clean registers were not written, and were clean before
      rw [if_pos hu] at hcl
      rw [if_pos rfl] at hclean
      have hnot : ¬ (fpu.isSome = true ∨ (fpTakeDirty (σ.cpus c).regs).1 = true) :=
          fun hor => by
        rw [hdirty hor] at hcl
        exact absurd hcl (by simp)
      rw [not_or] at hnot
      obtain rfl : fpu = none := by simpa using hnot.1
      exact hclean (by simpa using hnot.2)

theorem Held.exit {c t : Nat} {zombie : Bool} {o : Option Nat} (h : Held No No σ own)
    (hs : σ.step (.exit c t zombie o) = some τ) :
    Held No No τ (View.note σ (.exit c t zombie o) τ own) := by
  obtain ⟨⟨hi, ho⟩, hd⟩ := (Option.ite_none_right_eq_some ..).mp hs
  obtain rfl := Option.some.inj hd
  have hleave := h.save hi (Registers.ended zombie)
  have hst : ((σ.save c t (Registers.ended zombie)).threads t).state = .unused ∨
      ((σ.save c t (Registers.ended zombie)).threads t).state = .zombie := by
    rw [Registers.save, edit_self]
    cases zombie
    · exact .inl rfl
    · exact .inr rfl
  exact (hleave.ended hst).dispatch (by rw [onCpu_self]) ho

theorem Held.sigreturn {c t : Nat} {g : Change C} {fp : F} (h : Held No No σ own)
    (hs : σ.step (.sigreturn c t g fp) = some τ) :
    Held No No τ (View.note σ (.sigreturn c t g fp) τ own) := by
  obtain ⟨hi, hd⟩ := (Option.ite_none_right_eq_some ..).mp hs
  obtain rfl := Option.some.inj hd
  obtain ⟨hctx, hfp, hclean⟩ := h.on c t id hi.1
  have hno : ¬ (σ.cpus c).user = true := by simp [hi.2]
  rw [if_neg hno] at hctx
  refine h.inside hi hi.1 ⟨?_, rfl, fun hcl => ?_⟩
  · rw [if_neg hno]
    exact (seen_mark _).trans (g.seen _ _ hctx)
  · rw [if_neg hno, take_mark] at hcl
    exact absurd hcl (by simp)

theorem Held.execReplace {c t : Nat} {entry sp : BitVec 64} (h : Held No No σ own)
    (hs : σ.step (.execReplace c t entry sp) = some τ) :
    Held No No τ (View.note σ (.execReplace c t entry sp) τ own) := by
  obtain ⟨hi, hd⟩ := (Option.ite_none_right_eq_some ..).mp hs
  obtain rfl := Option.some.inj hd
  refine h.at hi.1 (fun d e => onCpu_of_ne e _ _) (fun u e => Function.update_of_ne e _ _)
    (fun u e => Function.update_of_ne e _ _) ?_ ?_ ?_
  · rw [onCpu_self]
    exact hi.1
  · rw [onCpu_threads, edit_self]
    exact h.runs c t id hi.1
  · rw [onCpu_self, onCpu_threads, edit_self, edit_cpus]
    simp only [View.note, Function.update_self]
    refine ⟨?_, rfl, fun _ => rfl⟩
    simp only [hi.2]
    rfl

/-- **One act** keeps the registers of every thread. -/
theorem Held.step {a : RegAct C F} (h : Held No No σ own) (ha : Plain σ a)
    (hs : σ.step a = some τ) : Held No No τ (View.note σ a τ own) := by
  cases a with
  | trap c t =>
      exact h.trap hs
  | resume c t =>
      exact h.resume ha hs
  | user c t regs fpu =>
      exact h.user hs
  | schedule c t o =>
      obtain ⟨⟨hi, ho⟩, hd⟩ := (Option.ite_none_right_eq_some ..).mp hs
      obtain rfl := Option.some.inj hd
      exact (h.save hi .ready).dispatch hi.1 ho
  | block c t st o =>
      obtain ⟨⟨hi, -, ho⟩, hd⟩ := (Option.ite_none_right_eq_some ..).mp hs
      obtain rfl := Option.some.inj hd
      exact (h.save hi st).dispatch hi.1 ho
  | exit c t zombie o =>
      exact h.exit hs
  | idle c o =>
      obtain ⟨⟨hc, ho⟩, hd⟩ := (Option.ite_none_right_eq_some ..).mp hs
      obtain rfl := Option.some.inj hd
      exact (h.left hc).dispatch hc ho
  | change c t g =>
      obtain ⟨hi, hd⟩ := (Option.ite_none_right_eq_some ..).mp hs
      obtain rfl := Option.some.inj hd
      obtain ⟨hctx, hfp, hclean⟩ := h.on c t id hi.1
      have hno : ¬ (σ.cpus c).user = true := by simp [hi.2]
      rw [if_neg hno] at hctx hclean
      refine h.inside hi hi.1 ⟨?_, hfp, fun hcl => ?_⟩
      · rw [if_neg hno]
        exact g.seen _ _ hctx
      · rw [if_neg hno, g.dirty] at hcl
        exact hclean hcl
  | sigreturn c t g fp =>
      exact h.sigreturn hs
  | setGs c t v =>
      obtain ⟨⟨hi, -⟩, hd⟩ := (Option.ite_none_right_eq_some ..).mp hs
      obtain rfl := Option.some.inj hd
      obtain ⟨hctx, hfp, hclean⟩ := h.on c t id hi.1
      exact h.inside hi hi.1 ⟨hctx, hfp, hclean⟩
  | execReplace c t entry sp =>
      exact h.execReplace hs
  | clone c t i stack tls =>
      obtain ⟨⟨hi, hst⟩, hd⟩ := (Option.ite_none_right_eq_some ..).mp hs
      obtain rfl := Option.some.inj hd
      obtain ⟨hctx, hfp, hclean⟩ := h.on c t id hi.1
      rw [hi.2] at hctx
      exact h.outside (by rw [hst]; decide) fun _ _ => ⟨cloned_seen stack tls hctx, hfp⟩
  | threadCreate i entry sp arg =>
      obtain ⟨hst, hd⟩ := (Option.ite_none_right_eq_some ..).mp hs
      obtain rfl := Option.some.inj hd
      exact h.outside (by rw [hst]; decide) fun _ _ => ⟨rfl, rfl⟩
  | create i entry sp =>
      obtain ⟨hst, hd⟩ := (Option.ite_none_right_eq_some ..).mp hs
      obtain rfl := Option.some.inj hd
      exact h.outside (by rw [hst]; decide) fun _ _ => ⟨rfl, rfl⟩
  | wake t g =>
      obtain ⟨hw, hd⟩ := (Option.ite_none_right_eq_some ..).mp hs
      obtain rfl := Option.some.inj hd
      have hrun : (σ.threads t).state ≠ .running := hw.2.2.2
      obtain ⟨hctx, hfp⟩ := h.off t id (fun c _ hc => hrun (h.runs c t id hc)) hw.1 hw.2.1
      exact h.outside hrun fun _ _ => ⟨g.seen _ _ hctx, hfp⟩
  | reap t zombie =>
      obtain ⟨⟨hrun, -⟩, hd⟩ := (Option.ite_none_right_eq_some ..).mp hs
      obtain rfl := Option.some.inj hd
      refine h.aside hrun rfl (fun u e => edit_of_ne e _ _) (fun u e => rfl) ?_
      rw [edit_self]
      intro h₁ h₂
      cases zombie
      · exact absurd rfl h₁
      · exact absurd rfl h₂

/-- No base of `%gs` is set. -/
def Flat (σ : Registers C F) (own : Nat → View C F) : Prop :=
  (∀ c, (σ.cpus c).gs = 0) ∧ ∀ t, (own t).gs = 0

omit [Hardware C F] in
theorem load_sameGs (c : Nat) (o : Option Nat) (σ : Registers C F) :
    SameGs σ (σ.load c o) := by
  cases o with
  | none => exact sameGs_onCpu c (fun p => { p with current := none }) rfl
  | some t =>
      exact sameGs_onCpu c (fun p => { p with current := some t, frame := (σ.threads t).ctx }) rfl

omit [Hardware C F] in
theorem restoreFp_sameGs (c : Nat) (o : Option Nat) (σ : Registers C F) :
    SameGs σ (σ.restoreFp c o) := by
  cases o with
  | none => exact fun _ => rfl
  | some t => exact sameGs_onCpu c (fun p => { p with fpu := (σ.threads t).fp }) rfl

theorem dispatch_sameGs (c : Nat) (o : Option Nat) (σ : Registers C F) :
    SameGs σ (σ.dispatch c o) := by
  have hswitch : SameGs σ (σ.switchFp c o) := by
    unfold switchFp
    split
    · rename_i t _
      exact restoreFp_sameGs c o (σ.edit t (Registers.saveFp (σ.cpus c).fpu))
    · exact restoreFp_sameGs c o σ
  unfold Registers.dispatch
  split_ifs
  · exact load_sameGs c o σ
  · exact hswitch.trans (load_sameGs c o _)

/-- **One act** sets no base of `%gs`. -/
theorem Flat.step {a : RegAct C F} (h : Flat σ own) (ha : Plain σ a) (hs : σ.step a = some τ) :
    Flat τ (View.note σ a τ own) := by
  have hsame : SameGs σ τ → Flat τ own := fun hg => ⟨fun c => (hg c).trans (h.1 c), h.2⟩
  have hput : ∀ t v, SameGs σ τ → v.gs = 0 → Flat τ (Function.update own t v) := fun t v hg hv =>
    ⟨fun c => (hg c).trans (h.1 c), flat_put h.2 hv⟩
  cases a with
  | trap c t =>
      obtain ⟨-, hd⟩ := (Option.ite_none_right_eq_some ..).mp hs
      obtain rfl := Option.some.inj hd
      exact hsame (sameGs_onCpu c _ rfl)
  | resume c t =>
      obtain ⟨-, hd⟩ := (Option.ite_none_right_eq_some ..).mp hs
      obtain rfl := Option.some.inj hd
      exact hsame (sameGs_onCpu c _ rfl)
  | user c t regs fpu =>
      obtain ⟨-, hd⟩ := (Option.ite_none_right_eq_some ..).mp hs
      obtain rfl := Option.some.inj hd
      exact hput t _ (sameGs_onCpu c _ rfl) (h.2 t)
  | schedule c t o =>
      obtain ⟨-, hd⟩ := (Option.ite_none_right_eq_some ..).mp hs
      obtain rfl := Option.some.inj hd
      exact hsame (dispatch_sameGs c o (σ.save c t .ready))
  | block c t st o =>
      obtain ⟨-, hd⟩ := (Option.ite_none_right_eq_some ..).mp hs
      obtain rfl := Option.some.inj hd
      exact hsame (dispatch_sameGs c o (σ.save c t st))
  | exit c t zombie o =>
      obtain ⟨-, hd⟩ := (Option.ite_none_right_eq_some ..).mp hs
      obtain rfl := Option.some.inj hd
      have hleft : SameGs σ ((σ.save c t (Registers.ended zombie)).onCpu c fun p =>
          { p with current := none }) := sameGs_onCpu c (fun p => { p with current := none }) rfl
      exact hsame (hleft.trans (dispatch_sameGs c o _))
  | idle c o =>
      obtain ⟨-, hd⟩ := (Option.ite_none_right_eq_some ..).mp hs
      obtain rfl := Option.some.inj hd
      exact hsame (dispatch_sameGs c o σ)
  | change c t g =>
      obtain ⟨-, hd⟩ := (Option.ite_none_right_eq_some ..).mp hs
      obtain rfl := Option.some.inj hd
      exact hput t _ (sameGs_onCpu c _ rfl) (h.2 t)
  | sigreturn c t g fp =>
      obtain ⟨-, hd⟩ := (Option.ite_none_right_eq_some ..).mp hs
      obtain rfl := Option.some.inj hd
      exact hput t _ (sameGs_onCpu c _ rfl) (h.2 t)
  | setGs c t v =>
      obtain ⟨-, hd⟩ := (Option.ite_none_right_eq_some ..).mp hs
      obtain rfl := Option.some.inj hd
      have hv : v = 0 := ha
      exact hput t _ (sameGs_onCpu c _ (hv.trans (h.1 c).symm)) hv
  | execReplace c t entry sp =>
      obtain ⟨-, hd⟩ := (Option.ite_none_right_eq_some ..).mp hs
      obtain rfl := Option.some.inj hd
      exact hput t _ (sameGs_onCpu c (fun p =>
        { p with frame := newUser entry sp, fpu := zeroed C }) rfl) rfl
  | clone c t i stack tls =>
      obtain ⟨-, hd⟩ := (Option.ite_none_right_eq_some ..).mp hs
      obtain rfl := Option.some.inj hd
      exact hput i _ (fun _ => rfl) (h.2 t)
  | threadCreate i entry sp arg =>
      obtain ⟨-, hd⟩ := (Option.ite_none_right_eq_some ..).mp hs
      obtain rfl := Option.some.inj hd
      exact hput i _ (fun _ => rfl) rfl
  | create i entry sp =>
      obtain ⟨-, hd⟩ := (Option.ite_none_right_eq_some ..).mp hs
      obtain rfl := Option.some.inj hd
      exact hput i _ (fun _ => rfl) rfl
  | wake t g =>
      obtain ⟨-, hd⟩ := (Option.ite_none_right_eq_some ..).mp hs
      obtain rfl := Option.some.inj hd
      exact hput t _ (fun _ => rfl) (h.2 t)
  | reap t zombie =>
      obtain ⟨-, hd⟩ := (Option.ite_none_right_eq_some ..).mp hs
      obtain rfl := Option.some.inj hd
      exact hsame fun _ => rfl

/-! ### Runs -/

variable (C) in
/-- The runs from boot, with the registers of the threads, whose acts satisfy `P`. -/
abbrev Running (P : Registers C F → RegAct C F → Prop) :
    Registers C F × (Nat → View C F) → Prop :=
  Noted Registers.step View.note Boot (fun _ => ⟨newUser 0 0, zeroed C, 0⟩) P

theorem Running.faithful (h : Running C Plain (σ, own)) : σ.Faithful own := by
  have hkept : Held No No σ own ∧ Flat σ own := by
    refine Noted.invariant (I := fun σ own => Held No No σ own ∧ Flat σ own) ?_ ?_ h
    · rintro σ ⟨hthreads, hcpus⟩
      have hnone : ∀ c t, (σ.cpus c).current ≠ some t := fun c t hc => by
        rw [(hcpus c).1] at hc
        exact absurd hc (by simp)
      exact ⟨⟨fun c d t _ _ hc _ => absurd hc (hnone c t), fun c t _ hc => absurd hc (hnone c t),
        fun c t _ hc => absurd hc (hnone c t), fun t _ _ hu => absurd (hthreads t) hu,
        fun c _ => (hcpus c).2.1⟩, fun c => (hcpus c).2.2, fun _ => rfl⟩
    · intro σ a τ own hI ha hs
      exact ⟨hI.1.step ha hs, hI.2.step ha hs⟩
  obtain ⟨hheld, hflat⟩ := hkept
  intro c t hc hu
  obtain ⟨hctx, hfp, -⟩ := hheld.on c t id hc
  rw [if_pos hu] at hctx
  exact ⟨hctx, hfp, (hflat.1 c).trans (hflat.2 t).symm⟩

end Acts

end Registers

/-! ### The architectures -/

namespace Hardware

open Arch

/-- The state of the floating-point unit is not in user code's registers. -/
def fsOff (c : Riscv64.Context) : Riscv64.Context :=
  { c with sstatus := c.sstatus &&& ~~~Riscv64.SSTATUS_FS }

theorem fs_clean (s : BitVec 64) :
    (s &&& ~~~Riscv64.SSTATUS_FS ||| Riscv64.FS_CLEAN) &&& ~~~Riscv64.SSTATUS_FS =
      s &&& ~~~Riscv64.SSTATUS_FS := by
  have h : Riscv64.FS_CLEAN &&& ~~~Riscv64.SSTATUS_FS = 0#64 := by decide
  rw [BitVec.and_or_distrib_right, h, BitVec.and_assoc, BitVec.and_self, BitVec.or_zero]

theorem fs_dirty (s : BitVec 64) :
    (s ||| Riscv64.SSTATUS_FS) &&& ~~~Riscv64.SSTATUS_FS = s &&& ~~~Riscv64.SSTATUS_FS := by
  have h : Riscv64.SSTATUS_FS &&& ~~~Riscv64.SSTATUS_FS = 0#64 := by decide
  rw [BitVec.and_or_distrib_right, h, BitVec.or_zero]

theorem fs_marked (s : BitVec 64) :
    (s ||| Riscv64.SSTATUS_FS) &&& Riscv64.SSTATUS_FS = Riscv64.SSTATUS_FS := by
  ext i hi
  simp only [BitVec.getElem_and, BitVec.getElem_or]
  cases s[i] <;> cases Riscv64.SSTATUS_FS[i] <;> rfl

theorem take_eq (c : Riscv64.Context) : c.fp_take_dirty.1 =
    decide (c.sstatus &&& Riscv64.SSTATUS_FS = Riscv64.SSTATUS_FS) := by
  unfold Riscv64.Context.fp_take_dirty
  split_ifs with h
  · exact (decide_eq_true h).symm
  · exact (decide_eq_false h).symm

theorem take_congr {a b : Riscv64.Context} (h : a.sstatus = b.sstatus) :
    a.fp_take_dirty.1 = b.fp_take_dirty.1 := by
  rw [take_eq, take_eq, h]

instance : Hardware Riscv64.Context Riscv64.FpState where
  newUser := Riscv64.Context.new_user
  setSp := Riscv64.Context.set_sp
  setTls := Riscv64.Context.set_tls
  fpTakeDirty := Riscv64.Context.fp_take_dirty
  markFpDirty := Riscv64.Context.mark_fp_dirty
  zeroed := .zeroed
  enter _ f := f
  seen := fsOff
  hasGs := false
  seen_take c := by
    unfold Riscv64.Context.fp_take_dirty
    split_ifs
    · exact congrArg (fun v => { c with sstatus := v }) (fs_clean c.sstatus)
    · rfl
  seen_mark c := congrArg (fun v => { c with sstatus := v }) (fs_dirty c.sstatus)
  take_mark c := (take_eq _).trans (decide_eq_true (fs_marked c.sstatus))
  seen_setRet _ _ := rfl
  seen_setSp _ _ := rfl
  seen_setTls _ _ := rfl
  seen_rewind _ := rfl
  seen_skip _ := rfl
  take_setRet _ _ := take_congr rfl
  take_setTls _ _ := take_congr rfl
  take_rewind _ := take_congr rfl
  take_skip _ := take_congr rfl
instance : Hardware Aarch64.Context Aarch64.FpState where
  newUser := Aarch64.Context.new_user
  setSp := Aarch64.Context.set_sp
  setTls := Aarch64.Context.set_tls
  fpTakeDirty := Aarch64.Context.fp_take_dirty
  markFpDirty := Aarch64.Context.mark_fp_dirty
  zeroed := .zeroed
  enter _ f := f
  seen := id
  hasGs := false
  seen_take _ := rfl
  seen_mark _ := rfl
  take_mark _ := rfl
  seen_setRet _ _ := rfl
  seen_setSp _ _ := rfl
  seen_setTls _ _ := rfl
  seen_rewind _ := rfl
  seen_skip _ := rfl
  take_setRet _ _ := rfl
  take_setTls _ _ := rfl
  take_rewind _ := rfl
  take_skip _ := rfl

/-- A base of `%fs` that is 0 is not loaded. -/
def keepFs (r f : X86.Context) : X86.Context :=
  if f.fs_base = 0 then { f with fs_base := r.fs_base } else f

instance : Hardware X86.Context X86.FpState where
  newUser := X86.Context.new_user
  setSp := X86.Context.set_sp
  setTls := X86.Context.set_tls
  fpTakeDirty := X86.Context.fp_take_dirty
  markFpDirty := X86.Context.mark_fp_dirty
  zeroed := .zeroed
  enter := keepFs
  seen := id
  hasGs := true
  seen_take _ := rfl
  seen_mark _ := rfl
  take_mark _ := rfl
  seen_setRet _ _ := rfl
  seen_setSp _ _ := rfl
  seen_setTls _ _ := rfl
  seen_rewind _ := rfl
  seen_skip _ := rfl
  take_setRet _ _ := rfl
  take_setTls _ _ := rfl
  take_rewind _ := rfl
  take_skip _ := rfl

end Hardware

namespace Registers

/-- Where a frame is loaded as it is, and no call sets the base of `%gs`, every act is plain. -/
theorem plain_of_step [Hardware C F] {σ τ : Registers C F} {a : RegAct C F}
    (hgs : hasGs C = false) (hload : ∀ r f : C, enter r f = f) (hs : σ.step a = some τ) :
    Plain σ a := by
  cases a with
  | resume c t => exact hload _ _
  | setGs c t v =>
      obtain ⟨⟨-, hhas⟩, -⟩ := (Option.ite_none_right_eq_some ..).mp hs
      rw [hgs] at hhas
      exact absurd hhas (by simp)
  | _ => trivial

theorem Running.plain [Hardware C F] {P : Registers C F → RegAct C F → Prop}
    {x : Registers C F × (Nat → View C F)}
    (hP : ∀ σ τ a, P σ a → σ.step a = some τ → Plain σ a) (h : Running C P x) :
    Running C Plain x := by
  induction h with
  | init h => exact .init h
  | step _ hp hs ih => exact .step ih (hP _ _ _ hp (noted_some hs).1) hs

open Arch

/-- No base of `%gs` but 0 is set, and a frame whose base of `%fs` is 0 is loaded only on a processor
that has that base. -/
def Based (σ : Registers X86.Context X86.FpState) : RegAct X86.Context X86.FpState → Prop
  | .setGs _ _ v => v = 0
  | .resume c _ => (σ.cpus c).frame.fs_base = 0 → (σ.cpus c).regs.fs_base = 0
  | _ => True

theorem plain_iff {σ : Registers X86.Context X86.FpState} {a : RegAct X86.Context X86.FpState} :
    Plain σ a ↔ Based σ a := by
  cases a with
  | resume c t =>
      change keepFs _ _ = _ ↔ (_ → _)
      unfold keepFs
      split
      · rename_i h
        exact ⟨fun e _ => (congrArg X86.Context.fs_base e).trans h,
          fun e => by rw [e h, ← h]⟩
      · rename_i h
        exact iff_of_true rfl fun e => absurd e h
  | _ => rfl

/-- **The registers of a thread**: on riscv64 and aarch64 user code finds those of its thread in
every run; on x86_64 while no base of `%gs` but 0 is set, and a frame whose base of `%fs` is 0 is
loaded only on a processor that has that base. -/
theorem registers_kept
    (r : Registers Riscv64.Context Riscv64.FpState × (Nat → View Riscv64.Context Riscv64.FpState))
    (a : Registers Aarch64.Context Aarch64.FpState × (Nat → View Aarch64.Context Aarch64.FpState))
    (x : Registers X86.Context X86.FpState × (Nat → View X86.Context X86.FpState)) :
    (Running Riscv64.Context (fun _ _ => True) r → r.1.Faithful r.2) ∧
    (Running Aarch64.Context (fun _ _ => True) a → a.1.Faithful a.2) ∧
    (Running X86.Context Based x → x.1.Faithful x.2) :=
  ⟨fun h => (h.plain fun _ _ _ _ => plain_of_step rfl fun _ _ => rfl).faithful,
    fun h => (h.plain fun _ _ _ _ => plain_of_step rfl fun _ _ => rfl).faithful,
    fun h => (h.plain fun _ _ _ hp _ => plain_iff.mpr hp).faithful⟩

/-! ### Runs from boot -/

instance (σ : Registers X86.Context X86.FpState) (a : RegAct X86.Context X86.FpState) :
    Decidable (Based σ a) :=
  match a with
  | .setGs _ _ v => inferInstanceAs (Decidable (v = 0))
  | .resume c _ =>
    inferInstanceAs (Decidable ((σ.cpus c).frame.fs_base = 0 → (σ.cpus c).regs.fs_base = 0))
  | .trap .. | .user .. | .schedule .. | .block .. | .exit .. | .idle .. => isTrue trivial
  | .change .. | .sigreturn .. | .execReplace .. | .clone .. => isTrue trivial
  | .threadCreate .. | .create .. => isTrue trivial
  | .wake .. | .reap .. => isTrue trivial

variable (C) in
/-- Nothing has happened yet. -/
def boot [Hardware C F] : Registers C F × (Nat → View C F) :=
  (⟨fun _ => ⟨.unused, newUser 0 0, zeroed C⟩,
    fun _ => ⟨none, false, newUser 0 0, newUser 0 0, zeroed C, 0⟩⟩,
    fun _ => ⟨newUser 0 0, zeroed C, 0⟩)

theorem boot_running [Hardware C F] {P : Registers C F → RegAct C F → Prop} :
    Running C P (boot C) :=
  Noted.start ⟨fun _ => rfl, fun _ => ⟨rfl, rfl, rfl⟩⟩

/-- A thread makes another with a base of `%fs` of its own, which runs on the same processor. -/
def twoThreads : List (RegAct X86.Context X86.FpState) :=
  [.create 0 4096 8192, .idle 0 (some 0), .change 0 0 (.setTls 7), .resume 0 0, .trap 0 0,
    .clone 0 0 1 16384 (some 9), .schedule 0 0 (some 1), .resume 0 1]

/-- The second thread finds its stack and its base of `%fs`. -/
theorem registers_kept_two : ∃ (σ : Registers X86.Context X86.FpState)
    (own : Nat → View X86.Context X86.FpState), σ.Faithful own ∧
    ((σ.cpus 0).current = some 1 ∧ (σ.cpus 0).user = true) ∧
    (own 1).ctx.rsp = 16384 ∧ (own 1).ctx.fs_base = 9 := by
  have hrun : (Runs.run (noted Registers.step View.note) (fun x a => Based x.1 a) twoThreads
      (boot X86.Context)).any (fun x => decide (
        ((x.1.cpus 0).current = some 1 ∧ (x.1.cpus 0).user = true) ∧
        (x.2 1).ctx.rsp = 16384 ∧ (x.2 1).ctx.fs_base = 9)) = true := by
    decide +kernel
  obtain ⟨x, hx, hc⟩ := (Option.any_eq_true _ _).mp hrun
  have hreach : Running X86.Context Based x := Reached.run boot_running hx
  exact ⟨x.1, x.2, (registers_kept (boot _) (boot _) x).2.2 hreach, of_decide_eq_true hc⟩

theorem unfaithful {σ : Registers X86.Context X86.FpState}
    {own : Nat → View X86.Context X86.FpState}
    (h : (σ.cpus 0).current = some 1 ∧ (σ.cpus 0).user = true ∧
      ((σ.cpus 0).gs ≠ (own 1).gs ∨ (σ.cpus 0).regs.fs_base ≠ (own 1).ctx.fs_base)) :
    ¬ σ.Faithful own := fun hf => by
  obtain ⟨hregs, -, hgs⟩ := hf 0 1 h.1 h.2.1
  rcases h.2.2 with hne | hne
  · exact hne hgs
  · exact hne (congrArg X86.Context.fs_base hregs)

/-- **The base of `%gs`** of one thread is that of the next. -/
theorem gs_left_behind : ¬ ∀ σ own, Running X86.Context (fun _ _ => True) (σ, own) →
    σ.Faithful own := by
  intro hall
  have hrun : (Runs.run (noted Registers.step View.note) (fun _ _ => True)
      [.create 0 4096 8192, .create 1 4096 8192, .idle 0 (some 0), .setGs 0 0 7,
        .schedule 0 0 (some 1), .resume 0 1]
      (boot X86.Context)).any (fun x => decide (
        (x.1.cpus 0).current = some 1 ∧ (x.1.cpus 0).user = true ∧
        ((x.1.cpus 0).gs ≠ (x.2 1).gs ∨
          (x.1.cpus 0).regs.fs_base ≠ (x.2 1).ctx.fs_base))) = true := by
    decide +kernel
  obtain ⟨x, hx, hc⟩ := (Option.any_eq_true _ _).mp hrun
  have hreach : Running X86.Context (fun _ _ => True) (x.1, x.2) :=
    Reached.run (boot_running (P := fun _ _ => True)) hx
  exact unfaithful (of_decide_eq_true hc) (hall x.1 x.2 hreach)

end Registers

end Pulsar.Proc

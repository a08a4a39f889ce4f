import Pulsar.Lib.Runs
import Pulsar.Proc.State

/-!
# Signals (`signal.rs`, `process.rs`)

A thread has its own pending signals and its own mask; the actions are those of its process, by the
slot of the leader.  `Signals` is the table of threads as far as signals go, over any registers `C`.
Each step is what is done with the lock SCHED taken once; what the rest of the kernel does to a
thread in between is the step `other`.
-/

namespace Pulsar.Proc

/-- What `signal.rs` and the waits of `process.rs` do to the registers of a thread. -/
class Context (C : Type) where
  rewindSyscall : C → C
  skipSyscall : C → C
  setRet : Nat → C → C
  sp : C → Nat

/-! ### Sets of signals -/

/-- A set of signals. -/
abbrev SigSet := BitVec 64

/-- `1 << (sig - 1)`. -/
def bit (sig : Nat) : SigSet := BitVec.twoPow 64 (sig - 1)

/-- `set & (1 << (sig - 1)) != 0`. -/
def SigSet.has (set : SigSet) (sig : Nat) : Bool := set.getLsbD (sig - 1)

/-- `set.trailing_zeros() + 1`, of a set that is not empty. -/
def SigSet.first (set : SigSet) : Option Nat :=
  ((List.range 64).find? fun i => set.getLsbD i).map (· + 1)

def SIGILL : Nat := 4
def SIGTRAP : Nat := 5
def SIGBUS : Nat := 7
def SIGFPE : Nat := 8
def SIGKILL : Nat := 9
def SIGSEGV : Nat := 11
def SIGSTOP : Nat := 19

def UNBLOCKABLE : SigSet := bit SIGKILL ||| bit SIGSTOP

/-- `set & !UNBLOCKABLE`. -/
def SigSet.blockable (set : SigSet) : SigSet := set &&& ~~~UNBLOCKABLE

/-! ### Actions -/

def SIG_DFL : Nat := 0
def SIG_IGN : Nat := 1

def SA_RESTORER : BitVec 64 := 0x04000000
def SA_ONSTACK : BitVec 64 := 0x08000000
def SA_RESTART : BitVec 64 := 0x10000000
def SA_NODEFER : BitVec 64 := 0x40000000
def SA_RESETHAND : BitVec 64 := 0x80000000

/-- `struct k_sigaction`. -/
structure Action where
  handler : Nat
  flags : BitVec 64
  restorer : Nat
  mask : SigSet
  deriving DecidableEq

/-- `DFL`. -/
def Action.dfl : Action := ⟨SIG_DFL, 0, 0, 0⟩

/-- `a.flags & bit != 0`. -/
def Action.set (a : Action) (flag : BitVec 64) : Bool := a.flags &&& flag != 0

/-- Signals that are ignored by default. -/
def defaultIgnored (sig : Nat) : Bool := sig ∈ [17, 18, 19, 20, 21, 22, 23, 28]

/-- The signals of a fault. -/
def synchronous (sig : Nat) : Bool := sig ∈ [SIGSEGV, SIGBUS, SIGILL, SIGFPE, SIGTRAP]

/-! ### Threads -/

/-- `SigThread`. -/
structure SigThread where
  pending : SigSet
  mask : SigSet
  saved : SigSet
  suspended : Bool
  altSp : Nat
  altSize : Nat
  faultAddr : Nat
  faultCode : Nat
  fromPid : Nat

/-- `SigThread::new()`. -/
def SigThread.new : SigThread := ⟨0, 0, 0, false, 0, 0, 0, 0, 0⟩

inductive Abi where
  | pulsar | linux
  deriving DecidableEq

/-- A slot, as far as signals go; `user` says that it runs user code. -/
structure Task (C : Type) where
  pid : Nat
  state : State
  user : Bool
  ctx : C
  leader : Nat
  abi : Abi
  wakeAt : Nat
  ioKey : Nat
  ioDeadline : Nat
  inPoll : Bool
  sig : SigThread

/-- `POLL_KEY`. -/
def POLL_KEY : Nat := 0x504F4C4C

/-- `-EINTR` in a register. -/
def EINTR_RET : Nat := 2 ^ 64 - 4

/-- The slot is taken, and not by a process that is over. -/
def Task.Live {C : Type} (p : Task C) : Prop := p.state ≠ .unused ∧ p.state ≠ .zombie

instance {C : Type} (p : Task C) : Decidable p.Live := by unfold Task.Live; infer_instance

/-- The threads, and the actions of each process. -/
structure Signals (C : Type) where
  tasks : Nat → Task C
  actions : Nat → Nat → Action

/-- A handler that is to be started. -/
structure Handling where
  sig : Nat
  act : Action
  oldMask : SigSet
  alt : Option (Nat × Nat)
  info : Nat × Nat × Nat
  eintr : Bool

/-- `Plan`. -/
inductive Plan where
  | none
  | fatal (sig : Nat)
  | handle (h : Handling)

namespace Signals

variable {C : Type}

/-- The task of a slot changes. -/
def edit (s : Nat) (f : Task C → Task C) (σ : Signals C) : Signals C :=
  { σ with tasks := Function.update σ.tasks s (f (σ.tasks s)) }

/-- What a thread has of signals changes. -/
def editSig (s : Nat) (f : SigThread → SigThread) (σ : Signals C) : Signals C :=
  σ.edit s fun p => { p with sig := f p.sig }

def setAction (l sig : Nat) (a : Action) (σ : Signals C) : Signals C :=
  { σ with actions := Function.update σ.actions l (Function.update (σ.actions l) sig a) }

/-- `restarts(l, sig)`. -/
def restarts (l sig : Nat) (σ : Signals C) : Bool := (σ.actions l sig).set SA_RESTART

/-- `would_act(l, sig)`. -/
def wouldAct (l sig : Nat) (σ : Signals C) : Bool :=
  if sig = SIGKILL then true
  else
    let a := σ.actions l sig
    !(a.handler = SIG_IGN ∨ a.handler = SIG_DFL ∧ defaultIgnored sig)

/-- `slot_of(pid)`. -/
def slotOf (pid : Nat) (σ : Signals C) : Option Nat :=
  let s := pid % MAX_PROCS
  if (σ.tasks s).Live ∧ (σ.tasks s).pid = pid then some s else none

/-! ### Sending -/

/-- The thread that gets a signal for the process of slot `l`. -/
def chosen (l sig : Nat) (σ : Signals C) : Nat :=
  if (σ.tasks l).sig.mask.has sig then
    ((List.range MAX_PROCS).find? fun i => decide ((σ.tasks i).leader = l ∧ (σ.tasks i).Live ∧
      (σ.tasks i).sig.mask.has sig = false)).getD l
  else l

/-- A thread that sleeps is woken by a signal. -/
def rouse [Context C] (restart : Bool) (p : Task C) : Task C :=
  let linux := p.abi = .linux
  let eintr := fun c : C => Context.setRet EINTR_RET c
  match p.state with
  | .sleeping | .futexWait | .waitChild | .sigWait =>
    if p.state = .waitChild ∧ linux ∧ restart then
      { p with ctx := Context.rewindSyscall p.ctx, state := .ready }
    else { p with ctx := if linux then eintr p.ctx else p.ctx, wakeAt := 0, state := .ready }
  | .ioWait =>
    if p.ioKey = POLL_KEY ∨ restart = false then
      { p with
        ctx := eintr (Context.skipSyscall p.ctx), wakeAt := 0, ioKey := 0, ioDeadline := 0,
        inPoll := false, state := .ready }
    else { p with wakeAt := 0, state := .ready }
  | _ => p

/-- A signal is pending at a thread, which is woken unless it blocks it. -/
def accept [Context C] (sig infoPid : Nat) (restart : Bool) (p : Task C) : Task C :=
  let p := { p with sig := { p.sig with
    pending := p.sig.pending ||| bit sig, fromPid := infoPid } }
  if p.sig.mask.has sig ∧ p.state ≠ .sigWait then p else rouse restart p

/-- `post_signal_locked(target, sig, thread, info_pid)`. -/
def postSignal [Context C] (target sig : Nat) (thread : Bool) (infoPid : Nat) (σ : Signals C) :
    Bool × Signals C :=
  match σ.slotOf target with
  | none => (false, σ)
  | some t =>
    let l := (σ.tasks t).leader
    if σ.wouldAct l sig then
      let dest := if thread then t else σ.chosen l sig
      (true, σ.edit dest (accept sig infoPid (σ.restarts l sig)))
    else (true, σ)

/-- `fault_signal(sig, code, addr)`, for the thread of slot `s`. -/
def faultSignal (s sig code addr : Nat) (σ : Signals C) : Bool × Signals C :=
  let p := σ.tasks s
  let a := σ.actions p.leader sig
  if p.abi ≠ .linux ∨ a.handler = SIG_DFL ∨ a.handler = SIG_IGN ∨ p.sig.mask.has sig ∨
      p.sig.faultCode ≠ 0 ∧ p.sig.pending.has sig then (false, σ)
  else (true, σ.editSig s fun g =>
    { g with pending := g.pending ||| bit sig, faultAddr := addr, faultCode := code })

/-! ### Delivery -/

/-- The signals that `deliver` finds. -/
def ready (g : SigThread) : SigSet := g.pending &&& ~~~g.mask.blockable

/-- What a thread has of signals when the handler of `sig` starts. -/
def enter (sig : Nat) (a : Action) (g : SigThread) : SigThread :=
  let old := if g.suspended then g.saved else g.mask
  let m := old ||| a.mask
  let m := if a.set SA_NODEFER then m else m ||| bit sig
  { g with
    suspended := false
    mask := m.blockable
    faultCode := if synchronous sig then 0 else g.faultCode }

/-- The handler of `sig` is to be started. -/
def handling (sig : Nat) (a : Action) (sp : Nat) (inPoll : Bool) (g : SigThread) : Handling :=
  let onAlt := g.altSp ≠ 0 ∧ g.altSp < sp ∧ sp ≤ (g.altSp + g.altSize) % 2 ^ 64
  { sig := sig
    act := a
    oldMask := if g.suspended then g.saved else g.mask
    alt := if a.set SA_ONSTACK ∧ g.altSp ≠ 0 ∧ ¬ onAlt then some (g.altSp, g.altSize) else none
    info := if synchronous sig ∧ g.faultCode ≠ 0 then (g.faultCode, g.faultAddr, 0)
      else (0, 0, g.fromPid)
    eintr := inPoll }

/-- One round of `deliver`, up to the plan. -/
def plan [Context C] (s : Nat) (σ : Signals C) : Plan × Signals C :=
  let p := σ.tasks s
  if p.abi ≠ .linux then (.none, σ.editSig s fun g => { g with pending := 0 })
  else
    match (ready p.sig).first with
    | none => (.none, σ)
    | some sig =>
      let σ := σ.editSig s fun g => { g with pending := g.pending &&& ~~~bit sig }
      let a := σ.actions p.leader sig
      if sig = SIGKILL ∨ a.handler = SIG_DFL then
        (if defaultIgnored sig ∧ sig ≠ SIGKILL then .none else .fatal sig, σ)
      else if a.handler = SIG_IGN then (.none, σ)
      else
        let h := handling sig a (Context.sp p.ctx) p.inPoll (σ.tasks s).sig
        let σ := if a.set SA_RESETHAND then σ.setAction p.leader sig .dfl else σ
        (.handle h, (σ.editSig s (enter sig a)).edit s fun p =>
          { p with inPoll := false, ioDeadline := if p.inPoll then 0 else p.ioDeadline })

/-! ### System calls -/

/-- `rt_sigaction(sig, act, oldact)`. -/
def sigaction (s sig : Nat) (new : Option Action) (σ : Signals C) : Signals C :=
  if sig = 0 ∨ 64 < sig then σ
  else
    match new with
    | none => σ
    | some n =>
      if sig = SIGKILL ∨ sig = SIGSTOP then σ
      else
        let σ := σ.setAction (σ.tasks s).leader sig { n with mask := n.mask.blockable }
        if n.handler = SIG_IGN then
          σ.editSig s fun g => { g with pending := g.pending &&& ~~~bit sig }
        else σ

/-- `rt_sigprocmask(how, set, oldset)`. -/
def sigprocmask (s how : Nat) (set : Option SigSet) (σ : Signals C) : Signals C :=
  match set with
  | none => σ
  | some v =>
    let new := fun prev : SigSet =>
      match how with
      | 0 => some (prev ||| v)
      | 1 => some (prev &&& ~~~v)
      | 2 => some v
      | _ => none
    match new (σ.tasks s).sig.mask with
    | none => σ
    | some m => σ.editSig s fun g => { g with mask := m.blockable }

/-- `sigaltstack(ss, old)`: the stack is taken away, or is another one. -/
def sigaltstack (s : Nat) (ss : Option (Nat × Nat)) (σ : Signals C) : Signals C :=
  match ss with
  | none => σ.editSig s fun g => { g with altSp := 0, altSize := 0 }
  | some (sp, size) =>
    if size < 2048 then σ else σ.editSig s fun g => { g with altSp := sp, altSize := size }

/-- `sig_suspend(frame, mask)`. -/
def sigSuspend [Context C] (s : Nat) (mask : SigSet) (σ : Signals C) : Signals C :=
  let σ := σ.edit s fun p => { p with
    sig := { p.sig with saved := p.sig.mask, suspended := true, mask := mask }
    ctx := Context.setRet EINTR_RET p.ctx }
  if (σ.tasks s).sig.pending &&& ~~~mask ≠ 0 then σ
  else σ.edit s fun p => { p with state := .sigWait }

/-- `rt_sigreturn`, with the mask and the registers of the frame. -/
def sigreturn (s : Nat) (mask : SigSet) (ctx : C) (σ : Signals C) : Signals C :=
  σ.edit s fun p => { p with
    ctx := ctx, sig := { p.sig with mask := mask.blockable, suspended := false } }

/-! ### Threads come and go -/

/-- What slot `i` holds at first: nothing but a new pid. -/
def fresh (i generation : Nat) (ctx : C) : Task C :=
  ⟨i + MAX_PROCS * generation, .ready, false, ctx, 0, .pulsar, 0, 0, 0, false, .new⟩

/-- `thread_create`: slot `i` is a new thread of the process of slot `s`. -/
def threadCreate (s i generation : Nat) (ctx : C) (σ : Signals C) : Signals C :=
  let l := (σ.tasks s).leader
  σ.edit i fun _ => { fresh i generation ctx with leader := l, abi := (σ.tasks l).abi }

/-- `clone_thread`: a thread that goes on from the call, with the mask of its creator. -/
def cloneThread [Context C] (s i generation : Nat) (σ : Signals C) : Signals C :=
  let p := σ.tasks s
  σ.edit i fun _ => { fresh i generation (Context.setRet 0 p.ctx) with
    leader := p.leader
    abi := (σ.tasks p.leader).abi
    sig := { SigThread.new with mask := p.sig.mask } }

/-- `fork`: slot `i` is a new process. -/
def fork [Context C] (s i generation : Nat) (σ : Signals C) : Signals C :=
  let p := σ.tasks s
  let σ := σ.edit i fun _ => { fresh i generation (Context.setRet 0 p.ctx) with
    leader := i, abi := p.abi, sig := { p.sig with pending := 0 } }
  { σ with actions := Function.update σ.actions i (σ.actions p.leader) }

/-- `create_ex`: slot `i` is a process of its own; `reset_actions`. -/
def create (i generation : Nat) (abi : Abi) (ctx : C) (σ : Signals C) : Signals C :=
  let σ := σ.edit i fun _ => { fresh i generation ctx with leader := i, abi := abi }
  { σ with actions := Function.update σ.actions i fun _ => .dfl }

/-- `exec_replace`, what is left of it: `exec_actions`, and the alternative stack is gone. -/
def execReplace (s : Nat) (abi : Abi) (ctx : C) (σ : Signals C) : Signals C :=
  let σ := σ.edit s fun p => { p with
    abi := abi, ctx := ctx, sig := { p.sig with altSp := 0, altSize := 0 } }
  { σ with actions := Function.update σ.actions s fun sig =>
      let a := σ.actions s sig
      if a.handler = SIG_IGN then a else .dfl }

/-! ### The system -/

end Signals

/-- What happens. -/
inductive SigAct (C : Type) where
  /-- User code runs on, and then enters the kernel. -/
  | trap (s : Nat) (ctx : C)
  | sigaction (s sig : Nat) (new : Option Action)
  | sigprocmask (s how : Nat) (set : Option SigSet)
  | sigaltstack (s : Nat) (ss : Option (Nat × Nat))
  | sigSuspend (s : Nat) (mask : SigSet)
  | sigreturn (s : Nat) (mask : SigSet) (ctx : C)
  | fault (s sig code addr : Nat)
  | post (target sig : Nat) (thread : Bool) (infoPid : Nat)
  /-- A round of `deliver`, with the registers that a handler starts with. -/
  | deliver (s : Nat) (ctx : C)
  /-- Back to user code. -/
  | resume (s : Nat)
  | threadCreate (s i generation : Nat) (ctx : C)
  | cloneThread (s i generation : Nat)
  | fork (s i generation : Nat)
  | create (i generation : Nat) (abi : Abi) (ctx : C)
  | execReplace (s : Nat) (abi : Abi) (ctx : C)
  /-- A thread is over. -/
  | ends (t : Nat) (zombie : Bool)
  /-- The rest of the kernel blocks, wakes or dispatches a thread. -/
  | other (t : Nat) (state : State) (ctx : C) (wakeAt ioKey ioDeadline : Nat) (inPoll : Bool)

namespace Signals

variable {C : Type}

/-- The thread runs in the kernel. -/
def InKernel (s : Nat) (σ : Signals C) : Prop :=
  (σ.tasks s).state = .running ∧ (σ.tasks s).user = false

instance (s : Nat) (σ : Signals C) : Decidable (σ.InKernel s) := by
  unfold InKernel
  infer_instance

/-- A thread that runs user code enters the kernel. -/
def enters (s : Nat) (f : Signals C → Signals C) (σ : Signals C) : Option (Signals C) :=
  if (σ.tasks s).state = .running ∧ (σ.tasks s).user = true then
    some (f (σ.edit s fun p => { p with user := false }))
  else none

/-- The slot is free for a new thread of a process that runs in the kernel. -/
def Births (s i : Nat) (σ : Signals C) : Prop :=
  σ.InKernel s ∧ i < MAX_PROCS ∧ (σ.tasks i).state = .unused

instance (s i : Nat) (σ : Signals C) : Decidable (σ.Births s i) := by
  unfold Births
  infer_instance

/-- One step, where it can happen. -/
def step [Context C] (σ : Signals C) : SigAct C → Option (Signals C)
  | .trap s ctx => σ.enters s fun σ => σ.edit s fun p => { p with ctx := ctx }
  | .sigaction s sig new => σ.enters s (sigaction s sig new)
  | .sigprocmask s how set => σ.enters s (sigprocmask s how set)
  | .sigaltstack s ss => σ.enters s (sigaltstack s ss)
  | .sigSuspend s mask => σ.enters s (sigSuspend s mask)
  | .sigreturn s mask ctx => σ.enters s (sigreturn s mask ctx)
  | .fault s sig code addr => σ.enters s fun σ => (σ.faultSignal s sig code addr).2
  | .post target sig thread infoPid => some (σ.postSignal target sig thread infoPid).2
  | .deliver s ctx =>
    if σ.InKernel s then
      match σ.plan s with
      | (.handle _, σ) => some (σ.edit s fun p => { p with ctx := ctx })
      | (_, σ) => some σ
    else none
  | .resume s => if σ.InKernel s then some (σ.edit s fun p => { p with user := true }) else none
  | .threadCreate s i generation ctx =>
    if σ.Births s i then some (σ.threadCreate s i generation ctx) else none
  | .cloneThread s i generation =>
    if σ.Births s i then some (σ.cloneThread s i generation) else none
  | .fork s i generation => if σ.Births s i then some (σ.fork s i generation) else none
  | .create i generation abi ctx =>
    if i < MAX_PROCS ∧ (σ.tasks i).state = .unused then some (σ.create i generation abi ctx)
    else none
  | .execReplace s abi ctx => if σ.InKernel s then some (σ.execReplace s abi ctx) else none
  | .ends t zombie =>
    if (σ.tasks t).Live then
      some (σ.edit t fun p => { p with state := if zombie then .zombie else .unused, user := false })
    else if (σ.tasks t).state = .zombie ∧ zombie = false then
      some (σ.edit t fun p => { p with state := .unused })
    else none
  | .other t state ctx wakeAt ioKey ioDeadline inPoll =>
    if (σ.tasks t).Live ∧ (σ.tasks t).user = false ∧ state ≠ .unused ∧ state ≠ .zombie then
      some (σ.edit t fun p => { p with
        state := state, ctx := ctx, wakeAt := wakeAt, ioKey := ioKey, ioDeadline := ioDeadline,
        inPoll := inPoll })
    else none

/-- No slot is taken. -/
def Boot (σ : Signals C) : Prop := ∀ i, (σ.tasks i).state = .unused

end Signals

end Pulsar.Proc

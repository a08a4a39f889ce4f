import Pulsar.Lib.Runs
import Pulsar.Proc.Ipc

/-!
# Processors and processes (`process.rs`)

`Machine` is the table with what the scheduler keeps beside it: the current slot of each processor,
the registers that are loaded there and those that are saved, and the exits that no `wait` has
collected.  An event is what one processor does while it holds SCHED, or user code that runs.

The clock, the signals and the objects of I/O are left out: they end some waits, and which ones is
given with the event.  `ctx` is the saved context without the result of the system call (`ret`), and
no root is the space of the kernel.
-/

namespace Pulsar.Proc

def EXITS_MAX : Nat := 64

/-- An entry of `EXITS`. -/
structure Exit where
  pid : Nat
  parent : Option Nat
  status : Nat
  deriving DecidableEq

/-- What an event does: to memory, which slot it dispatches, and the answers of `wait`. -/
inductive Output where
  | effect (e : Effect)
  /-- Slot `s` is dispatched on processor `c`. -/
  | dispatched (c s : Nat)
  /-- `record_exit` for a process. -/
  | exited (x : Exit)
  /-- A `wait` of a thread of this process collects the exit. -/
  | collected (me : Nat) (x : Exit)
  /-- A `wait` of a thread of this process for this child answers `ECHILD`. -/
  | noChild (me : Nat) (pid : Option Nat)
  deriving DecidableEq

/-- The scheduler: by slot `cpu` and the saved registers, by processor `CURRENT`, the registers
loaded, the active root and `ONLINE`; then `RR_NEXT`, `EXITS` and the outputs of the last event. -/
structure Machine where
  procs : Procs
  cpu : Nat → Nat
  ctx : Nat → Nat
  fp : Nat → Nat
  current : Nat → Option Nat
  frame : Nat → Nat
  fpu : Nat → Nat
  active : Nat → Option Nat
  online : Nat → Bool
  rrNext : Nat
  exits : Nat → Option Exit
  exitsNext : Nat
  out : List Output

/-- The waits that the clock, a signal or an object of I/O can end. -/
def State.Interruptible (st : State) : Prop :=
  st = .recvBlocked ∨ st = .sleeping ∨ st = .futexWait ∨ st = .waitChild ∨ st = .ioWait ∨
    st = .sigWait

instance (st : State) : Decidable st.Interruptible := by
  unfold State.Interruptible
  infer_instance

/-- The waits that end so, with the value that the call returns, if it is not taken again. -/
abbrev Wakes := List (Nat × Option Nat)

namespace Procs

/-- One wait ends. -/
def wake (w : Nat × Option Nat) (ps : Procs) : Procs :=
  if (ps w.1).state.Interruptible then
    ps.edit w.1 fun p => { p with ret := w.2.getD p.ret, state := .ready }
  else ps

def wakeAll (ws : Wakes) (ps : Procs) : Procs := ws.foldl (fun ps w => ps.wake w) ps

/-- `set_ret` for the current process. -/
def setRet (s v : Nat) (ps : Procs) : Procs := ps.edit s fun p => { p with ret := v }

/-- The slot that runs elsewhere ends when it enters the kernel. -/
def markKilled (s : Nat) (ps : Procs) : Procs := ps.edit s fun p => { p with killed := true }

/-- `set_status_of(s, status)`. -/
def setStatusOf (s status : Nat) (ps : Procs) : Procs :=
  ps.edit (ps s).leader fun p => { p with status := status }

/-- The pid of the process of a slot. -/
def leaderPid (s : Nat) (ps : Procs) : Nat := (ps (ps s).leader).pid

/-- The first that waits in `wait` for an exit, and gets it. -/
def collector (pid : Nat) (parent : Option Nat) (ps : Procs) : Option Nat :=
  (List.range MAX_PROCS).find? fun i =>
    decide (ps.waitsFor pid parent (ps i) ∧ (ps i).waitPtr ≠ WAIT_REDO)

/-- A child of `me` is alive that a `wait` for `pid` would collect. -/
def hasChild (me : Nat) (pid : Option Nat) (ps : Procs) : Prop :=
  ∃ i < MAX_PROCS, (ps i).Live ∧ (ps i).leader = (ps i).pid % MAX_PROCS ∧
    (ps i).parent = some me ∧ (pid = none ∨ pid = some (ps i).pid)

instance (me : Nat) (pid : Option Nat) (ps : Procs) : Decidable (ps.hasChild me pid) := by
  unfold hasChild
  infer_instance

/-- `exit_locked`: the word of `set_tid_address` is cleared, if it is mapped, and one that waits for
it goes on. -/
def clearTidOf (s : Nat) (mapped : Bool) (ps : Procs) : Outcome :=
  if (ps s).clearTid ≠ 0 ∧ mapped then
    ((ps.futexWake (ps s).root (ps s).clearTid 1).2, [.put32 (ps s).root (ps s).clearTid 0])
  else (ps, [])

end Procs

namespace Machine

/-- Before the first processor enters the scheduler. -/
def boot : Machine :=
  { procs := fun _ => Process.empty, cpu := fun _ => 0, ctx := fun _ => 0, fp := fun _ => 0,
    current := fun _ => none, frame := fun _ => 0, fpu := fun _ => 0, active := fun _ => none,
    online := fun _ => false, rrNext := 0, exits := fun _ => none, exitsNext := 0, out := [] }

variable (c s : Nat) (ws : Wakes) (σ : Machine)

/-- A function changes the table and memory. -/
def after (r : Outcome) (σ : Machine) : Machine :=
  { σ with procs := r.1, out := σ.out ++ r.2.map .effect }

/-- A function changes the table only. -/
def onProcs (f : Procs → Procs) (σ : Machine) : Machine := { σ with procs := f σ.procs }

/-! ### The scheduler -/

/-- The slot that `dispatch` chooses. -/
def choose (ps : Procs) : Option Nat :=
  ((List.range MAX_PROCS).map fun k => (σ.rrNext + k) % MAX_PROCS).find? fun i =>
    decide ((ps i).state = .ready)

/-- The registers of floating point, when the slot that has them changes. -/
def switchFp (chosen : Option Nat) : Machine :=
  if chosen = σ.current c then σ
  else
    let fp := (σ.current c).elim σ.fp fun p => Function.update σ.fp p (σ.fpu c)
    { σ with fp := fp, fpu := chosen.elim σ.fpu fun i => Function.update σ.fpu c (fp i) }

/-- `dispatch`, with the waits that end. -/
def dispatch : Machine :=
  let ps := σ.procs.wakeAll ws
  match σ.choose ps with
  | none =>
    { σ.switchFp c none with
      procs := ps
      current := Function.update σ.current c none
      frame := Function.update σ.frame c 0
      active := Function.update σ.active c none }
  | some i =>
    { σ.switchFp c (some i) with
      procs := ps.setState i .running
      cpu := Function.update σ.cpu i c
      current := Function.update σ.current c (some i)
      frame := Function.update σ.frame c (σ.ctx i)
      active := Function.update σ.active c (ps i).root
      rrNext := (i + 1) % MAX_PROCS
      out := σ.out ++ [.dispatched c i] }

/-- The context of slot `s`, current on `c`, is saved. -/
def save : Machine := { σ with ctx := Function.update σ.ctx s (σ.frame c) }

/-- `block`: slot `s` waits. -/
def block : Machine := (σ.save c s).dispatch c ws

/-- `schedule`. -/
def schedule : Machine :=
  match σ.current c with
  | none => σ.dispatch c ws
  | some s =>
    ((σ.save c s).onProcs fun ps =>
      if (ps s).state = .running then ps.setState s .ready else ps).dispatch c ws

/-- `on_ipi`. -/
def onIpi : Machine := if σ.current c = none then σ.dispatch c ws else σ

/-- `enter_scheduler`. -/
def enterScheduler : Machine :=
  { σ with online := Function.update σ.online c true,
           current := Function.update σ.current c none }.dispatch c ws

/-! ### The end of a process -/

/-- `record_exit(s)`: who gets the exit, or its place in `EXITS`. -/
def recordExit : Machine :=
  let x : Exit := ⟨(σ.procs s).pid, (σ.procs s).parent, (σ.procs s).status⟩
  match (σ.procs.leave s).collector x.pid x.parent with
  | some w => { σ with out := σ.out ++ [.exited x, .collected (σ.procs.leaderPid w) x] }
  | none =>
    { σ with
      out := σ.out ++ [.exited x]
      exits := Function.update σ.exits σ.exitsNext (some x)
      exitsNext := (σ.exitsNext + 1) % EXITS_MAX }

/-- `reap(s)`. -/
def reap : Machine :=
  (if (σ.procs s).leader = s then σ.recordExit s else σ).after (σ.procs.reap s)

/-- `exit_locked` by slot `s`, current on `c`, before it dispatches. -/
def leaveCpu (mapped : Bool) : Machine :=
  let σ := (σ.after (σ.procs.clearTidOf s mapped)).save c s
  { σ with current := Function.update σ.current c none,
           active := Function.update σ.active c none }.reap s

/-- `exit_locked`. -/
def exitLocked (mapped : Bool) : Machine := (σ.leaveCpu c s mapped).dispatch c ws

/-- A slot that is not current on this processor is killed: now, or when it enters the kernel. -/
def killOther : Machine :=
  if (σ.procs s).state = .running then σ.onProcs (·.markKilled s) else σ.reap s

/-- `exit_if_killed`. -/
def exitIfKilled (mapped : Bool) : Machine :=
  if (σ.procs s).killed then σ.exitLocked c s ws mapped else σ

/-- `exit_group`. -/
def exitGroup (mapped : Bool) : Machine :=
  let l := (σ.procs s).leader
  (if l ≠ s ∧ (σ.procs l).Live then σ.killOther l else σ).exitLocked c s ws mapped

/-- `kill_sig(pid, sig)`. -/
def killSig (pid sig : Nat) (mapped : Bool) : Machine :=
  match σ.procs.slotOf pid with
  | none => σ
  | some s =>
    let σ := σ.onProcs (·.setStatusOf s (sig % 128))
    if σ.current c = some s then σ.exitLocked c s ws mapped else σ.killOther s

/-! ### The beginning -/

/-- A slot begins with these registers; with none the registers are not used. -/
def begins (r : Option Nat × Procs) (ctx fp : Nat) : Machine :=
  match r.1 with
  | none => { σ with procs := r.2 }
  | some i =>
    { σ with procs := r.2, cpu := Function.update σ.cpu i 0, ctx := Function.update σ.ctx i ctx,
             fp := Function.update σ.fp i fp }

/-- `exec_replace` by slot `s`, current on `c`. -/
def execReplace (root asid ctx : Nat) : Machine :=
  let r := σ.procs.execReplace s root asid
  if r.1 then
    { σ.after r.2 with
      fp := Function.update σ.fp s 0
      frame := Function.update σ.frame c ctx
      fpu := Function.update σ.fpu c 0
      active := Function.update σ.active c (some root) }
  else σ.after r.2

/-- `fork` in the space of slot `s`, current on `c`, which waits if there is a slot. -/
def vfork (ctx clearTid : Nat) : Machine :=
  let r := σ.procs.fork s none clearTid
  let τ := σ.begins r ctx (σ.fpu c)
  match r.1 with
  | none => τ
  | some i => (τ.onProcs (·.setRet s (r.2 i).pid)).block c s ws

/-! ### Messages -/

/-- `ipc_send`. -/
def ipcSend (dstPid : Nat) (msg : Message) (msgPtr : Nat) : Machine :=
  let r := σ.procs.ipcSend s dstPid msg msgPtr
  if r.1 then (σ.after r.2).block c s ws else σ.onProcs (·.setRet s (2 ^ 64 - 1))

/-- `ipc_recv`. -/
def ipcRecv (msgPtr : Nat) : Machine :=
  let r := σ.procs.ipcRecv s msgPtr
  match r.1 with
  | some pid => (σ.after r.2).onProcs (·.setRet s pid)
  | none => (σ.after r.2).block c s ws

/-- `ipc_try_recv`. -/
def ipcTryRecv (msgPtr : Nat) : Machine :=
  match σ.procs.findSender s with
  | some i =>
    let r := σ.procs.acceptFrom s i msgPtr
    (σ.after r.2).onProcs (·.setRet s r.1)
  | none => σ.onProcs (·.setRet s (2 ^ 64 - 1))

/-- `ipc_reply`. -/
def ipcReply (toPid : Nat) (msg : Message) : Machine :=
  (σ.after (σ.procs.ipcReply s toPid msg)).onProcs (·.setRet s 0)

/-! ### The exits of children -/

/-- The entry of `EXITS` that a `wait` of `me` for `pid` finds. -/
def findExit (me : Nat) (pid : Option Nat) : Option (Nat × Exit) :=
  (List.range EXITS_MAX).findSome? fun k =>
    (σ.exits k).bind fun x =>
      if x.parent = some me ∧ (pid = none ∨ pid = some x.pid) then some (k, x) else none

/-- `wait_child`. -/
def waitChild (pid : Option Nat) (statusPtr : Nat) (nohang : Bool) : Machine :=
  let me := σ.procs.leaderPid s
  match σ.findExit me pid with
  | some (k, x) =>
    let τ := (σ.after (σ.procs.setRet s x.pid,
      if statusPtr ≠ 0 then [.put32 (σ.procs s).root statusPtr x.status] else []))
    { τ with exits := Function.update σ.exits k none, out := τ.out ++ [.collected me x] }
  | none =>
    if ¬ σ.procs.hasChild me pid then
      { σ.onProcs (·.setRet s (2 ^ 64 - 10)) with out := σ.out ++ [.noChild me pid] }
    else if nohang then σ.onProcs (·.setRet s 0)
    else
      (σ.onProcs (·.edit s fun p =>
        { p with state := .waitChild, waitPid := pid, waitPtr := statusPtr })).block c s ws

/-- `waitid_child`; its caller reports what was found. -/
def waitidChild (pid : Option Nat) (nohang nowait : Bool) : Machine :=
  let me := σ.procs.leaderPid s
  match σ.findExit me pid with
  | some (k, x) =>
    if nowait then σ.onProcs (·.setRet s 0)
    else
      { σ.onProcs (·.setRet s 0) with
        exits := Function.update σ.exits k none, out := σ.out ++ [.collected me x] }
  | none =>
    if ¬ σ.procs.hasChild me pid then
      { σ.onProcs (·.setRet s (2 ^ 64 - 10)) with out := σ.out ++ [.noChild me pid] }
    else if nohang then σ.onProcs (·.setRet s 0)
    else
      (σ.onProcs (·.edit s fun p =>
        { p with state := .waitChild, waitPid := pid, waitPtr := Procs.WAIT_REDO })).block c s ws

/-- Where no child has ended, `waitid_child` waits as `wait_child` does. -/
theorem waitidChild_none {pid : Option Nat} {nohang nowait : Bool}
    (h : σ.findExit (σ.procs.leaderPid s) pid = none) : σ.waitidChild c s ws pid nohang nowait =
      σ.waitChild c s ws pid Procs.WAIT_REDO nohang := by
  rw [waitidChild, waitChild, h]

end Machine

/-! ### Events -/

/-- The calls of the current process. -/
inductive Machine.Call where
  | threadCreate (ctx : Nat)
  | cloneThread (ctx clearTid : Nat)
  | fork (root asid ctx clearTid : Nat)
  | vfork (ctx clearTid : Nat)
  | execReplace (root asid ctx : Nat)
  | ipcSend (dstPid : Nat) (msg : Message) (msgPtr : Nat)
  | ipcRecv (msgPtr : Nat)
  | ipcTryRecv (msgPtr : Nat)
  | ipcReply (toPid : Nat) (msg : Message)
  | waitChild (pid : Option Nat) (statusPtr : Nat) (nohang : Bool)
  | waitidChild (pid : Option Nat) (nohang nowait : Bool)
  | futexWait (addr : Nat)
  | futexWake (addr n : Nat)
  /-- `sleep_ticks`, `io_wait_until`, `io_wait_mask` or `sig_suspend`, where they wait. -/
  | pause (st : State) (ret : Nat)
  | setStatus (status : Nat) (group : Bool)
  | setClearTid (addr : Nat)
  | exitIfKilled (mapped : Bool)
  | exitCurrent (mapped : Bool)
  | exitGroup (mapped : Bool)

/-- What happens on processor `c`. -/
inductive Machine.Event where
  | enterScheduler (c : Nat) (ws : Wakes)
  /-- A tick of the timer, or `yield`. -/
  | schedule (c : Nat) (ws : Wakes)
  | onIpi (c : Nat) (ws : Wakes)
  /-- The current process changes its registers. -/
  | user (c frame fpu : Nat)
  | createEx (c root asid ctx : Nat)
  | killSig (c pid sig : Nat) (mapped : Bool) (ws : Wakes)
  | call (c : Nat) (k : Call) (ws : Wakes)
  /-- A signal is sent, or an object of I/O has changed. -/
  | wake (ws : Wakes)

namespace Machine

/-- One call by slot `s`, current on `c`. -/
def call (c s : Nat) (ws : Wakes) (σ : Machine) : Call → Option Machine
  | .threadCreate ctx => some (σ.begins (σ.procs.threadCreate s 0) ctx 0)
  | .cloneThread ctx clearTid => some (σ.begins (σ.procs.threadCreate s clearTid) ctx (σ.fpu c))
  | .fork root asid ctx clearTid =>
    some (σ.begins (σ.procs.fork s (some (root, asid)) clearTid) ctx (σ.fpu c))
  | .vfork ctx clearTid => some (σ.vfork c s ws ctx clearTid)
  | .execReplace root asid ctx => some (σ.execReplace c s root asid ctx)
  | .ipcSend dstPid msg msgPtr => some (σ.ipcSend c s ws dstPid msg msgPtr)
  | .ipcRecv msgPtr => some (σ.ipcRecv c s ws msgPtr)
  | .ipcTryRecv msgPtr => some (σ.ipcTryRecv s msgPtr)
  | .ipcReply toPid msg => some (σ.ipcReply s toPid msg)
  | .waitChild pid statusPtr nohang => some (σ.waitChild c s ws pid statusPtr nohang)
  | .waitidChild pid nohang nowait => some (σ.waitidChild c s ws pid nohang nowait)
  | .futexWait addr =>
    some ((σ.onProcs (·.edit s fun p =>
      { p with ret := 0, state := .futexWait, futexAddr := addr })).block c s ws)
  | .futexWake addr n => some (σ.onProcs fun ps => (ps.futexWake (ps s).root addr n).2)
  | .pause st ret =>
    if st = .sleeping ∨ st = .ioWait ∨ st = .sigWait then
      some ((σ.onProcs (·.edit s fun p => { p with ret := ret, state := st })).block c s ws)
    else none
  | .setStatus status group =>
    some (σ.onProcs fun ps => if group ∨ (ps s).leader = s then ps.setStatusOf s status else ps)
  | .setClearTid addr => some (σ.onProcs (·.edit s fun p => { p with clearTid := addr }))
  | .exitIfKilled mapped => some (σ.exitIfKilled c s ws mapped)
  | .exitCurrent mapped => some (σ.exitLocked c s ws mapped)
  | .exitGroup mapped => some (σ.exitGroup c s ws mapped)

/-- One event, where it can happen. -/
def act (σ : Machine) : Event → Option Machine
  | .enterScheduler c ws => if σ.online c then none else some (σ.enterScheduler c ws)
  | .schedule c ws => if σ.online c then some (σ.schedule c ws) else none
  | .onIpi c ws => if σ.online c then some (σ.onIpi c ws) else none
  | .user c frame fpu =>
    if σ.current c = none then none
    else some { σ with frame := Function.update σ.frame c frame
                       fpu := Function.update σ.fpu c fpu }
  | .createEx c root asid ctx =>
    some (σ.begins (σ.procs.createEx (σ.current c) root asid) ctx 0)
  | .killSig c pid sig mapped ws =>
    if σ.online c then some (σ.killSig c ws pid sig mapped) else none
  | .call c k ws => (σ.current c).bind fun s => σ.call c s ws k
  | .wake ws => some (σ.onProcs (·.wakeAll ws))

/-- One event, with its own outputs. -/
def step (σ : Machine) (e : Event) : Option Machine := { σ with out := [] }.act e

end Machine

end Pulsar.Proc

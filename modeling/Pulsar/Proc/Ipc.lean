import Pulsar.Proc.Life

/-!
# Messages and futexes (`process.rs`)

A process that sends or receives leaves the address of its buffer in `msg_ptr`; the one that
completes the operation writes there.  Who runs next on which processor is left out.
-/

namespace Pulsar.Proc

namespace Procs

variable (s : Nat) (ps : Procs)

/-- `slot_of(pid)`. -/
def slotOf (pid : Nat) (ps : Procs) : Option Nat :=
  if (ps (pid % MAX_PROCS)).Live ∧ (ps (pid % MAX_PROCS)).pid = pid then some (pid % MAX_PROCS)
  else none

/-- `write_msg(root, va, m)`, if there is a buffer. -/
def writeMsg (root : Option Nat) (va : Nat) (m : Message) : List Effect :=
  if va ≠ 0 then [.putMsg root va m] else []

/-- `deliver_recv(p)`. -/
def deliverRecv (p : Nat) (ps : Procs) : Outcome :=
  (ps.edit p fun q => { q with ret := (ps (ps p).peer).pid },
    writeMsg (ps p).root (ps p).msgPtr (ps p).inbox)

/-- `ipc_send(dst_pid, msg, msg_ptr)` by `me`: whether it was begun. -/
def ipcSend (me dstPid : Nat) (msg : Message) (msgPtr : Nat) (ps : Procs) : Bool × Outcome :=
  match ps.slotOf dstPid with
  | none => (false, ps, [])
  | some dst =>
    if dst = me then (false, ps, [])
    else
      let ps := ps.edit me fun p => { p with msgPtr := msgPtr }
      if (ps dst).state = .recvBlocked then
        let r := (ps.edit dst fun p => { p with inbox := msg, peer := me }).deliverRecv dst
        (true, (r.1.setState dst .ready).edit me
          fun p => { p with state := .replyBlocked, peer := dst }, r.2)
      else (true, ps.edit me fun p => { p with state := .sendBlocked, sendTo := dst, inbox := msg },
        [])

/-- `find_sender(me)`. -/
def findSender (me : Nat) (ps : Procs) : Option Nat :=
  ((List.range MAX_PROCS).map fun k => (me + (k + 1)) % MAX_PROCS).find? fun i =>
    decide ((ps i).state = .sendBlocked ∧ (ps i).sendTo = me)

/-- `accept_from(me, s, msg_ptr)`; the answer is the pid of the sender. -/
def acceptFrom (me s msgPtr : Nat) (ps : Procs) : Nat × Outcome :=
  ((ps s).pid, (ps.edit me fun p => { p with inbox := (ps s).inbox, peer := s }).edit s
    fun p => { p with state := .replyBlocked, peer := me }, writeMsg (ps me).root msgPtr (ps s).inbox)

/-- `ipc_recv(msg_ptr)` by `me`: the pid of a sender, or it waits for one. -/
def ipcRecv (me msgPtr : Nat) (ps : Procs) : Option Nat × Outcome :=
  match ps.findSender me with
  | some s =>
    let r := ps.acceptFrom me s msgPtr
    (some r.1, r.2)
  | none => (none, ps.edit me fun p => { p with msgPtr := msgPtr, state := .recvBlocked }, [])

/-- `ipc_reply(to_pid, msg)` by `me`. -/
def ipcReply (me toPid : Nat) (msg : Message) (ps : Procs) : Outcome :=
  match ps.slotOf toPid with
  | none => (ps, [])
  | some p =>
    if (ps p).state = .replyBlocked ∧ (ps p).peer = me then
      (ps.edit p fun q => { q with reply := msg, ret := 0, state := .ready },
        writeMsg (ps p).root (ps p).msgPtr msg)
    else (ps, [])

/-- The process waits on the futex. -/
def waitsOn (root : Option Nat) (addr : Nat) (p : Process) : Prop :=
  p.state = .futexWait ∧ p.root = root ∧ p.futexAddr = addr

instance (root : Option Nat) (addr : Nat) (p : Process) : Decidable (waitsOn root addr p) := by
  unfold waitsOn
  infer_instance

/-- The loop of `futex_wake_locked(root, addr, n)`, with the number of processes woken. -/
def wakeLoop (root : Option Nat) (addr : Nat) : Nat → List Nat → Procs → Nat × Procs
  | 0, _, ps => (0, ps)
  | _, [], ps => (0, ps)
  | n + 1, i :: is, ps =>
    if waitsOn root addr (ps i) then
      let r := wakeLoop root addr n is (ps.edit i fun p => { p with ret := 0, state := .ready })
      (r.1 + 1, r.2)
    else wakeLoop root addr (n + 1) is ps

/-- `futex_wake_locked(root, addr, n)`. -/
def futexWake (root : Option Nat) (addr n : Nat) (ps : Procs) : Nat × Procs :=
  wakeLoop root addr n (List.range MAX_PROCS) ps

end Procs

end Pulsar.Proc

import Pulsar.Proc.State

/-!
# How processes begin and end (`process.rs`)

Each function runs with the lock SCHED held.  Those that end a process list what they do to memory.
Signals, priorities and the accounting of time are left out: they choose among the states of live
processes.
-/

namespace Pulsar.Proc

/-- A table and what was done to memory. -/
abbrev Outcome := Procs × List Effect

namespace Procs

variable (s : Nat) (ps : Procs)

/-! ### The end -/

/-- `free_mm(m)`. -/
def freeMm (m : Nat) (ps : Procs) : Outcome :=
  (ps.edit m fun p => { p with root := none }, [.freeMm m (ps m).root])

/-- `drop_mm(s)`: whether `s` owns a space that others still use. -/
def dropMm (s : Nat) (ps : Procs) : Bool × Outcome :=
  let m := (ps s).mm
  let ps := ps.edit m fun p => { p with members := p.members - 1 }
  if m = s then
    if 0 < (ps s).members then (true, ps, [])
    else (false, ps.freeMm s)
  else
    let ps := ps.edit s fun p => { p with root := none, mm := s }
    if (ps m).state = .zombie ∧ (ps m).members = 0 then
      let r := ps.freeMm m
      (false, r.1.setState m .unused, r.2)
    else (false, ps, [])

/-- `release(s)`. -/
def release (s : Nat) (ps : Procs) : Outcome :=
  let r := ps.dropMm s
  (r.2.1.setState s (if r.1 then .zombie else .unused), r.2.2)

/-- `wake_vfork_parent(s)`. -/
def wakeVforkParent (s : Nat) (ps : Procs) : Procs :=
  let p := (ps s).vforkParent
  let ps := ps.edit s fun p => { p with vforkParent := none }
  match p with
  | some q => if (ps q).state = .vforkWait then ps.setState q .ready else ps
  | none => ps

/-- The partners of a message with `s` go on without it. -/
def freePartners (s : Nat) (ps : Procs) : Procs := fun i =>
  let p := ps i
  if i < MAX_PROCS ∧ (p.state = .replyBlocked ∧ p.peer = s ∨ p.state = .sendBlocked ∧ p.sendTo = s)
  then { p with reply := .zero, ret := 2 ^ 64 - 1, state := .ready }
  else p

/-- `wait_ptr` of a process that waits in `waitid`. -/
def WAIT_REDO : Nat := 2 ^ 64 - 1

/-- The process waits for `pid`, a child of `parent`. -/
def waitsFor (ps : Procs) (pid : Nat) (parent : Option Nat) (p : Process) : Prop :=
  p.state = .waitChild ∧ p.pid ≠ pid ∧ some (ps p.leader).pid = parent ∧
    (p.waitPid = none ∨ p.waitPid = some pid)

instance (pid : Nat) (parent : Option Nat) (p : Process) : Decidable (ps.waitsFor pid parent p) := by
  unfold waitsFor
  infer_instance

/-- The loop of `record_exit`: those that wait in `waitid` look again, the first that waits in
`wait` gets the status. -/
def recordLoop (pid : Nat) (parent : Option Nat) (status : Nat) : List Nat → Procs → Outcome
  | [], ps => (ps, [])
  | i :: is, ps =>
    if ps.waitsFor pid parent (ps i) then
      if (ps i).waitPtr = WAIT_REDO then recordLoop pid parent status is (ps.setState i .ready)
      else
        (ps.edit i fun p => { p with ret := pid, state := .ready },
          if (ps i).waitPtr ≠ 0 then [.put32 (ps i).root (ps i).waitPtr status] else [])
    else recordLoop pid parent status is ps

/-- `record_exit(s)`. -/
def recordExit (s : Nat) (ps : Procs) : Outcome :=
  recordLoop (ps s).pid (ps s).parent (ps s).status (List.range MAX_PROCS) ps

/-- The first part of `reap(s)`: its partners and the parent of a `vfork` go on. -/
def leave (s : Nat) (ps : Procs) : Procs :=
  ((ps.edit s fun p => { p with killed := false, state := .unused }).freePartners s).wakeVforkParent s

/-- `reap(s)` of a thread that leads no process. -/
def reapThread (s : Nat) (ps : Procs) : Outcome := (ps.leave s).release s

/-- The other threads of leader `s` end, or are told to when they run. -/
def reapThreads (s : Nat) : List Nat → Outcome → Outcome
  | [], r => r
  | i :: is, r =>
    if i = s ∨ (r.1 i).leader ≠ s then reapThreads s is r
    else
      match (r.1 i).state with
      | .unused | .zombie => reapThreads s is r
      | .running => reapThreads s is (r.1.edit i fun p => { p with killed := true }, r.2)
      | _ =>
        let t := r.1.reapThread i
        reapThreads s is (t.1, r.2 ++ t.2)

/-- `reap(s)`. -/
def reap (s : Nat) (ps : Procs) : Outcome :=
  if (ps s).leader = s then
    let r := reapThreads s (List.range MAX_PROCS) ((ps.leave s).recordExit s)
    let t := r.1.release s
    (t.1, r.2 ++ t.2)
  else ps.reapThread s

/-! ### The beginning -/

/-- `create_ex(..)` by `c`, or by the kernel, up to its setup: the new process in the slot found. -/
def createEx (c : Option Nat) (root asid : Nat) (ps : Procs) : Option Nat × Procs :=
  match ps.freeSlot with
  | none => (none, ps)
  | some i => (some i, ps.edit i fun _ =>
      { ps.fresh i with root := some root, asid := asid, leader := i, mm := i, members := 1,
                        parent := c.map fun c => (ps (ps c).leader).pid, state := .ready })

/-- `thread_create` and `clone_thread` by `s`. -/
def threadCreate (s clearTid : Nat) (ps : Procs) : Option Nat × Procs :=
  let l := (ps s).leader
  let m := (ps s).mm
  match ps.freeSlot with
  | none => (none, ps)
  | some i =>
    let ps := ps.edit i fun _ =>
      { ps.fresh i with root := (ps m).root, asid := (ps m).asid, leader := l, mm := m,
                        parent := (ps l).parent, clearTid := clearTid, state := .ready }
    (some i, ps.edit m fun p => { p with members := p.members + 1 })

/-- `fork(..)` by `s`, with a new space, its root and identifier, or in the parent's. -/
def fork (s : Nat) (new : Option (Nat × Nat)) (clearTid : Nat) (ps : Procs) : Option Nat × Procs :=
  let m := (ps s).mm
  match ps.freeSlot with
  | none => (none, ps)
  | some i =>
    let c := { ps.fresh i with leader := i, parent := some (ps (ps s).leader).pid,
                               clearTid := clearTid, state := .ready }
    match new with
    | some (root, asid) =>
      (some i, ps.edit i fun _ => { c with root := some root, asid := asid, mm := i, members := 1 })
    | none =>
      let ps := (ps.edit m fun p => { p with members := p.members + 1 }).edit i fun _ =>
        { c with root := (ps m).root, asid := (ps m).asid, mm := m, vforkParent := some s }
      (some i, ps.setState s .vforkWait)

/-- `exec_replace(..)` by `s`, up to its setup: whether the image was replaced. -/
def execReplace (s root asid : Nat) (ps : Procs) : Bool × Outcome :=
  if (ps s).leader ≠ s then (false, ps, [])
  else
    let r := reapThreads s (List.range MAX_PROCS) (ps, [])
    if (r.1 s).mm = s ∧ 1 < (r.1 s).members then (false, r)
    else
      let d := (r.1.wakeVforkParent s).dropMm s
      (true, d.2.1.edit s fun p =>
        { p with root := some root, asid := asid, mm := s, members := 1, clearTid := 0 }, r.2 ++ d.2.2)

end Procs

end Pulsar.Proc

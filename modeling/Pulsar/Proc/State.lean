import Mathlib.Algebra.Ring.Nat
import Mathlib.Logic.Function.Basic

/-!
# The table of processes (`process.rs`)

A slot holds a process or one of its threads.  `leader` is the slot of its process, `mm` the slot
that owns its address space, and `members` counts, in the owner, the live slots that use the space.
Beside the fields that say who uses which space the record has those of the operations that write
to the memory of another process: the messages, `wait` and the word cleared at the end of a thread.

What such an operation does to memory is listed as an `Effect`, in order.
-/

namespace Pulsar.Proc

def MAX_PROCS : Nat := 256

inductive State where
  | unused | ready | running | sendBlocked | recvBlocked | replyBlocked | sleeping | futexWait
  | waitChild | vforkWait | ioWait | sigWait | zombie
  deriving DecidableEq

/-- `Message`: the tag and six words. -/
structure Message where
  tag : Nat
  data : Vector Nat 6
  deriving DecidableEq

def Message.zero : Message := ⟨0, Vector.replicate 6 0⟩

/-- `Process`; `ret` is the value that its context returns to user code, no root is 0.
`generation` is `GENERATION` of the slot, which outlives the process. -/
structure Process where
  pid : Nat
  generation : Nat
  state : State
  ret : Nat
  root : Option Nat
  asid : Nat
  inbox : Message
  reply : Message
  peer : Nat
  sendTo : Nat
  msgPtr : Nat
  killed : Bool
  leader : Nat
  mm : Nat
  members : Nat
  vforkParent : Option Nat
  futexAddr : Nat
  parent : Option Nat
  status : Nat
  waitPid : Option Nat
  waitPtr : Nat
  clearTid : Nat

/-- `Process::empty()`. -/
def Process.empty : Process :=
  { pid := 0, generation := 0, state := .unused, ret := 0, root := none, asid := 0, inbox := .zero, reply := .zero,
    peer := 0, sendTo := 0, msgPtr := 0, killed := false, leader := 0, mm := 0, members := 0,
    vforkParent := none, futexAddr := 0, parent := none, status := 0, waitPid := none,
    waitPtr := 0, clearTid := 0 }

/-- The table. -/
abbrev Procs := Nat → Process

/-- What is done to memory on behalf of a process: its space goes, or a word or a message is
written there. -/
inductive Effect where
  | freeMm (m : Nat) (root : Option Nat)
  | put32 (root : Option Nat) (va value : Nat)
  | putMsg (root : Option Nat) (va : Nat) (m : Message)
  deriving DecidableEq

/-- The slot is taken, and not by a process that is over. -/
def Process.Live (p : Process) : Prop := p.state ≠ .unused ∧ p.state ≠ .zombie

instance (p : Process) : Decidable p.Live := by unfold Process.Live; infer_instance

namespace Procs

/-- The process of a slot changes. -/
def edit (i : Nat) (f : Process → Process) (ps : Procs) : Procs := Function.update ps i (f (ps i))

/-- A process with this state. -/
def setState (i : Nat) (st : State) (ps : Procs) : Procs := ps.edit i fun p => { p with state := st }

/-- The first slot that is not in use. -/
def freeSlot (ps : Procs) : Option Nat :=
  (List.range MAX_PROCS).find? fun i => decide ((ps i).state = .unused)

/-- What a slot holds at first: nothing but a new pid. -/
def fresh (i : Nat) (ps : Procs) : Process :=
  { Process.empty with pid := i + MAX_PROCS * (ps i).generation, generation := (ps i).generation + 1 }

end Procs

end Pulsar.Proc

import Pulsar.Proc.Ipc
import Pulsar.Vm.Words

/-!
# The table of processes and their memory

What a function of `process.rs` lists as effects is done to the memory in order.
-/

namespace Pulsar

open Proc Vm

/-- The table of processes and the memory. -/
structure System where
  procs : Procs
  mm : Mm

namespace Vm.Mm

/-- `free_mm(m)`, for the memory. -/
def freeMm (m : Nat) (root : Option Nat) (s : Mm) : Mm :=
  release m (root.elim s fun r => s.freeSpace r)

end Vm.Mm

/-- The words of a message in its buffer. -/
def Proc.Message.words (va : Nat) (m : Message) : List Word :=
  (m.tag :: m.data.toList).zipIdx.map fun w => ⟨va + 8 * w.2, 8, w.1⟩

namespace Vm.Mm

/-- What an effect does to the memory. -/
def effect (s : Mm) : Effect → Mm
  | .freeMm m root => s.freeMm m root
  | .put32 root va value => root.elim s fun r => s.puts r [⟨va, 4, value⟩]
  | .putMsg root va m => root.elim s fun r => s.puts r (m.words va)

/-- Effects in order. -/
def effects (es : List Effect) (s : Mm) : Mm := es.foldl effect s

end Vm.Mm

namespace System

/-- The same system with other contents of memory. -/
def withMem (mem : Nat → Bytes) (σ : System) : System := { σ with mm := σ.mm.withMem mem }

/-- The outcome of a function of `process.rs`. -/
def after (r : Outcome) (σ : System) : System := ⟨r.1, σ.mm.effects r.2⟩

end System

end Pulsar

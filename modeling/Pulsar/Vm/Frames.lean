import Mathlib.Algebra.Ring.Nat
import Mathlib.Data.List.Range
import Mathlib.Logic.Function.Basic

/-!
# The frame allocator (`frame_allocator.rs`)

The frames of the window are numbered from 0; a frame from `n` on, or a reserved one, lies outside
what is handed out, and freeing it does nothing.  `used` is the bitmap, `refs` the reference
counts; the number of free frames, which only reports read, is left out.
-/

namespace Pulsar.Vm

/-- The allocator: `NUM_FRAMES`, `reserved`, `BITMAP`, `REFCOUNT` and `HINT`. -/
structure Frames where
  n : Nat
  reserved : Nat → Bool
  used : Nat → Bool
  refs : Nat → Nat
  hint : Nat

/-- The largest reference count. -/
def REF_MAX : Nat := 65535

namespace Frames

/-- `init()`: the reserved frames are in use. -/
def boot (n : Nat) (reserved : Nat → Bool) : Frames :=
  ⟨n, reserved, reserved, fun f => if reserved f then 1 else 0, 0⟩

/-- The frame is one of the window's that may be handed out. -/
def Owned (s : Frames) (f : Nat) : Prop := f < s.n ∧ s.reserved f = false

instance (s : Frames) (f : Nat) : Decidable (s.Owned f) := by unfold Owned; infer_instance

/-- `is_free(idx)`; the bits past the window are set. -/
def isFree (s : Frames) (f : Nat) : Bool := decide (f < s.n) && !s.used f

/-- `set_used(idx)`. -/
def setUsed (f : Nat) (s : Frames) : Frames :=
  { s with used := Function.update s.used f true, refs := Function.update s.refs f 1 }

/-- `inc_ref(addr)`. -/
def incRef (f : Nat) (s : Frames) : Frames :=
  if s.Owned f then { s with refs := Function.update s.refs f (min (s.refs f + 1) REF_MAX) } else s

/-- `ref_count(addr)`. -/
def refCount (s : Frames) (f : Nat) : Nat := if s.Owned f then s.refs f else 1

/-- The order in which `alloc_frame` looks at the frames: word by word from the hint's. -/
def order (s : Frames) : List Nat :=
  let words := (s.n + 63) / 64
  (List.range words).flatMap fun k =>
    List.range' ((s.hint / 64 + k) % words * 64) 64

/-- `alloc_frame()`. -/
def allocFrame (s : Frames) : Option Nat × Frames :=
  match s.order.find? s.isFree with
  | some f => (some f, { s.setUsed f with hint := f })
  | none => (none, s)

/-- `free_idx_locked(idx)`. -/
def freeIdx (f : Nat) (s : Frames) : Frames :=
  if s.used f then
    if 1 < s.refs f then { s with refs := Function.update s.refs f (s.refs f - 1) }
    else
      { s with refs := Function.update s.refs f 0, used := Function.update s.used f false,
               hint := min s.hint f }
  else s

/-- `free_frame(addr)`. -/
def freeFrame (f : Nat) (s : Frames) : Frames := if s.Owned f then s.freeIdx f else s

/-- `alloc_contig(k)`: the first run of `k` free frames. -/
def allocContig (k : Nat) (s : Frames) : Option Nat × Frames :=
  if k = 0 then (none, s)
  else if k = 1 then s.allocFrame
  else
    match (List.range s.n).find? fun b => (List.range' b k).all s.isFree with
    | some b => (some b, (List.range' b k).foldl (fun s f => s.setUsed f) s)
    | none => (none, s)

/-- `free_contig(addr, k)`. -/
def freeContig (b k : Nat) (s : Frames) : Frames :=
  if s.Owned b then ((List.range' b k).filter (· < s.n)).foldl (fun s f => s.freeIdx f) s else s

end Frames

end Pulsar.Vm

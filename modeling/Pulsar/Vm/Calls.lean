import Pulsar.Vm.Machine

/-!
# The calls on address spaces (`vm.rs`)

A call runs with the lock VM held on the space of the calling thread, `current_space()`: the slot
that owns it and its root.  It returns its value or stops with an error, in the state reached so
far.
-/

namespace Pulsar.Vm

/-- `current_space()`: the slot that owns the space, and its root. -/
structure Cur where
  slot : Nat
  root : Nat
  deriving DecidableEq

/-- A call. -/
abbrev Call := EStateM Errno Mm

def MAP_FIXED (flags : Nat) : Bool := flags.testBit 8
def MAP_NOREPLACE (flags : Nat) : Bool := flags.testBit 9

/-- `page_up(x)`. -/
@[irreducible] def pageUp (x : Nat) : Option Nat :=
  if x + (PAGE - 1) < 2 ^ 64 then some ((x + (PAGE - 1)) / PAGE * PAGE) else none

/-- `x.checked_add(y)`. -/
def checkedAdd (x y : Nat) : Option Nat := if x + y < 2 ^ 64 then some (x + y) else none

/-- A value, or the error. -/
def need {α : Type} (x : Option α) (e : Errno) : Call α :=
  match x with
  | some a => pure a
  | none => throw e

/-- A condition, or the error. -/
def check (c : Prop) [Decidable c] (e : Errno) : Call Unit := if c then pure () else throw e

/-- `if !sp.reserve(extra) { return -ENOMEM; }` -/
def reserved (l extra : Nat) : Call Unit := do
  let s ← get
  let r := s.reserve l extra
  set r.2
  check (r.1 = true) .ENOMEM

/-- The regions of slot `l`. -/
def vmasOf (l : Nat) : Call (List Vma) := do
  let s ← get
  pure (s.spaces l).vmas

/-- The search for a gap, which moves the hint. -/
def takeGap (l len : Nat) : Call Nat := do
  let s ← get
  let a ← need ((s.spaces l).gap len) .ENOMEM
  modify fun s => s.setSpace l { s.spaces l with hint := a + len }
  pure a

/-- `mmap` at exactly `addr`: what was there goes. -/
def placeFixed (c : Cur) (addr len flags : Nat) : Call Nat := do
  check (addr % PAGE = 0) .EINVAL
  let stop ← need (checkedAdd addr len) .ENOMEM
  check (MMAP_BASE ≤ addr ∧ stop ≤ MMAP_END) .ENOMEM
  let vs ← vmasOf c.slot
  if overlaps vs addr stop then
    check (MAP_NOREPLACE flags = false) .EEXIST
    modify (Mm.edit c.slot fun vs => carve vs addr stop)
    modify (Mm.unmap c.root addr stop)
  pure addr

/-- `mmap` where it fits: at the hint of the caller if that is free, else anywhere. -/
def placeFree (c : Cur) (addr len : Nat) : Call Nat := do
  let hinted := addr / PAGE * PAGE
  let vs ← vmasOf c.slot
  if MMAP_BASE ≤ hinted ∧ hinted + len < 2 ^ 64 ∧ hinted + len ≤ MMAP_END ∧
      overlaps vs hinted (hinted + len) = false then pure hinted
  else takeGap c.slot len

/-- `mmap_full`. -/
def mmapFull (c : Option Cur) (addr len prot flags obj ino pgoff : Nat) : Call Nat := do
  let len ← need (pageUp len) .ENOMEM
  check (len ≠ 0 ∧ prot < 8) .EINVAL
  let c ← need c .EINVAL
  reserved c.slot 2
  let start ← if MAP_FIXED flags then placeFixed c addr len flags else placeFree c addr len
  modify (Mm.objRef (obj, 1))
  modify (Mm.edit c.slot fun vs => addVma vs ⟨start, start + len, prot, obj, ino, pgoff⟩)
  pure start

/-- `mmap_full` up to the place for the new region: the space, the address and the length. -/
def mmapPlace (c : Option Cur) (addr len prot flags : Nat) : Call (Cur × Nat × Nat) := do
  let len ← need (pageUp len) .ENOMEM
  check (len ≠ 0 ∧ prot < 8) .EINVAL
  let c ← need c .EINVAL
  reserved c.slot 2
  let start ← if MAP_FIXED flags then placeFixed c addr len flags else placeFree c addr len
  pure (c, start, len)

/-- The rest of `mmap_full`: the reference and the region. -/
def mmapAdd (l : Nat) (v : Vma) (s : Mm) : Mm := (s.objRef (v.obj, 1)).edit l fun vs => addVma vs v

/-- `mmap_full` in its two parts. -/
theorem mmapFull_eq (c : Option Cur) (addr len prot flags obj ino pgoff : Nat) :
    mmapFull c addr len prot flags obj ino pgoff =
      (mmapPlace c addr len prot flags >>= fun r =>
        modify (mmapAdd r.1.slot ⟨r.2.1, r.2.1 + r.2.2, prot, obj, ino, pgoff⟩) >>= fun _ =>
          pure r.2.1) := by
  unfold mmapFull mmapPlace
  cases MAP_FIXED flags with
  | true => simp only [if_true, bind_assoc, pure_bind]; rfl
  | false => simp only [Bool.false_eq_true, if_false, bind_assoc, pure_bind]; rfl

/-- `munmap`, the part before the pages go. -/
def munmapCarve (c : Option Cur) (addr len : Nat) : Call (Cur × Nat) := do
  check (addr % PAGE = 0) .EINVAL
  let len ← need (pageUp len) .EINVAL
  let stop ← need (checkedAdd addr len) .EINVAL
  check (len ≠ 0 ∧ MMAP_BASE ≤ addr ∧ stop ≤ MMAP_END) .EINVAL
  let c ← need c .EINVAL
  reserved c.slot 1
  modify (Mm.edit c.slot fun vs => carve vs addr stop)
  pure (c, stop)

/-- `munmap`. -/
def munmap (c : Option Cur) (addr len : Nat) : Call Unit := do
  let r ← munmapCarve c addr len
  modify (Mm.unmap r.1.root addr r.2)

/-- `mprotect`. -/
def mprotect (c : Option Cur) (addr len prot : Nat) : Call Unit := do
  check (addr % PAGE = 0 ∧ prot < 8) .EINVAL
  let len ← need (pageUp len) .ENOMEM
  let stop ← need (checkedAdd addr len) .ENOMEM
  if len = 0 then pure ()
  else do
    let c ← need c .EINVAL
    let vs ← vmasOf c.slot
    check (covered vs addr stop = true) .ENOMEM
    reserved c.slot 2
    modify (Mm.edit c.slot fun vs => protect vs addr stop prot)
    modify (Mm.protectPages c.root addr stop (.userProt prot))

/-- `MREMAP_MAYMOVE`, the only flag that `mremap` knows. -/
def MREMAP_MAYMOVE : Nat := 1

/-- `mremap` of a region to a greater length: in place, or elsewhere with its pages. -/
def grow (c : Cur) (addr oldLen newLen flags : Nat) : Call Nat := do
  let oldEnd := addr + oldLen
  let vs ← vmasOf c.slot
  let v ← need (find vs addr) .EINVAL
  check (v.start ≤ addr ∧ oldEnd ≤ v.stop ∧ v.obj = 0 ∧ v.ino = 0) .ENOMEM
  reserved c.slot 2
  let newEnd := min (addr + newLen) (2 ^ 64 - 1)
  if newEnd ≤ MMAP_END ∧ overlaps vs oldEnd newEnd = false then
    modify (Mm.edit c.slot fun vs => add vs oldEnd newEnd v.prot)
    pure addr
  else do
    check (flags.testBit 0 = true) .ENOMEM
    let new ← takeGap c.slot newLen
    modify (Mm.edit c.slot fun vs => carve vs addr oldEnd)
    modify (Mm.edit c.slot fun vs => add vs new (new + newLen) v.prot)
    modify (Mm.movePages c.root addr oldEnd new)
    pure new

/-- `mremap`. -/
def mremap (c : Option Cur) (addr oldLen newLen flags : Nat) : Call Nat := do
  check (addr % PAGE = 0 ∧ MMAP_BASE ≤ addr ∧ oldLen ≠ 0 ∧ newLen ≠ 0 ∧ flags ≤ MREMAP_MAYMOVE)
    .EINVAL
  let oldLen ← need (pageUp oldLen) .ENOMEM
  let newLen ← need (pageUp newLen) .ENOMEM
  let oldEnd ← need (checkedAdd addr oldLen) .EINVAL
  check (oldEnd ≤ MMAP_END) .EINVAL
  if newLen = oldLen then pure addr
  else if newLen < oldLen then do
    munmap c (addr + newLen) (oldLen - newLen)
    pure addr
  else do
    let c ← need c .EINVAL
    grow c addr oldLen newLen flags

/-- `discard`: `madvise(DONTNEED)`. -/
def discard (c : Option Cur) (addr len : Nat) : Call Unit := do
  check (addr % PAGE = 0) .EINVAL
  let len ← need (pageUp len) .EINVAL
  let start := max addr MMAP_BASE
  let stop := min (min (addr + len) (2 ^ 64 - 1)) MMAP_END
  if stop ≤ start then pure ()
  else do
    let c ← need c .EINVAL
    modify (Mm.unmap c.root start stop)

/-- `add_region(l, start, end, prot)`: whether the region was added. -/
def addRegion (l start stop prot : Nat) (s : Mm) : Bool × Mm :=
  match s.reserve l 1 with
  | (false, s) => (false, s)
  | (true, s) =>
    if overlaps (s.spaces l).vmas start stop then (false, s)
    else (true, s.edit l fun vs => add vs start stop prot)

/-- `add_region_over(l, start, end, prot)`. -/
def addRegionOver (l start stop prot : Nat) (s : Mm) : Mm :=
  if stop ≤ start then s
  else
    match s.reserve l 2 with
    | (false, s) => s
    | (true, s) => (s.edit l fun vs => carve vs start stop).edit l fun vs => add vs start stop prot

/-- `clone_space(src, dst)`: without memory for the table the new space stays empty. -/
def cloneSpace (src dst : Nat) (s : Mm) : Mm :=
  let sp := s.spaces src
  let s := s.setSpace dst { Space.empty with hint := sp.hint }
  if sp.table = none ∨ sp.vmas = [] then s
  else
    match s.frames.allocContig sp.pages with
    | (none, _) => s
    | (some t, fr) =>
      ((s.setFrames fr).setSpace dst { sp with table := some t }).objRefs
        (sp.vmas.map fun v => (v.obj, 1))

/-- `release(l)`. -/
def release (l : Nat) (s : Mm) : Mm :=
  let sp := s.spaces l
  let s := s.objRefs (sp.vmas.map fun v => (v.obj, -1))
  (s.setFrames (Mm.freeTable sp s.frames)).setSpace l .empty

end Pulsar.Vm

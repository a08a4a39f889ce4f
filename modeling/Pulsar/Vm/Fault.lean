import Pulsar.Vm.Calls

/-!
# Page faults (`vm.rs`)

A fault on a page of a file reads it with the lock VM released, so it comes in three parts:
`faultBegin` finds the region, `faultRead` fills new frames from the file and `faultEnd` maps them
where the table still asks for them.  Every other fault is done by `faultBegin`.  `fault` is the
three parts with nothing between them.
-/

namespace Pulsar.Vm

/-- `enum Access`. -/
inductive Access where
  | read | write | exec
  deriving DecidableEq

/-- The protection permits the access. -/
def Access.permitted (prot : Nat) : Access → Bool
  | .read => prot.testBit 0 || prot.testBit 1 || prot.testBit 2
  | .write => prot.testBit 1
  | .exec => prot.testBit 2

/-- The address of the page of `addr`. -/
def pageOf (addr : Nat) : Nat := addr / PAGE * PAGE

/-- The page of its object or file that region `v` has at address `x`. -/
def Vma.page (v : Vma) (x : Nat) : Nat := v.pgoff + (x - v.start) / PAGE

/-- What the first part of a fault comes to: an answer, or the region and the number of pages to
read from its file. -/
inductive Begun where
  | done (ok : Bool)
  | file (v : Vma) (n : Nat)

namespace Mm

/-- The page gets a copy of the frame that it shares. -/
def copyPage (root page frame : Nat) (flags : PageFlags) (s : Mm) : Bool × Mm :=
  match s.frames.allocFrame with
  | (none, _) => (false, s)
  | (some new, fr) =>
    match ((s.setFrames fr).setMem new (s.mem frame)).mapIn root page ⟨new, flags⟩ with
    | (true, s) => (true, s.setFrames (s.frames.freeFrame frame))
    | (false, s) => (false, s.setFrames (s.frames.freeFrame new))

/-- The frame of a page that is to be copied before it is written. -/
def toCopy (root page prot : Nat) (access : Access) (s : Mm) : Option Nat :=
  if access = .write ∧ prot.testBit 1 = true then
    ((s.pts root).translateUser page false).filter fun f => decide (1 < s.frames.refCount f)
  else none

/-- A fault on a page that is mapped. -/
def faultMapped (root page prot : Nat) (access : Access) (s : Mm) : Bool × Mm :=
  match s.toCopy root page prot access with
  | some f => s.copyPage root page f (.userProt prot)
  | none => (true, s.protectPages root page (page + PAGE) (.userProt prot))

/-- A fault on a page of an object. -/
def faultShared (root page : Nat) (v : Vma) (s : Mm) : Bool × Mm :=
  match s.page v.obj (v.page page) true with
  | (none, s) => (false, s)
  | (some f, s) => s.mapIn root page ⟨f, (PageFlags.userProt v.prot).shared⟩

/-- A new frame, zeroed. -/
def zeroedFrame (s : Mm) : Option Nat × Mm :=
  match s.frames.allocFrame with
  | (none, _) => (none, s)
  | (some f, fr) => (some f, (s.setFrames fr).setMem f zeroPage)

/-- A new zeroed page. -/
def mapZeroed (root page : Nat) (flags : PageFlags) (s : Mm) : Bool × Mm :=
  match s.zeroedFrame with
  | (none, s) => (false, s)
  | (some f, s) =>
    match s.mapIn root page ⟨f, flags⟩ with
    | (true, s) => (true, s)
    | (false, s) => (false, s.setFrames (s.frames.freeFrame f))

/-- The number of pages to read: the one at `page` and those after it that are not mapped, of the
region and eight at most. -/
def around (root page stop : Nat) (s : Mm) : Nat :=
  1 + ((List.range' 1 (min ((stop - page) / PAGE) 8 - 1)).takeWhile fun k =>
    !(s.pts root).isMapped (page + k * PAGE)).length

/-- `fault(addr, access)`, up to the reading of a file. -/
def faultBegin (c : Option Cur) (addr : Nat) (access : Access) (s : Mm) : Begun × Mm :=
  match c with
  | none => (.done false, s)
  | some c =>
    match find (s.spaces c.slot).vmas addr with
    | none => (.done false, s)
    | some v =>
      let page := pageOf addr
      if access.permitted v.prot = false then (.done false, s)
      else if (s.pts c.root).isMapped page then
        let r := s.faultMapped c.root page v.prot access
        (.done r.1, r.2)
      else if v.obj ≠ 0 then
        let r := s.faultShared c.root page v
        (.done r.1, r.2)
      else if page < MMAP_BASE ∨ MMAP_END ≤ page then (.done false, s)
      else if v.ino = 0 then
        let r := s.mapZeroed c.root page (.userProt v.prot)
        (.done r.1, r.2)
      else (.file v (s.around c.root page v.stop), s)

/-- New frames, as many as there are. -/
def takeFrames : Nat → Mm → List Nat × Mm
  | 0, s => ([], s)
  | n + 1, s =>
    match s.zeroedFrame with
    | (none, s) => ([], s)
    | (some f, s) =>
      let r := takeFrames n s
      (f :: r.1, r.2)

/-- `file::read_ino_pages` from a page on: the frames get the pages of the file, unless one cannot
be read. -/
def readPages (file : Nat → Option Bytes) : Nat → List Nat → Mm → Bool × Mm
  | _, [], s => (true, s)
  | pg, f :: fs, s =>
    match file pg with
    | none => (false, s)
    | some b => readPages file (pg + 1) fs (s.setMem f b)

/-- The second part of a fault: the frames that hold pages of the file. -/
def faultRead (file : Nat → Nat → Option Bytes) (page : Nat) (v : Vma) (n : Nat) (s : Mm) :
    Option (List Nat) × Mm :=
  let r := s.takeFrames n
  if r.1 = [] then (none, r.2)
  else
    match readPages (file v.ino) (v.page page) r.1 r.2 with
    | (true, s) => (some r.1, s)
    | (false, s) => (none, s.setFrames (s.frames.freeAll r.1))

/-- The loop of the third part: page `i` on, where the region is now `cur`. -/
def placePages (root page : Nat) (v cur : Vma) : Nat → List Nat → Mm → Bool × Mm
  | _, [], s => (true, s)
  | i, f :: fs, s =>
    let at_ := page + i * PAGE
    if at_ < cur.stop ∧ cur.ino = v.ino ∧ (s.pts root).isMapped at_ = false then
      match s.mapIn root at_ ⟨f, .userProt cur.prot⟩ with
      | (true, s) => placePages root page v cur (i + 1) fs s
      | (false, s) =>
        let s := s.setFrames (s.frames.freeFrame f)
        -- the frames that are left over when the first page fails are not given back
        if i = 0 then (false, s) else placePages root page v cur (i + 1) fs s
    else
      let s := s.setFrames (s.frames.freeFrame f)
      let s := if i = 0 then s.protectPages root page (page + PAGE) (.userProt cur.prot) else s
      placePages root page v cur (i + 1) fs s

/-- The third part of a fault. -/
def faultEnd (c : Cur) (addr : Nat) (v : Vma) (fs : List Nat) (s : Mm) : Bool × Mm :=
  match find (s.spaces c.slot).vmas addr with
  | none => (false, s.setFrames (s.frames.freeAll fs))
  | some cur => placePages c.root (pageOf addr) v cur 0 fs s

/-- `fault(addr, access)`. -/
def fault (file : Nat → Nat → Option Bytes) (c : Option Cur) (addr : Nat) (access : Access)
    (s : Mm) : Bool × Mm :=
  match s.faultBegin c addr access with
  | (.done b, s) => (b, s)
  | (.file v n, s) =>
    match s.faultRead file (pageOf addr) v n, c with
    | (some fs, s), some c => s.faultEnd c addr v fs
    | (_, s), _ => (false, s)

end Mm

end Pulsar.Vm

import Pulsar.Lib.Bytes
import Pulsar.Vm.Fault

/-!
# Images of programs (`exec.rs`, `loader.rs`)

An image is loaded into a new space: the pages of its segments are mapped one by one, and a frame
may be missing for any page, table or buffer.  `Load` is the space and the allocator, and the list
of the frames that the code no longer names (`Slip`), which it does not keep.

The contents of pages are left out, but for the headers that are read, and so are those of the
stack.
-/

namespace Pulsar.Vm

/-- How a call ends that returns no value. -/
inductive Fail where
  | errno (e : Nat)
  /-- A slice out of its bounds. -/
  | panic
  deriving DecidableEq

def E2BIG : Nat := 7
def ENOEXEC : Nat := 8
def EAGAIN : Nat := 11
def ENOMEM : Nat := 12
def EFBIG : Nat := 27
def ENOSPC : Nat := 28

def STACK_TOP : Nat := MMAP_END
def STACK_SIZE : Nat := 8 * 2 ^ 20
def PIE_BASE : Nat := 0x10000000
def INTERP_BASE : Nat := 0x30000000
def USER_LO : Nat := 0x10000
def USER_HI : Nat := 0x40000000
def MAX_IMAGE : Nat := 2 ^ 30
def ARG_MAX : Nat := 128 * 1024
def EM_MACHINE : Nat := 183
def ARCH_ID : Nat := 1
def SIGPAGE_VA : Nat := 0x3F80000000
def ROOT_INO : Nat := 2

/-- A sum of 64 bits. -/
def wrap (x : Nat) : Nat := x % 2 ^ 64

/-! ### Files -/

structure File where
  size : Nat
  bytes : Nat → UInt8

def rd16 (f : File) (o : Nat) : Nat := leGet f.bytes o 2
def rd32 (f : File) (o : Nat) : Nat := leGet f.bytes o 4
def rd64 (f : File) (o : Nat) : Nat := leGet f.bytes o 8

/-- The file system: by the directory and the path, the size of a regular file, and its bytes. -/
structure Disk where
  find : Nat → List UInt8 → Except Nat Nat
  read : Nat → List UInt8 → Except Nat (Nat → UInt8)

/-- Arguments, copied: strings without their ends. -/
structure Args where
  argv : List (List UInt8)
  envp : List (List UInt8)

/-- The length of a block of strings, each with its end. -/
def blockLen (ss : List (List UInt8)) : Nat := (ss.map fun s => s.length + 1).sum

/-! ### Loading -/

/-- How a frame comes to be in use and named by nobody. -/
inductive Slip where
  /-- `create_user_space` took it before another was missing. -/
  | short
  /-- A page was mapped where it was. -/
  | covered
  /-- It was for a page of the stack of `load_pulse` that could not be mapped. -/
  | unmapped
  deriving DecidableEq

structure Load where
  pt : Pt
  fr : Frames
  slips : List (Slip × Nat)

abbrev Loader := EStateM Fail Load

/-- What is done to the state when a program stops. -/
def onFail {α : Type} (f : Load → Load) (x : Loader α) : Loader α := fun s =>
  match x s with
  | .ok a t => .ok a t
  | .error e t => .error e (f t)

/-- What is done to the state after a program, also when it stops. -/
def andThen {α : Type} (f : Load → Load) (x : Loader α) : Loader α := fun s =>
  match x s with
  | .ok a t => .ok a (f t)
  | .error e t => .error e (f t)

namespace Load

/-- `map_page_in`; a frame of the window that was there is lost. -/
def mapAt (p : Nat) (e : Pte) (s : Load) : Bool × Load :=
  let r := mapPage p e (s.pt, s.fr)
  let slipped := s.pt.leaf[p]?.elim [] fun e =>
    if e.flags.isShared = false ∧ s.fr.Owned e.frame then [(Slip.covered, e.frame)] else []
  (r.1, ⟨r.2.1, r.2.2, if r.1 then slipped ++ s.slips else s.slips⟩)

/-- A new frame is mapped at `va`, or given back. -/
def newPage (va : Nat) (flags : PageFlags) (s : Load) : Bool × Load :=
  match s.fr.allocFrame with
  | (none, _) => (false, s)
  | (some f, fr) =>
    match { s with fr := fr }.mapAt (vpn va) ⟨f, flags⟩ with
    | (true, s) => (true, s)
    | (false, s) => (false, { s with fr := s.fr.freeFrame f })

/-- A new frame is mapped at `va`; it is lost if it cannot be. -/
def stackPage (va : Nat) (s : Load) : Bool × Load :=
  match s.fr.allocFrame with
  | (none, _) => (false, s)
  | (some f, fr) =>
    match { s with fr := fr }.mapAt (vpn va) ⟨f, .userData⟩ with
    | (true, s) => (true, s)
    | (false, s) => (true, { s with slips := (.unmapped, f) :: s.slips })

/-- `free_user_space(root)`. -/
def freeSpace (root : Nat) (s : Load) : Load :=
  { s with pt := .empty, fr := freeUserSpace root s.pt s.fr }

def freeContig (b k : Nat) (s : Load) : Load := { s with fr := s.fr.freeContig b k }

end Load

/-- The frames that `create_user_space` takes before one is missing. -/
def shortFrames (fr : Frames) : List Nat :=
  match fr.allocFrame with
  | (none, _) => []
  | (some a, fr) =>
    match fr.allocFrame with
    | (none, _) => [a]
    | (some b, fr) =>
      match fr.allocFrame with
      | (none, _) => [b, a]
      | (some _, _) => []

/-- `create_user_space().ok_or(e)`: the root. -/
def createSpace (e : Nat) : Loader Nat := fun s =>
  match createUserSpace s.fr with
  | (some (root, pt), fr) => .ok root { s with pt := pt, fr := fr }
  | (none, fr) =>
    .error (.errno e) { s with
      fr := fr, slips := (shortFrames s.fr).map (fun f => (Slip.short, f)) ++ s.slips }

/-- `alloc_contig(k).ok_or(e)`. -/
def allocContig (k e : Nat) : Loader Nat := fun s =>
  match s.fr.allocContig k with
  | (some b, fr) => .ok b { s with fr := fr }
  | (none, _) => .error (.errno e) s

/-- The loop of `copy_into`, over `n` pages. -/
def copyPages (prot : Nat) : Nat → Nat → Load → Bool × Load
  | _, 0, s => (true, s)
  | page, n + 1, s =>
    match s.pt.translateUser page false with
    | some _ =>
      copyPages prot (page + PAGE) n { s with
        pt := protectRange page (page + PAGE) (.userProt (prot ||| 1 ||| 2)) s.pt }
    | none =>
      match s.newPage page (.userProt prot) with
      | (true, s) => copyPages prot (page + PAGE) n s
      | (false, s) => (false, s)

/-- `copy_into(root, va, data, prot, mem_len)`. -/
def copyInto (va prot memLen : Nat) : Loader Bool := fun s =>
  let r := copyPages prot (pageOf va) ((va + memLen - pageOf va + (PAGE - 1)) / PAGE) s
  .ok r.1 r.2

/-- `read_whole(at, path, max)`: the buffer, its frames and the file. -/
def readWhole (disk : Disk) (at_ : Nat) (path : List UInt8) (max : Nat) :
    Loader (Nat × Nat × File) :=
  match disk.find at_ path with
  | .error e => throw (.errno e)
  | .ok size =>
    if max < size then throw (.errno EFBIG)
    else do
      let frames := (size + (PAGE - 1)) / PAGE + 1
      let buf ← allocContig frames ENOSPC
      match disk.read at_ path with
      | .error e =>
        modify (Load.freeContig buf frames)
        throw (.errno e)
      | .ok bytes => pure (buf, frames, ⟨size, bytes⟩)

/-! ### ELF -/

/-- A range of pages that was loaded. -/
structure Seg where
  start : Nat
  stop : Nat
  prot : Nat

/-- `Segs::push`. -/
def pushSeg (segs : List Seg) (va len prot : Nat) : List Seg :=
  if segs.length < 24 then
    segs ++ [⟨pageOf va, (va + len + (PAGE - 1)) / PAGE * PAGE, prot⟩]
  else segs

def PT_LOAD : Nat := 1
def PT_INTERP : Nat := 3
def PT_PHDR : Nat := 6

/-- What the headers read so far say. -/
structure Scan where
  phdrVa : Nat
  firstLoad : Option (Nat × Nat)
  interp : Option (Nat × Nat)
  segs : List Seg

/-- One program header, at offset `o`. -/
def loadSegment (file : File) (base o : Nat) (a : Scan) : Loader Scan := do
  let ptype := rd32 file o
  let a ←
    if ptype = PT_INTERP then
      let off := rd64 file (o + 8)
      let sz := rd64 file (o + 32)
      if file.size < min (off + sz) (2 ^ 64 - 1) ∨ sz < 2 ∨ 256 < sz then
        throw (.errno ENOEXEC)
      else pure { a with interp := some (off, off + sz - 1) }
    else pure a
  let a := if ptype = PT_PHDR then { a with phdrVa := wrap (rd64 file (o + 16) + base) } else a
  if ptype ≠ PT_LOAD then pure a
  else
    let flags := rd32 file (o + 4)
    let off := rd64 file (o + 8)
    let va := wrap (rd64 file (o + 16) + base)
    let filesz := rd64 file (o + 32)
    let memsz := rd64 file (o + 40)
    if memsz = 0 then pure a
    else if va < USER_LO ∨ 2 ^ 64 ≤ va + memsz ∨ USER_HI < va + memsz ∨
        2 ^ 64 ≤ off + filesz ∨ file.size < off + filesz ∨ memsz < filesz then
      throw (.errno ENOEXEC)
    else
      let first := match a.firstLoad with
        | none => some (va, off)
        | some x => some x
      let prot := (if flags.testBit 2 then 1 else 0) ||| (if flags.testBit 1 then 2 else 0) |||
        if flags.testBit 0 then 4 else 0
      if ← copyInto va prot memsz then
        pure { a with firstLoad := first, segs := pushSeg a.segs va memsz prot }
      else throw (.errno ENOSPC)

/-- The loop over program headers; the slice of one may be out of bounds. -/
def loadSegments (file : File) (base phoff : Nat) : List Nat → Scan → Loader Scan
  | [], a => pure a
  | i :: is, a => do
    let o := wrap (phoff + i * 56)
    let e := wrap (phoff + (i + 1) * 56)
    if e < o ∨ file.size < e then throw .panic
    else
      let a ← loadSegment file base o a
      loadSegments file base phoff is a

/-- What `map_elf` returns. -/
structure Elf where
  entry : Nat
  phdr : Nat
  phnum : Nat
  interp : Option (Nat × Nat)
  segs : List Seg

/-- `\x7fELF`, 64 bits, little-endian. -/
def isElf (file : File) : Bool := rd32 file 0 = 0x464C457F

/-- `map_elf(root, file, dyn_base, segs)`. -/
def mapElf (file : File) (dynBase : Nat) (segs : List Seg) : Loader Elf := do
  if file.size < 64 ∨ isElf file = false ∨ file.bytes 4 ≠ 2 ∨ file.bytes 5 ≠ 1 then
    throw (.errno ENOEXEC)
  else
    let etype := rd16 file 16
    if rd16 file 18 ≠ EM_MACHINE ∨ etype ≠ 2 ∧ etype ≠ 3 then throw (.errno ENOEXEC)
    else
      let phoff := rd64 file 32
      let phent := rd16 file 54
      let phnum := rd16 file 56
      if phent ≠ 56 ∨ file.size < wrap (phoff + phnum * phent) then throw (.errno ENOEXEC)
      else
        let base := if etype = 3 then dynBase else 0
        let a ← loadSegments file base phoff (List.range phnum) ⟨0, none, none, segs⟩
        let phdr :=
          if a.phdrVa = 0 then
            match a.firstLoad with
            | some (va, off) => if off ≤ phoff then wrap (va + (phoff - off)) else 0
            | none => 0
          else a.phdrVa
        pure ⟨wrap (rd64 file 24 + base), phdr, phnum, a.interp, a.segs⟩

structure Image where
  entry : Nat
  phdr : Nat
  phnum : Nat
  root : Nat
  base : Nat
  progEntry : Nat
  segs : List Seg

/-- `&file[a..b]`. -/
def File.slice (file : File) (a b : Nat) : List UInt8 :=
  (List.range' a (b - a)).map file.bytes

/-- `load_elf(file)`. -/
def loadElf (disk : Disk) (file : File) : Loader Image := do
  let root ← createSpace ENOSPC
  onFail (Load.freeSpace root) do
    let elf ← mapElf file PIE_BASE []
    match elf.interp with
    | none => pure ⟨elf.entry, elf.phdr, elf.phnum, root, 0, elf.entry, elf.segs⟩
    | some (a, b) =>
      let (buf, frames, ifile) ← readWhole disk ROOT_INO (file.slice a b) MAX_IMAGE
      let r ← andThen (Load.freeContig buf frames) (mapElf ifile INTERP_BASE elf.segs)
      match r.interp with
      | none => pure ⟨r.entry, elf.phdr, elf.phnum, root, INTERP_BASE, elf.entry, r.segs⟩
      | some _ => throw (.errno ENOEXEC)

/-- `build_stack(root, img, path, args)`: the stack pointer. -/
def buildStack (path : List UInt8) (args : Args) : Loader Nat := do
  let argc := args.argv.length
  let envc := args.envp.length
  let total := path.length + 1 + blockLen args.argv + blockLen args.envp + 16 +
    (argc + envc + 3 + 2 * 20) * 8 + 64
  if ARG_MAX < total then throw (.errno E2BIG)
  else
    let pages := ARG_MAX / PAGE
    let buf ← allocContig pages ENOSPC
    if 512 < argc ∨ 512 < envc then
      modify (Load.freeContig buf pages)
      throw (.errno E2BIG)
    else
      let bottom := STACK_TOP - ARG_MAX
      let top := ARG_MAX - 8 - 1 - path.length - 16 - blockLen args.envp - blockLen args.argv
      let words := 1 + argc + 1 + envc + 1 + 2 * (16 + 1)
      let top := (top / 16 * 16 - words * 8) / 16 * 16
      let sp := bottom + top
      let first := pageOf sp
      if ← andThen (Load.freeContig buf pages) (copyInto first 3 (STACK_TOP - first)) then pure sp
      else throw (.errno ENOSPC)

/-! ### .pulse -/

def PULSE_MAGIC : Nat := 0x534C5550
def STACK_PAGES : Nat := 64

def archMatches (arch : Nat) : Bool := arch = ARCH_ID ∨ arch = 0 ∧ ARCH_ID = 1

/-- The loop over the segments of `load_pulse_linux`. -/
def pulseLinuxSegs (file : File) (table : Nat) : List Nat → List Seg → Loader (List Seg)
  | [], segs => pure segs
  | i :: is, segs => do
    let o := table + i * 24
    let off := rd32 file o
    let fsz := rd32 file (o + 4)
    let va := rd64 file (o + 8)
    let msz := rd32 file (o + 16)
    let fl := rd32 file (o + 20)
    if va < USER_LO ∨ USER_HI < min (va + msz) (2 ^ 64 - 1) ∨ file.size < off + fsz ∨
        msz < fsz then throw (.errno ENOEXEC)
    else if ← copyInto va (fl % 8) msz then
      pulseLinuxSegs file table is (pushSeg segs va msz (fl % 8))
    else throw (.errno ENOEXEC)

/-- `load_pulse_linux(file)`. -/
def loadPulseLinux (file : File) : Loader Image := do
  if file.size < 48 ∨ rd32 file 0 ≠ PULSE_MAGIC ∨ rd16 file 4 ≠ 3 then throw (.errno ENOEXEC)
  else
    let segc := rd16 file 6
    let entry := rd64 file 8
    let table := rd32 file 16
    if archMatches (rd32 file 20) = false ∨ rd64 file 24 ≠ 0 ∨ rd16 file 42 ≠ 1 then
      throw (.errno ENOEXEC)
    else if file.size < table + segc * 24 then throw (.errno ENOEXEC)
    else
      let root ← createSpace ENOSPC
      let segs ← onFail (Load.freeSpace root) (pulseLinuxSegs file table (List.range segc) [])
      pure ⟨entry, rd64 file 32, rd16 file 40, root, 0, entry, segs⟩

/-- The pages of a segment of `load_pulse`, or of its stack. -/
def pulsePages (put : Nat → Load → Bool × Load) : Nat → Nat → Load → Bool × Load
  | _, 0, s => (true, s)
  | va, n + 1, s =>
    match put va s with
    | (true, s) => pulsePages put (wrap (va + PAGE)) n s
    | (false, s) => (false, s)

/-- The loop over the segments of `load_pulse`: whether all were loaded. -/
def pulseSegs (file : File) (table : Nat) : List Nat → Load → Bool × Load
  | [], s => (true, s)
  | i :: is, s =>
    let o := table + i * 24
    let off := rd32 file o
    let fsz := rd32 file (o + 4)
    let va := rd64 file (o + 8)
    let msz := rd32 file (o + 16)
    let fl := rd32 file (o + 20)
    if va < 0x100000 ∨ 0x40000000 < wrap (va + msz) ∨ file.size < off + fsz ∨ msz < fsz then
      (false, s)
    else
      let flags := if fl.testBit 2 then PageFlags.userCode else .userData
      match pulsePages (fun va => Load.newPage va flags) va ((msz + (PAGE - 1)) / PAGE) s with
      | (true, s) => pulseSegs file table is s
      | (false, s) => (false, s)

/-- The segments of `load_pulse`, and then its stack: whether all was loaded. -/
def pulseLoad (file : File) (s : Load) : Bool × Load :=
  match pulseSegs file (rd32 file 16) (List.range (rd16 file 6)) s with
  | (true, s) =>
    pulsePages Load.stackPage (wrap (2 ^ 64 + rd64 file 24 - STACK_PAGES * PAGE)) STACK_PAGES s
  | (false, s) => (false, s)

/-- The image of a `.pulse` of the kernel's own calls: its root, entry and stack. -/
def loadPulse (file : File) : Loader (Nat × Nat × Nat) := do
  if file.size < 32 ∨ rd32 file 0 ≠ PULSE_MAGIC ∨ rd16 file 4 < 2 ∨ rd64 file 24 = 0 ∨
      archMatches (rd32 file 20) = false ∨ file.size < rd32 file 16 + rd16 file 6 * 24 then
    throw (.errno ENOEXEC)
  else
    let root ← createSpace ENOEXEC
    onFail (Load.freeSpace root) do
      if ← modifyGet (pulseLoad file) then pure (root, rd64 file 8, rd64 file 24)
      else throw (.errno ENOEXEC)

/-! ### Any image -/

/-- `map_sigpage(root)`: a page of the kernel's image, which is no frame of the window. -/
def mapSigpage : Loader Unit := modify fun s =>
  (s.mapAt (vpn SIGPAGE_VA) ⟨s.fr.n, .userProt 5⟩).2

/-- What `load_image` returns. -/
structure Loaded where
  root : Nat
  entry : Nat
  sp : Nat
  linux : Bool
  segs : List Seg

/-- The rest of `load_image` for an image of the Linux calls. -/
def withStack (path : List UInt8) (args : Args) (img : Image) : Loader Loaded := do
  mapSigpage
  let sp ← onFail (Load.freeSpace img.root) (buildStack path args)
  pure ⟨img.root, img.entry, sp, true, img.segs⟩

/-- `load_image(file, path, args)`. -/
def loadImage (disk : Disk) (file : File) (path : List UInt8) (args : Args) : Loader Loaded := do
  if 4 ≤ file.size ∧ isElf file then
    let img ← loadElf disk file
    withStack path args img
  else if 6 ≤ file.size ∧ rd16 file 4 = 3 then
    let img ← loadPulseLinux file
    withStack path args img
  else
    let (root, entry, top) ← loadPulse file
    pure ⟨root, entry, top, false, []⟩

/-- The first part of `execve(at, path, args)`: the image is read and loaded. -/
def loadFrom (disk : Disk) (at_ : Nat) (path : List UInt8) (args : Args) : Loader Loaded := do
  let (buf, frames, file) ← readWhole disk at_ path MAX_IMAGE
  andThen (Load.freeContig buf frames) (loadImage disk file path args)

end Pulsar.Vm

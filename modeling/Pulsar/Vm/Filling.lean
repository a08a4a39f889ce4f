import Pulsar.Lib.Erasure
import Pulsar.Vm.Loading

/-!
# What an executable fills its pages with (`exec.rs`)

`map_elf` again, with the bytes of the pages and the sums of header fields: `mem` has the byte at
each address of the space, and `wrapped` says whether a sum went over 64 bits.

* `erases_fillElf`: what it does to the space is what `mapElf` does.
-/

namespace Pulsar.Vm

open Prog (Erases)

/-- A space that is loaded, with its bytes. -/
structure Filling where
  load : Load
  mem : Nat → UInt8
  wrapped : Bool

abbrev Filler := EStateM Fail Filling

/-- A sum of header fields. -/
def addFields (x y : Nat) : Filler Nat :=
  modifyGet fun s => (wrap (x + y), { s with wrapped := s.wrapped || decide (2 ^ 64 ≤ x + y) })

/-- A segment in its file and its space. -/
structure Piece where
  va : Nat
  off : Nat
  filesz : Nat
  memsz : Nat
  prot : Nat
  deriving DecidableEq

namespace Piece

/-- The first page that has a byte of it. -/
def page (q : Piece) : Nat := pageOf q.va

/-- The number of its pages. -/
def pages (q : Piece) : Nat := (q.va + q.memsz - q.page + (PAGE - 1)) / PAGE

/-- The address gets a byte of the file. -/
def Data (q : Piece) (x : Nat) : Prop := q.va ≤ x ∧ x < q.va + q.filesz

instance (q : Piece) (x : Nat) : Decidable (q.Data x) := by unfold Data; infer_instance

/-- The address is behind what the file has of the segment. -/
def Rest (q : Piece) (x : Nat) : Prop := q.va + q.filesz ≤ x ∧ x < q.va + q.memsz

/-- The byte of the file for an address. -/
def byte (q : Piece) (file : File) (x : Nat) : UInt8 := file.bytes (q.off + (x - q.va))

end Piece

namespace Filling

/-- The page gets what the segment has for it. -/
def put (file : File) (q : Piece) (page : Nat) (s : Filling) : Filling :=
  { s with mem := fun x =>
      if max page q.va ≤ x ∧ x < min (page + PAGE) (q.va + q.filesz) then q.byte file x
      else s.mem x }

/-- A page of zeros is there. -/
def zero (page : Nat) (s : Filling) : Filling :=
  { s with mem := fun x => if page ≤ x ∧ x < page + PAGE then 0 else s.mem x }

def setLoad (l : Load) (s : Filling) : Filling := { s with load := l }

/-- The user can read the page. -/
def Shown (s : Filling) (p : Nat) : Prop := (s.load.pt.translateUser (p * PAGE) false).isSome = true

instance (s : Filling) (p : Nat) : Decidable (s.Shown p) := by unfold Shown; infer_instance

end Filling

/-- One page of `copy_into`. -/
def fillPage (file : File) (q : Piece) (page : Nat) (s : Filling) : Bool × Filling :=
  match s.load.pt.translateUser page false with
  | some _ =>
    let l := { s.load with
      pt := protectRange page (page + PAGE) (.userProt (q.prot ||| 1 ||| 2)) s.load.pt }
    (true, (s.setLoad l).put file q page)
  | none =>
    match s.load.newPage page (.userProt q.prot) with
    | (true, l) => (true, ((s.setLoad l).zero page).put file q page)
    | (false, l) => (false, s.setLoad l)

/-- The loop of `copy_into`. -/
def fillPages (file : File) (q : Piece) : Nat → Nat → Filling → Bool × Filling
  | _, 0, s => (true, s)
  | page, n + 1, s =>
    match fillPage file q page s with
    | (true, s) => fillPages file q (page + PAGE) n s
    | (false, s) => (false, s)

/-- `copy_into(root, va, data, prot, mem_len)`. -/
def fillInto (file : File) (q : Piece) : Filler Bool := fun s =>
  let r := fillPages file q q.page q.pages s
  .ok r.1 r.2

/-- What the flags of a segment permit. -/
def segProt (flags : Nat) : Nat :=
  (if flags.testBit 2 then 1 else 0) ||| (if flags.testBit 1 then 2 else 0) |||
    if flags.testBit 0 then 4 else 0

/-- A program header. -/
structure Header where
  ptype : Nat
  flags : Nat
  off : Nat
  vaddr : Nat
  filesz : Nat
  memsz : Nat

/-- The header at `o`. -/
def header (file : File) (o : Nat) : Header :=
  ⟨rd32 file o, rd32 file (o + 4), rd64 file (o + 8), rd64 file (o + 16), rd64 file (o + 32),
    rd64 file (o + 40)⟩

/-- The segment of the header, loaded at `va`. -/
def Header.piece (h : Header) (va : Nat) : Piece := ⟨va, h.off, h.filesz, h.memsz, segProt h.flags⟩

/-- The segment is not in the range for programs, or its data not in the file. -/
def Piece.Bad (q : Piece) (file : File) : Prop :=
  q.va < USER_LO ∨ 2 ^ 64 ≤ q.va + q.memsz ∨ USER_HI < q.va + q.memsz ∨
    2 ^ 64 ≤ q.off + q.filesz ∨ file.size < q.off + q.filesz ∨ q.memsz < q.filesz

instance (q : Piece) (file : File) : Decidable (q.Bad file) :=
  inferInstanceAs (Decidable (q.va < USER_LO ∨ 2 ^ 64 ≤ q.va + q.memsz ∨
    USER_HI < q.va + q.memsz ∨ 2 ^ 64 ≤ q.off + q.filesz ∨ file.size < q.off + q.filesz ∨
    q.memsz < q.filesz))

/-- The header of an interpreter: where its path is. -/
def readInterp (file : File) (h : Header) (a : Scan) : Filler Scan :=
  if h.ptype = PT_INTERP then
    if file.size < min (h.off + h.filesz) (2 ^ 64 - 1) ∨ h.filesz < 2 ∨ 256 < h.filesz then
      throw (.errno ENOEXEC)
    else pure { a with interp := some (h.off, h.off + h.filesz - 1) }
  else pure a

/-- The header of the headers: where they are loaded. -/
def readPhdr (base : Nat) (h : Header) (a : Scan) : Filler Scan :=
  if h.ptype = PT_PHDR then do
    let v ← addFields h.vaddr base
    pure { a with phdrVa := v }
  else pure a

/-- A segment is checked and loaded. -/
def loadPiece (file : File) (q : Piece) (a : Scan) : Filler Scan :=
  if q.memsz = 0 then pure a
  else if q.Bad file then throw (.errno ENOEXEC)
  else do
    let first := match a.firstLoad with
      | none => some (q.va, q.off)
      | some x => some x
    if ← fillInto file q then
      pure { a with firstLoad := first, segs := pushSeg a.segs q.va q.memsz q.prot }
    else throw (.errno ENOSPC)

/-- The header of a segment. -/
def readLoad (file : File) (base : Nat) (h : Header) (a : Scan) : Filler Scan :=
  if h.ptype ≠ PT_LOAD then pure a
  else do
    let va ← addFields h.vaddr base
    loadPiece file (h.piece va) a

/-- One program header. -/
def fillSegment (file : File) (base : Nat) (h : Header) (a : Scan) : Filler Scan := do
  let a ← readInterp file h a
  let a ← readPhdr base h a
  readLoad file base h a

/-- The loop over program headers. -/
def fillSegments (file : File) (base phoff : Nat) : List Nat → Scan → Filler Scan
  | [], a => pure a
  | i :: is, a => do
    let o ← addFields phoff (i * 56)
    let e ← addFields phoff ((i + 1) * 56)
    if e < o ∨ file.size < e then throw .panic
    else
      let a ← fillSegment file base (header file o) a
      fillSegments file base phoff is a

/-- Where the headers are: in the first segment, if no header says it. -/
def findPhdr (phoff : Nat) (a : Scan) : Filler Nat :=
  if a.phdrVa = 0 then
    match a.firstLoad with
    | some (va, off) => if off ≤ phoff then addFields va (phoff - off) else pure 0
    | none => pure 0
  else pure a.phdrVa

/-- `map_elf(root, file, dyn_base, segs)`. -/
def fillElf (file : File) (dynBase : Nat) (segs : List Seg) : Filler Elf := do
  if file.size < 64 ∨ isElf file = false ∨ file.bytes 4 ≠ 2 ∨ file.bytes 5 ≠ 1 then
    throw (.errno ENOEXEC)
  else
    let etype := rd16 file 16
    if rd16 file 18 ≠ EM_MACHINE ∨ etype ≠ 2 ∧ etype ≠ 3 then throw (.errno ENOEXEC)
    else
      let phoff := rd64 file 32
      let phent := rd16 file 54
      let phnum := rd16 file 56
      if phent ≠ 56 then throw (.errno ENOEXEC)
      else
        let stop ← addFields phoff (phnum * phent)
        if file.size < stop then throw (.errno ENOEXEC)
        else
          let base := if etype = 3 then dynBase else 0
          let a ← fillSegments file base phoff (List.range phnum) ⟨0, none, none, segs⟩
          let phdr ← findPhdr phoff a
          let entry ← addFields (rd64 file 24) base
          pure ⟨entry, phdr, phnum, a.interp, a.segs⟩

/-! ### Without the bytes -/

variable {s : Filling} {file : File} {q : Piece}

theorem erases_addFields (x y : Nat) :
    Erases Filling.load (addFields x y) (pure (wrap (x + y)) : Loader Nat) := fun _ => rfl

theorem load_fillPages (file : File) (q : Piece) (n page : Nat) (s : Filling) :
    copyPages q.prot page n s.load =
      ((fillPages file q page n s).1, (fillPages file q page n s).2.load) := by
  induction n generalizing page s with
  | zero => rfl
  | succ n ih =>
      rw [copyPages, fillPages, fillPage]
      cases s.load.pt.translateUser page false with
      | some _ => exact ih _ (((s.setLoad _).put file q page))
      | none =>
          simp only
          rcases s.load.newPage page (.userProt q.prot) with ⟨- | -, l⟩
          · rfl
          · exact ih _ (((s.setLoad l).zero page).put file q page)

theorem erases_fillInto (file : File) (q : Piece) :
    Erases Filling.load (fillInto file q) (copyInto q.va q.prot q.memsz) := fun s =>
  congrArg (fun r : Bool × Load => (EStateM.Result.ok r.1 r.2 : EStateM.Result Fail Load Bool))
    (load_fillPages file q q.pages q.page s)

theorem erases_loadPiece (q : Piece) (a : Scan) :
    Erases Filling.load (loadPiece file q a)
      (if q.memsz = 0 then pure a
      else if q.va < USER_LO ∨ 2 ^ 64 ≤ q.va + q.memsz ∨ USER_HI < q.va + q.memsz ∨
          2 ^ 64 ≤ q.off + q.filesz ∨ file.size < q.off + q.filesz ∨ q.memsz < q.filesz then
        throw (.errno ENOEXEC)
      else
        let first := match a.firstLoad with
          | none => some (q.va, q.off)
          | some x => some x
        do
          if ← copyInto q.va q.prot q.memsz then
            pure { a with firstLoad := first, segs := pushSeg a.segs q.va q.memsz q.prot }
          else throw (.errno ENOSPC)) := by
  refine .ite (fun _ => .pure a) fun _ => .ite (fun _ => .throw _) fun _ => ?_
  exact (erases_fillInto file q).bind fun ok => .ite (fun _ => .pure _) fun _ => .throw _

theorem erases_readPhdr (base : Nat) (h : Header) (a : Scan) :
    Erases Filling.load (readPhdr base h a) (pure (if h.ptype = PT_PHDR then
      { a with phdrVa := wrap (h.vaddr + base) } else a)) := by
  unfold readPhdr
  by_cases hp : h.ptype = PT_PHDR
  · rw [if_pos hp, if_pos hp]
    exact (erases_addFields _ _).bind_pure (.pure _)
  · rw [if_neg hp, if_neg hp]
    exact .pure a

theorem erases_fillSegment (base o : Nat) (a : Scan) :
    Erases Filling.load (fillSegment file base (header file o) a) (loadSegment file base o a) := by
  unfold fillSegment loadSegment header
  generalize rd32 file o = ptype, rd64 file (o + 8) = off, rd64 file (o + 16) = vaddr,
    rd64 file (o + 32) = filesz, rd64 file (o + 40) = memsz, rd32 file (o + 4) = flags
  extract_lets _ _ _ va _ _ prot rest
  have hrest : ∀ a, Erases Filling.load
      (readPhdr base ⟨ptype, flags, off, vaddr, filesz, memsz⟩ a >>= fun a =>
        readLoad file base ⟨ptype, flags, off, vaddr, filesz, memsz⟩ a) (rest a) := fun a => by
    refine (erases_readPhdr base _ a).bind_pure ?_
    simp only [rest]
    refine .ite (fun _ => .pure _) fun _ => (erases_addFields _ _).bind_pure ?_
    exact erases_loadPiece ⟨va, off, filesz, memsz, prot⟩ _
  clear_value rest
  unfold readInterp
  by_cases hi : ptype = PT_INTERP
  · rw [if_pos hi, if_pos hi]
    split
    · exact (Erases.throw _).bind hrest
    · exact (Erases.pure _).bind hrest
  · rw [if_neg hi, if_neg hi]
    exact (Erases.pure a).bind hrest

theorem erases_fillSegments (base phoff : Nat) (is : List Nat) (a : Scan) :
    Erases Filling.load (fillSegments file base phoff is a)
      (loadSegments file base phoff is a) := by
  induction is generalizing a with
  | nil => exact .pure a
  | cons i is ih =>
      unfold fillSegments loadSegments
      refine (erases_addFields _ _).bind_pure ((erases_addFields _ _).bind_pure ?_)
      exact .ite (fun _ => .throw _) fun _ => (erases_fillSegment _ _ _).bind ih

theorem erases_findPhdr (phoff : Nat) (a : Scan) :
    Erases Filling.load (findPhdr phoff a) (pure (if a.phdrVa = 0 then
      match a.firstLoad with
      | some (va, off) => if off ≤ phoff then wrap (va + (phoff - off)) else 0
      | none => 0
    else a.phdrVa)) := by
  unfold findPhdr
  split
  · split
    · split
      · exact erases_addFields _ _
      · exact .pure 0
    · exact .pure 0
  · exact .pure _

/-- **The bytes and the sums** change nothing of what is done to the space. -/
theorem erases_fillElf (file : File) (dynBase : Nat) (segs : List Seg) :
    Erases Filling.load (fillElf file dynBase segs) (mapElf file dynBase segs) := by
  unfold fillElf mapElf
  refine .ite (fun _ => .throw _) fun _ => .ite (fun _ => .throw _) fun _ => ?_
  by_cases hent : rd16 file 54 = 56
  · rw [if_neg (not_not.mpr hent)]
    refine (erases_addFields _ _).bind_pure ?_
    by_cases hlen : file.size < wrap (rd64 file 32 + rd16 file 56 * rd16 file 54)
    · rw [if_pos hlen, if_pos (.inr hlen)]
      exact .throw _
    · rw [if_neg hlen, if_neg (not_or.mpr ⟨not_not.mpr hent, hlen⟩)]
      exact (erases_fillSegments _ _ _ _).bind fun a => (erases_findPhdr _ a).bind_pure
        ((erases_addFields _ _).bind_pure (.pure _))
  · rw [if_pos hent, if_pos (.inl hent)]
    exact .throw _

end Pulsar.Vm

import Mathlib.Logic.Relation
import Pulsar.Ext2.Inode
import Pulsar.Ext2.Cache

/-!
# The records of directories (`ext2.rs`, section "diretorios")

The blocks of a directory hold records: an inode, the length of the record, the length of the name,
a type and the name.  `readdir`, `lookup`, `dir_add` and `dir_remove` each walk over them.  An answer
is missing where the code would read or write outside its block, subtract below zero or never end.

* `Dir`: the directory as the walkers find it.
* `Visited`, `Reached`: the records that a walk comes to.
-/

namespace Pulsar.Ext2

def ENOENT : Errno := 2
def ENOTDIR : Errno := 20
def EINVAL : Errno := 22

/-- A directory: what `read_inode` says of it, and what `bmap` and `bget` give for each block of it,
an error, nothing for a hole, or the bytes. -/
structure Dir where
  isDir : Bool
  size : Nat
  block : Nat → Except Errno (Option Bytes)

/-- The first eight bytes of a record. -/
structure Head where
  ino : Nat
  reclen : Nat
  nlen : Nat
  ft : Nat
  deriving DecidableEq

/-- The header at an offset. -/
def headAt (d : Bytes) (off : Nat) : Head :=
  ⟨leGet d off 4, leGet d (off + 4) 2, (d (off + 6)).toNat, (d (off + 7)).toNat⟩

/-- The header, if it lies in the block. -/
def head? (bs : Nat) (d : Bytes) (off : Nat) : Option Head :=
  if off + 8 ≤ bs then some (headAt d off) else none

/-- The `n` bytes at an offset. -/
def bytesFrom (d : Bytes) (off n : Nat) : List UInt8 := (List.range n).map fun i => d (off + i)

/-- The name, if it lies in the block. -/
def name? (bs : Nat) (d : Bytes) (off n : Nat) : Option (List UInt8) :=
  if off + n ≤ bs then some (bytesFrom d off n) else none

/-- The record fits its block. -/
def Head.Fits (h : Head) (bs off : Nat) : Prop := 8 ≤ h.reclen ∧ off + h.reclen ≤ bs

/-- What a walker does at a record: it leaves the block or subtracts below zero, it stops with an
error, it is done, or it goes on. -/
inductive Visit (α : Type) where
  | fault
  | stop (e : Errno)
  | found (a : α)
  | skip (reclen : Nat)

variable {α : Type}

/-- The loop over the records of a block, with the offset of the one before. -/
def walk (bs : Nat) (visit : Nat → Visit α) :
    Nat → Nat → Option Nat → Option (Except Errno (Option (Option Nat × α)))
  | 0, off, _ => if off < bs then none else some (.ok none)
  | n + 1, off, prev =>
    if off < bs then
      match visit off with
      | .fault => none
      | .stop e => some (.error e)
      | .found a => some (.ok (some (prev, a)))
      | .skip r => walk bs visit n (off + r) (some off)
    else some (.ok none)

/-- The loop over the blocks; a hole is passed over. -/
def walkBlocks (bs : Nat) (dir : Dir) (visit : Bytes → Nat → Visit α) :
    List Nat → Option (Except Errno (Option (Nat × Bytes × Option Nat × α)))
  | [] => some (.ok none)
  | l :: ls =>
    match dir.block l with
    | .error e => some (.error e)
    | .ok none => walkBlocks bs dir visit ls
    | .ok (some d) =>
      match walk bs (visit d) bs 0 none with
      | none => none
      | some (.error e) => some (.error e)
      | some (.ok (some (prev, a))) => some (.ok (some (l, d, prev, a)))
      | some (.ok none) => walkBlocks bs dir visit ls

/-! ### `readdir` -/

/-- `struct Dirent`. -/
structure Dirent where
  ino : Nat
  ftype : Nat
  name : List UInt8
  next : Nat
  deriving DecidableEq

/-- `readdir` at a record: its header and its name, if it is alive. -/
def readdirVisit (bs : Nat) (d : Bytes) (off : Nat) : Visit (Head × List UInt8) :=
  match head? bs d off with
  | none => .fault
  | some h =>
    if h.reclen < 8 ∨ bs < off + h.reclen then .stop EIO
    else if h.ino ≠ 0 ∧ 0 < h.nlen then
      match name? bs d (off + 8) h.nlen with
      | none => .fault
      | some name => .found (h, name)
    else .skip h.reclen

/-- The loop of `readdir`. -/
def readdirFrom (bs : Nat) (dir : Dir) : Nat → Nat → Option (Except Errno (Option Dirent))
  | 0, pos => if pos < dir.size then none else some (.ok none)
  | n + 1, pos =>
    if pos < dir.size then
      match dir.block (pos / bs) with
      | .error e => some (.error e)
      | .ok none => readdirFrom bs dir n ((pos / bs + 1) * bs)
      | .ok (some d) =>
        match readdirVisit bs d (pos % bs) with
        | .fault => none
        | .stop e => some (.error e)
        | .found (h, name) => some (.ok (some ⟨h.ino, h.ft, name, pos + h.reclen⟩))
        | .skip r => readdirFrom bs dir n (pos + r)
    else some (.ok none)

/-- `readdir(dir, pos)`. -/
def readdir (bs : Nat) (dir : Dir) (pos : Nat) : Option (Except Errno (Option Dirent)) :=
  if dir.isDir = false then some (.error ENOTDIR) else readdirFrom bs dir dir.size pos

/-- `lseek` on a directory, from the position that `whence` names. -/
def lseek (base off : Int) : Option Nat :=
  if 0 ≤ base + off ∧ base + off < 2 ^ 63 then some (base + off).toNat else none

/-! ### `lookup` -/

/-- `lookup` at a record. -/
def lookupVisit (bs : Nat) (name : List UInt8) (d : Bytes) (off : Nat) : Visit (Nat × Nat) :=
  match head? bs d off with
  | none => .fault
  | some h =>
    if h.reclen < 8 ∨ bs < off + h.reclen then .stop EIO
    else if h.ino ≠ 0 ∧ h.nlen = name.length then
      match name? bs d (off + 8) h.nlen with
      | none => .fault
      | some ename => if ename = name then .found (h.ino, h.ft) else .skip h.reclen
    else .skip h.reclen

/-- `lookup(dir, name)`; `hit` is what the cache of names answers. -/
def lookup (bs : Nat) (dir : Dir) (hit : Option (Option (Nat × Nat))) (name : List UInt8) :
    Option (Except Errno (Option (Nat × Nat))) :=
  match hit with
  | some r => some (.ok r)
  | none =>
    if dir.isDir = false then some (.error ENOTDIR)
    else
      match walkBlocks bs dir (lookupVisit bs name) (List.range (dir.size / bs)) with
      | none => none
      | some (.error e) => some (.error e)
      | some (.ok (some (_, _, _, a))) => some (.ok (some a))
      | some (.ok none) => some (.ok none)

/-! ### `dir_add` -/

/-- `rec_need(nlen)`. -/
def recNeed (nlen : Nat) : Nat := (8 + nlen + 3) / 4 * 4

/-- `write_dirent` at an offset of a block, if the record lies in the block. -/
def writeDirent? (bs : Nat) (d : Bytes) (at' ino reclen : Nat) (name : List UInt8) (ft : Nat) :
    Option Bytes :=
  if at' + 8 + name.length ≤ bs then
    some (blit (lePut (lePut (lePut (lePut d at' 4 ino) (at' + 4) 2 reclen) (at' + 6) 1 name.length)
      (at' + 7) 1 ft) (at' + 8) name.length fun i => name.getD i 0)
  else none

/-- `dir_add` at a record: the block with the new record, if there is room in this one. -/
def addVisit (bs : Nat) (name : List UInt8) (ino ft : Nat) (d : Bytes) (off : Nat) : Visit Bytes :=
  match head? bs d off with
  | none => .fault
  | some h =>
    if h.reclen < 8 then .stop EIO
    else
      let used := if h.ino = 0 then 0 else recNeed h.nlen
      -- the machine's difference is that of natural numbers only here
      if h.reclen < used then .fault
      else if recNeed name.length ≤ h.reclen - used then
        let at' := if h.ino = 0 then off else off + used
        let d := if h.ino = 0 then d else lePut d (off + 4) 2 used
        match writeDirent? bs d at' ino (h.reclen - (at' - off)) name ft with
        | none => .fault
        | some d => .found d
      else .skip h.reclen

/-- `dir_add(dir, name, ino, ft)`: the block that changes and its bytes.  `fresh` is what the
allocation of a block at the end gives, `touch` what the writing of the inode answers. -/
def dirAdd (bs : Nat) (dir : Dir) (fresh : Except Errno Bytes) (touch : Except Errno Unit)
    (name : List UInt8) (ino ft : Nat) : Option (Except Errno (Nat × Bytes)) :=
  match walkBlocks bs dir (addVisit bs name ino ft) (List.range (dir.size / bs)) with
  | none => none
  | some (.error e) => some (.error e)
  | some (.ok (some (l, _, _, d))) => some (touch.map fun _ => (l, d))
  | some (.ok none) =>
    match fresh with
    | .error e => some (.error e)
    | .ok d =>
      match writeDirent? bs d 0 ino bs name ft with
      | none => none
      | some d => some (touch.map fun _ => (dir.size / bs, d))

/-! ### `dir_remove` -/

/-- `dir_remove` at a record: the length of the record, if it has the name. -/
def removeVisit (bs : Nat) (name : List UInt8) (d : Bytes) (off : Nat) : Visit Nat :=
  match head? bs d off with
  | none => .fault
  | some h =>
    if h.reclen < 8 then .stop EIO
    else if h.ino ≠ 0 ∧ h.nlen = name.length then
      match name? bs d (off + 8) h.nlen with
      | none => .fault
      | some ename => if ename = name then .found h.reclen else .skip h.reclen
    else .skip h.reclen

/-- The record goes to the one before it in the block, or loses its inode. -/
def mergeDirent? (bs : Nat) (d : Bytes) (prev : Option Nat) (reclen : Nat) : Option Bytes :=
  match prev with
  | some po => if po + 8 ≤ bs then some (lePut d (po + 4) 2 (leGet d (po + 4) 2 + reclen)) else none
  | none => if 4 ≤ bs then some (lePut d 0 4 0) else none

/-- `dir_remove(dir, name)`. -/
def dirRemove (bs : Nat) (dir : Dir) (touch : Except Errno Unit) (name : List UInt8) :
    Option (Except Errno (Nat × Bytes)) :=
  match walkBlocks bs dir (removeVisit bs name) (List.range (dir.size / bs)) with
  | none => none
  | some (.error e) => some (.error e)
  | some (.ok none) => some (.error ENOENT)
  | some (.ok (some (l, d, prev, reclen))) =>
    match mergeDirent? bs d prev reclen with
    | none => none
    | some d => some (touch.map fun _ => (l, d))

/-! ### The records that a walk comes to -/

/-- The records of a block from one on, as far as the walk goes on. -/
def Chain (bs : Nat) (visit : Nat → Visit α) : Nat → Nat → Prop :=
  Relation.ReflTransGen fun o o' => ∃ r, visit o = .skip r ∧ o' = o + r ∧ o' < bs

/-- The walk passes over the block to the next. -/
def Passed (bs : Nat) (dir : Dir) (visit : Bytes → Nat → Visit α) (l : Nat) : Prop :=
  dir.block l = .ok none ∨
    ∃ d, dir.block l = .ok (some d) ∧ ∀ off, Chain bs (visit d) 0 off → ∃ r, visit d off = .skip r

/-- The walk over the blocks comes to the record at `off` of block `l`, which has the bytes `d`. -/
def Visited (bs : Nat) (dir : Dir) (visit : Bytes → Nat → Visit α) (l : Nat) (d : Bytes)
    (off : Nat) : Prop :=
  l < dir.size / bs ∧ (∀ l' < l, Passed bs dir visit l') ∧ dir.block l = .ok (some d) ∧
    Chain bs (visit d) 0 off

/-- `readdir` goes on from one position to another. -/
inductive Goes (bs : Nat) (dir : Dir) : Nat → Nat → Prop where
  | hole {pos : Nat} (hs : pos < dir.size) (hb : dir.block (pos / bs) = .ok none) :
      Goes bs dir pos ((pos / bs + 1) * bs)
  | skip {pos r : Nat} {d : Bytes} (hs : pos < dir.size) (hb : dir.block (pos / bs) = .ok (some d))
      (hv : readdirVisit bs d (pos % bs) = .skip r) : Goes bs dir pos (pos + r)

/-- `readdir` from `pos` comes to the record at `pos'`, in a block with the bytes `d`. -/
def Reached (bs : Nat) (dir : Dir) (pos pos' : Nat) (d : Bytes) : Prop :=
  Relation.ReflTransGen (Goes bs dir) pos pos' ∧ pos' < dir.size ∧
    dir.block (pos' / bs) = .ok (some d)

end Pulsar.Ext2

import Pulsar.Lib.Tree
import Pulsar.Vm.Frames
import Pulsar.Vm.Vma

/-!
# Page tables (`arch/aarch64/mmu.rs`)

`Pt` is the part of a space's page tables that belongs to it: its tables of the three levels below
the root, each under the index bits that lead to it, and its leaf entries by page number.  An entry
keeps the bits that the kernel reads back.  The kernel's own subtrees, which every root shares, are
left out, and so are the TLB instructions, which change no memory.

A walk with the lock held is one step: it is written entry by entry where it may stop half way, and
as one change of the leaves where it may not.
-/

namespace Pulsar.Vm

/-- `PageFlags`: AP[1], AP[2], the complement of UXN, and the software bit of shared objects. -/
structure PageFlags where
  user : Bool
  ro : Bool
  exec : Bool
  isShared : Bool
  deriving DecidableEq

namespace PageFlags

/-- `user_code()`. -/
def userCode : PageFlags := ⟨true, true, true, false⟩

/-- `user_data()`. -/
def userData : PageFlags := ⟨true, false, false, false⟩

/-- `user_prot(prot)`; with no bit set only the kernel has access. -/
def userProt (prot : Nat) : PageFlags :=
  { user := prot.testBit 0 || prot.testBit 1 || prot.testBit 2
    ro := !prot.testBit 1 && (prot.testBit 0 || prot.testBit 2)
    exec := prot.testBit 2
    isShared := false }

/-- `shared()`. -/
def shared (f : PageFlags) : PageFlags := { f with isShared := true }

end PageFlags

/-- A leaf entry. -/
structure Pte where
  frame : Nat
  flags : PageFlags
  deriving DecidableEq

/-- The tables and the leaf entries of a space. -/
structure Pt where
  l1 : Tree Nat
  l2 : Tree Nat
  l3 : Tree Nat
  leaf : Tree Pte

def Pt.empty : Pt := ⟨∅, ∅, ∅, ∅⟩

/-- The page number of an address, from the index bits of the four levels. -/
def vpn (va : Nat) : Nat := va / PAGE % 2 ^ 36

namespace Pt

/-- The frames of the tables below the root. -/
def tables (pt : Pt) : Multiset Nat :=
  (pt.l1.cells.map (·.2)) + (pt.l2.cells.map (·.2)) + (pt.l3.cells.map (·.2))

/-- `translate_user(root, va, write)`: the frame of a page that user code may read, or write. -/
def translateUser (pt : Pt) (va : Nat) (write : Bool) : Option Nat :=
  match pt.leaf[vpn va]? with
  | none => none
  | some e => if e.flags.user && !(write && e.flags.ro) then some e.frame else none

/-- `is_mapped(root, va)`. -/
def isMapped (pt : Pt) (va : Nat) : Bool := pt.leaf[vpn va]?.isSome

/-- The page numbers that a walk over `[start, end)` visits. -/
def walked (start stop p : Nat) : Bool :=
  decide (start / PAGE ≤ p ∧ p < (stop + (PAGE - 1)) / PAGE)

end Pt

/-- `next_table(table, idx)`: the table that the entry leads to, made if there is none. -/
def nextTable (t : Tree Nat) (k : Nat) (fr : Frames) : Option (Tree Nat × Frames) :=
  match t[k]? with
  | some _ => some (t, fr)
  | none =>
    match fr.allocFrame with
    | (some f, fr) => some (t.insert k f, fr)
    | (none, _) => none

/-- `map_page_locked(root, va, pa, flags)`, of a page; the tables made stay when it fails. -/
def mapPage (p : Nat) (e : Pte) (s : Pt × Frames) : Bool × Pt × Frames :=
  match nextTable s.1.l1 (p / 512 ^ 3) s.2 with
  | none => (false, s)
  | some (l1, fr) =>
    match nextTable s.1.l2 (p / 512 ^ 2) fr with
    | none => (false, { s.1 with l1 := l1 }, fr)
    | some (l2, fr) =>
      match nextTable s.1.l3 (p / 512) fr with
      | none => (false, { s.1 with l1 := l1, l2 := l2 }, fr)
      | some (l3, fr) => (true, ⟨l1, l2, l3, s.1.leaf.insert p e⟩, fr)

/-- The frames are freed, in order. -/
def Frames.freeAll (fs : List Nat) (fr : Frames) : Frames := fs.foldl (fun fr f => fr.freeFrame f) fr

/-- The frames of private entries, in order. -/
def privateFrames (es : List (Nat × Pte)) : List Nat :=
  (es.filter fun e => !e.2.flags.isShared).map (·.2.frame)

/-- `unmap_range(root, start, end)`. -/
def unmapRange (start stop : Nat) (s : Pt × Frames) : Pt × Frames :=
  ({ s.1 with leaf := s.1.leaf.filter fun p _ => !Pt.walked start stop p },
    s.2.freeAll (privateFrames (s.1.leaf.filter fun p _ => Pt.walked start stop p).toList))

/-- `protect_range(root, start, end, flags)`; the bit of shared objects stays. -/
def protectRange (start stop : Nat) (flags : PageFlags) (pt : Pt) : Pt :=
  { pt with leaf := pt.leaf.map fun p e =>
      if Pt.walked start stop p then
        { e with flags := { flags with isShared := flags.isShared || e.flags.isShared } }
      else e }

/-- `move_range(root, old_start, old_end, new_start)`; an entry for which there is no table
stays. -/
def moveRange (oldStart oldEnd newStart : Nat) (s : Pt × Frames) : Pt × Frames :=
  (s.1.leaf.filter fun p _ => Pt.walked oldStart oldEnd p).toList.foldl (fun s e =>
    match mapPage (newStart / PAGE + (e.1 - oldStart / PAGE)) e.2 s with
    | (true, pt, fr) => ({ pt with leaf := pt.leaf.erase e.1 }, fr)
    | (false, s) => s) s

/-- `create_user_space()`: the root and the new space.  A frame taken before one was missing is not
given back. -/
def createUserSpace (fr : Frames) : Option (Nat × Pt) × Frames :=
  match fr.allocFrame with
  | (none, fr) => (none, fr)
  | (some l0, fr) =>
    match fr.allocFrame with
    | (none, fr) => (none, fr)
    | (some l1, fr) =>
      match fr.allocFrame with
      | (none, fr) => (none, fr)
      | (some l2, fr) =>
        (some (l0, { Pt.empty with l1 := Pt.empty.l1.insert 0 l1, l2 := Pt.empty.l2.insert 0 l2 }), fr)

/-- `free_user_space(root)`: the private pages, the tables and the root, one level after the
other. -/
def freeUserSpace (root : Nat) (pt : Pt) (fr : Frames) : Frames :=
  ((((fr.freeAll (privateFrames pt.leaf.toList)).freeAll (pt.l3.toList.map (·.2))).freeAll
    (pt.l2.toList.map (·.2))).freeAll (pt.l1.toList.map (·.2))).freeFrame root

/-- The loop of `clone_user_space`: each entry goes to the new space, the writable private ones
write-protected in both. -/
def cloneLoop : List (Nat × Pte) → Pt → Pt → Frames → Bool × Pt × Pt × Frames
  | [], src, dst, fr => (true, src, dst, fr)
  | (p, e) :: es, src, dst, fr =>
    if fr.reserved e.frame || e.flags.isShared then
      match mapPage p e (dst, fr) with
      | (true, dst, fr) => cloneLoop es src dst fr
      | (false, dst, fr) => (false, src, dst, fr)
    else
      let e' : Pte := { e with flags := { e.flags with ro := true } }
      let src := if e.flags.ro then src else { src with leaf := src.leaf.insert p e' }
      match mapPage p e' (dst, fr.incRef e.frame) with
      | (true, dst, fr) => cloneLoop es src dst fr
      | (false, dst, fr) => (false, src, dst, fr.freeFrame e.frame)

/-- `clone_user_space(src)`: the new root and space, and the old space. -/
def cloneUserSpace (src : Pt) (fr : Frames) : Option (Nat × Pt) × Pt × Frames :=
  match createUserSpace fr with
  | (none, fr) => (none, src, fr)
  | (some (root, dst), fr) =>
    match cloneLoop src.leaf.toList src dst fr with
    | (true, src, dst, fr) => (some (root, dst), src, fr)
    | (false, src, dst, fr) => (none, src, freeUserSpace root dst fr)

end Pulsar.Vm

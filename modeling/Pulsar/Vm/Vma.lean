import Mathlib.Algebra.Ring.Nat
import Pulsar.Lib.Spans

/-!
# The table of regions of an address space (`vm.rs`)

`Space` is the sorted array of a space's regions.  Its operations are written on the list of them:
a loop from index `i` on is a recursion over the list from there, and what it does to the
references of shared objects, `obj_ref`, is listed beside the new table, in order.
-/

namespace Pulsar.Vm

def PAGE : Nat := 4096

def MMAP_BASE : Nat := 0x2000000000
def MMAP_END : Nat := 0x3F00000000

/-- `struct Vma`; `stop` is its field `end`. -/
structure Vma where
  start : Nat
  stop : Nat
  prot : Nat
  obj : Nat
  ino : Nat
  pgoff : Nat
  deriving DecidableEq

/-- `Vma::anon`. -/
def Vma.anon (start stop prot : Nat) : Vma := ⟨start, stop, prot, 0, 0, 0⟩

/-- The part of a region from `addr` on, its page of the object moved along. -/
def Vma.tail (v : Vma) (addr : Nat) : Vma :=
  { v with start := addr, pgoff := v.pgoff + (addr - v.start) / PAGE }

/-- Changes to the references of shared objects: `obj_ref(obj, delta)` for each. -/
abbrev Refs := List (Nat × Int)

/-- `struct Space`: the frames of the array, if it has any, the regions in it and the hint. -/
structure Space where
  table : Option Nat
  pages : Nat
  vmas : List Vma
  hint : Nat

def Space.empty : Space := ⟨none, 0, [], MMAP_BASE⟩

/-- The bytes of a region in the array. -/
def VMA_SIZE : Nat := 40
def FIRST_PAGES : Nat := 4
def MAX_PAGES : Nat := 256

/-- `cap()`. -/
def Space.cap (s : Space) : Nat := s.pages * PAGE / VMA_SIZE

/-! ### The operations -/

/-- `lower(addr)`: the index of the first region with `end > addr`. -/
def lower (vs : List Vma) (addr : Nat) : Nat := Spans.lower Vma.stop vs addr

/-- `find(addr)`. -/
def find (vs : List Vma) (addr : Nat) : Option Vma :=
  match vs[lower vs addr]? with
  | some v => if v.start ≤ addr then some v else none
  | none => none

/-- `overlaps(start, end)`. -/
def overlaps (vs : List Vma) (start stop : Nat) : Bool :=
  match vs[lower vs start]? with
  | some v => decide (v.start < stop)
  | none => false

/-- The loop of `covered`. -/
def coveredFrom (stop : Nat) : Nat → List Vma → Bool
  | here, [] => decide (stop ≤ here)
  | here, v :: vs =>
    if here < stop then if here < v.start then false else coveredFrom stop v.stop vs else true

/-- `covered(start, end)`. -/
def covered (vs : List Vma) (start stop : Nat) : Bool :=
  coveredFrom stop start (vs.drop (lower vs start))

/-- The loop of `carve`. -/
def carveFrom (start stop : Nat) : List Vma → List Vma × Refs
  | [] => ([], [])
  | v :: vs =>
    if stop ≤ v.start then (v :: vs, [])
    else if v.start < start ∧ stop < v.stop then
      ({ v with stop := start } :: v.tail stop :: vs, [(v.obj, 1)])
    else if v.start < start then
      let r := carveFrom start stop vs
      ({ v with stop := start } :: r.1, r.2)
    else if stop < v.stop then (v.tail stop :: vs, [])
    else
      let r := carveFrom start stop vs
      (r.1, (v.obj, -1) :: r.2)

/-- `carve(start, end)`. -/
def carve (vs : List Vma) (start stop : Nat) : List Vma × Refs :=
  let i := lower vs start
  let r := carveFrom start stop (vs.drop i)
  (vs.take i ++ r.1, r.2)

/-- `mergeable(a, b)`. -/
def mergeable (x y : Vma) : Bool :=
  x.stop == y.start && x.prot == y.prot && x.obj == y.obj && x.ino == y.ino &&
    ((x.obj == 0 && x.ino == 0) || x.pgoff + (x.stop - x.start) / PAGE == y.pgoff)

/-- The regions `i` and `i + 1` become one, if they are mergeable. -/
def mergeAt (vs : List Vma) (i : Nat) : List Vma × Refs :=
  match vs[i]?, vs[i + 1]? with
  | some x, some y =>
    if mergeable x y then ((vs.set i { x with stop := y.stop }).eraseIdx (i + 1), [(y.obj, -1)])
    else (vs, [])
  | _, _ => (vs, [])

/-- `add_vma(v)`: inserts a region and merges it with its neighbours. -/
def addVma (vs : List Vma) (v : Vma) : List Vma × Refs :=
  let i := lower vs v.start
  let vs := vs.insertIdx i v
  if 0 < i then
    let l := mergeAt vs (i - 1)
    -- when the region was merged into the one before, that one is now the one to look at
    let r := mergeAt l.1 (if l.1.length < vs.length then i - 1 else i)
    (r.1, l.2 ++ r.2)
  else mergeAt vs i

/-- `add(start, end, prot)`. -/
def add (vs : List Vma) (start stop prot : Nat) : List Vma × Refs :=
  addVma vs (.anon start stop prot)

/-- `split_at(addr)`. -/
def splitAt (vs : List Vma) (addr : Nat) : List Vma × Refs :=
  let i := lower vs addr
  match vs[i]? with
  | none => (vs, [])
  | some v =>
    if addr ≤ v.start ∨ v.stop ≤ addr then (vs, [])
    else ((vs.set i { v with stop := addr }).insertIdx (i + 1) (v.tail addr), [(v.obj, 1)])

/-- The loop of `mprotect`. -/
def protFrom (stop prot : Nat) : List Vma → List Vma
  | [] => []
  | v :: vs => if v.start < stop then { v with prot := prot } :: protFrom stop prot vs else v :: vs

/-- The table part of `mprotect`: splits at the edges and changes the regions between. -/
def protect (vs : List Vma) (start stop prot : Nat) : List Vma × Refs :=
  let a := splitAt vs start
  let b := splitAt a.1 stop
  let i := lower b.1 start
  (b.1.take i ++ protFrom stop prot (b.1.drop i), a.2 ++ b.2)

/-- The loop of `gap_from`. -/
def gapLoop (len : Nat) : Nat → List Vma → Option Nat
  | cand, vs =>
    if 2 ^ 64 ≤ cand + len then none
    else if MMAP_END < cand + len then none
    else
      match vs with
      | [] => some cand
      | v :: vs => if cand + len ≤ v.start then some cand else gapLoop len (max cand v.stop) vs
  termination_by structural _ vs => vs

/-- `gap_from(from, len)`. -/
def gapFrom (vs : List Vma) (fro len : Nat) : Option Nat :=
  let cand := max fro MMAP_BASE
  gapLoop len cand (vs.drop (lower vs cand))

/-- `gap(len)`. -/
def Space.gap (s : Space) (len : Nat) : Option Nat :=
  (gapFrom s.vmas s.hint len).or (gapFrom s.vmas MMAP_BASE len)

end Pulsar.Vm

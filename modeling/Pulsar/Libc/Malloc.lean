import Pulsar.Lib.Bytes
import Pulsar.Lib.Cover

/-!
# The allocator of the C library (`malloc.c`)

A block has a header of 16 bytes, its size and a pointer to the next block, in the memory that it
is part of; 0 is the null pointer.  Small blocks come from arenas and go to the bins of their sizes;
large ones are in a list, in the order of their addresses, where neighbours are joined.

Walks of lists count what is left of `FUEL`, and the answers of `sbrk` are given with the calls.
-/

namespace Pulsar.Libc

open Cover

def HDR : Nat := 16
def MIN_GROW : Nat := 256 * 1024
def SMALL_MAX : Nat := 1024
def ARENA : Nat := 64 * 1024

/-- The largest `size_t`. -/
def SIZE_MAX : Nat := 2 ^ 64 - 1

/-- `ALIGN16(n)`. -/
def align16 (n : Nat) : Nat := (n + 15) % 2 ^ 64 / 16 * 16

/-- No list of blocks is longer. -/
def FUEL : Nat := 2 ^ 64

/-- Memory and the variables of `malloc.c`; `obtained` is what `sbrk` has answered. -/
structure Heap where
  mem : Nat → UInt8
  freeList : Nat
  bins : Nat → Nat
  arenaCur : Nat
  arenaEnd : Nat
  obtained : List Span

namespace Heap

/-! ### Headers -/

/-- `b->size`. -/
def size (b : Nat) (h : Heap) : Nat := leGet h.mem b 8

/-- `b->next`. -/
def next (b : Nat) (h : Heap) : Nat := leGet h.mem (b + 8) 8

def setSize (b n : Nat) (h : Heap) : Heap := { h with mem := lePut h.mem b 8 n }

def setNext (b n : Nat) (h : Heap) : Heap := { h with mem := lePut h.mem (b + 8) 8 n }

/-- `if(prev) prev->next = b; else free_list = b`. -/
def link (prev b : Nat) (h : Heap) : Heap :=
  if prev ≠ 0 then h.setNext prev b else { h with freeList := b }

/-! ### Large blocks -/

/-- The loop of `insert_free`. -/
def seek (b : Nat) (h : Heap) : Nat → Nat → Nat → Option (Nat × Nat)
  | 0, _, _ => none
  | fuel + 1, prev, cur =>
    if cur ≠ 0 ∧ cur < b then seek b h fuel cur (h.next cur) else some (prev, cur)

/-- Block `c` becomes part of block `b`. -/
def absorb (b c : Nat) (h : Heap) : Heap :=
  let h := h.setSize b (h.size b + h.size c)
  h.setNext b (h.next c)

/-- `insert_free(b)`. -/
def insertFree (b : Nat) (h : Heap) : Option Heap := do
  let (prev, cur) ← h.seek b FUEL 0 h.freeList
  let h := (h.setNext b cur).link prev b
  let h := if cur ≠ 0 ∧ b + h.size b = cur then h.absorb b cur else h
  some (if prev ≠ 0 ∧ prev + h.size prev = b then h.absorb prev b else h)

/-- What `grow(need)` asks of `sbrk`. -/
def growSize (need : Nat) : Nat := if need < MIN_GROW then MIN_GROW else align16 need

/-- `grow(need)`, with the answer of `sbrk`. -/
def grow (sbrk : Nat → Option Nat) (need : Nat) (h : Heap) : Option (Bool × Heap) :=
  let n := growSize need
  match sbrk n with
  | none => some (false, h)
  | some old => do
    let h ← ({ h with obtained := (old, n) :: h.obtained }.setSize old n).insertFree old
    some (true, h)

/-- The search of `large_alloc`: `prev`, and the first block that is large enough. -/
def search (need : Nat) (h : Heap) : Nat → Nat → Nat → Option (Nat × Nat)
  | 0, _, _ => none
  | fuel + 1, prev, b =>
    if b = 0 then some (prev, 0)
    else if h.size b < need then search need h fuel b (h.next b)
    else some (prev, b)

/-- A block leaves the list, or its first `need` bytes do. -/
def take (prev b need : Nat) (h : Heap) : Heap :=
  if HDR + SMALL_MAX ≤ h.size b - need then
    let rest := b + need
    let h := h.setSize rest (h.size b - need)
    let h := h.setNext rest (h.next b)
    (h.link prev rest).setSize b need
  else h.link prev (h.next b)

/-- `large_alloc(need)`, with the attempts that are left. -/
def largeAlloc (sbrk : Nat → Nat → Option Nat) (need : Nat) : Nat → Heap → Option (Nat × Heap)
  | 0, h => some (0, h)
  | attempts + 1, h => do
    let (prev, b) ← h.search need FUEL 0 h.freeList
    if b ≠ 0 then some (b, h.take prev b need)
    else
      let (ok, h) ← h.grow (sbrk attempts) need
      if ok then largeAlloc sbrk need attempts h else some (0, h)

/-! ### Small blocks -/

/-- A block goes to its bin. -/
def push (b k : Nat) (h : Heap) : Heap :=
  let h := h.setNext b (h.bins k)
  { h with bins := Function.update h.bins k b }

/-- What is left of an arena becomes small blocks. -/
def rebin : Nat → Heap → Option Heap
  | 0, _ => none
  | fuel + 1, h =>
    if 32 ≤ h.arenaEnd - h.arenaCur then
      let r := min (h.arenaEnd - h.arenaCur) SMALL_MAX / 16 * 16
      let f := h.arenaCur
      rebin fuel { (h.setSize f r).push f (r / 16) with arenaCur := f + r }
    else some h

/-- The next small block of the arena. -/
def carve (need : Nat) (h : Heap) : Nat × Heap :=
  let b := h.arenaCur
  (b + HDR, { h with arenaCur := b + need }.setSize b need)

/-! ### The functions -/

/-- `malloc_unlocked(n)`; a result of 0 is `NULL`. -/
def malloc (sbrk : Nat → Nat → Option Nat) (n : Nat) (h : Heap) : Option (Nat × Heap) :=
  let n := if n = 0 then 1 else n
  if 2 ^ 40 < n then some (0, h)
  else
    let need := align16 n + HDR
    if need ≤ SMALL_MAX then
      let k := need / 16
      let b := h.bins k
      if b ≠ 0 then some (b + HDR, { h with bins := Function.update h.bins k (h.next b) })
      else if h.arenaEnd < h.arenaCur + need then do
        let h ← h.rebin FUEL
        let (a, h) ← h.largeAlloc sbrk ARENA 2
        some (if a = 0 then (0, h)
          else { h with arenaCur := a, arenaEnd := a + h.size a }.carve need)
      else some (h.carve need)
    else do
      let (b, h) ← h.largeAlloc sbrk need 2
      some (if b ≠ 0 then b + HDR else 0, h)

/-- `free(p)`. -/
def free (p : Nat) (h : Heap) : Option Heap :=
  if p = 0 then some h
  else
    let b := p - HDR
    if h.size b ≤ SMALL_MAX then some (h.push b (h.size b / 16)) else h.insertFree b

/-- `malloc_usable_size(p)`. -/
def usableSize (p : Nat) (h : Heap) : Nat := if p ≠ 0 then h.size (p - HDR) - HDR else 0

/-- `memset(p, 0, n)`. -/
def clear (p n : Nat) (h : Heap) : Heap :=
  { h with mem := fun x => if p ≤ x ∧ x < p + n then 0 else h.mem x }

/-- `memcpy(q, p, n)`. -/
def copy (q p n : Nat) (h : Heap) : Heap :=
  { h with mem := fun x => if q ≤ x ∧ x < q + n then h.mem (p + (x - q)) else h.mem x }

/-- `calloc(n, sz)`. -/
def calloc (sbrk : Nat → Nat → Option Nat) (n sz : Nat) (h : Heap) : Option (Nat × Heap) :=
  if sz ≠ 0 ∧ SIZE_MAX / sz < n then some (0, h)
  else do
    let m := n * sz % 2 ^ 64
    let (p, h) ← h.malloc sbrk m
    some (p, if p ≠ 0 then h.clear p m else h)

/-- `realloc(p, n)`. -/
def realloc (sbrk : Nat → Nat → Option Nat) (p n : Nat) (h : Heap) : Option (Nat × Heap) :=
  if p = 0 then h.malloc sbrk n
  else if n = 0 then do
    let h ← h.free p
    some (0, h)
  else
    let have' := h.usableSize p
    if n ≤ have' then some (p, h)
    else do
      let (q, h) ← h.malloc sbrk n
      if q = 0 then some (0, h)
      else do
        let h ← (h.copy q p have').free p
        some (q, h)

end Heap

end Pulsar.Libc

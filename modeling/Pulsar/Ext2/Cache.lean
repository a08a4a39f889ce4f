import Mathlib.Data.List.MinMax
import Mathlib.Data.List.Sort
import Mathlib.Data.Finset.Card
import Mathlib.Data.UInt
import Pulsar.Lib.Prog
import Pulsar.Ext2.Device

/-!
# The buffer cache (`ext2.rs`, section "cache")

A write-back cache of `SETS` sets of `WAYS` slots.  `Buf` is its state together with the device
and the block size `fs().bs` it was mounted with.  A slot's contents are `bs` bytes, written as
a run of bytes that is zero from `bs` on (`clip`).

The pointer a `bget` returns is a slot index.  What the callers do with it is `poke` (change the
bytes in place) and, always next, `bdirty`.
-/

namespace Pulsar.Ext2

/-- The errors of `ext2.rs`. -/
abbrev Errno := Nat

def EIO : Errno := 5

def WAYS : Nat := 8
def SETS : Nat := 2048
def SLOTS : Nat := WAYS * SETS

structure Slot where
  blk : Nat
  valid : Bool
  dirty : Bool
  used : UInt32

/-- A slot taken for block `b` and not filled yet. -/
def Slot.taken (b : Nat) (now : UInt32) : Slot :=
  { blk := b, valid := false, dirty := false, used := now }

/-- The cache, the device under it and the block size. -/
structure Buf where
  bs : Nat
  dev : Dev
  slot : Nat → Slot
  data : Nat → Bytes
  dirtyCount : Nat
  tick : UInt32

/-- The first `n` bytes, then zeros. -/
def clip (n : Nat) (d : Bytes) : Bytes := fun i => if i < n then d i else 0

@[simp] theorem clip_lt {n i : Nat} {d : Bytes} (h : i < n) : clip n d i = d i := by
  simp [clip, h]

@[simp] theorem clip_clip {n : Nat} {d : Bytes} : clip n (clip n d) = clip n d := by
  funext i; by_cases h : i < n <;> simp [clip, h]

theorem clip_congr {n : Nat} {d d' : Bytes} (h : ∀ i < n, d i = d' i) : clip n d = clip n d' := by
  funext i; by_cases hi : i < n <;> simp [clip, hi, h]

theorem clip_zero {n : Nat} : clip n (fun _ => 0) = fun _ => 0 := by
  funext i; simp [clip]

/-- The set of block `b`: `(b as usize).wrapping_mul(0x9E37_79B9) >> 8 & (SETS - 1)`. -/
def setOf (b : Nat) : Nat := b * 0x9E3779B9 % 2 ^ 64 / 2 ^ 8 % SETS

/-- The slots `base..base + WAYS` block `b` may be in. -/
def ways (b : Nat) : List Nat := List.range' (setOf b * WAYS) WAYS

theorem setOf_lt (b : Nat) : setOf b < SETS := Nat.mod_lt _ (by decide)

theorem mem_ways {b i : Nat} : i ∈ ways b ↔ setOf b * WAYS ≤ i ∧ i < setOf b * WAYS + WAYS := by
  simp [ways, List.mem_range'_1]

theorem lt_slots_of_mem_ways {b i : Nat} (h : i ∈ ways b) : i < SLOTS := by
  have := mem_ways.mp h
  have := setOf_lt b
  simp only [SLOTS, WAYS, SETS] at *
  omega

namespace Buf

/-- The block `b` of the disk. -/
def diskBlock (s : Buf) (b : Nat) : Bytes := clip s.bs (fun i => s.dev.bytes (b * s.bs + i))

/-- The scan of the set of `b` for a valid slot that holds it. -/
def find (s : Buf) (b : Nat) : Option Nat :=
  (ways b).find? fun i => (s.slot i).valid && (s.slot i).blk == b

def setSlot (s : Buf) (i : Nat) (x : Slot) : Buf := { s with slot := Function.update s.slot i x }

def setData (s : Buf) (i : Nat) (d : Bytes) : Buf :=
  { s with data := Function.update s.data i (clip s.bs d) }

/-- The victim among the slots `is`, `v` being the best so far: the first invalid one, or the
least recently used. -/
def victim (s : Buf) (now : UInt32) : List Nat → Nat → Nat
  | [], v => v
  | i :: is, v =>
    if !(s.slot i).valid then i
    else if now - (s.slot i).used > now - (s.slot v).used then s.victim now is i
    else s.victim now is v

/-- Writes the victim back if it is dirty; `false` when the device fails. -/
def writeBack (s : Buf) (v : Nat) : Bool × Buf :=
  let x := s.slot v
  if x.valid && x.dirty then
    let (ok, dev) := s.dev.write (x.blk * (s.bs / SECTOR_SIZE)) (s.bs / SECTOR_SIZE) (s.data v)
    if ok then
      (true, { (s.setSlot v { x with dirty := false }) with
                 dev := dev, dirtyCount := s.dirtyCount - 1 })
    else (false, { s with dev := dev })
  else (true, s)

/-- Reads block `b` of the disk into slot `v`. -/
def load (s : Buf) (v b : Nat) : Bool × Buf :=
  let r := s.dev.read (b * (s.bs / SECTOR_SIZE)) (s.bs / SECTOR_SIZE)
  (r.1, match r.2.1 with
    | some d => { s with dev := r.2.2 }.setData v d
    | none => { s with dev := r.2.2 })

/-- Slot `v` is taken for block `b`, without contents yet. -/
def claim (s : Buf) (v b : Nat) : Buf :=
  s.setSlot v (.taken b s.tick)

/-- The taken slot gets its contents: the disk's, or zeros for a new block. -/
def supply (s : Buf) (v b : Nat) (ld : Bool) : Bool × Buf :=
  if ld then
    let r := s.load v b
    (r.1, if r.1 then r.2.setSlot v { r.2.slot v with valid := true } else r.2)
  else
    (true, { ((s.setData v fun _ => 0).setSlot v { s.slot v with dirty := true, valid := true }) with
               dirtyCount := s.dirtyCount + 1 })

/-- `bget(b, load)` when no slot holds `b`: evict a victim and fill it. -/
def bgetMiss (b : Nat) (ld : Bool) (s : Buf) : EStateM.Result Errno Buf Nat :=
  let v := s.victim s.tick (ways b) (setOf b * WAYS)
  let w := s.writeBack v
  if w.1 then
    let r := (w.2.claim v b).supply v b ld
    if r.1 then .ok v r.2 else .error EIO r.2
  else .error EIO w.2

/-- `bget(b, load)`: the slot that holds block `b`. -/
def bget (b : Nat) (ld : Bool) : EStateM Errno Buf Nat := fun s =>
  let s := { s with tick := s.tick + 1 }
  match s.find b with
  | some i => .ok i (s.setSlot i { s.slot i with used := s.tick })
  | none => bgetMiss b ld s

/-- The bytes behind the pointer into slot `i`, changed in place by `f`. -/
def poke (i : Nat) (f : Bytes → Bytes) (s : Buf) : Buf := s.setData i (f (s.data i))

/-- The dirty slots, as `flush_dirty` collects them: (block, slot). -/
def dirtyList (s : Buf) : List (Nat × Nat) :=
  ((List.range SLOTS).filter fun i => (s.slot i).valid && (s.slot i).dirty).map
    fun i => ((s.slot i).blk, i)

/-- How many entries of a sorted list go in one request that starts at block `b0`, `k` being in
it already: consecutive blocks, at most `MAX_SEGS`. -/
def runLen (b0 : Nat) : Nat → List (Nat × Nat) → Nat
  | k, [] => k
  | k, e :: es => if k < MAX_SEGS ∧ e.1 = (b0 + k) % 2 ^ 32 then runLen b0 (k + 1) es else k

/-- The data segments of a request: the slots `is`, one after the other. -/
def segs (s : Buf) (is : List Nat) : Bytes := fun x => s.data (is.getD (x / s.bs) 0) (x % s.bs)

/-- `dirty = false` for each slot written, counting down. -/
def markClean (s : Buf) : List Nat → Buf
  | [] => s
  | i :: is =>
    markClean { (s.setSlot i { s.slot i with dirty := false }) with
                  dirtyCount := s.dirtyCount - 1 } is

/-- One request of `flush_dirty`: the slots of the run `es`, which starts at block `b0`. -/
def flushRun (s : Buf) (b0 : Nat) (es : List (Nat × Nat)) : Bool × Buf :=
  let (ok, dev) := s.dev.write (b0 * (s.bs / SECTOR_SIZE)) (es.length * s.bs / SECTOR_SIZE)
    (s.segs (es.map Prod.snd))
  if ok then (true, markClean { s with dev := dev } (es.map Prod.snd))
  else (false, { s with dev := dev })

theorem le_runLen (b0 : Nat) : ∀ (k : Nat) (es : List (Nat × Nat)), k ≤ runLen b0 k es
  | k, [] => Nat.le_refl k
  | k, e :: es => by
      simp only [runLen]
      split
      · exact Nat.le_of_succ_le (le_runLen b0 (k + 1) es)
      · exact Nat.le_refl k

/-- The loop of `flush_dirty` over the sorted list. -/
def flushLoop (s : Buf) (ok : Bool) : List (Nat × Nat) → Bool × Buf
  | [] => (ok, s)
  | e :: es =>
    let k := runLen e.1 1 es
    let r := s.flushRun e.1 ((e :: es).take k)
    flushLoop r.2 (ok && r.1) (es.drop (k - 1))
  termination_by es => es.length
  decreasing_by simp only [List.length_drop, List.length_cons]; omega

/-- `flush_dirty()`: writes every dirty block; `false` when some request failed. -/
def flushDirty (s : Buf) : Bool × Buf :=
  if s.dirtyCount = 0 then (true, s)
  else
    match s.dirtyList with
    | [] => (true, { s with dirtyCount := 0 })
    | l => s.flushLoop true (l.mergeSort fun e e' => decide (e.1 ≤ e'.1))

/-- `bdirty(b)`: marks the slot of `b` dirty; the 256th dirty slot triggers a flush whose result
nobody looks at. -/
def bdirty (b : Nat) (s : Buf) : Buf :=
  match s.find b with
  | none => s
  | some i =>
    if (s.slot i).dirty then s
    else
      let s := { (s.setSlot i { s.slot i with dirty := true }) with
                   dirtyCount := s.dirtyCount + 1 }
      if 256 ≤ s.dirtyCount then s.flushDirty.2 else s

/-- `bforget(b)` on one slot of the set. -/
def forgetSlot (b : Nat) (s : Buf) (i : Nat) : Buf :=
  if (s.slot i).valid && (s.slot i).blk == b then
    { (s.setSlot i { s.slot i with valid := false, dirty := false }) with
        dirtyCount := if (s.slot i).dirty then s.dirtyCount - 1 else s.dirtyCount }
  else s

/-- `bforget(b)`: drops block `b` without writing it back. -/
def bforget (b : Nat) (s : Buf) : Buf := (ways b).foldl (forgetSlot b) s

/-- The key `prefetch` compares victims by. -/
def prefetchKey (s : Buf) (now : UInt32) (i : Nat) : Nat :=
  if (s.slot i).valid then ((s.slot i).used - now).toNat else 0

/-- The clean victim of `prefetch` for block `b`, if there is one. -/
def cleanVictim (s : Buf) (now : UInt32) (b : Nat) : Option Nat :=
  ((ways b).filter fun i =>
    !((s.slot i).valid && ((s.slot i).dirty || (s.slot i).used == now))).argmin (s.prefetchKey now)

/-- The loop of `prefetch` that takes slots for the blocks `b + k`, ...; the taken ones are
listed in order. -/
def prefetchTake (now : UInt32) (b : Nat) : Nat → Nat → Buf → List Nat → Buf × List Nat
  | 0, _, s, taken => (s, taken)
  | m + 1, k, s, taken =>
    let blkno := (b + k) % 2 ^ 32
    if (s.find blkno).isSome then (s, taken)
    else
      match s.cleanVictim now blkno with
      | none => (s, taken)
      | some v =>
        prefetchTake now b m (k + 1)
          (s.setSlot v (.taken blkno now))
          (taken ++ [v])

/-- The device fills the taken slots, in order, from the bytes `r` it read, starting with the
`k`-th block of them. -/
def fill (r : Bytes) : Nat → List Nat → Buf → Buf
  | _, [], s => s
  | k, v :: vs, s => fill r (k + 1) vs (s.setData v (fun i => r (k * s.bs + i)))

/-- What a read leaves in the taken slots: the bytes it delivered, if it delivered any. -/
def deliver (raw : Option Bytes) (taken : List Nat) (s : Buf) : Buf :=
  match raw with
  | some r => fill r 0 taken s
  | none => s

def setValid (ok : Bool) : List Nat → Buf → Buf
  | [], s => s
  | v :: vs, s => setValid ok vs (s.setSlot v { s.slot v with valid := ok })

/-- `prefetch(b, n)`: reads ahead the blocks `b`, `b + 1`, ... that are missing. -/
def prefetch (b n : Nat) (s : Buf) : Buf :=
  let s := { s with tick := s.tick + 1 }
  match prefetchTake s.tick b (min n MAX_SEGS) 0 s [] with
  | (s, []) => s
  | (s, taken) =>
    let (ok, raw, dev) :=
      s.dev.read (b * (s.bs / SECTOR_SIZE)) (taken.length * s.bs / SECTOR_SIZE)
    setValid ok taken (deliver raw taken { s with dev := dev })

/-- `cached(b)`. -/
def cached (s : Buf) (b : Nat) : Bool := (s.find b).isSome

/-! ### The fields a primitive leaves alone -/

@[simp] theorem setSlot_slot (s : Buf) (i : Nat) (x : Slot) :
    (s.setSlot i x).slot = Function.update s.slot i x := rfl
@[simp] theorem setSlot_data (s : Buf) (i : Nat) (x : Slot) : (s.setSlot i x).data = s.data := rfl
@[simp] theorem setSlot_dev (s : Buf) (i : Nat) (x : Slot) : (s.setSlot i x).dev = s.dev := rfl
@[simp] theorem setSlot_bs (s : Buf) (i : Nat) (x : Slot) : (s.setSlot i x).bs = s.bs := rfl
@[simp] theorem setSlot_tick (s : Buf) (i : Nat) (x : Slot) : (s.setSlot i x).tick = s.tick := rfl
@[simp] theorem setData_slot (s : Buf) (i : Nat) (d : Bytes) : (s.setData i d).slot = s.slot := rfl
@[simp] theorem setData_data (s : Buf) (i : Nat) (d : Bytes) :
    (s.setData i d).data = Function.update s.data i (clip s.bs d) := rfl
@[simp] theorem setData_dev (s : Buf) (i : Nat) (d : Bytes) : (s.setData i d).dev = s.dev := rfl
@[simp] theorem setData_bs (s : Buf) (i : Nat) (d : Bytes) : (s.setData i d).bs = s.bs := rfl
@[simp] theorem setData_tick (s : Buf) (i : Nat) (d : Bytes) : (s.setData i d).tick = s.tick := rfl

theorem victim_mem (s : Buf) (now : UInt32) : ∀ (is : List Nat) (v : Nat),
    s.victim now is v = v ∨ s.victim now is v ∈ is
  | [], v => Or.inl rfl
  | i :: is, v => by
      simp only [victim]
      split
      · exact Or.inr List.mem_cons_self
      · split
        · rcases victim_mem s now is i with h | h
          · exact Or.inr (by rw [h]; exact List.mem_cons_self)
          · exact Or.inr (List.mem_cons_of_mem i h)
        · rcases victim_mem s now is v with h | h
          · exact Or.inl h
          · exact Or.inr (List.mem_cons_of_mem i h)

/-- The victim for `b` is a slot of the set of `b`. -/
theorem victim_mem_ways (s : Buf) (now : UInt32) (b : Nat) :
    s.victim now (ways b) (setOf b * WAYS) ∈ ways b := by
  rcases victim_mem s now (ways b) (setOf b * WAYS) with h | h
  · rw [h, mem_ways]
    simp only [WAYS]
    omega
  · exact h

end Buf

end Pulsar.Ext2

import Pulsar.Ext2.Inode
import Pulsar.Ext2.CacheFlush
import Pulsar.Ext2.CachePrefetch

/-!
# The mounted volume (`ext2.rs`, section "superbloco")

`Fs` is the geometry and the free counters kept in memory, `Vol` adds the cache, the copy `SB` of
the superblock, `SB_COUNTS`, the counters it is believed to have on disk, the caches of inodes and
names and the clock.  `sync` writes the
superblock when the counters have moved, past the cache, and then every dirty block.
-/

namespace Pulsar.Ext2

/-- `struct Fs`; the block size is the cache's. -/
structure Fs where
  blocks : Nat
  inodes : Nat
  bpg : Nat
  ipg : Nat
  groups : Nat
  firstData : Nat
  inodeSize : Nat
  gdtBlock : Nat
  freeBlocks : UInt32
  freeInodes : UInt32
  mounted : Bool

/-- The volume: cache and device, `fs()`, `SB`, `SB_COUNTS`, `ICACHE` and `DCACHE`.  `clock n` is
what the `n`-th reading of the clock gives. -/
structure Vol where
  buf : Buf
  fs : Fs
  sb : Bytes
  sbCounts : UInt32 × UInt32
  icache : Nat → ICacheEntry
  dcache : Nat → DentryCache
  clock : Nat → UInt32
  ticks : Nat

/-- The sector of the superblock, and how many it takes. -/
def SB_LBA : Nat := 2
def SB_SECTORS : Nat := 2

namespace Vol

/-- The free counters in memory. -/
def counts (v : Vol) : UInt32 × UInt32 := (v.fs.freeBlocks, v.fs.freeInodes)

/-- The free counters in the superblock on disk. -/
def diskCounts (v : Vol) : Nat × Nat :=
  (leGet v.buf.dev.bytes (SB_LBA * SECTOR_SIZE + 12) 4,
    leGet v.buf.dev.bytes (SB_LBA * SECTOR_SIZE + 16) 4)

/-- The block the superblock lies in. -/
def sbBlock (v : Vol) : Nat := SB_LBA * SECTOR_SIZE / v.buf.bs

/-- The superblock with the counters in memory and the time of writing. -/
def newSuper (v : Vol) (now : UInt32) : Bytes :=
  lePut (lePut (lePut v.sb 12 4 v.fs.freeBlocks.toNat) 16 4 v.fs.freeInodes.toNat) 48 4 now.toNat

/-- `flush_super()` at time `now`. -/
def flushSuper (now : UInt32) (v : Vol) : Bool × Vol :=
  let sb := v.newSuper now
  let r := v.buf.dev.write SB_LBA SB_SECTORS sb
  (r.1, { v with sb := sb, buf := { v.buf with dev := r.2 } })

/-- The first half of `sync`: the superblock, if its counters have moved. -/
def syncSuper (now : UInt32) (v : Vol) : Bool × Vol :=
  if v.fs.mounted ∧ v.sbCounts ≠ v.counts then
    let r := v.flushSuper now
    (r.1, { r.2 with sbCounts := v.counts })
  else (true, v)

/-- `sync()` at time `now`. -/
def sync (now : UInt32) (v : Vol) : Bool × Vol :=
  let r := v.syncSuper now
  let f := r.2.buf.flushDirty
  (f.1 && r.1, { r.2 with buf := f.2 })

end Vol

/-! ### The operations on blocks -/

/-- What a user of the cache can ask for.  `get` is `bget`; `write` is `bget`, a change in place
and `bdirty`. -/
inductive Op where
  | get (b : Nat) (ld : Bool)
  | write (b : Nat) (ld : Bool) (f : Bytes → Bytes)
  | forget (b : Nat)
  | prefetch (b n : Nat)
  | flush
  | sync (now : UInt32)

/-- What an operation answers: the block that `bget` found (with whether it was cached), nothing,
`EIO`, or the outcome of a flush. -/
inductive Answer where
  | block (wasCached : Bool) (d : Bytes)
  | done
  | failed
  | flushed (ok : Bool)

namespace Vol

/-- One operation. -/
def exec (v : Vol) : Op → Answer × Vol
  | .get b ld =>
    match Buf.bget b ld v.buf with
    | .ok i t => (.block (v.buf.cached b) (t.data i), { v with buf := t })
    | .error _ t => (.failed, { v with buf := t })
  | .write b ld f =>
    match Buf.bget b ld v.buf with
    | .ok i t => (.block (v.buf.cached b) (t.data i), { v with buf := (t.poke i f).bdirty b })
    | .error _ t => (.failed, { v with buf := t })
  | .forget b => (.done, { v with buf := v.buf.bforget b })
  | .prefetch b n => (.done, { v with buf := v.buf.prefetch b n })
  | .flush => (.flushed v.buf.flushDirty.1, { v with buf := v.buf.flushDirty.2 })
  | .sync now => (.flushed (v.sync now).1, (v.sync now).2)

/-- Operations one after the other, with their answers. -/
def run (v : Vol) : List Op → List Answer × Vol
  | [] => ([], v)
  | op :: ops =>
    let r := v.exec op
    let rs := r.2.run ops
    (r.1 :: rs.1, rs.2)

end Vol

end Pulsar.Ext2

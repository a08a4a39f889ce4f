import Pulsar.Lib.Bytes

/-!
# The flat file systems (`nbfs.rs`, `pfs.rs`)

The Nebular file system and the older PulsarFS have a superblock, a table of files, and for each
file a run of sectors that is its own from the creation on.  They differ in the numbers of `Format`
only, and in the time and the flags that NBFS has.

The statics of the kernel are the bytes of the table, two numbers and a clock (`Volume`).  A
transfer fails past the end of the disk, or when the disk says so (`Io`), and a write that fails
leaves anything in its sectors.
-/

namespace Pulsar.Legacy

/-- The sectors of a volume. -/
def TOTAL : Nat := 16384

/-- What is not the same in the two formats. -/
structure Format where
  magic : Nat
  version : Nat
  nameLen : Nat
  maxFiles : Nat
  tableSectors : Nat
  /-- The superblock after its first four numbers. -/
  rest : List UInt8
  /-- Files have a time and flags. -/
  rich : Bool
  entry_fits : nameLen + 24 ≤ 64
  table_fits : 64 * maxFiles = 512 * tableSectors
  rest_fits : 16 + rest.length ≤ 512
  magic_fits : magic < 2 ^ 32
  tableSectors_lt : 1 + tableSectors < TOTAL

def nbfs : Format where
  magic := 0x5346424E
  version := 1
  nameLen := 28
  maxFiles := 128
  tableSectors := 16
  rest := [0, 64, 0, 0] ++ [78, 101, 98, 117, 108, 97, 114]
  rich := true
  entry_fits := by decide
  table_fits := by decide
  rest_fits := by decide
  magic_fits := by decide
  tableSectors_lt := by decide

def pfs : Format where
  magic := 0x31534650
  version := 2
  nameLen := 32
  maxFiles := 64
  tableSectors := 8
  rest := []
  rich := false
  entry_fits := by decide
  table_fits := by decide
  rest_fits := by decide
  magic_fits := by decide
  tableSectors_lt := by decide

/-- What a transfer comes to: a write that fails leaves these bytes. -/
abbrev Io := Option (Nat → UInt8)

structure Disk where
  sectors : Nat
  bytes : Nat → UInt8

/-- `blk::read_sectors(lba, count, dst)`: what is in the buffer. -/
def Disk.readSectors (d : Disk) (lba count : Nat) (dst : Nat → UInt8) (io : Io) :
    Option (Nat → UInt8) :=
  if lba + count > d.sectors ∨ io.isSome then none
  else some (blit dst 0 (count * 512 % 2 ^ 32) fun x => d.bytes (512 * lba + x))

/-- `blk::write_sectors(lba, count, src)`. -/
def Disk.writeSectors (d : Disk) (lba count : Nat) (src : Nat → UInt8) (io : Io) : Bool × Disk :=
  if lba + count > d.sectors then (false, d)
  else
    match io with
    | none => (true, { d with bytes := blit d.bytes (512 * lba) (count * 512 % 2 ^ 32) src })
    | some junk =>
      (false, { d with bytes := blit d.bytes (512 * lba) (count * 512 % 2 ^ 32) junk })

/-! ### The table -/

structure FileEntry where
  name : List UInt8
  start_sector : Nat
  size_bytes : Nat
  kind : Nat
  capacity_sec : Nat
  mtime : Nat
  flags : Nat
  deriving DecidableEq

/-- `core::str::from_utf8(..).unwrap_or("?")`. -/
def fromUtf8 (s : List UInt8) : List UInt8 :=
  if ByteArray.validateUTF8 ⟨s.toArray⟩ then s else [63]

/-- `name_str`. -/
def nameStr (name : List UInt8) : List UInt8 := fromUtf8 (name.takeWhile (· ≠ 0))

namespace Format

variable (f : Format)

/-- The first sector after the table. -/
def dataStart : Nat := 1 + f.tableSectors

/-- Where the numbers of entry `i` begin. -/
def fields (i : Nat) : Nat := 64 * i + f.nameLen

/-- `entry(idx)`. -/
def entry (t : Nat → UInt8) (i : Nat) : FileEntry where
  name := (List.range f.nameLen).map fun k => t (64 * i + k)
  start_sector := leGet t (f.fields i) 4
  size_bytes := leGet t (f.fields i + 4) 4
  kind := leGet t (f.fields i + 8) 4
  capacity_sec := leGet t (f.fields i + 12) 4
  mtime := if f.rich then leGet t (f.fields i + 16) 4 else 0
  flags := if f.rich then leGet t (f.fields i + 20) 4 else 0

/-- `set_entry(idx, e)`; the bytes that are reserved stay. -/
def setEntry (t : Nat → UInt8) (i : Nat) (e : FileEntry) : Nat → UInt8 :=
  let t := blit t (64 * i) f.nameLen fun k => e.name.getD k 0
  let t := lePut t (f.fields i) 4 e.start_sector
  let t := lePut t (f.fields i + 4) 4 e.size_bytes
  let t := lePut t (f.fields i + 8) 4 e.kind
  let t := lePut t (f.fields i + 12) 4 e.capacity_sec
  if f.rich then lePut (lePut t (f.fields i + 16) 4 e.mtime) (f.fields i + 20) 4 e.flags else t

/-- The superblock, in a sector that was zeroed. -/
def superblock (count : Nat) : Nat → UInt8 :=
  let s := lePut (fun _ => 0) 0 4 f.magic
  let s := lePut s 4 4 f.version
  let s := lePut s 8 4 count
  let s := lePut s 12 4 f.tableSectors
  blit s 16 f.rest.length fun k => f.rest.getD k 0

end Format

/-! ### The volume -/

/-- The statics of the driver, and the disk. -/
structure Volume where
  table : Nat → UInt8
  count : Nat
  next : Nat
  clock : Nat
  disk : Disk

namespace Format

variable (f : Format)

/-- The end of the last run of sectors, as `mount` computes it. -/
def high (t : Nat → UInt8) (count : Nat) : Nat :=
  (List.range count).foldl (fun high i =>
    let e := f.entry t i
    max high ((e.start_sector + e.capacity_sec) % 2 ^ 32)) f.dataStart

/-- `mount()`, over the table that was there. -/
def mount (old : Nat → UInt8) (clock : Nat) (d : Disk) (io₀ io₁ : Io) : Option Volume :=
  (d.readSectors 0 1 (fun _ => 0) io₀).bind fun sb =>
    if leGet sb 0 4 ≠ f.magic then none
    else
      (d.readSectors 1 f.tableSectors old io₁).map fun t =>
        let count := min (leGet sb 8 4) f.maxFiles
        ⟨t, count, f.high t count, clock, d⟩

/-- `flush_meta()`. -/
def flushMeta (io₀ io₁ : Io) (v : Volume) : Bool × Volume :=
  let r := v.disk.writeSectors 0 1 (f.superblock v.count) io₀
  if r.1 then
    let r := r.2.writeSectors 1 f.tableSectors v.table io₁
    (r.1, { v with disk := r.2 })
  else (false, { v with disk := r.2 })

/-- `find(name)`. -/
def find (name : List UInt8) (v : Volume) : Option Nat :=
  (List.range v.count).find? fun i => nameStr (f.entry v.table i).name = name

/-- The sectors of that many bytes. -/
def sectors (size : Nat) : Nat := max ((size + 511) / 512) 1

/-- `read_file(idx, dst)`: the size and what is in the buffer. -/
def readFile (i : Nat) (dst : Nat → UInt8) (io : Io) (v : Volume) : Option (Nat × (Nat → UInt8)) :=
  if i ≥ v.count then none
  else
    let e := f.entry v.table i
    (v.disk.readSectors e.start_sector (sectors e.size_bytes) dst io).map fun b => (e.size_bytes, b)

/-- The next reading of the clock, where there is one. -/
def tick (v : Volume) : Nat := if f.rich then (v.clock + 1) % 2 ^ 32 else v.clock

/-- `write_file(idx, src, size)`. -/
def writeFile (i : Nat) (src : Nat → UInt8) (size : Nat) (io io₀ io₁ : Io) (v : Volume) :
    Bool × Volume :=
  if i ≥ v.count then (false, v)
  else
    let e := f.entry v.table i
    if e.flags &&& 2 ≠ 0 then (false, v)
    else if sectors size > e.capacity_sec then (false, v)
    else
      let r := v.disk.writeSectors e.start_sector (sectors size) src io
      if r.1 then
        let mtime := if f.rich then f.tick v else e.mtime
        f.flushMeta io₀ io₁ { v with
          table := f.setEntry v.table i { e with size_bytes := size, mtime := mtime }
          clock := f.tick v
          disk := r.2 }
      else (false, { v with disk := r.2 })

/-- `create(name, kind, capacity_sec)`. -/
def create (name : List UInt8) (kind capacity : Nat) (io₀ io₁ : Io) (v : Volume) :
    Option Nat × Volume :=
  if (f.find name v).isSome ∨ name.length ≥ f.nameLen then (none, v)
  else if v.count ≥ f.maxFiles then (none, v)
  else if (v.next + capacity) % 2 ^ 32 > TOTAL then (none, v)
  else
    let e : FileEntry := {
      name := name ++ List.replicate (f.nameLen - name.length) 0
      start_sector := v.next
      size_bytes := 0
      kind := kind
      capacity_sec := capacity
      mtime := if f.rich then f.tick v else 0
      flags := 0 }
    let r := f.flushMeta io₀ io₁ { v with
      table := f.setEntry (blit v.table (64 * v.count) 64 fun _ => 0) v.count e
      count := v.count + 1
      next := (v.next + capacity) % 2 ^ 32
      clock := f.tick v }
    (if r.1 then some v.count else none, r.2)

end Format

end Pulsar.Legacy

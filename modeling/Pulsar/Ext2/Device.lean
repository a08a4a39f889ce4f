import Mathlib.Data.Nat.Basic
import Mathlib.Logic.Function.Basic

/-!
# The block device (`blk.rs`)

A request names consecutive 512-byte sectors.  The driver refuses one that runs past the end of
the device; the device may fail any other.  The status byte says which requests failed, and
nothing says what a failed one has done: on a write the sectors it names, on a read the buffer,
may hold anything afterwards.
-/

namespace Pulsar.Ext2

/-- A run of bytes: a block, a buffer, a disk. -/
abbrev Bytes := Nat → UInt8

/-- `blk::SECTOR_SIZE`. -/
def SECTOR_SIZE : Nat := 512

/-- `blk::MAX_SEGS`: data segments in one request. -/
def MAX_SEGS : Nat := 62

/-- The device and what it will do: `fails n` is the outcome of its `n`-th request, `torn n`
the bytes a failed one leaves behind. -/
structure Dev where
  bytes : Bytes
  capacity : Nat
  fails : Nat → Bool
  torn : Nat → Bytes
  count : Nat

namespace Dev

/-- The bytes from address `a`, `n` of them, replaced by `src`. -/
def splice (d : Bytes) (a n : Nat) (src : Bytes) : Bytes := fun x =>
  if a ≤ x ∧ x < a + n then src (x - a) else d x

@[simp] theorem splice_inside {d : Bytes} {a n x : Nat} {src : Bytes} (h : x < n) :
    splice d a n src (a + x) = src x := by
  simp [splice, h]

theorem splice_outside {d : Bytes} {a n x : Nat} {src : Bytes} (h : x < a ∨ a + n ≤ x) :
    splice d a n src x = d x := by
  have : ¬ (a ≤ x ∧ x < a + n) := by omega
  simp [splice, this]

/-- The next request is carried out: it lies on the device and the device does not fail it. -/
def Accepts (d : Dev) (lba count : Nat) : Prop :=
  lba + count ≤ d.capacity ∧ d.fails d.count = false

instance (d : Dev) (lba count : Nat) : Decidable (d.Accepts lba count) := by
  unfold Accepts; infer_instance

/-- `transfer(T_OUT, ..)` and `transfer_sg(true, ..)`: `src` is the data segments in order. -/
def write (d : Dev) (lba count : Nat) (src : Bytes) : Bool × Dev :=
  if d.capacity < lba + count then (false, d)
  else if d.fails d.count then
    (false, { d with count := d.count + 1,
                     bytes := splice d.bytes (lba * SECTOR_SIZE) (count * SECTOR_SIZE)
                       (d.torn d.count) })
  else
    (true, { d with count := d.count + 1,
                    bytes := splice d.bytes (lba * SECTOR_SIZE) (count * SECTOR_SIZE) src })

/-- `transfer(T_IN, ..)` and `transfer_sg(false, ..)`: the bytes delivered to the data segments,
or none when the driver refuses the request. -/
def read (d : Dev) (lba count : Nat) : Bool × Option Bytes × Dev :=
  if d.capacity < lba + count then (false, none, d)
  else if d.fails d.count then (false, some (d.torn d.count), { d with count := d.count + 1 })
  else (true, some (fun i => d.bytes (lba * SECTOR_SIZE + i)), { d with count := d.count + 1 })

theorem write_fst {d : Dev} {lba count : Nat} {src : Bytes} :
    (d.write lba count src).1 = true ↔ d.Accepts lba count := by
  unfold write Accepts
  split
  · simp; omega
  · split <;> simp_all

theorem read_fst {d : Dev} {lba count : Nat} :
    (d.read lba count).1 = true ↔ d.Accepts lba count := by
  unfold read Accepts
  split
  · simp; omega
  · split <;> simp_all

theorem write_of_accepts {d : Dev} {lba count : Nat} {src : Bytes} (h : d.Accepts lba count) :
    d.write lba count src =
      (true, { d with count := d.count + 1,
                      bytes := splice d.bytes (lba * SECTOR_SIZE) (count * SECTOR_SIZE) src }) := by
  obtain ⟨hc, hf⟩ := h
  simp [write, Nat.not_lt.mpr hc, hf]

theorem write_outside {d : Dev} {lba count x : Nat} {src : Bytes}
    (h : x < lba * SECTOR_SIZE ∨ lba * SECTOR_SIZE + count * SECTOR_SIZE ≤ x) :
    (d.write lba count src).2.bytes x = d.bytes x := by
  unfold write
  split
  · rfl
  · split <;> exact splice_outside h

@[simp] theorem write_capacity {d : Dev} {lba count : Nat} {src : Bytes} :
    (d.write lba count src).2.capacity = d.capacity := by
  unfold write; split <;> [rfl; split <;> rfl]

@[simp] theorem write_fails {d : Dev} {lba count : Nat} {src : Bytes} :
    (d.write lba count src).2.fails = d.fails := by
  unfold write; split <;> [rfl; split <;> rfl]

@[simp] theorem read_bytes {d : Dev} {lba count : Nat} :
    (d.read lba count).2.2.bytes = d.bytes := by
  unfold read; split <;> [rfl; split <;> rfl]

@[simp] theorem read_capacity {d : Dev} {lba count : Nat} :
    (d.read lba count).2.2.capacity = d.capacity := by
  unfold read; split <;> [rfl; split <;> rfl]

@[simp] theorem read_fails {d : Dev} {lba count : Nat} :
    (d.read lba count).2.2.fails = d.fails := by
  unfold read; split <;> [rfl; split <;> rfl]

theorem read_of_accepts {d : Dev} {lba count : Nat} (h : d.Accepts lba count) :
    d.read lba count = (true, some (fun i => d.bytes (lba * SECTOR_SIZE + i)),
      { d with count := d.count + 1 }) := by
  obtain ⟨hc, hf⟩ := h
  simp [read, Nat.not_lt.mpr hc, hf]

end Dev

end Pulsar.Ext2

import Mathlib.Algebra.Ring.Nat
import Mathlib.Data.List.Perm.Basic
import Mathlib.Data.List.Nodup
import Mathlib.Tactic.Common
import Pulsar.Lib.Ring

/-!
# A queue between the driver and a device (`virtio.rs`)

The driver puts chains of descriptors into the ring `avail`, and the device puts them back through
the ring `used`. Each side has a place of its own up to where it has read the ring of the other, and
the places count without end: 16 bits of them are kept.

* `pending`: what was put into a ring and not taken.
* `pending_push`, `pending_pop`: what one side adds, and the other takes.
-/

namespace Pulsar.Virtio

def QSIZE : Nat := 64

def DESC_F_WRITE : UInt16 := 2

/-- A descriptor. -/
structure Desc where
  addr : Nat
  len : UInt32
  flags : UInt16
  next : UInt16
  deriving DecidableEq

/-- An element of `used`. -/
structure UsedElem where
  id : UInt32
  len : UInt32
  deriving DecidableEq

/-- The memory of a queue: the descriptors and the two rings with their indices. -/
structure QueueMem where
  desc : Nat → Desc
  avail_idx : UInt16
  avail : Nat → UInt16
  used_idx : UInt16
  used : Nat → UsedElem

def QueueMem.zeroed : QueueMem := ⟨fun _ => ⟨0, 0, 0, 0⟩, 0, fun _ => 0, 0, fun _ => ⟨0, 0⟩⟩

/-- A queue that the device knows: `last_used` is up to where `used` was read. -/
structure VirtQueue where
  mem : QueueMem
  last_used : UInt16

namespace VirtQueue

/-- `setup`, when the device has `QSIZE` places. -/
def setup : VirtQueue := ⟨.zeroed, 0⟩

/-- The chain that begins with the descriptor `idx` is put into `avail`; the device looks at it when
the index counts it. -/
def offer (v : VirtQueue) (desc : Nat → Desc) (idx : UInt16) : VirtQueue :=
  { v with mem := { v.mem with
      desc := desc
      avail := Function.update v.mem.avail (v.mem.avail_idx.toNat % QSIZE) idx
      avail_idx := v.mem.avail_idx + 1 } }

/-- `post_recv(idx, addr, len)`; there are `QSIZE` descriptors. -/
def post_recv (v : VirtQueue) (idx : UInt16) (addr : Nat) (len : UInt32) : Option VirtQueue :=
  if idx.toNat < QSIZE then
    some (v.offer (Function.update v.mem.desc idx.toNat ⟨addr, len, DESC_F_WRITE, 0⟩) idx)
  else none

/-- `poll_used()`. -/
def poll_used (v : VirtQueue) : Option (UInt16 × UInt32) × VirtQueue :=
  if v.mem.used_idx = v.last_used then (none, v)
  else
    let elem := v.mem.used (v.last_used.toNat % QSIZE)
    (some (elem.id.toUInt16, elem.len), { v with last_used := v.last_used + 1 })

/-- The device gives the chain `id` back, and wrote so many bytes. -/
def complete (v : VirtQueue) (id : UInt16) (len : UInt32) : VirtQueue :=
  { v with mem := { v.mem with
      used := Function.update v.mem.used (v.mem.used_idx.toNat % QSIZE) ⟨id.toUInt32, len⟩
      used_idx := v.mem.used_idx + 1 } }

end VirtQueue

/-! ### What lies in a ring -/

/-- What was put into a ring and not taken: `place` is up to where it was read, and `idx` where the
next element goes. -/
def pending {α : Type} (ring : Nat → α) (place idx : UInt16) : List α :=
  Ring.slice ring QSIZE place.toNat (idx - place).toNat

section

variable {α : Type} {ring : Nat → α} {place idx : UInt16}

theorem toNat_succ_mod (i : UInt16) : (i + 1).toNat % QSIZE = (i.toNat + 1) % QSIZE := by
  rw [UInt16.toNat_add]
  change (i.toNat + 1) % 65536 % 64 = _
  exact Nat.mod_mod_of_dvd _ (by decide)

@[simp] theorem pending_length : (pending ring place idx).length = (idx - place).toNat :=
  Ring.slice_length ..

@[simp] theorem pending_self : pending ring place place = [] := by
  rw [pending, UInt16.sub_self]
  rfl

theorem toNat_idx (place idx : UInt16) :
    idx.toNat % QSIZE = (place.toNat + (idx - place).toNat) % QSIZE := by
  have hidx : idx = place + (idx - place) := by
    rw [UInt16.add_comm, UInt16.sub_add_cancel]
  have hmod : idx.toNat = (place.toNat + (idx - place).toNat) % 65536 := by
    conv_lhs => rw [hidx]
    exact UInt16.toNat_add ..
  rw [hmod]
  exact Nat.mod_mod_of_dvd _ (by decide)

/-- **What is put into a ring** that is not full comes after what lies there. -/
theorem pending_push (h : (pending ring place idx).length < QSIZE) (x : α) :
    pending (Function.update ring (idx.toNat % QSIZE) x) place (idx + 1) =
      pending ring place idx ++ [x] := by
  rw [pending_length] at h
  have hlen : (idx + 1 - place).toNat = (idx - place).toNat + 1 := by
    have hsub : idx + 1 - place = idx - place + 1 := by
      rw [UInt16.sub_eq_add_neg, UInt16.sub_eq_add_neg, UInt16.add_assoc, UInt16.add_comm 1,
        UInt16.add_assoc]
    rw [hsub, UInt16.toNat_add]
    exact Nat.mod_eq_of_lt (by change _ + 1 < 65536; unfold QSIZE at h; omega)
  have hstore : Ring.slice (Ring.store QSIZE ring (place.toNat + (idx - place).toNat) [x]) QSIZE
      place.toNat ((idx - place).toNat + [x].length) =
      Ring.slice ring QSIZE place.toNat (idx - place).toNat ++ [x] :=
    Ring.slice_store (by rw [List.length_singleton]; exact h)
  rw [pending, hlen, toNat_idx place]
  exact hstore

/-- **What is taken from a ring** comes before what is left there. -/
theorem pending_pop (h : idx ≠ place) :
    pending ring place idx = ring (place.toNat % QSIZE) :: pending ring (place + 1) idx := by
  have hpos : (idx - place).toNat ≠ 0 := by
    intro hz
    have hzero : idx - place = 0 := UInt16.toNat_inj.mp hz
    exact h (by rw [← UInt16.sub_add_cancel idx place, hzero, UInt16.zero_add])
  have hlen : (idx - place).toNat = 1 + (idx - (place + 1)).toNat := by
    have hsub : idx - place = idx - (place + 1) + 1 := by
      rw [UInt16.sub_eq_add_neg idx (place + 1), UInt16.neg_add, UInt16.sub_eq_add_neg (-place),
        ← UInt16.add_assoc, UInt16.add_assoc, UInt16.add_left_neg, UInt16.add_zero,
        UInt16.sub_eq_add_neg]
    have hlt := (idx - (place + 1)).toNat_lt
    rw [hsub, UInt16.toNat_add] at hpos ⊢
    change (_ + 1) % 65536 ≠ 0 at hpos
    change (_ + 1) % 65536 = _
    omega
  have hmod : Ring.slice ring QSIZE (place.toNat + 1) (idx - (place + 1)).toNat =
      pending ring (place + 1) idx := by
    rw [pending, ← Ring.slice_mod, ← toNat_succ_mod]
    exact Ring.slice_mod ..
  rw [pending, hlen, Ring.slice_add, hmod]
  simp [Ring.slice]

end

end Pulsar.Virtio

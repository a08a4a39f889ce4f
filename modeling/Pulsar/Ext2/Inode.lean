import Pulsar.Lib.Bytes
import Pulsar.Ext2.Device

/-!
# Inodes, and the caches of inodes and names (`ext2.rs`, section "inodes")

`struct Inode` is the first 128 bytes of an inode, as they lie on disk; a field is the
little-endian number at its offset.  `ICACHE` and `DCACHE` are tables of 1024 entries indexed by
inode number and by a hash of directory and name.
-/

namespace Pulsar.Ext2

/-- The bytes of `struct Inode`. -/
def INODE_BYTES : Nat := 128

/-- `struct Inode`. -/
structure Inode where
  raw : Bytes
  rest : ∀ x, INODE_BYTES ≤ x → raw x = 0

def S_IFMT : Nat := 0o170000
def S_IFREG : Nat := 0o100000

namespace Inode

/-- `read_unaligned(p.add(o) as *const Inode)`. -/
def ofBytes (d : Bytes) (o : Nat) : Inode where
  raw := fun x => if x < INODE_BYTES then d (o + x) else 0
  rest := fun _ hx => if_neg (Nat.not_lt.mpr hx)

/-- The `k` bytes at `off` become the number `v`. -/
def put (n : Inode) (off k v : Nat) (h : off + k ≤ INODE_BYTES := by decide) : Inode where
  raw := lePut n.raw off k v
  rest := fun _ hx => (lePut_outside (Or.inr (h.trans hx))).trans (n.rest _ hx)

/-- `Inode::zeroed()`. -/
def zeroed : Inode := ⟨fun _ => 0, fun _ _ => rfl⟩

def mode (n : Inode) : Nat := leGet n.raw 0 2
def sizeLo (n : Inode) : Nat := leGet n.raw 4 4
def block (n : Inode) (i : Nat) : Nat := leGet n.raw (40 + 4 * i) 4
def sizeHi (n : Inode) : Nat := leGet n.raw 108 4

def kind (n : Inode) : Nat := n.mode &&& S_IFMT

/-- `size()`. -/
def size (n : Inode) : Nat :=
  if n.kind = S_IFREG then n.sizeLo + 2 ^ 32 * n.sizeHi else n.sizeLo

/-- `set_size(s)`. -/
def setSize (n : Inode) (s : Nat) : Inode :=
  if n.kind = S_IFREG then (n.put 4 4 (s % 2 ^ 32)).put 108 4 (s / 2 ^ 32)
  else n.put 4 4 (s % 2 ^ 32)

/-- `n.block[i] = b`. -/
def setBlock (n : Inode) (i : Fin 15) (b : Nat) : Inode :=
  n.put (40 + 4 * i) 4 b (by have := i.2; simp only [INODE_BYTES]; omega)

end Inode

/-- `ICacheEntry`. -/
structure ICacheEntry where
  ino : Nat
  node : Inode

def ICACHE_SLOTS : Nat := 1024

/-- `DentryCache`. -/
structure DentryCache where
  dir : Nat
  ino : Nat
  ftype : Nat
  valid : Bool
  name : List UInt8

end Pulsar.Ext2

import Pulsar.Ext2.Blocks

/-!
# Block groups (`ext2.rs`, section "grupos")

A group descriptor is 32 bytes of the blocks from `gdtBlock` on.
-/

namespace Pulsar.Ext2

def GD_INODE_TABLE : Nat := 8

namespace Vol

/-- `gd_off(g)`: the block and the offset of descriptor `g`. -/
def gdOff (v : Vol) (g : Nat) : Nat × Nat :=
  let per := v.buf.bs / 32
  (v.fs.gdtBlock + g / per, g % per * 32)

/-- `gd_u32(g, field)`. -/
def gdU32 (g field : Nat) : EStateM Errno Vol Nat := do
  let v ← get
  rd32 (v.gdOff g).1 ((v.gdOff g).2 + field)

/-- The number in the `n` bytes at `field` of descriptor `g`. -/
def gd (v : Vol) (g field n : Nat) : Nat :=
  leGet (v.view (v.gdOff g).1) ((v.gdOff g).2 + field) n

end Vol

end Pulsar.Ext2

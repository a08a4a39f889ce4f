import Pulsar.Ext2.Volume

/-!
# Programs over the blocks of a volume (`ext2.rs`, `bget`, `rd32`)

The functions of `ext2.rs` are programs over the volume that may stop with an errno.  They reach
the disk through `bget`.
-/

namespace Pulsar.Ext2.Vol

/-- The blocks of the volume as the cache shows them. -/
def view (v : Vol) : Nat → Bytes := v.buf.view

/-- `bget(b, load)`. -/
def bget (b : Nat) (ld : Bool) : EStateM Errno Vol Nat :=
  Prog.zoom Vol.buf (fun t v => { v with buf := t }) (Buf.bget b ld)

/-- The bytes behind a pointer that `bget` returned. -/
def bytesAt (p : Nat) : EStateM Errno Vol Bytes := do return (← get).buf.data p

/-- `rd32(b, off)`. -/
def rd32 (b off : Nat) : EStateM Errno Vol Nat := do
  let p ← bget b true
  return leGet (← bytesAt p) off 4

variable {v : Vol} {b p : Nat} {E : Errno → Vol → Prop}

theorem wp_bytesAt {Q : Bytes → Vol → Prop} (h : v.buf.Inv) (hp : v.buf.Holds p b)
    (hQ : Q (v.view b) v) : wp (bytesAt p) Q E v := by
  simp only [bytesAt, wp_bind, wp_get, wp_pure]
  rw [← h.view_held hp]
  exact hQ

end Pulsar.Ext2.Vol

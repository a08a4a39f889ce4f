import Pulsar.Ext2.CacheRun
import Pulsar.Ext2.Groups
import Pulsar.Ext2.Directory

/-!
# Inodes and the map of their blocks (`ext2.rs`, "inodes" and "mapa de blocos")

`block_path` says through which indirect blocks a block of a file is found, `bmap` goes there.
Over a device that works (`Ready`) what these functions answer is said of the blocks as the cache
shows them: `nodeOf` is the inode, `mapped` the block, `contents` the bytes of the file.  They
leave what the cache shows as it is (`Reads`).
-/

namespace Pulsar.Ext2

/-- `fs().ppb`: the block numbers in a block. -/
def ppb (bs : Nat) : Nat := bs / 4

/-- `block_path(l)`: the field of `block` and the indices in the indirect blocks. -/
def blockPath (p l : Nat) : Option (Nat × List Nat) :=
  if l < 12 then some (l, [])
  else
    let l := l - 12
    if l < p then some (12, [l])
    else
      let l := l - p
      if l < p * p then some (13, [l / p, l % p])
      else
        let l := l - p * p
        if l < p * p * p then some (14, [l / (p * p), l / p % p, l % p])
        else none

namespace Vol

/-- `inode_loc(ino)`. -/
def inodeLoc (ino : Nat) : EStateM Errno Vol (Nat × Nat) := do
  let v ← get
  if ino = 0 ∨ v.fs.inodes < ino then throw EINVAL
  else do
    let table ← gdU32 ((ino - 1) / v.fs.ipg) GD_INODE_TABLE
    let byte := (ino - 1) % v.fs.ipg * v.fs.inodeSize
    return ((table + byte / v.buf.bs) % 2 ^ 32, byte % v.buf.bs)

/-- What `ICACHE` has for an inode. -/
def icached (v : Vol) (ino : Nat) : Option Inode :=
  if ino ≠ 0 ∧ (v.icache (ino % ICACHE_SLOTS)).ino = ino then
    some (v.icache (ino % ICACHE_SLOTS)).node
  else none

/-- `ICACHE[idx] = ICacheEntry { ino, node }`. -/
def icachePut (ino : Nat) (node : Inode) (v : Vol) : Vol :=
  { v with icache := Function.update v.icache (ino % ICACHE_SLOTS) ⟨ino, node⟩ }

/-- `read_inode(ino)`. -/
def readInode (ino : Nat) : EStateM Errno Vol Inode := do
  match (← get).icached ino with
  | some node => return node
  | none => do
    let (b, o) ← inodeLoc ino
    let p ← bget b true
    let node := Inode.ofBytes (← bytesAt p) o
    modify (icachePut ino node)
    return node

/-- The way of `bmap` through the indirect blocks. -/
def descend : Nat → List Nat → EStateM Errno Vol Nat
  | b, [] => return b
  | b, i :: is => if b = 0 then return 0 else do descend (← rd32 b (i * 4)) is

/-- `bmap(n, l)`. -/
def bmap (n : Inode) (l : Nat) : EStateM Errno Vol Nat := do
  match blockPath (ppb (← get).buf.bs) l with
  | none => return 0
  | some (slot, is) => descend (n.block slot) is

end Vol

/-! ### What the blocks say -/

/-- The block at the end of a path; 0 where it breaks off. -/
def follow (m : Nat → Bytes) : Nat → List Nat → Nat
  | b, [] => b
  | b, i :: is => if b = 0 then 0 else follow m (leGet (m b) (i * 4) 4) is

/-- The blocks on a path, with the one at its end. -/
def trail (m : Nat → Bytes) : Nat → List Nat → List Nat
  | b, [] => [b]
  | b, i :: is => if b = 0 then [] else b :: trail m (leGet (m b) (i * 4) 4) is

/-- Block `l` of a file; 0 is a hole. -/
def mapped (m : Nat → Bytes) (bs : Nat) (n : Inode) (l : Nat) : Nat :=
  match blockPath (ppb bs) l with
  | none => 0
  | some (slot, is) => follow m (n.block slot) is

/-- The blocks that lead to block `l` of a file, and itself. -/
def route (m : Nat → Bytes) (bs : Nat) (n : Inode) (l : Nat) : List Nat :=
  match blockPath (ppb bs) l with
  | none => []
  | some (slot, is) => trail m (n.block slot) is

/-- The bytes of a file: a hole reads as zeros. -/
def contents (m : Nat → Bytes) (bs : Nat) (n : Inode) (x : Nat) : UInt8 :=
  if mapped m bs n (x / bs) = 0 then 0 else m (mapped m bs n (x / bs)) (x % bs)

theorem follow_congr {m m' : Nat → Bytes} {b : Nat} {is : List Nat}
    (h : ∀ c ∈ trail m b is, c ≠ 0 → m' c = m c) : follow m' b is = follow m b is := by
  induction is generalizing b with
  | nil => rfl
  | cons i is ih =>
      rw [follow, follow]
      split
      · rfl
      · rename_i hb
        rw [trail, if_neg hb] at h
        rw [h b (List.mem_cons_self ..) hb]
        exact ih fun c hc => h c (List.mem_cons_of_mem b hc)

theorem trail_congr {m m' : Nat → Bytes} {b : Nat} {is : List Nat}
    (h : ∀ c ∈ trail m b is, c ≠ 0 → m' c = m c) : trail m' b is = trail m b is := by
  induction is generalizing b with
  | nil => rfl
  | cons i is ih =>
      rw [trail, trail]
      split
      · rfl
      · rename_i hb
        rw [trail, if_neg hb] at h
        rw [h b (List.mem_cons_self ..) hb, ih fun c hc => h c (List.mem_cons_of_mem b hc)]

theorem follow_mem {m : Nat → Bytes} {b : Nat} {is : List Nat} (h : follow m b is ≠ 0) :
    follow m b is ∈ trail m b is := by
  induction is generalizing b with
  | nil => exact List.mem_cons_self ..
  | cons i is ih =>
      rw [follow] at h ⊢
      rw [trail]
      split at h
      · exact absurd rfl h
      · rename_i hb
        rw [if_neg hb, if_neg hb]
        exact List.mem_cons_of_mem b (ih h)

theorem mapped_congr {m m' : Nat → Bytes} {bs l : Nat} {n : Inode}
    (h : ∀ c ∈ route m bs n l, c ≠ 0 → m' c = m c) : mapped m' bs n l = mapped m bs n l := by
  unfold mapped
  unfold route at h
  split
  · rfl
  · rename_i hp
    rw [hp] at h
    exact follow_congr h

theorem route_congr {m m' : Nat → Bytes} {bs l : Nat} {n : Inode}
    (h : ∀ c ∈ route m bs n l, c ≠ 0 → m' c = m c) : route m' bs n l = route m bs n l := by
  unfold route at h ⊢
  split
  · rfl
  · rename_i hp
    rw [hp] at h
    exact trail_congr h

theorem mapped_mem {m : Nat → Bytes} {bs l : Nat} {n : Inode} (h : mapped m bs n l ≠ 0) :
    mapped m bs n l ∈ route m bs n l := by
  unfold mapped at h ⊢
  unfold route
  split
  · rename_i hp
    simp [hp] at h
  · rename_i hp
    rw [hp] at h
    exact follow_mem h

namespace Vol

/-- The block and the offset of an inode. -/
def slotOf (v : Vol) (ino : Nat) : Nat × Nat :=
  let byte := (ino - 1) % v.fs.ipg * v.fs.inodeSize
  ((v.gd ((ino - 1) / v.fs.ipg) GD_INODE_TABLE 4 + byte / v.buf.bs) % 2 ^ 32, byte % v.buf.bs)

/-- The inode that `read_inode` finds. -/
def nodeOf (v : Vol) (ino : Nat) : Inode :=
  (v.icached ino).getD (.ofBytes (v.view (v.slotOf ino).1) (v.slotOf ino).2)

/-! ### A volume on a device that works -/

/-- The device works, the blocks of the volume lie on it, and the cache is sound; the block of the
superblock, which is written past the cache, is not in it. -/
structure Ready (v : Vol) : Prop where
  inv : v.buf.Inv
  calm : v.buf.Calm
  size : v.buf.bs = 1024 ∨ v.buf.bs = 2048 ∨ v.buf.bs = 4096
  blocks : v.fs.blocks < 2 ^ 32 ∧ v.fs.blocks * v.buf.bs ≤ v.buf.dev.capacity * SECTOR_SIZE
  free : ∀ i, ¬v.buf.Holds i v.sbBlock

/-- A block of the volume, other than that of the superblock. -/
def InVolume (v : Vol) (b : Nat) : Prop := b < v.fs.blocks ∧ b ≠ v.sbBlock

/-- From `v` to `w` blocks were read: what the cache shows is as before, and the disk has what it had
or what the cache showed. -/
structure Reads (v w : Vol) : Prop where
  ready : w.Ready
  sees : w.view = v.view
  disk : ∀ b, w.buf.diskBlock b = v.buf.diskBlock b ∨ w.buf.diskBlock b = v.view b
  bs : w.buf.bs = v.buf.bs
  fs : w.fs = v.fs

variable {v w u : Vol} {b l off ino : Nat} {n : Inode} {E : Errno → Vol → Prop}

theorem Ready.on (h : v.Ready) (hb : v.InVolume b) :
    b < 2 ^ 32 ∧ (b + 1) * v.buf.bs ≤ v.buf.dev.capacity * SECTOR_SIZE :=
  ⟨Nat.lt_trans hb.1 h.blocks.1,
    Nat.le_trans (Nat.mul_le_mul_right v.buf.bs hb.1) h.blocks.2⟩

theorem Ready.reads (h : v.Ready) {t : Buf} {N : Nat → Prop} (hI : t.Inv)
    (hK : Buf.Keeps N v.buf t) (hN : ∀ b, N b → v.InVolume b) (hv : t.view = v.buf.view)
    (hd : ∀ b, t.diskBlock b = v.buf.diskBlock b ∨ t.diskBlock b = v.buf.view b) :
    v.Reads { v with buf := t } where
  ready :=
    { inv := hI
      calm := h.calm.keep hK fun b hb => (h.on (hN b hb)).2
      size := by rw [hK.bs]; exact h.size
      blocks := by rw [hK.bs, hK.cap]; exact h.blocks
      free := fun i hi => by
        have hsb : sbBlock { v with buf := t } = v.sbBlock := by simp only [sbBlock, hK.bs]
        rw [hsb] at hi
        rcases hK.held hi with hb | ⟨j, hj⟩
        · exact (hN _ hb).2 rfl
        · exact h.free j hj }
  sees := hv
  disk := hd
  bs := hK.bs
  fs := rfl

namespace Reads

theorem refl (h : v.Ready) : v.Reads v := ⟨h, rfl, fun _ => .inl rfl, rfl, rfl⟩

theorem trans (h : v.Reads w) (h' : w.Reads u) : v.Reads u where
  ready := h'.ready
  sees := h'.sees.trans h.sees
  disk := fun b => by
    rcases h'.disk b with e | e
    · rw [e]
      exact h.disk b
    · exact .inr (e.trans (congrFun h.sees b))
  bs := h'.bs.trans h.bs
  fs := h'.fs.trans h.fs

theorem inVolume (h : v.Reads w) : w.InVolume b ↔ v.InVolume b := by
  simp only [InVolume, sbBlock, h.bs, h.fs]

theorem icachePut (h : v.Reads w) (ino : Nat) (node : Inode) :
    v.Reads (icachePut ino node w) :=
  ⟨⟨h.ready.inv, h.ready.calm, h.ready.size, h.ready.blocks, h.ready.free⟩, h.sees, h.disk, h.bs,
    h.fs⟩

end Reads

theorem wp_bget_ready {Q : Nat → Vol → Prop} (h : v.Ready) (hb : v.InVolume b)
    (hQ : ∀ p w, v.Reads w → w.buf.Holds p b → Q p w) : wp (bget b true) Q E v := by
  obtain ⟨hlt, hon⟩ := h.on hb
  obtain ⟨p, t, he, hd⟩ := Buf.bget_calm h.calm h.inv true hon
  obtain ⟨h₁, h₂, h₃, h₄⟩ := (Buf.bget_spec h.inv hlt true).ok he
  rw [bget, wp_zoom, wp_ok he]
  exact hQ p _ (h.reads h₁ h₃ (fun c hc => hc ▸ hb) (by simpa using h₄) hd) h₂

theorem wp_rd32_ready {Q : Nat → Vol → Prop} (h : v.Ready) (hb : v.InVolume b)
    (hQ : ∀ w, v.Reads w → Q (leGet (v.view b) off 4) w) : wp (rd32 b off) Q E v := by
  rw [rd32, wp_bind]
  refine wp_bget_ready h hb fun p w hw hp => ?_
  rw [wp_bind]
  refine wp_bytesAt hw.ready.inv hp ?_
  rw [wp_pure, hw.sees]
  exact hQ w hw

theorem wp_gdU32 {Q : Nat → Vol → Prop} {g field : Nat} (h : v.Ready)
    (hb : v.InVolume (v.gdOff g).1) (hQ : ∀ w, v.Reads w → Q (v.gd g field 4) w) :
    wp (gdU32 g field) Q E v := by
  rw [gdU32, wp_bind, wp_get]
  exact wp_rd32_ready h hb hQ

theorem wp_descend {Q : Nat → Vol → Prop} {is : List Nat} (h : v.Ready)
    (hb : ∀ c ∈ trail v.view b is, c ≠ 0 → v.InVolume c)
    (hQ : ∀ w, v.Reads w → Q (follow v.view b is) w) : wp (descend b is) Q E v := by
  induction is generalizing b v with
  | nil => exact hQ v (.refl h)
  | cons i is ih =>
      rw [descend]
      rw [follow] at hQ
      by_cases hz : b = 0
      · rw [if_pos hz] at hQ ⊢
        exact hQ v (.refl h)
      · rw [if_neg hz] at hQ ⊢
        rw [trail, if_neg hz] at hb
        rw [wp_bind]
        refine wp_rd32_ready h (hb b (List.mem_cons_self ..) hz) fun w hw => ?_
        refine ih hw.ready (fun c hc hc₀ => ?_) fun u hu => ?_
        · rw [hw.sees] at hc
          exact hw.inVolume.mpr (hb c (List.mem_cons_of_mem b hc) hc₀)
        · rw [hw.sees]
          exact hQ u (hw.trans hu)

/-- The blocks that lead to block `l` of a file lie in the volume. -/
def Routed (v : Vol) (n : Inode) (l : Nat) : Prop :=
  ∀ b ∈ route v.view v.buf.bs n l, b ≠ 0 → v.InVolume b

theorem Reads.routed (h : v.Reads w) : w.Routed n l ↔ v.Routed n l := by
  simp only [Routed, h.sees, h.bs, h.inVolume]

/-- `bmap` finds the block. -/
theorem wp_bmap {Q : Nat → Vol → Prop} (h : v.Ready) (hr : v.Routed n l)
    (hQ : ∀ w, v.Reads w → Q (mapped v.view v.buf.bs n l) w) : wp (bmap n l) Q E v := by
  rw [bmap, wp_bind, wp_get]
  unfold Routed route at hr
  unfold mapped at hQ
  cases hp : blockPath (ppb v.buf.bs) l with
  | none =>
      rw [hp] at hQ
      exact hQ v (.refl h)
  | some q =>
      rw [hp] at hQ hr
      exact wp_descend h hr hQ

/-- `read_inode` finds the inode in the cache of inodes, or its place lies in the volume. -/
def Located (v : Vol) (ino : Nat) : Prop :=
  v.icached ino = none → ino ≠ 0 ∧ ino ≤ v.fs.inodes ∧
    v.InVolume (v.gdOff ((ino - 1) / v.fs.ipg)).1 ∧ v.InVolume (v.slotOf ino).1

theorem wp_inodeLoc {Q : Nat × Nat → Vol → Prop} (h : v.Ready) (hino : ino ≠ 0 ∧ ino ≤ v.fs.inodes)
    (hb : v.InVolume (v.gdOff ((ino - 1) / v.fs.ipg)).1)
    (hQ : ∀ w, v.Reads w → Q (v.slotOf ino) w) : wp (inodeLoc ino) Q E v := by
  rw [inodeLoc, wp_bind, wp_get, if_neg (by omega), wp_bind]
  exact wp_gdU32 h hb fun w hw => hQ w hw

/-- `read_inode` finds the inode. -/
theorem wp_readInode {Q : Inode → Vol → Prop} (h : v.Ready) (hl : v.Located ino)
    (hQ : ∀ w, v.Reads w → Q (v.nodeOf ino) w) : wp (readInode ino) Q E v := by
  rw [readInode, wp_bind, wp_get]
  unfold nodeOf at hQ
  cases hc : v.icached ino with
  | some node =>
      rw [hc] at hQ
      exact hQ v (.refl h)
  | none =>
      rw [hc] at hQ
      obtain ⟨h₁, h₂, h₃, h₄⟩ := hl hc
      simp only
      rw [wp_bind]
      refine wp_inodeLoc h ⟨h₁, h₂⟩ h₃ fun w hw => ?_
      rw [wp_bind]
      refine wp_bget_ready hw.ready (hw.inVolume.mpr h₄) fun p u hu hp => ?_
      rw [wp_bind]
      refine wp_bytesAt hu.ready.inv hp ?_
      rw [wp_bind, wp_modify, wp_pure, hu.sees, hw.sees]
      exact hQ _ ((hw.trans hu).icachePut ino _)

end Vol

end Pulsar.Ext2

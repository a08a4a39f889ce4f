import Pulsar.Lib.Checked
import Pulsar.Ext2.Groups

/-!
# What the superblock must say (`mount` in `ext2.rs`)

`mount` looks at the magic number, the features and the block size, and takes the other fields of the
superblock as they are.  The numbers that are derived from them are written here in the arithmetic
of machine words, which is undefined where it would wrap around.

* `Safe`: they are all defined, and every word of a bitmap, every descriptor and every inode lies in
  its block.
* `Fits`: what the fields have to be for that.
* **`mount_safe`**: of the volumes that are accepted, those are safe that fit.
-/

namespace Pulsar.Ext2

open Checked

def MAGIC : Nat := 0xEF53
def INCOMPAT_FILETYPE : Nat := 0x2
def RO_SPARSE : Nat := 0x1
def RO_LARGE_FILE : Nat := 0x2

/-- `sb_u32(off)`. -/
def sbU32 (sb : Bytes) (off : Nat) : Nat := leGet sb off 4

/-- `sb_u16(off)`. -/
def sbU16 (sb : Bytes) (off : Nat) : Nat := leGet sb off 2

namespace Super

variable (sb : Bytes)

def rev : Nat := sbU32 sb 76
def incompat : Nat := if 1 ≤ rev sb then sbU32 sb 96 else 0
def ro : Nat := if 1 ≤ rev sb then sbU32 sb 100 else 0
def logSize : Nat := sbU32 sb 24
def inodes : Nat := sbU32 sb 0
def blocks : Nat := sbU32 sb 4
def freeBlocks : Nat := sbU32 sb 12
def freeInodes : Nat := sbU32 sb 16
def firstData : Nat := sbU32 sb 20
def bpg : Nat := sbU32 sb 32
def ipg : Nat := sbU32 sb 40
def inodeSize : Nat := if 1 ≤ rev sb then sbU16 sb 88 else 128

/-- The block size that the processor computes: it shifts by the distance modulo 64. -/
def blockSize : Nat := 1024 * 2 ^ (logSize sb % 64) % 2 ^ 64

/-- `mount` accepts the superblock, given memory for the cache, of which an empty one has none. -/
structure Accepted : Prop where
  magic : sbU16 sb 56 = MAGIC
  incompat : incompat sb &&& (2 ^ 32 - 1 - INCOMPAT_FILETYPE) = 0
  ro : ro sb &&& (2 ^ 32 - 1 - (RO_SPARSE + RO_LARGE_FILE)) = 0
  size : blockSize sb ≤ 4096
  cache : blockSize sb ≠ 0

/-- What `mount` computes: the block size and the fields of `FS_STATE`. -/
def mount? : Option (Nat × Fs) := do
  let bs ← shl 64 1024 (logSize sb)
  let span ← sub (blocks sb) (firstData sb)
  let groups ← divCeil span (bpg sb)
  let gdtBlock ← add 32 (firstData sb) 1
  let _ ← mul 64 SLOTS bs
  let _ ← mul 64 (blocks sb) bs
  let _ ← mul 64 (freeBlocks sb) bs
  some (bs, { blocks := blocks sb, inodes := inodes sb, bpg := bpg sb, ipg := ipg sb,
              groups := groups, firstData := firstData sb, inodeSize := inodeSize sb,
              gdtBlock := gdtBlock, freeBlocks := UInt32.ofNat (freeBlocks sb),
              freeInodes := UInt32.ofNat (freeInodes sb), mounted := true })

end Super

section Derived

variable (bs : Nat) (f : Fs)

/-- `gd_off(g)`. -/
def gdOff? (g : Nat) : Option (Nat × Nat) := do
  let per := bs / 32
  let q ← div g per
  let b ← add 32 f.gdtBlock q
  let r ← mod g per
  let o ← mul 32 r 32
  some (b, o)

/-- The bit that `bitmap_take` finds in word `w`. -/
def bitIndex? (w bit : Nat) : Option Nat := do
  let i ← mul 32 w 64
  add 32 i bit

/-- The words that `bitmap_take` reads for `limit` bits lie in the block, and their bits have
numbers. -/
def WordsInside (limit : Nat) : Prop :=
  ∀ w < (limit + 63) / 64, w * 8 + 8 ≤ bs ∧ ∀ bit < 64, (bitIndex? w bit).isSome = true

/-- The group from which `alloc_block` and `alloc_inode` start, and those after it. -/
def group? (goal k : Nat) : Option Nat := do
  let g ← add 32 goal k
  mod g f.groups

/-- `in_group` of `alloc_block`. -/
def inGroup? (g : Nat) : Option Nat := do
  let span ← sub f.blocks f.firstData
  let before ← mul 32 g f.bpg
  let rest ← sub span before
  some (min rest f.bpg)

/-- The block that `alloc_block` answers. -/
def blockOf? (g i : Nat) : Option Nat := do
  let before ← mul 32 g f.bpg
  let first ← add 32 f.firstData before
  add 32 first i

/-- The inode that `alloc_inode` answers. -/
def inodeOf? (g i : Nat) : Option Nat := do
  let before ← mul 32 g f.ipg
  let x ← add 32 before i
  add 32 x 1

/-- The group and the bit of a block, in `free_block`. -/
def freeLoc? (b : Nat) : Option (Nat × Nat) := do
  let x ← sub b f.firstData
  let g ← div x f.bpg
  let i ← mod x f.bpg
  some (g, i)

/-- `group_of(ino)`. -/
def groupOf? (ino : Nat) : Option Nat := do
  let x ← sub ino 1
  div x f.ipg

/-- `inode_loc(ino)` of an inode in range; `table g` is the block that descriptor `g` names. -/
def inodeLoc? (table : Nat → Nat) (ino : Nat) : Option (Nat × Nat) := do
  let x ← sub ino 1
  let g ← div x f.ipg
  let idx ← mod x f.ipg
  let _ ← gdOff? bs f g
  let byte ← mul 64 idx f.inodeSize
  let q ← div byte bs
  let k ← narrow 32 q
  let b ← add 32 (table g) k
  let o ← mod byte bs
  some (b, o)

end Derived

/-- Everything that is derived from the superblock is defined and lies where it belongs; `table` is
what the group descriptors say. -/
structure Safe (bs : Nat) (f : Fs) (table : Nat → Nat) : Prop where
  descriptors : ∀ g < f.groups, ∃ b o, gdOff? bs f g = some (b, o) ∧ o + 32 ≤ bs
  goals : ∀ ino, 1 ≤ ino → ino ≤ f.inodes → ∃ goal, groupOf? f ino = some goal ∧
    ∀ k < f.groups, ∃ g < f.groups, group? f goal k = some g
  blocks : ∀ g < f.groups, ∃ n, inGroup? f g = some n ∧ WordsInside bs n ∧
    ∀ i < n, ∃ b < f.blocks, blockOf? f g i = some b
  inodes : ∀ g < f.groups, WordsInside bs f.ipg ∧ ∀ i < f.ipg, (inodeOf? f g i).isSome = true
  given : ∀ b, f.firstData ≤ b → b < f.blocks →
    ∃ g i, freeLoc? f b = some (g, i) ∧ g < f.groups ∧ i / 8 < bs
  slots : ∀ ino, 1 ≤ ino → ino ≤ f.inodes →
    ∃ b o, inodeLoc? bs f table ino = some (b, o) ∧ o + INODE_BYTES ≤ bs

/-- The volume is mounted with defined numbers, and safe. -/
def SafeMount (sb : Bytes) (table : Nat → Nat) : Prop :=
  ∃ bs f, Super.mount? sb = some (bs, f) ∧ Safe bs f table

/-- What the fields have to be.  An inode that is no multiple of 128 bytes long is harmless only
where few inodes share a table. -/
structure Fits (bs blocks firstData bpg ipg inodes inodeSize : Nat) (table : Nat → Nat) : Prop where
  first : firstData ≤ blocks ∧ firstData + 1 < 2 ^ 32
  group : bpg ≠ 0 ∧ min bpg (blocks - firstData) ≤ 8 * bs
  inodeBitmap : firstData < blocks →
    ipg ≤ 8 * bs ∧ (blocks - firstData + (bpg - 1)) / bpg * ipg < 2 ^ 32
  inodeGroup : inodes ≠ 0 → ipg ≠ 0 ∧ firstData + 1 + (inodes - 1) / ipg / (bs / 32) < 2 ^ 32
  goals : firstData < blocks → inodes ≠ 0 →
    (inodes - 1) / ipg + (blocks - firstData + (bpg - 1)) / bpg ≤ 2 ^ 32
  slots : 128 ∣ inodeSize ∨ min ipg inodes < bs ∧
    ∀ i < min ipg inodes, i * inodeSize % bs + 128 ≤ bs
  tables : ∀ g, g * ipg < inodes →
    table g + (min ipg (inodes - g * ipg) - 1) * inodeSize / bs < 2 ^ 32

/-! ### What is derived -/

section Rules

variable {bs g w i b o x k goal limit : Nat} {f : Fs} {table : Nat → Nat}

theorem gdOff?_some : gdOff? bs f g = some (b, o) ↔ bs / 32 ≠ 0 ∧
    f.gdtBlock + g / (bs / 32) < 2 ^ 32 ∧ f.gdtBlock + g / (bs / 32) = b ∧
      g % (bs / 32) * 32 < 2 ^ 32 ∧ g % (bs / 32) * 32 = o := by
  simp only [gdOff?, Option.bind_eq_bind, Option.bind_eq_some_iff, div_some, add_some, mod_some,
    mul_some, Option.some.injEq, Prod.mk.injEq]
  constructor
  · rintro ⟨_, ⟨h, rfl⟩, _, ⟨h₁, rfl⟩, _, ⟨-, rfl⟩, _, ⟨h₂, rfl⟩, rfl, rfl⟩
    exact ⟨h, h₁, rfl, h₂, rfl⟩
  · rintro ⟨h, h₁, rfl, h₂, rfl⟩
    exact ⟨_, ⟨h, rfl⟩, _, ⟨h₁, rfl⟩, _, ⟨h, rfl⟩, _, ⟨h₂, rfl⟩, rfl, rfl⟩

theorem group?_some : group? f goal k = some g ↔
    goal + k < 2 ^ 32 ∧ f.groups ≠ 0 ∧ (goal + k) % f.groups = g := by
  simp only [group?, Option.bind_eq_bind, Option.bind_eq_some_iff, add_some, mod_some]
  constructor
  · rintro ⟨_, ⟨h, rfl⟩, h'⟩
    exact ⟨h, h'⟩
  · rintro ⟨h, h'⟩
    exact ⟨_, ⟨h, rfl⟩, h'⟩

theorem inGroup?_some : inGroup? f g = some x ↔ f.firstData ≤ f.blocks ∧ g * f.bpg < 2 ^ 32 ∧
    g * f.bpg ≤ f.blocks - f.firstData ∧ min (f.blocks - f.firstData - g * f.bpg) f.bpg = x := by
  simp only [inGroup?, Option.bind_eq_bind, Option.bind_eq_some_iff, sub_some, mul_some,
    Option.some.injEq]
  constructor
  · rintro ⟨_, ⟨h, rfl⟩, _, ⟨h₁, rfl⟩, _, ⟨h₂, rfl⟩, rfl⟩
    exact ⟨h, h₁, h₂, rfl⟩
  · rintro ⟨h, h₁, h₂, rfl⟩
    exact ⟨_, ⟨h, rfl⟩, _, ⟨h₁, rfl⟩, _, ⟨h₂, rfl⟩, rfl⟩

theorem blockOf?_some : blockOf? f g i = some b ↔ g * f.bpg < 2 ^ 32 ∧
    f.firstData + g * f.bpg < 2 ^ 32 ∧ f.firstData + g * f.bpg + i < 2 ^ 32 ∧
      f.firstData + g * f.bpg + i = b := by
  simp only [blockOf?, Option.bind_eq_bind, Option.bind_eq_some_iff, mul_some, add_some]
  constructor
  · rintro ⟨_, ⟨h, rfl⟩, _, ⟨h₁, rfl⟩, h₂, rfl⟩
    exact ⟨h, h₁, h₂, rfl⟩
  · rintro ⟨h, h₁, h₂, rfl⟩
    exact ⟨_, ⟨h, rfl⟩, _, ⟨h₁, rfl⟩, h₂, rfl⟩

theorem inodeOf?_isSome : (inodeOf? f g i).isSome = true ↔ g * f.ipg + i + 1 < 2 ^ 32 := by
  simp only [inodeOf?, Option.isSome_iff_exists, Option.bind_eq_bind, Option.bind_eq_some_iff,
    mul_some, add_some]
  constructor
  · rintro ⟨_, _, ⟨-, rfl⟩, _, ⟨-, rfl⟩, h, rfl⟩
    exact h
  · exact fun h => ⟨_, _, ⟨by omega, rfl⟩, _, ⟨by omega, rfl⟩, h, rfl⟩

theorem freeLoc?_some : freeLoc? f b = some (g, i) ↔ f.firstData ≤ b ∧ f.bpg ≠ 0 ∧
    (b - f.firstData) / f.bpg = g ∧ (b - f.firstData) % f.bpg = i := by
  simp only [freeLoc?, Option.bind_eq_bind, Option.bind_eq_some_iff, sub_some, div_some, mod_some,
    Option.some.injEq, Prod.mk.injEq]
  constructor
  · rintro ⟨_, ⟨h, rfl⟩, _, ⟨h₁, rfl⟩, _, ⟨-, rfl⟩, rfl, rfl⟩
    exact ⟨h, h₁, rfl, rfl⟩
  · rintro ⟨h, h₁, rfl, rfl⟩
    exact ⟨_, ⟨h, rfl⟩, _, ⟨h₁, rfl⟩, _, ⟨h₁, rfl⟩, rfl, rfl⟩

theorem groupOf?_some : groupOf? f x = some g ↔ 1 ≤ x ∧ f.ipg ≠ 0 ∧ (x - 1) / f.ipg = g := by
  simp only [groupOf?, Option.bind_eq_bind, Option.bind_eq_some_iff, sub_some, div_some]
  constructor
  · rintro ⟨_, ⟨h, rfl⟩, h'⟩
    exact ⟨h, h'⟩
  · rintro ⟨h, h'⟩
    exact ⟨_, ⟨h, rfl⟩, h'⟩

/-- Of an inode in range, in terms of its group `g` and its index `i` there. -/
theorem inodeLoc?_some (hi : i < f.ipg) : inodeLoc? bs f table (g * f.ipg + i + 1) = some (b, o) ↔
    (∃ p, gdOff? bs f g = some p) ∧ i * f.inodeSize < 2 ^ 64 ∧ bs ≠ 0 ∧
      table g + i * f.inodeSize / bs < 2 ^ 32 ∧ table g + i * f.inodeSize / bs = b ∧
        i * f.inodeSize % bs = o := by
  have hipg : f.ipg ≠ 0 := by omega
  have hdiv : (g * f.ipg + i + 1 - 1) / f.ipg = g := by
    rw [Nat.add_sub_cancel, Nat.mul_comm, Nat.mul_add_div (by omega), Nat.div_eq_of_lt hi,
      Nat.add_zero]
  have hmod : (g * f.ipg + i + 1 - 1) % f.ipg = i := by
    rw [Nat.add_sub_cancel, Nat.mul_comm, Nat.mul_add_mod, Nat.mod_eq_of_lt hi]
  simp only [inodeLoc?, Option.bind_eq_bind, Option.bind_eq_some_iff, sub_some, div_some, mod_some,
    mul_some, narrow_some, add_some, Option.some.injEq, Prod.mk.injEq]
  constructor
  · rintro ⟨_, ⟨-, rfl⟩, _, ⟨-, rfl⟩, _, ⟨-, rfl⟩, p, hp, _, ⟨h₁, rfl⟩, _, ⟨h₂, rfl⟩, _, ⟨-, rfl⟩, _,
      ⟨h₃, rfl⟩, _, ⟨-, rfl⟩, rfl, rfl⟩
    rw [hdiv] at hp h₃ ⊢
    rw [hmod] at h₁ h₃ ⊢
    exact ⟨⟨p, hp⟩, h₁, h₂, h₃, rfl, rfl⟩
  · rintro ⟨⟨p, hp⟩, h₁, h₂, h₃, rfl, rfl⟩
    refine ⟨_, ⟨by omega, rfl⟩, _, ⟨hipg, rfl⟩, _, ⟨hipg, rfl⟩, p, hdiv.symm ▸ hp, _, ⟨?_, rfl⟩, _,
      ⟨h₂, rfl⟩, _, ⟨?_, rfl⟩, _, ⟨?_, rfl⟩, _, ⟨h₂, rfl⟩, ?_, ?_⟩
    · rwa [hmod]
    · rw [hmod]
      omega
    · rwa [hdiv, hmod]
    · rw [hdiv, hmod]
    · rw [hmod]

theorem wordsInside_iff (hbs : 8 ∣ bs) (hl : limit < 2 ^ 32) : WordsInside bs limit ↔ limit ≤ 8 * bs := by
  obtain ⟨m, rfl⟩ := hbs
  constructor
  · intro h
    by_contra hc
    have hlast := (h ((limit + 63) / 64 - 1) (by omega)).1
    omega
  · refine fun h w hw => ⟨by omega, fun bit hbit => ?_⟩
    have hidx : bitIndex? w bit = some (w * 64 + bit) := by
      simp only [bitIndex?, Option.bind_eq_bind, Option.bind_eq_some_iff, mul_some, add_some]
      exact ⟨_, ⟨by omega, rfl⟩, by omega, rfl⟩
    rw [hidx]
    rfl

end Rules

/-! ### The numbers of the mounted volume

Where the arithmetic of words is defined, it gives the numbers with which the operations on groups
are written. -/

/-! ### The fields that fit -/

/-- What `mount` makes of the fields where its own arithmetic is defined. -/
structure Mounted (bs : Nat) (f : Fs) : Prop where
  size : bs = 1024 ∨ bs = 2048 ∨ bs = 4096
  first : f.firstData ≤ f.blocks ∧ f.firstData + 1 < 2 ^ 32
  bpg : f.bpg ≠ 0
  groups : f.groups = (f.blocks - f.firstData + (f.bpg - 1)) / f.bpg
  gdt : f.gdtBlock = f.firstData + 1
  words : f.blocks < 2 ^ 32 ∧ f.bpg < 2 ^ 32 ∧ f.ipg < 2 ^ 32 ∧ f.inodes < 2 ^ 32 ∧
    f.inodeSize < 2 ^ 16

namespace Mounted

variable {bs : Nat} {f : Fs} {table : Nat → Nat}

theorem inode_split {ino : Nat} (hipg : f.ipg ≠ 0) (h₁ : 1 ≤ ino) (h₂ : ino ≤ f.inodes) :
    ∃ g i, ino = g * f.ipg + i + 1 ∧ i < min f.ipg (f.inodes - g * f.ipg) ∧
      g = (ino - 1) / f.ipg := by
  have hdm := Nat.div_add_mod' (ino - 1) f.ipg
  have hlt := Nat.mod_lt (ino - 1) (Nat.pos_of_ne_zero hipg)
  exact ⟨(ino - 1) / f.ipg, (ino - 1) % f.ipg, by omega, by omega, rfl⟩

variable (m : Mounted bs f)

include m

theorem lt_groups (g : Nat) : g < f.groups ↔ g * f.bpg < f.blocks - f.firstData := by
  have hpos : 0 < f.bpg := Nat.pos_of_ne_zero m.bpg
  rw [m.groups, Nat.lt_iff_add_one_le, Nat.le_div_iff_mul_le hpos, Nat.add_mul, Nat.one_mul]
  omega

theorem groups_pos : 0 < f.groups ↔ f.firstData < f.blocks := by
  rw [m.lt_groups, Nat.zero_mul]
  omega

theorem gdt_lt {g : Nat} (hg : g < f.groups) : f.gdtBlock + g / (bs / 32) < 2 ^ 32 := by
  have hlt := (m.lt_groups g).mp hg
  have hle : g ≤ g * f.bpg := Nat.le_mul_of_pos_right g (Nat.pos_of_ne_zero m.bpg)
  have hdiv : g / (bs / 32) ≤ g := Nat.div_le_self _ _
  have := m.words.1
  have := m.first
  rw [m.gdt]
  omega

theorem size_facts : bs ≠ 0 ∧ 8 ∣ bs ∧ bs / 32 ≠ 0 ∧ bs / 32 * 32 = bs ∧ 128 ∣ bs ∧ bs ≤ 4096 := by
  rcases m.size with rfl | rfl | rfl <;> decide

/-- **What is safe fits.** -/
theorem fits (hs : Safe bs f table) :
    Fits bs f.blocks f.firstData f.bpg f.ipg f.inodes f.inodeSize table := by
  obtain ⟨hbs₀, hbs₈, hper, -, -, -⟩ := m.size_facts
  obtain ⟨hwb, hwg, hwi, hwn, hws⟩ := m.words
  have hipg : f.inodes ≠ 0 → f.ipg ≠ 0 := fun hi => by
    obtain ⟨goal, hgoal, -⟩ := hs.goals 1 (Nat.le_refl 1) (Nat.pos_of_ne_zero hi)
    exact (groupOf?_some.mp hgoal).2.1
  -- the inode of index `i` in group `g`
  have hslot : ∀ g i, i < min f.ipg (f.inodes - g * f.ipg) →
      (∃ p, gdOff? bs f g = some p) ∧ table g + i * f.inodeSize / bs < 2 ^ 32 ∧
        i * f.inodeSize % bs + INODE_BYTES ≤ bs := fun g i hi => by
    obtain ⟨b, o, hloc, ho⟩ := hs.slots (g * f.ipg + i + 1) (by omega) (by omega)
    obtain ⟨hp, -, -, hb, -, rfl⟩ := (inodeLoc?_some (by omega)).mp hloc
    exact ⟨hp, hb, ho⟩
  refine ⟨m.first, ⟨m.bpg, ?_⟩, fun hlt => ?_, fun hi => ⟨hipg hi, ?_⟩, fun hlt hi => ?_, ?_,
    fun g hg => ?_⟩
  · by_cases hlt : f.firstData < f.blocks
    · obtain ⟨n, hn, hw, -⟩ := hs.blocks 0 (m.groups_pos.mpr hlt)
      obtain ⟨-, -, -, rfl⟩ := inGroup?_some.mp hn
      rw [wordsInside_iff hbs₈ (by omega)] at hw
      omega
    · omega
  · have hg := m.groups_pos.mpr hlt
    refine ⟨(wordsInside_iff hbs₈ hwi).mp (hs.inodes 0 hg).1, ?_⟩
    rw [← m.groups]
    by_cases hz : f.ipg = 0
    · rw [hz, Nat.mul_zero]
      decide
    · have hlast := inodeOf?_isSome.mp ((hs.inodes (f.groups - 1) (by omega)).2 (f.ipg - 1) (by omega))
      have hmul : f.groups * f.ipg = (f.groups - 1) * f.ipg + f.ipg := by
        rw [← Nat.succ_mul, Nat.succ_eq_add_one, Nat.sub_add_cancel hg]
      omega
  · obtain ⟨g, i, hino, hlt, hg⟩ := inode_split (hipg hi) (Nat.pos_of_ne_zero hi) (Nat.le_refl _)
    obtain ⟨⟨⟨b, o⟩, hp⟩, -, -⟩ := hslot g i hlt
    obtain ⟨-, hgdt, -⟩ := gdOff?_some.mp hp
    rw [m.gdt] at hgdt
    rwa [hg] at hgdt
  · have hg := m.groups_pos.mpr hlt
    obtain ⟨goal, hgoal, hk⟩ := hs.goals f.inodes (Nat.pos_of_ne_zero hi) (Nat.le_refl _)
    obtain ⟨-, -, rfl⟩ := groupOf?_some.mp hgoal
    obtain ⟨g, -, hgrp⟩ := hk (f.groups - 1) (by omega)
    obtain ⟨hsum, -⟩ := group?_some.mp hgrp
    rw [← m.groups]
    omega
  · by_cases hdvd : 128 ∣ f.inodeSize
    · exact .inl hdvd
    · have hall : ∀ i < min f.ipg f.inodes, i * f.inodeSize % bs + 128 ≤ bs := fun i hi =>
        (hslot 0 i (by omega)).2.2
      obtain ⟨n, hn, hbn⟩ : ∃ n, 7 ≤ n ∧ bs = 2 ^ n := by
        rcases m.size with h | h | h
        · exact ⟨10, by decide, h⟩
        · exact ⟨11, by decide, h⟩
        · exact ⟨12, by decide, h⟩
      obtain ⟨i, hi, hreach⟩ := multiples_reach (r := f.inodeSize) hn hdvd
      rw [← hbn] at hi hreach
      refine .inr ⟨?_, hall⟩
      by_contra hc
      have := hall i (by omega)
      omega
  · have hz : f.ipg ≠ 0 := hipg (by omega)
    exact (hslot g (min f.ipg (f.inodes - g * f.ipg) - 1) (by omega)).2.1

/-- **What fits is safe.** -/
theorem safe (hf : Fits bs f.blocks f.firstData f.bpg f.ipg f.inodes f.inodeSize table) :
    Safe bs f table := by
  obtain ⟨hbs₀, hbs₈, hper, hmul, hdvd, hle⟩ := m.size_facts
  obtain ⟨hwb, hwg, hwi, hwn, hws⟩ := m.words
  have hgd : ∀ g, f.gdtBlock + g / (bs / 32) < 2 ^ 32 →
      gdOff? bs f g = some (f.gdtBlock + g / (bs / 32), g % (bs / 32) * 32) := fun g hg => by
    have hlt := Nat.mod_lt g (Nat.pos_of_ne_zero hper)
    exact gdOff?_some.mpr ⟨hper, hg, rfl, by omega, rfl⟩
  refine ⟨fun g hg => ?_, fun ino h₁ h₂ => ?_, fun g hg => ?_, fun g hg => ?_, fun b h₁ h₂ => ?_,
    fun ino h₁ h₂ => ?_⟩
  · have hlt := Nat.mod_lt g (Nat.pos_of_ne_zero hper)
    exact ⟨_, _, hgd g (m.gdt_lt hg), by omega⟩
  · obtain ⟨hz, -⟩ := hf.inodeGroup (by omega)
    refine ⟨_, groupOf?_some.mpr ⟨h₁, hz, rfl⟩, fun k hk => ?_⟩
    have hsum := hf.goals (m.groups_pos.mp (by omega)) (by omega)
    rw [← m.groups] at hsum
    have hmono : (ino - 1) / f.ipg ≤ (f.inodes - 1) / f.ipg := Nat.div_le_div_right (by omega)
    exact ⟨_, Nat.mod_lt _ (by omega), group?_some.mpr ⟨by omega, by omega, rfl⟩⟩
  · have hlt := (m.lt_groups g).mp hg
    have hgroup := hf.group.2
    refine ⟨_, inGroup?_some.mpr ⟨m.first.1, by omega, by omega, rfl⟩,
      (wordsInside_iff hbs₈ (by omega)).mpr (by omega), fun i hi => ?_⟩
    exact ⟨_, by omega, blockOf?_some.mpr ⟨by omega, by omega, by omega, rfl⟩⟩
  · obtain ⟨hbits, hnum⟩ := hf.inodeBitmap (m.groups_pos.mp (by omega))
    refine ⟨(wordsInside_iff hbs₈ hwi).mpr hbits, fun i hi => inodeOf?_isSome.mpr ?_⟩
    rw [← m.groups] at hnum
    have hle : (g + 1) * f.ipg ≤ f.groups * f.ipg := Nat.mul_le_mul_right _ hg
    rw [Nat.succ_mul] at hle
    omega
  · have hpos : 0 < f.bpg := Nat.pos_of_ne_zero m.bpg
    have hmod := Nat.mod_lt (b - f.firstData) hpos
    have hmod' := Nat.mod_le (b - f.firstData) f.bpg
    have hdm := Nat.div_mul_le_self (b - f.firstData) f.bpg
    have hgroup := hf.group.2
    exact ⟨_, _, freeLoc?_some.mpr ⟨h₁, m.bpg, rfl, rfl⟩, (m.lt_groups _).mpr (by omega), by omega⟩
  · obtain ⟨hz, hgdt⟩ := hf.inodeGroup (by omega)
    obtain ⟨g, i, rfl, hi, hg⟩ := inode_split hz h₁ h₂
    have htab := hf.tables g (by omega)
    have hlast : i * f.inodeSize / bs ≤
        (min f.ipg (f.inodes - g * f.ipg) - 1) * f.inodeSize / bs :=
      Nat.div_le_div_right (Nat.mul_le_mul_right _ (by omega))
    have hbyte : i * f.inodeSize < 2 ^ 32 * 2 ^ 16 :=
      Nat.mul_lt_mul'' (by omega) hws
    have hgd' : f.gdtBlock + g / (bs / 32) < 2 ^ 32 := by
      have hmono : g ≤ (f.inodes - 1) / f.ipg := hg ▸ Nat.div_le_div_right (by omega)
      have hmono' : g / (bs / 32) ≤ (f.inodes - 1) / f.ipg / (bs / 32) := Nat.div_le_div_right hmono
      rw [m.gdt]
      omega
    refine ⟨_, _, (inodeLoc?_some (by omega)).mpr ⟨⟨_, hgd g hgd'⟩, by omega, hbs₀, by omega, rfl,
      rfl⟩, ?_⟩
    rcases hf.slots with hsz | ⟨-, hall⟩
    · have hlt := Nat.mod_lt (i * f.inodeSize) (Nat.pos_of_ne_zero hbs₀)
      obtain ⟨q, hq⟩ := (Nat.dvd_mod_iff hdvd).mpr (Dvd.dvd.mul_left hsz i)
      obtain ⟨r, rfl⟩ := hdvd
      rw [INODE_BYTES]
      omega
    · exact hall i (by omega)

end Mounted

/-! ### The superblock -/

section Superblock

variable {sb : Bytes} {bs : Nat} {f : Fs} {table : Nat → Nat}

theorem Super.Accepted.sizes (h : Super.Accepted sb) : Super.blockSize sb = 1024 ∨
    Super.blockSize sb = 2048 ∨ Super.blockSize sb = 4096 := by
  -- the other distances give a greater size, or none
  have hall : ∀ n < 64, 1024 * 2 ^ n % 2 ^ 64 ≤ 4096 → 1024 * 2 ^ n % 2 ^ 64 ≠ 0 →
      1024 * 2 ^ n % 2 ^ 64 = 1024 ∨ 1024 * 2 ^ n % 2 ^ 64 = 2048 ∨
        1024 * 2 ^ n % 2 ^ 64 = 4096 := by decide
  exact hall (Super.logSize sb % 64) (Nat.mod_lt _ (by decide)) h.size h.cache

/-- What `mount` computes, where that is defined. -/
theorem Super.mount?_some (h : Super.Accepted sb) : Super.mount? sb = some (bs, f) ↔
    Super.logSize sb < 64 ∧ Super.firstData sb ≤ Super.blocks sb ∧ Super.bpg sb ≠ 0 ∧
      Super.firstData sb + 1 < 2 ^ 32 ∧ Super.blockSize sb = bs ∧
      ({ blocks := Super.blocks sb, inodes := Super.inodes sb, bpg := Super.bpg sb,
         ipg := Super.ipg sb,
         groups := (Super.blocks sb - Super.firstData sb + (Super.bpg sb - 1)) / Super.bpg sb,
         firstData := Super.firstData sb, inodeSize := Super.inodeSize sb,
         gdtBlock := Super.firstData sb + 1,
         freeBlocks := UInt32.ofNat (Super.freeBlocks sb),
         freeInodes := UInt32.ofNat (Super.freeInodes sb), mounted := true } : Fs) = f := by
  have hbs : ∀ {n}, n < 64 → Super.logSize sb = n →
      1024 * 2 ^ Super.logSize sb % 2 ^ 64 = Super.blockSize sb := fun hn hl => by
    rw [Super.blockSize, hl, Nat.mod_eq_of_lt hn]
  have hle := h.size
  have hword : ∀ off, leGet sb off 4 < 2 ^ 32 := fun off => leGet_lt sb 4 off
  have hfit : ∀ off, leGet sb off 4 * Super.blockSize sb < 2 ^ 64 := fun off =>
    Nat.lt_of_le_of_lt (Nat.mul_le_mul_left _ hle) (by have := hword off; omega)
  simp only [Super.mount?, Option.bind_eq_bind, Option.bind_eq_some_iff, shl_some, sub_some,
    divCeil_some, add_some, mul_some, Option.some.injEq, Prod.mk.injEq]
  constructor
  · rintro ⟨_, ⟨h₁, rfl⟩, _, ⟨h₂, rfl⟩, _, ⟨h₃, rfl⟩, _, ⟨h₄, rfl⟩, _, -, _, -, _, -, rfl, rfl⟩
    exact ⟨h₁, h₂, h₃, h₄, (hbs h₁ rfl).symm, rfl⟩
  · rintro ⟨h₁, h₂, h₃, h₄, rfl, rfl⟩
    refine ⟨_, ⟨h₁, hbs h₁ rfl⟩, _, ⟨h₂, rfl⟩, _, ⟨h₃, rfl⟩, _, ⟨h₄, rfl⟩, _, ⟨?_, rfl⟩, _,
      ⟨hfit 4, rfl⟩, _, ⟨hfit 12, rfl⟩, rfl, rfl⟩
    exact Nat.lt_of_le_of_lt (Nat.mul_le_mul_left _ hle) (by decide)

/-- The fields of an accepted superblock fit. -/
def Super.Fit (sb : Bytes) (table : Nat → Nat) : Prop :=
  Super.logSize sb < 64 ∧ Fits (Super.blockSize sb) (Super.blocks sb) (Super.firstData sb)
    (Super.bpg sb) (Super.ipg sb) (Super.inodes sb) (Super.inodeSize sb) table

/-- **Of the superblocks that are accepted** those are safe whose fields fit. -/
theorem mount_safe (h : Super.Accepted sb) (table : Nat → Nat) :
    SafeMount sb table ↔ Super.Fit sb table := by
  have hmounted : ∀ {bs f}, Super.mount? sb = some (bs, f) → Mounted bs f := fun hm => by
    obtain ⟨-, h₁, h₂, h₃, rfl, rfl⟩ := (Super.mount?_some h).mp hm
    have hword : ∀ off, leGet sb off 4 < 2 ^ 32 := fun off => leGet_lt sb 4 off
    refine ⟨h.sizes, ⟨h₁, h₃⟩, h₂, rfl, rfl, hword 4, hword 32, hword 40, hword 0, ?_⟩
    simp only [Super.inodeSize]
    split_ifs
    · exact leGet_lt sb 2 88
    · decide
  constructor
  · rintro ⟨bs, f, hm, hs⟩
    have hfits := (hmounted hm).fits hs
    obtain ⟨h₁, -, -, -, rfl, rfl⟩ := (Super.mount?_some h).mp hm
    exact ⟨h₁, hfits⟩
  · rintro ⟨h₁, hf⟩
    have hm := (Super.mount?_some h).mpr ⟨h₁, hf.first.1, hf.group.1, hf.first.2, rfl, rfl⟩
    exact ⟨_, _, hm, (hmounted hm).safe hf⟩

/-- A superblock of revision 1 with blocks of 1 KiB, 8192 blocks of which the first is number 1, and
inodes of 128 bytes. -/
def superOf (bpg ipg : Nat) : Bytes :=
  [(0, 4, 2048), (4, 4, 8192), (20, 4, 1), (32, 4, bpg), (40, 4, ipg), (56, 2, MAGIC), (76, 4, 1),
    (88, 2, 128), (96, 4, INCOMPAT_FILETYPE)].foldl
      (fun d w => lePut d w.1 w.2.1 w.2.2) (fun _ => (0 : UInt8))

/-- One group whose inode table begins at block 5. -/
theorem mount_safe_one_group : SafeMount (superOf 8192 2048) fun _ => 5 := by
  have hacc : Super.Accepted (superOf 8192 2048) :=
    ⟨by decide, by decide, by decide, by decide, by decide⟩
  refine (mount_safe hacc fun _ => 5).mpr ⟨by decide, ?_⟩
  have hfields : Super.blockSize (superOf 8192 2048) = 1024 ∧
      Super.blocks (superOf 8192 2048) = 8192 ∧ Super.firstData (superOf 8192 2048) = 1 ∧
      Super.bpg (superOf 8192 2048) = 8192 ∧ Super.ipg (superOf 8192 2048) = 2048 ∧
      Super.inodes (superOf 8192 2048) = 2048 ∧ Super.inodeSize (superOf 8192 2048) = 128 := by
    decide
  obtain ⟨h₁, h₂, h₃, h₄, h₅, h₆, h₇⟩ := hfields
  rw [h₁, h₂, h₃, h₄, h₅, h₆, h₇]
  exact ⟨by decide, by decide, by decide, by decide, by decide, .inl ⟨1, rfl⟩, fun g _ => by omega⟩

/-- Two superblocks that are accepted: with no blocks to a group `mount` divides by zero, and with
too many inodes to a group the words of their bitmap lie behind its block. -/
theorem mount_unsafe : (Super.Accepted (superOf 0 2048) ∧ ∀ table, ¬ SafeMount (superOf 0 2048) table) ∧
    Super.Accepted (superOf 8192 8256) ∧ ∀ table, ¬ SafeMount (superOf 8192 8256) table := by
  refine ⟨⟨⟨by decide, by decide, by decide, by decide, by decide⟩, fun table hs => ?_⟩,
    ⟨by decide, by decide, by decide, by decide, by decide⟩, fun table hs => ?_⟩
  · obtain ⟨bs, f, hm, -⟩ := hs
    exact absurd hm (by rw [show Super.mount? (superOf 0 2048) = none by rfl]; simp)
  · obtain ⟨bs, f, hm, hs⟩ := hs
    have hacc : Super.Accepted (superOf 8192 8256) :=
      ⟨by decide, by decide, by decide, by decide, by decide⟩
    obtain ⟨-, -, -, -, rfl, rfl⟩ := (Super.mount?_some hacc).mp hm
    have hword := ((hs.inodes 0 (by decide)).1 128 (by decide)).1
    exact absurd hword (by decide)

end Superblock

end Pulsar.Ext2

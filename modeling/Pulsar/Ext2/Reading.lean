import Pulsar.Ext2.Map
import Pulsar.Ext2.Sync

/-!
# Reading files (`ext2.rs`, section "dados")

`read` copies through the cache and reads ahead what lies behind a block on the disk;
`read_all_phys` writes the cache back and reads runs of blocks past it, for the loader.  On a device
that works both give the bytes of the file as the cache shows them (**`read_agrees`**).
-/

namespace Pulsar.Ext2.Vol

/-- The loop that looks how many blocks of a file from `l` on follow block `b` on the disk: `run` of
them so far, and at most `k` more. -/
def runFrom (n : Inode) (l b : Nat) : Nat → Nat → EStateM Errno Vol Nat
  | 0, run => return run
  | k + 1, run => do
    if (← bmap n (l + run)) = (b + run) % 2 ^ 32 then runFrom n l b k (run + 1) else return run

/-- `a.div_ceil(b)`. -/
def divCeil (a b : Nat) : Nat := (a + b - 1) / b

/-- The read-ahead of `read` for block `b`, which holds the byte at `pos`, with `left` bytes to go. -/
def readAhead (n : Inode) (b pos left : Nat) : EStateM Errno Vol Unit := do
  let v ← get
  let bs := v.buf.bs
  if b ≠ 0 ∧ v.buf.cached b = false then do
    let maxRem := min (divCeil (n.size - (pos - pos % bs)) bs) 32
    let want := min (max (divCeil left bs) 8) maxRem
    let run ← runFrom n (pos / bs) b (want - 1) 1
    modify fun v => { v with buf := v.buf.prefetch b run }
  else return ()

/-- The copy of `chunk` bytes of block `b`; a hole gives zeros. -/
def copyOut (b inblk chunk done : Nat) (dst : Bytes) : EStateM Errno Vol Bytes := do
  if b = 0 then return blit dst done chunk fun _ => 0
  else do
    let p ← bget b true
    let d ← bytesAt p
    return blit dst done chunk fun i => d (inblk + i)

/-- The loop of `read`; it takes at least one byte each time. -/
def readLoop (n : Inode) (off len : Nat) : Nat → Nat → Bytes → EStateM Errno Vol Bytes
  | 0, _, dst => return dst
  | k + 1, done, dst => do
    if done < len then do
      let bs := (← get).buf.bs
      let pos := off + done
      let inblk := pos % bs
      let chunk := min (bs - inblk) (len - done)
      let b ← bmap n (pos / bs)
      readAhead n b pos (len - done)
      let dst ← copyOut b inblk chunk done dst
      readLoop n off len k (done + chunk) dst
    else return dst

/-- `read(ino, off, dst, len)`, with the buffer as it leaves it. -/
def read (ino off : Nat) (dst : Bytes) (len : Nat) : EStateM Errno Vol (Nat × Bytes) := do
  let n ← readInode ino
  let size := n.size
  if size ≤ off then return (0, dst)
  else do
    let len := min len (size - off)
    return (len, ← readLoop n off len len 0 dst)

/-- `disk_io(false, b, dst_pa + at, nblocks)`. -/
def diskIn (b nblocks at' : Nat) (dst : Bytes) : EStateM Errno Vol Bytes := do
  let v ← get
  let spb := v.buf.bs / SECTOR_SIZE
  let r := v.buf.dev.read (b * spb) (nblocks * spb)
  set { v with buf := { v.buf with dev := r.2.2 } }
  if r.1 then
    return match r.2.1 with
      | some d => blit dst at' (nblocks * v.buf.bs) d
      | none => dst
  else throw EIO

/-- The loop of `read_all_phys`; it takes at least one block each time. -/
def allLoop (n : Inode) (nblk : Nat) : Nat → Nat → Bytes → EStateM Errno Vol Bytes
  | 0, _, dst => return dst
  | k + 1, l, dst => do
    if l < nblk then do
      let bs := (← get).buf.bs
      let b ← bmap n l
      if b = 0 then allLoop n nblk k (l + 1) (blit dst (l * bs) bs fun _ => 0)
      else do
        -- as long as `l + run < nblk` and `run * bs < 1 << 20`
        let run ← runFrom n l b (min (nblk - l) (divCeil (2 ^ 20) bs) - 1) 1
        let dst ← diskIn b run (l * bs) dst
        allLoop n nblk k (l + run) dst
    else return dst

/-- `read_all_phys(ino, dst_pa)` at time `now`, with the memory from `dst_pa` on as it leaves it. -/
def readAllPhys (now : UInt32) (ino : Nat) (dst : Bytes) : EStateM Errno Vol (Nat × Bytes) := do
  let v ← get
  if 0 < v.buf.dirtyCount then set (v.sync now).2
  let n ← readInode ino
  let nblk := divCeil n.size (← get).buf.bs
  return (n.size, ← allLoop n nblk nblk 0 dst)

variable {v w : Vol} {b l k run off len done pos left inblk chunk nblk ino m : Nat} {n : Inode}
  {dst : Bytes} {E : Errno → Vol → Prop}

/-! ### Reading ahead -/

/-- The blocks of a file from `l` on that follow block `b` on the disk, `m` of them. -/
def Follows (v : Vol) (n : Inode) (l b m : Nat) : Prop :=
  ∀ j < m, mapped v.view v.buf.bs n (l + j) = b + j ∧ v.InVolume (b + j)

theorem Reads.follows (h : v.Reads w) : w.Follows n l b m ↔ v.Follows n l b m := by
  simp only [Follows, h.sees, h.bs, h.inVolume]

theorem wp_runFrom {Q : Nat → Vol → Prop} (h : v.Ready) (hrun : 0 < run)
    (hr : ∀ j < run + k, v.Routed n (l + j)) (hf : v.Follows n l b run)
    (hQ : ∀ r w, v.Reads w → 0 < r → r ≤ run + k → v.Follows n l b r → Q r w) :
    wp (runFrom n l b k run) Q E v := by
  induction k generalizing v run with
  | zero => exact hQ run v (.refl h) hrun (Nat.le_refl _) hf
  | succ k ih =>
      rw [runFrom, wp_bind]
      refine wp_bmap h (hr run (by omega)) fun w hw => ?_
      rw [wp_ite]
      refine ⟨fun he => ?_, fun _ => hQ run w hw hrun (by omega) hf⟩
      -- the number after that of a block of the volume is no hole
      have hlast := (hf (run - 1) (by omega)).2.1
      have hmod : (b + run) % 2 ^ 32 = b + run := Nat.mod_eq_of_lt (by have := h.blocks.1; omega)
      rw [hmod] at he
      have hin : v.InVolume (b + run) := by
        have hne : mapped v.view v.buf.bs n (l + run) ≠ 0 := by omega
        have := hr run (by omega) _ (mapped_mem hne) hne
        rwa [he] at this
      refine ih hw.ready (by omega) (fun j hj => hw.routed.mpr (hr j (by omega))) ?_
        fun r u hu hr₀ hle hfr => hQ r u (hw.trans hu) hr₀ (by omega) (hw.follows.mp hfr)
      refine hw.follows.mpr fun j hj => ?_
      rcases Nat.lt_succ_iff_lt_or_eq.mp hj with hlt | rfl
      · exact hf j hlt
      · exact ⟨he, hin⟩

/-- Reading ahead blocks of the volume changes nothing that is seen. -/
theorem Ready.prefetch (h : v.Ready) (hm : 0 < m) (hb : ∀ j < m, v.InVolume (b + j)) :
    v.Reads { v with buf := v.buf.prefetch b m } := by
  have hlast := (hb (m - 1) (by omega)).1
  have hlt := h.blocks.1
  obtain ⟨h₁, h₂, h₃, h₄⟩ := Buf.prefetch_spec h.inv (b := b) (n := m) (by omega)
  refine h.reads h₁ h₃ ?_ h₂ fun c => .inl (congrFun h₄ c)
  rintro c ⟨j, hj, rfl⟩
  rw [Nat.mod_eq_of_lt (by omega)]
  exact hb j (by omega)

theorem lt_divCeil {a c : Nat} (hc : 0 < c) (x : Nat) : x < divCeil a c ↔ x * c < a := by
  rw [divCeil, Nat.lt_iff_add_one_le, Nat.le_div_iff_mul_le hc, Nat.add_mul, Nat.one_mul]
  omega

theorem wp_readAhead {Q : Unit → Vol → Prop} (h : v.Ready)
    (hr : ∀ l < divCeil n.size v.buf.bs, v.Routed n l) (hpos : pos < n.size)
    (hb : b = mapped v.view v.buf.bs n (pos / v.buf.bs)) (hQ : ∀ w, v.Reads w → Q () w) :
    wp (readAhead n b pos left) Q E v := by
  have hbs := h.inv.pos
  rw [readAhead, wp_bind, wp_get, wp_ite]
  refine ⟨fun hc => ?_, fun _ => hQ v (.refl h)⟩
  rw [wp_bind]
  -- the blocks that it looks at are blocks of the file
  have hblk : ∀ j < divCeil (n.size - (pos - pos % v.buf.bs)) v.buf.bs,
      pos / v.buf.bs + j < divCeil n.size v.buf.bs := by
    intro j hj
    rw [lt_divCeil hbs] at hj ⊢
    have := Nat.div_add_mod' pos v.buf.bs
    rw [Nat.add_mul]
    omega
  have hone : v.Routed n (pos / v.buf.bs) := hr _ (by
    rw [lt_divCeil hbs]
    exact Nat.lt_of_le_of_lt (Nat.div_mul_le_self pos v.buf.bs) hpos)
  have hfirst : v.Follows n (pos / v.buf.bs) b 1 := by
    intro j hj
    obtain rfl : j = 0 := by omega
    have hne : mapped v.view v.buf.bs n (pos / v.buf.bs) ≠ 0 := hb ▸ hc.1
    exact ⟨hb.symm, hb ▸ hone _ (mapped_mem hne) hne⟩
  refine wp_runFrom h (by decide) (fun j hj => ?_) hfirst fun r w hw hr₀ _ hf => ?_
  · rcases Nat.eq_zero_or_pos j with rfl | hj₀
    · exact hone
    · exact hr _ (hblk j (by omega))
  · rw [wp_modify]
    exact hQ _ (hw.trans (hw.ready.prefetch hr₀ fun j hj => hw.inVolume.mpr (hf j hj).2))

/-! ### Through the cache -/

theorem wp_copyOut {Q : Bytes → Vol → Prop} (h : v.Ready) (hb : b ≠ 0 → v.InVolume b)
    (hQ : ∀ w, v.Reads w →
      Q (blit dst done chunk fun i => if b = 0 then 0 else v.view b (inblk + i)) w) :
    wp (copyOut b inblk chunk done dst) Q E v := by
  rw [copyOut, wp_ite]
  refine ⟨fun hz => ?_, fun hz => ?_⟩
  · simp only [if_pos hz] at hQ
    exact hQ v (.refl h)
  · simp only [if_neg hz] at hQ
    rw [wp_bind]
    refine wp_bget_ready h (hb hz) fun p w hw hp => ?_
    rw [wp_bind]
    refine wp_bytesAt hw.ready.inv hp ?_
    rw [wp_pure, hw.sees]
    exact hQ w hw

/-- The bytes of a file behind `pos`, in the block that holds it. -/
theorem contents_block {x : Nat} (hx : pos % v.buf.bs + x < v.buf.bs) :
    contents v.view v.buf.bs n (pos + x) =
      if mapped v.view v.buf.bs n (pos / v.buf.bs) = 0 then 0
      else v.view (mapped v.view v.buf.bs n (pos / v.buf.bs)) (pos % v.buf.bs + x) := by
  have hsplit : pos + x = pos % v.buf.bs + x + v.buf.bs * (pos / v.buf.bs) := by
    have := Nat.mod_add_div pos v.buf.bs
    omega
  have hdiv : (pos + x) / v.buf.bs = pos / v.buf.bs := by
    rw [hsplit, Nat.add_mul_div_left _ _ (by omega), Nat.div_eq_of_lt hx, Nat.zero_add]
  have hmod : (pos + x) % v.buf.bs = pos % v.buf.bs + x := by
    rw [hsplit, Nat.add_mul_mod_self_left, Nat.mod_eq_of_lt hx]
  rw [contents, hdiv, hmod]

theorem wp_readLoop {Q : Bytes → Vol → Prop} (h : v.Ready)
    (hr : ∀ l < divCeil n.size v.buf.bs, v.Routed n l) (hlen : off + len ≤ n.size)
    (hk : len ≤ done + k) (hQ : ∀ w, v.Reads w →
      Q (blit dst done (len - done) fun i => contents v.view v.buf.bs n (off + done + i)) w) :
    wp (readLoop n off len k done dst) Q E v := by
  induction k generalizing v done dst with
  | zero =>
      have hz : len - done = 0 := by omega
      rw [hz, blit_nothing] at hQ
      exact hQ v (.refl h)
  | succ k ih =>
      have hbs := h.inv.pos
      rw [readLoop, wp_ite]
      refine ⟨fun hlt => ?_, fun hge => ?_⟩
      · rw [wp_bind, wp_get]
        simp only
        generalize hpos : off + done = pos at *
        generalize hchunk : min (v.buf.bs - pos % v.buf.bs) (len - done) = chunk at *
        have hmod := Nat.mod_lt pos hbs
        have hrt : v.Routed n (pos / v.buf.bs) := hr _ (by
          rw [lt_divCeil hbs]
          exact Nat.lt_of_le_of_lt (Nat.div_mul_le_self pos v.buf.bs) (by omega))
        rw [wp_bind]
        refine wp_bmap h hrt fun w hw => ?_
        generalize hb : mapped v.view v.buf.bs n (pos / v.buf.bs) = b at *
        have hin : b ≠ 0 → v.InVolume b := fun hz => by
          subst hb
          exact hrt _ (mapped_mem hz) hz
        rw [wp_bind]
        refine wp_readAhead hw.ready (fun l hl => ?_) (by omega) (by rw [hw.sees, hw.bs, hb])
          fun u hu => ?_
        · rw [hw.bs] at hl
          exact hw.routed.mpr (hr l hl)
        have hu := hw.trans hu
        rw [wp_bind]
        refine wp_copyOut hu.ready (fun hz => hu.inVolume.mpr (hin hz)) fun x hx => ?_
        have hx := hu.trans hx
        refine ih hx.ready (fun l hl => ?_) (by omega) fun y hy => ?_
        · rw [hx.bs] at hl
          exact hx.routed.mpr (hr l hl)
        · have hy' := hQ y (hx.trans hy)
          rw [show len - done = chunk + (len - (done + chunk)) by omega] at hy'
          rw [hx.sees, hx.bs, hu.sees]
          rwa [@blit_blit dst _ _ fun i => contents v.view v.buf.bs n (pos + i)]
          · intro i hi
            rw [contents_block (by omega), hb]
          · intro i _
            rw [show off + (done + chunk) + i = pos + (chunk + i) by omega]
      · have hz : len - done = 0 := by omega
        rw [hz, blit_nothing] at hQ
        exact hQ v (.refl h)

/-- **`read`** gives the bytes of the file from `off` on. -/
theorem wp_read {Q : Nat × Bytes → Vol → Prop} (h : v.Ready) (hl : v.Located ino)
    (hr : ∀ l < divCeil (v.nodeOf ino).size v.buf.bs, v.Routed (v.nodeOf ino) l)
    (hQ : ∀ w, v.Reads w → Q (min len ((v.nodeOf ino).size - off),
      blit dst 0 (min len ((v.nodeOf ino).size - off)) fun i =>
        contents v.view v.buf.bs (v.nodeOf ino) (off + i)) w) :
    wp (read ino off dst len) Q E v := by
  rw [read, wp_bind]
  refine wp_readInode h hl fun w hw => ?_
  generalize v.nodeOf ino = n at *
  simp only
  rw [wp_ite]
  refine ⟨fun hle => ?_, fun hlt => ?_⟩
  · have hz : min len (n.size - off) = 0 := by omega
    rw [hz, blit_nothing] at hQ
    exact hQ w hw
  · rw [wp_bind]
    refine wp_readLoop hw.ready (fun l hl => ?_) (by omega) (by omega) fun u hu => ?_
    · rw [hw.bs] at hl
      exact hw.routed.mpr (hr l hl)
    · rw [hw.sees, hw.bs]
      exact hQ u (hw.trans hu)

/-! ### Past the cache -/

/-- The bytes of a file in block `l + i / bs` of it. -/
theorem contents_run {i : Nat} (hbs : 0 < v.buf.bs) : contents v.view v.buf.bs n (l * v.buf.bs + i) =
    if mapped v.view v.buf.bs n (l + i / v.buf.bs) = 0 then 0
    else v.view (mapped v.view v.buf.bs n (l + i / v.buf.bs)) (i % v.buf.bs) := by
  rw [contents, Nat.mul_comm, Nat.mul_add_div hbs, Nat.mul_add_mod]

theorem wp_diskIn {Q : Bytes → Vol → Prop} (h : v.Ready) (hm : 0 < m)
    (hb : ∀ j < m, v.InVolume (b + j))
    (hQ : ∀ w, v.Reads w → Q (blit dst off (m * v.buf.bs) fun i =>
      v.buf.diskBlock (b + i / v.buf.bs) (i % v.buf.bs)) w) : wp (diskIn b m off dst) Q E v := by
  have hbs := h.inv.pos
  have hon := (h.on (hb (m - 1) (by omega))).2
  rw [show b + (m - 1) + 1 = b + m by omega] at hon
  have hacc := h.calm.accepts h.inv hon
  rw [Nat.mul_div_assoc _ h.inv.sector] at hacc
  have hread := Dev.read_of_accepts hacc
  rw [diskIn, wp_bind, wp_get, wp_bind, wp_set]
  simp only [hread, if_true]
  obtain ⟨hI, hv⟩ := h.inv.setDev { v.buf.dev with count := v.buf.dev.count + 1 } fun _ _ _ _ => rfl
  have hreads : v.Reads { v with
      buf := { v.buf with dev := { v.buf.dev with count := v.buf.dev.count + 1 } } } :=
    h.reads (N := fun _ => False) hI
      ⟨rfl, rfl, rfl, fun hi => .inr ⟨_, hi⟩, fun _ _ _ _ => rfl⟩ (fun _ hb => hb.elim) hv
      fun _ => .inl rfl
  have hdata : (blit dst off (m * v.buf.bs) fun i =>
      v.buf.dev.bytes (b * (v.buf.bs / SECTOR_SIZE) * SECTOR_SIZE + i)) =
      blit dst off (m * v.buf.bs) fun i => v.buf.diskBlock (b + i / v.buf.bs) (i % v.buf.bs) := by
    congr 1
    funext i
    rw [Buf.diskBlock, clip_lt (Nat.mod_lt i hbs), h.inv.sectors, Nat.add_mul, Nat.add_assoc,
      Nat.div_add_mod']
  rw [hdata]
  exact hQ _ hreads

/-- The disk has what the cache shows. -/
def Settled (v : Vol) : Prop := ∀ b, v.buf.diskBlock b = v.view b

theorem Reads.settled (h : v.Reads w) (hs : v.Settled) : w.Settled := fun b => by
  rw [h.sees]
  rcases h.disk b with e | e
  · rw [e, hs b]
  · exact e

theorem wp_allLoop {Q : Bytes → Vol → Prop} (h : v.Ready) (hs : v.Settled)
    (hr : ∀ l < nblk, v.Routed n l) (hk : nblk ≤ l + k) (hQ : ∀ w, v.Reads w →
      Q (blit dst (l * v.buf.bs) ((nblk - l) * v.buf.bs) fun i =>
        contents v.view v.buf.bs n (l * v.buf.bs + i)) w) :
    wp (allLoop n nblk k l dst) Q E v := by
  induction k generalizing v l dst with
  | zero =>
      rw [Nat.sub_eq_zero_of_le (by omega), Nat.zero_mul, blit_nothing] at hQ
      exact hQ v (.refl h)
  | succ k ih =>
      have hbs := h.inv.pos
      rw [allLoop, wp_ite]
      refine ⟨fun hlt => ?_, fun hge => ?_⟩
      · rw [wp_bind, wp_get]
        simp only
        rw [wp_bind]
        refine wp_bmap h (hr l hlt) fun w hw => ?_
        -- the loop goes on behind the `m` blocks that it has read
        have hnext : ∀ m u dst', 0 < m → l + m ≤ nblk → v.Reads u →
            dst' = (blit dst (l * v.buf.bs) (m * v.buf.bs) fun i =>
              contents v.view v.buf.bs n (l * v.buf.bs + i)) →
            wp (allLoop n nblk k (l + m) dst') Q E u := by
          rintro m u dst' hm hle hu rfl
          refine ih hu.ready (hu.settled hs) (fun j hj => hu.routed.mpr (hr j hj)) (by omega)
            fun x hx => ?_
          have hq := hQ x (hu.trans hx)
          rw [show nblk - l = m + (nblk - (l + m)) by omega, Nat.add_mul] at hq
          rw [hu.sees, hu.bs, Nat.add_mul]
          rwa [@blit_blit dst _ _ fun i => contents v.view v.buf.bs n (l * v.buf.bs + i)]
          · exact fun _ _ => rfl
          · exact fun i _ => by rw [Nat.add_assoc]
        rw [wp_ite]
        refine ⟨fun hz => hnext 1 w _ (by decide) hlt hw ?_, fun hz => ?_⟩
        · -- a hole
          rw [Nat.one_mul]
          refine blit_congr fun i hi => ?_
          rw [contents_run hbs, Nat.div_eq_of_lt hi, Nat.add_zero, if_pos hz]
        · rw [wp_bind]
          have hfirst : w.Follows n l (mapped v.view v.buf.bs n l) 1 := by
            refine hw.follows.mpr fun j hj => ?_
            obtain rfl : j = 0 := by omega
            exact ⟨rfl, hr l hlt _ (mapped_mem hz) hz⟩
          refine wp_runFrom hw.ready (by decide) (fun j hj => hw.routed.mpr (hr _ (by omega))) hfirst
            fun r u hu hr₀ hle hf => ?_
          have hu := hw.trans hu
          have hf := hw.follows.mp hf
          rw [wp_bind]
          refine wp_diskIn hu.ready hr₀ (fun j hj => hu.inVolume.mpr (hf j hj).2) fun x hx => ?_
          refine hnext r x _ hr₀ (by omega) (hu.trans hx) ?_
          rw [hu.bs]
          refine blit_congr fun i hi => ?_
          have hj : i / v.buf.bs < r := (Nat.div_lt_iff_lt_mul hbs).mpr hi
          obtain ⟨hmap, hin⟩ := hf _ hj
          have hne : mapped v.view v.buf.bs n (l + i / v.buf.bs) ≠ 0 := by
            rw [hmap]
            exact Nat.ne_of_gt (Nat.add_pos_left (Nat.pos_of_ne_zero hz) _)
          rw [contents_run hbs, if_neg hne, hmap, (hu.settled hs) _, hu.sees]
      · rw [Nat.sub_eq_zero_of_le (by omega), Nat.zero_mul, blit_nothing] at hQ
        exact hQ v (.refl h)

/-! ### The write-back before it -/

/-- From `v` to `w` everything was written back; only the block of the superblock is not what it
was. -/
structure Synced (v w : Vol) : Prop where
  ready : w.Ready
  settled : w.Settled
  sees : ∀ b, b ≠ v.sbBlock → w.view b = v.view b
  bs : w.buf.bs = v.buf.bs
  fs : w.fs = v.fs
  icache : w.icache = v.icache

theorem Ready.syncSuper (h : v.Ready) (now : UInt32) :
    (v.syncSuper now).2.Ready ∧
      (∀ b, b ≠ v.sbBlock → (v.syncSuper now).2.view b = v.view b) ∧
      (v.syncSuper now).2.buf.bs = v.buf.bs ∧ (v.syncSuper now).2.fs = v.fs ∧
      (v.syncSuper now).2.icache = v.icache := by
  rw [Vol.syncSuper]
  split
  · have hout : ∀ c, c ≠ v.sbBlock → ∀ x < v.buf.bs,
        (v.buf.dev.write SB_LBA SB_SECTORS (v.newSuper now)).2.bytes (c * v.buf.bs + x) =
          v.buf.dev.bytes (c * v.buf.bs + x) := by
      intro c hc x hx
      refine Dev.write_outside ?_
      simp only [sbBlock, SB_LBA, SECTOR_SIZE, SB_SECTORS] at hc ⊢
      rcases h.size with e | e | e <;> rw [e] at hc hx ⊢ <;> omega
    obtain ⟨hI, hv⟩ := h.inv.setDevFree _ h.free hout
    refine ⟨⟨hI, ⟨?_, ?_⟩, h.size, ?_, h.free⟩, hv, rfl, rfl, rfl⟩
    · intro m
      simp only [flushSuper, Dev.write_fails]
      exact h.calm.works m
    · intro i b hi
      simp only [flushSuper, Dev.write_capacity]
      exact h.calm.on hi
    · simp only [flushSuper, Dev.write_capacity]
      exact h.blocks
  · exact ⟨h, fun _ _ => rfl, rfl, rfl, rfl⟩

theorem Ready.flush (h : v.Ready) :
    v.Reads { v with buf := v.buf.flushDirty.2 } ∧ Settled { v with buf := v.buf.flushDirty.2 } := by
  obtain ⟨h₁, h₂, h₃, -, h₅⟩ := Buf.flushDirty_spec h.inv
  have hset := h₁.disk_eq_view (h₅ (Buf.flushDirty_calm h.calm h.inv))
  exact ⟨h.reads h₁ h₃ (fun _ hb => hb.elim) h₂ fun b => .inr ((hset b).trans (congrFun h₂ b)), hset⟩

theorem Ready.sync (h : v.Ready) (now : UInt32) : v.Synced (v.sync now).2 := by
  obtain ⟨h₁, h₂, h₃, h₄, h₅⟩ := h.syncSuper now
  obtain ⟨hr, hset⟩ := h₁.flush
  exact ⟨hr.ready, hset, fun b hb => (congrFun hr.sees b).trans (h₂ b hb), hr.bs.trans h₃,
    hr.fs.trans h₄, h₅⟩

theorem Ready.clean (h : v.Ready) (hd : v.buf.dirtyCount = 0) : v.Synced v where
  ready := h
  settled := h.inv.disk_eq_view fun i hi hdirty => by
    have hcard := h.inv.count
    rw [hd, eq_comm, Finset.card_eq_zero, Finset.filter_eq_empty_iff] at hcard
    exact hcard (Finset.mem_range.mpr hi) hdirty
  sees := fun _ _ => rfl
  bs := rfl
  fs := rfl
  icache := rfl

namespace Synced

variable (h : v.Synced w)

include h

theorem inVolume : w.InVolume b ↔ v.InVolume b := by
  simp only [InVolume, sbBlock, h.bs, h.fs]

theorem gdOff (g : Nat) : w.gdOff g = v.gdOff g := by
  simp only [Vol.gdOff, h.bs, h.fs]

theorem icached : w.icached ino = v.icached ino := by
  simp only [Vol.icached, h.icache]

theorem slotOf (hb : v.InVolume (v.gdOff ((ino - 1) / v.fs.ipg)).1) :
    w.slotOf ino = v.slotOf ino := by
  simp only [Vol.slotOf, Vol.gd, h.bs, h.fs, h.gdOff, h.sees _ hb.2]

theorem located (hl : v.Located ino) : w.Located ino := fun hn => by
  obtain ⟨h₁, h₂, h₃, h₄⟩ := hl (h.icached ▸ hn)
  rw [h.slotOf h₃, h.gdOff, h.fs]
  exact ⟨h₁, h₂, h.inVolume.mpr h₃, h.inVolume.mpr h₄⟩

theorem nodeOf (hl : v.Located ino) : w.nodeOf ino = v.nodeOf ino := by
  rw [Vol.nodeOf, Vol.nodeOf, h.icached]
  cases hc : v.icached ino with
  | some node => rfl
  | none =>
      obtain ⟨-, -, h₃, h₄⟩ := hl hc
      rw [h.slotOf h₃, h.sees _ h₄.2]

theorem routed (hr : v.Routed n l) : w.Routed n l := fun b hb hz => by
  rw [h.bs, route_congr fun c hc hz => h.sees c (hr c hc hz).2] at hb
  exact h.inVolume.mpr (hr b hb hz)

theorem mapped (hr : v.Routed n l) : mapped w.view w.buf.bs n l = mapped v.view v.buf.bs n l := by
  rw [h.bs, mapped_congr fun c hc hz => h.sees c (hr c hc hz).2]

theorem contents {x : Nat} (hr : v.Routed n (x / v.buf.bs)) :
    contents w.view w.buf.bs n x = contents v.view v.buf.bs n x := by
  have hm := h.mapped hr
  rw [h.bs] at hm
  rw [h.bs, Ext2.contents, Ext2.contents, hm]
  split
  · rfl
  · rename_i hz
    rw [h.sees _ (hr _ (mapped_mem hz) hz).2]

end Synced

/-- **`read_all_phys`** gives the bytes of the file, up to the end of its last block. -/
theorem wp_readAllPhys {Q : Nat × Bytes → Vol → Prop} {now : UInt32} (h : v.Ready)
    (hl : v.Located ino)
    (hr : ∀ l < divCeil (v.nodeOf ino).size v.buf.bs, v.Routed (v.nodeOf ino) l)
    (hQ : ∀ w, w.Ready → Q ((v.nodeOf ino).size,
      blit dst 0 (divCeil (v.nodeOf ino).size v.buf.bs * v.buf.bs) fun i =>
        contents v.view v.buf.bs (v.nodeOf ino) i) w) :
    wp (readAllPhys now ino dst) Q E v := by
  have hbs := h.inv.pos
  generalize hn : v.nodeOf ino = n at *
  -- from the written-back state on
  have hrest : ∀ w, v.Synced w → wp (do
      let n ← readInode ino
      let nblk := divCeil n.size (← get).buf.bs
      return (n.size, ← allLoop n nblk nblk 0 dst)) Q E w := by
    intro w hw
    rw [wp_bind]
    refine wp_readInode hw.ready (hw.located hl) fun u hu => ?_
    rw [hw.nodeOf hl, hn, wp_bind, wp_get, hu.bs, hw.bs]
    simp only
    rw [wp_bind]
    refine wp_allLoop hu.ready (hu.settled hw.settled)
      (fun j hj => hu.routed.mpr (hw.routed (hr j hj))) (by omega) fun x hx => ?_
    rw [wp_pure, Nat.zero_mul, Nat.sub_zero, hu.bs, hw.bs, hu.sees]
    have hsame : (blit dst 0 (divCeil n.size v.buf.bs * v.buf.bs) fun i =>
        contents w.view v.buf.bs n (0 + i)) =
        blit dst 0 (divCeil n.size v.buf.bs * v.buf.bs) fun i => contents v.view v.buf.bs n i := by
      refine blit_congr fun i hi => ?_
      have := hw.contents (hr _ ((Nat.div_lt_iff_lt_mul hbs).mpr hi))
      rw [hw.bs] at this
      rw [Nat.zero_add, this]
    rw [hsame]
    exact hQ x hx.ready
  rw [readAllPhys, wp_bind, wp_get]
  dsimp only
  rw [wp_ite]
  refine ⟨fun _ => ?_, fun hd => ?_⟩
  · rw [wp_bind, wp_set]
    exact hrest _ (h.sync now)
  · exact hrest v (h.clean (by omega))

/-- **The two ways of reading agree.**  `read` answers how many bytes of the file there are from `off`
on, at most `len`, and writes these and nothing else; `read_all_phys` answers the size and writes the
blocks of the file and nothing else, so that its first `size` bytes are those that `read` gives for
the whole file. -/
theorem read_agrees (h : v.Ready) (hl : v.Located ino)
    (hr : ∀ l < divCeil (v.nodeOf ino).size v.buf.bs, v.Routed (v.nodeOf ino) l) (now : UInt32) :
    (∀ off len dst, ∃ w, read ino off dst len v = .ok (min len ((v.nodeOf ino).size - off),
      blit dst 0 (min len ((v.nodeOf ino).size - off)) fun i =>
        contents v.view v.buf.bs (v.nodeOf ino) (off + i)) w) ∧
    (∀ dst, ∃ w, readAllPhys now ino dst v = .ok ((v.nodeOf ino).size,
      blit dst 0 (divCeil (v.nodeOf ino).size v.buf.bs * v.buf.bs) fun i =>
        contents v.view v.buf.bs (v.nodeOf ino) i) w) ∧
    ∀ dst dst', ∃ got all w u,
      read ino 0 dst (v.nodeOf ino).size v = .ok ((v.nodeOf ino).size, got) w ∧
        readAllPhys now ino dst' v = .ok ((v.nodeOf ino).size, all) u ∧
          ∀ x < (v.nodeOf ino).size, all x = got x := by
  have hread : ∀ off len dst, ∃ w, read ino off dst len v =
      .ok (min len ((v.nodeOf ino).size - off),
        blit dst 0 (min len ((v.nodeOf ino).size - off)) fun i =>
          contents v.view v.buf.bs (v.nodeOf ino) (off + i)) w := by
    intro off len dst
    have hwp : wp (read ino off dst len) (fun a _ => a = _) (fun _ _ => False) v :=
      wp_read h hl hr fun w _ => rfl
    obtain ⟨a, w, hx, rfl⟩ := hwp.returns
    exact ⟨w, hx⟩
  have hall : ∀ dst, ∃ w, readAllPhys now ino dst v = .ok ((v.nodeOf ino).size,
      blit dst 0 (divCeil (v.nodeOf ino).size v.buf.bs * v.buf.bs) fun i =>
        contents v.view v.buf.bs (v.nodeOf ino) i) w := by
    intro dst
    have hwp : wp (readAllPhys now ino dst) (fun a _ => a = _) (fun _ _ => False) v :=
      wp_readAllPhys h hl hr fun w _ => rfl
    obtain ⟨a, w, hx, rfl⟩ := hwp.returns
    exact ⟨w, hx⟩
  refine ⟨hread, hall, fun dst dst' => ?_⟩
  obtain ⟨w, hw⟩ := hread 0 (v.nodeOf ino).size dst
  obtain ⟨u, hu⟩ := hall dst'
  rw [Nat.sub_zero, Nat.min_self] at hw
  refine ⟨_, _, w, u, hw, hu, fun x hx => ?_⟩
  -- the last byte of the file lies in its last block
  have hle : x < divCeil (v.nodeOf ino).size v.buf.bs * v.buf.bs := by
    have hdiv := (lt_divCeil h.inv.pos (x / v.buf.bs)).mpr
      (Nat.lt_of_le_of_lt (Nat.div_mul_le_self x v.buf.bs) hx)
    exact (Nat.div_lt_iff_lt_mul h.inv.pos).mp hdiv
  rw [blit_start hle, blit_start hx, Nat.zero_add]

/-- A file of 3000 bytes with a hole between its two blocks. -/
def holed : Inode := (((Inode.zeroed.put 0 2 S_IFREG).setSize 3000).setBlock 0 10).setBlock 2 12

/-- The blank volume with that file, whose first block has been changed in the cache only. -/
def unwritten : Vol :=
  { (blank.exec (.write 10 true fun _ _ => 7)).2 with
    icache := fun _ => ⟨12, holed⟩ }

theorem unwritten_ready : unwritten.Ready := by
  have ht : Truth (blank.exec (.write 10 true fun _ _ => 7)).2 _ :=
    blank_mounted.truth.step (e := .op (.write 10 true fun _ _ => 7))
      ⟨⟨by decide, by decide⟩, trivial⟩
  obtain ⟨a, -, hs, hbs, hcap⟩ := @exec_refines _ _ (blank_mounted.shows fun _ => rfl)
    (.write 10 true fun _ _ => 7) ⟨by decide, by decide⟩
  refine ⟨ht.inv, hs.calm, ht.size, ?_, ht.free⟩
  have hblocks : unwritten.fs.blocks = 32 := by decide +kernel
  have hbs' : unwritten.buf.bs = 1024 := hbs
  have hcap' : unwritten.buf.dev.capacity = 64 := hcap
  rw [hblocks, hbs', hcap']
  decide

/-- The loader gets the block that is only in the cache, the hole, and nothing behind the last
block. -/
theorem read_agrees_unwritten : ∃ w got,
    readAllPhys 0 12 (fun _ => 1) unwritten = .ok (3000, got) w ∧
      got 0 = 7 ∧ got 1024 = 0 ∧ got 3072 = 1 := by
  have hnode : unwritten.nodeOf 12 = holed := rfl
  have hsize : holed.size = 3000 := by decide
  have hbs : unwritten.buf.bs = 1024 := by decide +kernel
  have hloc : unwritten.Located 12 := fun h => absurd h (by simp [icached, unwritten])
  have hrouted : ∀ l < divCeil (unwritten.nodeOf 12).size unwritten.buf.bs,
      unwritten.Routed (unwritten.nodeOf 12) l := by
    rw [hnode, hsize, hbs]
    have hin : ∀ b ∈ [10, 12], unwritten.InVolume b := by
      simp only [InVolume, sbBlock, hbs]
      decide +kernel
    intro l hl b hb hz
    obtain rfl | rfl | rfl : l = 0 ∨ l = 1 ∨ l = 2 := by
      have : divCeil 3000 1024 = 3 := by decide
      omega
    · exact hin b (by
        obtain rfl : b = 10 := List.mem_singleton.mp hb
        simp)
    · exact absurd (List.mem_singleton.mp hb) hz
    · exact hin b (by
        obtain rfl : b = 12 := List.mem_singleton.mp hb
        simp)
  obtain ⟨-, hall, -⟩ := read_agrees unwritten_ready hloc hrouted 0
  obtain ⟨w, hw⟩ := hall fun _ => 1
  rw [hnode, hsize, hbs] at hw
  refine ⟨w, _, hw, ?_, ?_, ?_⟩
  · rw [blit_start (by decide)]
    decide +kernel
  · rw [blit_start (by decide)]
    decide +kernel
  · rw [blit_outside (by decide)]

end Pulsar.Ext2.Vol

import Pulsar.Ext2.CacheRun

/-!
# What `sync` says after failures

Any transfer may fail here.  `Vol.lastWritten` is the array of last contents a history of
operations has produced, `Truth` the invariant: the cache shows that array, no slot holds the
superblock, and the counters in it are `SB_COUNTS`.

The last of these is what a failed `flush_super` breaks: `sync` records the counters as written
whether or not they were (`sync_lies`).  As long as no superblock write fails, a `sync` that
returns true leaves every block and the counters on disk (`sync_truthful`).
-/

namespace Pulsar.Ext2

/-- A step of a history: an operation of the cache, or new free counters in memory. -/
inductive Event where
  | op (o : Op)
  | counters (freeBlocks freeInodes : UInt32)

namespace Vol

/-- One step, with its answer. -/
def happen (v : Vol) : Event → Answer × Vol
  | .op o => v.exec o
  | .counters nb ni => (.done, { v with fs := { v.fs with freeBlocks := nb, freeInodes := ni } })

/-- The state after a history. -/
def after (v : Vol) : List Event → Vol
  | [] => v
  | e :: es => (v.happen e).2.after es

/-- The last contents of every block after one step, `m` being those before it. -/
def written (v : Vol) (m : Nat → Bytes) (e : Event) : Nat → Bytes :=
  match e, (v.happen e).1 with
  | .op (.get b ld), .block c _ => Plain.fetch ⟨m, m⟩ b ld c
  | .op (.write b ld f), .block c d =>
    Function.update (Plain.fetch ⟨m, m⟩ b ld c) b (clip v.buf.bs (f d))
  | .op (.forget b), _ => Function.update m b (v.buf.diskBlock b)
  | _, _ => m

/-- The last contents of every block after a history. -/
def lastWritten (v : Vol) (m : Nat → Bytes) : List Event → Nat → Bytes
  | [] => m
  | e :: es => (v.happen e).2.lastWritten (v.written m e) es

/-- Blocks named have `u32` numbers, and the superblock's is not among them. -/
def Names (v : Vol) : Op → Prop
  | .get b _ | .write b _ _ => b < 2 ^ 32 ∧ b ≠ v.sbBlock
  | .prefetch b m => b + min m MAX_SEGS ≤ 2 ^ 32 ∧ ∀ k < min m MAX_SEGS, b + k ≠ v.sbBlock
  | .forget b => b ≠ v.sbBlock
  | .flush | .sync _ => True

/-- The superblock write of a `sync`, if it makes one, does not fail. -/
def Super (v : Vol) : Op → Prop
  | .sync _ => v.fs.mounted = true → v.sbCounts ≠ v.counts → v.buf.dev.Accepts SB_LBA SB_SECTORS
  | _ => True

/-- What a step of a history is like. -/
def Allowed (v : Vol) : Event → Prop
  | .op o => v.Names o ∧ v.Super o
  | .counters _ _ => True

/-- What a history is like. -/
def AllAllowed (v : Vol) : List Event → Prop
  | [] => True
  | e :: es => v.Allowed e ∧ (v.happen e).2.AllAllowed es

/-- The cache shows the array `m`, and the superblock is what `SB_COUNTS` says. -/
structure Truth (v : Vol) (m : Nat → Bytes) : Prop where
  size : v.buf.bs = 1024 ∨ v.buf.bs = 2048 ∨ v.buf.bs = 4096
  inv : v.buf.Inv
  free : ∀ i, ¬ v.buf.Holds i v.sbBlock
  sees : ∀ b, b ≠ v.sbBlock → v.buf.view b = m b
  super : v.diskCounts = (v.sbCounts.1.toNat, v.sbCounts.2.toNat)
  mounted : v.fs.mounted = true

variable {v : Vol} {m : Nat → Bytes}

theorem Truth.within (h : v.Truth m) {x : Nat} (hx : x < 1024) :
    v.sbBlock * v.buf.bs ≤ SB_LBA * SECTOR_SIZE ∧
      SB_LBA * SECTOR_SIZE + x - v.sbBlock * v.buf.bs < v.buf.bs := by
  simp only [sbBlock, SB_LBA, SECTOR_SIZE]
  rcases h.size with e | e | e <;> rw [e] <;> omega

theorem Truth.diskCounts_congr (h : v.Truth m) {w : Vol}
    (hb : ∀ x < v.buf.bs, w.buf.dev.bytes (v.sbBlock * v.buf.bs + x) =
      v.buf.dev.bytes (v.sbBlock * v.buf.bs + x)) : w.diskCounts = v.diskCounts := by
  have key : ∀ x < 1024, w.buf.dev.bytes (SB_LBA * SECTOR_SIZE + x) =
      v.buf.dev.bytes (SB_LBA * SECTOR_SIZE + x) := fun x hx => by
    obtain ⟨h₁, h₂⟩ := h.within hx
    have := hb _ h₂
    rwa [Nat.add_sub_cancel' (by omega)] at this
  have hget : ∀ off, off + 4 ≤ 1024 → leGet w.buf.dev.bytes (SB_LBA * SECTOR_SIZE + off) 4 =
      leGet v.buf.dev.bytes (SB_LBA * SECTOR_SIZE + off) 4 := fun off hoff =>
    leGet_congr fun k hk => by rw [Nat.add_assoc]; exact key (off + k) (by omega)
  exact Prod.ext (hget 12 (by decide)) (hget 16 (by decide))

theorem Truth.next (h : v.Truth m) {t : Buf} {m' : Nat → Bytes} (hI : t.Inv) {N : Nat → Prop}
    (hK : Buf.Keeps N v.buf t) (hN : ¬ N v.sbBlock)
    (hv : ∀ b, b ≠ v.sbBlock → t.view b = m' b) : Truth { v with buf := t } m' := by
  have hsb : sbBlock { v with buf := t } = v.sbBlock := by simp only [sbBlock, hK.bs]
  refine ⟨by rw [hK.bs]; exact h.size, hI, fun i hi => ?_, fun b hb => hv b (hsb ▸ hb), ?_,
    h.mounted⟩
  · rw [hsb] at hi
    exact (hK.held hi).elim hN fun ⟨j, hj⟩ => h.free j hj
  · rw [h.diskCounts_congr (w := { v with buf := t }) (hK.frame h.free hN)]
    exact h.super

theorem Truth.flush (h : v.Truth m) : Truth { v with buf := v.buf.flushDirty.2 } m := by
  obtain ⟨h₁, h₂, h₃, -, -⟩ := Buf.flushDirty_spec h.inv
  exact h.next h₁ h₃ id fun b hb => (congrFun h₂ b).trans (h.sees b hb)

theorem Truth.syncSuper (h : v.Truth m) (now : UInt32) (hs : v.Super (.sync now)) :
    (v.syncSuper now).2.Truth m ∧
      (v.syncSuper now).2.sbCounts = v.counts ∧ (v.syncSuper now).2.fs = v.fs := by
  unfold Vol.syncSuper
  by_cases hc : v.fs.mounted = true ∧ v.sbCounts ≠ v.counts
  · rw [if_pos hc]
    have hacc := hs hc.1 hc.2
    set w : Vol := { (v.flushSuper now).2 with sbCounts := v.counts } with hw
    have hdev : w.buf = { v.buf with dev := (v.buf.dev.write SB_LBA SB_SECTORS (v.newSuper now)).2 } :=
      rfl
    have hout : ∀ c, c ≠ v.sbBlock → ∀ x < v.buf.bs,
        w.buf.dev.bytes (c * v.buf.bs + x) = v.buf.dev.bytes (c * v.buf.bs + x) := fun c hcb x hx => by
      rw [hdev]
      refine Dev.write_outside ?_
      have h₁ := h.within (x := 0) (by decide)
      have h₂ := h.within (x := 1023) (by decide)
      rcases Buf.apart hcb hx with e | e
      · left; omega
      · right; simp only [SB_LBA, SECTOR_SIZE, SB_SECTORS] at *; omega
    obtain ⟨hI, hv⟩ := h.inv.setDevFree _ h.free hout
    refine ⟨⟨h.size, hI, h.free, fun b hb => (hv b hb).trans (h.sees b hb), ?_, h.mounted⟩, rfl, rfl⟩
    have hbytes : ∀ k < 1024, w.buf.dev.bytes (SB_LBA * SECTOR_SIZE + k) = v.newSuper now k :=
      fun k hk => by
        rw [hdev]
        simp only [Dev.write_of_accepts hacc]
        exact Dev.splice_inside (by simp only [SB_SECTORS, SECTOR_SIZE]; exact hk)
    have hget : ∀ off, off + 4 ≤ 1024 → leGet w.buf.dev.bytes (SB_LBA * SECTOR_SIZE + off) 4 =
        leGet (v.newSuper now) off 4 := fun off hoff =>
      leGet_shift fun k hk => by rw [Nat.add_assoc]; exact hbytes (off + k) (by omega)
    have h12 : leGet (v.newSuper now) 12 4 = v.fs.freeBlocks.toNat := by
      rw [newSuper, leGet_lePut_of_disjoint (by omega), leGet_lePut_of_disjoint (by omega),
        leGet_lePut]
      exact Nat.mod_eq_of_lt v.fs.freeBlocks.toNat_lt
    have h16 : leGet (v.newSuper now) 16 4 = v.fs.freeInodes.toNat := by
      rw [newSuper, leGet_lePut_of_disjoint (by omega), leGet_lePut]
      exact Nat.mod_eq_of_lt v.fs.freeInodes.toNat_lt
    exact Prod.ext ((hget 12 (by decide)).trans h12) ((hget 16 (by decide)).trans h16)
  · rw [if_neg hc]
    refine ⟨h, ?_, rfl⟩
    by_contra hne
    exact hc ⟨h.mounted, hne⟩

theorem Truth.step (h : v.Truth m) {e : Event} (ha : v.Allowed e) :
    (v.happen e).2.Truth (v.written m e) := by
  cases e with
  | counters nb ni => exact ⟨h.size, h.inv, h.free, h.sees, h.super, h.mounted⟩
  | op o =>
      obtain ⟨hn, hs⟩ := ha
      cases o with
      | get b ld =>
          have hspec := Buf.bget_spec h.inv hn.1 ld
          simp only [written, happen, exec]
          cases he : Buf.bget b ld v.buf with
          | ok i t =>
              obtain ⟨h₁, h₂, h₃, h₄⟩ := hspec.ok he
              refine h.next h₁ h₃ (fun e => hn.2 e.symm) fun c hc => (congrFun h₄ c).trans ?_
              exact Plain.fetch_agree (a := ⟨v.buf.view, m⟩) (h.sees c hc) b ld _
          | error e t =>
              obtain ⟨-, h₁, h₂, h₃⟩ := hspec.error he
              exact h.next h₁ h₃ (fun e => hn.2 e.symm) fun c hc => by rw [h₂]; exact h.sees c hc
      | write b ld f =>
          have hspec := Buf.bget_spec h.inv hn.1 ld
          simp only [written, happen, exec]
          cases he : Buf.bget b ld v.buf with
          | ok i t =>
              obtain ⟨h₁, h₂, h₃, h₄⟩ := hspec.ok he
              obtain ⟨g₁, g₂, g₃, -⟩ := Buf.bdirty_poke_spec h₁ h₂ f
              refine h.next g₁ (h₃.trans (g₃.mono fun _ hx => hx.elim)) (fun e => hn.2 e.symm)
                fun c hc => ?_
              rw [g₂, h₁.view_held h₂, h₃.bs]
              by_cases e : c = b
              · subst e
                simp only [Function.update_self]
              · simp only [Function.update_of_ne e]
                refine (congrFun h₄ c).trans ?_
                exact Plain.fetch_agree (a := ⟨v.buf.view, m⟩) (h.sees c hc) b ld _
          | error e t =>
              obtain ⟨-, h₁, h₂, h₃⟩ := hspec.error he
              exact h.next h₁ h₃ (fun e => hn.2 e.symm) fun c hc => by rw [h₂]; exact h.sees c hc
      | forget b =>
          obtain ⟨h₁, h₂, h₃, -⟩ := Buf.bforget_spec h.inv b
          refine h.next h₁ h₃ id fun c hc => ?_
          rw [h₂]
          by_cases e : c = b
          · subst e; simp [written]
          · simp only [written, Function.update_of_ne e]; exact h.sees c hc
      | prefetch b n =>
          obtain ⟨h₁, h₂, h₃, -⟩ := Buf.prefetch_spec h.inv hn.1
          refine h.next h₁ h₃ ?_ fun c hc => (congrFun h₂ c).trans (h.sees c hc)
          rintro ⟨k, hk, e⟩
          have hlt : b + k < 2 ^ 32 := (Nat.add_lt_add_left hk b).trans_le hn.1
          rw [Nat.mod_eq_of_lt hlt] at e
          exact hn.2 k hk e.symm
      | flush => exact h.flush
      | sync now => exact (h.syncSuper now hs).1.flush

theorem Truth.after : ∀ (es : List Event) {v : Vol} {m : Nat → Bytes}, v.Truth m →
    v.AllAllowed es → (v.after es).Truth (v.lastWritten m es)
  | [], _, _, h, _ => h
  | _ :: es, _, _, h, ha => Truth.after es (h.step ha.1) ha.2

theorem Mounted.truth (h : v.Mounted) : v.Truth v.buf.diskBlock where
  size := h.size
  inv := h.inv
  free := fun i => h.unheld i _
  sees := fun b _ => h.inv.view_unheld fun i => h.unheld i b
  super := h.super
  mounted := h.mounted

/-- **`sync` tells the truth** as long as no superblock write fails: when it returns true nothing
is dirty, the disk has what a reader sees, which is the last contents of every block, and the
counters in the superblock on disk are those in memory. -/
theorem sync_truthful (h : v.Mounted) (es : List Event) (ha : v.AllAllowed es) (now : UInt32)
    (hs : (v.after es).Allowed (.op (.sync now))) (hok : ((v.after es).sync now).1 = true) :
    let w := ((v.after es).sync now).2
    (∀ i < SLOTS, ¬ w.buf.Dirty i) ∧ (∀ b, w.buf.diskBlock b = w.buf.view b) ∧
      (∀ b, b ≠ w.sbBlock → w.buf.diskBlock b = v.lastWritten v.buf.diskBlock es b) ∧
      w.diskCounts = (w.fs.freeBlocks.toNat, w.fs.freeInodes.toNat) := by
  have ht := h.truth.after es ha
  generalize v.after es = u at *
  obtain ⟨h₁, hc, hfs⟩ := ht.syncSuper now hs.2
  have h₂ := h₁.flush
  obtain ⟨-, -, -, -, hd⟩ := Buf.flushDirty_spec h₁.inv
  have hclean := hd ((Bool.and_eq_true ..).mp hok).1
  have hdisk := h₂.inv.disk_eq_view hclean
  refine ⟨hclean, hdisk, fun b hb => (hdisk b).trans (h₂.sees b hb), h₂.super.trans ?_⟩
  show ((u.syncSuper now).2.sbCounts.1.toNat, (u.syncSuper now).2.sbCounts.2.toNat) =
    ((u.syncSuper now).2.fs.freeBlocks.toNat, (u.syncSuper now).2.fs.freeInodes.toNat)
  rw [hc, hfs]
  rfl

end Vol

/-- The blank volume: a block is written, the counters move, and everything is synced. -/
theorem sync_truthful_blank :
    let es : List Event := [.op (.write 3 true fun _ _ => 7), .counters 4 9]
    let w := ((blank.after es).sync 77).2
    (∀ i < SLOTS, ¬ w.buf.Dirty i) ∧ (∀ b, w.buf.diskBlock b = w.buf.view b) ∧
      (∀ b, b ≠ w.sbBlock → w.buf.diskBlock b = blank.lastWritten blank.buf.diskBlock es b) ∧
      w.diskCounts = (w.fs.freeBlocks.toNat, w.fs.freeInodes.toNat) :=
  Vol.sync_truthful blank_mounted [.op (.write 3 true fun _ _ => 7), .counters 4 9]
    ⟨⟨⟨by decide, by decide⟩, trivial⟩, trivial, trivial⟩ 77
    ⟨trivial, fun _ _ => by decide +kernel⟩ (by decide +kernel)

/-- The blank volume on a device that fails its first request. -/
def flaky : Vol := { blank with buf := { blank.buf with dev := { blank.buf.dev with
  fails := fun n => n == 0 } } }

theorem flaky_mounted : flaky.Mounted where
  size := Or.inl rfl
  empty := fun _ => rfl
  clean := rfl
  counts := rfl
  super := by decide
  mounted := rfl

/-- **`sync` lies**: the counters move, the first `sync` fails to write the superblock and says so,
and the next one returns true without having written it. -/
theorem sync_lies :
    let u := flaky.after [.counters 4 9, .op (.sync 76)]
    flaky.Mounted ∧ (u.sync 77).1 = true ∧
      (u.sync 77).2.diskCounts ≠ ((u.sync 77).2.fs.freeBlocks.toNat,
        (u.sync 77).2.fs.freeInodes.toNat) :=
  ⟨flaky_mounted, by decide +kernel, by decide +kernel⟩

end Pulsar.Ext2

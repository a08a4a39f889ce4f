import Pulsar.Ext2.CacheInv

/-!
# The operations of the buffer cache

What each operation of the cache does to the view, whatever the device does: `bget` leaves it
alone (but shows zeros for a new block), a change in place followed by `bdirty` moves one block,
`flush_dirty` and `prefetch` leave it alone, `bforget` shows the disk's block again.  An error
is always `EIO` and leaves the view as it was.

`Keeps N s t` is the frame: from `s` to `t` no block outside `N` came into the cache, and a
block that was in no slot of `s` and is not in `N` is on the disk of `t` as it was.
-/

namespace Pulsar.Ext2.Buf

variable {s : Buf}

/-- From `s` to `t` only blocks of `N` came into the cache, and the disk changed only inside
blocks that were in it. -/
structure Keeps (N : Nat → Prop) (s t : Buf) : Prop where
  bs : t.bs = s.bs
  cap : t.dev.capacity = s.dev.capacity
  fails : t.dev.fails = s.dev.fails
  held : ∀ {i c}, t.Holds i c → N c ∨ ∃ j, s.Holds j c
  frame : ∀ {c}, (∀ i, ¬ s.Holds i c) → ¬ N c →
    ∀ x < s.bs, t.dev.bytes (c * s.bs + x) = s.dev.bytes (c * s.bs + x)

namespace Keeps

variable {N : Nat → Prop} {t u : Buf}

theorem refl (s : Buf) : Keeps N s s :=
  ⟨rfl, rfl, rfl, fun h => Or.inr ⟨_, h⟩, fun _ _ _ _ => rfl⟩

theorem trans (h : Keeps N s t) (h' : Keeps N t u) : Keeps N s u where
  bs := h'.bs.trans h.bs
  cap := h'.cap.trans h.cap
  fails := h'.fails.trans h.fails
  held := fun hi => (h'.held hi).elim Or.inl fun ⟨_, hj⟩ => h.held hj
  frame := fun {c} hc hn x hx => by
    have hc' : ∀ i, ¬ t.Holds i c := fun i hi => (h.held hi).elim hn fun ⟨j, hj⟩ => hc j hj
    have := h'.frame hc' hn x (h.bs ▸ hx)
    rw [h.bs] at this
    exact this.trans (h.frame hc hn x hx)

theorem mono {M : Nat → Prop} (h : Keeps N s t) (hNM : ∀ c, N c → M c) : Keeps M s t where
  bs := h.bs
  cap := h.cap
  fails := h.fails
  held := fun hi => (h.held hi).imp_left (hNM _)
  frame := fun hc hn => h.frame hc fun hN => hn (hNM _ hN)

/-- The same slots hold the same blocks, over the same device. -/
theorem of_eq (hbs : t.bs = s.bs) (hd : t.dev = s.dev)
    (hh : ∀ {i c}, t.Holds i c → N c ∨ s.Holds i c) : Keeps N s t where
  bs := hbs
  cap := by rw [hd]
  fails := by rw [hd]
  held := fun hi => (hh hi).imp_right fun h => ⟨_, h⟩
  frame := fun _ _ _ _ => by rw [hd]

end Keeps

/-! ### Writing back, reading in -/

theorem writeBack_spec (h : s.Inv) (v : Nat) (hv : v < SLOTS) :
    (s.writeBack v).2.Inv ∧ (s.writeBack v).2.view = s.view ∧
      Keeps (fun _ => False) s (s.writeBack v).2 ∧
      (∀ i b, (s.writeBack v).2.Holds i b ↔ s.Holds i b) ∧
      ((s.writeBack v).1 = true → ¬ (s.writeBack v).2.Dirty v) := by
  by_cases hd : s.Dirty v
  · have hb : s.Holds v (s.slot v).blk := ⟨hv, hd.1, rfl⟩
    set b := (s.slot v).blk with hbdef
    let w := s.dev.write (b * (s.bs / SECTOR_SIZE)) (s.bs / SECTOR_SIZE) (s.data v)
    have hout : ∀ c, (∀ i, s.Holds i c → ¬ s.Dirty i) → ∀ x < s.bs,
        w.2.bytes (c * s.bs + x) = s.dev.bytes (c * s.bs + x) := fun c hc x hx => by
      refine Dev.write_outside ?_
      rw [h.sectors, h.sector_count]
      exact apart (fun e => by subst e; exact hc v hb hd) hx
    obtain ⟨hInv, hview⟩ := h.setDev w.2 hout
    have hK : Keeps (fun _ => False) s { s with dev := w.2 } :=
      ⟨rfl, by simp [w], by simp [w], fun hi => Or.inr ⟨_, hi⟩,
        fun hc _ => hout _ fun i hi => absurd hi (hc i)⟩
    have hform : s.writeBack v = if w.1 then
        (true, { (({ s with dev := w.2 } : Buf).setSlot v { s.slot v with dirty := false }) with
          dirtyCount := s.dirtyCount - 1 }) else (false, { s with dev := w.2 }) := by
      have hc : ((s.slot v).valid && (s.slot v).dirty) = true := by simp [hd.1, hd.2]
      simp only [writeBack, hc, if_true]
      rfl
    by_cases hw : w.1 = true
    · rw [hform, if_pos hw]
      have hacc := Dev.write_fst.mp hw
      have hdisk : s.data v = diskBlock { s with dev := w.2 } b := by
        rw [← h.canon hb]
        simp only [diskBlock, w, Dev.write_of_accepts hacc]
        refine clip_congr fun x hx => ?_
        rw [← h.sectors, Dev.splice_inside (by rw [h.sector_count]; exact hx)]
      obtain ⟨hInv', hview'⟩ := hInv.clean1 hb hd.2 hdisk
      have hh : ∀ i c, Holds { (({ s with dev := w.2 } : Buf).setSlot v
          { s.slot v with dirty := false }) with dirtyCount := s.dirtyCount - 1 } i c ↔
          s.Holds i c := fun i c => by by_cases e : i = v <;> simp [Holds, Function.update, e]
      exact ⟨hInv', hview'.trans hview,
        hK.trans (.of_eq rfl rfl fun hi => Or.inr ((hh _ _).mp hi)), hh, fun _ hD => by
          simp [Dirty] at hD⟩
    · rw [hform, if_neg hw]
      exact ⟨hInv, hview, hK, fun _ _ => Iff.rfl, fun hf => Bool.noConfusion hf⟩
  · have : ((s.slot v).valid && (s.slot v).dirty) = false := by
      rw [Bool.and_eq_false_iff, ← Bool.not_eq_true, ← Bool.not_eq_true, ← not_and_or]
      exact hd
    simp only [writeBack, this]
    exact ⟨h, rfl, .refl s, fun _ _ => Iff.rfl, fun _ => hd⟩

/-- The bytes of an invalid slot and the device's request counter are nobody's business. -/
theorem Inv.scratch (h : s.Inv) {v : Nat} (hv : (s.slot v).valid = false) {dev : Dev}
    {d : Nat → Bytes} (hcap : dev.capacity = s.dev.capacity) (hbytes : dev.bytes = s.dev.bytes)
    (hfails : dev.fails = s.dev.fails) (hd : ∀ j, j ≠ v → d j = s.data j) :
    Inv { s with dev := dev, data := d } ∧ view { s with dev := dev, data := d } = s.view ∧
      Keeps (fun _ => False) s { s with dev := dev, data := d } := by
  have hne : ∀ {i c}, s.Holds i c → i ≠ v := fun hi e => by
    subst e; exact Bool.noConfusion (hv.symm.trans hi.2.1)
  have hblk : ∀ c, diskBlock { s with dev := dev, data := d } c = s.diskBlock c := fun c => by
    simp only [diskBlock, hbytes]
  have hInv : Inv { s with dev := dev, data := d } :=
    { sector := h.sector
      pos := h.pos
      home := h.home
      uniq := h.uniq
      num := h.num
      canon := fun {i c} hi => by
        show clip s.bs (d i) = d i
        rw [hd i (hne hi)]; exact h.canon hi
      clean := fun {i c} hi hc => by
        show d i = _
        rw [hd i (hne hi), hblk]; exact h.clean hi hc
      count := h.count }
  exact ⟨hInv, view_eq_of_holds h hInv (fun _ _ => Iff.rfl) (fun i c hi => hd i (hne hi))
    fun c _ => hblk c, ⟨rfl, hcap, hfails, fun hi => Or.inr ⟨_, hi⟩,
      fun _ _ _ _ => by rw [hbytes]⟩⟩

/-- Reading into a slot that holds nothing. -/
theorem load_spec (h : s.Inv) {v : Nat} (hv : (s.slot v).valid = false) (b : Nat) :
    (s.load v b).2.Inv ∧ (s.load v b).2.view = s.view ∧ (s.load v b).2.slot = s.slot ∧
      Keeps (fun _ => False) s (s.load v b).2 ∧
      ((s.load v b).1 = true → (s.load v b).2.data v = (s.load v b).2.diskBlock b) := by
  have hok : (s.load v b).1 = true → (s.load v b).2.data v = (s.load v b).2.diskBlock b := by
    intro hok
    simp only [load, Dev.read_of_accepts (Dev.read_fst.mp hok), setData_data, Function.update_self,
      diskBlock, setData_dev, setData_bs, h.sectors]
  cases hr : (s.dev.read (b * (s.bs / SECTOR_SIZE)) (s.bs / SECTOR_SIZE)).2.1 with
  | none =>
      obtain ⟨h₁, h₂, h₃⟩ := h.scratch hv (d := s.data) (Dev.read_capacity ..)
        (Dev.read_bytes ..) (Dev.read_fails ..) fun _ _ => rfl
      simp only [load, hr] at hok ⊢
      exact ⟨h₁, h₂, trivial, h₃, hok⟩
  | some r =>
      obtain ⟨h₁, h₂, h₃⟩ := h.scratch hv (d := Function.update s.data v (clip s.bs r))
        (Dev.read_capacity ..) (Dev.read_bytes ..) (Dev.read_fails ..)
        fun j hj => Function.update_of_ne hj _ _
      simp only [load, hr, setData_slot] at hok ⊢
      exact ⟨h₁, h₂, trivial, h₃, hok⟩

/-! ### `bget` -/

theorem claim_spec (h : s.Inv) {v : Nat} (hv : ¬ s.Dirty v) (b : Nat) :
    (s.claim v b).Inv ∧ (s.claim v b).view = s.view ∧ Keeps (fun _ => False) s (s.claim v b) ∧
      ∀ {i c}, (s.claim v b).Holds i c → s.Holds i c := by
  obtain ⟨h₁, h₂⟩ := h.drop hv (x := .taken b s.tick) rfl
  have hh : ∀ {i c}, (s.claim v b).Holds i c → s.Holds i c := fun {i c} hi => by
    by_cases e : i = v
    · subst e; simp [Holds, claim, Slot.taken] at hi
    · simpa [Holds, claim, Function.update_of_ne e] using hi
  exact ⟨h₁, h₂, .of_eq rfl rfl fun hi => Or.inr (hh hi), hh⟩

/-- A slot taken for `b` gets the disk's contents, or zeros. -/
theorem supply_spec (h : s.Inv) {v b : Nat} (hv : (s.slot v).valid = false)
    (hblk : (s.slot v).blk = b) (hdt : (s.slot v).dirty = false) (hw : v ∈ ways b)
    (hnone : ∀ i, ¬ s.Holds i b) (hb : b < 2 ^ 32) (ld : Bool) :
    (s.supply v b ld).2.Inv ∧ Keeps (· = b) s (s.supply v b ld).2 ∧
      ((s.supply v b ld).1 = false → (s.supply v b ld).2.view = s.view) ∧
      ((s.supply v b ld).1 = true → (s.supply v b ld).2.Holds v b ∧
        (s.supply v b ld).2.view = if ld then s.view else Function.update s.view b fun _ => 0) := by
  have hheld : ∀ {t : Buf} (u : UInt32) (dt : Bool),
      (t.slot = Function.update s.slot v { blk := b, valid := true, dirty := dt, used := u }) →
      ∀ {i c}, t.Holds i c → c = b ∨ s.Holds i c := by
    intro t u dt ht i c hi
    by_cases e : i = v
    · subst e
      left
      simpa [Holds, ht] using hi.2.2.symm
    · right
      simpa [Holds, ht, Function.update_of_ne e] using hi
  cases ld with
  | false =>
      obtain ⟨h₁, h₂, h₃⟩ := h.install hv hw hnone hb (fun _ => 0) true (s.slot v).used
        fun e => Bool.noConfusion e
      have hform : s.supply v b false = (true, { ((s.setData v fun _ => 0).setSlot v
          { blk := b, valid := true, dirty := true, used := (s.slot v).used }) with
          dirtyCount := s.dirtyCount + 1 }) := by
        simp only [supply, Bool.false_eq_true, if_false, hblk]
      simp only [if_true, clip_zero] at h₁ h₂ h₃
      rw [hform]
      exact ⟨h₁, .of_eq rfl rfl (hheld (s.slot v).used true rfl),
        fun e => Bool.noConfusion e, fun _ => ⟨h₂, h₃⟩⟩
  | true =>
      obtain ⟨h₁, h₂, h₃, h₄, h₅⟩ := load_spec h hv b
      set r := s.load v b with hr
      have hK := h₄.mono (M := (· = b)) fun _ h => h.elim
      simp only [supply, if_true, ← hr]
      by_cases hok : r.1 = true
      · have hcan : clip r.2.bs (r.2.data v) = r.2.data v := by rw [h₅ hok, diskBlock, clip_clip]
        have hnone' : ∀ i, ¬ r.2.Holds i b := fun i hi => hnone i (by simpa [Holds, h₃] using hi)
        obtain ⟨g₁, g₂, g₃⟩ := h₁.install (v := v) (by rw [h₃]; exact hv) hw hnone' hb
          (r.2.data v) false (s.slot v).used fun _ => by rw [hcan, h₅ hok]
        -- filling the slot with what it already has is no change
        have hsame : r.2.setData v (r.2.data v) = r.2 := by
          simp only [setData, hcan, Function.update_eq_self]
        simp only [Bool.false_eq_true, if_false, Nat.add_zero, hsame, hcan] at g₁ g₂ g₃
        have hx : ({ r.2.slot v with valid := true } : Slot) =
            { blk := b, valid := true, dirty := false, used := (s.slot v).used } := by
          simp only [h₃, hblk, hdt]
        rw [if_pos hok, hx]
        have hview : (r.2.setSlot v
            { blk := b, valid := true, dirty := false, used := (s.slot v).used }).view = s.view := by
          refine g₃.trans ?_
          rw [h₅ hok, ← h₁.view_unheld hnone', Function.update_eq_self, h₂]
        exact ⟨g₁, hK.trans (.of_eq rfl rfl fun hi => by
            have := hheld (s.slot v).used false (by simp [h₃]) hi
            exact this.imp_right fun hi => by simpa [Holds, h₃] using hi),
          fun e => Bool.noConfusion (hok.symm.trans e), fun _ => ⟨g₂, hview⟩⟩
      · rw [if_neg hok]
        exact ⟨h₁, hK, fun _ => h₂, fun e => absurd e hok⟩

/-- **`bget`.**  On success the block is in the slot returned, and the view has not moved except
that a block newly taken without loading shows zeros; on failure the view has not moved. -/
theorem bget_spec (h : s.Inv) {b : Nat} (hb : b < 2 ^ 32) (ld : Bool) :
    wp (bget b ld)
      (fun i t => t.Inv ∧ t.Holds i b ∧ Keeps (· = b) s t ∧
        t.view = if ld || s.cached b then s.view else Function.update s.view b fun _ => 0)
      (fun e t => e = EIO ∧ t.Inv ∧ t.view = s.view ∧ Keeps (· = b) s t) s := by
  obtain ⟨h₁, hv₁⟩ : Inv { s with tick := s.tick + 1 } ∧ view { s with tick := s.tick + 1 } = s.view := by
    have := h.touch 0 (s.slot 0).used (s.tick + 1)
    simpa [setSlot] using this
  have hK₁ : Keeps (· = b) s { s with tick := s.tick + 1 } := .of_eq rfl rfl fun hi => Or.inr hi
  have hc : s.cached b = (find { s with tick := s.tick + 1 } b).isSome := rfl
  rw [hc, ← hv₁]
  unfold wp bget
  generalize ({ s with tick := s.tick + 1 } : Buf) = s₁ at *
  dsimp only
  cases hf : s₁.find b with
  | some i =>
      obtain ⟨h₂, hv₂⟩ := h₁.touch i s₁.tick s₁.tick
      have hh : ∀ {j c}, (s₁.setSlot i { s₁.slot i with used := s₁.tick }).Holds j c ↔
          s₁.Holds j c := by
        intro j c; by_cases e : j = i <;> simp [Holds, Function.update, e]
      refine ⟨h₂, hh.mpr (holds_of_find hf), hK₁.trans (.of_eq rfl rfl fun hj =>
        Or.inr (hh.mp hj)), ?_⟩
      rw [Option.isSome_some, Bool.or_true, if_pos rfl]
      exact hv₂
  | none =>
      have hnone : ∀ i, ¬ s₁.Holds i b := h₁.find_none.mp hf
      have hvw := victim_mem_ways s₁ s₁.tick b
      simp only [bgetMiss]
      set v := s₁.victim s₁.tick (ways b) (setOf b * WAYS)
      obtain ⟨h₂, hv₂, hK₂, hh₂, hnd⟩ := writeBack_spec h₁ v (lt_slots_of_mem_ways hvw)
      set w := s₁.writeBack v
      have hK₂' : Keeps (· = b) s w.2 := hK₁.trans (hK₂.mono fun _ h => h.elim)
      by_cases hok : w.1 = true
      · obtain ⟨h₃, hv₃, hK₃, hh₃⟩ := claim_spec h₂ (hnd hok) b
        have hx : (w.2.claim v b).slot v = .taken b w.2.tick := by simp [claim]
        obtain ⟨h₄, hK₄, hfail, hgood⟩ := supply_spec h₃ (v := v) (b := b) (by rw [hx]; rfl)
          (by rw [hx]; rfl) (by rw [hx]; rfl) hvw (fun i hi => hnone i ((hh₂ i b).mp (hh₃ hi))) hb ld
        have hK₄' := (hK₂'.trans (hK₃.mono fun _ h => h.elim)).trans hK₄
        rw [if_pos hok]
        by_cases hok' : ((w.2.claim v b).supply v b ld).1 = true
        · obtain ⟨hhold, hview⟩ := hgood hok'
          rw [if_pos hok']
          refine ⟨h₄, hhold, hK₄', ?_⟩
          simp only [Option.isSome_none, Bool.or_false]
          rw [hview, hv₃, hv₂]
        · rw [if_neg hok']
          exact ⟨rfl, h₄, (hfail (by simpa using hok')).trans (hv₃.trans hv₂), hK₄'⟩
      · rw [if_neg hok]
        exact ⟨rfl, h₂, hv₂, hK₂'⟩

end Pulsar.Ext2.Buf

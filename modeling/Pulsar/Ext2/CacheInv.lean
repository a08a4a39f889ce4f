import Pulsar.Lib.Count
import Pulsar.Ext2.Cache

/-!
# What the buffer cache keeps

`Buf.Inv`: no block is in two valid slots, every valid slot is in the set of its block, a clean
slot holds what the disk holds, and `DIRTY_COUNT` counts the valid dirty slots.  `Buf.view s b`
is what a reader of block `b` sees: the contents of the slot that holds it, or the disk's.

Each primitive change of the slot table keeps the invariant and moves the view in a way stated
next to it; `bget`, `bdirty`, `bforget` and `prefetch` are put together from them.  Nothing here
assumes that transfers succeed.
-/

namespace Pulsar.Ext2.Buf

/-- Slot `i` is valid and dirty. -/
def Dirty (s : Buf) (i : Nat) : Prop := (s.slot i).valid = true ∧ (s.slot i).dirty = true

instance (s : Buf) : DecidablePred s.Dirty := fun i => by unfold Dirty; infer_instance

/-- Slot `i` holds block `b`. -/
def Holds (s : Buf) (i b : Nat) : Prop := i < SLOTS ∧ (s.slot i).valid = true ∧ (s.slot i).blk = b

/-- What holds of the cache between two calls. -/
structure Inv (s : Buf) : Prop where
  sector : SECTOR_SIZE ∣ s.bs
  pos : 0 < s.bs
  home : ∀ {i b}, s.Holds i b → i ∈ ways b
  uniq : ∀ {i j b}, s.Holds i b → s.Holds j b → i = j
  num : ∀ {i b}, s.Holds i b → b < 2 ^ 32
  canon : ∀ {i b}, s.Holds i b → clip s.bs (s.data i) = s.data i
  clean : ∀ {i b}, s.Holds i b → (s.slot i).dirty = false → s.data i = s.diskBlock b
  count : s.dirtyCount = ((Finset.range SLOTS).filter s.Dirty).card

/-- What a reader of block `b` sees. -/
def view (s : Buf) (b : Nat) : Bytes :=
  match s.find b with
  | some i => s.data i
  | none => s.diskBlock b

variable {s : Buf}

/-! ### Finding a block -/

theorem holds_of_find {b i : Nat} (h : s.find b = some i) : s.Holds i b := by
  have hp := List.find?_some h
  have hm := List.mem_of_find?_eq_some h
  simp only [Bool.and_eq_true, beq_iff_eq] at hp
  exact ⟨lt_slots_of_mem_ways hm, hp⟩

theorem Inv.find_iff (h : s.Inv) {b i : Nat} : s.find b = some i ↔ s.Holds i b := by
  refine ⟨holds_of_find, fun hi => ?_⟩
  cases hf : s.find b with
  | some j => rw [h.uniq hi (holds_of_find hf)]
  | none =>
      have := List.find?_eq_none.mp hf i (h.home hi)
      simp [hi.2.1, hi.2.2] at this

theorem Inv.find_none (h : s.Inv) {b : Nat} : s.find b = none ↔ ∀ i, ¬ s.Holds i b := by
  rw [Option.eq_none_iff_forall_ne_some]
  exact forall_congr' fun i => not_congr h.find_iff

theorem Inv.view_held (h : s.Inv) {b i : Nat} (hi : s.Holds i b) : s.view b = s.data i := by
  simp only [view, h.find_iff.mpr hi]

theorem Inv.view_unheld (h : s.Inv) {b : Nat} (hb : ∀ i, ¬ s.Holds i b) :
    s.view b = s.diskBlock b := by
  simp only [view, h.find_none.mpr hb]

/-- Two states whose slots hold the same blocks with the same contents, over the same disk. -/
theorem view_eq_of_holds {t : Buf} (hs : s.Inv) (ht : t.Inv)
    (hh : ∀ i b, t.Holds i b ↔ s.Holds i b) (hd : ∀ i b, s.Holds i b → t.data i = s.data i)
    (hk : ∀ b, (∀ i, ¬ s.Holds i b) → t.diskBlock b = s.diskBlock b) : t.view = s.view := by
  funext b
  by_cases hb : ∃ i, s.Holds i b
  · obtain ⟨i, hi⟩ := hb
    rw [hs.view_held hi, ht.view_held ((hh i b).mpr hi), hd i b hi]
  · have hb : ∀ i, ¬ s.Holds i b := fun i hi => hb ⟨i, hi⟩
    rw [hs.view_unheld hb, ht.view_unheld fun i hi => hb i ((hh i b).mp hi), hk b hb]

/-! ### The sectors of a block -/

theorem Inv.sectors (h : s.Inv) (n : Nat) : n * (s.bs / SECTOR_SIZE) * SECTOR_SIZE = n * s.bs := by
  rw [Nat.mul_assoc, Nat.div_mul_cancel h.sector]

theorem Inv.sectors' (h : s.Inv) (n : Nat) : n * s.bs / SECTOR_SIZE * SECTOR_SIZE = n * s.bs :=
  Nat.div_mul_cancel (Dvd.dvd.mul_left h.sector n)

theorem Inv.sector_count (h : s.Inv) : s.bs / SECTOR_SIZE * SECTOR_SIZE = s.bs :=
  Nat.div_mul_cancel h.sector

/-- Bytes of different blocks are apart. -/
theorem apart {n b c x : Nat} (hbc : b ≠ c) (hx : x < n) :
    b * n + x < c * n ∨ c * n + n ≤ b * n + x := by
  rcases Nat.lt_or_gt_of_ne hbc with h | h
  · left
    have : (b + 1) * n ≤ c * n := Nat.mul_le_mul_right n h
    rw [Nat.add_mul] at this
    omega
  · right
    have : (c + 1) * n ≤ b * n := Nat.mul_le_mul_right n h
    rw [Nat.add_mul] at this
    omega

theorem diskBlock_congr {t : Buf} (hbs : t.bs = s.bs) {b : Nat}
    (h : ∀ x < s.bs, t.dev.bytes (b * s.bs + x) = s.dev.bytes (b * s.bs + x)) :
    t.diskBlock b = s.diskBlock b := by
  simp only [diskBlock, hbs]
  exact clip_congr h

/-! ### The primitive changes -/

/-- The device changes, but only inside blocks that a dirty slot holds. -/
theorem Inv.setDev (h : s.Inv) (dev : Dev)
    (hd : ∀ b, (∀ i, s.Holds i b → ¬ s.Dirty i) →
      ∀ x < s.bs, dev.bytes (b * s.bs + x) = s.dev.bytes (b * s.bs + x)) :
    Inv { s with dev := dev } ∧ view { s with dev := dev } = s.view := by
  have hblk : ∀ b, (∀ i, s.Holds i b → ¬ s.Dirty i) →
      diskBlock { s with dev := dev } b = s.diskBlock b := fun b hb =>
    diskBlock_congr (s := s) (t := { s with dev := dev }) rfl (hd b hb)
  have hInv : Inv { s with dev := dev } :=
    { sector := h.sector
      pos := h.pos
      home := h.home
      uniq := h.uniq
      num := h.num
      canon := h.canon
      clean := fun {i b} hi hc => by
        refine (h.clean hi hc).trans (hblk b fun j hj hdj => ?_).symm
        rw [h.uniq hj hi] at hdj
        exact Bool.noConfusion (hc.symm.trans hdj.2)
      count := h.count }
  exact ⟨hInv, view_eq_of_holds h hInv (fun _ _ => Iff.rfl) (fun _ _ _ => rfl)
    fun b hb => hblk b fun i hi => absurd hi (hb i)⟩

/-- The device changes inside a block that no slot holds. -/
theorem Inv.setDevFree (h : s.Inv) (dev : Dev) {b : Nat} (hb : ∀ i, ¬ s.Holds i b)
    (hd : ∀ c, c ≠ b → ∀ x < s.bs, dev.bytes (c * s.bs + x) = s.dev.bytes (c * s.bs + x)) :
    Inv { s with dev := dev } ∧ ∀ c, c ≠ b → view { s with dev := dev } c = s.view c := by
  have hblk : ∀ c, c ≠ b → diskBlock { s with dev := dev } c = s.diskBlock c := fun c hc =>
    diskBlock_congr (s := s) (t := { s with dev := dev }) rfl (hd c hc)
  have hInv : Inv { s with dev := dev } :=
    { sector := h.sector
      pos := h.pos
      home := h.home
      uniq := h.uniq
      num := h.num
      canon := h.canon
      clean := fun {i c} hi hc => (h.clean hi hc).trans (hblk c fun e => hb i (e ▸ hi)).symm
      count := h.count }
  refine ⟨hInv, fun c hc => ?_⟩
  by_cases hx : ∃ i, s.Holds i c
  · obtain ⟨i, hi⟩ := hx
    rw [h.view_held hi, hInv.view_held (i := i) hi]
  · rw [h.view_unheld fun i hi => hx ⟨i, hi⟩, hInv.view_unheld fun i hi => hx ⟨i, hi⟩, hblk c hc]

/-- A change of `used`, or of the clock. -/
theorem Inv.touch (h : s.Inv) (i : Nat) (u t : UInt32) :
    Inv { (s.setSlot i { s.slot i with used := u }) with tick := t } ∧
      view { (s.setSlot i { s.slot i with used := u }) with tick := t } = s.view := by
  have hslot : ∀ j, (Function.update s.slot i { s.slot i with used := u } j).valid = (s.slot j).valid
      ∧ (Function.update s.slot i { s.slot i with used := u } j).blk = (s.slot j).blk
      ∧ (Function.update s.slot i { s.slot i with used := u } j).dirty = (s.slot j).dirty :=
    fun j => by by_cases e : j = i <;> simp [Function.update, e]
  have hh : ∀ j b, Holds { (s.setSlot i { s.slot i with used := u }) with tick := t } j b ↔
      s.Holds j b := fun j b => by simp [Holds, hslot j]
  have hdirty : ∀ j, Dirty { (s.setSlot i { s.slot i with used := u }) with tick := t } j ↔
      s.Dirty j := fun j => by simp [Dirty, hslot j]
  have hInv : Inv { (s.setSlot i { s.slot i with used := u }) with tick := t } :=
    { sector := h.sector
      pos := h.pos
      home := fun hj => h.home ((hh _ _).mp hj)
      uniq := fun hj hk => h.uniq ((hh _ _).mp hj) ((hh _ _).mp hk)
      num := fun hj => h.num ((hh _ _).mp hj)
      canon := fun hj => h.canon ((hh _ _).mp hj)
      clean := fun {j b} hj hc => h.clean ((hh _ _).mp hj) (by simpa [hslot j] using hc)
      count := by
        show s.dirtyCount = _
        rw [h.count]
        exact congrArg Finset.card (Finset.filter_congr fun j _ => (hdirty j).symm) }
  exact ⟨hInv, view_eq_of_holds h hInv hh (fun _ _ _ => rfl) (fun _ _ => rfl)⟩

/-- A dirty slot whose contents have reached the disk becomes clean. -/
theorem Inv.clean1 (h : s.Inv) {i b : Nat} (hi : s.Holds i b) (hd : (s.slot i).dirty = true)
    (hdisk : s.data i = s.diskBlock b) :
    Inv { (s.setSlot i { s.slot i with dirty := false }) with dirtyCount := s.dirtyCount - 1 } ∧
      view { (s.setSlot i { s.slot i with dirty := false }) with
              dirtyCount := s.dirtyCount - 1 } = s.view := by
  let t : Buf := { (s.setSlot i { s.slot i with dirty := false }) with
                    dirtyCount := s.dirtyCount - 1 }
  have hslot : ∀ j, (t.slot j).valid = (s.slot j).valid ∧ (t.slot j).blk = (s.slot j).blk ∧
      (j ≠ i → (t.slot j).dirty = (s.slot j).dirty) := fun j => by
    by_cases e : j = i <;> simp [t, Function.update, e]
  have hti : (t.slot i).dirty = false := by simp [t]
  have hh : ∀ j b, t.Holds j b ↔ s.Holds j b := fun j b => by simp [Holds, hslot j]
  have hInv : t.Inv :=
    { sector := h.sector
      pos := h.pos
      home := fun hj => h.home ((hh _ _).mp hj)
      uniq := fun hj hk => h.uniq ((hh _ _).mp hj) ((hh _ _).mp hk)
      num := fun hj => h.num ((hh _ _).mp hj)
      canon := fun hj => h.canon ((hh _ _).mp hj)
      clean := fun {j c} hj hc => by
        have hj' : s.Holds j c := (hh _ _).mp hj
        by_cases e : j = i
        · subst e
          obtain rfl : c = b := hj'.2.2.symm.trans hi.2.2
          exact hdisk
        · exact h.clean hj' (by rw [← (hslot j).2.2 e]; exact hc)
      count := by
        have key := card_filter_change (p := s.Dirty) (q := t.Dirty) hi.1 fun j hj => by
          simp [Dirty, hslot j, (hslot j).2.2 hj]
        have hp : s.Dirty i := ⟨hi.2.1, hd⟩
        have hq : ¬ t.Dirty i := fun hq => Bool.noConfusion (hti.symm.trans hq.2)
        rw [if_pos hp, if_neg hq] at key
        show s.dirtyCount - 1 = _
        rw [h.count]
        omega }
  exact ⟨hInv, view_eq_of_holds h hInv hh (fun _ _ _ => rfl) (fun _ _ => rfl)⟩

/-- A slot that is not dirty is given up: nothing is lost. -/
theorem Inv.drop (h : s.Inv) {v : Nat} (hv : ¬ s.Dirty v) {x : Slot} (hx : x.valid = false) :
    Inv (s.setSlot v x) ∧ (s.setSlot v x).view = s.view := by
  have hne : ∀ {j b}, (s.setSlot v x).Holds j b → j ≠ v := fun hj e => by
    subst e
    simp [Holds, hx] at hj
  have hh : ∀ {j b}, j ≠ v → ((s.setSlot v x).Holds j b ↔ s.Holds j b) := fun e => by
    simp [Holds, Function.update_of_ne e]
  have hInv : (s.setSlot v x).Inv :=
    { sector := h.sector
      pos := h.pos
      home := fun hj => h.home ((hh (hne hj)).mp hj)
      uniq := fun hj hk => h.uniq ((hh (hne hj)).mp hj) ((hh (hne hk)).mp hk)
      num := fun hj => h.num ((hh (hne hj)).mp hj)
      canon := fun hj => h.canon ((hh (hne hj)).mp hj)
      clean := fun {j b} hj hc => h.clean ((hh (hne hj)).mp hj) (by
        simpa [Function.update_of_ne (hne hj)] using hc)
      count := by
        show s.dirtyCount = _
        rw [h.count]
        refine congrArg Finset.card (Finset.filter_congr fun j _ => ?_)
        by_cases e : j = v
        · subst e
          exact iff_of_false hv (by simp [Dirty, hx])
        · simp [Dirty, Function.update_of_ne e] }
  refine ⟨hInv, funext fun b => ?_⟩
  by_cases hb : ∃ i, s.Holds i b
  · obtain ⟨i, hi⟩ := hb
    by_cases e : i = v
    · -- the slot given up held `b`: it was clean, so the disk has its contents
      subst e
      have hc : (s.slot i).dirty = false := by
        cases hd : (s.slot i).dirty with
        | false => rfl
        | true => exact absurd ⟨hi.2.1, hd⟩ hv
      have hno : ∀ j, ¬ (s.setSlot i x).Holds j b := fun j hj =>
        hne hj (h.uniq ((hh (hne hj)).mp hj) hi)
      rw [h.view_held hi, hInv.view_unheld hno, h.clean hi hc]
      rfl
    · rw [h.view_held hi, hInv.view_held ((hh e).mpr hi)]
      rfl
  · have hb : ∀ i, ¬ s.Holds i b := fun i hi => hb ⟨i, hi⟩
    rw [h.view_unheld hb, hInv.view_unheld fun j hj => hb j ((hh (hne hj)).mp hj)]
    rfl

/-- A free slot takes block `b`, which no slot holds, with the contents `d`: what the disk has,
or anything if the slot is dirty. -/
theorem Inv.install (h : s.Inv) {v b : Nat} (hv : (s.slot v).valid = false) (hw : v ∈ ways b)
    (hb : ∀ i, ¬ s.Holds i b) (hn : b < 2 ^ 32) (d : Bytes) (dt : Bool) (u : UInt32)
    (hd : dt = false → clip s.bs d = s.diskBlock b) :
    let t : Buf := { ((s.setData v d).setSlot v { blk := b, valid := true, dirty := dt, used := u })
      with dirtyCount := s.dirtyCount + (if dt then 1 else 0) }
    t.Inv ∧ t.Holds v b ∧ t.view = Function.update s.view b (clip s.bs d) := by
  intro t
  have hlt := lt_slots_of_mem_ways hw
  have htv : t.slot v = { blk := b, valid := true, dirty := dt, used := u } := by simp [t]
  have htj : ∀ {j}, j ≠ v → t.slot j = s.slot j := fun e => by simp [t, Function.update_of_ne e]
  have hdv : t.data v = clip s.bs d := by simp [t]
  have hdj : ∀ {j}, j ≠ v → t.data j = s.data j := fun e => by simp [t, Function.update_of_ne e]
  have hvb : t.Holds v b := ⟨hlt, by rw [htv], by rw [htv]⟩
  have hh : ∀ {j c}, j ≠ v → (t.Holds j c ↔ s.Holds j c) := fun e => by simp [Holds, htj e]
  have hvc : ∀ {c}, t.Holds v c → c = b := fun hc => by rw [← hc.2.2, htv]
  have hInv : t.Inv :=
    { sector := h.sector
      pos := h.pos
      home := fun {j c} hj => by
        by_cases e : j = v
        · subst e; rw [hvc hj]; exact hw
        · exact h.home ((hh e).mp hj)
      uniq := fun {j k c} hj hk => by
        by_cases e : j = v <;> by_cases e' : k = v
        · exact e.trans e'.symm
        · subst e; rw [hvc hj] at hk; exact absurd ((hh e').mp hk) (hb k)
        · subst e'; rw [hvc hk] at hj; exact absurd ((hh e).mp hj) (hb j)
        · exact h.uniq ((hh e).mp hj) ((hh e').mp hk)
      num := fun {j c} hj => by
        by_cases e : j = v
        · subst e; rw [hvc hj]; exact hn
        · exact h.num ((hh e).mp hj)
      canon := fun {j c} hj => by
        by_cases e : j = v
        · subst e; rw [hdv]; exact clip_clip
        · rw [hdj e]; exact h.canon ((hh e).mp hj)
      clean := fun {j c} hj hc => by
        by_cases e : j = v
        · subst e
          rw [hvc hj, hdv]
          exact hd (by rw [htv] at hc; exact hc)
        · rw [hdj e]
          exact h.clean ((hh e).mp hj) (by rw [← htj e]; exact hc)
      count := by
        have key := card_filter_change (p := s.Dirty) (q := t.Dirty) hlt fun j hj => by
          simp [Dirty, htj hj]
        have hp : ¬ s.Dirty v := fun hp => Bool.noConfusion (hv.symm.trans hp.1)
        have hq : t.Dirty v ↔ dt = true := by simp [Dirty, htv]
        show s.dirtyCount + _ = _
        rw [if_neg hp] at key
        simp only [hq] at key
        rw [h.count]
        omega }
  refine ⟨hInv, hvb, funext fun c => ?_⟩
  by_cases e : c = b
  · subst e
    rw [Function.update_self, hInv.view_held hvb, hdv]
  · rw [Function.update_of_ne e]
    by_cases hc : ∃ i, s.Holds i c
    · obtain ⟨i, hi⟩ := hc
      have hiv : i ≠ v := fun e => by subst e; exact Bool.noConfusion (hv.symm.trans hi.2.1)
      rw [h.view_held hi, hInv.view_held ((hh hiv).mpr hi), hdj hiv]
    · have hc : ∀ i, ¬ s.Holds i c := fun i hi => hc ⟨i, hi⟩
      have hc' : ∀ i, ¬ t.Holds i c := fun i hi => by
        by_cases ei : i = v
        · subst ei; exact e (hvc hi)
        · exact hc i ((hh ei).mp hi)
      rw [h.view_unheld hc, hInv.view_unheld hc']
      rfl

/-- The contents of the slot of `b` change and the slot is dirty. -/
theorem Inv.put (h : s.Inv) {i b : Nat} (hi : s.Holds i b) (d : Bytes) :
    let t : Buf := { ((s.setData i d).setSlot i { s.slot i with dirty := true }) with
      dirtyCount := s.dirtyCount + (if (s.slot i).dirty then 0 else 1) }
    t.Inv ∧ t.Holds i b ∧ t.view = Function.update s.view b (clip s.bs d) := by
  intro t
  have hti : t.slot i = { s.slot i with dirty := true } := by simp [t]
  have htj : ∀ {j}, j ≠ i → t.slot j = s.slot j := fun e => by simp [t, Function.update_of_ne e]
  have hdi : t.data i = clip s.bs d := by simp [t]
  have hdj : ∀ {j}, j ≠ i → t.data j = s.data j := fun e => by simp [t, Function.update_of_ne e]
  have hh : ∀ j c, t.Holds j c ↔ s.Holds j c := fun j c => by
    by_cases e : j = i
    · subst e; simp [Holds, hti]
    · simp [Holds, htj e]
  have hInv : t.Inv :=
    { sector := h.sector
      pos := h.pos
      home := fun hj => h.home ((hh _ _).mp hj)
      uniq := fun hj hk => h.uniq ((hh _ _).mp hj) ((hh _ _).mp hk)
      num := fun hj => h.num ((hh _ _).mp hj)
      canon := fun {j c} hj => by
        by_cases e : j = i
        · subst e; rw [hdi]; exact clip_clip
        · rw [hdj e]; exact h.canon ((hh _ _).mp hj)
      clean := fun {j c} hj hc => by
        by_cases e : j = i
        · subst e; rw [hti] at hc; exact Bool.noConfusion hc
        · rw [hdj e]
          exact h.clean ((hh _ _).mp hj) (by rw [← htj e]; exact hc)
      count := by
        have key := card_filter_change (p := s.Dirty) (q := t.Dirty) hi.1 fun j hj => by
          simp [Dirty, htj hj]
        have hq : t.Dirty i := ⟨by rw [hti]; exact hi.2.1, by rw [hti]⟩
        show s.dirtyCount + _ = _
        rw [if_pos hq] at key
        rw [h.count]
        by_cases hd : (s.slot i).dirty = true
        · rw [if_pos ⟨hi.2.1, hd⟩] at key
          rw [if_pos hd]
          omega
        · rw [if_neg fun hp : s.Dirty i => hd hp.2] at key
          rw [if_neg hd]
          omega }
  refine ⟨hInv, (hh i b).mpr hi, funext fun c => ?_⟩
  by_cases e : c = b
  · subst e
    rw [Function.update_self, hInv.view_held ((hh i c).mpr hi), hdi]
  · rw [Function.update_of_ne e]
    by_cases hc : ∃ j, s.Holds j c
    · obtain ⟨j, hj⟩ := hc
      have hji : j ≠ i := fun e' => by subst e'; exact e (hj.2.2.symm.trans hi.2.2)
      rw [h.view_held hj, hInv.view_held ((hh j c).mpr hj), hdj hji]
    · have hc : ∀ j, ¬ s.Holds j c := fun j hj => hc ⟨j, hj⟩
      rw [h.view_unheld hc, hInv.view_unheld fun j hj => hc j ((hh j c).mp hj)]
      rfl

end Pulsar.Ext2.Buf

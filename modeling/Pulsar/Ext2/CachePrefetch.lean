import Pulsar.Ext2.CacheOps

/-!
# Forgetting a block and reading ahead

`bforget` drops a block and whatever was written to it since it last reached the disk; nothing
else moves.  `prefetch` moves nothing: a block it takes a slot for is in no slot, so what the
device delivers is what a reader would have been shown anyway.

`prefetch` picks a victim among the slots that are invalid or clean and not of this read.  The
slots it has just taken are invalid, so one can be taken again for a later block of the same
set; the later block's segment comes later in the request and is what the slot ends up with.
`Taking` is the invariant of that loop.
-/

namespace Pulsar.Ext2.Buf

variable {s : Buf}

/-! ### `bforget` -/

theorem forgetSlot_spec (h : s.Inv) (b : Nat) {i : Nat} (hi : i < SLOTS) :
    (forgetSlot b s i).Inv ∧ (∀ c, c ≠ b → (forgetSlot b s i).view c = s.view c) ∧
      (forgetSlot b s i).dev = s.dev ∧ (forgetSlot b s i).bs = s.bs ∧
      (∀ j c, (forgetSlot b s i).Holds j c → s.Holds j c) ∧ ¬ (forgetSlot b s i).Holds i b := by
  by_cases hb : s.Holds i b
  · -- the slot becomes invalid; forget first that it was dirty
    set t : Buf := { (s.setSlot i { s.slot i with valid := false, dirty := false }) with
      dirtyCount := if (s.slot i).dirty then s.dirtyCount - 1 else s.dirtyCount } with ht
    have hform : forgetSlot b s i = t := by
      have hc : ((s.slot i).valid && (s.slot i).blk == b) = true := by simp [hb.2.1, hb.2.2]
      rw [forgetSlot, if_pos hc]
    have hti : (t.slot i).valid = false := by simp [t]
    have htj : ∀ {j}, j ≠ i → t.slot j = s.slot j := fun e => by simp [t, Function.update_of_ne e]
    have hne : ∀ {j c}, t.Holds j c → j ≠ i := fun hj e => by
      subst e; exact Bool.noConfusion (hti.symm.trans hj.2.1)
    have hh : ∀ {j c}, j ≠ i → (t.Holds j c ↔ s.Holds j c) := fun e => by simp [Holds, htj e]
    have hInv : t.Inv :=
      { sector := h.sector
        pos := h.pos
        home := fun hj => h.home ((hh (hne hj)).mp hj)
        uniq := fun hj hk => h.uniq ((hh (hne hj)).mp hj) ((hh (hne hk)).mp hk)
        num := fun hj => h.num ((hh (hne hj)).mp hj)
        canon := fun hj => h.canon ((hh (hne hj)).mp hj)
        clean := fun {j c} hj hc => h.clean ((hh (hne hj)).mp hj) (by rw [← htj (hne hj)]; exact hc)
        count := by
          have key := card_filter_change (p := s.Dirty) (q := t.Dirty) hi fun j hj => by
            simp [Dirty, htj hj]
          have hq : ¬ t.Dirty i := fun hq => Bool.noConfusion (hti.symm.trans hq.1)
          rw [if_neg hq] at key
          show (if (s.slot i).dirty then s.dirtyCount - 1 else s.dirtyCount) = _
          rw [h.count]
          by_cases hd : (s.slot i).dirty = true
          · rw [if_pos ⟨hb.2.1, hd⟩] at key
            rw [if_pos hd]
            omega
          · rw [if_neg fun hp : s.Dirty i => hd hp.2] at key
            rw [if_neg hd]
            omega }
    rw [hform]
    refine ⟨hInv, fun c hc => ?_, rfl, rfl, fun j c hj => (hh (hne hj)).mp hj, fun hj => hne hj rfl⟩
    by_cases hx : ∃ j, s.Holds j c
    · obtain ⟨j, hj⟩ := hx
      have hji : j ≠ i := fun e => by subst e; exact hc (hj.2.2.symm.trans hb.2.2)
      rw [h.view_held hj, hInv.view_held ((hh hji).mpr hj)]
      rfl
    · have hx : ∀ j, ¬ s.Holds j c := fun j hj => hx ⟨j, hj⟩
      rw [h.view_unheld hx, hInv.view_unheld fun j hj => hx j ((hh (hne hj)).mp hj)]
      rfl
  · have hc : ¬ ((s.slot i).valid && (s.slot i).blk == b) = true := fun hc => by
      rw [Bool.and_eq_true, beq_iff_eq] at hc
      exact hb ⟨hi, hc⟩
    rw [forgetSlot, if_neg hc]
    exact ⟨h, fun _ _ => rfl, rfl, rfl, fun _ _ hj => hj, hb⟩

/-- **`bforget`.**  No slot holds `b` afterwards, so a reader sees the disk's block. -/
theorem bforget_spec (h : s.Inv) (b : Nat) :
    (bforget b s).Inv ∧
      (bforget b s).view = Function.update s.view b (s.diskBlock b) ∧
      Keeps (fun _ => False) s (bforget b s) ∧ (∀ i c, (bforget b s).Holds i c → s.Holds i c) ∧
      (∀ i, ¬ (bforget b s).Holds i b) ∧ (bforget b s).diskBlock = s.diskBlock := by
  have key : ∀ (is : List Nat) {s : Buf}, s.Inv → (∀ i ∈ is, i < SLOTS) →
      let t := is.foldl (forgetSlot b) s
      t.Inv ∧ (∀ c, c ≠ b → t.view c = s.view c) ∧ t.dev = s.dev ∧ t.bs = s.bs ∧
        (∀ j c, t.Holds j c → s.Holds j c) ∧ ∀ i ∈ is, ¬ t.Holds i b := by
    intro is
    induction is with
    | nil => exact fun h _ => ⟨h, fun _ _ => rfl, rfl, rfl, fun _ _ hj => hj, fun _ hi => by simp at hi⟩
    | cons i is ih =>
        intro s h hlt
        obtain ⟨h₁, h₂, h₃, h₄, h₅, h₆⟩ := forgetSlot_spec h b (hlt i List.mem_cons_self)
        obtain ⟨g₁, g₂, g₃, g₄, g₅, g₆⟩ := ih h₁ fun j hj => hlt j (List.mem_cons_of_mem i hj)
        refine ⟨g₁, fun c hc => (g₂ c hc).trans (h₂ c hc), g₃.trans h₃, g₄.trans h₄,
          fun j c hj => h₅ j c (g₅ j c hj), fun j hj hjb => ?_⟩
        rcases List.mem_cons.mp hj with rfl | hj
        · exact h₆ (g₅ j b hjb)
        · exact g₆ j hj hjb
  obtain ⟨h₁, h₂, h₃, h₄, h₅, h₆⟩ := key (ways b) h fun i hi => lt_slots_of_mem_ways hi
  have hno : ∀ i, ¬ (bforget b s).Holds i b := fun i hi => h₆ i (h₁.home hi) hi
  have hdisk : (bforget b s).diskBlock = s.diskBlock := funext fun c => by
    rw [diskBlock, diskBlock, show (bforget b s).dev = s.dev from h₃,
      show (bforget b s).bs = s.bs from h₄]
  refine ⟨h₁, funext fun c => ?_, .of_eq h₄ h₃ fun hi => Or.inr (h₅ _ _ hi), h₅, hno, hdisk⟩
  by_cases e : c = b
  · subst e
    have h₁' : (bforget c s).Inv := h₁
    rw [Function.update_self, h₁'.view_unheld hno, hdisk]
  · rw [Function.update_of_ne e]
    exact h₂ c e

/-! ### `prefetch` -/

/-- The loop of `prefetch` for the blocks from `b` on has taken the slots `taken`, in order, and
`s` is the table it has reached.  `src v` is the index of the block slot `v` was last taken for. -/
structure Taking (b : Nat) (s : Buf) (taken : List Nat) (src : Nat → Nat) : Prop where
  lt : taken.length ≤ MAX_SEGS
  fresh : ∀ k < taken.length, ∀ i, ¬ s.Holds i ((b + k) % 2 ^ 32)
  slot : ∀ v ∈ taken, (s.slot v).valid = false ∧ (s.slot v).dirty = false ∧
    taken[src v]? = some v ∧ (s.slot v).blk = (b + src v) % 2 ^ 32 ∧ v ∈ ways (s.slot v).blk
  last : ∀ (r : Bytes) v, v ∈ taken →
    (fill r 0 taken s).data v = clip s.bs fun x => r (src v * s.bs + x)

theorem fill_append (r : Bytes) : ∀ (k : Nat) (l : List Nat) (v : Nat) (s : Buf),
    fill r k (l ++ [v]) s =
      (fill r k l s).setData v fun i => r ((k + l.length) * s.bs + i)
  | k, [], v, s => by simp [fill]
  | k, w :: l, v, s => by
      simp only [List.cons_append, fill, List.length_cons]
      rw [fill_append r (k + 1) l v]
      simp only [setData_bs, Nat.add_assoc, Nat.add_comm 1]

/-- Filling slots touches only bytes. -/
theorem fill_fields (r : Bytes) : ∀ (k : Nat) (l : List Nat) (s : Buf),
    fill r k l s = { s with data := (fill r k l s).data } ∧
      ∀ j, j ∉ l → (fill r k l s).data j = s.data j
  | _, [], _ => ⟨rfl, fun _ _ => rfl⟩
  | k, v :: l, s => by
      obtain ⟨h₁, h₂⟩ := fill_fields r (k + 1) l (s.setData v fun i => r (k * s.bs + i))
      refine ⟨h₁, fun j hj => ?_⟩
      rw [List.mem_cons, not_or] at hj
      rw [fill, h₂ j hj.2, setData_data, Function.update_of_ne hj.1]

@[simp] theorem fill_bs (r : Bytes) (k : Nat) (l : List Nat) (s : Buf) : (fill r k l s).bs = s.bs := by
  rw [(fill_fields r k l s).1]

/-- What is filled in does not depend on the slot table. -/
theorem fill_setSlot (r : Bytes) (v : Nat) (x : Slot) : ∀ (k : Nat) (l : List Nat) (s : Buf),
    fill r k l (s.setSlot v x) = (fill r k l s).setSlot v x
  | _, [], _ => rfl
  | k, w :: l, s => by
      simp only [fill, setSlot_bs]
      exact fill_setSlot r v x (k + 1) l (s.setData w fun i => r (k * s.bs + i))

theorem cleanVictim_spec {now : UInt32} {b v : Nat} (h : s.cleanVictim now b = some v) :
    v ∈ ways b ∧ ¬ s.Dirty v := by
  have := List.argmin_mem (Option.mem_def.mpr h)
  rw [List.mem_filter] at this
  refine ⟨this.1, fun hd => ?_⟩
  simp [hd.1, hd.2] at this

/-- One more slot is taken. -/
theorem Taking.step {b : Nat} {taken : List Nat} {src : Nat → Nat} (h : s.Inv)
    (hT : Taking b s taken src) (hlt : taken.length < MAX_SEGS) {now : UInt32} {v : Nat}
    (hnone : s.find ((b + taken.length) % 2 ^ 32) = none)
    (hv : s.cleanVictim now ((b + taken.length) % 2 ^ 32) = some v) :
    let t := s.setSlot v (.taken ((b + taken.length) % 2 ^ 32) now)
    t.Inv ∧ t.view = s.view ∧ (∀ j c, t.Holds j c → s.Holds j c) ∧
      Taking b t (taken ++ [v]) (Function.update src v taken.length) := by
  intro t
  obtain ⟨hw, hnd⟩ := cleanVictim_spec hv
  obtain ⟨h₁, h₂⟩ := h.drop hnd (x := .taken ((b + taken.length) % 2 ^ 32) now) rfl
  have htv : t.slot v = .taken ((b + taken.length) % 2 ^ 32) now := by simp [t]
  have htj : ∀ {j}, j ≠ v → t.slot j = s.slot j := fun e => by simp [t, Function.update_of_ne e]
  have hh : ∀ j c, t.Holds j c → s.Holds j c := fun j c hj => by
    by_cases e : j = v
    · subst e; simp [Holds, htv, Slot.taken] at hj
    · simpa [Holds, htj e] using hj
  refine ⟨h₁, h₂, hh, ⟨?_, fun k hk i hi => ?_, fun w hw' => ?_, fun r w hw' => ?_⟩⟩
  · rw [List.length_append]; exact hlt
  · rw [List.length_append, List.length_singleton] at hk
    rcases Nat.lt_succ_iff_lt_or_eq.mp hk with hk | rfl
    · exact hT.fresh k hk i (hh i _ hi)
    · exact h.find_none.mp hnone i (hh i _ hi)
  · by_cases e : w = v
    · subst e
      rw [htv, Function.update_self]
      exact ⟨rfl, rfl, by simp, rfl, hw⟩
    · have hw' : w ∈ taken := by simpa [e] using hw'
      obtain ⟨a₁, a₂, a₃, a₄, a₅⟩ := hT.slot w hw'
      rw [htj e, Function.update_of_ne e]
      exact ⟨a₁, a₂, by rw [List.getElem?_append_left (List.getElem?_eq_some_iff.mp a₃).1, a₃],
        a₄, a₅⟩
  · rw [fill_append, fill_setSlot]
    by_cases e : w = v
    · subst e
      simp [t]
    · have hw' : w ∈ taken := by simpa [e] using hw'
      simp only [setData_data, Function.update_of_ne e]
      exact hT.last r w hw'

theorem prefetchTake_spec (now : UInt32) (b : Nat) : ∀ (m : Nat) {s : Buf} (taken : List Nat)
    (src : Nat → Nat), s.Inv → Taking b s taken src → taken.length + m ≤ MAX_SEGS →
    ∃ src', (prefetchTake now b m taken.length s taken).1.Inv ∧
      (prefetchTake now b m taken.length s taken).1.view = s.view ∧
      (prefetchTake now b m taken.length s taken).1.dev = s.dev ∧
      (prefetchTake now b m taken.length s taken).1.bs = s.bs ∧
      (∀ j c, (prefetchTake now b m taken.length s taken).1.Holds j c → s.Holds j c) ∧
      (prefetchTake now b m taken.length s taken).2.length ≤ taken.length + m ∧
      Taking b (prefetchTake now b m taken.length s taken).1
        (prefetchTake now b m taken.length s taken).2 src'
  | 0, _, taken, src, h, hT, _ =>
      ⟨src, h, rfl, rfl, rfl, fun _ _ hj => hj, Nat.le_refl _, hT⟩
  | m + 1, s, taken, src, h, hT, hm => by
      have stop : ∃ src', s.Inv ∧ s.view = s.view ∧ s.dev = s.dev ∧ s.bs = s.bs ∧
          (∀ j c, s.Holds j c → s.Holds j c) ∧ taken.length ≤ taken.length + (m + 1) ∧
          Taking b s taken src' :=
        ⟨src, h, rfl, rfl, rfl, fun _ _ hj => hj, by omega, hT⟩
      simp only [prefetchTake]
      split
      · exact stop
      · rename_i hsome
        cases hv : s.cleanVictim now ((b + taken.length) % 2 ^ 32) with
        | none => exact stop
        | some v =>
            obtain ⟨h₁, h₂, h₃, h₄⟩ := hT.step h (by omega)
              (Option.not_isSome_iff_eq_none.mp hsome) hv
            have hlen : taken.length + 1 = (taken ++ [v]).length := by simp
            obtain ⟨src', g₁, g₂, g₃, g₄, g₅, g₆, g₇⟩ := prefetchTake_spec now b m (taken ++ [v]) _ h₁
              h₄ (by rw [← hlen]; omega)
            rw [← hlen] at g₁ g₂ g₃ g₄ g₅ g₇
            rw [List.length_append, List.length_singleton] at g₆
            exact ⟨src', g₁, g₂.trans h₂, g₃, g₄, fun j c hj => h₃ j c (g₅ j c hj),
              Nat.le_trans g₆ (by omega), g₇⟩

theorem setValid_fields (ok : Bool) : ∀ (l : List Nat) (s : Buf),
    setValid ok l s = { s with slot := (setValid ok l s).slot } ∧
      (∀ j, j ∉ l → (setValid ok l s).slot j = s.slot j) ∧
      ∀ j ∈ l, (setValid ok l s).slot j = { s.slot j with valid := ok }
  | [], _ => ⟨rfl, fun _ _ => rfl, fun _ hj => by simp at hj⟩
  | v :: l, s => by
      obtain ⟨h₁, h₂, h₃⟩ := setValid_fields ok l (s.setSlot v { s.slot v with valid := ok })
      refine ⟨h₁, fun j hj => ?_, fun j hj => ?_⟩
      · rw [List.mem_cons, not_or] at hj
        rw [setValid, h₂ j hj.2, setSlot_slot, Function.update_of_ne hj.1]
      · rw [setValid]
        by_cases hm : j ∈ l
        · rw [h₃ j hm]
          by_cases e : j = v
          · subst e; simp
          · simp [Function.update_of_ne e]
        · obtain rfl : j = v := by simpa [hm] using hj
          rw [h₂ j hm, setSlot_slot, Function.update_self]

/-- The slots taken become valid with the disk's contents of their blocks. -/
theorem Taking.finish {b : Nat} {taken : List Nat} {src : Nat → Nat} (h : s.Inv)
    (hT : Taking b s taken src) {t : Buf} (hbs : t.bs = s.bs)
    (hbytes : t.dev.bytes = s.dev.bytes)
    (hcount : t.dirtyCount = s.dirtyCount) (hin : ∀ v ∈ taken, t.slot v = { s.slot v with valid := true })
    (hout : ∀ v, v ∉ taken → t.slot v = s.slot v ∧ t.data v = s.data v)
    (hdata : ∀ v ∈ taken, t.data v = s.diskBlock (b + src v))
    (hnum : ∀ k < taken.length, b + k < 2 ^ 32) :
    t.Inv ∧ t.view = s.view ∧
      ∀ i c, t.Holds i c → s.Holds i c ∨ ∃ k < taken.length, c = (b + k) % 2 ^ 32 := by
  have hblk : ∀ c, t.diskBlock c = s.diskBlock c := fun c => by simp only [diskBlock, hbs, hbytes]
  have hsrc : ∀ {v}, v ∈ taken → src v < taken.length := fun hv =>
    (List.getElem?_eq_some_iff.mp (hT.slot _ hv).2.2.1).1
  have hblkof : ∀ {v}, v ∈ taken → (s.slot v).blk = b + src v := fun hv => by
    rw [(hT.slot _ hv).2.2.2.1, Nat.mod_eq_of_lt (hnum _ (hsrc hv))]
  have hnew : ∀ {v c}, v ∈ taken → t.Holds v c → c = b + src v := fun hv hc => by
    rw [← hblkof hv, ← hc.2.2, hin _ hv]
  have hold : ∀ {v c}, v ∉ taken → (t.Holds v c ↔ s.Holds v c) := fun hv => by
    simp only [Holds, (hout _ hv).1]
  have hfree : ∀ {v i}, v ∈ taken → ¬ s.Holds i (b + src v) := fun hv => by
    have := hT.fresh _ (hsrc hv)
    rw [Nat.mod_eq_of_lt (hnum _ (hsrc hv))] at this
    exact this _
  have hinv : ∀ {v c}, v ∈ taken → ¬ s.Holds v c := fun hv hc =>
    Bool.noConfusion ((hT.slot _ hv).1.symm.trans hc.2.1)
  have hInv : t.Inv :=
    { sector := hbs ▸ h.sector
      pos := hbs ▸ h.pos
      home := fun {i c} hi => by
        by_cases hv : i ∈ taken
        · rw [hnew hv hi, ← hblkof hv]
          exact (hT.slot i hv).2.2.2.2
        · exact h.home ((hold hv).mp hi)
      uniq := fun {i j c} hi hj => by
        by_cases hv : i ∈ taken <;> by_cases hw : j ∈ taken
        · -- a block is taken for once
          have he : src i = src j := by have := hnew hv hi; have := hnew hw hj; omega
          have := (hT.slot i hv).2.2.1
          rw [he, (hT.slot j hw).2.2.1] at this
          exact (Option.some.inj this).symm
        · rw [hnew hv hi] at hj; exact absurd ((hold hw).mp hj) (hfree hv)
        · rw [hnew hw hj] at hi; exact absurd ((hold hv).mp hi) (hfree hw)
        · exact h.uniq ((hold hv).mp hi) ((hold hw).mp hj)
      num := fun {i c} hi => by
        by_cases hv : i ∈ taken
        · rw [hnew hv hi]; exact hnum _ (hsrc hv)
        · exact h.num ((hold hv).mp hi)
      canon := fun {i c} hi => by
        by_cases hv : i ∈ taken
        · rw [hdata i hv, hbs, diskBlock, clip_clip]
        · rw [(hout i hv).2, hbs]; exact h.canon ((hold hv).mp hi)
      clean := fun {i c} hi hc => by
        by_cases hv : i ∈ taken
        · rw [hdata i hv, hblk, hnew hv hi]
        · rw [(hout i hv).2, hblk]
          exact h.clean ((hold hv).mp hi) (by rw [← (hout i hv).1]; exact hc)
      count := by
        rw [hcount, h.count]
        refine congrArg Finset.card (Finset.filter_congr fun j _ => ?_)
        by_cases hv : j ∈ taken
        · simp [Dirty, hin j hv, (hT.slot j hv).1, (hT.slot j hv).2.1]
        · simp [Dirty, (hout j hv).1] }
  refine ⟨hInv, funext fun c => ?_, fun i c hi => ?_⟩
  · by_cases hx : ∃ i, t.Holds i c
    · obtain ⟨i, hi⟩ := hx
      by_cases hv : i ∈ taken
      · rw [hInv.view_held hi, hdata i hv, hnew hv hi, h.view_unheld fun j => hfree hv]
      · rw [hInv.view_held hi, h.view_held ((hold hv).mp hi), (hout i hv).2]
    · have hx : ∀ i, ¬ t.Holds i c := fun i hi => hx ⟨i, hi⟩
      rw [hInv.view_unheld hx, hblk, h.view_unheld fun i hi =>
        hx i ((hold fun hv => hinv hv hi).mpr hi)]
  · by_cases hv : i ∈ taken
    · exact Or.inr ⟨src i, hsrc hv, by rw [hnew hv hi, Nat.mod_eq_of_lt (hnum _ (hsrc hv))]⟩
    · exact Or.inl ((hold hv).mp hi)

/-- The slots taken stay empty: nothing was there, nothing is. -/
theorem Taking.abandon {b : Nat} {taken : List Nat} {src : Nat → Nat} (h : s.Inv)
    (hT : Taking b s taken src) {t : Buf} (hbs : t.bs = s.bs)
    (hbytes : t.dev.bytes = s.dev.bytes)
    (hcount : t.dirtyCount = s.dirtyCount) (hslot : t.slot = s.slot)
    (hout : ∀ v, v ∉ taken → t.data v = s.data v) : t.Inv ∧ t.view = s.view := by
  have hh : ∀ i c, t.Holds i c ↔ s.Holds i c := fun i c => by simp only [Holds, hslot]
  have hblk : ∀ c, t.diskBlock c = s.diskBlock c := fun c => by simp only [diskBlock, hbs, hbytes]
  have hd : ∀ i c, s.Holds i c → t.data i = s.data i := fun i c hi => hout i fun hv =>
    Bool.noConfusion ((hT.slot i hv).1.symm.trans hi.2.1)
  have hInv : t.Inv :=
    { sector := hbs ▸ h.sector
      pos := hbs ▸ h.pos
      home := fun hi => h.home ((hh _ _).mp hi)
      uniq := fun hi hj => h.uniq ((hh _ _).mp hi) ((hh _ _).mp hj)
      num := fun hi => h.num ((hh _ _).mp hi)
      canon := fun {i c} hi => by
        rw [hd i c ((hh i c).mp hi), hbs]
        exact h.canon ((hh i c).mp hi)
      clean := fun {i c} hi hc => by
        rw [hd i c ((hh i c).mp hi), hblk]
        exact h.clean ((hh i c).mp hi) (by rw [← hslot]; exact hc)
      count := by
        rw [hcount, h.count]
        exact congrArg Finset.card (Finset.filter_congr fun j _ => by simp only [Dirty, hslot]) }
  exact ⟨hInv, view_eq_of_holds h hInv hh hd fun b _ => hblk b⟩

/-- **`prefetch`** of blocks with `u32` numbers.  The view does not move. -/
theorem prefetch_spec (h : s.Inv) {b n : Nat} (hn : b + min n MAX_SEGS ≤ 2 ^ 32) :
    (prefetch b n s).Inv ∧ (prefetch b n s).view = s.view ∧
      Keeps (fun c => ∃ k < min n MAX_SEGS, c = (b + k) % 2 ^ 32) s (prefetch b n s) ∧
      (prefetch b n s).diskBlock = s.diskBlock := by
  obtain ⟨h₁, hv₁⟩ : Inv { s with tick := s.tick + 1 } ∧ view { s with tick := s.tick + 1 } = s.view := by
    have := h.touch 0 (s.slot 0).used (s.tick + 1)
    simpa [setSlot] using this
  have hK₁ : Keeps (fun c => ∃ k < min n MAX_SEGS, c = (b + k) % 2 ^ 32) s { s with tick := s.tick + 1 } :=
    .of_eq rfl rfl fun hi => Or.inr hi
  have hdisk₁ : diskBlock { s with tick := s.tick + 1 } = s.diskBlock := rfl
  rw [← hv₁, ← hdisk₁]
  unfold prefetch
  generalize ({ s with tick := s.tick + 1 } : Buf) = s₁ at *
  dsimp only
  have hT₀ : Taking b s₁ [] fun _ => 0 :=
    ⟨by simp, fun k hk => by simp at hk, fun v hv => by simp at hv, fun _ v hv => by simp at hv⟩
  obtain ⟨src, h₂, hv₂, hd₂, hb₂, hh₂, hlen, hT⟩ :=
    prefetchTake_spec s₁.tick b (min n MAX_SEGS) [] _ h₁ hT₀ (by simp)
  simp only [List.length_nil, Nat.zero_add] at h₂ hv₂ hd₂ hb₂ hh₂ hlen hT
  rcases hr : prefetchTake s₁.tick b (min n MAX_SEGS) 0 s₁ [] with ⟨s₂, taken⟩
  rw [hr] at h₂ hv₂ hd₂ hb₂ hh₂ hlen hT
  replace hb₂ : s₂.bs = s₁.bs := hb₂
  replace hd₂ : s₂.dev = s₁.dev := hd₂
  have hK₂ : Keeps (fun c => ∃ k < min n MAX_SEGS, c = (b + k) % 2 ^ 32) s s₂ :=
    hK₁.trans (.of_eq hb₂ hd₂ fun hi => Or.inr (hh₂ _ _ hi))
  cases taken with
  | nil => exact ⟨h₂, hv₂, hK₂, by funext c; simp only [diskBlock, hb₂, hd₂]⟩
  | cons v vs =>
      set l := v :: vs with hl
      -- whatever the device says, the fill touches only taken slots
      set r := s₂.dev.read (b * (s₂.bs / SECTOR_SIZE)) (l.length * s₂.bs / SECTOR_SIZE) with hrd
      set s₃ : Buf := { s₂ with dev := r.2.2 } with hs₃
      have hbytes : s₃.dev.bytes = s₂.dev.bytes := by simp [s₃, r]
      have hcap : s₃.dev.capacity = s₂.dev.capacity := by simp [s₃, r]
      have hfails : s₃.dev.fails = s₂.dev.fails := by simp [s₃, r]
      set u : Buf := deliver r.2.1 l s₃ with hu
      have hufields : u = { s₃ with data := u.data } ∧ ∀ j, j ∉ l → u.data j = s₃.data j := by
        rw [hu]
        cases r.2.1 with
        | none => exact ⟨rfl, fun _ _ => rfl⟩
        | some d => exact fill_fields d 0 l s₃
      show (setValid r.1 l u).Inv ∧ (setValid r.1 l u).view = s₁.view ∧
        Keeps _ s (setValid r.1 l u) ∧ (setValid r.1 l u).diskBlock = s₁.diskBlock
      obtain ⟨hsv₁, hsv₂, hsv₃⟩ := setValid_fields r.1 l u
      have hdev : (setValid r.1 l u).dev = s₃.dev := by rw [hsv₁, hufields.1]
      have hbs : (setValid r.1 l u).bs = s₂.bs := by rw [hsv₁, hufields.1]
      have hdata : (setValid r.1 l u).data = u.data := by rw [hsv₁]
      have hslot : u.slot = s₂.slot := by rw [hufields.1]
      have hcount : (setValid r.1 l u).dirtyCount = s₂.dirtyCount := by rw [hsv₁, hufields.1]
      have hout : ∀ w, w ∉ l → (setValid r.1 l u).slot w = s₂.slot w ∧
          (setValid r.1 l u).data w = s₂.data w := fun w hw =>
        ⟨by rw [hsv₂ w hw, hslot], by rw [hdata, hufields.2 w hw]⟩
      have hdisk : (setValid r.1 l u).diskBlock = s₁.diskBlock := by
        funext c
        simp only [diskBlock, hbs, hb₂, hdev, hbytes, hd₂]
      by_cases hok : r.1 = true
      · have hacc := Dev.read_fst.mp hok
        have hraw := Dev.read_of_accepts hacc
        have hnum : ∀ k < l.length, b + k < 2 ^ 32 := fun k hk =>
          (Nat.add_lt_add_left (hk.trans_le hlen) b).trans_le hn
        have hfill : ∀ w ∈ l, (setValid r.1 l u).data w = s₂.diskBlock (b + src w) := fun w hw => by
          have hu' : u = fill (fun i => s₂.dev.bytes (b * (s₂.bs / SECTOR_SIZE) * SECTOR_SIZE + i)) 0 l s₃ := by
            rw [hu, hrd, hraw, deliver]
          have hlast := hT.last (fun i => s₂.dev.bytes (b * (s₂.bs / SECTOR_SIZE) * SECTOR_SIZE + i)) w hw
          have hsame : ∀ (d : Bytes) (k : Nat) (is : List Nat) (x y : Buf), x.data = y.data →
              x.bs = y.bs → (fill d k is x).data = (fill d k is y).data := by
            intro d k is
            induction is generalizing k with
            | nil => exact fun _ _ hxy _ => hxy
            | cons i is ih => exact fun x y hxy hb => ih (k + 1) _ _ (by simp [hxy, hb]) hb
          rw [hdata, hu', hsame _ 0 l s₃ s₂ rfl rfl, hlast, diskBlock]
          refine clip_congr fun x _ => ?_
          rw [h₂.sectors, Nat.add_mul, Nat.add_assoc]
        obtain ⟨g₁, g₂, g₃⟩ := hT.finish h₂ hbs (by rw [hdev, hbytes]) hcount
          (fun w hw => by rw [hsv₃ w hw, hslot, hok]) hout hfill hnum
        refine ⟨g₁, g₂.trans hv₂, hK₂.trans ⟨hbs, by rw [hdev, hcap], by rw [hdev, hfails],
          fun hi => ?_, fun _ _ _ _ => by rw [hdev, hbytes]⟩, hdisk⟩
        rcases g₃ _ _ hi with hi | ⟨k, hk, hc⟩
        · exact Or.inr ⟨_, hi⟩
        · exact Or.inl ⟨k, hk.trans_le hlen, hc⟩
      · have hsame : (setValid r.1 l u).slot = s₂.slot := funext fun w => by
          by_cases hw : w ∈ l
          · rw [hsv₃ w hw, hslot, Bool.eq_false_iff.mpr hok]
            have := (hT.slot w hw).1
            revert this
            rcases s₂.slot w with ⟨_, _, _, _⟩
            rintro rfl
            rfl
          · exact (hout w hw).1
        obtain ⟨g₁, g₂⟩ := hT.abandon h₂ hbs (by rw [hdev, hbytes]) hcount
          hsame fun w hw => (hout w hw).2
        exact ⟨g₁, g₂.trans hv₂, hK₂.trans ⟨hbs, by rw [hdev, hcap], by rw [hdev, hfails],
          fun hi => Or.inr ⟨_, by simpa only [Holds, hsame] using hi⟩,
          fun _ _ _ _ => by rw [hdev, hbytes]⟩, hdisk⟩

end Pulsar.Ext2.Buf

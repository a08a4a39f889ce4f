import Pulsar.Ext2.CacheOps

/-!
# Writing the cache out

`flush_dirty` leaves the view alone whatever the device does, and when it reports success no
slot is dirty.  `bdirty` is a change of one slot and perhaps a flush.

The loop of `flush_dirty` works on the dirty slots sorted by block; a request covers a run of
consecutive blocks.  One request is `flushRun_spec`, the loop is `flushLoop_spec`.
-/

namespace Pulsar.Ext2.Buf

variable {s : Buf}

/-- The entries of `l` are dirty slots with their blocks, each slot once. -/
def Listed (s : Buf) (l : List (Nat × Nat)) : Prop :=
  (l.map Prod.snd).Nodup ∧ ∀ e ∈ l, s.Holds e.2 e.1 ∧ (s.slot e.2).dirty = true

/-- What writing out the dirty slots `l` does, when it reports `ok`. -/
structure Flushed (l : List (Nat × Nat)) (s t : Buf) (ok : Bool) : Prop where
  inv : t.Inv
  view : t.view = s.view
  keeps : Keeps (fun _ => False) s t
  holds : ∀ {i b}, t.Holds i b ↔ s.Holds i b
  others : ∀ {i}, i ∉ l.map Prod.snd → t.slot i = s.slot i
  done : ok = true → ∀ e ∈ l, ¬ t.Dirty e.2

/-! ### One request -/

/-- The slots of a request that went through become clean one after the other. -/
theorem markClean_spec : ∀ (is : List Nat) {s : Buf}, s.Inv → is.Nodup →
    (∀ i ∈ is, ∃ b, s.Holds i b ∧ (s.slot i).dirty = true ∧ s.data i = s.diskBlock b) →
    (s.markClean is).Inv ∧ (s.markClean is).view = s.view ∧ (s.markClean is).dev = s.dev ∧
      (s.markClean is).bs = s.bs ∧ (∀ i b, (s.markClean is).Holds i b ↔ s.Holds i b) ∧
      (∀ i, i ∉ is → (s.markClean is).slot i = s.slot i) ∧
      ∀ i ∈ is, ¬ (s.markClean is).Dirty i
  | [], s, h, _, _ => ⟨h, rfl, rfl, rfl, fun _ _ => Iff.rfl, fun _ _ => rfl, fun _ hi => by simp at hi⟩
  | i :: is, s, h, hnd, hl => by
      obtain ⟨b, hi, hdirty, hdisk⟩ := hl i List.mem_cons_self
      obtain ⟨h₁, hv₁⟩ := h.clean1 hi hdirty hdisk
      obtain ⟨hni, hnd⟩ := List.nodup_cons.mp hnd
      set t : Buf := { (s.setSlot i { s.slot i with dirty := false }) with
        dirtyCount := s.dirtyCount - 1 } with ht
      have hslot : ∀ {j}, j ≠ i → t.slot j = s.slot j := fun e => by
        simp [t, Function.update_of_ne e]
      have hh : ∀ j c, t.Holds j c ↔ s.Holds j c := fun j c => by
        by_cases e : j = i
        · subst e; simp [Holds, t]
        · simp [Holds, hslot e]
      have hne : ∀ {j}, j ∈ is → j ≠ i := fun hj e => hni (e ▸ hj)
      obtain ⟨g₁, g₂, g₃, g₄, g₅, g₆, g₇⟩ := markClean_spec is h₁ hnd fun j hj => by
        obtain ⟨c, hc, hd, hk⟩ := hl j (List.mem_cons_of_mem i hj)
        exact ⟨c, (hh j c).mpr hc, by rw [hslot (hne hj)]; exact hd, hk⟩
      refine ⟨g₁, g₂.trans hv₁, g₃, g₄, fun j c => (g₅ j c).trans (hh j c), fun j hj => ?_, ?_⟩
      · rw [List.mem_cons, not_or] at hj
        exact (g₆ j hj.2).trans (hslot hj.1)
      · intro j hj hD
        rcases List.mem_cons.mp hj with rfl | hj
        · rw [Dirty, markClean, g₆ j hni] at hD
          simp [t] at hD
        · exact g₇ j hj hD

/-- The bytes of the `k`-th segment of a request. -/
theorem segs_at {is : List Nat} {k x : Nat} (hk : k < is.length) (hx : x < s.bs) :
    s.segs is (k * s.bs + x) = s.data (is[k]) x := by
  have hpos : 0 < s.bs := by omega
  have h₁ : (k * s.bs + x) / s.bs = k := by
    rw [Nat.mul_comm, Nat.mul_add_div hpos, Nat.div_eq_of_lt hx, Nat.add_zero]
  have h₂ : (k * s.bs + x) % s.bs = x := by
    rw [Nat.mul_comm, Nat.mul_add_mod, Nat.mod_eq_of_lt hx]
  simp only [segs, h₁, h₂, List.getD_eq_getElem?_getD, List.getElem?_eq_getElem hk,
    Option.getD_some]

/-- One request, for consecutive blocks from `b0` on. -/
theorem flushRun_spec (h : s.Inv) {b0 : Nat} {es : List (Nat × Nat)} (hl : s.Listed es)
    (hrun : ∀ (k : Nat) (hk : k < es.length), es[k].1 = b0 + k) :
    Flushed es s (s.flushRun b0 es).2 (s.flushRun b0 es).1 := by
  let w := s.dev.write (b0 * (s.bs / SECTOR_SIZE)) (es.length * s.bs / SECTOR_SIZE)
    (s.segs (es.map Prod.snd))
  have hheld : ∀ (k : Nat) (hk : k < es.length), s.Holds es[k].2 (b0 + k) ∧ s.Dirty es[k].2 :=
    fun k hk => by
      obtain ⟨hh, hd⟩ := hl.2 es[k] (List.getElem_mem hk)
      exact ⟨hrun k hk ▸ hh, hh.2.1, hd⟩
  have hout : ∀ b, (∀ i, s.Holds i b → ¬ s.Dirty i) → ∀ x < s.bs,
      w.2.bytes (b * s.bs + x) = s.dev.bytes (b * s.bs + x) := fun b hb x hx => by
    refine Dev.write_outside ?_
    rw [h.sectors, h.sectors', ← Nat.add_mul]
    by_contra hin
    -- a byte inside the request belongs to one of its blocks
    have h₁ : b0 ≤ b := by
      by_contra hlt
      have : (b + 1) * s.bs ≤ b0 * s.bs := Nat.mul_le_mul_right _ (by omega)
      rw [Nat.add_mul] at this
      omega
    have h₂ : b - b0 < es.length := by
      by_contra hge
      have : (b0 + es.length) * s.bs ≤ b * s.bs := Nat.mul_le_mul_right _ (by omega)
      omega
    obtain ⟨hh, hd⟩ := hheld (b - b0) h₂
    rw [Nat.add_sub_cancel' h₁] at hh
    exact hb _ hh hd
  obtain ⟨h₁, hv₁⟩ := h.setDev w.2 hout
  have hK : Keeps (fun _ => False) s { s with dev := w.2 } :=
    ⟨rfl, by simp [w], by simp [w], fun hi => Or.inr ⟨_, hi⟩,
      fun hc _ => hout _ fun i hi => absurd hi (hc i)⟩
  have hform : s.flushRun b0 es = if w.1 then
      (true, markClean { s with dev := w.2 } (es.map Prod.snd)) else
      (false, { s with dev := w.2 }) := rfl
  rw [hform]
  by_cases hw : w.1 = true
  · have hacc := Dev.write_fst.mp hw
    have hdisk : ∀ i ∈ es.map Prod.snd, ∃ b, s.Holds i b ∧ (s.slot i).dirty = true ∧
        s.data i = diskBlock { s with dev := w.2 } b := by
      intro i hi
      obtain ⟨k, hk, rfl⟩ := List.getElem_of_mem hi
      rw [List.length_map] at hk
      obtain ⟨hh, hd⟩ := hheld k hk
      simp only [List.getElem_map]
      refine ⟨b0 + k, hh, hd.2, ?_⟩
      rw [← h.canon hh]
      simp only [diskBlock, w, Dev.write_of_accepts hacc]
      refine clip_congr fun x hx => ?_
      have hin : k * s.bs + x < es.length * s.bs := by
        have : (k + 1) * s.bs ≤ es.length * s.bs := Nat.mul_le_mul_right _ hk
        rw [Nat.add_mul] at this
        omega
      rw [h.sectors, h.sectors', Nat.add_mul, Nat.add_assoc, Dev.splice_inside hin,
        segs_at (by rw [List.length_map]; exact hk) hx, List.getElem_map]
    obtain ⟨g₁, g₂, g₃, g₄, g₅, g₆, g₇⟩ := markClean_spec (es.map Prod.snd) h₁ hl.1 hdisk
    rw [if_pos hw]
    refine ⟨g₁, g₂.trans hv₁, hK.trans (.of_eq g₄ g₃ fun hi => Or.inr ((g₅ _ _).mp hi)),
      g₅ _ _, g₆ _, fun _ e he => g₇ _ (List.mem_map_of_mem he)⟩
  · rw [if_neg hw]
    exact ⟨h₁, hv₁, hK, Iff.rfl, fun _ => rfl, fun e => Bool.noConfusion e⟩

/-! ### The loop -/

/-- The entries `runLen` counts are consecutive. -/
theorem runLen_spec (b0 : Nat) : ∀ (k : Nat) (es : List (Nat × Nat)) (j : Nat),
    k + j < runLen b0 k es → k + j < MAX_SEGS ∧ ∃ hj : j < es.length,
      es[j].1 = (b0 + (k + j)) % 2 ^ 32
  | k, [], j, h => by simp only [runLen] at h; omega
  | k, e :: es, j, h => by
      simp only [runLen] at h
      split at h
      · rename_i hc
        cases j with
        | zero => exact ⟨hc.1, by simp, hc.2⟩
        | succ j =>
            obtain ⟨h₁, h₂, h₃⟩ := runLen_spec b0 (k + 1) es j (by omega)
            exact ⟨by omega, by simpa using h₂, by
              rw [List.getElem_cons_succ, h₃, Nat.add_assoc, Nat.add_comm 1 j]⟩
      · omega

theorem Listed.sublist {l l' : List (Nat × Nat)} (h : s.Listed l) (hs : List.Sublist l' l) :
    s.Listed l' :=
  ⟨h.1.sublist (hs.map Prod.snd), fun e he => h.2 e (hs.subset he)⟩

theorem Flushed.listed {l l' : List (Nat × Nat)} {t : Buf} {ok : Bool} (h : Flushed l s t ok)
    (hl : s.Listed l') (hd : List.Disjoint (l.map Prod.snd) (l'.map Prod.snd)) : t.Listed l' := by
  refine ⟨hl.1, fun e he => ?_⟩
  obtain ⟨hh, hdirty⟩ := hl.2 e he
  refine ⟨h.holds.mpr hh, ?_⟩
  rw [h.others fun hm => hd hm (List.mem_map_of_mem he)]
  exact hdirty

/-- A first request, then the others. -/
theorem Flushed.append {l l' : List (Nat × Nat)} {t u : Buf} {ok ok' : Bool}
    (h : Flushed l s t ok) (h' : Flushed l' t u ok')
    (hd : List.Disjoint (l.map Prod.snd) (l'.map Prod.snd)) : Flushed (l ++ l') s u (ok && ok') where
  inv := h'.inv
  view := h'.view.trans h.view
  keeps := h.keeps.trans h'.keeps
  holds := h'.holds.trans h.holds
  others := fun hi => by
    rw [List.map_append, List.mem_append, not_or] at hi
    exact (h'.others hi.2).trans (h.others hi.1)
  done := fun hok e he => by
    rw [Bool.and_eq_true] at hok
    rcases List.mem_append.mp he with he | he
    · have := h.done hok.1 e he
      rwa [Dirty, h'.others fun hm => hd (List.mem_map_of_mem he) hm]
    · exact h'.done hok.2 e he

/-- The run `flush_dirty` cuts off a sorted list is a run of consecutive blocks. -/
theorem run_consecutive {e : Nat × Nat} {es : List (Nat × Nat)}
    (hsort : (e :: es).Pairwise fun a b => a.1 < b.1) (he : e.1 < 2 ^ 32) (k : Nat)
    (hk : k < ((e :: es).take (runLen e.1 1 es)).length) :
    ((e :: es).take (runLen e.1 1 es))[k].1 = e.1 + k := by
  rw [List.getElem_take]
  rw [List.length_take, lt_min_iff] at hk
  cases k with
  | zero => rfl
  | succ j =>
      obtain ⟨hseg, hj, hval⟩ := runLen_spec e.1 1 es j (by omega)
      have hlt : e.1 < es[j].1 := List.rel_of_pairwise_cons hsort (List.getElem_mem hj)
      rw [List.getElem_cons_succ]
      rw [hval] at hlt ⊢
      simp only [MAX_SEGS] at hseg
      -- a number that had wrapped around would be below `e.1`
      omega

/-- A run and what is left of the list after it. -/
theorem split_at_run {e : Nat × Nat} {es : List (Nat × Nat)} {k : Nat} (hk : 1 ≤ k) :
    (e :: es).take k ++ es.drop (k - 1) = e :: es := by
  obtain ⟨m, rfl⟩ : ∃ m, k = m + 1 := ⟨k - 1, by omega⟩
  simp

theorem flushLoop_spec (l : List (Nat × Nat)) : ∀ {s : Buf} (ok : Bool), s.Inv → s.Listed l →
    (l.Pairwise fun a b => a.1 < b.1) →
    Flushed l s (s.flushLoop ok l).2 (s.flushLoop ok l).1 ∧
      ((s.flushLoop ok l).1 = true → ok = true) := by
  induction hn : l.length using Nat.strong_induction_on generalizing l with
  | _ n ih =>
  intro s ok h hl hsort
  subst hn
  cases l with
  | nil =>
      rw [flushLoop]
      exact ⟨⟨h, rfl, .refl s, Iff.rfl, fun _ => rfl, fun _ e he => by simp at he⟩, id⟩
  | cons e es =>
      rw [flushLoop]
      have hpos : 1 ≤ runLen e.1 1 es := le_runLen e.1 1 es
      set k := runLen e.1 1 es with hk
      have hsplit : (e :: es).take k ++ es.drop (k - 1) = e :: es := split_at_run hpos
      have hnd : ((e :: es).take k ++ es.drop (k - 1)).map Prod.snd |>.Nodup := by
        rw [hsplit]; exact hl.1
      rw [List.map_append] at hnd
      have hdisj := List.disjoint_of_nodup_append hnd
      have hfirst : Flushed _ s _ _ := flushRun_spec h (hl.sublist (List.take_sublist k _))
        (run_consecutive hsort (h.num (hl.2 e List.mem_cons_self).1))
      set r := s.flushRun e.1 ((e :: es).take k)
      have hsub : List.Sublist (es.drop (k - 1)) (e :: es) :=
        (List.drop_sublist _ _).trans (List.sublist_cons_self _ _)
      obtain ⟨hrest, hok⟩ := ih (es.drop (k - 1)).length
        (by simp only [List.length_drop, List.length_cons]; omega) (es.drop (k - 1)) rfl (ok && r.1) hfirst.inv (hfirst.listed (hl.sublist hsub) hdisj) (hsort.sublist hsub)
      have := hfirst.append hrest hdisj
      rw [hsplit] at this
      refine ⟨⟨this.inv, this.view, this.keeps, this.holds, this.others, fun ht => ?_⟩, fun ht => ?_⟩
      · have hr : r.1 = true := ((Bool.and_eq_true ..).mp (hok ht)).2
        exact this.done ((Bool.and_eq_true ..).mpr ⟨hr, ht⟩)
      · exact ((Bool.and_eq_true ..).mp (hok ht)).1

/-! ### `flush_dirty` and `bdirty` -/

theorem mem_dirtyList {e : Nat × Nat} :
    e ∈ s.dirtyList ↔ e.2 < SLOTS ∧ s.Dirty e.2 ∧ (s.slot e.2).blk = e.1 := by
  obtain ⟨b, i⟩ := e
  simp only [dirtyList, List.mem_map, List.mem_filter, List.mem_range, Bool.and_eq_true, Prod.mk.injEq]
  constructor
  · rintro ⟨j, ⟨hj, hd⟩, rfl, rfl⟩
    exact ⟨hj, hd, rfl⟩
  · rintro ⟨hi, hd, rfl⟩
    exact ⟨i, ⟨hi, hd⟩, rfl, rfl⟩

theorem listed_dirtyList : s.Listed s.dirtyList := by
  refine ⟨?_, fun e he => ?_⟩
  · have : s.dirtyList.map Prod.snd =
        (List.range SLOTS).filter fun i => (s.slot i).valid && (s.slot i).dirty := by
      simp only [dirtyList, List.map_map]
      exact List.map_id _
    rw [this]
    exact List.nodup_range.filter _
  · obtain ⟨hlt, hd, hb⟩ := mem_dirtyList.mp he
    exact ⟨⟨hlt, hd.1, hb⟩, hd.2⟩

theorem listed_sorted : s.Listed (s.dirtyList.mergeSort fun e e' => decide (e.1 ≤ e'.1)) := by
  have hperm := List.mergeSort_perm s.dirtyList fun e e' => decide (e.1 ≤ e'.1)
  exact ⟨((hperm.map Prod.snd).nodup_iff).mpr listed_dirtyList.1,
    fun e he => listed_dirtyList.2 e (hperm.mem_iff.mp he)⟩

/-- The sorted list has each block once. -/
theorem Inv.sorted_dirtyList (h : s.Inv) :
    (s.dirtyList.mergeSort fun e e' => decide (e.1 ≤ e'.1)).Pairwise fun a b => a.1 < b.1 := by
  set l := s.dirtyList.mergeSort fun e e' => decide (e.1 ≤ e'.1) with hl
  have hperm : l.Perm s.dirtyList := List.mergeSort_perm _ _
  have hle : l.Pairwise fun a b => a.1 ≤ b.1 := by
    have := @List.pairwise_mergeSort _ (fun e e' : Nat × Nat => decide (e.1 ≤ e'.1))
      (by simp only [decide_eq_true_eq]; omega) (by simp only [Bool.or_eq_true, decide_eq_true_eq]; omega)
      s.dirtyList
    exact this.imp fun hab => by simpa using hab
  have hnd : l.Pairwise fun a b => a ≠ b :=
    hperm.nodup_iff.mpr (List.Nodup.of_map Prod.snd listed_dirtyList.1)
  refine (hle.and hnd).imp_of_mem fun {a b} ha hb hab => Nat.lt_of_le_of_ne hab.1 fun e => hab.2 ?_
  have ha' := (listed_dirtyList.2 a (hperm.mem_iff.mp ha)).1
  have hb' := (listed_dirtyList.2 b (hperm.mem_iff.mp hb)).1
  exact Prod.ext e (h.uniq ha' (e ▸ hb'))

/-- **`flush_dirty`.**  The view, and which slot holds what, stay; if it reports success no slot
is dirty any more. -/
theorem flushDirty_spec (h : s.Inv) :
    s.flushDirty.2.Inv ∧ s.flushDirty.2.view = s.view ∧ Keeps (fun _ => False) s s.flushDirty.2 ∧
      (∀ i b, s.flushDirty.2.Holds i b ↔ s.Holds i b) ∧
      (s.flushDirty.1 = true → ∀ i < SLOTS, ¬ s.flushDirty.2.Dirty i) := by
  have hempty : s.dirtyList = [] → ∀ i < SLOTS, ¬ s.Dirty i := fun hl i hi hd => by
    have : ((s.slot i).blk, i) ∈ s.dirtyList := mem_dirtyList.mpr ⟨hi, hd, rfl⟩
    simp [hl] at this
  unfold flushDirty
  by_cases h0 : s.dirtyCount = 0
  · rw [if_pos h0]
    refine ⟨h, rfl, .refl s, fun _ _ => Iff.rfl, fun _ i hi hd => ?_⟩
    have hc := h.count
    rw [h0] at hc
    have := Finset.card_eq_zero.mp hc.symm
    exact absurd (Finset.mem_filter.mpr ⟨Finset.mem_range.mpr hi, hd⟩) (by rw [this]; simp)
  · rw [if_neg h0]
    cases hl : s.dirtyList with
    | nil =>
        -- not reachable under `h.count`, but harmless
        exfalso
        refine h0 ?_
        rw [h.count, Finset.card_eq_zero, Finset.filter_eq_empty_iff]
        exact fun i hi => hempty hl i (Finset.mem_range.mp hi)
    | cons e es =>
        have hsort := h.sorted_dirtyList
        have hperm : (s.dirtyList.mergeSort fun e e' => decide (e.1 ≤ e'.1)).Perm s.dirtyList :=
          List.mergeSort_perm _ _
        obtain ⟨hF, -⟩ := flushLoop_spec _ true h listed_sorted hsort
        rw [hl] at hF hperm
        refine ⟨hF.inv, hF.view, hF.keeps, fun _ _ => hF.holds, fun hok i hi hd => ?_⟩
        by_cases hm : i ∈ ((e :: es).mergeSort fun e e' => decide (e.1 ≤ e'.1)).map Prod.snd
        · obtain ⟨x, hx, rfl⟩ := List.mem_map.mp hm
          exact hF.done hok x hx hd
        · rw [Dirty, hF.others hm] at hd
          refine hm (List.mem_map.mpr ⟨((s.slot i).blk, i), hperm.mem_iff.mpr ?_, rfl⟩)
          rw [← hl]
          exact mem_dirtyList.mpr ⟨hi, hd, rfl⟩

/-- A change in place and `bdirty` make the slot dirty with the new contents, and may flush. -/
theorem bdirty_poke_cases (h : s.Inv) {i b : Nat} (hi : s.Holds i b) (f : Bytes → Bytes) :
    ∃ t : Buf, t.Inv ∧ (∀ j c, t.Holds j c ↔ s.Holds j c) ∧
      t.view = Function.update s.view b (clip s.bs (f (s.view b))) ∧ t.bs = s.bs ∧ t.dev = s.dev ∧
      (bdirty b (poke i f s) = t ∨ bdirty b (poke i f s) = t.flushDirty.2) := by
  obtain ⟨h₁, h₂, h₃⟩ := h.put hi (f (s.data i))
  rw [← h.view_held hi] at h₁ h₂ h₃
  set t : Buf := { ((s.setData i (f (s.view b))).setSlot i { s.slot i with dirty := true }) with
    dirtyCount := s.dirtyCount + (if (s.slot i).dirty then 0 else 1) } with ht
  have hh : ∀ j c, t.Holds j c ↔ s.Holds j c := fun j c => by
    by_cases e : j = i
    · subst e; simp [Holds, t]
    · simp [Holds, t, Function.update_of_ne e]
  have hfind : (poke i f s).find b = some i := h.find_iff.mpr hi
  have hform : bdirty b (poke i f s) =
      if (s.slot i).dirty then t else if 256 ≤ t.dirtyCount then t.flushDirty.2 else t := by
    have hslot : (poke i f s).slot = s.slot := rfl
    simp only [bdirty, hfind, hslot]
    rw [ht, h.view_held hi]
    by_cases hd : (s.slot i).dirty = true
    · have hx : ({ s.slot i with dirty := true } : Slot) = s.slot i := by rw [← hd]
      simp only [hd, if_true, hx, setSlot, setData_slot, Function.update_eq_self, Nat.add_zero]
      rfl
    · simp only [hd, if_false, Bool.false_eq_true]
      rfl
  refine ⟨t, h₁, hh, h₃, rfl, rfl, ?_⟩
  rw [hform]
  split
  · exact Or.inl rfl
  · split
    · exact Or.inr rfl
    · exact Or.inl rfl

/-- **A change in place, then `bdirty`.** -/
theorem bdirty_poke_spec (h : s.Inv) {i b : Nat} (hi : s.Holds i b) (f : Bytes → Bytes) :
    (bdirty b (poke i f s)).Inv ∧
      (bdirty b (poke i f s)).view = Function.update s.view b (clip s.bs (f (s.view b))) ∧
      Keeps (fun _ => False) s (bdirty b (poke i f s)) ∧
      ∀ j c, (bdirty b (poke i f s)).Holds j c ↔ s.Holds j c := by
  obtain ⟨t, h₁, hh, hv, hbs, hdev, hform⟩ := bdirty_poke_cases h hi f
  have hK : Keeps (fun _ => False) s t := .of_eq hbs hdev fun hj => Or.inr ((hh _ _).mp hj)
  rcases hform with e | e
  · rw [e]
    exact ⟨h₁, hv, hK, hh⟩
  · rw [e]
    obtain ⟨g₁, g₂, g₃, g₄, -⟩ := flushDirty_spec h₁
    exact ⟨g₁, g₂.trans hv, hK.trans g₃, fun j c => (g₄ j c).trans (hh j c)⟩

end Pulsar.Ext2.Buf

import Pulsar.Ext2.Volume

/-!
# The cache over a device that works

`Plain` is what the cache is for: an array of blocks `mem`, over a disk that lags behind it.
`Plain.Step` says what each operation may answer and do; the only freedom it leaves is which
blocks reach the disk early.  When the device carries out every request, every run of the cache
is a run of `Plain` (`exec_refines`, `run_refines`).
-/

namespace Pulsar.Ext2

namespace Buf

variable {s t : Buf}

/-- The device fails nothing, and the blocks in the cache lie on it. -/
structure Calm (s : Buf) : Prop where
  works : ∀ n, s.dev.fails n = false
  on : ∀ {i b}, s.Holds i b → (b + 1) * s.bs ≤ s.dev.capacity * SECTOR_SIZE

theorem Calm.keep (h : s.Calm) {N : Nat → Prop} (hK : Keeps N s t)
    (hN : ∀ b, N b → (b + 1) * s.bs ≤ s.dev.capacity * SECTOR_SIZE) : t.Calm where
  works := fun n => by rw [hK.fails]; exact h.works n
  on := fun {i b} hi => by
    rw [hK.bs, hK.cap]
    exact (hK.held hi).elim (hN b) fun ⟨_, hj⟩ => h.on hj

theorem Calm.accepts (h : s.Calm) (hI : s.Inv) {b n : Nat}
    (hb : (b + n) * s.bs ≤ s.dev.capacity * SECTOR_SIZE) :
    s.dev.Accepts (b * (s.bs / SECTOR_SIZE)) (n * s.bs / SECTOR_SIZE) := by
  refine ⟨?_, h.works _⟩
  have : (b * (s.bs / SECTOR_SIZE) + n * s.bs / SECTOR_SIZE) * SECTOR_SIZE ≤
      s.dev.capacity * SECTOR_SIZE := by
    rw [Nat.add_mul, hI.sectors, hI.sectors', ← Nat.add_mul]
    exact hb
  exact Nat.le_of_mul_le_mul_right this (by decide)

theorem Calm.accepts_one (h : s.Calm) (hI : s.Inv) {b : Nat}
    (hb : (b + 1) * s.bs ≤ s.dev.capacity * SECTOR_SIZE) :
    s.dev.Accepts (b * (s.bs / SECTOR_SIZE)) (s.bs / SECTOR_SIZE) := by
  have := h.accepts hI hb
  rwa [Nat.one_mul] at this

/-! ### Every call goes through -/

theorem writeBack_calm (h : s.Calm) (hI : s.Inv) {v : Nat} (hv : v < SLOTS) :
    (s.writeBack v).1 = true ∧
      ∀ c, (s.writeBack v).2.diskBlock c = s.diskBlock c ∨
        (s.writeBack v).2.diskBlock c = s.view c := by
  by_cases hd : s.Dirty v
  · have hb : s.Holds v (s.slot v).blk := ⟨hv, hd.1, rfl⟩
    have hacc := h.accepts_one hI (h.on hb)
    have hc : ((s.slot v).valid && (s.slot v).dirty) = true := by simp [hd.1, hd.2]
    have hok : (s.writeBack v).1 = true := by
      simp only [writeBack, hc, if_true, Dev.write_of_accepts hacc]
    refine ⟨hok, fun c => ?_⟩
    obtain ⟨h₁, h₂, hK, h₄, h₅⟩ := writeBack_spec hI v hv
    by_cases e : c = (s.slot v).blk
    · -- the slot is clean now, so the disk has its contents
      right
      subst e
      have hb' := (h₄ v _).mpr hb
      have hclean : ((s.writeBack v).2.slot v).dirty = false := by
        rw [← Bool.not_eq_true]
        exact fun hx => h₅ hok ⟨hb'.2.1, hx⟩
      rw [← h₁.clean hb' hclean, ← h₁.view_held hb', h₂]
    · left
      refine diskBlock_congr hK.bs fun x hx => ?_
      simp only [writeBack, hc, if_true, Dev.write_of_accepts hacc]
      refine Dev.splice_outside ?_
      rw [hI.sectors, hI.sector_count]
      exact apart e hx
  · have hc : ((s.slot v).valid && (s.slot v).dirty) = false := by
      rw [Bool.and_eq_false_iff, ← Bool.not_eq_true, ← Bool.not_eq_true, ← not_and_or]
      exact hd
    simp only [writeBack, hc, Bool.false_eq_true, if_false]
    exact ⟨trivial, fun _ => Or.inl trivial⟩

theorem supply_calm (h : s.Calm) (hI : s.Inv) {v b : Nat} (ld : Bool)
    (hb : (b + 1) * s.bs ≤ s.dev.capacity * SECTOR_SIZE) :
    (s.supply v b ld).1 = true ∧ ∀ c, (s.supply v b ld).2.diskBlock c = s.diskBlock c := by
  cases ld with
  | false => exact ⟨rfl, fun _ => rfl⟩
  | true =>
      have hacc := h.accepts_one hI hb
      simp only [supply, if_true, load, Dev.read_of_accepts hacc]
      exact ⟨trivial, fun _ => rfl⟩

/-- `bget` finds its block. -/
theorem bget_calm (h : s.Calm) (hI : s.Inv) {b : Nat} (ld : Bool)
    (hb : (b + 1) * s.bs ≤ s.dev.capacity * SECTOR_SIZE) :
    ∃ i t, bget b ld s = .ok i t ∧ ∀ c, t.diskBlock c = s.diskBlock c ∨ t.diskBlock c = s.view c := by
  obtain ⟨hI₁, hv₁⟩ : Inv { s with tick := s.tick + 1 } ∧
      view { s with tick := s.tick + 1 } = s.view := by
    have := hI.touch 0 (s.slot 0).used (s.tick + 1)
    simpa [setSlot] using this
  have h₁ : Calm { s with tick := s.tick + 1 } := ⟨h.works, h.on⟩
  have hd₁ : ∀ c, diskBlock { s with tick := s.tick + 1 } c = s.diskBlock c := fun _ => rfl
  have hbs : (b + 1) * ({ s with tick := s.tick + 1 } : Buf).bs ≤
      ({ s with tick := s.tick + 1 } : Buf).dev.capacity * SECTOR_SIZE := hb
  unfold bget
  rw [← hv₁]
  simp only [← hd₁]
  generalize ({ s with tick := s.tick + 1 } : Buf) = s₁ at *
  cases hf : s₁.find b with
  | some i => exact ⟨i, _, rfl, fun _ => Or.inl rfl⟩
  | none =>
      have hvw := lt_slots_of_mem_ways (victim_mem_ways s₁ s₁.tick b)
      simp only [bgetMiss]
      set v := s₁.victim s₁.tick (ways b) (setOf b * WAYS)
      obtain ⟨hok, hdisk⟩ := writeBack_calm h₁ hI₁ hvw
      obtain ⟨hI₂, -, hK₂, -, hnd⟩ := writeBack_spec hI₁ v hvw
      have h₂ := h₁.keep hK₂ fun _ hx => hx.elim
      obtain ⟨hI₃, -, hK₃, -⟩ := claim_spec hI₂ (hnd hok) b
      have h₃ := h₂.keep hK₃ fun _ hx => hx.elim
      obtain ⟨hok', hsame⟩ := supply_calm h₃ hI₃ (v := v) (b := b) ld (by
        rw [hK₃.bs, hK₃.cap, hK₂.bs, hK₂.cap]; exact hbs)
      rw [if_pos hok, if_pos hok']
      refine ⟨v, _, rfl, fun c => ?_⟩
      rw [hsame c]
      exact hdisk c

theorem flushLoop_calm (l : List (Nat × Nat)) : ∀ {s : Buf} (ok : Bool), s.Calm → s.Inv →
    s.Listed l → (l.Pairwise fun a b => a.1 < b.1) → (s.flushLoop ok l).1 = ok := by
  induction hn : l.length using Nat.strong_induction_on generalizing l with
  | _ n ih =>
  intro s ok hc h hl hsort
  subst hn
  cases l with
  | nil => rw [flushLoop]
  | cons e es =>
      rw [flushLoop]
      have hpos : 1 ≤ runLen e.1 1 es := le_runLen e.1 1 es
      set k := runLen e.1 1 es with hk
      have hsplit : (e :: es).take k ++ es.drop (k - 1) = e :: es := split_at_run hpos
      have hnd : ((e :: es).take k ++ es.drop (k - 1)).map Prod.snd |>.Nodup := by
        rw [hsplit]; exact hl.1
      rw [List.map_append] at hnd
      have hrun := run_consecutive hsort (h.num (hl.2 e List.mem_cons_self).1)
      have hfirst : Flushed _ s _ _ := flushRun_spec h (hl.sublist (List.take_sublist k _)) hrun
      have hlast : (e.1 + ((e :: es).take k).length) * s.bs ≤ s.dev.capacity * SECTOR_SIZE := by
        have hpos' : 0 < ((e :: es).take k).length := by
          rw [List.length_take, List.length_cons]; omega
        have hlt : ((e :: es).take k).length - 1 < ((e :: es).take k).length := by omega
        have hon := hc.on (hl.2 _ (List.mem_of_mem_take (List.getElem_mem hlt))).1
        rw [hrun _ hlt, Nat.add_assoc, Nat.sub_add_cancel hpos'] at hon
        exact hon
      have hr : (s.flushRun e.1 ((e :: es).take k)).1 = true := by
        simp only [flushRun, Dev.write_of_accepts (hc.accepts h hlast), if_true]
      have hsub : List.Sublist (es.drop (k - 1)) (e :: es) :=
        (List.drop_sublist _ _).trans (List.sublist_cons_self _ _)
      rw [ih (es.drop (k - 1)).length (by simp only [List.length_drop, List.length_cons]; omega)
        (es.drop (k - 1)) rfl (ok && _) (hc.keep hfirst.keeps fun _ hx => hx.elim) hfirst.inv
        (hfirst.listed (hl.sublist hsub) (List.disjoint_of_nodup_append hnd)) (hsort.sublist hsub),
        hr, Bool.and_true]

theorem flushDirty_calm (hc : s.Calm) (h : s.Inv) : s.flushDirty.1 = true := by
  unfold flushDirty
  split
  · rfl
  · split
    · rfl
    · exact flushLoop_calm _ true hc h listed_sorted h.sorted_dirtyList

theorem Inv.disk_eq_view (h : s.Inv) (hd : ∀ i < SLOTS, ¬ s.Dirty i) (b : Nat) :
    s.diskBlock b = s.view b := by
  by_cases hb : ∃ i, s.Holds i b
  · obtain ⟨i, hi⟩ := hb
    rw [h.view_held hi]
    refine (h.clean hi ?_).symm
    rw [← Bool.not_eq_true]
    exact fun hx => hd i hi.1 ⟨hi.2.1, hx⟩
  · rw [h.view_unheld fun i hi => hb ⟨i, hi⟩]

theorem Inv.dirty_of_ne (h : s.Inv) {b : Nat} (hb : s.view b ≠ s.diskBlock b) :
    ∃ i, s.Holds i b ∧ s.Dirty i ∧ s.data i = s.view b := by
  by_cases hx : ∃ i, s.Holds i b
  · obtain ⟨i, hi⟩ := hx
    refine ⟨i, hi, ⟨hi.2.1, ?_⟩, (h.view_held hi).symm⟩
    by_contra hd
    rw [Bool.not_eq_true] at hd
    exact hb ((h.view_held hi).trans (h.clean hi hd))
  · exact absurd (h.view_unheld fun i hi => hx ⟨i, hi⟩) hb

theorem bdirty_poke_calm (hc : s.Calm) (h : s.Inv) {i b : Nat} (hi : s.Holds i b)
    (f : Bytes → Bytes) (c : Nat) :
    (bdirty b (poke i f s)).diskBlock c = s.diskBlock c ∨
      (bdirty b (poke i f s)).diskBlock c = (bdirty b (poke i f s)).view c := by
  obtain ⟨t, h₁, hh, -, hbs, hdev, hform⟩ := bdirty_poke_cases h hi f
  have hc₁ : t.Calm := hc.keep (N := fun _ => False)
    (.of_eq hbs hdev fun hj => Or.inr ((hh _ _).mp hj)) fun _ hx => hx.elim
  rcases hform with e | e
  · rw [e]
    exact Or.inl (by simp only [diskBlock, hbs, hdev])
  · rw [e]
    obtain ⟨g₁, -, -, -, g₅⟩ := flushDirty_spec h₁
    exact Or.inr (g₁.disk_eq_view (g₅ (flushDirty_calm hc₁ h₁)) c)

end Buf

/-! ### The plain array -/

/-- An array of blocks, over a disk that lags behind it. -/
structure Plain where
  mem : Nat → Bytes
  disk : Nat → Bytes

namespace Plain

/-- `bget` of block `b`: a new block that was not in memory becomes zeros. -/
def fetch (a : Plain) (b : Nat) (ld wasCached : Bool) : Nat → Bytes :=
  if ld || wasCached then a.mem else Function.update a.mem b fun _ => 0

theorem fetch_agree {a a' : Plain} {c : Nat} (h : a.mem c = a'.mem c) (b : Nat) (ld k : Bool) :
    a.fetch b ld k c = a'.fetch b ld k c := by
  unfold fetch
  split
  · exact h
  · by_cases e : c = b
    · subst e; simp
    · simp [Function.update_of_ne e, h]

/-- What the disk of `a'` has is what it had, or what memory held before or after the step. -/
def Lags (a a' : Plain) : Prop :=
  ∀ b, a'.disk b = a.disk b ∨ a'.disk b = a.mem b ∨ a'.disk b = a'.mem b

/-- One operation, on blocks of `n` bytes. -/
def Step (n : Nat) (a : Plain) : Op → Answer → Plain → Prop
  | .get b ld, .block c d, a' =>
    d = a.fetch b ld c b ∧ a'.mem = a.fetch b ld c ∧ a.Lags a'
  | .write b ld f, .block c d, a' =>
    d = a.fetch b ld c b ∧ a'.mem = Function.update (a.fetch b ld c) b (clip n (f d)) ∧ a.Lags a'
  | .forget b, .done, a' => a'.mem = Function.update a.mem b (a.disk b) ∧ a'.disk = a.disk
  | .prefetch _ _, .done, a' => a' = a
  | .flush, .flushed ok, a' => ok = true ∧ a'.mem = a.mem ∧ a'.disk = a.mem
  | .sync _, .flushed ok, a' => ok = true ∧ a'.mem = a.mem ∧ a'.disk = a.mem
  | _, _, _ => False

/-- Operations one after the other, with their answers. -/
inductive Run (n : Nat) : Plain → List Op → List Answer → Plain → Prop where
  | nil (a : Plain) : Run n a [] [] a
  | cons {a a₁ a' : Plain} {op : Op} {r : Answer} {ops : List Op} {rs : List Answer}
      (h : a.Step n op r a₁) (t : Run n a₁ ops rs a') : Run n a (op :: ops) (r :: rs) a'

end Plain

/-! ### The cache refines it -/

/-- The blocks an operation names have `u32` numbers and lie on a device of `cap` sectors. -/
def Op.On (n cap : Nat) : Op → Prop
  | .get b _ | .write b _ _ => b < 2 ^ 32 ∧ (b + 1) * n ≤ cap * SECTOR_SIZE
  | .prefetch b m =>
    b + min m MAX_SEGS ≤ 2 ^ 32 ∧ (b + min m MAX_SEGS) * n ≤ cap * SECTOR_SIZE
  | .forget _ | .flush | .sync _ => True

namespace Vol

/-- The cache of `v` shows the array `a`, and `SB_COUNTS` is up to date. -/
structure Shows (v : Vol) (a : Plain) : Prop where
  inv : v.buf.Inv
  calm : v.buf.Calm
  sees : v.buf.view = a.mem
  disk : v.buf.diskBlock = a.disk
  counts : v.fs.mounted = true → v.sbCounts = v.counts

theorem Shows.next {v : Vol} {a a' : Plain} (h : v.Shows a) {t : Buf} (hI : t.Inv) {N : Nat → Prop}
    (hK : Buf.Keeps N v.buf t)
    (hN : ∀ b, N b → (b + 1) * v.buf.bs ≤ v.buf.dev.capacity * SECTOR_SIZE)
    (hv : t.view = a'.mem) (hd : t.diskBlock = a'.disk) : Shows { v with buf := t } a' :=
  ⟨hI, h.calm.keep hK hN, hv, hd, h.counts⟩

theorem Shows.flush {v : Vol} {a : Plain} (h : v.Shows a) :
    v.buf.flushDirty.1 = true ∧ Shows { v with buf := v.buf.flushDirty.2 } ⟨a.mem, a.mem⟩ := by
  obtain ⟨h₁, h₂, h₃, -, h₅⟩ := Buf.flushDirty_spec h.inv
  have hok := Buf.flushDirty_calm h.calm h.inv
  have hv := h₂.trans h.sees
  exact ⟨hok, h.next h₁ h₃ (fun _ hx => hx.elim) hv
    (by funext b; rw [h₁.disk_eq_view (h₅ hok), hv])⟩

theorem Shows.sync_eq {v : Vol} {a : Plain} (h : v.Shows a) (now : UInt32) :
    v.sync now = (v.buf.flushDirty.1, { v with buf := v.buf.flushDirty.2 }) := by
  have : ¬ (v.fs.mounted = true ∧ v.sbCounts ≠ v.counts) := fun hx => hx.2 (h.counts hx.1)
  simp only [sync, syncSuper, this, if_false, Bool.and_true]

/-- **One operation** of the cache is one of the plain array. -/
theorem exec_refines {v : Vol} {a : Plain} (h : v.Shows a) {op : Op}
    (hon : op.On v.buf.bs v.buf.dev.capacity) :
    ∃ a', a.Step v.buf.bs op (v.exec op).1 a' ∧ (v.exec op).2.Shows a' ∧
      (v.exec op).2.buf.bs = v.buf.bs ∧ (v.exec op).2.buf.dev.capacity = v.buf.dev.capacity := by
  cases op with
  | get b ld =>
      obtain ⟨i, t, he, hdisk⟩ := Buf.bget_calm h.calm h.inv ld hon.2
      obtain ⟨h₁, h₂, h₃, h₄⟩ := (Buf.bget_spec h.inv hon.1 ld).ok he
      have hv : t.view = a.fetch b ld (v.buf.cached b) := by
        rw [h₄, Plain.fetch, h.sees]
      refine ⟨⟨a.fetch b ld (v.buf.cached b), t.diskBlock⟩, ?_, ?_⟩
      · simp only [exec, he]
        exact ⟨by rw [← hv, h₁.view_held h₂], rfl, fun c => by
          rw [← h.disk, ← h.sees]; exact (hdisk c).imp_right Or.inl⟩
      · simp only [exec, he]
        exact ⟨h.next h₁ h₃ (fun c hc => hc ▸ hon.2) hv rfl, h₃.bs, h₃.cap⟩
  | write b ld f =>
      obtain ⟨i, t, he, hdisk⟩ := Buf.bget_calm h.calm h.inv ld hon.2
      obtain ⟨h₁, h₂, h₃, h₄⟩ := (Buf.bget_spec h.inv hon.1 ld).ok he
      have hv : t.view = a.fetch b ld (v.buf.cached b) := by
        rw [h₄, Plain.fetch, h.sees]
      have hd : t.data i = a.fetch b ld (v.buf.cached b) b := by rw [← hv, h₁.view_held h₂]
      have hcalm := h.calm.keep h₃ fun c hc => by rw [hc]; exact hon.2
      obtain ⟨g₁, g₂, g₃, -⟩ := Buf.bdirty_poke_spec h₁ h₂ f
      have hK := h₃.trans (g₃.mono fun _ hx => hx.elim)
      refine ⟨⟨Function.update (a.fetch b ld (v.buf.cached b)) b (clip v.buf.bs (f (t.data i))),
        ((t.poke i f).bdirty b).diskBlock⟩, ?_, ?_⟩
      · simp only [exec, he]
        refine ⟨hd, rfl, fun c => ?_⟩
        rw [← h.disk, ← h.sees]
        rcases Buf.bdirty_poke_calm hcalm h₁ h₂ f c with e | e
        · exact (hdisk c).imp e.trans fun hx => Or.inl (e.trans hx)
        · refine Or.inr (Or.inr ?_)
          rw [hd, ← hv, ← h₃.bs, ← g₂]
          exact e
      · simp only [exec, he]
        exact ⟨h.next g₁ hK (fun c hc => hc ▸ hon.2) (by rw [g₂, hv, hd, h₃.bs]) rfl, hK.bs, hK.cap⟩
  | forget b =>
      obtain ⟨h₁, h₂, h₃, -, -, h₅⟩ := Buf.bforget_spec h.inv b
      refine ⟨⟨Function.update a.mem b (a.disk b), a.disk⟩, ⟨rfl, rfl⟩, ?_, h₃.bs, h₃.cap⟩
      exact h.next h₁ h₃ (fun _ hx => hx.elim) (by rw [h₂, h.sees, h.disk]) (h₅.trans h.disk)
  | prefetch b n =>
      obtain ⟨h₁, h₂, h₃, h₄⟩ := Buf.prefetch_spec h.inv hon.1
      refine ⟨a, rfl, h.next h₁ h₃ ?_ (h₂.trans h.sees) (h₄.trans h.disk), h₃.bs, h₃.cap⟩
      rintro c ⟨k, hk, rfl⟩
      have hlt : b + k < 2 ^ 32 := (Nat.add_lt_add_left hk b).trans_le hon.1
      rw [Nat.mod_eq_of_lt hlt]
      exact (Nat.mul_le_mul_right _ (Nat.add_lt_add_left hk b)).trans hon.2
  | flush =>
      obtain ⟨hok, hs⟩ := h.flush
      have hK := (Buf.flushDirty_spec h.inv).2.2.1
      exact ⟨⟨a.mem, a.mem⟩, ⟨hok, rfl, rfl⟩, hs, hK.bs, hK.cap⟩
  | sync now =>
      obtain ⟨hok, hs⟩ := h.flush
      have hK := (Buf.flushDirty_spec h.inv).2.2.1
      simp only [exec, h.sync_eq]
      exact ⟨⟨a.mem, a.mem⟩, ⟨hok, rfl, rfl⟩, hs, hK.bs, hK.cap⟩

/-- **A run** of the cache is a run of the plain array. -/
theorem run_refines : ∀ (ops : List Op) {v : Vol} {a : Plain}, v.Shows a →
    (∀ op ∈ ops, op.On v.buf.bs v.buf.dev.capacity) →
    ∃ a', Plain.Run v.buf.bs a ops (v.run ops).1 a' ∧ (v.run ops).2.Shows a'
  | [], _, a, h, _ => ⟨a, .nil a, h⟩
  | op :: ops, v, a, h, hon => by
      obtain ⟨a₁, hs, h₁, hbs, hcap⟩ := exec_refines h (hon op List.mem_cons_self)
      obtain ⟨a', hr, h'⟩ := run_refines ops h₁ fun o ho => by
        rw [hbs, hcap]; exact hon o (List.mem_cons_of_mem op ho)
      rw [hbs] at hr
      exact ⟨a', .cons hs hr, h'⟩

/-- What `mount` leaves: an empty cache, and `SB_COUNTS` read from the disk. -/
structure Mounted (v : Vol) : Prop where
  size : v.buf.bs = 1024 ∨ v.buf.bs = 2048 ∨ v.buf.bs = 4096
  empty : ∀ i, (v.buf.slot i).valid = false
  clean : v.buf.dirtyCount = 0
  counts : v.sbCounts = v.counts
  super : v.diskCounts = (v.sbCounts.1.toNat, v.sbCounts.2.toNat)
  mounted : v.fs.mounted = true

theorem Mounted.inv {v : Vol} (h : v.Mounted) : v.buf.Inv := by
  have hno : ∀ {i b}, ¬ v.buf.Holds i b := fun {i b} hi =>
    Bool.noConfusion ((h.empty i).symm.trans hi.2.1)
  exact
    { sector := by rcases h.size with e | e | e <;> rw [e] <;> decide
      pos := by rcases h.size with e | e | e <;> rw [e] <;> decide
      home := fun hi => absurd hi hno
      uniq := fun hi => absurd hi hno
      num := fun hi => absurd hi hno
      canon := fun hi => absurd hi hno
      clean := fun hi => absurd hi hno
      count := by
        rw [h.clean, eq_comm, Finset.card_eq_zero, Finset.filter_eq_empty_iff]
        exact fun i _ hd => Bool.noConfusion ((h.empty i).symm.trans hd.1) }

theorem Mounted.unheld {v : Vol} (h : v.Mounted) (i b : Nat) : ¬ v.buf.Holds i b := fun hi =>
  Bool.noConfusion ((h.empty i).symm.trans hi.2.1)

theorem Mounted.shows {v : Vol} (h : v.Mounted) (hw : ∀ n, v.buf.dev.fails n = false) :
    v.Shows ⟨v.buf.diskBlock, v.buf.diskBlock⟩ where
  inv := h.inv
  calm := ⟨hw, fun {i b} hi => absurd hi (h.unheld i b)⟩
  sees := funext fun b => h.inv.view_unheld fun i => h.unheld i b
  disk := rfl
  counts := fun _ => h.counts

theorem syncSuper_view {v : Vol} (h : v.buf.Inv) {i b : Nat} (hi : v.buf.Holds i b)
    (now : UInt32) : (v.syncSuper now).2.buf.view b = v.buf.view b := by
  have hslot : (v.syncSuper now).2.buf.find b = v.buf.find b ∧
      (v.syncSuper now).2.buf.data = v.buf.data := by
    unfold syncSuper
    split <;> exact ⟨rfl, rfl⟩
  have hfind : v.buf.find b = some i := h.find_iff.mpr hi
  rw [Buf.view, Buf.view, hslot.1, hslot.2, hfind]

/-- **The cache is transparent.**  After any operations on a volume just mounted, on a device that
works, the answers are those of the plain array started from the disk; the array is what a reader
of the cache sees; no block is in two slots; `DIRTY_COUNT` is right; what the disk lacks is in a
dirty slot; and `sync`, whatever the counters are, writes the superblock past the copies. -/
theorem cache_transparent {v : Vol} (h : v.Mounted) (hw : ∀ n, v.buf.dev.fails n = false)
    (ops : List Op) (hon : ∀ op ∈ ops, op.On v.buf.bs v.buf.dev.capacity) :
    ∃ a, Plain.Run v.buf.bs ⟨v.buf.diskBlock, v.buf.diskBlock⟩ ops (v.run ops).1 a ∧
      (v.run ops).2.buf.view = a.mem ∧ (v.run ops).2.buf.diskBlock = a.disk ∧
      (∀ i j b, (v.run ops).2.buf.Holds i b → (v.run ops).2.buf.Holds j b → i = j) ∧
      (v.run ops).2.buf.dirtyCount =
        ((Finset.range SLOTS).filter (v.run ops).2.buf.Dirty).card ∧
      (∀ b, a.mem b ≠ a.disk b → ∃ i, (v.run ops).2.buf.Holds i b ∧ (v.run ops).2.buf.Dirty i ∧
        (v.run ops).2.buf.data i = a.mem b) ∧
      ∀ fs now i b, (v.run ops).2.buf.Holds i b →
        (syncSuper now { (v.run ops).2 with fs := fs }).2.buf.view b = a.mem b := by
  obtain ⟨a, hr, hs⟩ := run_refines ops (h.shows hw) hon
  refine ⟨a, hr, hs.sees, hs.disk, fun _ _ _ => hs.inv.uniq, hs.inv.count, fun b hb => ?_,
    fun fs now i b hi => ?_⟩
  · rw [← hs.sees, ← hs.disk] at hb
    obtain ⟨i, h₁, h₂, h₃⟩ := hs.inv.dirty_of_ne hb
    exact ⟨i, h₁, h₂, by rw [h₃, hs.sees]⟩
  · rw [syncSuper_view (v := { (v.run ops).2 with fs := fs }) hs.inv hi]
    exact congrFun hs.sees b

end Vol

/-- A blank 1 KiB-block volume of 64 sectors whose device works. -/
def blank : Vol where
  buf := { bs := 1024, dev := ⟨fun _ => 0, 64, fun _ => false, fun _ _ => 0, 0⟩,
           slot := fun _ => ⟨0, false, false, 0⟩, data := fun _ _ => 0, dirtyCount := 0, tick := 0 }
  fs := { blocks := 32, inodes := 16, bpg := 8192, ipg := 16, groups := 1, firstData := 1,
          inodeSize := 128, gdtBlock := 2, freeBlocks := 0, freeInodes := 0, mounted := true }
  sb := fun _ => 0
  sbCounts := (0, 0)
  icache := fun _ => ⟨0, .zeroed⟩
  dcache := fun _ => ⟨0, 0, 0, false, []⟩
  clock := fun _ => 0
  ticks := 0

theorem blank_mounted : blank.Mounted where
  size := Or.inl rfl
  empty := fun _ => rfl
  clean := rfl
  counts := rfl
  super := by decide
  mounted := rfl

/-- A block written, read back and flushed. -/
theorem cache_transparent_blank :
    ∃ a, Plain.Run 1024 ⟨blank.buf.diskBlock, blank.buf.diskBlock⟩
      [.write 3 true (fun _ _ => 7), .get 3 true, .flush]
      (blank.run [.write 3 true (fun _ _ => 7), .get 3 true, .flush]).1 a :=
  (Vol.cache_transparent blank_mounted (fun _ => rfl)
    [.write 3 true (fun _ _ => 7), .get 3 true, .flush] (by
      intro op hop
      simp only [List.mem_cons, List.not_mem_nil, or_false] at hop
      rcases hop with rfl | rfl | rfl <;> simp [Op.On, blank, SECTOR_SIZE])).imp fun _ hx => hx.1

end Pulsar.Ext2

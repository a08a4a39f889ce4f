import Pulsar.Ext2.Directory

/-!
# Walks over directories with any bytes in them

A walk is `Harmless` when it has an answer, which it has not where it leaves its block, subtracts
below zero or never ends, and answers `EIO` at a record that does not fit its block.  For each of
the four walkers this comes to a condition on the records to which it comes (**`walkers_harmless`**):
`readdir` and `lookup` do not look whether a header lies in the block, nor a name; `dir_add` and
`dir_remove` do not look whether a record ends in the block, nor `dir_add` whether a record is long
enough for its own name.
-/

namespace Pulsar.Ext2

open Relation

variable {α : Type} {bs n off off' l k pos : Nat} {prev : Option Nat} {visit : Nat → Visit α}
  {dir : Dir} {visitIn : Bytes → Nat → Visit α} {d : Bytes} {name : List UInt8} {ino ft : Nat}

/-! ### The loop over a block -/

/-- What a walker says at the records of a walk decides what the walk answers: `good` is what it may
say, `ok` what the walk may answer. -/
theorem walk_iff (good : Visit α → Prop)
    (ok : Option (Except Errno (Option (Option Nat × α))) → Prop)
    (hskip : ∀ r, good (.skip r)) (hend : ok (some (.ok none))) (hfault : ok none ↔ good .fault)
    (hstop : ∀ e, ok (some (.error e)) ↔ good (.stop e))
    (hfound : ∀ p a, ok (some (.ok (some (p, a)))) ↔ good (.found a))
    (hpos : ∀ o r, visit o = .skip r → 0 < r) (hn : bs ≤ off + n) :
    ok (walk bs visit n off prev) ↔
      (off < bs → ∀ o, Chain bs visit off o → good (visit o)) := by
  induction n generalizing off prev with
  | zero =>
      rw [walk, if_neg (by omega)]
      exact iff_of_true hend fun hlt => absurd hlt (by omega)
  | succ n ih =>
      rw [walk]
      by_cases hlt : off < bs
      · rw [if_pos hlt]
        -- a walk that does not go on has seen one record
        have hone : (∀ r, visit off ≠ .skip r) →
            ((off < bs → ∀ o, Chain bs visit off o → good (visit o)) ↔ good (visit off)) := by
          intro hno
          refine ⟨fun hall => hall hlt off .refl, fun hg _ o ho => ?_⟩
          rcases ho.cases_head with rfl | ⟨o', ⟨r, hr, -⟩, -⟩
          · exact hg
          · exact absurd hr (hno r)
        cases hv : visit off with
        | fault =>
            rw [hone (by simp [hv]), hv]
            exact hfault
        | stop e =>
            rw [hone (by simp [hv]), hv]
            exact hstop e
        | found a =>
            rw [hone (by simp [hv]), hv]
            exact hfound prev a
        | skip r =>
            have hr := hpos off r hv
            simp only
            rw [ih (by omega)]
            constructor
            · intro hall _ o ho
              rcases ho.cases_head with rfl | ⟨o', ⟨r', hr', rfl, hin⟩, hrest⟩
              · rw [hv]
                exact hskip r
              · rw [hv] at hr'
                obtain rfl := Visit.skip.inj hr'
                exact hall hin o hrest
            · exact fun hall hin o ho => hall hlt o (.head ⟨r, hv, rfl, hin⟩ ho)
      · rw [if_neg hlt]
        exact iff_of_true hend fun hc => absurd hc hlt

section Block

variable (hpos : ∀ o r, visit o = .skip r → 0 < r) (hbs : 0 < bs)

include hpos hbs

/-- It has an answer if and only if it stays in the block. -/
theorem walk_answers :
    walk bs visit bs 0 none ≠ none ↔ ∀ o, Chain bs visit 0 o → visit o ≠ .fault := by
  rw [walk_iff (fun v => v ≠ .fault) (fun w => w ≠ none) (by simp) (by simp) (by simp)
    (by simp) (by simp) hpos (by omega)]
  exact ⟨fun h => h hbs, fun h _ => h⟩

/-- It goes on to the next block if and only if it goes on after every record. -/
theorem walk_passes :
    walk bs visit bs 0 none = some (.ok none) ↔
      ∀ o, Chain bs visit 0 o → ∃ r, visit o = .skip r := by
  rw [walk_iff (fun v => ∃ r, v = .skip r) (fun w => w = some (.ok none)) (by simp)
    (by simp) (by simp) (by simp) (by simp) hpos (by omega)]
  exact ⟨fun h => h hbs, fun h _ => h⟩

end Block

theorem walk_stops {e : Errno} (hpos : ∀ o r, visit o = .skip r → 0 < r) (hn : bs ≤ off + n)
    (hlt : off < bs) (hc : Chain bs visit off off') (hv : visit off' = .stop e) :
    walk bs visit n off prev = some (.error e) := by
  induction n generalizing off prev with
  | zero => exact absurd hlt (by omega)
  | succ n ih =>
      rw [walk, if_pos hlt]
      rcases hc.cases_head with rfl | ⟨o, ⟨r, hr, rfl, hin⟩, hrest⟩
      · rw [hv]
      · have := hpos off r hr
        rw [hr]
        exact ih (by omega) hin hrest

/-- What it finds it finds at a record, and the record before that is one after which it went on. -/
theorem walk_found {p : Option Nat} {a : α} (hprev : ∀ o ∈ prev, ∃ r, visit o = .skip r)
    (h : walk bs visit n off prev = some (.ok (some (p, a)))) :
    (∃ o, visit o = .found a) ∧ ∀ o ∈ p, ∃ r, visit o = .skip r := by
  induction n generalizing off prev with
  | zero =>
      rw [walk] at h
      split at h <;> cases h
  | succ n ih =>
      rw [walk] at h
      split at h
      · cases hv : visit off with
        | fault => simp [hv] at h
        | stop e => simp [hv] at h
        | found b =>
            simp only [hv, Option.some.injEq, Except.ok.injEq, Prod.mk.injEq] at h
            obtain ⟨rfl, rfl⟩ := h
            exact ⟨⟨off, hv⟩, hprev⟩
        | skip r =>
            rw [hv] at h
            exact ih (fun o ho => ⟨r, Option.some.inj ho ▸ hv⟩) h
      · cases h

/-! ### The loop over the blocks -/

section Blocks

variable (hpos : ∀ d o r, visitIn d o = .skip r → 0 < r) (hbs : 0 < bs)

include hpos hbs

theorem walkBlocks_passed (hl : Passed bs dir visitIn l) (ls : List Nat) :
    walkBlocks bs dir visitIn (l :: ls) = walkBlocks bs dir visitIn ls := by
  rw [walkBlocks]
  rcases hl with hb | ⟨d, hb, hall⟩
  · rw [hb]
  · rw [hb]
    simp only [(walk_passes (hpos d) hbs).mpr hall]

theorem walkBlocks_skip (hk : l ≤ k) (hl : ∀ j < l, Passed bs dir visitIn j) :
    walkBlocks bs dir visitIn (List.range k) =
      walkBlocks bs dir visitIn (List.range' l (k - l)) := by
  induction l with
  | zero => rw [List.range_eq_range', Nat.sub_zero]
  | succ l ih =>
      rw [ih (by omega) fun j hj => hl j (by omega), show k - l = (k - (l + 1)) + 1 by omega,
        List.range'_succ, walkBlocks_passed hpos hbs (hl l (by omega))]

theorem walkBlocks_stops {e : Errno} (hv : Visited bs dir visitIn l d off)
    (hs : visitIn d off = .stop e) :
    walkBlocks bs dir visitIn (List.range (dir.size / bs)) = some (.error e) := by
  obtain ⟨hl, hpass, hb, hc⟩ := hv
  rw [walkBlocks_skip hpos hbs (Nat.le_of_lt hl) hpass,
    show dir.size / bs - l = (dir.size / bs - (l + 1)) + 1 by omega, List.range'_succ, walkBlocks, hb]
  have hw : walk bs (visitIn d) bs 0 none = some (.error e) :=
    walk_stops (hpos d) (by omega) hbs hc hs
  simp only [hw]

/-- It has an answer if and only if it stays in its block at each record. -/
theorem walkBlocks_answers :
    walkBlocks bs dir visitIn (List.range (dir.size / bs)) ≠ none ↔
      ∀ l d off, Visited bs dir visitIn l d off → visitIn d off ≠ .fault := by
  -- by induction on the blocks that are left
  suffices h : ∀ m l, l + m = dir.size / bs → (∀ j < l, Passed bs dir visitIn j) →
      (walkBlocks bs dir visitIn (List.range' l m) ≠ none ↔ ∀ l' d off, l ≤ l' →
        Visited bs dir visitIn l' d off → visitIn d off ≠ .fault) by
    rw [List.range_eq_range', h _ 0 (Nat.zero_add _) (by simp)]
    exact ⟨fun hall l d off => hall l d off (Nat.zero_le l), fun hall l d off _ => hall l d off⟩
  intro m
  induction m with
  | zero =>
      intro l hl _
      rw [List.range'_zero, walkBlocks]
      refine iff_of_true (by simp) fun l' d off hle hv => ?_
      have := hv.1
      omega
  | succ m ih =>
      intro l hl hpass
      rw [List.range'_succ]
      by_cases hp : Passed bs dir visitIn l
      · rw [walkBlocks_passed hpos hbs hp, ih (l + 1) (by omega) fun j hj => by
          rcases Nat.lt_or_eq_of_le (Nat.le_of_lt_succ hj) with hlt | rfl
          · exact hpass j hlt
          · exact hp]
        constructor
        · intro hall l' d off hle hv
          rcases Nat.lt_or_eq_of_le hle with hlt | rfl
          · exact hall l' d off hlt hv
          · -- the block is passed over, so no record of it is left
            rcases hp with hb | ⟨d', hb, hgo⟩
            · rw [hv.2.2.1] at hb
              cases hb
            · rw [hv.2.2.1] at hb
              cases hb
              obtain ⟨r, hr⟩ := hgo off hv.2.2.2
              rw [hr]
              simp
        · exact fun hall l' d off hle => hall l' d off (by omega)
      · -- the walk ends in this block
        have hlast : ∀ l' d off, l ≤ l' → Visited bs dir visitIn l' d off → l' = l := by
          intro l' d off hle hv
          by_contra hne
          exact hp (hv.2.1 l (by omega))
        rw [walkBlocks]
        cases hb : dir.block l with
        | error e =>
            refine iff_of_true (by simp) fun l' d off hle hv => ?_
            obtain rfl := hlast l' d off hle hv
            rw [hv.2.2.1] at hb
            cases hb
        | ok o =>
            cases o with
            | none => exact absurd (.inl hb) hp
            | some d =>
                have hno : walk bs (visitIn d) bs 0 none ≠ some (.ok none) := fun hend =>
                  hp (.inr ⟨d, hb, (walk_passes (hpos d) hbs).mp hend⟩)
                have hiff := walk_answers (hpos d) hbs
                have hsame : (∀ l' d' off, l ≤ l' → Visited bs dir visitIn l' d' off →
                    visitIn d' off ≠ .fault) ↔ ∀ o, Chain bs (visitIn d) 0 o →
                      visitIn d o ≠ .fault := by
                  constructor
                  · exact fun hall o ho => hall l d o (Nat.le_refl l) ⟨by omega, hpass, hb, ho⟩
                  · intro hall l' d' off hle hv
                    obtain rfl := hlast l' d' off hle hv
                    rw [hv.2.2.1] at hb
                    cases hb
                    exact hall off hv.2.2.2
                rw [hsame, ← hiff]
                simp only
                split
                · rename_i hw
                  exact iff_of_false (by simp) (by simp [hw])
                · rename_i hw
                  exact iff_of_true (by simp) (by simp [hw])
                · rename_i hw
                  exact iff_of_true (by simp) (by simp [hw])
                · exact absurd ‹_› hno

end Blocks

/-- What it finds it finds at a record of a block. -/
theorem walkBlocks_found {ls : List Nat} {a : α}
    (h : walkBlocks bs dir visitIn ls = some (.ok (some (l, d, prev, a)))) :
    (∃ o, visitIn d o = .found a) ∧ ∀ o ∈ prev, ∃ r, visitIn d o = .skip r := by
  induction ls with
  | nil => cases h
  | cons l' ls ih =>
      rw [walkBlocks] at h
      split at h
      · cases h
      · exact ih h
      · split at h
        · cases h
        · cases h
        · rename_i hw
          cases h
          exact walk_found (by simp) hw
        · exact ih h

/-! ### What a walker says at a record -/

/-- A walk has an answer, and this is `EIO` if it comes to a record that does not fit its block;
`came` are the records to which it comes. -/
def Harmless {β : Type} (bs : Nat) (answer : Option (Except Errno β)) (came : Bytes → Nat → Prop)
    (visitIn : Bytes → Nat → Visit α) : Prop :=
  answer ≠ none ∧ ∀ d off, came d off → off + 8 ≤ bs → ¬(headAt d off).Fits bs off →
    visitIn d off = .stop EIO ∧ answer = some (.error EIO)

/-- At a record, `readdir` stays in the block. -/
def ReaddirOk (bs : Nat) (d : Bytes) (off : Nat) : Prop :=
  off + 8 ≤ bs ∧ ((headAt d off).Fits bs off → (headAt d off).ino ≠ 0 →
    off + 8 + (headAt d off).nlen ≤ bs)

/-- At a record, `lookup` stays in the block. -/
def LookupOk (bs : Nat) (name : List UInt8) (d : Bytes) (off : Nat) : Prop :=
  off + 8 ≤ bs ∧ ((headAt d off).Fits bs off → (headAt d off).ino ≠ 0 →
    (headAt d off).nlen = name.length → off + 8 + name.length ≤ bs)

/-- At a record, `dir_add` stays in the block and subtracts what there is. -/
def AddOk (bs : Nat) (d : Bytes) (off : Nat) : Prop :=
  off + 8 ≤ bs ∧ (8 ≤ (headAt d off).reclen → off + (headAt d off).reclen ≤ bs ∧
    ((headAt d off).ino ≠ 0 → recNeed (headAt d off).nlen ≤ (headAt d off).reclen))

/-- At a record, `dir_remove` stays in the block. -/
def RemoveOk (bs : Nat) (name : List UInt8) (d : Bytes) (off : Nat) : Prop :=
  off + 8 ≤ bs ∧ (8 ≤ (headAt d off).reclen → off + (headAt d off).reclen ≤ bs ∧
    ((headAt d off).ino ≠ 0 → (headAt d off).nlen = name.length → off + 8 + name.length ≤ bs))

theorem recNeed_ge (m : Nat) : 8 + m ≤ recNeed m := by
  unfold recNeed
  omega

/-- What a walker says at a record does no harm: it does not fault, and stops where the record does
not fit. -/
def Spares (bs : Nat) (d : Bytes) (off : Nat) (v : Visit α) : Prop :=
  v ≠ .fault ∧ (off + 8 ≤ bs → ¬(headAt d off).Fits bs off → v = .stop EIO)

theorem readdirVisit_ok : Spares bs d off (readdirVisit bs d off) ↔ ReaddirOk bs d off := by
  unfold Spares ReaddirOk readdirVisit head? name? Head.Fits
  split_ifs <;> grind

theorem lookupVisit_ok :
    Spares bs d off (lookupVisit bs name d off) ↔ LookupOk bs name d off := by
  unfold Spares LookupOk lookupVisit head? name? Head.Fits
  split_ifs <;> grind

theorem removeVisit_ok :
    Spares bs d off (removeVisit bs name d off) ↔ RemoveOk bs name d off := by
  unfold Spares RemoveOk removeVisit head? name? Head.Fits
  split_ifs <;> grind

theorem addVisit_ok :
    Spares bs d off (addVisit bs name ino ft d off) ↔ AddOk bs d off := by
  have := recNeed_ge name.length
  unfold Spares AddOk addVisit head? writeDirent? Head.Fits
  split_ifs <;> grind

theorem readdirVisit_skip {r : Nat} (h : readdirVisit bs d off = .skip r) : 8 ≤ r := by
  unfold readdirVisit at h
  grind

theorem lookupVisit_skip {r : Nat} (h : lookupVisit bs name d off = .skip r) : 8 ≤ r := by
  unfold lookupVisit at h
  grind

theorem addVisit_skip {r : Nat} (h : addVisit bs name ino ft d off = .skip r) : 8 ≤ r := by
  unfold addVisit at h
  grind

theorem removeVisit_skip {r : Nat} (h : removeVisit bs name d off = .skip r) :
    8 ≤ r ∧ off + 8 ≤ bs := by
  unfold removeVisit head? at h
  grind

theorem harmless_iff {β : Type} {answer : Option (Except Errno β)} {came : Bytes → Nat → Prop}
    (hans : answer ≠ none ↔ ∀ d off, came d off → visitIn d off ≠ .fault)
    (hstop : ∀ d off, came d off → visitIn d off = .stop EIO → answer = some (.error EIO)) :
    Harmless bs answer came visitIn ↔ ∀ d off, came d off → Spares bs d off (visitIn d off) := by
  constructor
  · rintro ⟨hne, heio⟩ d off hc
    exact ⟨hans.mp hne d off hc, fun hin hfit => (heio d off hc hin hfit).1⟩
  · intro h
    refine ⟨hans.mpr fun d off hc => (h d off hc).1, fun d off hc hin hfit => ?_⟩
    have hv := (h d off hc).2 hin hfit
    exact ⟨hv, hstop d off hc hv⟩

/-! ### `readdir` from a position -/

theorem Goes.lt {pos' : Nat} (hbs : 0 < bs) (h : Goes bs dir pos pos') : pos < pos' := by
  cases h with
  | hole hs hb =>
      rw [Nat.mul_comm]
      exact Nat.lt_mul_div_succ pos hbs
  | skip hs hb hv =>
      have := readdirVisit_skip hv
      omega

theorem Reached.le {pos' : Nat} (hbs : 0 < bs) (h : Reached bs dir pos pos' d) : pos ≤ pos' := by
  obtain ⟨hgo, -, -⟩ := h
  induction hgo with
  | refl => exact Nat.le_refl pos
  | tail _ hstep ih => exact Nat.le_trans ih (Nat.le_of_lt (hstep.lt hbs))

/-- Where the walk has one record after another to go to, those that it comes to are this one and
those to which it comes from there. -/
theorem reached_step {next : Nat} (hgo : Goes bs dir pos next)
    (hone : ∀ q, Goes bs dir pos q → q = next) {pos' : Nat} :
    Reached bs dir pos pos' d ↔
      (pos' = pos ∧ dir.block (pos / bs) = .ok (some d)) ∨ Reached bs dir next pos' d := by
  constructor
  · rintro ⟨hr, hs, hb⟩
    rcases hr.cases_head with rfl | ⟨q, hq, hrest⟩
    · exact .inl ⟨rfl, hb⟩
    · obtain rfl := hone q hq
      exact .inr ⟨hrest, hs, hb⟩
  · rintro (⟨rfl, hb⟩ | ⟨hr, hs, hb⟩)
    · refine ⟨.refl, ?_, hb⟩
      cases hgo <;> assumption
    · exact ⟨.head hgo hr, hs, hb⟩

theorem reached_last (hno : ∀ q, ¬Goes bs dir pos q) {pos' : Nat} :
    Reached bs dir pos pos' d ↔ pos' = pos ∧ pos < dir.size ∧ dir.block (pos / bs) = .ok (some d) := by
  constructor
  · rintro ⟨hr, hs, hb⟩
    rcases hr.cases_head with rfl | ⟨q, hq, -⟩
    · exact ⟨rfl, hs, hb⟩
    · exact absurd hq (hno q)
  · rintro ⟨rfl, hs, hb⟩
    exact ⟨.refl, hs, hb⟩

theorem readdirFrom_answers (hbs : 0 < bs) (hn : dir.size ≤ pos + n) :
    readdirFrom bs dir n pos ≠ none ↔
      ∀ pos' d, Reached bs dir pos pos' d → readdirVisit bs d (pos' % bs) ≠ .fault := by
  induction n generalizing pos with
  | zero =>
      rw [readdirFrom, if_neg (by omega)]
      refine iff_of_true (by simp) fun pos' d hr => ?_
      have := hr.le hbs
      have := hr.2.1
      omega
  | succ n ih =>
      rw [readdirFrom]
      by_cases hs : pos < dir.size
      · rw [if_pos hs]
        cases hb : dir.block (pos / bs) with
        | error e =>
            refine iff_of_true (by simp) fun pos' d hr => ?_
            rw [reached_last (fun q hq => by cases hq <;> simp_all), hb] at hr
            cases hr.2.2
        | ok o =>
            cases o with
            | none =>
                have hgo := Goes.hole hs hb
                have hone : ∀ q, Goes bs dir pos q → q = (pos / bs + 1) * bs := by
                  intro q hq
                  cases hq with
                  | hole => rfl
                  | skip _ hb' => simp [hb] at hb'
                have hlt := hgo.lt hbs
                simp only [reached_step hgo hone, hb]
                rw [ih (by omega)]
                simp
            | some d =>
                cases hv : readdirVisit bs d (pos % bs) with
                | skip r =>
                    have hgo := Goes.skip hs hb hv
                    have hone : ∀ q, Goes bs dir pos q → q = pos + r := by
                      intro q hq
                      cases hq with
                      | hole _ hb' => simp [hb] at hb'
                      | skip _ hb' hv' =>
                          rw [hb] at hb'
                          cases hb'
                          rw [hv] at hv'
                          cases hv'
                          rfl
                    have hlt := hgo.lt hbs
                    simp only [reached_step hgo hone, hb, hv]
                    rw [ih (by omega)]
                    constructor
                    · rintro hall pos' d' (⟨rfl, hd⟩ | hr)
                      · cases hd
                        simp [hv]
                      · exact hall pos' d' hr
                    · exact fun hall pos' d' hr => hall pos' d' (.inr hr)
                | fault | stop e | found a =>
                    -- the record is the last one
                    have hno : ∀ q, ¬Goes bs dir pos q := by
                      intro q hq
                      cases hq <;> simp_all
                    simp only [reached_last hno, hb]
                    grind
      · rw [if_neg hs]
        refine iff_of_true (by simp) fun pos' d hr => ?_
        have := hr.le hbs
        have := hr.2.1
        omega

/-- It stops with an error where the record says so. -/
theorem readdirFrom_stops {pos' : Nat} {e : Errno} (hbs : 0 < bs) (hn : dir.size ≤ pos + n)
    (hr : Reached bs dir pos pos' d) (hv : readdirVisit bs d (pos' % bs) = .stop e) :
    readdirFrom bs dir n pos = some (.error e) := by
  induction n generalizing pos with
  | zero =>
      have := hr.le hbs
      have := hr.2.1
      omega
  | succ n ih =>
      have hs : pos < dir.size := Nat.lt_of_le_of_lt (hr.le hbs) hr.2.1
      rw [readdirFrom, if_pos hs]
      rcases hr.1.cases_head with rfl | ⟨q, hq, hrest⟩
      · rw [hr.2.2]
        simp only [hv]
      · have hlt := hq.lt hbs
        have hih := @ih q (by omega) ⟨hrest, hr.2⟩
        cases hq with
        | hole _ hb => simpa only [hb] using hih
        | skip _ hb hv' => simpa only [hb, hv'] using hih

/-! ### The four walkers -/

/-- The records to which `readdir` comes from a position. -/
def ReaddirComes (bs : Nat) (dir : Dir) (pos : Nat) (d : Bytes) (off : Nat) : Prop :=
  dir.isDir = true ∧ ∃ pos', Reached bs dir pos pos' d ∧ off = pos' % bs

/-- The records to which a walk over the blocks comes. -/
def Comes (bs : Nat) (dir : Dir) (visitIn : Bytes → Nat → Visit α) (d : Bytes) (off : Nat) : Prop :=
  ∃ l, Visited bs dir visitIn l d off

/-- The records to which `lookup` comes. -/
def LookupComes (bs : Nat) (dir : Dir) (hit : Option (Option (Nat × Nat))) (name : List UInt8)
    (d : Bytes) (off : Nat) : Prop :=
  hit = none ∧ dir.isDir = true ∧ Comes bs dir (lookupVisit bs name) d off

variable {hit : Option (Option (Nat × Nat))} {fresh : Except Errno Bytes} {touch : Except Errno Unit}

theorem readdir_harmless (hbs : 0 < bs) :
    Harmless bs (readdir bs dir pos) (ReaddirComes bs dir pos) (readdirVisit bs) ↔
      ∀ d off, ReaddirComes bs dir pos d off → ReaddirOk bs d off := by
  rw [harmless_iff]
  · exact forall₃_congr fun d off _ => readdirVisit_ok
  · by_cases hd : dir.isDir = false
    · rw [readdir, if_pos hd]
      exact iff_of_true (by simp) fun d off hc => absurd hc.1 (by simp [hd])
    · rw [readdir, if_neg hd, readdirFrom_answers hbs (by omega)]
      constructor
      · rintro hall d _ ⟨-, pos', hr, rfl⟩
        exact hall pos' d hr
      · exact fun hall pos' d hr => hall d _ ⟨by simpa using hd, pos', hr, rfl⟩
  · rintro d _ ⟨hd, pos', hr, rfl⟩ hv
    rw [readdir, if_neg (by simp [hd])]
    exact readdirFrom_stops hbs (by omega) hr hv

section Walks

variable (hpos : ∀ d o r, visitIn d o = .skip r → 0 < r) (hbs : 0 < bs)

include hpos hbs

/-- A walk over the blocks has an answer if and only if it stays in its block. -/
theorem walkBlocks_comes : walkBlocks bs dir visitIn (List.range (dir.size / bs)) ≠ none ↔
    ∀ d off, Comes bs dir visitIn d off → visitIn d off ≠ .fault := by
  rw [walkBlocks_answers hpos hbs]
  constructor
  · rintro hall d off ⟨l, hv⟩
    exact hall l d off hv
  · exact fun hall l d off hv => hall d off ⟨l, hv⟩

theorem walkBlocks_eio (hc : Comes bs dir visitIn d off) (hs : visitIn d off = .stop EIO) :
    walkBlocks bs dir visitIn (List.range (dir.size / bs)) = some (.error EIO) := by
  obtain ⟨l, hv⟩ := hc
  exact walkBlocks_stops hpos hbs hv hs

end Walks

theorem lookup_harmless (hbs : 0 < bs) :
    Harmless bs (lookup bs dir hit name) (LookupComes bs dir hit name) (lookupVisit bs name) ↔
      ∀ d off, LookupComes bs dir hit name d off → LookupOk bs name d off := by
  have hpos : ∀ d o r, lookupVisit bs name d o = .skip r → 0 < r := fun d o r h =>
    Nat.lt_of_lt_of_le (by decide) (lookupVisit_skip h)
  rw [harmless_iff]
  · exact forall₃_congr fun d off _ => lookupVisit_ok
  · cases hit with
    | some r => exact iff_of_true (by simp [lookup]) fun d off hc => absurd hc.1 (by simp)
    | none =>
        by_cases hd : dir.isDir = false
        · exact iff_of_true (by simp [lookup, hd]) fun d off hc => absurd hc.2.1 (by simp [hd])
        · have hiff := @walkBlocks_comes _ _ dir _ hpos hbs
          have hsame : lookup bs dir none name ≠ none ↔
              walkBlocks bs dir (lookupVisit bs name) (List.range (dir.size / bs)) ≠ none := by
            simp only [lookup, if_neg hd]
            split <;> simp_all
          rw [hsame, hiff]
          exact ⟨fun hall d off hc => hall d off hc.2.2,
            fun hall d off hc => hall d off ⟨rfl, by simpa using hd, hc⟩⟩
  · rintro d off ⟨rfl, hd, hc⟩ hv
    simp only [lookup, if_neg (show ¬dir.isDir = false by simp [hd]), walkBlocks_eio hpos hbs hc hv]

theorem writeDirent?_some {m ino reclen : Nat} (h : m + 8 + name.length ≤ bs) :
    writeDirent? bs d m ino reclen name ft ≠ none := by
  simp [writeDirent?, h]

theorem dirAdd_harmless (hbs : 0 < bs) (hname : 8 + name.length ≤ bs) :
    Harmless bs (dirAdd bs dir fresh touch name ino ft) (Comes bs dir (addVisit bs name ino ft))
        (addVisit bs name ino ft) ↔
      ∀ d off, Comes bs dir (addVisit bs name ino ft) d off → AddOk bs d off := by
  have hpos : ∀ d o r, addVisit bs name ino ft d o = .skip r → 0 < r := fun d o r h =>
    Nat.lt_of_lt_of_le (by decide) (addVisit_skip h)
  rw [harmless_iff]
  · exact forall₃_congr fun d off _ => addVisit_ok
  · rw [← walkBlocks_comes hpos hbs]
    have hnew : ∀ d : Bytes, writeDirent? bs d 0 ino bs name ft ≠ none := fun d =>
      writeDirent?_some (by omega)
    unfold dirAdd
    split
    · simp_all
    · simp_all
    · simp_all
    · rename_i hw
      refine iff_of_true ?_ (by simp [hw])
      split
      · simp
      · split
        · exact absurd ‹_› (hnew _)
        · simp
  · intro d off hc hv
    simp only [dirAdd, walkBlocks_eio hpos hbs hc hv]

theorem dirRemove_harmless (hbs : 4 ≤ bs) :
    Harmless bs (dirRemove bs dir touch name) (Comes bs dir (removeVisit bs name))
        (removeVisit bs name) ↔
      ∀ d off, Comes bs dir (removeVisit bs name) d off → RemoveOk bs name d off := by
  have hpos : ∀ d o r, removeVisit bs name d o = .skip r → 0 < r := fun d o r h =>
    Nat.lt_of_lt_of_le (by decide) (removeVisit_skip h).1
  have hbs' : 0 < bs := by omega
  rw [harmless_iff]
  · exact forall₃_congr fun d off _ => removeVisit_ok
  · rw [← walkBlocks_comes hpos hbs']
    unfold dirRemove
    split
    · simp_all
    · simp_all
    · simp_all
    · rename_i l d prev reclen hw
      refine iff_of_true ?_ (by simp [hw])
      -- the record before the one that goes has its header in the block
      have hprev := (walkBlocks_found hw).2
      have hmerge : mergeDirent? bs d prev reclen ≠ none := by
        cases prev with
        | none => simp [mergeDirent?, hbs]
        | some po =>
            obtain ⟨r, hr⟩ := hprev po rfl
            simp [mergeDirent?, (removeVisit_skip hr).2]
      split
      · exact absurd ‹_› hmerge
      · simp
  · intro d off hc hv
    simp only [dirRemove, walkBlocks_eio hpos hbs' hc hv]

/-- **Exactly when the four walkers do no harm**: each of the records to which they come has its
header in the block; a name that is read or compared lies in the block; for `dir_add` and
`dir_remove` the record lies in the block, and for `dir_add` the name of the record lies in the
record. -/
theorem walkers_harmless (dir : Dir) (pos : Nat) (hit : Option (Option (Nat × Nat)))
    (fresh : Except Errno Bytes) (touch : Except Errno Unit) (ino ft : Nat) (hbs : 1024 ≤ bs)
    (hname : name.length ≤ 255) :
    (Harmless bs (readdir bs dir pos) (ReaddirComes bs dir pos) (readdirVisit bs) ↔
      ∀ d off, ReaddirComes bs dir pos d off → ReaddirOk bs d off) ∧
    (Harmless bs (lookup bs dir hit name) (LookupComes bs dir hit name) (lookupVisit bs name) ↔
      ∀ d off, LookupComes bs dir hit name d off → LookupOk bs name d off) ∧
    (Harmless bs (dirAdd bs dir fresh touch name ino ft) (Comes bs dir (addVisit bs name ino ft))
        (addVisit bs name ino ft) ↔
      ∀ d off, Comes bs dir (addVisit bs name ino ft) d off → AddOk bs d off) ∧
    (Harmless bs (dirRemove bs dir touch name) (Comes bs dir (removeVisit bs name))
        (removeVisit bs name) ↔
      ∀ d off, Comes bs dir (removeVisit bs name) d off → RemoveOk bs name d off) :=
  ⟨readdir_harmless (by omega), lookup_harmless (by omega),
    dirAdd_harmless (by omega) (by omega), dirRemove_harmless (by omega)⟩

/-- A directory of one block of 1024 bytes, with one record: its inode, its length and the length of
its name, which is nothing but zeros. -/
def oneRecord (ino reclen nlen : Nat) : Dir where
  isDir := true
  size := 1024
  block _ := .ok (some (lePut (lePut (lePut (fun _ => 0) 0 4 ino) 4 2 reclen) 6 1 nlen))

/-- `dir_remove` does no harm in a block that one record fills. -/
theorem walkers_harmless_full :
    Harmless 1024 (dirRemove 1024 (oneRecord 2 1024 1) (.ok ()) [97])
      (Comes 1024 (oneRecord 2 1024 1) (removeVisit 1024 [97])) (removeVisit 1024 [97]) := by
  refine (walkers_harmless (oneRecord 2 1024 1) 0 none (.error EIO) (.ok ()) 0 0 (by decide)
    (by decide)).2.2.2.mpr ?_
  rintro d off ⟨l, -, -, hb, hc⟩
  obtain rfl := Option.some.inj (Except.ok.inj hb)
  rcases hc.cases_head with rfl | ⟨o, ⟨r, hr, rfl, hin⟩, -⟩
  · exact ⟨by decide, by decide⟩
  · obtain rfl : 1024 = r := Visit.skip.inj hr
    omega

/-- `lseek` admits a position four bytes before the end of a block, and `readdir` reads on after the
end; a record that ends there leads the walks over the blocks to the same place; and a record that
is shorter than its name makes `dir_add` subtract below zero. -/
theorem walkers_leave :
    lseek 0 1020 = some 1020 ∧ readdir 1024 (oneRecord 0 1024 0) 1020 = none ∧
      lookup 1024 (oneRecord 0 1020 0) none [97] = none ∧
      dirAdd 1024 (oneRecord 1 8 255) (.error EIO) (.ok ()) [97] 12 1 = none ∧
      dirRemove 1024 (oneRecord 0 1020 0) (.ok ()) [97] = none := by
  decide

end Pulsar.Ext2

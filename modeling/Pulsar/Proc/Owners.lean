import Mathlib.Data.Finset.Card
import Mathlib.Tactic.Common
import Mathlib.Tactic.SplitIfs
import Pulsar.Lib.Count
import Pulsar.Proc.Life

/-!
# Who uses which address space

`Fine ps` says that every slot in use names an owner that is in use, with the same root and
identifier, and that an owner counts the live slots that use its space.  `Ends ps r` says what a
function that ends processes does: it keeps `Fine`, starts nothing, and frees exactly the spaces
whose owner is gone.

* `reap_ends`: a process ends, with its threads.
* `Fine.createEx`, `Fine.threadCreate`, `Fine.fork`, `execReplace_spec`: one begins.
-/

namespace Pulsar.Proc

namespace Procs

/-- The slot owns an address space. -/
def Owner (ps : Procs) (m : Nat) : Prop := (ps m).state ≠ .unused ∧ (ps m).mm = m

instance (ps : Procs) (m : Nat) : Decidable (ps.Owner m) := by unfold Owner; infer_instance

/-- The live slots that use the space of `m`. -/
def users (ps : Procs) (m : Nat) : Finset Nat :=
  (Finset.range MAX_PROCS).filter fun i => (ps i).Live ∧ (ps i).mm = m

/-- The table says consistently who uses which space. -/
structure Fine (ps : Procs) : Prop where
  slots : ∀ i, (ps i).state ≠ .unused → i < MAX_PROCS
  owner : ∀ i, (ps i).state ≠ .unused → ps.Owner (ps i).mm
  root : ∀ i, (ps i).state ≠ .unused → (ps i).root = (ps (ps i).mm).root
  asid : ∀ i, (ps i).state ≠ .unused → (ps i).asid = (ps (ps i).mm).asid
  members : ∀ m, ps.Owner m → (ps m).members = (ps.users m).card
  zombie : ∀ m, (ps m).state = .zombie → (ps m).mm = m ∧ 0 < (ps m).members

end Procs

/-- The same use of the same space. -/
structure Process.Same (p q : Process) : Prop where
  unused : p.state = .unused ↔ q.state = .unused
  zombie : p.state = .zombie ↔ q.state = .zombie
  mm : p.mm = q.mm
  members : p.members = q.members
  root : p.root = q.root
  asid : p.asid = q.asid
  leader : p.leader = q.leader

theorem Process.Same.refl (p : Process) : p.Same p := ⟨.rfl, .rfl, rfl, rfl, rfl, rfl, rfl⟩

theorem Process.Same.trans {p q r : Process} (h : p.Same q) (h' : q.Same r) : p.Same r :=
  ⟨h.unused.trans h'.unused, h.zombie.trans h'.zombie, h.mm.trans h'.mm,
    h.members.trans h'.members, h.root.trans h'.root, h.asid.trans h'.asid,
    h.leader.trans h'.leader⟩

theorem Process.Same.live {p q : Process} (h : p.Same q) : p.Live ↔ q.Live := by
  simp only [Process.Live, ne_eq, h.unused, h.zombie]

namespace Procs

variable {ps qs : Procs} {s i m : Nat}

/-- Two tables with the same use of spaces. -/
def Same (ps qs : Procs) : Prop := ∀ i, (ps i).Same (qs i)

theorem Same.refl (ps : Procs) : ps.Same ps := fun i => .refl (ps i)

theorem Same.trans {rs : Procs} (h : ps.Same qs) (h' : qs.Same rs) : ps.Same rs :=
  fun i => (h i).trans (h' i)

theorem Same.owner (h : ps.Same qs) : ps.Owner m ↔ qs.Owner m := by
  simp only [Owner, ne_eq, (h m).unused, (h m).mm]

theorem Same.users (h : ps.Same qs) : ps.users m = qs.users m :=
  Finset.filter_congr fun i _ => by rw [(h i).live, (h i).mm]

theorem Fine.congr (h : Fine qs) (hs : ps.Same qs) : Fine ps where
  slots i hi := h.slots i (mt (hs i).unused.mpr hi)
  owner i hi := by
    rw [(hs i).mm, hs.owner]
    exact h.owner i (mt (hs i).unused.mpr hi)
  root i hi := by
    rw [(hs i).root, (hs i).mm, (hs _).root]
    exact h.root i (mt (hs i).unused.mpr hi)
  asid i hi := by
    rw [(hs i).asid, (hs i).mm, (hs _).asid]
    exact h.asid i (mt (hs i).unused.mpr hi)
  members m hm := by
    rw [(hs m).members, hs.users]
    exact h.members m (hs.owner.mp hm)
  zombie m hm := by
    rw [(hs m).mm, (hs m).members]
    exact h.zombie m ((hs m).zombie.mp hm)

theorem fine_empty : Fine fun _ => Process.empty where
  slots _ hi := absurd rfl hi
  owner _ hi := absurd rfl hi
  root _ hi := absurd rfl hi
  asid _ hi := absurd rfl hi
  members _ hm := absurd rfl hm.1
  zombie _ hm := absurd hm (by simp [Process.empty])

/-! ### Changes of one slot -/

@[simp] theorem edit_self (f : Process → Process) : (ps.edit i f) i = f (ps i) :=
  Function.update_self ..

@[simp] theorem edit_of_ne {j : Nat} (h : j ≠ i) (f : Process → Process) :
    (ps.edit i f) j = ps j := Function.update_of_ne h ..

theorem edit_edit (f g : Process → Process) :
    (ps.edit i f).edit i g = ps.edit i fun p => g (f p) := by
  simp only [edit, Function.update_self, Function.update_idem]

theorem edit_comm {j : Nat} (h : i ≠ j) (f g : Process → Process) :
    (ps.edit i f).edit j g = (ps.edit j g).edit i f := by
  simp only [edit, Function.update_of_ne h, Function.update_of_ne (Ne.symm h)]
  exact Function.update_comm h ..

theorem same_edit {f : Process → Process} (h : (f (ps i)).Same (ps i)) : (ps.edit i f).Same ps :=
  fun j => by
    by_cases e : j = i
    · subst e
      rw [edit_self]
      exact h
    · rw [edit_of_ne e]
      exact .refl _

theorem same_setState {st : State} (h : (ps i).Live) (h₁ : st ≠ .unused) (h₂ : st ≠ .zombie) :
    (ps.setState i st).Same ps :=
  same_edit ⟨by simp [h₁, h.1], by simp [h₂, h.2], rfl, rfl, rfl, rfl, rfl⟩

theorem same_freePartners (s : Nat) : (ps.freePartners s).Same ps := fun i => by
  simp only [freePartners]
  split_ifs with h
  · have hst : (ps i).state ≠ .unused ∧ (ps i).state ≠ .zombie := by
      rcases h.2 with ⟨hs, -⟩ | ⟨hs, -⟩ <;> rw [hs] <;> decide
    exact ⟨by simp [hst.1], by simp [hst.2], rfl, rfl, rfl, rfl, rfl⟩
  · exact .refl _

theorem same_wakeVforkParent (s : Nat) : (ps.wakeVforkParent s).Same ps := by
  have hedit : (ps.edit s fun p => { p with vforkParent := none }).Same ps :=
    same_edit ⟨.rfl, .rfl, rfl, rfl, rfl, rfl, rfl⟩
  simp only [wakeVforkParent]
  split
  · split_ifs with h
    · refine (same_setState ?_ (by decide) (by decide)).trans hedit
      exact ⟨by rw [h]; decide, by rw [h]; decide⟩
    · exact hedit
  · exact hedit

theorem same_recordLoop (pid : Nat) (parent : Option Nat) (status : Nat) (is : List Nat) :
    (recordLoop pid parent status is ps).1.Same ps := by
  induction is generalizing ps with
  | nil => exact .refl ps
  | cons i is ih =>
      rw [recordLoop]
      by_cases hw : ps.waitsFor pid parent (ps i)
      · rw [if_pos hw]
        have hlive : (ps i).Live := by
          rw [Process.Live, hw.1]
          exact ⟨by decide, by decide⟩
        by_cases hr : (ps i).waitPtr = WAIT_REDO
        · rw [if_pos hr]
          exact ih.trans (same_setState hlive (by decide) (by decide))
        · rw [if_neg hr]
          exact same_edit (f := fun p => { p with ret := pid, state := .ready })
            ⟨by simp [hlive.1], by simp [hlive.2], rfl, rfl, rfl, rfl, rfl⟩
      · rw [if_neg hw]
        exact ih

theorem recordLoop_frees (pid : Nat) (parent : Option Nat) (status : Nat) (is : List Nat) :
    ∀ m root, .freeMm m root ∉ (recordLoop pid parent status is ps).2 := by
  intro m root
  induction is generalizing ps with
  | nil => simp [recordLoop]
  | cons i is ih =>
      rw [recordLoop]
      by_cases hw : ps.waitsFor pid parent (ps i)
      · rw [if_pos hw]
        by_cases hr : (ps i).waitPtr = WAIT_REDO
        · rw [if_pos hr]
          exact ih
        · rw [if_neg hr]
          simp only
          split_ifs <;> simp
      · rw [if_neg hw]
        exact ih

/-- The slot that leaves is free, the others are as they were. -/
theorem leave_same (s : Nat) :
    (ps.leave s).Same (ps.edit s fun p => { p with killed := false, state := .unused }) :=
  (same_wakeVforkParent s).trans (same_freePartners s)

/-! ### The end of a slot -/

/-- The owner stays, for the others that use its space. -/
theorem release_stay (hm : (ps s).mm = s) (hn : 1 < (ps s).members) : ps.release s =
    (ps.edit s fun p => { p with members := p.members - 1, state := .zombie }, []) := by
  have h : 0 < (ps s).members - 1 := by omega
  simp only [release, dropMm, hm, if_true, edit_self, h, setState, edit_edit]

theorem release_last (hm : (ps s).mm = s) (hn : (ps s).members ≤ 1) : ps.release s =
    (ps.edit s fun p => { p with members := p.members - 1, root := none, state := .unused },
      [.freeMm s (ps s).root]) := by
  have h : ¬ 0 < (ps s).members - 1 := by omega
  simp only [release, dropMm, hm, if_true, edit_self, h, if_false, freeMm, setState, edit_edit,
    Bool.false_eq_true]

/-- The slot used the space of another, which keeps it. -/
theorem release_part (hm : (ps s).mm ≠ s)
    (hn : ¬ ((ps (ps s).mm).state = .zombie ∧ (ps (ps s).mm).members ≤ 1)) : ps.release s =
    ((ps.edit (ps s).mm fun p => { p with members := p.members - 1 }).edit s
      fun p => { p with root := none, mm := s, state := .unused }, []) := by
  have hst : ((ps.edit (ps s).mm fun p => { p with members := p.members - 1 }).edit s
      fun p => { p with root := none, mm := s }) (ps s).mm =
      { ps (ps s).mm with members := (ps (ps s).mm).members - 1 } := by
    rw [edit_of_ne hm, edit_self]
  have h : ¬ ((ps (ps s).mm).state = .zombie ∧ (ps (ps s).mm).members - 1 = 0) :=
    fun hc => hn ⟨hc.1, by omega⟩
  simp only [release, dropMm, if_neg hm, hst, h, if_false, setState, edit_edit,
    Bool.false_eq_true]

/-- The slot was the last that used the space of an owner that is over. -/
theorem release_clear (hm : (ps s).mm ≠ s) (hz : (ps (ps s).mm).state = .zombie)
    (hn : (ps (ps s).mm).members ≤ 1) : ps.release s =
    ((ps.edit (ps s).mm fun p =>
      { p with members := p.members - 1, root := none, state := .unused }).edit s
        fun p => { p with root := none, mm := s, state := .unused },
      [.freeMm (ps s).mm (ps (ps s).mm).root]) := by
  have hst : ((ps.edit (ps s).mm fun p => { p with members := p.members - 1 }).edit s
      fun p => { p with root := none, mm := s }) (ps s).mm =
      { ps (ps s).mm with members := (ps (ps s).mm).members - 1 } := by
    rw [edit_of_ne hm, edit_self]
  have h : (ps (ps s).mm).members - 1 = 0 := by omega
  simp only [release, dropMm, if_neg hm, hst, hz, h, and_self, if_true, freeMm, setState,
    Bool.false_eq_true, if_false]
  rw [edit_edit, edit_comm hm, edit_edit, edit_comm (Ne.symm hm), edit_edit]

/-- The owners whose spaces are freed. -/
def freed : List Effect → List Nat :=
  List.filterMap fun
    | .freeMm m _ => some m
    | _ => none

@[simp] theorem freed_nil : freed [] = [] := rfl

theorem freed_append (es fs : List Effect) : freed (es ++ fs) = freed es ++ freed fs :=
  List.filterMap_append

/-- What ends: `Fine` is kept, no slot begins to be used, or used otherwise, and the spaces freed
are those whose owner is gone. -/
structure Ends (ps : Procs) (r : Outcome) : Prop where
  fine : Fine r.1
  used : ∀ i, (r.1 i).state ≠ .unused → (ps i).state ≠ .unused ∧ (r.1 i).mm = (ps i).mm ∧
    (r.1 i).asid = (ps i).asid ∧ (r.1 i).root = (ps i).root
  live : ∀ i, (r.1 i).Live → (ps i).Live
  owner : ∀ m, r.1.Owner m ↔ ps.Owner m ∧ m ∉ freed r.2
  roots : ∀ m root, .freeMm m root ∈ r.2 → ps.Owner m ∧ root = (ps m).root
  nodup : (freed r.2).Nodup

/-- What leaves the use of spaces alone ends nothing. -/
theorem Fine.ends (h : Fine ps) {r : Outcome} (hs : r.1.Same ps)
    (hr : ∀ m root, .freeMm m root ∉ r.2) : Ends ps r := by
  have hf : freed r.2 = [] := by
    refine List.filterMap_eq_nil_iff.mpr fun e he => ?_
    cases e with
    | freeMm m root => exact absurd he (hr m root)
    | put32 root va value => rfl
    | putMsg root va m => rfl
  refine ⟨h.congr hs, fun i hi => ?_, fun i hi => (hs i).live.mp hi, fun m => ?_,
    fun m root hm => absurd hm (hr m root), by rw [hf]; exact List.nodup_nil⟩
  · exact ⟨mt (hs i).unused.mpr hi, (hs i).mm, (hs i).asid, (hs i).root⟩
  · rw [hs.owner, hf]
    simp

theorem Ends.trans {r t : Outcome} (h : Ends ps r) (h' : Ends r.1 t) :
    Ends ps (t.1, r.2 ++ t.2) where
  fine := h'.fine
  used i hi := by
    obtain ⟨h₁, h₂, h₃, h₄⟩ := h'.used i hi
    obtain ⟨h₅, h₆, h₇, h₈⟩ := h.used i h₁
    exact ⟨h₅, h₂.trans h₆, h₃.trans h₇, h₄.trans h₈⟩
  live i hi := h.live i (h'.live i hi)
  owner m := by
    rw [h'.owner, h.owner, freed_append, List.mem_append, not_or, and_assoc]
  roots m root hm := by
    rcases List.mem_append.mp hm with hm | hm
    · exact h.roots m root hm
    · obtain ⟨h₁, rfl⟩ := h'.roots m root hm
      exact ⟨((h.owner m).mp h₁).1, (h.used m h₁.1).2.2.2⟩
  nodup := by
    rw [freed_append]
    refine List.nodup_append.mpr ⟨h.nodup, h'.nodup, fun a ha b hb => ?_⟩
    rintro rfl
    obtain ⟨e, he, hea⟩ := List.mem_filterMap.mp hb
    cases e with
    | freeMm m root =>
        obtain rfl := Option.some.inj hea
        exact ((h.owner m).mp (h'.roots m root he).1).2 ha
    | put32 root va value => exact absurd hea (by simp)
    | putMsg root va m => exact absurd hea (by simp)

/-! ### One slot leaves its space -/

section Leave

/-- The users of each space, without the slot that leaves. -/
theorem Fine.card_users (h : Fine ps) (hs : (ps s).Live) (m : Nat) {qs : Procs}
    (hq : ∀ i, (qs i).Live ∧ (qs i).mm = m ↔ i ≠ s ∧ (ps i).Live ∧ (ps i).mm = m) :
    (qs.users m).card + (if (ps s).mm = m then 1 else 0) = (ps.users m).card := by
  have hlt : s < MAX_PROCS := h.slots s hs.1
  have hcard := card_filter_change (p := fun i => (ps i).Live ∧ (ps i).mm = m)
    (q := fun i => (qs i).Live ∧ (qs i).mm = m) hlt fun j hj => by rw [hq]; simp [hj]
  have hno : ¬ ((qs s).Live ∧ (qs s).mm = m) := fun hc => ((hq s).mp hc).1 rfl
  simp only [hs, true_and, hno, if_false, Nat.add_zero] at hcard
  exact hcard

/-- An owner that is used by one slot at most is used by that one only. -/
theorem Fine.only (h : Fine ps) {m : Nat} (hm : ps.Owner m) (hn : (ps m).members ≤ 1)
    (hs : (ps s).Live) (hsm : (ps s).mm = m) {i : Nat} (hi : (ps i).Live) (him : (ps i).mm = m) :
    i = s := by
  have hcard : (ps.users m).card ≤ 1 := by rw [← h.members m hm]; exact hn
  exact Finset.card_le_one.mp hcard i
    (Finset.mem_filter.mpr ⟨Finset.mem_range.mpr (h.slots i hi.1), hi, him⟩) s
    (Finset.mem_filter.mpr ⟨Finset.mem_range.mpr (h.slots s hs.1), hs, hsm⟩)

/-- `Fine` is kept when slot `s` is no longer live, its owner counts one user less, and the owners
that are gone have no other. -/
theorem Fine.depart (h : Fine ps) (hs : (ps s).Live)
    (hused : ∀ i, (qs i).state ≠ .unused → (ps i).state ≠ .unused ∧ (qs i).mm = (ps i).mm ∧
      (qs i).asid = (ps i).asid ∧ (qs i).root = (ps i).root)
    (hlive : ∀ i, (qs i).Live ↔ (ps i).Live ∧ i ≠ s)
    (hmem : ∀ x, qs.Owner x → (qs x).members + (if (ps s).mm = x then 1 else 0) = (ps x).members)
    (hzom : ∀ x, (qs x).state = .zombie → (qs x).mm = x ∧ 0 < (qs x).members)
    (hgone : ∀ x, ps.Owner x → ¬ qs.Owner x → ∀ i, (ps i).Live → (ps i).mm = x → i = s) :
    Fine qs := by
  have howner : ∀ i, (qs i).state ≠ .unused → qs.Owner (qs i).mm := fun i hi => by
    obtain ⟨h₁, h₂, -, -⟩ := hused i hi
    by_cases hz : (qs i).state = .zombie
    · rw [(hzom i hz).1]
      exact ⟨hi, (hzom i hz).1⟩
    · obtain ⟨h₃, h₄⟩ := (hlive i).mp ⟨hi, hz⟩
      rw [h₂]
      by_contra hc
      exact h₄ (hgone _ (h.owner i h₁) hc i h₃ rfl)
  have hback : ∀ x, qs.Owner x → ps.Owner x := fun x hx => by
    obtain ⟨h₁, h₂, -, -⟩ := hused x hx.1
    exact ⟨h₁, h₂ ▸ hx.2⟩
  refine ⟨fun i hi => h.slots i (hused i hi).1, howner, fun i hi => ?_, fun i hi => ?_,
    fun m hm => ?_, hzom⟩
  · obtain ⟨h₁, h₂, -, h₄⟩ := hused i hi
    obtain ⟨-, -, -, h₅⟩ := hused _ (howner i hi).1
    rw [h₄, h₅, h₂, h.root i h₁]
  · obtain ⟨h₁, h₂, h₄, -⟩ := hused i hi
    obtain ⟨-, -, h₅, -⟩ := hused _ (howner i hi).1
    rw [h₄, h₅, h₂, h.asid i h₁]
  · have h₁ := hmem m hm
    have h₂ := h.members m (hback m hm)
    have h₃ := h.card_users hs m fun i => by
      constructor
      · rintro ⟨h₄, h₅⟩
        obtain ⟨h₆, h₇⟩ := (hlive i).mp h₄
        exact ⟨h₇, h₆, (hused i h₄.1).2.1 ▸ h₅⟩
      · rintro ⟨h₄, h₅, h₆⟩
        have h₇ := (hlive i).mpr ⟨h₅, h₄⟩
        exact ⟨h₇, (hused i h₇.1).2.1.trans h₆⟩
    omega

/-- What `Fine.depart` says, with the spaces that are freed. -/
theorem Fine.departs {rs : Procs} {es : List Effect} (h : Fine ps) (hs : (ps s).Live)
    (hused : ∀ i, (rs i).state ≠ .unused → (ps i).state ≠ .unused ∧ (rs i).mm = (ps i).mm ∧
      (rs i).asid = (ps i).asid ∧ (rs i).root = (ps i).root)
    (hlive : ∀ i, (rs i).Live ↔ (ps i).Live ∧ i ≠ s)
    (hmem : ∀ x, rs.Owner x → (rs x).members + (if (ps s).mm = x then 1 else 0) = (ps x).members)
    (hzom : ∀ x, (rs x).state = .zombie → (rs x).mm = x ∧ 0 < (rs x).members)
    (howner : ∀ x, rs.Owner x ↔ ps.Owner x ∧ x ∉ freed es)
    (hlast : ∀ x ∈ freed es, ∀ i, (ps i).Live → (ps i).mm = x → i = s)
    (hroots : ∀ m root, .freeMm m root ∈ es → ps.Owner m ∧ root = (ps m).root)
    (hnodup : (freed es).Nodup) : Ends ps (rs, es) where
  fine := h.depart hs hused hlive hmem hzom fun x hx hno =>
    hlast x (by_contra fun hc => hno ((howner x).mpr ⟨hx, hc⟩))
  used := hused
  live i hi := ((hlive i).mp hi).1
  owner := howner
  roots := hroots
  nodup := hnodup

/-- The table `qs`, in which slot `s` is free already but still uses its space. -/
structure Left (s : Nat) (ps qs : Procs) : Prop where
  mm : (qs s).mm = (ps s).mm
  members : (qs s).members = (ps s).members
  root : (qs s).root = (ps s).root
  asid : (qs s).asid = (ps s).asid
  others : ∀ i, i ≠ s → (qs i).Same (ps i)

theorem Left.of_same
    (hq : qs.Same (ps.edit s fun p => { p with killed := false, state := .unused })) :
    Left s ps qs := by
  have hs := hq s
  rw [edit_self] at hs
  refine ⟨hs.mm, hs.members, hs.root, hs.asid, fun i hi => ?_⟩
  have := hq i
  rwa [edit_of_ne hi] at this

namespace Left

theorem used (hl : Left s ps qs) {i : Nat} (hi : i ≠ s) (hu : (qs i).state ≠ .unused) :
    (ps i).state ≠ .unused ∧ (qs i).mm = (ps i).mm ∧ (qs i).asid = (ps i).asid ∧
      (qs i).root = (ps i).root :=
  have h := hl.others i hi
  ⟨mt h.unused.mpr hu, h.mm, h.asid, h.root⟩

theorem live (hl : Left s ps qs) {i : Nat} (hi : i ≠ s) : (qs i).Live ↔ (ps i).Live ∧ i ≠ s := by
  rw [(hl.others i hi).live]
  exact (and_iff_left hi).symm

theorem zombie (hl : Left s ps qs) (h : Fine ps) {x : Nat} (hx : x ≠ s)
    (hz : (qs x).state = .zombie) : (qs x).mm = x ∧ 0 < (qs x).members := by
  rw [(hl.others x hx).mm, (hl.others x hx).members]
  exact h.zombie x ((hl.others x hx).zombie.mp hz)

theorem owner (hl : Left s ps qs) {x : Nat} (hx : x ≠ s) : qs.Owner x ↔ ps.Owner x := by
  rw [Owner, Owner, ne_eq, ne_eq, (hl.others x hx).unused, (hl.others x hx).mm]

/-- The owner stays, for the others that use its space. -/
theorem stay (hl : Left s ps qs) (h : Fine ps) (hs : (ps s).Live) (hm : (qs s).mm = s)
    (hn : 1 < (qs s).members) :
    Ends ps (qs.edit s fun p => { p with members := p.members - 1, state := .zombie }, []) := by
  have hm' : (ps s).mm = s := hl.mm ▸ hm
  refine h.departs hs (fun i hi => ?_) (fun i => ?_) (fun x hx => ?_) (fun x hx => ?_)
    (fun x => ?_) (by simp) (by simp) (by simp)
  · by_cases e : i = s
    · subst e
      rw [edit_self]
      exact ⟨hs.1, hl.mm, hl.asid, hl.root⟩
    · rw [edit_of_ne e] at hi ⊢
      exact hl.used e hi
  · by_cases e : i = s
    · subst e
      simp [Process.Live]
    · rw [edit_of_ne e]
      exact hl.live e
  · by_cases e : x = s
    · subst e
      rw [edit_self, if_pos hm', ← hl.members]
      exact Nat.sub_add_cancel (Nat.le_of_lt hn)
    · rw [edit_of_ne e, if_neg (by rw [hm']; exact Ne.symm e), (hl.others x e).members, Nat.add_zero]
  · by_cases e : x = s
    · subst e
      rw [edit_self]
      exact ⟨hm, Nat.sub_pos_of_lt hn⟩
    · rw [edit_of_ne e] at hx ⊢
      exact hl.zombie h e hx
  · by_cases e : x = s
    · subst e
      simp [Owner, hm, hm', hs.1]
    · rw [Owner, edit_of_ne e, ← Owner, hl.owner e]
      simp

theorem last (hl : Left s ps qs) (h : Fine ps) (hs : (ps s).Live) (hm : (qs s).mm = s)
    (hn : (qs s).members ≤ 1) :
    Ends ps (qs.edit s fun p => { p with members := p.members - 1, root := none, state := .unused },
      [.freeMm s (qs s).root]) := by
  have hm' : (ps s).mm = s := hl.mm ▸ hm
  have hown : ps.Owner s := ⟨hs.1, hm'⟩
  have hfreed : freed [.freeMm s (qs s).root] = [s] := rfl
  refine h.departs hs (fun i hi => ?_) (fun i => ?_) (fun x hx => ?_) (fun x hx => ?_)
    (fun x => ?_) (fun x hx i hi hix => ?_) (fun m root hmr => ?_) (by simp [hfreed])
  · by_cases e : i = s
    · subst e
      simp at hi
    · rw [edit_of_ne e] at hi ⊢
      exact hl.used e hi
  · by_cases e : i = s
    · subst e
      simp [Process.Live]
    · rw [edit_of_ne e]
      exact hl.live e
  · by_cases e : x = s
    · subst e
      exact absurd hx.1 (by simp)
    · rw [edit_of_ne e, if_neg (by rw [hm']; exact Ne.symm e), (hl.others x e).members, Nat.add_zero]
  · by_cases e : x = s
    · subst e
      simp at hx
    · rw [edit_of_ne e] at hx ⊢
      exact hl.zombie h e hx
  · by_cases e : x = s
    · subst e
      simp [Owner, hfreed]
    · rw [Owner, edit_of_ne e, ← Owner, hl.owner e, hfreed]
      simp [e]
  · rw [hfreed, List.mem_singleton] at hx
    exact h.only hown (hl.members ▸ hn) hs hm' hi (hix.trans hx)
  · rw [List.mem_singleton] at hmr
    cases hmr
    exact ⟨hown, hl.root⟩

/-- The slot used the space of another, which keeps it. -/
theorem part (hl : Left s ps qs) (h : Fine ps) (hs : (ps s).Live) (hm : (qs s).mm ≠ s)
    (hn : ¬ ((qs (qs s).mm).state = .zombie ∧ (qs (qs s).mm).members ≤ 1)) :
    Ends ps ((qs.edit (qs s).mm fun p => { p with members := p.members - 1 }).edit s
      fun p => { p with root := none, mm := s, state := .unused }, []) := by
  obtain ⟨m, hmm⟩ : ∃ m, (qs s).mm = m := ⟨_, rfl⟩
  rw [hmm] at hm hn ⊢
  have hm' : (ps s).mm = m := hl.mm ▸ hmm
  have hown : ps.Owner m := hm' ▸ h.owner s hs.1
  have hcard : 0 < (ps m).members := by
    rw [h.members m hown]
    exact Finset.card_pos.mpr ⟨s, Finset.mem_filter.mpr
      ⟨Finset.mem_range.mpr (h.slots s hs.1), hs, hm'⟩⟩
  have hqm : (qs m).members = (ps m).members := (hl.others m hm).members
  refine h.departs hs (fun i hi => ?_) (fun i => ?_) (fun x hx => ?_) (fun x hx => ?_)
    (fun x => ?_) (by simp) (by simp) (by simp)
  · by_cases e : i = s
    · subst e
      simp at hi
    · rw [edit_of_ne e] at hi ⊢
      by_cases e' : i = m
      · subst e'
        rw [edit_self] at hi ⊢
        exact hl.used e hi
      · rw [edit_of_ne e'] at hi ⊢
        exact hl.used e hi
  · by_cases e : i = s
    · subst e
      simp [Process.Live]
    · rw [edit_of_ne e]
      by_cases e' : i = m
      · subst e'
        rw [edit_self]
        exact hl.live e
      · rw [edit_of_ne e']
        exact hl.live e
  · by_cases e : x = s
    · subst e
      exact absurd hx.1 (by simp)
    · rw [edit_of_ne e, hm']
      by_cases e' : x = m
      · subst e'
        rw [edit_self, if_pos rfl, hqm]
        exact Nat.sub_add_cancel hcard
      · rw [edit_of_ne e', if_neg (Ne.symm e'), (hl.others x e).members, Nat.add_zero]
  · by_cases e : x = s
    · subst e
      simp at hx
    · rw [edit_of_ne e] at hx ⊢
      by_cases e' : x = m
      · subst e'
        rw [edit_self] at hx ⊢
        exact ⟨(hl.zombie h e hx).1, Nat.sub_pos_of_lt (Nat.lt_of_not_le fun hc => hn ⟨hx, hc⟩)⟩
      · rw [edit_of_ne e'] at hx ⊢
        exact hl.zombie h e hx
  · by_cases e : x = s
    · subst e
      have hno : ¬ ps.Owner x := fun hc => hm (hm' ▸ hc.2)
      exact iff_of_false (fun hc => absurd hc.1 (by simp)) fun hc => hno hc.1
    · rw [Owner, edit_of_ne e, freed_nil]
      by_cases e' : x = m
      · subst e'
        rw [edit_self]
        exact (hl.owner e).trans (by simp)
      · rw [edit_of_ne e']
        exact (hl.owner e).trans (by simp)

/-- The slot was the last that used the space of an owner that is over. -/
theorem clear (hl : Left s ps qs) (h : Fine ps) (hs : (ps s).Live) (hm : (qs s).mm ≠ s)
    (hz : (qs (qs s).mm).state = .zombie) (hn : (qs (qs s).mm).members ≤ 1) :
    Ends ps ((qs.edit (qs s).mm fun p =>
      { p with members := p.members - 1, root := none, state := .unused }).edit s
        fun p => { p with root := none, mm := s, state := .unused },
      [.freeMm (qs s).mm (qs (qs s).mm).root]) := by
  obtain ⟨m, hmm⟩ : ∃ m, (qs s).mm = m := ⟨_, rfl⟩
  rw [hmm] at hm hz hn ⊢
  have hm' : (ps s).mm = m := hl.mm ▸ hmm
  have hown : ps.Owner m := hm' ▸ h.owner s hs.1
  have hfreed : freed [.freeMm m (qs m).root] = [m] := rfl
  have hzm : (ps m).state = .zombie := (hl.others m hm).zombie.mp hz
  refine h.departs hs (fun i hi => ?_) (fun i => ?_) (fun x hx => ?_) (fun x hx => ?_)
    (fun x => ?_) (fun x hx i hi hix => ?_) (fun y root hmr => ?_) (by simp [hfreed])
  · by_cases e : i = s
    · subst e
      simp at hi
    · rw [edit_of_ne e] at hi ⊢
      by_cases e' : i = m
      · subst e'
        simp at hi
      · rw [edit_of_ne e'] at hi ⊢
        exact hl.used e hi
  · by_cases e : i = s
    · subst e
      simp [Process.Live]
    · rw [edit_of_ne e]
      by_cases e' : i = m
      · subst e'
        simp [Process.Live, hzm]
      · rw [edit_of_ne e']
        exact hl.live e
  · by_cases e : x = s
    · subst e
      exact absurd hx.1 (by simp)
    · rw [Owner, edit_of_ne e] at hx
      rw [edit_of_ne e, hm']
      by_cases e' : x = m
      · subst e'
        simp at hx
      · rw [edit_of_ne e', if_neg (Ne.symm e'), (hl.others x e).members, Nat.add_zero]
  · by_cases e : x = s
    · subst e
      simp at hx
    · rw [edit_of_ne e] at hx ⊢
      by_cases e' : x = m
      · subst e'
        simp at hx
      · rw [edit_of_ne e'] at hx ⊢
        exact hl.zombie h e hx
  · by_cases e : x = s
    · subst e
      have hno : ¬ ps.Owner x := fun hc => hm (hm' ▸ hc.2)
      exact iff_of_false (fun hc => absurd hc.1 (by simp)) fun hc => hno hc.1
    · rw [Owner, edit_of_ne e, hfreed]
      by_cases e' : x = m
      · subst e'
        simp
      · rw [edit_of_ne e', ← Owner, hl.owner e]
        simp [e']
  · rw [hfreed, List.mem_singleton] at hx
    exact h.only hown ((hl.others m hm).members ▸ hn) hs hm' hi (hix.trans hx)
  · rw [List.mem_singleton] at hmr
    cases hmr
    exact ⟨hown, (hl.others m hm).root⟩

end Left

/-- **A live slot leaves** the space it uses, which goes when it was the last. -/
theorem release_ends (h : Fine ps) (hs : (ps s).Live) (hl : Left s ps qs) :
    Ends ps (qs.release s) := by
  by_cases hm : (qs s).mm = s
  · rcases Nat.lt_or_ge 1 (qs s).members with hn | hn
    · rw [release_stay hm hn]
      exact hl.stay h hs hm hn
    · rw [release_last hm hn]
      exact hl.last h hs hm hn
  · by_cases hn : (qs (qs s).mm).state = .zombie ∧ (qs (qs s).mm).members ≤ 1
    · rw [release_clear hm hn.1 hn.2]
      exact hl.clear h hs hm hn.1 hn.2
    · rw [release_part hm hn]
      exact hl.part h hs hm hn

/-! ### A process ends with its threads

While the threads of a leader end the leader's slot is free already but still counted, so what is
kept is said of the table in which that slot is ready (`revive`). -/

/-- The table in which slot `s` is ready. -/
def revive (s : Nat) (ps : Procs) : Procs := ps.setState s .ready

theorem revive_self : (ps.revive s s).mm = (ps s).mm ∧ (ps.revive s s).members = (ps s).members ∧
    (ps.revive s s).state = .ready := by
  simp only [revive, setState, edit_self, and_self]

theorem revive_of_ne (h : i ≠ s) : ps.revive s i = ps i := by
  rw [revive, setState, edit_of_ne h]

theorem revive_live (s : Nat) : (ps.revive s s).Live := by
  rw [Process.Live, revive_self.2.2]
  exact ⟨by decide, by decide⟩

theorem left_revive (s : Nat) : Left s (ps.revive s) ps := by
  refine ⟨?_, ?_, ?_, ?_, fun i hi => ?_⟩
  · exact revive_self.1.symm
  · exact revive_self.2.1.symm
  · simp only [revive, setState, edit_self]
  · simp only [revive, setState, edit_self]
  · rw [revive_of_ne hi]
    exact .refl _

/-- A slot that is not over keeps its state when another leaves. -/
theorem release_state (h : i ≠ s) (hz : (ps i).state ≠ .zombie) :
    ((ps.release s).1 i).state = (ps i).state := by
  by_cases hm : (ps s).mm = s
  · rcases Nat.lt_or_ge 1 (ps s).members with hn | hn
    · rw [release_stay hm hn]
      simp only [edit_of_ne h]
    · rw [release_last hm hn]
      simp only [edit_of_ne h]
  · by_cases hn : (ps (ps s).mm).state = .zombie ∧ (ps (ps s).mm).members ≤ 1
    · rw [release_clear hm hn.1 hn.2]
      simp only [edit_of_ne h, edit_of_ne fun e : i = (ps s).mm => hz (e ▸ hn.1)]
    · rw [release_part hm hn]
      simp only [edit_of_ne h]
      by_cases e : i = (ps s).mm
      · subst e
        rw [edit_self]
      · rw [edit_of_ne e]

/-- A slot leaves in the same way whether another that is not over is free or ready. -/
theorem release_revive (h : i ≠ s) (hz : (ps s).state ≠ .zombie) :
    (ps.revive s).release i = ((ps.release i).1.revive s, (ps.release i).2) := by
  have hi : ps.revive s i = ps i := revive_of_ne h
  by_cases hm : (ps i).mm = i
  · rcases Nat.lt_or_ge 1 (ps i).members with hn | hn
    · rw [release_stay hm hn, release_stay (by rwa [hi]) (by rwa [hi])]
      simp only [revive, setState]
      rw [edit_comm h]
    · rw [release_last hm hn, release_last (by rwa [hi]) (by rwa [hi]), hi]
      simp only [revive, setState]
      rw [edit_comm h]
  · by_cases hn : (ps (ps i).mm).state = .zombie ∧ (ps (ps i).mm).members ≤ 1
    · have hms : (ps i).mm ≠ s := fun e => hz (e ▸ hn.1)
      have hmr : ps.revive s (ps i).mm = ps (ps i).mm := revive_of_ne hms
      rw [release_clear hm hn.1 hn.2, release_clear (by rwa [hi]) (by rw [hi, hmr]; exact hn.1)
        (by rw [hi, hmr]; exact hn.2), hi, hmr]
      simp only [revive, setState]
      rw [edit_comm h, edit_comm hms]
    · have hnr : ¬ ((ps.revive s (ps.revive s i).mm).state = .zombie ∧
          (ps.revive s (ps.revive s i).mm).members ≤ 1) := by
        rw [hi]
        by_cases e : (ps i).mm = s
        · rw [e, revive_self.2.2]
          exact fun hc => absurd hc.1 (by decide)
        · rwa [revive_of_ne e]
      rw [release_part hm hn, release_part (by rwa [hi]) hnr, hi]
      simp only [revive, setState]
      rw [edit_comm h]
      by_cases e : (ps i).mm = s
      · rw [e, edit_edit, edit_edit]
      · rw [edit_comm e]

/-- What is kept while the threads of `s` end, when `s` is free (`c`) or not. -/
structure Ending (s : Nat) (c : Prop) (ps : Procs) (r : Outcome) : Prop where
  ends : Ends ps (r.1.revive s, r.2)
  state : (r.1 s).state = .unused ↔ c
  zombie : (r.1 s).state ≠ .zombie

theorem Same.revive (h : ps.Same qs) : (ps.revive s).Same (qs.revive s) := fun i => by
  by_cases e : i = s
  · subst e
    rw [Procs.revive, Procs.revive, setState, setState, edit_self, edit_self]
    exact ⟨.rfl, .rfl, (h i).mm, (h i).members, (h i).root, (h i).asid, (h i).leader⟩
  · rw [revive_of_ne e, revive_of_ne e]
    exact h i

/-- What leaves the use of spaces alone keeps it. -/
theorem Ending.same {c : Prop} {r t : Outcome} (h : Ending s c ps r) (hs : t.1.Same r.1)
    (he : ∀ m root, .freeMm m root ∉ t.2) : Ending s c ps (t.1, r.2 ++ t.2) :=
  ⟨h.ends.trans (h.ends.fine.ends (r := (_, t.2)) hs.revive he), (hs s).unused.trans h.state,
    mt (hs s).zombie.mp h.zombie⟩

theorem Ending.reapThread {c : Prop} {r : Outcome} (h : Ending s c ps r) (hi : i ≠ s)
    (hlive : (r.1 i).Live) :
    Ending s c ps ((r.1.reapThread i).1, r.2 ++ (r.1.reapThread i).2) := by
  have hleave := @leave_same r.1 i
  have hs := hleave s
  rw [edit_of_ne (Ne.symm hi)] at hs
  have hz : ((r.1.leave i) s).state ≠ .zombie := mt hs.zombie.mp h.zombie
  have hlive' : (r.1.revive s i).Live := by rwa [revive_of_ne hi]
  have hleft : Left i (r.1.revive s) ((r.1.leave i).revive s) := by
    refine .of_same ?_
    have := hleave.revive (s := s)
    rwa [Procs.revive, Procs.revive, setState, setState, edit_comm hi] at this
  have hrel := release_ends h.ends.fine hlive' hleft
  rw [release_revive hi hz] at hrel
  refine ⟨h.ends.trans hrel, ?_, ?_⟩
  · rw [Procs.reapThread, release_state (Ne.symm hi) hz, hs.unused]
    exact h.state
  · rw [Procs.reapThread, release_state (Ne.symm hi) hz]
    exact hz

/-- **The threads of a leader end.** -/
theorem Ending.reapThreads {c : Prop} (is : List Nat) {r : Outcome} (h : Ending s c ps r) :
    Ending s c ps (reapThreads s is r) := by
  induction is generalizing r with
  | nil => exact h
  | cons i is ih =>
      rw [Procs.reapThreads]
      split_ifs with hi
      · exact ih h
      · rw [not_or, not_not] at hi
        split
        · exact ih h
        · exact ih h
        · have hsame : (r.1.edit i fun p => { p with killed := true }).Same r.1 :=
            same_edit ⟨.rfl, .rfl, rfl, rfl, rfl, rfl, rfl⟩
          have hkill := h.same (t := (_, [])) hsame (by simp)
          rw [List.append_nil] at hkill
          exact ih hkill
        · rename_i h₁ h₂ _
          exact ih (h.reapThread hi.1 ⟨h₁, h₂⟩)

theorem leave_leader (s : Nat) : (ps.leave s s).leader = (ps s).leader := by
  have := @leave_same ps s s
  rw [edit_self] at this
  exact this.leader

/-- **A process ends**, with its threads. -/
theorem reap_ends (h : Fine ps) (hs : (ps s).Live) : Ends ps (ps.reap s) := by
  have hleft : Left s ps (ps.leave s) := .of_same (leave_same s)
  rw [reap]
  split_ifs with hl
  · have hstate : (ps.leave s s).state = .unused := by
      have := @leave_same ps s s
      rw [edit_self] at this
      exact this.unused.mpr rfl
    have hback : ((ps.leave s).revive s).Same ps := fun i => by
      by_cases e : i = s
      · subst e
        rw [revive, setState, edit_self]
        exact ⟨by simp [hs.1], by simp [hs.2], hleft.mm, hleft.members, hleft.root, hleft.asid,
          leave_leader i⟩
      · rw [revive_of_ne e]
        exact hleft.others i e
    have hstart : Ending s True ps (ps.leave s, []) :=
      ⟨h.ends hback (by simp), by simp [hstate], by simp [hstate]⟩
    have hrec : Ending s True ps ((ps.leave s).recordExit s) :=
      hstart.same (t := (ps.leave s).recordExit s) (same_recordLoop _ _ _ _)
        (recordLoop_frees _ _ _ _)
    have hend := (hrec.reapThreads (List.range MAX_PROCS)).ends
    exact hend.trans (release_ends hend.fine (revive_live s) (left_revive s))
  · exact release_ends h hs hleft

end Leave

/-! ### The beginning -/

theorem freeSlot_some (h : ps.freeSlot = some i) : i < MAX_PROCS ∧ (ps i).state = .unused := by
  rw [freeSlot] at h
  have hfree := List.find?_some h
  exact ⟨List.mem_range.mp (List.mem_of_find?_eq_some h), by simpa using hfree⟩

theorem Fine.mm_ne (h : Fine ps) (hi : (ps i).state = .unused) {j : Nat}
    (hj : (ps j).state ≠ .unused) : (ps j).mm ≠ i := fun e => (h.owner j hj).1 (e ▸ hi)

/-- **A slot begins with a space of its own.** -/
theorem Fine.own {p : Process} (h : Fine ps) (hi : (ps i).state = .unused) (hlt : i < MAX_PROCS)
    (hp : p.Live) (hm : p.mm = i) (hn : p.members = 1) : Fine (ps.edit i fun _ => p) := by
  have hused : ∀ j, ((ps.edit i fun _ => p) j).state ≠ .unused → j ≠ i → (ps j).state ≠ .unused :=
    fun j hj e => by rwa [edit_of_ne e] at hj
  have huser : ∀ m, (((ps.edit i fun _ => p).users m).card + 0 =
      (ps.users m).card + if m = i then 1 else 0) := fun m => by
    have hcard := card_filter_change (p := fun j => (ps j).Live ∧ (ps j).mm = m)
      (q := fun j => ((ps.edit i fun _ => p) j).Live ∧ ((ps.edit i fun _ => p) j).mm = m) hlt
      fun j hj => by rw [edit_of_ne hj]
    have hno : ¬ ((ps i).Live ∧ (ps i).mm = m) := fun hc => hc.1.1 hi
    simp only [hno, if_false, edit_self, hp, hm, true_and, eq_comm (a := i)] at hcard
    exact hcard
  refine ⟨fun j hj => ?_, fun j hj => ?_, fun j hj => ?_, fun j hj => ?_, fun m hown => ?_,
    fun m hz => ?_⟩
  · by_cases e : j = i
    · exact e ▸ hlt
    · exact h.slots j (hused j hj e)
  · by_cases e : j = i
    · subst e
      rw [edit_self, hm, Owner, edit_self]
      exact ⟨hp.1, hm⟩
    · rw [edit_of_ne e, Owner, edit_of_ne (h.mm_ne hi (hused j hj e))]
      exact h.owner j (hused j hj e)
  · by_cases e : j = i
    · subst e
      rw [edit_self, hm, edit_self]
    · rw [edit_of_ne e, edit_of_ne (h.mm_ne hi (hused j hj e))]
      exact h.root j (hused j hj e)
  · by_cases e : j = i
    · subst e
      rw [edit_self, hm, edit_self]
    · rw [edit_of_ne e, edit_of_ne (h.mm_ne hi (hused j hj e))]
      exact h.asid j (hused j hj e)
  · have := huser m
    by_cases e : m = i
    · subst e
      have hnone : (ps.users m).card = 0 := Finset.card_eq_zero.mpr
        (Finset.filter_eq_empty_iff.mpr fun j _ hc => h.mm_ne hi hc.1.1 hc.2)
      rw [if_pos rfl] at this
      rw [edit_self, hn]
      omega
    · rw [if_neg e] at this
      rw [Owner, edit_of_ne e] at hown
      rw [edit_of_ne e, h.members m hown]
      omega
  · by_cases e : m = i
    · subst e
      rw [edit_self] at hz
      exact absurd hz hp.2
    · rw [edit_of_ne e] at hz ⊢
      exact h.zombie m hz

/-- **A slot begins in the space of another.** -/
theorem Fine.join {p : Process} {m : Nat} (h : Fine ps) (hi : (ps i).state = .unused)
    (hlt : i < MAX_PROCS) (hown : ps.Owner m) (hp : p.Live) (hm : p.mm = m)
    (hr : p.root = (ps m).root) (ha : p.asid = (ps m).asid) :
    Fine ((ps.edit m fun q => { q with members := q.members + 1 }).edit i fun _ => p) := by
  have hmi : m ≠ i := fun e => hown.1 (e ▸ hi)
  obtain ⟨rs, hrs⟩ : ∃ rs, rs = (ps.edit m fun q => { q with members := q.members + 1 }).edit i
    fun _ => p := ⟨_, rfl⟩
  have hself : rs i = p := by rw [hrs, edit_self]
  have howner : rs m = { ps m with members := (ps m).members + 1 } := by
    rw [hrs, edit_of_ne hmi, edit_self]
  have hother : ∀ j, j ≠ i → j ≠ m → rs j = ps j := fun j h₁ h₂ => by
    rw [hrs, edit_of_ne h₁, edit_of_ne h₂]
  -- what the other slots say of the use of spaces is as it was
  have hsame : ∀ j, j ≠ i → (rs j).state = (ps j).state ∧ (rs j).mm = (ps j).mm ∧
      (rs j).root = (ps j).root ∧ (rs j).asid = (ps j).asid := fun j hj => by
    by_cases e : j = m
    · subst e
      rw [howner]
      exact ⟨rfl, rfl, rfl, rfl⟩
    · rw [hother j hj e]
      exact ⟨rfl, rfl, rfl, rfl⟩
  have hOwner : ∀ x, ps.Owner x → rs.Owner x := fun x hx => by
    have hxi : x ≠ i := fun e => hx.1 (e ▸ hi)
    rw [Owner, (hsame x hxi).1, (hsame x hxi).2.1]
    exact hx
  rw [← hrs]
  refine ⟨fun j hj => ?_, fun j hj => ?_, fun j hj => ?_, fun j hj => ?_, fun x hx => ?_,
    fun x hz => ?_⟩
  · by_cases e : j = i
    · exact e ▸ hlt
    · exact h.slots j ((hsame j e).1 ▸ hj)
  · by_cases e : j = i
    · subst e
      rw [hself, hm]
      exact hOwner m hown
    · rw [(hsame j e).2.1]
      exact hOwner _ (h.owner j ((hsame j e).1 ▸ hj))
  · by_cases e : j = i
    · subst e
      rw [hself, hm, howner]
      exact hr
    · have hj' := (hsame j e).1 ▸ hj
      rw [(hsame j e).2.2.1, (hsame j e).2.1, (hsame _ (h.mm_ne hi hj')).2.2.1]
      exact h.root j hj'
  · by_cases e : j = i
    · subst e
      rw [hself, hm, howner]
      exact ha
    · have hj' := (hsame j e).1 ▸ hj
      rw [(hsame j e).2.2.2, (hsame j e).2.1, (hsame _ (h.mm_ne hi hj')).2.2.2]
      exact h.asid j hj'
  · have hxi : x ≠ i := fun e => by
      subst e
      rw [Owner, hself, hm] at hx
      exact hmi hx.2
    have hx' : ps.Owner x := by
      rw [Owner, (hsame x hxi).1, (hsame x hxi).2.1] at hx
      exact hx
    have hcard := card_filter_change (p := fun j => (ps j).Live ∧ (ps j).mm = x)
      (q := fun j => (rs j).Live ∧ (rs j).mm = x) hlt fun j hj => by
        rw [Process.Live, Process.Live, (hsame j hj).1, (hsame j hj).2.1]
    have hno : ¬ ((ps i).Live ∧ (ps i).mm = x) := fun hc => hc.1.1 hi
    simp only [hno, if_false, hself, hp, hm, true_and, Nat.add_zero] at hcard
    have hmem := h.members x hx'
    by_cases e : x = m
    · subst e
      rw [howner, if_pos rfl] at *
      exact (congrArg (· + 1) hmem).trans hcard.symm
    · rw [hother x hxi e, hmem]
      rw [if_neg (Ne.symm e)] at hcard
      exact hcard.symm
  · by_cases e : x = i
    · subst e
      rw [hself] at hz
      exact absurd hz hp.2
    · rw [(hsame x e).1] at hz
      obtain ⟨h₁, h₂⟩ := h.zombie x hz
      rw [(hsame x e).2.1]
      refine ⟨h₁, ?_⟩
      by_cases e' : x = m
      · subst e'
        rw [howner]
        exact Nat.succ_pos _
      · rw [hother x e e']
        exact h₂

/-- The others, when slot `i` begins. -/
structure Begins (ps : Procs) (i : Nat) (qs : Procs) : Prop where
  fine : Fine qs
  free : (ps i).state = .unused
  live : (qs i).Live
  others : ∀ j, j ≠ i → ((qs j).state = .unused ↔ (ps j).state = .unused) ∧
    (qs j).mm = (ps j).mm ∧ (qs j).root = (ps j).root ∧ (qs j).asid = (ps j).asid

theorem Begins.same {rs : Procs} (h : Begins ps i qs) (hs : rs.Same qs) : Begins ps i rs where
  fine := h.fine.congr hs
  free := h.free
  live := (hs i).live.mpr h.live
  others j hj := by
    obtain ⟨h₁, h₂, h₃, h₄⟩ := h.others j hj
    exact ⟨(hs j).unused.trans h₁, (hs j).mm.trans h₂, (hs j).root.trans h₃, (hs j).asid.trans h₄⟩

/-- The owners there are when slot `i` has begun in the space of `m`. -/
theorem Begins.owner (h : Begins ps i qs) {x : Nat} (hx : x ≠ i) : qs.Owner x ↔ ps.Owner x := by
  obtain ⟨h₁, h₂, -, -⟩ := h.others x hx
  rw [Owner, Owner, ne_eq, ne_eq, h₁, h₂]

theorem Fine.begins_own {p : Process} (h : Fine ps) (hi : ps.freeSlot = some i) (hp : p.Live)
    (hm : p.mm = i) (hn : p.members = 1) : Begins ps i (ps.edit i fun _ => p) := by
  obtain ⟨hlt, hfree⟩ := freeSlot_some hi
  refine ⟨h.own hfree hlt hp hm hn, hfree, by rwa [edit_self], fun j hj => ?_⟩
  rw [edit_of_ne hj]
  exact ⟨.rfl, rfl, rfl, rfl⟩

theorem Fine.begins_join {p : Process} {m : Nat} (h : Fine ps) (hi : ps.freeSlot = some i)
    (hown : ps.Owner m) (hp : p.Live) (hm : p.mm = m) (hr : p.root = (ps m).root)
    (ha : p.asid = (ps m).asid) :
    Begins ps i ((ps.edit m fun q => { q with members := q.members + 1 }).edit i fun _ => p) := by
  obtain ⟨hlt, hfree⟩ := freeSlot_some hi
  refine ⟨h.join hfree hlt hown hp hm hr ha, hfree, by rwa [edit_self], fun j hj => ?_⟩
  rw [edit_of_ne hj]
  by_cases e : j = m
  · subst e
    rw [edit_self]
    exact ⟨.rfl, rfl, rfl, rfl⟩
  · rw [edit_of_ne e]
    exact ⟨.rfl, rfl, rfl, rfl⟩

/-- **A process begins** in a space of its own. -/
theorem Fine.createEx {c : Option Nat} {root asid : Nat} (h : Fine ps)
    (hc : ps.createEx c root asid = (some i, qs)) :
    Begins ps i qs ∧ (qs i).mm = i ∧ (qs i).root = some root ∧ (qs i).asid = asid := by
  rw [Procs.createEx] at hc
  split at hc
  · exact absurd (congrArg Prod.fst hc) (by simp)
  · rename_i j hfree
    obtain ⟨hj, rfl⟩ := Prod.mk.inj hc
    obtain rfl := Option.some.inj hj
    refine ⟨h.begins_own hfree ⟨by simp, by simp⟩ rfl rfl, ?_⟩
    rw [edit_self]
    exact ⟨rfl, rfl, rfl⟩

/-- **A thread begins** in the space of its process. -/
theorem Fine.threadCreate {clearTid : Nat} (h : Fine ps) (hs : (ps s).Live)
    (hc : ps.threadCreate s clearTid = (some i, qs)) : Begins ps i qs ∧ (qs i).mm = (ps s).mm := by
  have hown : ps.Owner (ps s).mm := h.owner s hs.1
  rw [Procs.threadCreate] at hc
  split at hc
  · exact absurd (congrArg Prod.fst hc) (by simp)
  · rename_i j hfree
    obtain ⟨hj, rfl⟩ := Prod.mk.inj hc
    obtain rfl := Option.some.inj hj
    have hmj : j ≠ (ps s).mm := fun e => hown.1 (e ▸ (freeSlot_some hfree).2)
    rw [edit_comm hmj]
    refine ⟨h.begins_join hfree hown ⟨by simp, by simp⟩ rfl rfl rfl, ?_⟩
    rw [edit_self]

/-- **A process forks**, into a space of its own or into its parent's. -/
theorem Fine.fork {new : Option (Nat × Nat)} {clearTid : Nat} (h : Fine ps) (hs : (ps s).Live)
    (hc : ps.fork s new clearTid = (some i, qs)) : Begins ps i qs ∧
      (∀ r ∈ new, (qs i).mm = i ∧ (qs i).root = some r.1 ∧ (qs i).asid = r.2) ∧
      (new = none → (qs i).mm = (ps s).mm) := by
  have hown : ps.Owner (ps s).mm := h.owner s hs.1
  rw [Procs.fork] at hc
  split at hc
  · exact absurd (congrArg Prod.fst hc) (by simp)
  · rename_i j hfree
    have hsj : s ≠ j := fun e => hs.1 (e ▸ (freeSlot_some hfree).2)
    cases new with
    | some r =>
        obtain ⟨hj, rfl⟩ := Prod.mk.inj hc
        obtain rfl := Option.some.inj hj
        refine ⟨h.begins_own hfree ⟨by simp, by simp⟩ rfl rfl, fun r' hr => ?_, by simp⟩
        obtain rfl := Option.some.inj hr
        rw [edit_self]
        exact ⟨rfl, rfl, rfl⟩
    | none =>
        obtain ⟨hj, rfl⟩ := Prod.mk.inj hc
        obtain rfl := Option.some.inj hj
        have hjoin := h.begins_join hfree hown (p := { ps.fresh j with
          leader := j, parent := some (ps (ps s).leader).pid, clearTid := clearTid, state := .ready,
          root := (ps (ps s).mm).root, asid := (ps (ps s).mm).asid, mm := (ps s).mm,
          vforkParent := some s }) ⟨by simp, by simp⟩ rfl rfl rfl
        refine ⟨hjoin.same (same_setState ?_ (by decide) (by decide)), by simp, fun _ => ?_⟩
        · rw [edit_of_ne hsj, Process.Live]
          by_cases e : s = (ps s).mm
          · rw [← e, edit_self]
            exact hs
          · rw [edit_of_ne e]
            exact hs
        · rw [setState, edit_of_ne (Ne.symm hsj), edit_self]

/-- A function that finds no slot leaves the table as it is. -/
theorem createEx_none {c : Option Nat} {root asid : Nat} (h : (ps.createEx c root asid).1 = none) :
    (ps.createEx c root asid).2 = ps := by
  rw [Procs.createEx] at h ⊢
  split at h
  · rfl
  · exact absurd h (by simp)

theorem fork_none {new : Option (Nat × Nat)} {clearTid : Nat}
    (h : (ps.fork s new clearTid).1 = none) : (ps.fork s new clearTid).2 = ps := by
  rw [Procs.fork] at h ⊢
  split at h
  · rfl
  · cases new <;> exact absurd h (by simp)

theorem threadCreate_none {clearTid : Nat} (h : (ps.threadCreate s clearTid).1 = none) :
    (ps.threadCreate s clearTid).2 = ps := by
  rw [Procs.threadCreate] at h ⊢
  split at h
  · rfl
  · exact absurd h (by simp)

/-! ### A process goes on with another image -/

theorem dropMm_stays (h : ¬ ((ps s).mm = s ∧ 1 < (ps s).members)) :
    (ps.dropMm s).1 = false ∧ ((ps.dropMm s).2.1 s).state = (ps s).state := by
  by_cases hm : (ps s).mm = s
  · have hn : ¬ 0 < (ps s).members - 1 := fun hc => h ⟨hm, by omega⟩
    simp only [dropMm, hm, if_true, edit_self, hn, if_false, freeMm, and_self]
  · rw [dropMm]
    simp only [if_neg hm]
    split_ifs
    · simp only [setState, freeMm, edit_of_ne (Ne.symm hm), edit_self, and_self]
    · simp only [edit_self, edit_of_ne (Ne.symm hm), and_self]

/-- A process that is not the first of several users of its own space drops it as one that leaves,
and goes on with another. -/
theorem dropMm_release {f : Process → Process} (h : ¬ ((ps s).mm = s ∧ 1 < (ps s).members)) :
    (ps.dropMm s).2.1.edit s f =
      (ps.release s).1.edit s (fun _ => f ((ps.dropMm s).2.1 s)) ∧
    (ps.dropMm s).2.2 = (ps.release s).2 ∧ ((ps.release s).1 s).state = .unused := by
  have hfalse := (dropMm_stays h).1
  rw [release]
  simp only [hfalse, setState, edit_edit, edit_self, and_true, Bool.false_eq_true, if_false]
  funext j
  by_cases e : j = s
  · subst e
    rw [edit_self, edit_self]
  · rw [edit_of_ne e, edit_of_ne e]

/-- A live leader ends its threads and goes on. -/
theorem reapThreads_live (h : Fine ps) (hs : (ps s).Live) (is : List Nat) :
    Ends ps (reapThreads s is (ps, [])) ∧ ((reapThreads s is (ps, [])).1 s).Live := by
  have hstart : Ending s False ps (ps, []) :=
    ⟨h.ends (same_setState hs (by decide) (by decide)) (by simp), by simp [hs.1], hs.2⟩
  have hend := hstart.reapThreads is
  obtain ⟨r, hr⟩ : ∃ r, r = reapThreads s is (ps, []) := ⟨_, rfl⟩
  rw [← hr] at hend ⊢
  have hlive : (r.1 s).Live := ⟨hend.state.mp, hend.zombie⟩
  have hsame : r.1.Same (r.1.revive s) := fun i => by
    by_cases e : i = s
    · subst e
      rw [revive, setState, edit_self]
      exact ⟨by simp [hlive.1], by simp [hlive.2], rfl, rfl, rfl, rfl, rfl⟩
    · rw [revive_of_ne e]
      exact .refl _
  have hgo := hend.ends.trans (hend.ends.fine.ends (r := (r.1, [])) hsame (by simp))
  rw [List.append_nil] at hgo
  exact ⟨hgo, hlive⟩

/-- **A process gets a new image**: its threads end, it leaves the space it used and begins in one of
its own; or it keeps its space. -/
theorem execReplace_spec (root asid : Nat) (h : Fine ps) (hs : (ps s).Live) :
    ∃ t : Outcome, Ends ps t ∧ t.2 = (ps.execReplace s root asid).2.2 ∧
      ((ps.execReplace s root asid).1 = false → (ps.execReplace s root asid).2.1 = t.1) ∧
      ((ps.execReplace s root asid).1 = true → Begins t.1 s (ps.execReplace s root asid).2.1 ∧
        ((ps.execReplace s root asid).2.1 s).mm = s ∧
        ((ps.execReplace s root asid).2.1 s).root = some root ∧
        ((ps.execReplace s root asid).2.1 s).asid = asid) := by
  obtain ⟨hends, hlive⟩ := reapThreads_live h hs (List.range MAX_PROCS)
  rw [execReplace]
  by_cases hl : (ps s).leader ≠ s
  · rw [if_pos hl]
    exact ⟨(ps, []), h.ends (.refl _) (by simp), rfl, fun _ => rfl, by simp⟩
  · rw [if_neg hl]
    obtain ⟨r, hr⟩ : ∃ r, r = reapThreads s (List.range MAX_PROCS) (ps, []) := ⟨_, rfl⟩
    rw [← hr] at hends hlive
    simp only [← hr]
    by_cases hn : (r.1 s).mm = s ∧ 1 < (r.1 s).members
    · rw [if_pos hn]
      exact ⟨r, hends, rfl, fun _ => rfl, by simp⟩
    · rw [if_neg hn]
      have hsame : (r.1.wakeVforkParent s).Same r.1 := same_wakeVforkParent s
      obtain ⟨qs, hq⟩ : ∃ qs, qs = r.1.wakeVforkParent s := ⟨_, rfl⟩
      rw [← hq] at hsame ⊢
      have hleft : Left s r.1 qs :=
        ⟨(hsame s).mm, (hsame s).members, (hsame s).root, (hsame s).asid, fun i _ => hsame i⟩
      have hnq : ¬ ((qs s).mm = s ∧ 1 < (qs s).members) := by
        rwa [(hsame s).mm, (hsame s).members]
      have hlq : (qs s).Live := (hsame s).live.mpr hlive
      have hrel := release_ends hends.fine hlive hleft
      obtain ⟨hedit, heff, hfree⟩ := dropMm_release (f := fun p =>
        { p with root := some root, asid := asid, mm := s, members := 1, clearTid := 0 }) hnq
      refine ⟨((qs.release s).1, r.2 ++ (qs.release s).2), hends.trans hrel, ?_, by simp,
        fun _ => ?_⟩
      · rw [heff]
      · simp only [hedit, edit_self, and_self, and_true]
        have hlt : s < MAX_PROCS := h.slots s hs.1
        have hst := (dropMm_stays hnq).2
        refine ⟨hrel.fine.own hfree hlt ?_ rfl rfl, hfree, ?_, fun j hj => ?_⟩
        · rw [Process.Live, hst]
          exact hlq
        · rw [edit_self, Process.Live, hst]
          exact hlq
        · rw [edit_of_ne hj]
          exact ⟨.rfl, rfl, rfl, rfl⟩

end Procs

end Pulsar.Proc

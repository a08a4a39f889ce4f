import Pulsar.Proc.Fates

/-!
# What an event does to the table (`process.rs`)

Most events leave every process where it is, with its partners: `Go ps qs` says so, and `Calm ps qs`
that moreover none begins to wait for a child.  The scheduler, the ends of waits and the changes of
one's own record are calm; a process that begins (`Born`) or replaces its image (`Execs`) leaves the
others so.
-/

namespace Pulsar.Proc

/-- A live process that does not wait for a certain other one. -/
def State.Loose (st : State) : Prop := st = .ready ∨ st = .running ∨ st.Interruptible

instance (st : State) : Decidable st.Loose := by unfold State.Loose; infer_instance

theorem State.Loose.live {p : Process} (h : p.state.Loose) : p.Live := by
  rcases h with h | h | h | h | h | h | h | h <;> rw [Process.Live, h] <;> exact ⟨by decide, by decide⟩

/-- A process that waits for its message to be taken, or answered. -/
def State.Sends (st : State) : Prop := st = .sendBlocked ∨ st = .replyBlocked

instance (st : State) : Decidable st.Sends := by unfold State.Sends; infer_instance

theorem State.Sends.not_loose {st : State} (h : st.Sends) : ¬ st.Loose := by
  rcases h with rfl | rfl <;> decide

/-- The process goes on. -/
structure Process.Goes (p q : Process) : Prop where
  same : q.Same p
  alike : p.Alike q
  vfork : q.vforkParent = p.vforkParent
  state : q.state = p.state ∨ p.state.Loose ∧ q.state.Loose
  peer : q.peer = p.peer
  sendTo : q.sendTo = p.sendTo
  inbox : q.inbox = p.inbox
  ret : p.state.Sends → q.ret = p.ret ∧ q.reply = p.reply
  killed : q.killed = p.killed

theorem Process.Goes.refl (p : Process) : p.Goes p :=
  ⟨.refl p, .refl p, rfl, .inl rfl, rfl, rfl, rfl, fun _ => ⟨rfl, rfl⟩, rfl⟩

theorem Process.Goes.loose {p q : Process} (h : p.Goes q) : q.state.Loose ↔ p.state.Loose := by
  rcases h.state with e | ⟨h₁, h₂⟩
  · rw [e]
  · exact iff_of_true h₂ h₁

theorem Process.Goes.trans {p q r : Process} (h : p.Goes q) (h' : q.Goes r) : p.Goes r where
  same := h'.same.trans h.same
  alike := h.alike.trans h'.alike
  vfork := h'.vfork.trans h.vfork
  state := by
    rcases h'.state with e | ⟨h₁, h₂⟩
    · rw [e]
      exact h.state
    · exact .inr ⟨h.loose.mp h₁, h₂⟩
  peer := h'.peer.trans h.peer
  sendTo := h'.sendTo.trans h.sendTo
  inbox := h'.inbox.trans h.inbox
  ret hl := by
    obtain ⟨h₁, h₂⟩ := h.ret hl
    have hst : q.state = p.state := h.state.resolve_right fun e => hl.not_loose e.1
    obtain ⟨h₃, h₄⟩ := h'.ret (hst ▸ hl)
    exact ⟨h₃.trans h₁, h₄.trans h₂⟩
  killed := h'.killed.trans h.killed

/-- A process in a state in which it waits for a certain other one stays in it. -/
theorem Process.Goes.stuck {p q : Process} (h : p.Goes q) (st : State) (hst : ¬ st.Loose) :
    q.state = st ↔ p.state = st := by
  rcases h.state with e | ⟨h₁, h₂⟩
  · rw [e]
  · exact iff_of_false (fun e => hst (e ▸ h₂)) fun e => hst (e ▸ h₁)

/-- A process changes what no one else looks at. -/
theorem Process.goes_of_loose {p q : Process} (hp : p.state.Loose) (hq : q.state.Loose)
    (h : q = { p with state := q.state, ret := q.ret, reply := q.reply, msgPtr := q.msgPtr,
                      futexAddr := q.futexAddr, status := q.status,
                      waitPid := q.waitPid, waitPtr := q.waitPtr, clearTid := q.clearTid }) :
    p.Goes q := by
  have hpl := hp.live
  have hql := hq.live
  refine ⟨⟨iff_of_false hql.1 hpl.1, iff_of_false hql.2 hpl.2, ?_, ?_, ?_, ?_, ?_⟩,
    ⟨?_, ?_, ?_, ?_⟩, ?_, .inr ⟨hp, hq⟩, ?_, ?_, ?_,
    fun hl => absurd hp hl.not_loose, ?_⟩
  all_goals rw [h]

/-- It begins no wait for a child. -/
structure Process.Calm (p q : Process) : Prop extends p.Goes q where
  waits : q.state = .waitChild → p.state = .waitChild ∧ q.waitPid = p.waitPid

theorem Process.Calm.refl (p : Process) : p.Calm p := ⟨.refl p, fun h => ⟨h, rfl⟩⟩

theorem Process.Calm.trans {p q r : Process} (h : p.Calm q) (h' : q.Calm r) : p.Calm r := by
  refine ⟨h.toGoes.trans h'.toGoes, fun hr => ?_⟩
  obtain ⟨h₁, h₂⟩ := h'.waits hr
  obtain ⟨h₃, h₄⟩ := h.waits h₁
  exact ⟨h₃, h₂.trans h₄⟩

namespace Procs

variable {ps qs rs : Procs} {i j s : Nat}

/-- Every process goes on. -/
def Go (ps qs : Procs) : Prop := ∀ i, (ps i).Goes (qs i)

/-- Every process goes on, and begins no wait for a child. -/
def Calm (ps qs : Procs) : Prop := ∀ i, (ps i).Calm (qs i)

theorem Go.trans (h : Go ps qs) (h' : Go qs rs) : Go ps rs := fun i => (h i).trans (h' i)

theorem Calm.refl (ps : Procs) : Calm ps ps := fun i => .refl (ps i)

theorem Calm.trans (h : Calm ps qs) (h' : Calm qs rs) : Calm ps rs := fun i => (h i).trans (h' i)

theorem Calm.go (h : Calm ps qs) : Go ps qs := fun i => (h i).toGoes

theorem Go.same (h : Go ps qs) : qs.Same ps := fun i => (h i).same

theorem go_edit {f : Process → Process} (h : (ps i).Goes (f (ps i))) : Go ps (ps.edit i f) :=
  fun j => by
    by_cases e : j = i
    · subst e
      rwa [edit_self]
    · rw [edit_of_ne e]
      exact .refl _

theorem calm_edit {f : Process → Process} (h : (ps i).Calm (f (ps i))) : Calm ps (ps.edit i f) :=
  fun j => by
    by_cases e : j = i
    · subst e
      rwa [edit_self]
    · rw [edit_of_ne e]
      exact .refl _

/-! ### The ends of waits, and the scheduler -/

theorem wake_calm (w : Nat × Option Nat) : Calm ps (ps.wake w) := by
  rw [wake]
  split_ifs with h
  · exact calm_edit ⟨Process.goes_of_loose (.inr (.inr h)) (.inl rfl) rfl, nofun⟩
  · exact .refl ps

theorem wakeAll_calm (ws : Wakes) : Calm ps (ps.wakeAll ws) := by
  induction ws generalizing ps with
  | nil => exact .refl ps
  | cons w ws ih => exact (wake_calm w).trans ih

theorem wakeLoop_calm (root : Option Nat) (addr : Nat) (is : List Nat) (n : Nat) :
    Calm ps (wakeLoop root addr n is ps).2 := by
  induction is generalizing n ps with
  | nil => cases n <;> exact .refl ps
  | cons i is ih =>
      cases n with
      | zero => exact .refl ps
      | succ n =>
          rw [wakeLoop]
          split_ifs with h
          · refine (calm_edit (i := i) (f := fun p => { p with ret := 0, state := .ready }) ?_).trans
              (ih n)
            exact ⟨Process.goes_of_loose (by rw [h.1]; decide) (.inl rfl) rfl, nofun⟩
          · exact ih (n + 1)

theorem futexWake_calm (root : Option Nat) (addr n : Nat) :
    Calm ps (ps.futexWake root addr n).2 := wakeLoop_calm root addr _ n

theorem setState_calm {st : State} (h : (ps i).state.Loose) (hst : st = .ready ∨ st = .running) :
    Calm ps (ps.setState i st) := by
  refine calm_edit ⟨Process.goes_of_loose h (hst.imp_right .inl) rfl, fun hw => ?_⟩
  rcases hst with rfl | rfl <;> exact nomatch hw

/-- A live process changes its own record. -/
theorem calm_edit_own {f : Process → Process} (h : (ps i).state = .running)
    (hf : f (ps i) = { ps i with ret := (f (ps i)).ret, status := (f (ps i)).status,
                                 clearTid := (f (ps i)).clearTid }) :
    Calm ps (ps.edit i f) := by
  have hst : (f (ps i)).state = .running := by rw [hf, h]
  refine calm_edit ⟨Process.goes_of_loose (.inr (.inl h)) (.inr (.inl hst)) ?_, fun hw => ?_⟩
  · rw [hf]
  · exact absurd (hst.symm.trans hw) (by decide)

theorem setRet_calm (h : ¬ (ps s).state.Sends) (v : Nat) : Calm ps (ps.setRet s v) :=
  calm_edit ⟨⟨⟨.rfl, .rfl, rfl, rfl, rfl, rfl, rfl⟩, ⟨rfl, rfl, rfl, rfl⟩, rfl, .inl rfl, rfl, rfl, rfl,
    fun e => absurd e h, rfl⟩, fun e => ⟨e, rfl⟩⟩

theorem setStatusOf_calm (s status : Nat) : Calm ps (ps.setStatusOf s status) :=
  calm_edit ⟨⟨⟨.rfl, .rfl, rfl, rfl, rfl, rfl, rfl⟩, ⟨rfl, rfl, rfl, rfl⟩, rfl, .inl rfl, rfl, rfl, rfl,
    fun _ => ⟨rfl, rfl⟩, rfl⟩, fun h => ⟨h, rfl⟩⟩

theorem clearTidOf_calm (s : Nat) (mapped : Bool) : Calm ps (ps.clearTidOf s mapped).1 := by
  rw [clearTidOf]
  split_ifs
  · exact futexWake_calm _ _ _
  · exact .refl ps

/-- What is ready stays so, or runs, and its call returns what it would have. -/
def Settles (ps qs : Procs) : Prop := ∀ i, (ps i).state = .ready →
  ((qs i).state = .ready ∨ (qs i).state = .running) ∧ (qs i).ret = (ps i).ret ∧
    (qs i).reply = (ps i).reply

theorem settles_of_eq (h : ∀ i, (ps i).state = .ready → qs i = ps i) : Settles ps qs := fun i hi => by
  rw [h i hi]
  exact ⟨.inl hi, rfl, rfl⟩

theorem settles_edit {f : Process → Process} (h : (ps i).state ≠ .ready) :
    Settles ps (ps.edit i f) :=
  settles_of_eq fun j hj => edit_of_ne (fun e : j = i => h (e ▸ hj)) f

theorem wakeAll_ready (ws : Wakes) (hi : (ps i).state = .ready) : ps.wakeAll ws i = ps i := by
  induction ws generalizing ps with
  | nil => rfl
  | cons w ws ih =>
      have hw : ps.wake w i = ps i := by
        rw [wake]
        split_ifs with h
        · refine edit_of_ne (fun e => ?_) _
          rw [← e, hi] at h
          exact absurd h (by decide)
        · rfl
      have hi' : (ps.wake w i).state = .ready := by rw [hw, hi]
      exact (ih hi').trans hw

theorem wakeLoop_ready (root : Option Nat) (addr : Nat) (is : List Nat) (n : Nat)
    (hi : (ps i).state = .ready) : (wakeLoop root addr n is ps).2 i = ps i := by
  induction is generalizing n ps with
  | nil => cases n <;> rfl
  | cons j is ih =>
      cases n with
      | zero => rfl
      | succ n =>
          rw [wakeLoop]
          split_ifs with h
          · have hne : i ≠ j := fun e => by
              rw [← e, waitsOn, hi] at h
              exact absurd h.1 (by decide)
            exact (ih n (by rwa [edit_of_ne hne])).trans (edit_of_ne hne _)
          · exact ih (n + 1) hi

theorem clearTidOf_settles (s : Nat) (mapped : Bool) : Settles ps (ps.clearTidOf s mapped).1 := by
  refine settles_of_eq fun i hi => ?_
  rw [clearTidOf]
  split_ifs
  · exact wakeLoop_ready _ _ _ _ hi
  · rfl

/-! ### A process begins -/

/-- A process begins in slot `i`. -/
structure Born (ps : Procs) (i : Nat) (qs : Procs) : Prop where
  free : ps.freeSlot = some i
  pid : (qs i).pid = i + MAX_PROCS * (ps i).generation
  generation : (qs i).generation = (ps i).generation + 1
  state : (qs i).state = .ready
  killed : (qs i).killed = false
  others : ∀ j, j ≠ i → qs j = { ps j with members := (qs j).members }

theorem Born.unused (h : Born ps i qs) : (ps i).state = .unused ∧ i < MAX_PROCS :=
  ⟨(freeSlot_some h.free).2, (freeSlot_some h.free).1⟩

theorem Born.ne (h : Born ps i qs) (hj : (ps j).Live) : j ≠ i :=
  fun e => hj.1 (e ▸ h.unused.1)

theorem born_own {p : Process} (hi : ps.freeSlot = some i)
    (hp : p.pid = i + MAX_PROCS * (ps i).generation ∧ p.generation = (ps i).generation + 1 ∧
      p.state = .ready ∧ p.killed = false) : Born ps i (ps.edit i fun _ => p) := by
  obtain ⟨h₁, h₂, h₃, h₄⟩ := hp
  exact ⟨hi, by rwa [edit_self], by rwa [edit_self], by rwa [edit_self], by rwa [edit_self],
    fun j hj => by rw [edit_of_ne hj]⟩

theorem born_join {p : Process} {m : Nat} (hi : ps.freeSlot = some i)
    (hp : p.pid = i + MAX_PROCS * (ps i).generation ∧ p.generation = (ps i).generation + 1 ∧
      p.state = .ready ∧ p.killed = false) :
    Born ps i ((ps.edit m fun q => { q with members := q.members + 1 }).edit i fun _ => p) := by
  obtain ⟨h₁, h₂, h₃, h₄⟩ := hp
  refine ⟨hi, by rwa [edit_self], by rwa [edit_self], by rwa [edit_self], by rwa [edit_self],
    fun j hj => ?_⟩
  rw [edit_of_ne hj]
  by_cases e : j = m
  · subst e
    rw [edit_self]
  · rw [edit_of_ne e]

theorem createEx_free {c : Option Nat} {root asid : Nat} (h : (ps.createEx c root asid).1 = none) :
    ps.freeSlot = none := by
  rw [createEx] at h
  split at h
  · assumption
  · exact absurd h (by simp)

theorem fork_free {new : Option (Nat × Nat)} {clearTid : Nat}
    (h : (ps.fork s new clearTid).1 = none) : ps.freeSlot = none := by
  rw [fork] at h
  split at h
  · assumption
  · cases new <;> exact absurd h (by simp)

theorem threadCreate_free {clearTid : Nat} (h : (ps.threadCreate s clearTid).1 = none) :
    ps.freeSlot = none := by
  rw [threadCreate] at h
  split at h
  · assumption
  · exact absurd h (by simp)

theorem createEx_born {c : Option Nat} {root asid : Nat}
    (h : ps.createEx c root asid = (some i, qs)) : Born ps i qs ∧ (qs i).leader = i ∧
      (qs i).vforkParent = none ∧ (qs i).parent = c.map ps.leaderPid := by
  rw [createEx] at h
  split at h
  · exact absurd (congrArg Prod.fst h) (by simp)
  · rename_i j hfree
    obtain ⟨hj, rfl⟩ := Prod.mk.inj h
    obtain rfl := Option.some.inj hj
    refine ⟨born_own hfree ⟨rfl, rfl, rfl, rfl⟩, ?_⟩
    rw [edit_self]
    exact ⟨rfl, rfl, rfl⟩

theorem threadCreate_born {clearTid : Nat} (hown : (ps (ps s).mm).state ≠ .unused)
    (h : ps.threadCreate s clearTid = (some i, qs)) : Born ps i qs ∧
      (qs i).leader = (ps s).leader ∧ (qs i).vforkParent = none ∧
      (qs i).parent = (ps (ps s).leader).parent := by
  rw [threadCreate] at h
  split at h
  · exact absurd (congrArg Prod.fst h) (by simp)
  · rename_i j hfree
    obtain ⟨hj, rfl⟩ := Prod.mk.inj h
    obtain rfl := Option.some.inj hj
    have hmj : j ≠ (ps s).mm := fun e => hown (e ▸ (freeSlot_some hfree).2)
    rw [edit_comm hmj]
    refine ⟨born_join hfree ⟨rfl, rfl, rfl, rfl⟩, ?_⟩
    rw [edit_self]
    exact ⟨rfl, rfl, rfl⟩

theorem fork_born {r : Nat × Nat} {clearTid : Nat}
    (h : ps.fork s (some r) clearTid = (some i, qs)) : Born ps i qs ∧ (qs i).leader = i ∧
      (qs i).vforkParent = none ∧ (qs i).parent = some (ps.leaderPid s) := by
  rw [fork] at h
  split at h
  · exact absurd (congrArg Prod.fst h) (by simp)
  · rename_i j hfree
    obtain ⟨hj, rfl⟩ := Prod.mk.inj h
    obtain rfl := Option.some.inj hj
    refine ⟨born_own hfree ⟨rfl, rfl, rfl, rfl⟩, ?_⟩
    rw [edit_self]
    exact ⟨rfl, rfl, rfl⟩

/-- The child of a `vfork` begins, and its parent waits. -/
theorem vfork_born {clearTid : Nat} (h : ps.fork s none clearTid = (some i, qs)) :
    ∃ rs, Born ps i rs ∧ (rs i).leader = i ∧ (rs i).vforkParent = some s ∧
      (rs i).parent = some (ps.leaderPid s) ∧ qs = rs.setState s .vforkWait := by
  rw [fork] at h
  split at h
  · exact absurd (congrArg Prod.fst h) (by simp)
  · rename_i j hfree
    obtain ⟨hj, rfl⟩ := Prod.mk.inj h
    obtain rfl := Option.some.inj hj
    refine ⟨_, born_join hfree ⟨rfl, rfl, rfl, rfl⟩, ?_, ?_, ?_, rfl⟩
    all_goals rw [edit_self]
    rfl

/-! ### A process replaces its image -/

/-- What becomes of another slot when slot `s` gets a new space. -/
inductive Parting (s : Nat) (ps qs : Procs) (i : Nat) : Prop where
  | stays (eq : qs i = { ps i with members := (qs i).members })
      (vfork : (ps s).vforkParent = some i → (ps i).state ≠ .vforkWait)
  | resumes (child : (ps s).vforkParent = some i) (waits : (ps i).state = .vforkWait)
      (eq : qs i = { ps i with state := .ready, members := (qs i).members })
  /-- It was kept for its space, which goes. -/
  | goes (fixed : (ps i).Fixed (qs i)) (zombie : (ps i).state = .zombie)
      (unused : (qs i).state = .unused) (killed : (qs i).killed = (ps i).killed)

/-- Slot `s` gets a new space. -/
structure Execs (s : Nat) (ps qs : Procs) : Prop where
  self : qs s = { ps s with
    root := (qs s).root, asid := (qs s).asid, mm := (qs s).mm, members := (qs s).members
    vforkParent := none, clearTid := 0 }
  others : ∀ i, i ≠ s → Parting s ps qs i

theorem Execs.alike (h : Execs s ps qs) (i : Nat) : (ps i).Alike (qs i) := by
  by_cases e : i = s
  · subst e
    rw [h.self]
    exact ⟨rfl, rfl, rfl, rfl⟩
  · cases h.others i e with
    | stays eq =>
        rw [eq]
        exact ⟨rfl, rfl, rfl, rfl⟩
    | resumes child waits eq =>
        rw [eq]
        exact ⟨rfl, rfl, rfl, rfl⟩
    | goes fixed => exact fixed.toAlike

theorem Execs.live (h : Execs s ps qs) (hi : (qs i).Live) : (ps i).Live := by
  by_cases e : i = s
  · subst e
    rw [h.self] at hi
    exact hi
  · cases h.others i e with
    | stays eq =>
        rw [eq] at hi
        exact hi
    | resumes child waits => exact State.live_of_eq waits (by decide) (by decide)
    | goes fixed zombie unused => exact absurd unused hi.1

theorem Execs.killed (h : Execs s ps qs) (i : Nat) : (qs i).killed = (ps i).killed := by
  by_cases e : i = s
  · subst e
    rw [h.self]
  · cases h.others i e with
    | stays eq => rw [eq]
    | resumes child waits eq => rw [eq]
    | goes fixed zombie unused killed => exact killed

/-- Slot `s` leaves its space, and another goes with it or counts one user less. -/
theorem dropMm_others (ps : Procs) (h : i ≠ s) :
    (∃ n, (ps.dropMm s).2.1 i = { ps i with members := n }) ∨
    (ps i).state = .zombie ∧ ∃ n, (ps.dropMm s).2.1 i =
      { ps i with members := n, root := none, state := .unused } := by
  rw [dropMm]
  by_cases hm : (ps s).mm = s
  · simp only [hm, if_true, edit_self]
    split_ifs <;> simp only [freeMm, edit_of_ne h] <;> exact .inl ⟨_, rfl⟩
  · have hmid : ((ps.edit (ps s).mm fun p => { p with members := p.members - 1 }).edit s
        fun p => { p with root := none, mm := s }) (ps s).mm =
        { ps (ps s).mm with members := (ps (ps s).mm).members - 1 } := by
      rw [edit_of_ne hm, edit_self]
    simp only [if_neg hm]
    by_cases e : i = (ps s).mm
    · subst e
      split_ifs with hz
      · rw [hmid] at hz
        refine .inr ⟨hz.1, (ps (ps s).mm).members - 1, ?_⟩
        simp only [freeMm, setState, edit_self]
        rw [edit_of_ne hm, edit_self]
      · exact .inl ⟨_, hmid⟩
    · split_ifs <;> simp only [freeMm, setState, edit_of_ne e, edit_of_ne h] <;>
        exact .inl ⟨_, rfl⟩

/-- The slot that leaves its space otherwise stays. -/
theorem dropMm_self (s : Nat) (ps : Procs) : ∃ root mm members, (ps.dropMm s).2.1 s =
    { ps s with root := root, mm := mm, members := members } := by
  rw [dropMm]
  by_cases hm : (ps s).mm = s
  · simp only [hm, if_true, edit_self]
    split_ifs <;> simp only [freeMm, edit_self]
    · exact ⟨(ps s).root, (ps s).mm, (ps s).members - 1, rfl⟩
    · exact ⟨none, (ps s).mm, (ps s).members - 1, rfl⟩
  · have hself : ∀ f g, ((ps.edit (ps s).mm f).edit s g) s = g (ps s) := fun f g => by
      rw [edit_self, edit_of_ne (Ne.symm hm)]
    refine ⟨none, s, (ps s).members, ?_⟩
    simp only [if_neg hm]
    split_ifs <;> simp only [setState, freeMm, edit_of_ne (Ne.symm hm), hself]

/-- Slot `s` goes on in another space. -/
theorem execs {root asid : Nat} (hs : (ps s).state ≠ .vforkWait) :
    Execs s ps (((ps.wakeVforkParent s).dropMm s).2.1.edit s fun p =>
      { p with root := some root, asid := asid, mm := s, members := 1, clearTid := 0 }) := by
  obtain ⟨r, m, n, hdrop⟩ := dropMm_self s (ps.wakeVforkParent s)
  refine ⟨?_, fun i hi => ?_⟩
  · rw [edit_self, hdrop, wakeVforkParent_self hs]
  · have hother : (((ps.wakeVforkParent s).dropMm s).2.1.edit s fun p =>
        { p with root := some root, asid := asid, mm := s, members := 1, clearTid := 0 }) i =
        ((ps.wakeVforkParent s).dropMm s).2.1 i := edit_of_ne hi _
    by_cases hv : (ps s).vforkParent = some i ∧ (ps i).state = .vforkWait
    · have hwake := wakeVforkParent_of hv.1 hv.2 hi
      rcases dropMm_others (ps.wakeVforkParent s) hi with ⟨k, h⟩ | ⟨hz, -⟩
      · exact .resumes hv.1 hv.2 (by rw [hother, h, hwake])
      · rw [hwake] at hz
        exact absurd hz (by simp)
    · have hwake := wakeVforkParent_of_not hv hi
      rcases dropMm_others (ps.wakeVforkParent s) hi with ⟨k, h⟩ | ⟨hz, k, h⟩
      · exact .stays (by rw [hother, h, hwake]) fun h₁ h₂ => hv ⟨h₁, h₂⟩
      · rw [hwake] at hz h
        refine .goes ?_ hz (by rw [hother, h]) (by rw [hother, h])
        rw [hother, h]
        exact ⟨⟨rfl, rfl, rfl, rfl⟩, rfl, rfl, rfl, rfl, rfl⟩

/-- **A process gets a new image**: its other threads end, or run and are told to; then, if it does,
it goes on in another space. -/
theorem execReplace_fates (root asid : Nat) (h : Fine ps) (hs : (ps s).state = .running) :
    ∃ rs, Fates s ps rs ∧ (rs s).state = .running ∧
      (∀ i, (ps i).Live → ¬ (rs i).Live → (ps i).leader = s) ∧
      ((ps.execReplace s root asid).1 = false → (ps.execReplace s root asid).2.1 = rs) ∧
      ((ps.execReplace s root asid).1 = true →
        (∀ i < MAX_PROCS, i ≠ s → Dismissed s i rs) ∧ (ps s).leader = s ∧
        Execs s rs (ps.execReplace s root asid).2.1) := by
  have hlive : (ps s).Live := Process.live_of_running hs
  rw [execReplace]
  by_cases hl : (ps s).leader ≠ s
  · rw [if_pos hl]
    exact ⟨ps, .refl s ps, hs, fun i hi hi' => absurd hi hi', fun _ => rfl, by simp⟩
  · rw [if_neg hl]
    obtain ⟨hfates, hothers⟩ := reapThreads_fates s (List.range MAX_PROCS) (ps, [])
    have hlive' := (reapThreads_live h hlive (List.range MAX_PROCS)).2
    obtain ⟨r, hr⟩ : ∃ r, r = reapThreads s (List.range MAX_PROCS) (ps, []) := ⟨_, rfl⟩
    rw [← hr] at hfates hothers hlive'
    have hrun : (r.1 s).state = .running := by
      cases hfates.fate s with
      | stays state => exact state.trans hs
      | ends live dead => exact absurd hlive' dead
      | rests dead dead' => exact absurd hlive' dead'
      | fails t awaits =>
          rcases awaits with ⟨e, -⟩ | ⟨e, -⟩ <;> exact absurd (hs.symm.trans e) (by decide)
      | resumes t waits => exact absurd (hs.symm.trans waits) (by decide)
      | collects waits => exact absurd (hs.symm.trans waits) (by decide)
    have honly : ∀ i, (ps i).Live → ¬ (r.1 i).Live → (ps i).leader = s := fun i hi hi' =>
      reapThreads_only s (List.range MAX_PROCS) (ps, []) hi (by rwa [← hr])
    refine ⟨r.1, hfates, hrun, honly, ?_⟩
    simp only [← hr]
    by_cases hn : (r.1 s).mm = s ∧ 1 < (r.1 s).members
    · rw [if_pos hn]
      exact ⟨fun _ => rfl, by simp⟩
    · rw [if_neg hn]
      refine ⟨by simp, fun _ => ⟨fun i hi his => hothers i (List.mem_range.mpr hi) his,
        not_not.mp hl, execs (by rw [hrun]; decide)⟩⟩

/-! ### Messages -/

theorem slotOf_some {pid d : Nat} (h : ps.slotOf pid = some d) :
    (ps d).Live ∧ (ps d).pid = pid ∧ d = pid % MAX_PROCS := by
  obtain ⟨h₁, h₂⟩ := (Option.ite_none_right_eq_some ..).mp h
  obtain rfl := Option.some.inj h₂
  exact ⟨h₁.1, h₁.2, rfl⟩

/-- The message `m` of slot `s` goes to slot `r`, and `s` waits for the answer. -/
structure Delivers (s r : Nat) (m : Message) (ps qs : Procs) : Prop where
  ne : s ≠ r
  sender : qs s = { ps s with msgPtr := (qs s).msgPtr, state := .replyBlocked, peer := r }
  receiver : qs r =
    { ps r with inbox := m, peer := s, ret := (qs r).ret, state := (qs r).state }
  pid : (qs r).state = .ready → (qs r).ret = (ps s).pid
  state : (ps r).state = .recvBlocked ∧ (qs r).state = .ready ∨
    (ps r).state = .running ∧ (qs r).state = .running
  sent : (ps s).state = .running ∨
    (ps s).state = .sendBlocked ∧ (ps s).sendTo = r ∧ (ps s).inbox = m
  others : ∀ i, i ≠ s → i ≠ r → qs i = ps i

theorem ipcSend_delivers {me d dstPid : Nat} (msgPtr : Nat) (msg : Message)
    (hme : (ps me).state = .running) (hd : ps.slotOf dstPid = some d) (hne : d ≠ me)
    (hst : (ps d).state = .recvBlocked) : (ps.ipcSend me dstPid msg msgPtr).1 = true ∧
      Delivers me d msg ps (ps.ipcSend me dstPid msg msgPtr).2.1 ∧
      freed (ps.ipcSend me dstPid msg msgPtr).2.2 = [] := by
  have hr : ((ps.edit me fun p => { p with msgPtr := msgPtr }) d).state = .recvBlocked := by
    rwa [edit_of_ne hne]
  have hne' : me ≠ d := Ne.symm hne
  rw [ipcSend, hd]
  simp only [if_neg hne, if_pos hr]
  refine ⟨trivial, ?_, ?_⟩
  · refine ⟨hne', ?_, ?_, fun _ => ?_, .inl ⟨hst, ?_⟩, .inl hme, fun i h₁ h₂ => ?_⟩
    all_goals simp only [deliverRecv, setState, edit_self, edit_of_ne hne, edit_of_ne hne']
    simp only [edit_of_ne h₁, edit_of_ne h₂]
  · simp only [deliverRecv, writeMsg]
    split_ifs <;> simp [freed]

theorem ipcSend_waits {me d dstPid : Nat} (msgPtr : Nat) (msg : Message)
    (hd : ps.slotOf dstPid = some d) (hne : d ≠ me) (hst : (ps d).state ≠ .recvBlocked) :
    ps.ipcSend me dstPid msg msgPtr = (true, ps.edit me fun p =>
      { p with msgPtr := msgPtr, state := .sendBlocked, sendTo := d, inbox := msg }, []) := by
  have hr : ¬ ((ps.edit me fun p => { p with msgPtr := msgPtr }) d).state = .recvBlocked := by
    rwa [edit_of_ne hne]
  rw [ipcSend, hd]
  simp only [if_neg hne, if_neg hr, edit_edit]

theorem ipcSend_spec {me : Nat} (dstPid msgPtr : Nat) (msg : Message)
    (hme : (ps me).state = .running) :
    ((ps.ipcSend me dstPid msg msgPtr).1 = false → (ps.ipcSend me dstPid msg msgPtr).2.1 = ps) ∧
    ((ps.ipcSend me dstPid msg msgPtr).1 = true → ∃ d, ps.slotOf dstPid = some d ∧ d ≠ me ∧
      (Delivers me d msg ps (ps.ipcSend me dstPid msg msgPtr).2.1 ∨
        (ps.ipcSend me dstPid msg msgPtr).2.1 = ps.edit me fun p =>
          { p with msgPtr := msgPtr, state := .sendBlocked, sendTo := d, inbox := msg })) := by
  cases hd : ps.slotOf dstPid with
  | none =>
      rw [ipcSend, hd]
      exact ⟨fun _ => rfl, by simp⟩
  | some d =>
      by_cases e : d = me
      · have hfail : ps.ipcSend me dstPid msg msgPtr = (false, ps, []) := by
          rw [ipcSend, hd]
          exact if_pos e
        rw [hfail]
        exact ⟨fun _ => rfl, by simp⟩
      · by_cases hst : (ps d).state = .recvBlocked
        · obtain ⟨h₁, h₂, -⟩ := ipcSend_delivers msgPtr msg hme hd e hst
          exact ⟨by rw [h₁]; simp, fun _ => ⟨d, rfl, e, .inl h₂⟩⟩
        · rw [ipcSend_waits msgPtr msg hd e hst]
          exact ⟨by simp, fun _ => ⟨d, rfl, e, .inr rfl⟩⟩

theorem acceptFrom_delivers {me : Nat} (msgPtr : Nat) (hs : (ps s).state = .sendBlocked)
    (hto : (ps s).sendTo = me) (hme : (ps me).state = .running) :
    Delivers s me (ps s).inbox ps (ps.acceptFrom me s msgPtr).2.1 := by
  have hne : s ≠ me := fun e => by
    subst e
    exact absurd (hs.symm.trans hme) (by decide)
  rw [acceptFrom]
  refine ⟨hne, ?_, ?_, fun h => ?_, .inr ⟨hme, ?_⟩, .inr ⟨hs, hto, rfl⟩, fun i h₁ h₂ => ?_⟩
  · simp only [edit_self, edit_of_ne hne]
  · simp only [edit_self, edit_of_ne (Ne.symm hne)]
  · simp only [edit_self, edit_of_ne (Ne.symm hne), hme] at h
    exact absurd h (by decide)
  · simp only [edit_self, edit_of_ne (Ne.symm hne), hme]
  · simp only [edit_of_ne h₁, edit_of_ne h₂]

theorem findSender_some {me : Nat} (h : ps.findSender me = some s) :
    (ps s).state = .sendBlocked ∧ (ps s).sendTo = me := of_decide_eq_true (List.find?_some h :)

theorem ipcReply_spec (ps : Procs) (me toPid : Nat) (msg : Message) :
    (ps.ipcReply me toPid msg).1 = ps ∨
    ∃ t, ps.slotOf toPid = some t ∧ (ps t).state = .replyBlocked ∧ (ps t).peer = me ∧
      (ps.ipcReply me toPid msg).1 =
        ps.edit t fun q => { q with reply := msg, ret := 0, state := .ready } := by
  rw [ipcReply]
  cases ht : ps.slotOf toPid with
  | none => exact .inl rfl
  | some t =>
      simp only
      split_ifs with h
      · exact .inr ⟨t, rfl, h.1, h.2, rfl⟩
      · exact .inl rfl

theorem Delivers.sender_state {r : Nat} {m : Message} (h : Delivers s r m ps qs) :
    (qs s).state = .replyBlocked := by
  rw [h.sender]

/-- Each process is the same as before, and as much marked. -/
theorem Delivers.kept {r : Nat} {m : Message} (h : Delivers s r m ps qs) (i : Nat) :
    (ps i).Alike (qs i) ∧ (qs i).killed = (ps i).killed := by
  by_cases e : i = s
  · rw [e, h.sender]
    exact ⟨⟨rfl, rfl, rfl, rfl⟩, rfl⟩
  · by_cases e' : i = r
    · have hq := h.receiver
      rw [e']
      exact ⟨⟨by rw [hq], by rw [hq], by rw [hq], by rw [hq]⟩, by rw [hq]⟩
    · rw [h.others i e e']
      exact ⟨.refl _, rfl⟩

theorem Delivers.same {r : Nat} {m : Message} (h : Delivers s r m ps qs) : qs.Same ps := fun i => by
  by_cases e : i = s
  · subst e
    have hst : (ps i).Live := by
      rcases h.sent with e | ⟨e, -⟩ <;> exact State.live_of_eq e (by decide) (by decide)
    rw [h.sender]
    exact ⟨by simp [hst.1], by simp [hst.2], rfl, rfl, rfl, rfl, rfl⟩
  · by_cases e' : i = r
    · subst e'
      have hst : (ps i).Live ∧ (qs i).Live := by
        rcases h.state with ⟨e, e'⟩ | ⟨e, e'⟩ <;>
          exact ⟨State.live_of_eq e (by decide) (by decide),
            State.live_of_eq e' (by decide) (by decide)⟩
      have hq := h.receiver
      refine ⟨iff_of_false hst.2.1 hst.1.1, iff_of_false hst.2.2 hst.1.2, ?_, ?_, ?_, ?_, ?_⟩
      all_goals rw [hq]
    · rw [h.others i e e']
      exact .refl _

end Procs

namespace Machine

variable {σ : Machine} {c s i : Nat} {ws : Wakes}

theorem choose_some {ps : Procs} (h : σ.choose ps = some i) : (ps i).state = .ready :=
  of_decide_eq_true (List.find?_some h :)

/-- What `dispatch` does to the table. -/
theorem dispatch_procs (c : Nat) (ws : Wakes) (σ : Machine) : (σ.dispatch c ws).procs =
    (σ.choose (σ.procs.wakeAll ws)).elim (σ.procs.wakeAll ws)
      fun i => (σ.procs.wakeAll ws).setState i .running := by
  rw [dispatch]
  cases σ.choose (σ.procs.wakeAll ws) <;> rfl

theorem dispatch_calm (c : Nat) (ws : Wakes) (σ : Machine) :
    Procs.Calm σ.procs (σ.dispatch c ws).procs := by
  rw [dispatch_procs]
  refine (Procs.wakeAll_calm ws).trans ?_
  cases h : σ.choose (σ.procs.wakeAll ws) with
  | none => exact .refl _
  | some i => exact Procs.setState_calm (.inl (choose_some h)) (.inr rfl)

/-- What is ready before the scheduler chooses stays so, or is chosen. -/
theorem dispatch_settles {ps : Procs} (c : Nat) (ws : Wakes)
    (h : ∀ i, (ps i).state = .ready → σ.procs i = ps i) :
    Procs.Settles ps (σ.dispatch c ws).procs := fun i hi => by
  have hwake : σ.procs.wakeAll ws i = ps i :=
    (Procs.wakeAll_ready ws (by rw [h i hi, hi])).trans (h i hi)
  rw [dispatch_procs]
  cases hj : σ.choose (σ.procs.wakeAll ws) with
  | none =>
      rw [Option.elim_none, hwake]
      exact ⟨.inl hi, rfl, rfl⟩
  | some j =>
      rw [Option.elim_some]
      by_cases e : i = j
      · subst e
        rw [Procs.setState, Procs.edit_self, hwake]
        exact ⟨.inr rfl, rfl, rfl⟩
      · rw [Procs.setState, Procs.edit_of_ne e, hwake]
        exact ⟨.inl hi, rfl, rfl⟩

theorem block_calm (c s : Nat) (ws : Wakes) (σ : Machine) :
    Procs.Calm σ.procs (σ.block c s ws).procs := dispatch_calm c ws (σ.save c s)

theorem schedule_calm (c : Nat) (ws : Wakes) (σ : Machine) :
    Procs.Calm σ.procs (σ.schedule c ws).procs := by
  rw [schedule]
  cases hc : σ.current c with
  | none => exact dispatch_calm c ws σ
  | some s =>
      refine Procs.Calm.trans ?_ (dispatch_calm c ws _)
      by_cases h : (σ.procs s).state = .running
      · simp only [onProcs, save, h, if_true]
        exact Procs.setState_calm (.inr (.inl h)) (.inl rfl)
      · simp only [onProcs, save, h, if_false]
        exact .refl _

theorem onIpi_calm (c : Nat) (ws : Wakes) (σ : Machine) :
    Procs.Calm σ.procs (σ.onIpi c ws).procs := by
  rw [onIpi]
  split_ifs
  · exact dispatch_calm _ _ _
  · exact .refl _

theorem enterScheduler_calm (c : Nat) (ws : Wakes) (σ : Machine) :
    Procs.Calm σ.procs (σ.enterScheduler c ws).procs :=
  dispatch_calm c ws { σ with online := Function.update σ.online c true,
                              current := Function.update σ.current c none }

end Machine

end Pulsar.Proc

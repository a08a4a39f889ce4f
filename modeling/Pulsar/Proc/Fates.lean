import Pulsar.Proc.Machine
import Pulsar.Proc.Owners

/-!
# What becomes of each slot (`process.rs`)

When processes end, the others go on: a partner of a message with -1, the parent of a `vfork`, a
process that waits for its child.  `Fates s ps qs` says of each slot which of these happened from
`ps` to `qs`, where slot `s` is the only one that ended while it ran.

* `reap_fates`: a process ends, and its threads end or, where they run, are told to.
* `reapThreads_fates`: the other threads of a process do.
-/

namespace Pulsar.Proc

/-- The same process in the same slot. -/
structure Process.Alike (p q : Process) : Prop where
  pid : q.pid = p.pid
  generation : q.generation = p.generation
  leader : q.leader = p.leader
  parent : q.parent = p.parent

theorem Process.Alike.refl (p : Process) : p.Alike p := ⟨rfl, rfl, rfl, rfl⟩

theorem Process.Alike.trans {p q r : Process} (h : p.Alike q) (h' : q.Alike r) : p.Alike r :=
  ⟨h'.pid.trans h.pid, h'.generation.trans h.generation, h'.leader.trans h.leader,
    h'.parent.trans h.parent⟩

/-- The same process, with what it said when it began to wait. -/
structure Process.Fixed (p q : Process) : Prop extends p.Alike q where
  peer : q.peer = p.peer
  sendTo : q.sendTo = p.sendTo
  inbox : q.inbox = p.inbox
  waitPid : q.waitPid = p.waitPid
  waitPtr : q.waitPtr = p.waitPtr

theorem Process.Fixed.refl (p : Process) : p.Fixed p := ⟨.refl p, rfl, rfl, rfl, rfl, rfl⟩

theorem Process.Fixed.trans {p q r : Process} (h : p.Fixed q) (h' : q.Fixed r) : p.Fixed r :=
  ⟨h.toAlike.trans h'.toAlike, h'.peer.trans h.peer, h'.sendTo.trans h.sendTo,
    h'.inbox.trans h.inbox, h'.waitPid.trans h.waitPid, h'.waitPtr.trans h.waitPtr⟩

/-- The process waits for slot `t` to take its message, or to answer it. -/
def Process.AwaitsSlot (p : Process) (t : Nat) : Prop :=
  p.state = .replyBlocked ∧ p.peer = t ∨ p.state = .sendBlocked ∧ p.sendTo = t

instance (p : Process) (t : Nat) : Decidable (p.AwaitsSlot t) := by
  unfold Process.AwaitsSlot
  infer_instance

theorem Process.AwaitsSlot.live {p : Process} {t : Nat} (h : p.AwaitsSlot t) : p.Live := by
  rcases h with ⟨h, -⟩ | ⟨h, -⟩ <;> rw [Process.Live, h] <;> exact ⟨by decide, by decide⟩

theorem State.live_of_eq {p : Process} {st : State} (h : p.state = st) (h₁ : st ≠ .unused)
    (h₂ : st ≠ .zombie) : p.Live := by
  subst h
  exact ⟨h₁, h₂⟩

theorem Process.live_of_ready {p : Process} (h : p.state = .ready) : p.Live :=
  State.live_of_eq h (by decide) (by decide)

theorem Process.live_of_running {p : Process} (h : p.state = .running) : p.Live :=
  State.live_of_eq h (by decide) (by decide)

namespace Procs

variable {ps qs rs : Procs} {i j s t : Nat}

/-- What becomes of slot `i`. -/
inductive Fate (s : Nat) (ps qs : Procs) (i : Nat) : Prop where
  /-- It goes on as it was, or it runs and is told to end. -/
  | stays (state : (qs i).state = (ps i).state) (ret : (qs i).ret = (ps i).ret)
      (reply : (qs i).reply = (ps i).reply) (vfork : (qs i).vforkParent = (ps i).vforkParent)
      (killed : (qs i).killed = (ps i).killed ∨
        (ps i).state = .running ∧ (qs i).killed = true)
  | ends (live : (ps i).Live) (dead : ¬ (qs i).Live) (killed : (qs i).killed = false)
      (running : (ps i).state = .running → i = s)
  /-- It was over. -/
  | rests (dead : ¬ (ps i).Live) (dead' : ¬ (qs i).Live) (killed : (qs i).killed = (ps i).killed)
  /-- The partner of its message ended. -/
  | fails (t : Nat) (awaits : (ps i).AwaitsSlot t) (live : (ps t).Live) (dead : ¬ (qs t).Live)
      (state : (qs i).state = .ready) (ret : (qs i).ret = 2 ^ 64 - 1)
      (reply : (qs i).reply = .zero) (vfork : (qs i).vforkParent = (ps i).vforkParent)
      (killed : (qs i).killed = (ps i).killed)
  /-- Its child ended, which it had waited for since `vfork`. -/
  | resumes (t : Nat) (waits : (ps i).state = .vforkWait) (live : (ps t).Live)
      (dead : ¬ (qs t).Live) (child : (ps t).vforkParent = some i) (state : (qs i).state = .ready)
      (vfork : (qs i).vforkParent = (ps i).vforkParent) (killed : (qs i).killed = (ps i).killed)
  /-- A child ended that it waited for in `wait`. -/
  | collects (waits : (ps i).state = .waitChild) (state : (qs i).state = .ready)
      (vfork : (qs i).vforkParent = (ps i).vforkParent) (killed : (qs i).killed = (ps i).killed)

/-- What becomes of the slots when processes end. -/
structure Fates (s : Nat) (ps qs : Procs) : Prop where
  fixed : ∀ i, (ps i).Fixed (qs i)
  fate : ∀ i, Fate s ps qs i
  partner : ∀ t, (ps t).Live → ¬ (qs t).Live → ∀ i < MAX_PROCS, ¬ (qs i).AwaitsSlot t
  lent : ∀ t, (ps t).Live → ¬ (qs t).Live → ∀ i, (ps t).vforkParent = some i →
    (qs i).state ≠ .vforkWait

namespace Fates

theorem live (h : Fates s ps qs) (hi : (qs i).Live) : (ps i).Live := by
  cases h.fate i with
  | stays state => rwa [Process.Live, ← state]
  | ends live dead => exact absurd hi dead
  | rests dead dead' => exact absurd hi dead'
  | fails t awaits => exact awaits.live
  | resumes t waits => exact State.live_of_eq waits (by decide) (by decide)
  | collects waits => exact State.live_of_eq waits (by decide) (by decide)

/-- A slot that still is in a state which no end leads to was in it before. -/
theorem state_back (h : Fates s ps qs) (hi : (qs i).Live) (hr : (qs i).state ≠ .ready) :
    (qs i).state = (ps i).state := by
  cases h.fate i with
  | stays state => exact state
  | ends live dead => exact absurd hi dead
  | rests dead dead' => exact absurd hi dead'
  | fails t awaits live dead state => exact absurd state hr
  | resumes t waits live dead child state => exact absurd state hr
  | collects waits state => exact absurd state hr

theorem running (h : Fates s ps qs) (hi : (ps i).state = .running) (hs : i ≠ s) :
    (qs i).state = .running := by
  cases h.fate i with
  | stays state => exact state.trans hi
  | ends live dead killed running => exact absurd (running hi) hs
  | rests dead => exact absurd (State.live_of_eq hi (by decide) (by decide)) dead
  | fails t awaits =>
      rcases awaits with ⟨h, -⟩ | ⟨h, -⟩ <;> exact absurd (hi.symm.trans h) (by decide)
  | resumes t waits => exact absurd (hi.symm.trans waits) (by decide)
  | collects waits => exact absurd (hi.symm.trans waits) (by decide)

theorem running_back (h : Fates s ps qs) (hi : (qs i).state = .running) :
    (ps i).state = .running :=
  (h.state_back (State.live_of_eq hi (by decide) (by decide)) (by rw [hi]; decide)).symm.trans hi

theorem killed (h : Fates s ps qs) (hk : (qs i).killed = true) :
    (ps i).killed = true ∨ (ps i).state = .running := by
  cases h.fate i with
  | stays state ret reply vfork killed => exact killed.imp (·.symm.trans hk) And.left
  | ends live dead killed => rw [killed] at hk; exact absurd hk (by decide)
  | rests dead dead' killed => exact .inl (killed.symm.trans hk)
  | fails t awaits live dead state ret reply vfork killed => exact .inl (killed.symm.trans hk)
  | resumes t waits live dead child state vfork killed => exact .inl (killed.symm.trans hk)
  | collects waits state vfork killed => exact .inl (killed.symm.trans hk)

/-- A slot that runs and is told to end is still told to. -/
theorem marks (h : Fates s ps qs) (hi : (qs i).state = .running) (hk : (ps i).killed = true) :
    (qs i).killed = true := by
  have hi' := h.running_back hi
  cases h.fate i with
  | stays state ret reply vfork killed => exact killed.elim (·.trans hk) And.right
  | ends live dead => exact absurd (Process.live_of_running hi) dead
  | rests dead dead' => exact absurd (Process.live_of_running hi) dead'
  | fails t awaits live dead state => exact absurd (hi.symm.trans state) (by decide)
  | resumes t waits live dead child state => exact absurd (hi.symm.trans state) (by decide)
  | collects waits state => exact absurd (hi.symm.trans state) (by decide)

theorem ended_killed (h : Fates s ps qs) (hi : (ps i).Live) (hi' : ¬ (qs i).Live) :
    (qs i).killed = false := by
  cases h.fate i with
  | stays state => exact absurd (by rwa [Process.Live, state]) hi'
  | ends live dead killed => exact killed
  | rests dead => exact absurd hi dead
  | fails t awaits live dead state => exact absurd (Process.live_of_ready state) hi'
  | resumes t waits live dead child state => exact absurd (Process.live_of_ready state) hi'
  | collects waits state => exact absurd (Process.live_of_ready state) hi'

theorem awaits_back (h : Fates s ps qs) (hi : (qs i).AwaitsSlot t) : (ps i).AwaitsSlot t := by
  have hst : (qs i).state = (ps i).state := h.state_back hi.live (by
    rcases hi with ⟨e, -⟩ | ⟨e, -⟩ <;> rw [e] <;> decide)
  rwa [Process.AwaitsSlot, hst, (h.fixed i).peer, (h.fixed i).sendTo] at hi

theorem vforkParent (h : Fates s ps qs) (hi : (qs i).Live) :
    (qs i).vforkParent = (ps i).vforkParent := by
  cases h.fate i with
  | stays state ret reply vfork => exact vfork
  | ends live dead => exact absurd hi dead
  | rests dead dead' => exact absurd hi dead'
  | fails t awaits live dead state ret reply vfork => exact vfork
  | resumes t waits live dead child state vfork => exact vfork
  | collects waits state vfork => exact vfork

theorem dead (h : Fates s ps qs) (hi : ¬ (ps i).Live) :
    ¬ (qs i).Live ∧ (qs i).killed = (ps i).killed := by
  refine ⟨mt h.live hi, ?_⟩
  cases h.fate i with
  | stays state ret reply vfork killed =>
      exact killed.resolve_right fun e => hi (State.live_of_eq e.1 (by decide) (by decide))
  | ends live => exact absurd live hi
  | rests dead dead' killed => exact killed
  | fails t awaits => exact absurd awaits.live hi
  | resumes t waits => exact absurd (State.live_of_eq waits (by decide) (by decide)) hi
  | collects waits => exact absurd (State.live_of_eq waits (by decide) (by decide)) hi

theorem ready (h : Fates s ps qs) (hi : (ps i).state = .ready) :
    ((qs i).state = .ready ∧ (qs i).ret = (ps i).ret ∧ (qs i).reply = (ps i).reply ∧
      (qs i).vforkParent = (ps i).vforkParent ∧ (qs i).killed = (ps i).killed) ∨
    (¬ (qs i).Live ∧ (qs i).killed = false) := by
  cases h.fate i with
  | stays state ret reply vfork killed =>
      refine .inl ⟨state.trans hi, ret, reply, vfork, killed.resolve_right fun e => ?_⟩
      exact absurd (hi.symm.trans e.1) (by decide)
  | ends live dead killed => exact .inr ⟨dead, killed⟩
  | rests dead => exact absurd (State.live_of_eq hi (by decide) (by decide)) dead
  | fails t awaits =>
      rcases awaits with ⟨e, -⟩ | ⟨e, -⟩ <;> exact absurd (hi.symm.trans e) (by decide)
  | resumes t waits => exact absurd (hi.symm.trans waits) (by decide)
  | collects waits => exact absurd (hi.symm.trans waits) (by decide)

end Fates

theorem Fates.refl (s : Nat) (ps : Procs) : Fates s ps ps where
  fixed _ := .refl _
  fate _ := .stays rfl rfl rfl rfl (.inl rfl)
  partner _ h h' := absurd h h'
  lent _ h h' := absurd h h'

/-- What becomes of a slot in two parts, of which the first left it as it was. -/
theorem Fate.of_stays (h : Fates s ps qs) (h' : Fates s qs rs)
    (state : (qs i).state = (ps i).state) (ret : (qs i).ret = (ps i).ret)
    (reply : (qs i).reply = (ps i).reply) (vfork : (qs i).vforkParent = (ps i).vforkParent)
    (killed : (qs i).killed = (ps i).killed ∨ (ps i).state = .running ∧ (qs i).killed = true) :
    Fate s ps rs i := by
  have hlive : (qs i).Live ↔ (ps i).Live := by rw [Process.Live, Process.Live, state]
  have hkept : (ps i).state ≠ .running → (qs i).killed = (ps i).killed := fun h =>
    killed.resolve_right fun e => h e.1
  cases h'.fate i with
  | stays state' ret' reply' vfork' killed' =>
      refine .stays (state'.trans state) (ret'.trans ret) (reply'.trans reply)
        (vfork'.trans vfork) ?_
      rcases killed with e | e
      · exact killed'.imp (·.trans e) fun h => ⟨state.symm.trans h.1, h.2⟩
      · exact .inr ⟨e.1, killed'.elim (·.trans e.2) And.right⟩
  | ends live dead killed' running =>
      exact .ends (h.live live) dead killed' fun hr => running (state.trans hr)
  | rests dead dead' killed' =>
      refine .rests (mt hlive.mpr dead) dead' (killed'.trans (hkept fun e => ?_))
      exact dead (hlive.mpr (State.live_of_eq e (by decide) (by decide)))
  | fails t awaits live dead state' ret' reply' vfork' killed' =>
      refine .fails t (h.awaits_back awaits) (h.live live) dead state' ret' reply'
        (vfork'.trans vfork) (killed'.trans (hkept fun e => ?_))
      rcases h.awaits_back awaits with ⟨e', -⟩ | ⟨e', -⟩ <;>
        exact absurd (e.symm.trans e') (by decide)
  | resumes t waits live dead child state' vfork' killed' =>
      refine .resumes t (state.symm.trans waits) (h.live live) dead
        ((h.vforkParent live).symm.trans child) state' (vfork'.trans vfork)
        (killed'.trans (hkept fun e => ?_))
      exact absurd ((state.trans e).symm.trans waits) (by decide)
  | collects waits state' vfork' killed' =>
      refine .collects (state.symm.trans waits) state' (vfork'.trans vfork)
        (killed'.trans (hkept fun e => ?_))
      exact absurd ((state.trans e).symm.trans waits) (by decide)

theorem Fate.trans (h : Fates s ps qs) (h' : Fates s qs rs) (i : Nat) :
    Fate s ps rs i := by
  cases h.fate i with
  | stays state ret reply vfork killed => exact .of_stays h h' state ret reply vfork killed
  | ends live dead killed running =>
      obtain ⟨dead', killed'⟩ := h'.dead dead
      exact .ends live dead' (killed'.trans killed) running
  | rests dead dead' killed =>
      obtain ⟨dead'', killed'⟩ := h'.dead dead'
      exact .rests dead dead'' (killed'.trans killed)
  | fails t awaits live dead state ret reply vfork killed =>
      rcases h'.ready state with ⟨state', ret', reply', vfork', killed'⟩ | ⟨dead', killed'⟩
      · exact .fails t awaits live (h'.dead dead).1 state' (ret'.trans ret) (reply'.trans reply)
          (vfork'.trans vfork) (killed'.trans killed)
      · refine .ends awaits.live dead' killed' fun e => ?_
        rcases awaits with ⟨e', -⟩ | ⟨e', -⟩ <;> exact absurd (e.symm.trans e') (by decide)
  | resumes t waits live dead child state vfork killed =>
      rcases h'.ready state with ⟨state', -, -, vfork', killed'⟩ | ⟨dead', killed'⟩
      · exact .resumes t waits live (h'.dead dead).1 child state' (vfork'.trans vfork)
          (killed'.trans killed)
      · exact .ends (State.live_of_eq waits (by decide) (by decide)) dead' killed' fun e =>
          absurd (e.symm.trans waits) (by decide)
  | collects waits state vfork killed =>
      rcases h'.ready state with ⟨state', -, -, vfork', killed'⟩ | ⟨dead', killed'⟩
      · exact .collects waits state' (vfork'.trans vfork) (killed'.trans killed)
      · exact .ends (State.live_of_eq waits (by decide) (by decide)) dead' killed' fun e =>
          absurd (e.symm.trans waits) (by decide)

theorem Fates.trans (h : Fates s ps qs) (h' : Fates s qs rs) : Fates s ps rs where
  fixed i := (h.fixed i).trans (h'.fixed i)
  fate i := .trans h h' i
  partner t ht ht' i hi hw := by
    by_cases e : (qs t).Live
    · exact h'.partner t e ht' i hi hw
    · exact h.partner t ht e i hi (h'.awaits_back hw)
  lent t ht ht' i hi hw := by
    have hst : (qs i).state = .vforkWait :=
      (h'.state_back (State.live_of_eq hw (by decide) (by decide)) (by rw [hw]; decide)).symm.trans
        hw
    by_cases e : (qs t).Live
    · exact h'.lent t e ht' i ((h.vforkParent e).trans hi) hw
    · exact h.lent t ht e i hi hst

/-! ### One slot leaves -/

theorem fates_edit {f : Process → Process} (hfixed : (ps i).Fixed (f (ps i)))
    (hlive : (ps i).Live → (f (ps i)).Live) (hfate : Fate s ps (ps.edit i f) i) :
    Fates s ps (ps.edit i f) := by
  have hlives : ∀ j, (ps j).Live → ((ps.edit i f) j).Live := fun j hj => by
    by_cases e : j = i
    · subst e
      rw [edit_self]
      exact hlive hj
    · rwa [edit_of_ne e]
  refine ⟨fun j => ?_, fun j => ?_, fun j hj hj' => absurd (hlives j hj) hj',
    fun j hj hj' => absurd (hlives j hj) hj'⟩
  · by_cases e : j = i
    · subst e
      rwa [edit_self]
    · rw [edit_of_ne e]
      exact .refl _
  · by_cases e : j = i
    · subst e
      exact hfate
    · have hj : (ps.edit i f) j = ps j := edit_of_ne e f
      exact .stays (by rw [hj]) (by rw [hj]) (by rw [hj]) (by rw [hj]) (.inl (by rw [hj]))

theorem fates_edit_over {f : Process → Process} (hi : ¬ (ps i).Live)
    (hf : ∀ p, p.Fixed (f p) ∧ ¬ (f p).Live ∧ (f p).killed = p.killed) :
    Fates s ps (ps.edit i f) :=
  fates_edit (hf _).1 (fun h => absurd h hi)
    (.rests hi (by rw [edit_self]; exact (hf _).2.1) (by rw [edit_self, (hf _).2.2]))

theorem fates_edit_stays {f : Process → Process}
    (hf : ∀ p, p.Fixed (f p) ∧ (f p).state = p.state ∧ (f p).ret = p.ret ∧ (f p).reply = p.reply ∧
      (f p).vforkParent = p.vforkParent)
    (hkilled : (f (ps i)).killed = (ps i).killed ∨
      (ps i).state = .running ∧ (f (ps i)).killed = true) : Fates s ps (ps.edit i f) := by
  obtain ⟨hfixed, hstate, hret, hreply, hvfork⟩ := hf (ps i)
  exact fates_edit hfixed (fun h => by rwa [Process.Live, hstate])
    (.stays (by rwa [edit_self]) (by rwa [edit_self]) (by rwa [edit_self]) (by rwa [edit_self])
      (by rwa [edit_self]))

theorem freePartners_of_not (h : ¬ (i < MAX_PROCS ∧ (ps i).AwaitsSlot s)) :
    ps.freePartners s i = ps i := if_neg h

theorem freePartners_of (hi : i < MAX_PROCS) (h : (ps i).AwaitsSlot s) :
    ps.freePartners s i = { ps i with reply := .zero, ret := 2 ^ 64 - 1, state := .ready } :=
  if_pos ⟨hi, h⟩

theorem wakeVforkParent_of (h : (ps s).vforkParent = some i) (hi : (ps i).state = .vforkWait)
    (hs : i ≠ s) : ps.wakeVforkParent s i = { ps i with state := .ready } := by
  rw [wakeVforkParent]
  simp only [h, edit_of_ne hs, hi, if_true, setState, edit_self]

theorem wakeVforkParent_of_not (h : ¬ ((ps s).vforkParent = some i ∧ (ps i).state = .vforkWait))
    (hs : i ≠ s) : ps.wakeVforkParent s i = ps i := by
  rw [wakeVforkParent]
  cases hv : (ps s).vforkParent with
  | none => exact edit_of_ne hs ..
  | some q =>
      simp only
      split_ifs with hq
      · have hiq : i ≠ q := fun e => by
          subst e
          rw [edit_of_ne hs] at hq
          exact h ⟨hv, hq⟩
        rw [setState, edit_of_ne hiq, edit_of_ne hs]
      · exact edit_of_ne hs ..

theorem wakeVforkParent_self (h : (ps s).state ≠ .vforkWait) :
    ps.wakeVforkParent s s = { ps s with vforkParent := none } := by
  rw [wakeVforkParent]
  cases hv : (ps s).vforkParent with
  | none => exact edit_self ..
  | some q =>
      simp only
      split_ifs with hq
      · have hsq : s ≠ q := fun e => by
          subst e
          rw [edit_self] at hq
          exact h hq
        rw [setState, edit_of_ne hsq, edit_self]
      · exact edit_self ..

/-- The slot that leaves, in the table in which its partners go on. -/
theorem freePartners_left (s : Nat) :
    ((ps.edit s fun p => { p with killed := false, state := .unused }).freePartners s) s =
      { ps s with killed := false, state := .unused } := by
  rw [freePartners_of_not, edit_self]
  rw [edit_self]
  rintro ⟨-, ⟨h, -⟩ | ⟨h, -⟩⟩ <;> exact absurd h (by simp)

theorem leave_self (s : Nat) :
    ps.leave s s = { ps s with killed := false, state := .unused, vforkParent := none } := by
  rw [leave, wakeVforkParent_self] <;> rw [freePartners_left]
  simp

theorem leave_partner (hs : i ≠ s) (hi : i < MAX_PROCS) (h : (ps i).AwaitsSlot s) :
    ps.leave s i = { ps i with reply := .zero, ret := 2 ^ 64 - 1, state := .ready } := by
  have hfree : ((ps.edit s fun p => { p with killed := false, state := .unused }).freePartners s) i =
      { ps i with reply := .zero, ret := 2 ^ 64 - 1, state := .ready } := by
    rw [freePartners_of hi (by rwa [edit_of_ne hs]), edit_of_ne hs]
  rw [leave, wakeVforkParent_of_not _ hs, hfree]
  rw [hfree]
  simp

/-- A slot that is no partner of the one that leaves, nor its parent. -/
theorem leave_other (hs : i ≠ s) (h : ¬ (i < MAX_PROCS ∧ (ps i).AwaitsSlot s))
    (hv : ¬ ((ps s).vforkParent = some i ∧ (ps i).state = .vforkWait)) : ps.leave s i = ps i := by
  have hfree : ((ps.edit s fun p => { p with killed := false, state := .unused }).freePartners s) i =
      ps i := by
    rw [freePartners_of_not (by rwa [edit_of_ne hs]), edit_of_ne hs]
  rw [leave, wakeVforkParent_of_not _ hs, hfree]
  rw [hfree, freePartners_left]
  exact hv

/-- The parent of the slot that leaves, which waits for it. -/
theorem leave_parent (hs : i ≠ s) (h : (ps s).vforkParent = some i)
    (hi : (ps i).state = .vforkWait) : ps.leave s i = { ps i with state := .ready } := by
  have hno : ¬ (i < MAX_PROCS ∧ (ps i).AwaitsSlot s) := by
    rintro ⟨-, ⟨e, -⟩ | ⟨e, -⟩⟩ <;> exact absurd (hi.symm.trans e) (by decide)
  have hfree : ((ps.edit s fun p => { p with killed := false, state := .unused }).freePartners s) i =
      ps i := by
    rw [freePartners_of_not (by rwa [edit_of_ne hs]), edit_of_ne hs]
  rw [leave, wakeVforkParent_of _ _ hs, hfree]
  · rw [freePartners_left]
    exact h
  · rw [hfree]
    exact hi

/-- Another slot, when slot `s` leaves: it is no partner of `s` and no parent that waits for it. -/
theorem leave_others (hs : (ps s).Live) (hi : i ≠ s) :
    (ps i).Fixed (ps.leave s i) ∧ Fate s ps (ps.leave s) i ∧
      ((ps i).Live → (ps.leave s i).Live) ∧
      (i < MAX_PROCS → ¬ (ps.leave s i).AwaitsSlot s) ∧
      ((ps s).vforkParent = some i → (ps.leave s i).state ≠ .vforkWait) := by
  have hover : ¬ (ps.leave s s).Live := by
    rw [leave_self]
    simp [Process.Live]
  have hready : ∀ {p : Process}, p.state = .ready → p.Live ∧ ¬ p.AwaitsSlot s ∧
      p.state ≠ .vforkWait := fun h =>
    ⟨State.live_of_eq h (by decide) (by decide), by simp [Process.AwaitsSlot, h], by simp [h]⟩
  by_cases hp : i < MAX_PROCS ∧ (ps i).AwaitsSlot s
  · have h := leave_partner hi hp.1 hp.2
    obtain ⟨h₁, h₂, h₃⟩ := hready (p := ps.leave s i) (by rw [h])
    refine ⟨by rw [h]; exact ⟨⟨rfl, rfl, rfl, rfl⟩, rfl, rfl, rfl, rfl, rfl⟩, ?_, fun _ => h₁,
      fun _ => h₂, fun _ => h₃⟩
    exact .fails s hp.2 hs hover (by rw [h]) (by rw [h]) (by rw [h]) (by rw [h]) (by rw [h])
  · by_cases hv : (ps s).vforkParent = some i ∧ (ps i).state = .vforkWait
    · have h := leave_parent hi hv.1 hv.2
      obtain ⟨h₁, h₂, h₃⟩ := hready (p := ps.leave s i) (by rw [h])
      refine ⟨by rw [h]; exact ⟨⟨rfl, rfl, rfl, rfl⟩, rfl, rfl, rfl, rfl, rfl⟩, ?_, fun _ => h₁,
        fun _ => h₂, fun _ => h₃⟩
      exact .resumes s hv.2 hs hover hv.1 (by rw [h]) (by rw [h]) (by rw [h])
    · have h := leave_other hi hp hv
      refine ⟨by rw [h]; exact .refl _, ?_, by rw [h]; exact id, fun hlt => ?_, fun hvi => ?_⟩
      · exact .stays (by rw [h]) (by rw [h]) (by rw [h]) (by rw [h]) (.inl (by rw [h]))
      · rw [h]
        exact fun hc => hp ⟨hlt, hc⟩
      · rw [h]
        exact fun hc => hv ⟨hvi, hc⟩

/-- A live slot leaves, and its partners and its parent go on. -/
theorem leave_fates (hs : (ps s).Live) : Fates s ps (ps.leave s) := by
  have hself : ps.leave s s = _ := leave_self s
  have hover : ¬ (ps.leave s s).Live := by
    rw [hself]
    simp [Process.Live]
  have hends : ∀ t, (ps t).Live → ¬ (ps.leave s t).Live → t = s := fun t ht ht' => by
    by_contra e
    exact ht' ((leave_others hs e).2.2.1 ht)
  refine ⟨fun i => ?_, fun i => ?_, fun t ht ht' i hi => ?_, fun t ht ht' i hv => ?_⟩
  · by_cases e : i = s
    · subst e
      rw [hself]
      exact ⟨⟨rfl, rfl, rfl, rfl⟩, rfl, rfl, rfl, rfl, rfl⟩
    · exact (leave_others hs e).1
  · by_cases e : i = s
    · subst e
      exact .ends hs hover (by rw [hself]) fun _ => rfl
    · exact (leave_others hs e).2.1
  · obtain rfl := hends t ht ht'
    by_cases e : i = t
    · subst e
      exact fun hc => hover hc.live
    · exact (leave_others hs e).2.2.2.1 hi
  · obtain rfl := hends t ht ht'
    by_cases e : i = t
    · subst e
      rw [hself]
      simp
    · exact (leave_others hs e).2.2.2.2 hv

/-- The space of a slot that is over goes, or stays for others. -/
theorem release_fates (hi : ¬ (ps i).Live) : Fates s ps (ps.release i).1 := by
  by_cases hm : (ps i).mm = i
  · rcases Nat.lt_or_ge 1 (ps i).members with hn | hn
    · rw [release_stay hm hn]
      dsimp only
      refine fates_edit_over hi fun p => ?_
      exact ⟨⟨⟨rfl, rfl, rfl, rfl⟩, rfl, rfl, rfl, rfl, rfl⟩, fun h => h.2 rfl, rfl⟩
    · rw [release_last hm hn]
      dsimp only
      refine fates_edit_over hi fun p => ?_
      exact ⟨⟨⟨rfl, rfl, rfl, rfl⟩, rfl, rfl, rfl, rfl, rfl⟩, fun h => h.1 rfl, rfl⟩
  · have hi' : ∀ f, ¬ ((ps.edit (ps i).mm f) i).Live := fun f => by rwa [edit_of_ne (Ne.symm hm)]
    by_cases hn : (ps (ps i).mm).state = .zombie ∧ (ps (ps i).mm).members ≤ 1
    · rw [release_clear hm hn.1 hn.2]
      dsimp only
      refine (fates_edit_over (fun h => h.2 hn.1) fun p => ?_).trans
        (fates_edit_over (hi' _) fun p => ?_)
      · exact ⟨⟨⟨rfl, rfl, rfl, rfl⟩, rfl, rfl, rfl, rfl, rfl⟩, fun h => h.1 rfl, rfl⟩
      · exact ⟨⟨⟨rfl, rfl, rfl, rfl⟩, rfl, rfl, rfl, rfl, rfl⟩, fun h => h.1 rfl, rfl⟩
    · rw [release_part hm hn]
      dsimp only
      refine (fates_edit_stays (fun p => ?_) (.inl ?_)).trans (fates_edit_over (hi' _) fun p => ?_)
      · exact ⟨⟨⟨rfl, rfl, rfl, rfl⟩, rfl, rfl, rfl, rfl, rfl⟩, rfl, rfl, rfl, rfl⟩
      · rfl
      · exact ⟨⟨⟨rfl, rfl, rfl, rfl⟩, rfl, rfl, rfl, rfl, rfl⟩, fun h => h.1 rfl, rfl⟩

theorem recordLoop_fates (pid : Nat) (parent : Option Nat) (status : Nat) (is : List Nat) :
    Fates s ps (recordLoop pid parent status is ps).1 := by
  induction is generalizing ps with
  | nil => exact .refl s ps
  | cons i is ih =>
      rw [recordLoop]
      by_cases hw : ps.waitsFor pid parent (ps i)
      · rw [if_pos hw]
        by_cases hr : (ps i).waitPtr = WAIT_REDO
        · rw [if_pos hr]
          refine (fates_edit (f := fun p => { p with state := .ready })
            ⟨⟨rfl, rfl, rfl, rfl⟩, rfl, rfl, rfl, rfl, rfl⟩
            (fun _ => Process.live_of_ready rfl) ?_).trans ih
          exact .collects hw.1 (by rw [edit_self]) (by rw [edit_self]) (by rw [edit_self])
        · rw [if_neg hr]
          refine fates_edit (f := fun p => { p with ret := pid, state := .ready })
            ⟨⟨rfl, rfl, rfl, rfl⟩, rfl, rfl, rfl, rfl, rfl⟩
            (fun _ => Process.live_of_ready rfl) ?_
          exact .collects hw.1 (by rw [edit_self]) (by rw [edit_self]) (by rw [edit_self])
      · rw [if_neg hw]
        exact ih

theorem markKilled_fates (hi : (ps i).state = .running) : Fates s ps (ps.markKilled i) := by
  refine fates_edit_stays (fun p => ?_) (.inr ⟨hi, rfl⟩)
  exact ⟨⟨⟨rfl, rfl, rfl, rfl⟩, rfl, rfl, rfl, rfl, rfl⟩, rfl, rfl, rfl, rfl⟩

/-! ### A process ends -/

/-- Slot `i` is the only one that ends while it runs, if it does. -/
theorem Fates.of_not_running (h : Fates i ps qs) (hi : (ps i).state ≠ .running) :
    Fates s ps qs := by
  refine ⟨h.fixed, fun j => ?_, h.partner, h.lent⟩
  cases h.fate j with
  | stays state ret reply vfork killed => exact .stays state ret reply vfork killed
  | ends live dead killed running =>
      exact .ends live dead killed fun e => absurd (running e ▸ e) hi
  | rests dead dead' killed => exact .rests dead dead' killed
  | fails t awaits live dead state ret reply vfork killed =>
      exact .fails t awaits live dead state ret reply vfork killed
  | resumes t waits live dead child state vfork killed =>
      exact .resumes t waits live dead child state vfork killed
  | collects waits state vfork killed => exact .collects waits state vfork killed

theorem reapThread_fates (hi : (ps i).Live) :
    Fates i ps (ps.reapThread i).1 ∧ ¬ ((ps.reapThread i).1 i).Live := by
  have hleave := leave_fates hi
  have hover : ¬ (ps.leave i i).Live := by
    rw [leave_self]
    exact fun h => h.1 rfl
  have hrelease : Fates i (ps.leave i) (ps.reapThread i).1 := release_fates hover
  exact ⟨hleave.trans hrelease, (hrelease.dead hover).1⟩

/-- The slot is no thread of the process of slot `s`, or it is over, or it runs and is told to end. -/
def Dismissed (s i : Nat) (qs : Procs) : Prop :=
  (qs i).leader ≠ s ∨ ¬ (qs i).Live ∨ (qs i).state = .running ∧ (qs i).killed = true

theorem Fates.dismissed (h : Fates s ps qs) (hi : i ≠ s) (hd : Dismissed t i ps) :
    Dismissed t i qs := by
  rcases hd with hd | hd | ⟨hd, hk⟩
  · exact .inl (by rwa [(h.fixed i).leader])
  · exact .inr (.inl (h.dead hd).1)
  · have hd' := h.running hd hi
    exact .inr (.inr ⟨hd', h.marks hd' hk⟩)

theorem reapThreads_fates (s : Nat) (is : List Nat) (r : Outcome) :
    Fates s r.1 (reapThreads s is r).1 ∧
      ∀ i ∈ is, i ≠ s → Dismissed s i (reapThreads s is r).1 := by
  induction is generalizing r with
  | nil => exact ⟨.refl s r.1, by simp⟩
  | cons i is ih =>
      -- what the first thread comes to, and then the others
      have hstep : ∀ t : Outcome, Fates s r.1 t.1 → (i ≠ s → Dismissed s i t.1) →
          Fates s r.1 (reapThreads s is t).1 ∧
            ∀ j ∈ i :: is, j ≠ s → Dismissed s j (reapThreads s is t).1 := fun t ht hi => by
        obtain ⟨hfates, hothers⟩ := ih t
        refine ⟨ht.trans hfates, fun j hj hjs => ?_⟩
        rcases List.mem_cons.mp hj with rfl | hj
        · exact hfates.dismissed hjs (hi hjs)
        · exact hothers j hj hjs
      rw [reapThreads]
      by_cases hskip : i = s ∨ (r.1 i).leader ≠ s
      · rw [if_pos hskip]
        exact hstep r (.refl s r.1) fun hi => .inl (hskip.resolve_left hi)
      · rw [if_neg hskip]
        split
        · rename_i hst
          exact hstep r (.refl s r.1) fun _ => .inr (.inl fun h => h.1 hst)
        · rename_i hst
          exact hstep r (.refl s r.1) fun _ => .inr (.inl fun h => h.2 hst)
        · rename_i hst
          refine hstep _ (markKilled_fates hst) fun _ => .inr (.inr ?_)
          simp only [edit_self]
          exact ⟨hst, trivial⟩
        · rename_i h₁ h₂ h₃
          obtain ⟨hfates, hover⟩ := reapThread_fates ⟨h₁, h₂⟩
          exact hstep _ (hfates.of_not_running h₃) fun _ => .inr (.inl hover)

/-- **A process ends** with its threads. -/
theorem reap_fates (hs : (ps s).Live) :
    Fates s ps (ps.reap s).1 ∧ ¬ ((ps.reap s).1 s).Live ∧
      ((ps s).leader = s → ∀ i < MAX_PROCS, i ≠ s → Dismissed s i (ps.reap s).1) := by
  by_cases hl : (ps s).leader = s
  · have hleave := leave_fates hs
    have hrecord : Fates s (ps.leave s) ((ps.leave s).recordExit s).1 := recordLoop_fates ..
    obtain ⟨hthreads, hothers⟩ :=
      reapThreads_fates s (List.range MAX_PROCS) ((ps.leave s).recordExit s)
    have hall := (hleave.trans hrecord).trans hthreads
    have hover : ¬ (ps.leave s s).Live := by
      rw [leave_self]
      exact fun h => h.1 rfl
    have hover' := ((hrecord.trans hthreads).dead hover).1
    have hrelease := release_fates (s := s) hover'
    rw [reap, if_pos hl]
    refine ⟨hall.trans hrelease, (hrelease.dead hover').1, fun _ i hi his => ?_⟩
    exact hrelease.dismissed his (hothers i (List.mem_range.mpr hi) his)
  · rw [reap, if_neg hl]
    obtain ⟨h₁, h₂⟩ := reapThread_fates hs
    exact ⟨h₁, h₂, fun h => absurd h hl⟩

/-! ### Which slots end -/

theorem leave_only (hs : (ps s).Live) (hj : (ps j).Live) (hj' : ¬ (ps.leave s j).Live) : j = s := by
  by_contra e
  exact hj' ((leave_others hs e).2.2.1 hj)

theorem release_only (hj : (ps j).Live) (hj' : ¬ ((ps.release s).1 j).Live) : j = s := by
  by_contra e
  exact hj' (by rwa [Process.Live, release_state e hj.2])

theorem reapThread_only (hs : (ps s).Live) (hj : (ps j).Live)
    (hj' : ¬ ((ps.reapThread s).1 j).Live) : j = s := by
  by_cases hl : (ps.leave s j).Live
  · exact release_only hl hj'
  · exact leave_only hs hj hl

/-- Only threads of the process of slot `s` end. -/
theorem reapThreads_only (s : Nat) (is : List Nat) (r : Outcome) (hj : (r.1 j).Live)
    (hj' : ¬ ((reapThreads s is r).1 j).Live) : (r.1 j).leader = s := by
  induction is generalizing r with
  | nil => exact absurd hj hj'
  | cons i is ih =>
      rw [reapThreads] at hj'
      split at hj'
      · exact ih r hj hj'
      · rename_i hskip
        rw [not_or, not_not] at hskip
        split at hj'
        · exact ih r hj hj'
        · exact ih r hj hj'
        · rename_i hst
          have hfates : Fates i r.1 (r.1.edit i fun p => { p with killed := true }) :=
            markKilled_fates hst
          rw [← (hfates.fixed j).leader]
          refine ih _ ?_ hj'
          dsimp only
          by_cases e : j = i
          · subst e
            rw [edit_self]
            exact hj
          · rwa [edit_of_ne e]
        · rename_i h₁ h₂ _
          obtain ⟨hfates, -⟩ : Fates i r.1 (r.1.reapThread i).1 ∧ _ := reapThread_fates ⟨h₁, h₂⟩
          by_cases hl : ((r.1.reapThread i).1 j).Live
          · rw [← (hfates.fixed j).leader]
            exact ih ((r.1.reapThread i).1, r.2 ++ (r.1.reapThread i).2) hl hj'
          · rw [reapThread_only ⟨h₁, h₂⟩ hj hl]
            exact hskip.2

theorem reap_only (hs : (ps s).Live) (hj : (ps j).Live) (hj' : ¬ ((ps.reap s).1 j).Live) :
    j = s ∨ (ps j).leader = s := by
  by_cases hl : (ps s).leader = s
  · rw [reap, if_pos hl] at hj'
    by_cases e : j = s
    · exact .inl e
    · have hleave : (ps.leave s j).Live := (leave_others hs e).2.2.1 hj
      have hrecord : Fates s (ps.leave s) ((ps.leave s).recordExit s).1 := recordLoop_fates ..
      have hlive : (((ps.leave s).recordExit s).1 j).Live :=
        (same_recordLoop _ _ _ _ j).live.mpr hleave
      have hthreads : ¬ ((reapThreads s (List.range MAX_PROCS) ((ps.leave s).recordExit s)).1
          j).Live := fun hl => e (release_only hl hj')
      refine .inr ?_
      rw [← ((leave_fates hs).fixed j).leader, ← (hrecord.fixed j).leader]
      exact reapThreads_only s _ _ hlive hthreads
  · rw [reap, if_neg hl] at hj'
    exact .inl (reapThread_only hs hj hj')

end Procs

end Pulsar.Proc

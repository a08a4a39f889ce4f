import Pulsar.Proc.Sound

/-!
# The deeds of an event (`process.rs`)

Apart from the scheduler, an event sends or answers a message, begins a process, ends one or gives it
a new image: `deeds` lists which of these it does, in order, and `Takes` says of each what it does to
the table.  Between its deeds the processes go on (`Course`).

* `Sound.course`: what every event does.
-/

namespace Pulsar.Proc

/-- What is done to processes. -/
inductive Deed where
  /-- Slot `s` sends, and waits for slot `d` to take the message. -/
  | sends (s d : Nat) (m : Message)
  /-- The message of slot `s` is taken by slot `r`. -/
  | delivers (s r : Nat) (m : Message)
  /-- Slot `s` answers the message of slot `t`. -/
  | replies (s t : Nat) (m : Message)
  /-- A process begins in slot `i`, with a space of its own. -/
  | creates (i : Nat) (parent : Option Nat)
  /-- A thread of the process of slot `s` begins in slot `i`. -/
  | threads (s i : Nat)
  /-- A process begins in slot `i` with the space of slot `s`, which waits. -/
  | vforks (s i : Nat)
  /-- Slot `t`, which runs, is told to end. -/
  | marks (t : Nat)
  | ends (t : Nat)
  /-- The other threads of slot `s` end or are told to. -/
  | dismisses (s : Nat)
  /-- The same, and slot `s` goes on in another space. -/
  | execs (s : Nat)
  deriving DecidableEq

namespace Procs

variable {ps qs rs : Procs} {s i : Nat}

/-- What a deed does to the table and to memory. -/
inductive Takes (ps : Procs) : Deed → Procs → List Effect → Prop where
  | sends {s d : Nat} {m : Message} (msgPtr : Nat) (run : (ps s).state = .running)
      (live : (ps d).Live) (ne : d ≠ s) : Takes ps (.sends s d m) (ps.edit s fun p =>
        { p with msgPtr := msgPtr, state := .sendBlocked, sendTo := d, inbox := m }) []
  | delivers {s r : Nat} {m : Message} {qs : Procs} {es : List Effect}
      (takes : Delivers s r m ps qs) (free : freed es = []) : Takes ps (.delivers s r m) qs es
  | replies {s t : Nat} {m : Message} {es : List Effect} (run : (ps s).state = .running)
      (state : (ps t).state = .replyBlocked) (peer : (ps t).peer = s) (free : freed es = []) :
      Takes ps (.replies s t m)
        (ps.edit t fun p => { p with reply := m, ret := 0, state := .ready }) es
  | creates {i : Nat} {parent : Option Nat} {qs : Procs} (born : Born ps i qs)
      (space : Begins ps i qs) (own : (qs i).mm = i) (root : (qs i).root.isSome)
      (leader : (qs i).leader = i) (vfork : (qs i).vforkParent = none)
      (child : (qs i).parent = parent) : Takes ps (.creates i parent) qs []
  | threads {s i : Nat} {qs : Procs} (run : (ps s).state = .running) (born : Born ps i qs)
      (space : Begins ps i qs) (join : (qs i).mm = (ps s).mm)
      (leader : (qs i).leader = (ps s).leader) (vfork : (qs i).vforkParent = none)
      (child : (qs i).parent = (ps (ps s).leader).parent) : Takes ps (.threads s i) qs []
  | vforks {s i : Nat} {rs : Procs} (run : (ps s).state = .running) (born : Born ps i rs)
      (space : Begins ps i (rs.setState s .vforkWait)) (join : (rs i).mm = (ps s).mm)
      (leader : (rs i).leader = i) (vfork : (rs i).vforkParent = some s)
      (child : (rs i).parent = some (ps.leaderPid s)) :
      Takes ps (.vforks s i) (rs.setState s .vforkWait) []
  | marks {t : Nat} (run : (ps t).state = .running) : Takes ps (.marks t) (ps.markKilled t) []
  | ends {t : Nat} {qs : Procs} {es : List Effect} (live : (ps t).Live) (fates : Fates t ps qs)
      (space : Ends ps (qs, es)) (dead : ¬ (qs t).Live)
      (dismissed : (ps t).leader = t → ∀ i < MAX_PROCS, i ≠ t → Dismissed t i qs)
      (only : ∀ i, (ps i).Live → ¬ (qs i).Live → i = t ∨ (ps i).leader = t) :
      Takes ps (.ends t) qs es
  | dismisses {s : Nat} {qs : Procs} {es : List Effect} (run : (ps s).state = .running)
      (fates : Fates s ps qs) (space : Ends ps (qs, es)) (run' : (qs s).state = .running)
      (only : ∀ i, (ps i).Live → ¬ (qs i).Live → (ps i).leader = s) :
      Takes ps (.dismisses s) qs es
  | execs {s : Nat} {rs ts qs : Procs} {es : List Effect} (run : (ps s).state = .running)
      (fates : Fates s ps rs) (run' : (rs s).state = .running)
      (dismissed : ∀ i < MAX_PROCS, i ≠ s → Dismissed s i rs)
      (only : ∀ i, (ps i).Live → ¬ (rs i).Live → (ps i).leader = s)
      (image : Execs s rs qs) (space : Ends ps (ts, es)) (space' : Begins ts s qs)
      (own : (qs s).mm = s) (leader : (ps s).leader = s) (root : (qs s).root.isSome) :
      Takes ps (.execs s) qs es

/-- The spaces that are freed: the owner and the root of each. -/
def frees : List Effect → List (Nat × Option Nat) :=
  List.filterMap fun
    | .freeMm m root => some (m, root)
    | _ => none

theorem frees_owners (es : List Effect) : (frees es).map Prod.fst = freed es := by
  rw [frees, freed, List.map_filterMap]
  refine List.filterMap_congr fun e _ => ?_
  cases e <;> rfl

/-- The deeds one after the other, with the spaces that are freed; between them the processes go
on. -/
inductive Course : List Deed → Procs → List (Nat × Option Nat) → Procs → Prop where
  | rest {ps qs : Procs} (go : Go ps qs) : Course [] ps [] qs
  | last {d : Deed} {ps ps' qs rs : Procs} {es : List Effect} (go : Go ps ps')
      (same : SameRunning ps ps') (takes : Takes ps' d qs es) (next : Go qs rs)
      (settles : Settles qs rs) : Course [d] ps (frees es) rs
  /-- A thread ends after its process was killed. -/
  | group {d : Deed} {l s : Nat} {ps ts ts' qs rs : Procs} {es es' : List Effect}
      (kill : d = .marks l ∨ d = .ends l) (first : Takes ps d ts es) (go : Go ts ts')
      (same : SameRunning ts ts') (between : Settles ts ts') (takes : Takes ts' (.ends s) qs es')
      (next : Go qs rs) (settles : Settles qs rs) :
      Course [d, .ends s] ps (frees es ++ frees es') rs

/-! ### Pids -/

/-- The pid was given to a process. -/
def Past (ps : Procs) (p : Nat) : Prop :=
  p < p % MAX_PROCS + MAX_PROCS * (ps (p % MAX_PROCS)).generation

theorem Named.past (h : ps.Named) (hi : (ps i).Live) (hlt : i < MAX_PROCS) :
    ps.Past (ps i).pid := by
  have hn := h i hi.1
  have hpos : 0 < MAX_PROCS := by decide
  rw [Past, h.slot hi hlt]
  omega

theorem Named.slot_inj {j : Nat} (h : ps.Named) (hf : Fine ps) (hi : (ps i).Live)
    (hj : (ps j).Live) (e : (ps i).pid = (ps j).pid) : i = j := by
  rw [← h.slot hi (hf.slots i hi.1), e, h.slot hj (hf.slots j hj.1)]

/-- A live slot was alive with its process, or has a pid that no process had. -/
structure Comes (ps qs : Procs) : Prop where
  generation : ∀ i, (ps i).generation ≤ (qs i).generation
  origin : ∀ i, (qs i).Live →
    (ps i).Live ∧ (qs i).pid = (ps i).pid ∨ (ps i).state = .unused ∧ ¬ ps.Past (qs i).pid

theorem Past.comes {p : Nat} (h : ps.Past p) (hc : Comes ps qs) : qs.Past p :=
  lt_of_lt_of_le h (Nat.add_le_add_left (Nat.mul_le_mul_left _ (hc.generation _)) _)

theorem Comes.past {p : Nat} (h : Comes ps qs) (hp : ps.Past p)
    (hno : ∀ i, (ps i).Live → (ps i).pid ≠ p) : ∀ i, (qs i).Live → (qs i).pid ≠ p := by
  rintro i hi rfl
  rcases h.origin i hi with ⟨hl, he⟩ | ⟨-, hn⟩
  · exact hno i hl he.symm
  · exact hn hp

theorem comes_of_alike (ha : ∀ i, (ps i).Alike (qs i)) (hl : ∀ i, (qs i).Live → (ps i).Live) :
    Comes ps qs where
  generation i := (ha i).generation.ge
  origin i hi := .inl ⟨hl i hi, (ha i).pid⟩

theorem Go.comes (h : Go ps qs) : Comes ps qs :=
  comes_of_alike (fun i => (h i).alike) fun i => (h i).same.live.mp

theorem Born.comes (h : Born ps i qs) : Comes ps qs where
  generation j := by
    by_cases e : j = i
    · rw [e, h.generation]
      exact Nat.le_succ _
    · rw [h.others j e]
  origin j hj := by
    by_cases e : j = i
    · refine .inr ⟨e ▸ h.unused.1, ?_⟩
      rw [e, h.pid, Past, Nat.add_mul_mod_self_left, Nat.mod_eq_of_lt h.unused.2]
      exact lt_irrefl _
    · rw [h.others j e] at hj ⊢
      exact .inl ⟨hj, rfl⟩

theorem Takes.one {d : Deed} {es : List Effect} (h : Takes ps d qs es) (next : Go qs rs)
    (settles : Settles qs rs) : Course [d] ps (frees es) rs :=
  .last (Calm.refl ps).go (.refl ps) h next settles

theorem ends_takes (h : Fine ps) (hs : (ps s).Live) :
    Takes ps (.ends s) (ps.reap s).1 (ps.reap s).2 := by
  obtain ⟨hfates, hdead, hdismissed⟩ := reap_fates hs
  exact .ends hs hfates (reap_ends h hs) hdead hdismissed fun i => reap_only hs

theorem same_of_live {p q : Process} (hp : p.Live) (hq : q.Live) (h : q.mm = p.mm ∧
    q.members = p.members ∧ q.root = p.root ∧ q.asid = p.asid ∧ q.leader = p.leader) : q.Same p :=
  ⟨iff_of_false hq.1 hp.1, iff_of_false hq.2 hp.2, h.1, h.2.1, h.2.2.1, h.2.2.2.1, h.2.2.2.2⟩

theorem edit_stays (ps : Procs) (i : Nat) {f : Process → Process} (ha : (ps i).Alike (f (ps i)))
    (hs : (f (ps i)).Same (ps i)) : (ps.edit i f).Same ps ∧ ∀ j, (ps j).Alike (ps.edit i f j) := by
  refine ⟨same_edit hs, fun j => ?_⟩
  by_cases e : j = i
  · subst e
    rwa [edit_self]
  · rw [edit_of_ne e]
    exact .refl _

/-- A message changes neither who uses a space nor who is who. -/
theorem Takes.stays {d : Deed} {es : List Effect} (ht : Takes ps d qs es)
    (hd : (∃ s d' m, d = .sends s d' m) ∨ (∃ s r m, d = .delivers s r m) ∨
      (∃ s t m, d = .replies s t m) ∨ ∃ t, d = .marks t) :
    qs.Same ps ∧ (∀ i, (ps i).Alike (qs i)) ∧ frees es = [] := by
  have hnil : ∀ {fs : List Effect}, freed fs = [] → frees fs = [] := fun {fs} he => by
    rw [← frees_owners] at he
    exact List.map_eq_nil_iff.mp he
  cases ht with
  | sends msgPtr run =>
      obtain ⟨h₁, h₂⟩ := edit_stays ps _ (f := fun p => { p with
        msgPtr := msgPtr, state := .sendBlocked, sendTo := _, inbox := _ }) ⟨rfl, rfl, rfl, rfl⟩
        (same_of_live (Process.live_of_running run) ⟨by simp, by simp⟩ ⟨rfl, rfl, rfl, rfl, rfl⟩)
      exact ⟨h₁, h₂, rfl⟩
  | delivers takes free => exact ⟨takes.same, fun i => (takes.kept i).1, hnil free⟩
  | replies run state peer free =>
      obtain ⟨h₁, h₂⟩ := edit_stays ps _ (f := fun p => { p with
        reply := _, ret := 0, state := .ready }) ⟨rfl, rfl, rfl, rfl⟩
        (same_of_live (State.live_of_eq state (by decide) (by decide)) ⟨by simp, by simp⟩
          ⟨rfl, rfl, rfl, rfl, rfl⟩)
      exact ⟨h₁, h₂, hnil free⟩
  | marks run =>
      obtain ⟨h₁, h₂⟩ := edit_stays ps _ (f := fun p => { p with killed := true }) ⟨rfl, rfl, rfl, rfl⟩
        ⟨.rfl, .rfl, rfl, rfl, rfl, rfl, rfl⟩
      exact ⟨h₁, h₂, rfl⟩
  | _ => simp at hd

/-- **One deed** gives no pid twice. -/
theorem Takes.comes {d : Deed} {es : List Effect} (ht : Takes ps d qs es) : Comes ps qs := by
  have hstays := ht.stays
  cases ht with
  | creates born => exact born.comes
  | threads run born => exact born.comes
  | vforks run born =>
      rename_i s i rs _ _ _ _ _
      have hlive : ∀ j, ((rs.setState s .vforkWait) j).Live → (rs j).Live ∨ j = s := fun j hj => by
        by_cases e : j = s
        · exact .inr e
        · rw [setState, edit_of_ne e] at hj
          exact .inl hj
      have hkept : ∀ j, ((rs.setState s .vforkWait) j).pid = (rs j).pid ∧
          ((rs.setState s .vforkWait) j).generation = (rs j).generation := fun j => by
        by_cases e : j = s
        · subst e
          rw [setState, edit_self]
          exact ⟨rfl, rfl⟩
        · rw [setState, edit_of_ne e]
          exact ⟨rfl, rfl⟩
      have hs : (rs s).Live := by
        rw [born.others s (born.ne (Process.live_of_running run))]
        exact Process.live_of_running run
      refine ⟨fun j => (hkept j).2 ▸ born.comes.generation j, fun j hj => ?_⟩
      rw [(hkept j).1]
      exact born.comes.origin j ((hlive j hj).elim id fun e => e ▸ hs)
  | ends live fates => exact comes_of_alike (fun i => (fates.fixed i).toAlike) fun i => fates.live
  | dismisses run fates =>
      exact comes_of_alike (fun i => (fates.fixed i).toAlike) fun i => fates.live
  | execs run fates run' dismissed only image =>
      exact comes_of_alike (fun i => (fates.fixed i).toAlike.trans (image.alike i)) fun i hi =>
        fates.live (image.live hi)
  | _ =>
      obtain ⟨hs, ha, -⟩ := hstays (by simp)
      exact comes_of_alike ha fun i => (hs i).live.mp

/-- **One deed** leaves the table in order. -/
theorem Takes.orderly {d : Deed} {es : List Effect} (ht : Takes ps d qs es) (hf : Fine ps)
    (hn : ps.Named) : Fine qs ∧ qs.Named := by
  have hstays := ht.stays
  cases ht with
  | creates born space => exact ⟨space.fine, hn.born born⟩
  | threads run born space => exact ⟨space.fine, hn.born born⟩
  | vforks run born space join leader vfork child =>
      rename_i s i rs
      have hs : (rs s).Live := by
        rw [born.others s (born.ne (Process.live_of_running run))]
        exact Process.live_of_running run
      have hwait := edit_stays rs s (f := fun p => { p with state := .vforkWait })
        ⟨rfl, rfl, rfl, rfl⟩ (same_of_live hs ⟨by simp, by simp⟩ ⟨rfl, rfl, rfl, rfl, rfl⟩)
      exact ⟨space.fine, (hn.born born).same hwait.2 hwait.1⟩
  | ends live fates space =>
      exact ⟨space.fine, hn.of_alike (fun i => (fates.fixed i).toAlike) fun i hi =>
        (space.used i hi).1⟩
  | dismisses run fates space =>
      exact ⟨space.fine, hn.of_alike (fun i => (fates.fixed i).toAlike) fun i hi =>
        (space.used i hi).1⟩
  | execs run fates run' dismissed only image space space' own leader root =>
      rename_i s rs ts
      refine ⟨space'.fine, hn.of_alike
        (fun i => (fates.fixed i).toAlike.trans (image.alike i)) fun i hi => ?_⟩
      by_cases e : i = s
      · rw [e, run]
        decide
      · exact (space.used i (mt (space'.others i e).1.mpr hi)).1
  | _ =>
      obtain ⟨hs, ha, -⟩ := hstays (by simp)
      exact ⟨hf.congr hs, hn.same ha hs⟩

theorem Go.orderly (h : Go ps qs) (hf : Fine ps) (hn : ps.Named) : Fine qs ∧ qs.Named :=
  ⟨hf.congr h.same, hn.same (fun i => (h i).alike) h.same⟩

theorem Takes.killed {d : Deed} {l : Nat} {es : List Effect} (h : Takes ps d qs es)
    (hd : d = .marks l ∨ d = .ends l) (hf : Fine ps) (hn : ps.Named) :
    Fates l ps qs ∧ Fine qs ∧ qs.Named ∧ ∀ i, (qs i).Live → d ≠ .ends i := by
  cases h with
  | marks run =>
      cases Deed.marks.inj (hd.resolve_right (by simp))
      have hsame : ∀ t, (ps.markKilled t).Same ps := fun t =>
        same_edit ⟨.rfl, .rfl, rfl, rfl, rfl, rfl, rfl⟩
      have hfates := markKilled_fates (s := l) run
      exact ⟨hfates, hf.congr (hsame _), hn.same (fun i => (hfates.fixed i).toAlike) (hsame _),
        by simp⟩
  | ends live fates space dead =>
      cases Deed.ends.inj (hd.resolve_left (by simp))
      refine ⟨fates, space.fine, ?_, fun i hi e => dead (Deed.ends.inj e ▸ hi)⟩
      exact hn.of_alike (fun i => (fates.fixed i).toAlike) fun i hi => (space.used i hi).1
  | _ => exact absurd hd (by simp)

end Procs

namespace Machine

variable {σ τ : Machine} {c s : Nat} {ws : Wakes}

/-- A slot that is not current here is killed. -/
def kill (σ : Machine) (t : Nat) : Deed :=
  if (σ.procs t).state = .running then .marks t else .ends t

/-- What a call by slot `s` does. -/
def callDeeds (σ : Machine) (s : Nat) : Call → List Deed
  | .threadCreate _ | .cloneThread _ _ => (σ.procs.freeSlot.map (.threads s)).toList
  | .fork _ _ _ _ => (σ.procs.freeSlot.map (.creates · (some (σ.procs.leaderPid s)))).toList
  | .vfork _ _ => (σ.procs.freeSlot.map (.vforks s)).toList
  | .execReplace root asid _ =>
    if (σ.procs.execReplace s root asid).1 then [.execs s] else [.dismisses s]
  | .ipcSend dstPid msg _ => ((σ.procs.slotOf dstPid).bind fun d =>
      if d = s then none
      else if (σ.procs d).state = .recvBlocked then some (.delivers s d msg)
      else some (.sends s d msg)).toList
  | .ipcRecv _ | .ipcTryRecv _ =>
    ((σ.procs.findSender s).map fun i => .delivers i s (σ.procs i).inbox).toList
  | .ipcReply toPid msg => ((σ.procs.slotOf toPid).bind fun t =>
      if (σ.procs t).state = .replyBlocked ∧ (σ.procs t).peer = s then some (.replies s t msg)
      else none).toList
  | .exitIfKilled _ => if (σ.procs s).killed then [.ends s] else []
  | .exitCurrent _ => [.ends s]
  | .exitGroup _ =>
    let l := (σ.procs s).leader
    if l ≠ s ∧ (σ.procs l).Live then [σ.kill l, .ends s] else [.ends s]
  | _ => []

/-- What an event does. -/
def deeds (σ : Machine) : Event → List Deed
  | .createEx c _ _ _ =>
    (σ.procs.freeSlot.map (.creates · ((σ.current c).map σ.procs.leaderPid))).toList
  | .killSig c pid _ _ _ => ((σ.procs.slotOf pid).map fun t =>
      if σ.current c = some t then .ends t else σ.kill t).toList
  | .call c k _ => (σ.current c).elim [] fun s => σ.callDeeds s k
  | _ => []

/-- The spaces that are freed, in the outputs. -/
def freedBy : List Output → List (Nat × Option Nat) :=
  List.filterMap fun
    | .effect (.freeMm m root) => some (m, root)
    | _ => none

theorem freedBy_append (os os' : List Output) :
    freedBy (os ++ os') = freedBy os ++ freedBy os' := List.filterMap_append

theorem freedBy_effects (es : List Effect) : freedBy (es.map .effect) = Procs.frees es := by
  rw [freedBy, List.filterMap_map]
  refine List.filterMap_congr fun e _ => ?_
  cases e <;> rfl

theorem freedBy_after (r : Outcome) : freedBy (σ.after r).out = freedBy σ.out ++ Procs.frees r.2 := by
  rw [after, freedBy_append, freedBy_effects]

theorem freedBy_dispatch (c : Nat) (ws : Wakes) (σ : Machine) :
    freedBy (σ.dispatch c ws).out = freedBy σ.out := by
  rw [dispatch]
  cases σ.choose (σ.procs.wakeAll ws) with
  | none => exact congrArg freedBy (switchFp_fields c none σ).2.2.2.2
  | some i => exact (freedBy_append ..).trans (List.append_nil _)

theorem freedBy_reap (s : Nat) (σ : Machine) :
    freedBy (σ.reap s).out = freedBy σ.out ++ Procs.frees (σ.procs.reap s).2 := by
  have hrecord : freedBy (σ.recordExit s).out = freedBy σ.out := by
    rw [recordExit]
    split <;> exact (freedBy_append ..).trans (List.append_nil _)
  rw [reap, freedBy_after]
  split_ifs
  · rw [hrecord]
  · rfl

/-- What leads to `τ`: these deeds, and the spaces freed among the outputs. -/
def Does (σ : Machine) (ds : List Deed) (τ : Machine) : Prop :=
  ∃ fs, Procs.Course ds σ.procs fs τ.procs ∧ freedBy τ.out = freedBy σ.out ++ fs

theorem Does.go (h : Procs.Go σ.procs τ.procs) (ho : freedBy τ.out = freedBy σ.out) :
    Does σ [] τ := ⟨[], .rest h, by rw [ho, List.append_nil]⟩

theorem Does.one {d : Deed} {es : List Effect} {qs : Procs} (h : Procs.Takes σ.procs d qs es)
    (hgo : Procs.Go qs τ.procs) (hs : Procs.Settles qs τ.procs)
    (ho : freedBy τ.out = freedBy σ.out ++ Procs.frees es) : Does σ [d] τ :=
  ⟨_, h.one hgo hs, ho⟩

theorem go_refl (ps : Procs) : Procs.Go ps ps := (Procs.Calm.refl ps).go

theorem settles_refl (ps : Procs) : Procs.Settles ps ps := Procs.settles_of_eq fun _ _ => rfl

/-- Slot `s` ends on its processor, which goes on with another; a slot may have been killed before,
or have got its status. -/
theorem Sound.does_exit {μ : Machine} {ds : List Deed} (h : μ.Sound) (hc : μ.current c = some s)
    (ws : Wakes) (mapped : Bool)
    (hd : ∀ ps qs rs es, Procs.Go μ.procs ps → Procs.SameRunning μ.procs ps →
      Procs.Settles μ.procs ps → Procs.Takes ps (.ends s) qs es → Procs.Go qs rs →
      Procs.Settles qs rs → ∃ fs, Procs.Course ds σ.procs fs rs ∧
        freedBy μ.out ++ Procs.frees es = freedBy σ.out ++ fs) :
    Does σ ds (μ.exitLocked c s ws mapped) := by
  have hlive := Process.live_of_running (h.running hc)
  have hcalm : Procs.Calm μ.procs (μ.procs.clearTidOf s mapped).1 :=
    Procs.clearTidOf_calm s mapped
  have hsame : Procs.SameRunning μ.procs (μ.procs.clearTidOf s mapped).1 :=
    Procs.clearTidOf_running s mapped
  have hends := Procs.ends_takes (h.fine.congr hcalm.go.same) ((hcalm s).same.live.mpr hlive)
  obtain ⟨fs, hcourse, hfs⟩ := hd _ _ _ _ hcalm.go hsame (Procs.clearTidOf_settles s mapped) hends
    (dispatch_calm c ws (μ.leaveCpu c s mapped)).go (dispatch_settles c ws fun _ _ => rfl)
  refine ⟨fs, hcourse, ?_⟩
  rw [Machine.exitLocked, freedBy_dispatch, Machine.leaveCpu, freedBy_reap, ← hfs]
  have hclear : Procs.frees (μ.procs.clearTidOf s mapped).2 = [] := by
    rw [Procs.clearTidOf]
    split_ifs <;> rfl
  simp only [save, after, freedBy_append, freedBy_effects, hclear, List.append_nil]

theorem Sound.does_exitLocked (h : σ.Sound) (hc : σ.current c = some s) (ws : Wakes)
    (mapped : Bool) : Does σ [.ends s] (σ.exitLocked c s ws mapped) :=
  h.does_exit hc ws mapped fun _ _ _ _ go same _ takes next settles =>
    ⟨_, .last go same takes next settles, rfl⟩

theorem Sound.takes_kill (h : σ.Sound) (hs : (σ.procs s).Live) :
    ∃ es, Procs.Takes σ.procs (σ.kill s) (σ.killOther s).procs es ∧
      freedBy (σ.killOther s).out = freedBy σ.out ++ Procs.frees es := by
  rw [Machine.killOther, kill]
  split_ifs with hrun
  · exact ⟨[], .marks hrun, (List.append_nil _).symm⟩
  · exact ⟨_, Procs.ends_takes h.fine hs, freedBy_reap s σ⟩

theorem Sound.does_exitGroup (h : σ.Sound) (hc : σ.current c = some s) (ws : Wakes)
    (mapped : Bool) :
    Does σ (σ.callDeeds s (.exitGroup mapped)) (σ.exitGroup c s ws mapped) := by
  rw [Machine.exitGroup, callDeeds]
  by_cases hl : (σ.procs s).leader ≠ s ∧ (σ.procs (σ.procs s).leader).Live
  · simp only [if_pos hl]
    obtain ⟨es, htakes, hes⟩ := h.takes_kill hl.2
    refine (h.killOther hl.2).does_exit ?_ ws mapped
      fun ps qs rs es' go same between takes next settles => ?_
    · rw [(killOther_beside ..).current]
      exact hc
    · refine ⟨_, .group (l := (σ.procs s).leader) ?_ htakes go same between takes next
        settles, ?_⟩
      · rw [kill]
        split_ifs
        · exact .inl rfl
        · exact .inr rfl
      · rw [hes, List.append_assoc]
  · simp only [if_neg hl]
    exact h.does_exitLocked hc ws mapped

theorem Sound.does_killSig (h : σ.Sound) (ws : Wakes) (pid sig : Nat) (mapped : Bool) :
    Does σ (σ.deeds (.killSig c pid sig mapped ws)) (σ.killSig c ws pid sig mapped) := by
  rw [Machine.killSig, deeds]
  cases hs : σ.procs.slotOf pid with
  | none => exact .go (go_refl _) rfl
  | some s =>
      have hcalm : Procs.Calm σ.procs (σ.procs.setStatusOf s (sig % 128)) :=
        Procs.setStatusOf_calm s _
      have hsame : Procs.SameRunning σ.procs (σ.procs.setStatusOf s (sig % 128)) :=
        Procs.sameRunning_edit .rfl
      have hstatus : (σ.onProcs (·.setStatusOf s (sig % 128))).Sound := h.onProcs hcalm hsame
      have hlive := (hcalm.go.same s).live.mpr (Procs.slotOf_some hs).1
      simp only [Option.map_some, Option.toList_some]
      by_cases hc : σ.current c = some s
      · rw [if_pos hc, if_pos (by exact hc)]
        exact hstatus.does_exit hc ws mapped fun _ _ _ _ go same _ takes next settles =>
          ⟨_, .last (hcalm.go.trans go) (hsame.trans same) takes next settles, rfl⟩
      · rw [if_neg hc, if_neg (by exact hc)]
        obtain ⟨es, htakes, hes⟩ := hstatus.takes_kill hlive
        have hkill : (σ.onProcs (·.setStatusOf s (sig % 128))).kill s = σ.kill s := by
          rw [kill, kill, Machine.onProcs]
          simp only [hsame s]
        rw [hkill] at htakes
        exact ⟨_, .last hcalm.go hsame htakes (go_refl _) (settles_refl _), hes⟩

/-! ### The beginning -/

theorem Sound.does_createEx (h : σ.Sound) (root asid ctx : Nat) :
    Does σ (σ.deeds (.createEx c root asid ctx))
      (σ.begins (σ.procs.createEx (σ.current c) root asid) ctx 0) := by
  rw [deeds, Machine.begins]
  cases hr : (σ.procs.createEx (σ.current c) root asid).1 with
  | none =>
      have hfree := Procs.createEx_free hr
      simp only [hfree, Procs.createEx_none hr]
      exact .go (go_refl _) rfl
  | some i =>
      have hq : σ.procs.createEx (σ.current c) root asid = (some i, _) := Prod.ext hr rfl
      obtain ⟨hborn, hleader, hvfork, hparent⟩ := Procs.createEx_born hq
      obtain ⟨hspace, hmm, hroot, -⟩ := h.fine.createEx hq
      simp only [hborn.free, Option.map_some, Option.toList_some]
      exact .one (.creates hborn hspace hmm (by rw [hroot]; rfl) hleader hvfork hparent)
        (go_refl _) (settles_refl _) (List.append_nil _).symm

theorem Sound.does_fork (h : σ.Sound) (hc : σ.current c = some s)
    (root asid ctx fp clearTid : Nat) :
    Does σ (σ.callDeeds s (.fork root asid ctx clearTid))
      (σ.begins (σ.procs.fork s (some (root, asid)) clearTid) ctx fp) := by
  rw [callDeeds, Machine.begins]
  cases hr : (σ.procs.fork s (some (root, asid)) clearTid).1 with
  | none =>
      have hfree := Procs.fork_free hr
      simp only [hfree, Procs.fork_none hr]
      exact .go (go_refl _) rfl
  | some i =>
      have hq : σ.procs.fork s (some (root, asid)) clearTid = (some i, _) := Prod.ext hr rfl
      obtain ⟨hborn, hleader, hvfork, hparent⟩ := Procs.fork_born hq
      obtain ⟨hspace, hown, -⟩ := h.fine.fork (Process.live_of_running (h.running hc)) hq
      obtain ⟨hmm, hroot, -⟩ := hown _ rfl
      simp only [hborn.free, Option.map_some, Option.toList_some]
      exact .one (.creates hborn hspace hmm (by rw [hroot]; rfl) hleader hvfork hparent)
        (go_refl _) (settles_refl _) (List.append_nil _).symm

theorem Sound.does_thread (h : σ.Sound) (hc : σ.current c = some s) (ctx fp clearTid : Nat) :
    Does σ (σ.procs.freeSlot.map (.threads s)).toList
      (σ.begins (σ.procs.threadCreate s clearTid) ctx fp) := by
  have hrun := h.running hc
  have hlive := Process.live_of_running hrun
  rw [Machine.begins]
  cases hr : (σ.procs.threadCreate s clearTid).1 with
  | none =>
      have hfree := Procs.threadCreate_free hr
      simp only [hfree, Procs.threadCreate_none hr]
      exact .go (go_refl _) rfl
  | some i =>
      have hq : σ.procs.threadCreate s clearTid = (some i, _) := Prod.ext hr rfl
      obtain ⟨hborn, hleader, hvfork, hparent⟩ :=
        Procs.threadCreate_born (h.fine.owner s hlive.1).1 hq
      obtain ⟨hspace, hmm⟩ := h.fine.threadCreate hlive hq
      simp only [hborn.free, Option.map_some, Option.toList_some]
      exact .one (.threads hrun hborn hspace hmm hleader hvfork hparent) (go_refl _)
        (settles_refl _) (List.append_nil _).symm

theorem Sound.does_vfork (h : σ.Sound) (hc : σ.current c = some s) (ctx clearTid : Nat)
    (ws : Wakes) :
    Does σ (σ.callDeeds s (.vfork ctx clearTid)) (σ.vfork c s ws ctx clearTid) := by
  have hrun := h.running hc
  rw [callDeeds, Machine.vfork]
  cases hr : (σ.procs.fork s none clearTid).1 with
  | none =>
      have hfree := Procs.fork_free hr
      simp only [Machine.begins, hr, hfree, Procs.fork_none hr]
      exact .go (go_refl _) rfl
  | some i =>
      have hq : σ.procs.fork s none clearTid = (some i, _) := Prod.ext hr rfl
      obtain ⟨rs, hborn, hleader, hvfork, hparent, hqs⟩ := Procs.vfork_born hq
      obtain ⟨hspace, -, hmm⟩ := h.fine.fork (Process.live_of_running hrun) hq
      have hsi : i ≠ s := Ne.symm (hborn.ne (Process.live_of_running hrun))
      rw [hqs] at hspace hmm
      have hmm' : (rs i).mm = (σ.procs s).mm := by
        rw [← hmm rfl, Procs.setState, Procs.edit_of_ne hsi]
      have hsends : ¬ ((rs.setState s .vforkWait) s).state.Sends := by
        simp only [Procs.setState, Procs.edit_self]
        decide
      simp only [Machine.begins, hr, hqs, hborn.free, Option.map_some, Option.toList_some]
      refine .one (.vforks hrun hborn hspace hmm' hleader hvfork hparent) ?_ ?_ ?_
      · refine Procs.Go.trans ?_ (block_calm c s ws _).go
        exact (Procs.setRet_calm hsends _).go
      · refine dispatch_settles c ws fun j hj => ?_
        have hjs : j ≠ s := fun e => by
          rw [e, Procs.setState, Procs.edit_self] at hj
          exact absurd hj (by simp)
        simp only [Machine.save, Machine.onProcs, Procs.setRet, Procs.edit_of_ne hjs]
      · exact (freedBy_dispatch ..).trans (List.append_nil _).symm

/-- The process of slot `s` gets a new image, or not. -/
theorem Sound.does_execReplace (h : σ.Sound) (hc : σ.current c = some s) (root asid ctx : Nat) :
    Does σ (σ.callDeeds s (.execReplace root asid ctx)) (σ.execReplace c s root asid ctx) := by
  have hrun := h.running hc
  obtain ⟨rs, hfates, hs, honly, hfail, hdone⟩ := Procs.execReplace_fates root asid h.fine hrun
  obtain ⟨t, hends, heff, hfail', hdone'⟩ :=
    Procs.execReplace_spec root asid h.fine (Process.live_of_running hrun)
  rw [callDeeds, Machine.execReplace]
  cases hr : (σ.procs.execReplace s root asid).1 with
  | false =>
      simp only [Bool.false_eq_true, if_false]
      have hrs : t.1 = rs := (hfail' hr).symm.trans (hfail hr)
      have htakes : Procs.Takes σ.procs (.dismisses s) rs t.2 :=
        .dismisses hrun hfates (hrs ▸ hends) hs honly
      refine .one htakes ?_ ?_ ?_
      · simp only [after, hfail hr]
        exact go_refl _
      · simp only [after, hfail hr]
        exact settles_refl _
      · rw [freedBy_after, heff]
  | true =>
      simp only [if_true]
      obtain ⟨hdismissed, hleader, hexecs⟩ := hdone hr
      obtain ⟨hbegins, hmm, hroot, -⟩ := hdone' hr
      have htakes : Procs.Takes σ.procs (.execs s) _ t.2 :=
        .execs hrun hfates hs hdismissed honly hexecs hends hbegins hmm hleader
          (by rw [hroot]; rfl)
      refine .one htakes (go_refl _) (settles_refl _) ?_
      rw [heff]
      exact freedBy_after ..

/-! ### Messages and waits -/

theorem Sound.does_setRet (h : σ.Sound) (hc : σ.current c = some s) (v : Nat) :
    Does σ [] (σ.onProcs (·.setRet s v)) :=
  .go (Procs.setRet_calm (sends_running (h.running hc)) v).go rfl

theorem freed_writeMsg (root : Option Nat) (va : Nat) (m : Message) :
    Procs.freed (Procs.writeMsg root va m) = [] := by
  rw [Procs.writeMsg]
  split_ifs <;> rfl

theorem Sound.does_ipcSend (h : σ.Sound) (hc : σ.current c = some s) (dstPid : Nat) (msg : Message)
    (msgPtr : Nat) (ws : Wakes) :
    Does σ (σ.callDeeds s (.ipcSend dstPid msg msgPtr)) (σ.ipcSend c s ws dstPid msg msgPtr) := by
  have hrun := h.running hc
  have hsends := sends_running hrun
  rw [callDeeds, Machine.ipcSend]
  cases hd : σ.procs.slotOf dstPid with
  | none =>
      simp only [Procs.ipcSend, hd, Bool.false_eq_true, if_false]
      exact h.does_setRet hc _
  | some d =>
      have hlive := (Procs.slotOf_some hd).1
      by_cases e : d = s
      · simp only [Procs.ipcSend, hd, Option.bind_some, if_pos e, Bool.false_eq_true, if_false]
        exact h.does_setRet hc _
      · simp only [Option.bind_some, if_neg e]
        by_cases hst : (σ.procs d).state = .recvBlocked
        · obtain ⟨hbegun, hdelivers, hfree⟩ := Procs.ipcSend_delivers msgPtr msg hrun hd e hst
          simp only [hbegun, if_true, if_pos hst]
          refine .one (.delivers hdelivers hfree) ?_ ?_ ?_
          · exact (block_calm c s ws (σ.after _)).go
          · exact dispatch_settles c ws fun _ _ => rfl
          · exact (freedBy_dispatch ..).trans (freedBy_after _)
        · have hwaits := Procs.ipcSend_waits msgPtr msg hd e hst
          simp only [hwaits, if_true, if_neg hst]
          refine .one (.sends msgPtr hrun hlive e) ?_ ?_ ?_
          · exact (block_calm c s ws (σ.after (_, []))).go
          · exact dispatch_settles c ws fun _ _ => rfl
          · exact (freedBy_dispatch ..).trans (freedBy_after _)

theorem Sound.does_accept (h : σ.Sound) (hc : σ.current c = some s) {i : Nat}
    (hi : σ.procs.findSender s = some i) (msgPtr v : Nat) :
    Does σ [.delivers i s (σ.procs i).inbox]
      ((σ.after (σ.procs.acceptFrom s i msgPtr).2).onProcs (·.setRet s v)) := by
  obtain ⟨hst, hto⟩ := Procs.findSender_some hi
  have hd := Procs.acceptFrom_delivers msgPtr hst hto (h.running hc)
  have hrun : ((σ.procs.acceptFrom s i msgPtr).2.1 s).state = .running :=
    (hd.running (Ne.symm hd.ne)).mpr (h.running hc)
  refine .one (.delivers hd (freed_writeMsg ..)) (Procs.setRet_calm ?_ v).go
    (Procs.settles_edit ?_) (freedBy_after _)
  · exact sends_running (σ := σ.after (σ.procs.acceptFrom s i msgPtr).2) hrun
  · rw [hrun]
    decide

/-- Slot `s` begins to wait. -/
theorem Sound.does_block (h : σ.Sound) (hc : σ.current c = some s) {f : Process → Process}
    (hτ : τ.procs = σ.procs.edit s f) (ho : freedBy τ.out = freedBy σ.out) (ws : Wakes)
    (st : State) (hst : (f (σ.procs s)).state = st) (hi : st.Interruptible)
    (hf : f (σ.procs s) = { σ.procs s with
      state := (f (σ.procs s)).state, ret := (f (σ.procs s)).ret, reply := (f (σ.procs s)).reply
      msgPtr := (f (σ.procs s)).msgPtr, futexAddr := (f (σ.procs s)).futexAddr
      status := (f (σ.procs s)).status, waitPid := (f (σ.procs s)).waitPid
      waitPtr := (f (σ.procs s)).waitPtr, clearTid := (f (σ.procs s)).clearTid }) :
    Does σ [] (τ.block c s ws) := by
  refine .go ?_ ((freedBy_dispatch ..).trans ho)
  refine Procs.Go.trans ?_ (block_calm c s ws τ).go
  rw [hτ]
  exact Procs.go_edit (Process.goes_of_loose (.inr (.inl (h.running hc))) (.inr (.inr (hst ▸ hi))) hf)

theorem Sound.does_ipcRecv (h : σ.Sound) (hc : σ.current c = some s) (msgPtr : Nat) (ws : Wakes) :
    Does σ (σ.callDeeds s (.ipcRecv msgPtr)) (σ.ipcRecv c s ws msgPtr) := by
  rw [callDeeds, Machine.ipcRecv, Procs.ipcRecv]
  cases hs : σ.procs.findSender s with
  | none =>
      exact h.does_block hc (after_edit ..) ((freedBy_after _).trans (List.append_nil _)) ws
        .recvBlocked rfl (by decide) rfl
  | some i =>
      exact h.does_accept hc hs msgPtr _

theorem Sound.does_ipcTryRecv (h : σ.Sound) (hc : σ.current c = some s) (msgPtr : Nat) :
    Does σ (σ.callDeeds s (.ipcTryRecv msgPtr)) (σ.ipcTryRecv s msgPtr) := by
  rw [callDeeds, Machine.ipcTryRecv]
  cases hs : σ.procs.findSender s with
  | none => exact h.does_setRet hc _
  | some i =>
      exact h.does_accept hc hs msgPtr _

theorem Sound.does_ipcReply (h : σ.Sound) (hc : σ.current c = some s) (toPid : Nat)
    (msg : Message) :
    Does σ (σ.callDeeds s (.ipcReply toPid msg)) (σ.ipcReply s toPid msg) := by
  have hrun := h.running hc
  have hnone : Does σ [] ((σ.after (σ.procs, [])).onProcs (·.setRet s 0)) :=
    .go (Procs.setRet_calm (sends_running hrun) 0).go ((freedBy_after _).trans (List.append_nil _))
  rw [callDeeds, Machine.ipcReply, Procs.ipcReply]
  cases ht : σ.procs.slotOf toPid with
  | none => exact hnone
  | some t =>
      simp only [Option.bind_some]
      by_cases hst : (σ.procs t).state = .replyBlocked ∧ (σ.procs t).peer = s
      · simp only [if_pos hst]
        have hts : s ≠ t := fun e => by
          rw [← e, hrun] at hst
          exact absurd hst.1 (by decide)
        have hrun' : ∀ f, ((σ.procs.edit t f) s).state = .running := fun f => by
          rwa [Procs.edit_of_ne hts]
        refine .one (.replies hrun hst.1 hst.2 (freed_writeMsg ..)) (Procs.setRet_calm ?_ 0).go
          (Procs.settles_edit ?_) (freedBy_after _)
        · exact sends_running (σ := σ.after (_, [])) (hrun' _)
        · rw [hrun']
          decide
      · simp only [if_neg hst]
        exact hnone

theorem freedBy_append_one {o : Output} (os : List Output) (h : freedBy [o] = []) :
    freedBy (os ++ [o]) = freedBy os := by
  rw [freedBy_append, h, List.append_nil]

theorem Sound.does_waitChild (h : σ.Sound) (hc : σ.current c = some s) (pid : Option Nat)
    (statusPtr : Nat) (nohang : Bool) (ws : Wakes) :
    Does σ [] (σ.waitChild c s ws pid statusPtr nohang) := by
  have hgo : ∀ v, Procs.Go σ.procs (σ.procs.setRet s v) := fun v =>
    (Procs.setRet_calm (sends_running (h.running hc)) v).go
  rw [Machine.waitChild]
  cases σ.findExit (σ.procs.leaderPid s) pid with
  | some x =>
      refine .go (hgo _) ?_
      refine (freedBy_append_one _ rfl).trans ((freedBy_after _).trans ?_)
      dsimp only
      split_ifs <;> exact List.append_nil _
  | none =>
      simp only
      by_cases hchild : σ.procs.hasChild (σ.procs.leaderPid s) pid
      · rw [if_neg (not_not.mpr hchild)]
        split_ifs
        · exact .go (hgo _) rfl
        · exact h.does_block hc (onProcs_edit ..) rfl ws .waitChild rfl (by decide) rfl
      · rw [if_pos hchild]
        exact .go (hgo _) (freedBy_append_one _ rfl)

theorem Sound.does_waitidChild (h : σ.Sound) (hc : σ.current c = some s) (pid : Option Nat)
    (nohang nowait : Bool) (ws : Wakes) :
    Does σ [] (σ.waitidChild c s ws pid nohang nowait) := by
  have hgo : ∀ v, Procs.Go σ.procs (σ.procs.setRet s v) := fun v =>
    (Procs.setRet_calm (sends_running (h.running hc)) v).go
  cases hf : σ.findExit (σ.procs.leaderPid s) pid with
  | some x =>
      simp only [Machine.waitidChild, hf]
      split_ifs
      · exact .go (hgo _) rfl
      · exact .go (hgo _) (freedBy_append_one _ rfl)
  | none => exact Machine.waitidChild_none c s ws _ hf ▸ h.does_waitChild hc pid _ nohang ws

/-! ### Every event -/

theorem Sound.does_call (h : σ.Sound) (hc : σ.current c = some s) {k : Call}
    (hk : σ.call c s ws k = some τ) : Does σ (σ.callDeeds s k) τ := by
  have hrun := h.running hc
  cases k with
  | threadCreate ctx => exact Option.some.inj hk ▸ h.does_thread hc ctx 0 0
  | cloneThread ctx clearTid => exact Option.some.inj hk ▸ h.does_thread hc ctx _ clearTid
  | fork root asid ctx clearTid => exact Option.some.inj hk ▸ h.does_fork hc root asid ctx _ clearTid
  | vfork ctx clearTid => exact Option.some.inj hk ▸ h.does_vfork hc ctx clearTid ws
  | execReplace root asid ctx => exact Option.some.inj hk ▸ h.does_execReplace hc root asid ctx
  | ipcSend dstPid msg msgPtr => exact Option.some.inj hk ▸ h.does_ipcSend hc dstPid msg msgPtr ws
  | ipcRecv msgPtr => exact Option.some.inj hk ▸ h.does_ipcRecv hc msgPtr ws
  | ipcTryRecv msgPtr => exact Option.some.inj hk ▸ h.does_ipcTryRecv hc msgPtr
  | ipcReply toPid msg => exact Option.some.inj hk ▸ h.does_ipcReply hc toPid msg
  | waitChild pid statusPtr nohang =>
      exact Option.some.inj hk ▸ h.does_waitChild hc pid statusPtr nohang ws
  | waitidChild pid nohang nowait =>
      exact Option.some.inj hk ▸ h.does_waitidChild hc pid nohang nowait ws
  | futexWait addr =>
      rw [← Option.some.inj hk]
      exact h.does_block hc (onProcs_edit ..) rfl ws .futexWait rfl (by decide) rfl
  | futexWake addr n => exact Option.some.inj hk ▸ .go (Procs.futexWake_calm _ _ _).go rfl
  | pause st ret =>
      obtain ⟨hst, hk⟩ := (Option.ite_none_right_eq_some ..).mp hk
      rw [← Option.some.inj hk]
      refine h.does_block hc (onProcs_edit ..) rfl ws st rfl ?_ rfl
      rcases hst with rfl | rfl | rfl
      · exact .inr (.inl rfl)
      · exact .inr (.inr (.inr (.inr (.inl rfl))))
      · exact .inr (.inr (.inr (.inr (.inr rfl))))
  | setStatus status group =>
      refine Option.some.inj hk ▸ .go ?_ rfl
      simp only [Machine.onProcs]
      split_ifs
      · exact (Procs.setStatusOf_calm s status).go
      · exact go_refl _
  | setClearTid addr =>
      refine Option.some.inj hk ▸ .go ?_ rfl
      exact (Procs.calm_edit_own (f := fun p => { p with clearTid := addr }) hrun rfl).go
  | exitIfKilled mapped =>
      rw [← Option.some.inj hk, callDeeds, exitIfKilled]
      split_ifs
      · exact h.does_exitLocked hc ws mapped
      · exact .go (go_refl _) rfl
  | exitCurrent mapped => exact Option.some.inj hk ▸ h.does_exitLocked hc ws mapped
  | exitGroup mapped => exact Option.some.inj hk ▸ h.does_exitGroup hc ws mapped

/-- **What an event does** are its deeds. -/
theorem Sound.does_act (h : σ.Sound) {e : Event} (he : σ.act e = some τ) :
    Does σ (σ.deeds e) τ := by
  cases e with
  | enterScheduler c ws =>
      obtain ⟨-, hτ⟩ := (Option.ite_none_left_eq_some ..).mp he
      exact Option.some.inj hτ ▸ .go (enterScheduler_calm c ws σ).go (freedBy_dispatch ..)
  | schedule c ws =>
      obtain ⟨-, hτ⟩ := (Option.ite_none_right_eq_some ..).mp he
      refine Option.some.inj hτ ▸ .go (schedule_calm c ws σ).go ?_
      rw [Machine.schedule]
      cases σ.current c <;> exact freedBy_dispatch ..
  | onIpi c ws =>
      obtain ⟨-, hτ⟩ := (Option.ite_none_right_eq_some ..).mp he
      refine Option.some.inj hτ ▸ .go (onIpi_calm c ws σ).go ?_
      rw [onIpi]
      split_ifs
      · exact freedBy_dispatch ..
      · rfl
  | user c frame fpu =>
      obtain ⟨-, hτ⟩ := (Option.ite_none_left_eq_some ..).mp he
      exact Option.some.inj hτ ▸ .go (go_refl _) rfl
  | createEx c root asid ctx => exact Option.some.inj he ▸ h.does_createEx root asid ctx
  | killSig c pid sig mapped ws =>
      obtain ⟨-, hτ⟩ := (Option.ite_none_right_eq_some ..).mp he
      exact Option.some.inj hτ ▸ h.does_killSig ws pid sig mapped
  | call c k ws =>
      obtain ⟨s, hc, hk⟩ := Option.bind_eq_some_iff.mp he
      rw [deeds]
      have hc' : σ.current c = some s := hc
      rw [hc', Option.elim_some]
      exact h.does_call hc hk
  | wake ws => exact Option.some.inj he ▸ .go (Procs.wakeAll_calm ws).go rfl

theorem deeds_congr (σ : Machine) (os : List Output) (e : Event) :
    ({ σ with out := os } : Machine).deeds e = σ.deeds e := by
  cases e with
  | call c k ws => cases hc : σ.current c <;> cases k <;> simp only [deeds, hc] <;> rfl
  | _ => rfl

theorem Sound.quiet (h : σ.Sound) : Sound { σ with out := [] } :=
  ⟨h.fine, h.named, h.current, h.offline⟩

theorem Sound.course (h : σ.Sound) {e : Event} (he : σ.step e = some τ) :
    Procs.Course (σ.deeds e) σ.procs (freedBy τ.out) τ.procs := by
  obtain ⟨fs, hcourse, ho⟩ := h.quiet.does_act he
  rw [deeds_congr] at hcourse
  rw [ho]
  exact hcourse

end Machine

end Pulsar.Proc

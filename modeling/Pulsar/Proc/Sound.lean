import Pulsar.Proc.Turns

/-!
# What holds in every run (`process.rs`)

`Sound σ` is kept by every event, whatever processes do: the table says consistently who uses which
space, a slot runs exactly on the processor whose current slot it is, and a pid names its slot and
its generation.  An event by which a processor gives up its slot passes through a state in which it
has none (`Between`), and `dispatch` leads from there.

* `step_sound`: one event.
* `Reached.sound`: every state reached.
-/

namespace Pulsar.Proc

namespace Procs

variable {ps qs rs : Procs} {i s : Nat}

/-- The same slots run. -/
def SameRunning (ps qs : Procs) : Prop := ∀ i, (qs i).state = .running ↔ (ps i).state = .running

theorem SameRunning.refl (ps : Procs) : SameRunning ps ps := fun _ => .rfl

theorem SameRunning.trans (h : SameRunning ps qs) (h' : SameRunning qs rs) : SameRunning ps rs :=
  fun i => (h' i).trans (h i)

theorem sameRunning_edit {f : Process → Process}
    (h : (f (ps i)).state = .running ↔ (ps i).state = .running) :
    SameRunning ps (ps.edit i f) := fun j => by
  by_cases e : j = i
  · subst e
    rwa [edit_self]
  · rw [edit_of_ne e]

theorem wakeAll_running (ws : Wakes) : SameRunning ps (ps.wakeAll ws) := by
  induction ws generalizing ps with
  | nil => exact .refl ps
  | cons w ws ih =>
      refine (?_ : SameRunning ps (ps.wake w)).trans ih
      rw [wake]
      split_ifs with h
      · refine sameRunning_edit (iff_of_false (by simp) fun e => ?_)
        rw [e] at h
        exact absurd h (by decide)
      · exact .refl ps

theorem futexWake_running (root : Option Nat) (addr n : Nat) :
    SameRunning ps (ps.futexWake root addr n).2 := by
  rw [futexWake]
  generalize List.range MAX_PROCS = is
  induction is generalizing n ps with
  | nil => cases n <;> exact .refl ps
  | cons i is ih =>
      cases n with
      | zero => exact .refl ps
      | succ n =>
          rw [wakeLoop]
          split_ifs with h
          · refine (sameRunning_edit (i := i) (f := fun p => { p with ret := 0, state := .ready })
              (iff_of_false (by simp) fun e => ?_)).trans (ih n)
            exact absurd (h.1.symm.trans e) (by decide)
          · exact ih (n + 1)

theorem clearTidOf_running (s : Nat) (mapped : Bool) :
    SameRunning ps (ps.clearTidOf s mapped).1 := by
  rw [clearTidOf]
  split_ifs
  · exact futexWake_running _ _ _
  · exact .refl ps

/-- No slot that runs ends, but the one that ends itself. -/
theorem Fates.sameRunning (h : Fates s ps qs) (hs : (ps s).state ≠ .running) :
    SameRunning ps qs := fun i =>
  ⟨h.running_back, fun hi => h.running hi fun e : i = s => hs (e ▸ hi)⟩

theorem Born.running (h : Born ps i qs) : SameRunning ps qs := fun j => by
  by_cases e : j = i
  · subst e
    rw [h.state, h.unused.1]
    exact iff_of_false (by decide) (by decide)
  · rw [h.others j e]

theorem Delivers.running {s r : Nat} {m : Message} (h : Delivers s r m ps qs) (hi : i ≠ s) :
    (qs i).state = .running ↔ (ps i).state = .running := by
  by_cases e : i = r
  · subst e
    rcases h.state with ⟨e, e'⟩ | ⟨e, e'⟩
    · rw [e, e']
      decide
    · rw [e, e']
  · rw [h.others i hi e]

theorem Execs.running (h : Execs s ps qs) : SameRunning ps qs := fun i => by
  by_cases e : i = s
  · subst e
    rw [h.self]
  · cases h.others i e with
    | stays eq => rw [eq]
    | resumes child waits eq =>
        rw [eq, waits]
        exact iff_of_false (by simp) (by decide)
    | goes fixed zombie unused =>
        rw [zombie, unused]
        decide

/-- A pid names its slot and its generation. -/
def Named (ps : Procs) : Prop :=
  ∀ i, (ps i).state ≠ .unused → (ps i).pid + MAX_PROCS = i + MAX_PROCS * (ps i).generation

/-- Every process that is in a slot was there before. -/
theorem Named.of_alike (h : ps.Named) (ha : ∀ i, (ps i).Alike (qs i))
    (hu : ∀ i, (qs i).state ≠ .unused → (ps i).state ≠ .unused) : qs.Named := fun i hi => by
  rw [(ha i).pid, (ha i).generation]
  exact h i (hu i hi)

theorem Named.same (h : ps.Named) (ha : ∀ i, (ps i).Alike (qs i)) (hs : qs.Same ps) : qs.Named :=
  h.of_alike ha fun i hi => mt (hs i).unused.mpr hi

theorem Named.born (h : ps.Named) (hb : Born ps i qs) : qs.Named := fun j hj => by
  by_cases e : j = i
  · subst e
    rw [hb.pid, hb.generation, Nat.mul_add, Nat.mul_one, Nat.add_assoc]
  · rw [hb.others j e] at hj ⊢
    exact h j hj

/-- The slot of a pid. -/
theorem Named.slot (h : ps.Named) (hi : (ps i).Live) (hlt : i < MAX_PROCS) :
    (ps i).pid % MAX_PROCS = i := by
  have hn := h i hi.1
  have hmod : ((ps i).pid + MAX_PROCS) % MAX_PROCS = (i + MAX_PROCS * (ps i).generation) % MAX_PROCS :=
    congrArg (· % MAX_PROCS) hn
  rwa [Nat.add_mod_right, Nat.add_mul_mod_self_left, Nat.mod_eq_of_lt hlt] at hmod

end Procs

namespace Machine

variable {σ τ : Machine} {c s i : Nat} {ws : Wakes} {qs : Procs}

/-- A slot runs on the processor whose current slot it is. -/
def Current (σ : Machine) : Prop :=
  ∀ c s, σ.current c = some s ↔ (σ.procs s).state = .running ∧ σ.cpu s = c

/-- What holds in every state reached. -/
structure Sound (σ : Machine) : Prop where
  fine : σ.procs.Fine
  named : σ.procs.Named
  current : σ.Current
  offline : ∀ c, σ.online c = false → σ.current c = none

/-- Processor `c` has given up its slot, and not yet chosen another. -/
structure Between (c : Nat) (σ : Machine) : Prop where
  fine : σ.procs.Fine
  named : σ.procs.Named
  away : ∀ c' s, (c' ≠ c ∧ σ.current c' = some s) ↔
    (σ.procs s).state = .running ∧ σ.cpu s = c'
  offline : ∀ c', σ.online c' = false → c' ≠ c ∧ σ.current c' = none

theorem sound_boot : boot.Sound where
  fine := Procs.fine_empty
  named _ hi := absurd rfl hi
  current _ _ := iff_of_false (by simp [boot]) (by simp [boot, Process.empty])
  offline _ _ := rfl

theorem Sound.running (h : σ.Sound) (hc : σ.current c = some s) :
    (σ.procs s).state = .running := ((h.current c s).mp hc).1

theorem Sound.online (h : σ.Sound) (hc : σ.current c = some s) : σ.online c = true := by
  by_contra hoff
  exact absurd ((h.offline c (by simpa using hoff)).symm.trans hc) (by simp)

/-- The table changes, and not who runs where. -/
theorem Sound.of_running (h : σ.Sound) (hf : τ.procs.Fine) (hn : τ.procs.Named)
    (hr : Procs.SameRunning σ.procs τ.procs) (hc : τ.current = σ.current)
    (ho : τ.online = σ.online) (hp : ∀ i, (σ.procs i).state = .running → τ.cpu i = σ.cpu i) :
    τ.Sound where
  fine := hf
  named := hn
  current c s := by
    rw [hc, h.current, hr s]
    exact and_congr_right fun e => by rw [hp s e]
  offline c hoff := by
    rw [hc]
    exact h.offline c (ho ▸ hoff)

/-- Slot `s` is given up by the processor it runs on. -/
theorem Sound.leaves (h : σ.Sound) (hc : σ.current c = some s) (hf : τ.procs.Fine)
    (hn : τ.procs.Named) (hs : (τ.procs s).state ≠ .running)
    (hr : ∀ i, i ≠ s → ((τ.procs i).state = .running ↔ (σ.procs i).state = .running))
    (hcur : ∀ c', c' ≠ c → τ.current c' = σ.current c') (ho : τ.online = σ.online)
    (hp : ∀ i, (σ.procs i).state = .running → τ.cpu i = σ.cpu i) : Between c τ where
  fine := hf
  named := hn
  away c' i := by
    have hsc := (h.current c s).mp hc
    by_cases e : i = s
    · subst e
      refine iff_of_false ?_ fun hr => hs hr.1
      rintro ⟨hne, hcur'⟩
      rw [hcur c' hne] at hcur'
      exact hne (((h.current c' i).mp hcur').2.symm.trans hsc.2)
    · rw [hr i e]
      constructor
      · rintro ⟨hne, hcur'⟩
        rw [hcur c' hne] at hcur'
        obtain ⟨h₁, h₂⟩ := (h.current c' i).mp hcur'
        exact ⟨h₁, (hp i h₁).trans h₂⟩
      · rintro ⟨h₁, h₂⟩
        have hcur' := (h.current c' i).mpr ⟨h₁, (hp i h₁).symm.trans h₂⟩
        have hne : c' ≠ c := fun hcc => by
          rw [hcc, hc] at hcur'
          exact e (Option.some.inj hcur').symm
        exact ⟨hne, (hcur c' hne).trans hcur'⟩
  offline c' hoff := by
    rw [ho] at hoff
    have hne : c' ≠ c := fun e => by
      rw [e, h.online hc] at hoff
      exact absurd hoff (by decide)
    exact ⟨hne, (hcur c' hne).trans (h.offline c' hoff)⟩

/-- A processor that has no slot. -/
theorem Sound.between (h : σ.Sound) (hc : σ.current c = none) (ho : σ.online c = true) :
    Between c σ where
  fine := h.fine
  named := h.named
  away c' s := by
    rw [← h.current c' s]
    refine and_iff_right_of_imp fun hs e => ?_
    rw [e, hc] at hs
    exact absurd hs (by simp)
  offline c' hoff := by
    refine ⟨fun e => ?_, h.offline c' hoff⟩
    rw [e, ho] at hoff
    exact absurd hoff (by decide)

theorem switchFp_fields (c : Nat) (o : Option Nat) (σ : Machine) :
    (σ.switchFp c o).current = σ.current ∧ (σ.switchFp c o).cpu = σ.cpu ∧
      (σ.switchFp c o).online = σ.online ∧ (σ.switchFp c o).ctx = σ.ctx ∧
      (σ.switchFp c o).out = σ.out := by
  rw [switchFp]
  split_ifs <;> exact ⟨rfl, rfl, rfl, rfl, rfl⟩

/-- The processor chooses a slot, or none. -/
theorem Between.dispatch (h : Between c σ) (ws : Wakes) : (σ.dispatch c ws).Sound := by
  have hcalm := dispatch_calm c ws σ
  have hwake : Procs.SameRunning σ.procs (σ.procs.wakeAll ws) := Procs.wakeAll_running ws
  refine ⟨h.fine.congr hcalm.go.same, h.named.same (fun i => (hcalm i).alike) hcalm.go.same,
    fun c' s => ?_, fun c' hoff => ?_⟩
  · rw [Machine.dispatch]
    cases hch : σ.choose (σ.procs.wakeAll ws) with
    | none =>
        simp only [(switchFp_fields c _ σ).2.1]
        rw [hwake s, ← h.away c' s]
        by_cases e : c' = c
        · subst e
          simp
        · rw [Function.update_of_ne e]
          simp [e]
    | some i =>
        have hi : (σ.procs i).state ≠ .running := fun e => by
          have := (hwake i).mpr e
          exact absurd ((choose_some hch).symm.trans this) (by decide)
        simp only
        by_cases es : s = i
        · subst es
          rw [Procs.setState, Procs.edit_self, Function.update_self]
          by_cases e : c' = c
          · subst e
            simp
          · rw [Function.update_of_ne e]
            refine iff_of_false (fun hc' => ?_) fun hc' => e hc'.2.symm
            exact hi ((h.away c' s).mp ⟨e, hc'⟩).1
        · rw [Procs.setState, Procs.edit_of_ne es, Function.update_of_ne es, hwake s,
            ← h.away c' s]
          by_cases e : c' = c
          · subst e
            simp [Ne.symm es]
          · rw [Function.update_of_ne e]
            simp [e]
  · rw [Machine.dispatch] at hoff ⊢
    cases hch : σ.choose (σ.procs.wakeAll ws) with
    | none =>
        rw [hch] at hoff
        simp only [(switchFp_fields c _ σ).2.2.1] at hoff
        obtain ⟨hne, hnone⟩ := h.offline c' hoff
        simp only
        rw [Function.update_of_ne hne, hnone]
    | some i =>
        rw [hch] at hoff
        simp only [(switchFp_fields c _ σ).2.2.1] at hoff
        obtain ⟨hne, hnone⟩ := h.offline c' hoff
        simp only
        rw [Function.update_of_ne hne, hnone]

/-! ### A process ends -/

/-- What the scheduler keeps beside the table stays. -/
structure Beside (σ τ : Machine) : Prop where
  cpu : τ.cpu = σ.cpu
  ctx : τ.ctx = σ.ctx
  fp : τ.fp = σ.fp
  current : τ.current = σ.current
  frame : τ.frame = σ.frame
  fpu : τ.fpu = σ.fpu
  active : τ.active = σ.active
  online : τ.online = σ.online

theorem Beside.refl (σ : Machine) : Beside σ σ := ⟨rfl, rfl, rfl, rfl, rfl, rfl, rfl, rfl⟩

theorem reap_beside (s : Nat) (σ : Machine) : Beside σ (σ.reap s) := by
  have hrecord : Beside σ (σ.recordExit s) := by
    rw [recordExit]
    split <;> exact ⟨rfl, rfl, rfl, rfl, rfl, rfl, rfl, rfl⟩
  rw [reap]
  split_ifs
  · exact ⟨hrecord.1, hrecord.2, hrecord.3, hrecord.4, hrecord.5, hrecord.6, hrecord.7, hrecord.8⟩
  · exact ⟨rfl, rfl, rfl, rfl, rfl, rfl, rfl, rfl⟩

/-- What the end of slot `s` on its processor does to the table. -/
theorem leaveCpu_procs (hrun : (σ.procs s).state = .running) (c : Nat) (mapped : Bool) :
    ∃ ps, Procs.Calm σ.procs ps ∧ Procs.SameRunning σ.procs ps ∧
      (σ.leaveCpu c s mapped).procs = (ps.reap s).1 ∧ Procs.Fates s ps (ps.reap s).1 ∧
      ¬ ((ps.reap s).1 s).Live ∧
      ((ps s).leader = s → ∀ i < MAX_PROCS, i ≠ s → Procs.Dismissed s i (ps.reap s).1) := by
  have hsame : Procs.SameRunning σ.procs (σ.procs.clearTidOf s mapped).1 :=
    Procs.clearTidOf_running s mapped
  exact ⟨_, Procs.clearTidOf_calm s mapped, hsame, rfl,
    Procs.reap_fates (Process.live_of_running ((hsame s).mpr hrun))⟩

/-- Slot `s` ends on the processor that runs it. -/
theorem Sound.leaveCpu (h : σ.Sound) (hc : σ.current c = some s) (mapped : Bool) :
    Between c (σ.leaveCpu c s mapped) := by
  obtain ⟨ps, hcalm, hsame, hprocs, hfates, hover, -⟩ := leaveCpu_procs (h.running hc) c mapped
  have hfine : ps.Fine := h.fine.congr hcalm.go.same
  have hrun : (ps s).state = .running := (hsame s).mpr (h.running hc)
  have hends := Procs.reap_ends hfine (Process.live_of_running hrun)
  refine h.leaves hc ?_ ?_ ?_ (fun i hi => ?_) (fun c' hne => ?_) ?_ ?_
  · rw [hprocs]
    exact hends.fine
  · rw [hprocs]
    exact (h.named.same (fun i => (hcalm i).alike) hcalm.go.same).of_alike
      (fun i => (hfates.fixed i).toAlike) fun i hi => (hends.used i hi).1
  · rw [hprocs]
    exact fun e => hover (Process.live_of_running e)
  · rw [hprocs]
    exact (Iff.intro hfates.running_back fun e => hfates.running e hi).trans (hsame i)
  · rw [Machine.leaveCpu, (reap_beside ..).current]
    exact Function.update_of_ne hne ..
  · exact (reap_beside ..).online
  · exact fun i _ => congrFun (reap_beside ..).cpu i

theorem Sound.exitLocked (h : σ.Sound) (hc : σ.current c = some s) (ws : Wakes) (mapped : Bool) :
    (σ.exitLocked c s ws mapped).Sound := (h.leaveCpu hc mapped).dispatch ws

/-- A slot that is not current here is killed. -/
theorem killOther_fates (hs : (σ.procs s).Live) :
    Procs.Fates s σ.procs (σ.killOther s).procs ∧
      Procs.SameRunning σ.procs (σ.killOther s).procs := by
  rw [killOther]
  by_cases hrun : (σ.procs s).state = .running
  · rw [if_pos hrun]
    exact ⟨Procs.markKilled_fates hrun, Procs.sameRunning_edit .rfl⟩
  · rw [if_neg hrun]
    obtain ⟨hfates, -, -⟩ := Procs.reap_fates hs
    exact ⟨hfates, hfates.sameRunning hrun⟩

theorem killOther_beside (s : Nat) (σ : Machine) : Beside σ (σ.killOther s) := by
  rw [Machine.killOther]
  split_ifs
  · exact ⟨rfl, rfl, rfl, rfl, rfl, rfl, rfl, rfl⟩
  · exact reap_beside s σ

theorem Sound.killOther (h : σ.Sound) (hs : (σ.procs s).Live) : (σ.killOther s).Sound := by
  obtain ⟨hfates, hsame⟩ := killOther_fates hs
  have hused : (σ.killOther s).procs.Fine ∧ ∀ i, ((σ.killOther s).procs i).state ≠ .unused →
      (σ.procs i).state ≠ .unused := by
    rw [Machine.killOther]
    split_ifs with hrun
    · have hsame : (σ.procs.markKilled s).Same σ.procs :=
        Procs.same_edit ⟨.rfl, .rfl, rfl, rfl, rfl, rfl, rfl⟩
      exact ⟨h.fine.congr hsame, fun i => mt (hsame i).unused.mpr⟩
    · have hends := Procs.reap_ends h.fine hs
      exact ⟨hends.fine, fun i hi => (hends.used i hi).1⟩
  have hbeside := killOther_beside s σ
  exact h.of_running hused.1 (h.named.of_alike (fun i => (hfates.fixed i).toAlike) hused.2) hsame
    hbeside.current hbeside.online fun i _ => congrFun hbeside.cpu i

theorem Sound.exitGroup (h : σ.Sound) (hc : σ.current c = some s) (ws : Wakes) (mapped : Bool) :
    (σ.exitGroup c s ws mapped).Sound := by
  rw [Machine.exitGroup]
  by_cases hl : (σ.procs s).leader ≠ s ∧ (σ.procs (σ.procs s).leader).Live
  · simp only [if_pos hl]
    refine (h.killOther hl.2).exitLocked ?_ ws mapped
    rw [(killOther_beside ..).current]
    exact hc
  · simp only [if_neg hl]
    exact h.exitLocked hc ws mapped

/-- The table changes calmly, and the same slots run. -/
theorem Sound.onProcs (h : σ.Sound) {f : Procs → Procs} (hf : Procs.Calm σ.procs (f σ.procs))
    (hr : Procs.SameRunning σ.procs (f σ.procs)) : (σ.onProcs f).Sound :=
  h.of_running (h.fine.congr hf.go.same) (h.named.same (fun i => (hf i).alike) hf.go.same) hr rfl rfl
    fun _ _ => rfl

theorem Sound.killSig (h : σ.Sound) (ws : Wakes) (pid sig : Nat) (mapped : Bool) :
    (σ.killSig c ws pid sig mapped).Sound := by
  rw [Machine.killSig]
  cases hs : σ.procs.slotOf pid with
  | none => exact h
  | some s =>
      have hcalm : Procs.Calm σ.procs (σ.procs.setStatusOf s (sig % 128)) :=
        Procs.setStatusOf_calm s _
      have hstatus : (σ.onProcs (·.setStatusOf s (sig % 128))).Sound :=
        h.onProcs hcalm (Procs.sameRunning_edit .rfl)
      simp only
      split_ifs with hc
      · exact hstatus.exitLocked hc ws mapped
      · exact hstatus.killOther ((hcalm.go.same s).live.mpr (Procs.slotOf_some hs).1)

/-! ### The scheduler -/

/-- Slot `s` waits. -/
theorem Sound.block (h : σ.Sound) (hc : σ.current c = some s) (hf : τ.procs.Fine)
    (hn : τ.procs.Named) (hs : (τ.procs s).state ≠ .running)
    (hr : ∀ i, i ≠ s → ((τ.procs i).state = .running ↔ (σ.procs i).state = .running))
    (hcur : τ.current = σ.current) (ho : τ.online = σ.online)
    (hp : ∀ i, (σ.procs i).state = .running → τ.cpu i = σ.cpu i) (ws : Wakes) : (τ.block c s ws).Sound :=
  Between.dispatch (h.leaves (τ := τ.save c s) hc hf hn hs hr (fun _ _ => congrFun hcur _) ho hp) ws

theorem onProcs_edit (s : Nat) (f : Process → Process) (σ : Machine) :
    (σ.onProcs (·.edit s f)).procs = σ.procs.edit s f := rfl

theorem after_edit (s : Nat) (f : Process → Process) (es : List Effect) (σ : Machine) :
    (σ.after (σ.procs.edit s f, es)).procs = σ.procs.edit s f := rfl

/-- Slot `s` changes its record, and waits. -/
theorem Sound.block_edit (h : σ.Sound) (hc : σ.current c = some s) {f : Process → Process}
    (hτ : τ.procs = σ.procs.edit s f) (hb : Beside σ τ) (ws : Wakes)
    (hf : ∀ p : Process, (f p).mm = p.mm ∧ (f p).members = p.members ∧ (f p).root = p.root ∧
      (f p).asid = p.asid ∧ p.Alike (f p))
    (hs : (f (σ.procs s)).Live ∧ (f (σ.procs s)).state ≠ .running) : (τ.block c s ws).Sound := by
  have hlive := Process.live_of_running (h.running hc)
  obtain ⟨h₁, h₂, h₃, h₄, halike⟩ := hf (σ.procs s)
  have hsame : (σ.procs.edit s f).Same σ.procs := Procs.same_edit
    ⟨iff_of_false hs.1.1 hlive.1, iff_of_false hs.1.2 hlive.2, h₁, h₂, h₃, h₄, halike.leader⟩
  apply h.block hc
  · rw [hτ]
    exact h.fine.congr hsame
  · rw [hτ]
    refine h.named.same (fun i => ?_) hsame
    by_cases e : i = s
    · subst e
      rwa [Procs.edit_self]
    · rw [Procs.edit_of_ne e]
      exact .refl _
  · rw [hτ, Procs.edit_self]
    exact hs.2
  · intro i hi
    rw [hτ, Procs.edit_of_ne hi]
  · exact hb.current
  · exact hb.online
  · exact fun i _ => congrFun hb.cpu i

theorem Sound.schedule (h : σ.Sound) (ho : σ.online c = true) (ws : Wakes) :
    (σ.schedule c ws).Sound := by
  rw [Machine.schedule]
  cases hc : σ.current c with
  | none => exact (h.between hc ho).dispatch ws
  | some s =>
      have hrun := h.running hc
      have hcalm : Procs.Calm σ.procs (σ.procs.setState s .ready) :=
        Procs.setState_calm (.inr (.inl hrun)) (.inl rfl)
      have hnamed : (σ.procs.setState s .ready).Named :=
        h.named.same (fun i => (hcalm i).alike) hcalm.go.same
      simp only [Machine.onProcs, save, hrun, if_true]
      apply Between.dispatch
      refine h.leaves hc (h.fine.congr hcalm.go.same) hnamed ?_ (fun i hi => ?_) (fun _ _ => rfl)
        rfl fun _ _ => rfl
      · simp only [Procs.setState, Procs.edit_self]
        decide
      · simp only [Procs.setState, Procs.edit_of_ne hi]

theorem Sound.enterScheduler (h : σ.Sound) (ho : σ.online c = false) (ws : Wakes) :
    (σ.enterScheduler c ws).Sound := by
  have hcur : Function.update σ.current c none = σ.current := by
    rw [← h.offline c ho]
    exact Function.update_eq_self ..
  rw [Machine.enterScheduler]
  apply Between.dispatch
  refine ⟨h.fine, h.named, fun c' s => ?_, fun c' hoff => ?_⟩
  · simp only [hcur]
    rw [← h.current c' s]
    refine and_iff_right_of_imp fun hs e => ?_
    rw [e, h.offline c ho] at hs
    exact absurd hs (by simp)
  · simp only [hcur] at hoff ⊢
    have hne : c' ≠ c := fun e => by
      rw [e, Function.update_self] at hoff
      exact absurd hoff (by decide)
    rw [Function.update_of_ne hne] at hoff
    exact ⟨hne, h.offline c' hoff⟩

/-! ### A process begins, or gets a new image -/

theorem Sound.begins (h : σ.Sound) {r : Option Nat × Procs} (hnone : r.1 = none → r.2 = σ.procs)
    (hsome : ∀ i, r.1 = some i → r.2.Fine ∧ Procs.Born σ.procs i r.2) (ctx fp : Nat) :
    (σ.begins r ctx fp).Sound := by
  rw [Machine.begins]
  cases hr : r.1 with
  | none =>
      have hprocs := hnone hr
      exact h.of_running (by rw [hprocs]; exact h.fine) (by rw [hprocs]; exact h.named)
        (by rw [hprocs]; exact .refl _) rfl rfl fun _ _ => rfl
  | some i =>
      obtain ⟨hf, hb⟩ := hsome i hr
      refine h.of_running hf (h.named.born hb) hb.running rfl rfl fun j hj => ?_
      exact Function.update_of_ne (hb.ne (Process.live_of_running hj)) ..

theorem Sound.createEx (h : σ.Sound) (root asid ctx : Nat) :
    (σ.begins (σ.procs.createEx (σ.current c) root asid) ctx 0).Sound := by
  refine h.begins Procs.createEx_none (fun i hi => ?_) ctx 0
  have hr : σ.procs.createEx (σ.current c) root asid = (some i, _) := Prod.ext hi rfl
  exact ⟨(h.fine.createEx hr).1.fine, (Procs.createEx_born hr).1⟩

theorem Sound.threadCreate (h : σ.Sound) (hc : σ.current c = some s) (ctx fp clearTid : Nat) :
    (σ.begins (σ.procs.threadCreate s clearTid) ctx fp).Sound := by
  have hlive := Process.live_of_running (h.running hc)
  refine h.begins Procs.threadCreate_none (fun i hi => ?_) ctx fp
  have hr : σ.procs.threadCreate s clearTid = (some i, _) := Prod.ext hi rfl
  exact ⟨(h.fine.threadCreate hlive hr).1.fine,
    (Procs.threadCreate_born (h.fine.owner s hlive.1).1 hr).1⟩

theorem Sound.fork (h : σ.Sound) (hc : σ.current c = some s) (root asid ctx fp clearTid : Nat) :
    (σ.begins (σ.procs.fork s (some (root, asid)) clearTid) ctx fp).Sound := by
  refine h.begins Procs.fork_none (fun i hi => ?_) ctx fp
  have hr : σ.procs.fork s (some (root, asid)) clearTid = (some i, _) := Prod.ext hi rfl
  exact ⟨(h.fine.fork (Process.live_of_running (h.running hc)) hr).1.fine,
    (Procs.fork_born hr).1⟩

theorem Sound.vfork (h : σ.Sound) (hc : σ.current c = some s) (ctx clearTid : Nat) (ws : Wakes) :
    (σ.vfork c s ws ctx clearTid).Sound := by
  rw [Machine.vfork]
  cases hr : (σ.procs.fork s none clearTid).1 with
  | none =>
      simp only
      exact h.begins Procs.fork_none (fun i hi => absurd (hr.symm.trans hi) (by simp)) ctx _
  | some i =>
      have hq : σ.procs.fork s none clearTid = (some i, _) := Prod.ext hr rfl
      obtain ⟨rs, hb, -, -, -, hqs⟩ := Procs.vfork_born hq
      have hlive := Process.live_of_running (h.running hc)
      have hf := (h.fine.fork hlive hq).1.fine
      have hsi : s ≠ i := hb.ne hlive
      rw [hqs] at hf
      have hsends : ¬ ((rs.setState s .vforkWait) s).state.Sends := by
        simp only [Procs.setState, Procs.edit_self]
        decide
      have hgo := (Procs.setRet_calm hsends ((rs.setState s .vforkWait) i).pid).go
      have hsame : Procs.Same (rs.setState s .vforkWait) rs := by
        refine Procs.same_setState ?_ (by decide) (by decide)
        rw [hb.others s hsi]
        exact hlive
      have hnamed : (rs.setState s .vforkWait).Named :=
        (h.named.born hb).same (fun j => by
          by_cases e : j = s
          · subst e
            rw [Procs.setState, Procs.edit_self]
            exact ⟨rfl, rfl, rfl, rfl⟩
          · rw [Procs.setState, Procs.edit_of_ne e]
            exact .refl _) hsame
      have hnamed' := hnamed.same (fun j => (hgo j).alike) hgo.same
      simp only [Machine.begins, hr, hqs, Machine.onProcs]
      apply h.block hc
      · exact hf.congr hgo.same
      · exact hnamed'
      · simp only [Procs.setRet, Procs.setState, Procs.edit_self]
        decide
      · intro j hj
        simp only [Procs.setRet, Procs.setState, Procs.edit_of_ne hj]
        exact hb.running j
      · rfl
      · rfl
      · exact fun j hj => Function.update_of_ne (hb.ne (Process.live_of_running hj)) ..

/-- The process of slot `s` gets a new image, or not. -/
theorem Sound.execReplace (h : σ.Sound) (hc : σ.current c = some s) (root asid ctx : Nat) :
    (σ.execReplace c s root asid ctx).Sound := by
  have hrun := h.running hc
  obtain ⟨rs, hfates, hs, -, hfail, hdone⟩ := Procs.execReplace_fates root asid h.fine hrun
  obtain ⟨t, hends, -, hfail', hdone'⟩ :=
    Procs.execReplace_spec root asid h.fine (Process.live_of_running hrun)
  have hsame : Procs.SameRunning σ.procs rs := fun i => by
    by_cases e : i = s
    · subst e
      exact iff_of_true hs hrun
    · exact ⟨hfates.running_back, fun hi => hfates.running hi e⟩
  have hnamed : ∀ qs : Procs, (∀ i, (rs i).Alike (qs i)) →
      (∀ i, (qs i).state ≠ .unused → (σ.procs i).state ≠ .unused) → qs.Named := fun qs ha hu =>
    h.named.of_alike (fun i => (hfates.fixed i).toAlike.trans (ha i)) hu
  rw [Machine.execReplace]
  cases hr : (σ.procs.execReplace s root asid).1 with
  | false =>
      simp only [Bool.false_eq_true, if_false]
      have hrs : t.1 = rs := (hfail' hr).symm.trans (hfail hr)
      refine h.of_running ?_ ?_ ?_ rfl rfl fun _ _ => rfl
      · simp only [after, hfail hr, ← hrs]
        exact hends.fine
      · simp only [after, hfail hr]
        refine hnamed rs (fun i => .refl _) fun i hi => (hends.used i ?_).1
        rwa [hrs]
      · simp only [after, hfail hr]
        exact hsame
  | true =>
      simp only [if_true]
      obtain ⟨-, -, hexecs⟩ := hdone hr
      obtain ⟨hbegins, -⟩ := hdone' hr
      refine h.of_running hbegins.fine (hnamed _ hexecs.alike fun i hi => ?_)
        (hsame.trans hexecs.running) rfl rfl fun _ _ => rfl
      by_cases e : i = s
      · rw [e, hrun]
        decide
      · exact (hends.used i (mt (hbegins.others i e).1.mpr hi)).1

/-! ### Messages -/

theorem Sound.delivers (h : σ.Sound) {r : Nat} {m : Message} {qs : Procs}
    (hd : Procs.Delivers s r m σ.procs qs) : qs.Fine ∧ qs.Named :=
  ⟨h.fine.congr hd.same, h.named.same (fun i => (hd.kept i).1) hd.same⟩

theorem Sound.setRet (h : σ.Sound) (hs : ¬ (σ.procs s).state.Sends) (v : Nat) :
    (σ.onProcs (·.setRet s v)).Sound :=
  h.onProcs (Procs.setRet_calm hs v) (Procs.sameRunning_edit .rfl)

theorem sends_running (h : (σ.procs s).state = .running) : ¬ (σ.procs s).state.Sends := by
  rw [h]
  decide

/-- The current process sends. -/
theorem Sound.ipcSend (h : σ.Sound) (hc : σ.current c = some s) (dstPid : Nat) (msg : Message)
    (msgPtr : Nat) (ws : Wakes) : (σ.ipcSend c s ws dstPid msg msgPtr).Sound := by
  have hrun := h.running hc
  obtain ⟨-, hdone⟩ := Procs.ipcSend_spec dstPid msgPtr msg hrun
  rw [Machine.ipcSend]
  cases hr : (σ.procs.ipcSend s dstPid msg msgPtr).1 with
  | false =>
      simp only [Bool.false_eq_true, if_false]
      exact h.setRet (sends_running hrun) _
  | true =>
      simp only [if_true]
      obtain ⟨d, -, hne, hd | hd⟩ := hdone hr
      · obtain ⟨hf, hn⟩ := h.delivers hd
        apply h.block hc hf hn
        · exact fun e => absurd (hd.sender_state.symm.trans e) (by decide)
        · exact fun i hi => hd.running hi
        · rfl
        · rfl
        · exact fun _ _ => rfl
      · refine h.block_edit hc hd ?_ ws ?_ ?_
        · exact ⟨rfl, rfl, rfl, rfl, rfl, rfl, rfl, rfl⟩
        · exact fun _ => ⟨rfl, rfl, rfl, rfl, rfl, rfl, rfl, rfl⟩
        · exact ⟨⟨nofun, nofun⟩, nofun⟩

/-- The current process takes a message, and goes on. -/
theorem Sound.accepts (h : σ.Sound) {r : Nat} {m : Message}
    (hd : Procs.Delivers s r m σ.procs τ.procs) (hs : (σ.procs s).state = .sendBlocked)
    (hr : (τ.procs r).state = .running) (hb : Beside σ τ) (v : Nat) :
    (τ.onProcs (·.setRet r v)).Sound := by
  obtain ⟨hf, hn⟩ := h.delivers hd
  have hsound : τ.Sound := h.of_running hf hn (fun i => by
    by_cases e : i = s
    · rw [e, hd.sender_state, hs]
      decide
    · exact hd.running e) hb.current hb.online fun i _ => congrFun hb.cpu i
  exact hsound.setRet (sends_running hr) v

theorem Sound.ipcTryRecv (h : σ.Sound) (hc : σ.current c = some s) (msgPtr : Nat) :
    (σ.ipcTryRecv s msgPtr).Sound := by
  have hrun := h.running hc
  rw [Machine.ipcTryRecv]
  cases hs : σ.procs.findSender s with
  | none => exact h.setRet (sends_running hrun) _
  | some i =>
      obtain ⟨hi, hto⟩ := Procs.findSender_some hs
      have hd := Procs.acceptFrom_delivers msgPtr hi hto hrun
      refine h.accepts (τ := σ.after (σ.procs.acceptFrom s i msgPtr).2) hd hi ?_ ?_ _
      · exact (hd.running (Ne.symm hd.ne)).mpr hrun
      · exact ⟨rfl, rfl, rfl, rfl, rfl, rfl, rfl, rfl⟩

theorem Sound.ipcRecv (h : σ.Sound) (hc : σ.current c = some s) (msgPtr : Nat) (ws : Wakes) :
    (σ.ipcRecv c s ws msgPtr).Sound := by
  have hrun := h.running hc
  rw [Machine.ipcRecv, Procs.ipcRecv]
  cases hs : σ.procs.findSender s with
  | none =>
      simp only
      refine h.block_edit hc (after_edit ..) ?_ ws ?_ ?_
      · exact ⟨rfl, rfl, rfl, rfl, rfl, rfl, rfl, rfl⟩
      · exact fun _ => ⟨rfl, rfl, rfl, rfl, rfl, rfl, rfl, rfl⟩
      · exact ⟨⟨nofun, nofun⟩, nofun⟩
  | some i =>
      obtain ⟨hi, hto⟩ := Procs.findSender_some hs
      have hd := Procs.acceptFrom_delivers msgPtr hi hto hrun
      refine h.accepts (τ := σ.after (σ.procs.acceptFrom s i msgPtr).2) hd hi ?_ ?_ _
      · exact (hd.running (Ne.symm hd.ne)).mpr hrun
      · exact ⟨rfl, rfl, rfl, rfl, rfl, rfl, rfl, rfl⟩

theorem Sound.ipcReply (h : σ.Sound) (hc : σ.current c = some s) (toPid : Nat) (msg : Message) :
    (σ.ipcReply s toPid msg).Sound := by
  have hrun := h.running hc
  rw [Machine.ipcReply]
  rcases Procs.ipcReply_spec σ.procs s toPid msg with hr | ⟨t, -, ht, -, hr⟩
  · have hsound : (σ.after (σ.procs.ipcReply s toPid msg)).Sound := by
      refine h.of_running ?_ ?_ ?_ rfl rfl fun _ _ => rfl <;> simp only [after, hr]
      · exact h.fine
      · exact h.named
      · exact .refl _
    refine hsound.setRet (sends_running ?_) 0
    simp only [after, hr]
    exact hrun
  · have hts : s ≠ t := fun e => by
      rw [e, ht] at hrun
      exact absurd hrun (by decide)
    have hlive : (σ.procs t).Live := State.live_of_eq ht (by decide) (by decide)
    have hsame : (σ.procs.edit t fun q => { q with reply := msg, ret := 0, state := .ready }).Same
        σ.procs := Procs.same_edit
      ⟨iff_of_false nofun hlive.1, iff_of_false nofun hlive.2, rfl, rfl, rfl, rfl, rfl⟩
    have hsound : (σ.after (σ.procs.ipcReply s toPid msg)).Sound := by
      refine h.of_running ?_ ?_ ?_ rfl rfl fun _ _ => rfl <;> simp only [after, hr]
      · exact h.fine.congr hsame
      · refine h.named.same (fun i => ?_) hsame
        by_cases e : i = t
        · subst e
          rw [Procs.edit_self]
          exact ⟨rfl, rfl, rfl, rfl⟩
        · rw [Procs.edit_of_ne e]
          exact .refl _
      · exact Procs.sameRunning_edit (iff_of_false nofun (by rw [ht]; decide))
    refine hsound.setRet (sends_running ?_) 0
    simp only [after, hr, Procs.edit_of_ne hts]
    exact hrun

/-! ### The exits of children -/

/-- An answer of a `wait` changes no slot but by its result. -/
theorem Sound.answer (h : σ.Sound) (hc : σ.current c = some s) {v : Nat}
    (hτ : τ.procs = σ.procs.setRet s v) (hb : Beside σ τ) : τ.Sound := by
  have hcalm : Procs.Calm σ.procs (σ.procs.setRet s v) :=
    Procs.setRet_calm (sends_running (h.running hc)) v
  refine h.of_running ?_ ?_ ?_ hb.current hb.online fun i _ => congrFun hb.cpu i <;> rw [hτ]
  · exact h.fine.congr hcalm.go.same
  · exact h.named.same (fun i => (hcalm i).alike) hcalm.go.same
  · exact Procs.sameRunning_edit .rfl

theorem Sound.waitChild (h : σ.Sound) (hc : σ.current c = some s) (pid : Option Nat)
    (statusPtr : Nat) (nohang : Bool) (ws : Wakes) :
    (σ.waitChild c s ws pid statusPtr nohang).Sound := by
  rw [Machine.waitChild]
  cases σ.findExit (σ.procs.leaderPid s) pid with
  | some x => exact h.answer hc rfl ⟨rfl, rfl, rfl, rfl, rfl, rfl, rfl, rfl⟩
  | none =>
      simp only
      by_cases hchild : σ.procs.hasChild (σ.procs.leaderPid s) pid
      · rw [if_neg (not_not.mpr hchild)]
        split_ifs
        · exact h.answer hc rfl ⟨rfl, rfl, rfl, rfl, rfl, rfl, rfl, rfl⟩
        · refine h.block_edit hc (onProcs_edit ..) ?_ ws ?_ ?_
          · exact ⟨rfl, rfl, rfl, rfl, rfl, rfl, rfl, rfl⟩
          · exact fun _ => ⟨rfl, rfl, rfl, rfl, rfl, rfl, rfl, rfl⟩
          · exact ⟨⟨by simp, by simp⟩, by simp⟩
      · rw [if_pos hchild]
        exact h.answer hc rfl ⟨rfl, rfl, rfl, rfl, rfl, rfl, rfl, rfl⟩

theorem Sound.waitidChild (h : σ.Sound) (hc : σ.current c = some s) (pid : Option Nat)
    (nohang nowait : Bool) (ws : Wakes) : (σ.waitidChild c s ws pid nohang nowait).Sound := by
  cases hf : σ.findExit (σ.procs.leaderPid s) pid with
  | some x =>
      simp only [Machine.waitidChild, hf]
      split_ifs <;> exact h.answer hc rfl ⟨rfl, rfl, rfl, rfl, rfl, rfl, rfl, rfl⟩
  | none => exact Machine.waitidChild_none c s ws _ hf ▸ h.waitChild hc pid _ nohang ws

/-! ### Every event -/

theorem Sound.call (h : σ.Sound) (hc : σ.current c = some s) {k : Call}
    (hk : σ.call c s ws k = some τ) : τ.Sound := by
  have hrun := h.running hc
  cases k with
  | threadCreate ctx => exact Option.some.inj hk ▸ h.threadCreate hc ctx 0 0
  | cloneThread ctx clearTid => exact Option.some.inj hk ▸ h.threadCreate hc ctx _ clearTid
  | fork root asid ctx clearTid => exact Option.some.inj hk ▸ h.fork hc root asid ctx _ clearTid
  | vfork ctx clearTid => exact Option.some.inj hk ▸ h.vfork hc ctx clearTid ws
  | execReplace root asid ctx => exact Option.some.inj hk ▸ h.execReplace hc root asid ctx
  | ipcSend dstPid msg msgPtr => exact Option.some.inj hk ▸ h.ipcSend hc dstPid msg msgPtr ws
  | ipcRecv msgPtr => exact Option.some.inj hk ▸ h.ipcRecv hc msgPtr ws
  | ipcTryRecv msgPtr => exact Option.some.inj hk ▸ h.ipcTryRecv hc msgPtr
  | ipcReply toPid msg => exact Option.some.inj hk ▸ h.ipcReply hc toPid msg
  | waitChild pid statusPtr nohang =>
      exact Option.some.inj hk ▸ h.waitChild hc pid statusPtr nohang ws
  | waitidChild pid nohang nowait =>
      exact Option.some.inj hk ▸ h.waitidChild hc pid nohang nowait ws
  | futexWait addr =>
      rw [← Option.some.inj hk]
      refine h.block_edit hc (onProcs_edit ..) ?_ ws ?_ ?_
      · exact ⟨rfl, rfl, rfl, rfl, rfl, rfl, rfl, rfl⟩
      · exact fun _ => ⟨rfl, rfl, rfl, rfl, rfl, rfl, rfl, rfl⟩
      · exact ⟨⟨nofun, nofun⟩, nofun⟩
  | futexWake addr n =>
      exact Option.some.inj hk ▸ h.onProcs (Procs.futexWake_calm _ _ _) (Procs.futexWake_running _ _ _)
  | pause st ret =>
      obtain ⟨hst, hk⟩ := (Option.ite_none_right_eq_some ..).mp hk
      have hlive : st ≠ .unused ∧ st ≠ .zombie ∧ st ≠ .running := by
        rcases hst with rfl | rfl | rfl <;> decide
      rw [← Option.some.inj hk]
      refine h.block_edit hc (onProcs_edit ..) ?_ ws ?_ ?_
      · exact ⟨rfl, rfl, rfl, rfl, rfl, rfl, rfl, rfl⟩
      · exact fun _ => ⟨rfl, rfl, rfl, rfl, rfl, rfl, rfl, rfl⟩
      · exact ⟨⟨hlive.1, hlive.2.1⟩, hlive.2.2⟩
  | setStatus status group =>
      refine Option.some.inj hk ▸ h.onProcs ?_ ?_
      · split_ifs
        · exact Procs.setStatusOf_calm s status
        · exact .refl _
      · split_ifs
        · exact Procs.sameRunning_edit .rfl
        · exact .refl _
  | setClearTid addr =>
      exact Option.some.inj hk ▸ h.onProcs (Procs.calm_edit_own hrun rfl)
        (Procs.sameRunning_edit .rfl)
  | exitIfKilled mapped =>
      rw [← Option.some.inj hk, exitIfKilled]
      split_ifs
      · exact h.exitLocked hc ws mapped
      · exact h
  | exitCurrent mapped => exact Option.some.inj hk ▸ h.exitLocked hc ws mapped
  | exitGroup mapped => exact Option.some.inj hk ▸ h.exitGroup hc ws mapped

theorem Sound.act (h : σ.Sound) {e : Event} (he : σ.act e = some τ) : τ.Sound := by
  cases e with
  | enterScheduler c ws =>
      obtain ⟨hoff, hτ⟩ := (Option.ite_none_left_eq_some ..).mp he
      exact Option.some.inj hτ ▸ h.enterScheduler (by simpa using hoff) ws
  | schedule c ws =>
      obtain ⟨hon, hτ⟩ := (Option.ite_none_right_eq_some ..).mp he
      exact Option.some.inj hτ ▸ h.schedule hon ws
  | onIpi c ws =>
      obtain ⟨hon, hτ⟩ := (Option.ite_none_right_eq_some ..).mp he
      rw [← Option.some.inj hτ, onIpi]
      split_ifs with hc
      · exact (h.between hc hon).dispatch ws
      · exact h
  | user c frame fpu =>
      obtain ⟨-, hτ⟩ := (Option.ite_none_left_eq_some ..).mp he
      exact Option.some.inj hτ ▸ ⟨h.fine, h.named, h.current, h.offline⟩
  | createEx c root asid ctx => exact Option.some.inj he ▸ h.createEx root asid ctx
  | killSig c pid sig mapped ws =>
      obtain ⟨-, hτ⟩ := (Option.ite_none_right_eq_some ..).mp he
      exact Option.some.inj hτ ▸ h.killSig ws pid sig mapped
  | call c k ws =>
      obtain ⟨s, hc, hk⟩ := Option.bind_eq_some_iff.mp he
      exact h.call hc hk
  | wake ws =>
      exact Option.some.inj he ▸ h.onProcs (Procs.wakeAll_calm ws) (Procs.wakeAll_running ws)

/-- One event keeps what holds. -/
theorem Sound.step (h : σ.Sound) {e : Event} (he : σ.step e = some τ) : τ.Sound :=
  Sound.act (σ := { σ with out := [] }) ⟨h.fine, h.named, h.current, h.offline⟩ he

/-- The states of the runs whose events satisfy `P`. -/
abbrev Reached (P : Machine → Event → Prop) : Machine → Prop :=
  Runs.Reached Machine.step (· = boot) P

end Machine

end Pulsar.Proc

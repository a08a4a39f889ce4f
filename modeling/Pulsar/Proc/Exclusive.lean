import Pulsar.Proc.Sound

/-!
# One processor for each slot (`process.rs`)

A slot that runs elsewhere is not ended: it is marked, and ends when its processor enters the kernel
(`exit_if_killed`).  Between that check and the switch to another slot the lock is free, so a slot
can be marked after the check and given up with the mark.

* `Exclusive`, `Follows`: what the scheduler promises, of a state and of a step.
* `slots_exclusive`: no processor gives up a slot that is marked, and the promise is kept.
* `killed_dispatched`: a slot is marked, given up and dispatched again.
-/

namespace Pulsar.Proc

namespace Machine

variable {σ τ μ : Machine} {c s i : Nat} {ws : Wakes} {R : Nat → Prop}

/-- The processor of an event. -/
def Event.cpu : Event → Option Nat
  | .enterScheduler c _ | .schedule c _ | .onIpi c _ | .user c _ _ | .createEx c _ _ _
  | .killSig c _ _ _ _ | .call c _ _ => some c
  | .wake _ => none

/-- The call makes slot `s` wait. -/
def Call.Waits (σ : Machine) (s : Nat) : Call → Prop
  | .vfork _ _ => σ.procs.freeSlot ≠ none
  | .ipcSend dstPid _ _ => ∃ d ∈ σ.procs.slotOf dstPid, d ≠ s
  | .ipcRecv _ => σ.procs.findSender s = none
  | .waitChild pid _ nohang | .waitidChild pid nohang _ =>
    σ.findExit (σ.procs.leaderPid s) pid = none ∧ σ.procs.hasChild (σ.procs.leaderPid s) pid ∧
      nohang = false
  | .futexWait _ | .pause _ _ => True
  | _ => False

/-- No processor gives up a slot that is marked. -/
def HandsOver (σ : Machine) : Event → Prop
  | .schedule c _ => ∀ s ∈ σ.current c, (σ.procs s).killed = false
  | .call c k _ => ∀ s ∈ σ.current c, k.Waits σ s → (σ.procs s).killed = false
  | _ => True

instance (σ : Machine) (s : Nat) (k : Call) : Decidable (k.Waits σ s) := by
  cases k <;> unfold Call.Waits <;> infer_instance

instance (σ : Machine) (e : Event) : Decidable (HandsOver σ e) := by
  cases e <;> unfold HandsOver <;> infer_instance

/-- The current process of the event's processor changes its own registers. -/
def Event.Changes (σ : Machine) (s : Nat) : Event → Prop
  | .user c _ _ | .call c (.execReplace _ _ _) _ => σ.current c = some s
  | _ => False

/-- The registers of slot `s`: those of the processor that runs it, or those that are saved. -/
def regs (σ : Machine) (s : Nat) : Nat × Nat :=
  if (σ.procs s).state = .running then (σ.frame (σ.cpu s), σ.fpu (σ.cpu s)) else (σ.ctx s, σ.fp s)

/-- Each slot that runs is the current one of one processor, which its `cpu` names, and a slot that
is marked runs, and is not dispatched. -/
structure Exclusive (σ : Machine) : Prop where
  one : ∀ s, (σ.procs s).state = .running ↔ ∃! c, σ.current c = some s
  cpu : ∀ c s, σ.current c = some s → σ.cpu s = c
  killed : ∀ s, (σ.procs s).killed = true → (σ.procs s).state = .running
  dispatched : ∀ c s, .dispatched c s ∈ σ.out →
    σ.current c = some s ∧ (σ.procs s).killed = false

/-- An event leaves the registers of every process as they are, but for those that the process
changes itself, and a slot that is marked stays with its process on its processor until that
processor ends it. -/
structure Follows (σ : Machine) (e : Event) (τ : Machine) : Prop where
  regs : ∀ s, (σ.procs s).Live → (τ.procs s).Live → ¬ e.Changes σ s → τ.regs s = σ.regs s
  killed : ∀ s, (σ.procs s).killed = true →
    (τ.procs s).state = .running ∧ τ.cpu s = σ.cpu s ∧ (τ.procs s).pid = (σ.procs s).pid ∨
    ¬ (τ.procs s).Live ∧ e.cpu = some (σ.cpu s)

/-- No slot was dispatched in this event. -/
def Quiet (σ : Machine) : Prop := ∀ c s, .dispatched c s ∉ σ.out

/-- A slot that is marked runs. -/
def Marked (σ : Machine) : Prop :=
  ∀ s, (σ.procs s).killed = true → (σ.procs s).state = .running

/-- What an event of processor `c` does to the slots that run and to the registers of those outside
`R`. -/
structure Turn (c : Option Nat) (R : Nat → Prop) (σ τ : Machine) : Prop where
  runs : ∀ s, (σ.procs s).state = .running →
    (τ.procs s).state = .running ∧ τ.cpu s = σ.cpu s ∧ (τ.procs s).pid = (σ.procs s).pid ∨
    c = some (σ.cpu s) ∧ ((σ.procs s).killed = true → ¬ (τ.procs s).Live)
  marked : τ.Marked
  dispatched : ∀ c s, .dispatched c s ∈ τ.out → τ.current c = some s ∧ (τ.procs s).killed = false
  regs : ∀ s, (σ.procs s).Live → (τ.procs s).Live → ¬ R s → τ.regs s = σ.regs s

/-- The event that leads to `μ`, where processor `c` has given up its slot. -/
structure Yields (c : Nat) (R : Nat → Prop) (σ μ : Machine) : Prop where
  away : ∀ s, (μ.procs s).state = .running → μ.cpu s ≠ c
  runs : ∀ s, (σ.procs s).state = .running →
    (μ.procs s).state = .running ∧ μ.cpu s = σ.cpu s ∧ (μ.procs s).pid = (σ.procs s).pid ∨
    σ.cpu s = c ∧ ((σ.procs s).killed = true → ¬ (μ.procs s).Live)
  marked : μ.Marked
  quiet : μ.Quiet
  regs : ∀ s, (σ.procs s).Live → (μ.procs s).Live → ¬ R s → σ.regs s =
    if (μ.procs s).state = .running then (μ.frame (μ.cpu s), μ.fpu (μ.cpu s))
    else (μ.ctx s, if μ.current c = some s then μ.fpu c else μ.fp s)

/-- Processor `c`, which ran slot `μ.current c`, goes on with slot `o`. -/
structure Chosen (c : Nat) (o : Option Nat) (μ τ : Machine) : Prop where
  ready : ∀ i ∈ o, (μ.procs i).state ≠ .running
  running : ∀ i, (τ.procs i).state = .running ↔ (μ.procs i).state = .running ∨ o = some i
  current : τ.current = Function.update μ.current c o
  cpu : ∀ i, τ.cpu i = if o = some i then c else μ.cpu i
  out : τ.out = μ.out ++ o.toList.map (.dispatched c)
  ctx : τ.ctx = μ.ctx
  frame : τ.frame = Function.update μ.frame c (o.elim 0 μ.ctx)
  fp : ∀ i, o ≠ some i → τ.fp i = if μ.current c = some i then μ.fpu c else μ.fp i
  fpu : ∀ c', c' ≠ c → τ.fpu c' = μ.fpu c'
  fpuOwn : ∀ i ∈ o, τ.fpu c = if μ.current c = some i then μ.fpu c else μ.fp i

/-- The registers of floating point go with the slot. -/
theorem switchFp_spec (c : Nat) (o : Option Nat) (μ : Machine) :
    (∀ i, o ≠ some i →
      (μ.switchFp c o).fp i = if μ.current c = some i then μ.fpu c else μ.fp i) ∧
    (∀ c', c' ≠ c → (μ.switchFp c o).fpu c' = μ.fpu c') ∧
    ∀ i ∈ o, (μ.switchFp c o).fpu c = if μ.current c = some i then μ.fpu c else μ.fp i := by
  rw [switchFp]
  by_cases ho : o = μ.current c
  · rw [if_pos ho]
    refine ⟨fun i hi => ?_, fun _ _ => rfl, fun i hi => ?_⟩
    · rw [if_neg (ho ▸ hi)]
    · rw [if_pos (ho ▸ hi)]
  · rw [if_neg ho]
    refine ⟨fun i hi => ?_, fun c' hne => ?_, fun i hi => ?_⟩
    · cases hc : μ.current c with
      | none => simp
      | some p =>
          by_cases e : i = p
          · subst e
            simp
          · simp [Function.update_of_ne e, Ne.symm e]
    · cases o with
      | none => rfl
      | some i => exact Function.update_of_ne hne ..
    · obtain rfl : o = some i := hi
      rw [if_neg fun e => ho e.symm]
      cases hc : μ.current c with
      | none => simp
      | some p =>
          have hip : i ≠ p := fun e => ho (by rw [hc, e])
          simp [Function.update_of_ne hip]

theorem dispatch_chosen (c : Nat) (ws : Wakes) (μ : Machine) :
    ∃ o, Chosen c o μ (μ.dispatch c ws) := by
  have hwake : Procs.SameRunning μ.procs (μ.procs.wakeAll ws) := Procs.wakeAll_running ws
  obtain ⟨hfp, hfpu, hown⟩ := switchFp_spec c (μ.choose (μ.procs.wakeAll ws)) μ
  obtain ⟨-, hcpu, -, hctx, hout⟩ := switchFp_fields c (μ.choose (μ.procs.wakeAll ws)) μ
  refine ⟨μ.choose (μ.procs.wakeAll ws), ?_⟩
  rw [dispatch]
  cases ho : μ.choose (μ.procs.wakeAll ws) with
  | none =>
      rw [ho] at hfp hfpu hown hcpu hctx hout
      refine ⟨by simp, fun i => ?_, rfl, fun i => ?_, ?_, hctx, rfl, hfp, hfpu, by simp⟩
      · simp [hwake i]
      · simp [hcpu]
      · simp [hout]
  | some j =>
      rw [ho] at hfp hfpu hown hctx
      have hj : (μ.procs j).state ≠ .running := fun e =>
        absurd ((choose_some ho).symm.trans ((hwake j).mpr e)) (by decide)
      refine ⟨fun i hi => ?_, fun i => ?_, rfl, fun i => ?_, rfl, hctx, rfl, hfp, hfpu, hown⟩
      · obtain rfl := Option.some.inj hi
        exact hj
      · by_cases e : i = j
        · subst e
          simp [Procs.setState]
        · simp [Procs.setState, Procs.edit_of_ne e, hwake i, Ne.symm e]
      · by_cases e : i = j
        · subst e
          simp
        · simp [Function.update_of_ne e, Ne.symm e]

/-- The event ends with `dispatch`. -/
theorem Yields.dispatch (h : Yields c R σ μ) (ws : Wakes) :
    Turn (some c) R σ (μ.dispatch c ws) := by
  obtain ⟨o, ho⟩ := dispatch_chosen c ws μ
  have hcalm := dispatch_calm c ws μ
  have hlive : ∀ i, ((μ.dispatch c ws).procs i).Live ↔ (μ.procs i).Live := fun i =>
    (hcalm i).same.live
  have hkilled : ∀ i, ((μ.dispatch c ws).procs i).killed = (μ.procs i).killed := fun i =>
    (hcalm i).killed
  refine ⟨fun s hs => ?_, fun s hs => ?_, fun c' s hs => ?_, fun s hs hs' hR => ?_⟩
  · rcases h.runs s hs with ⟨h₁, h₂, h₃⟩ | ⟨h₁, h₂⟩
    · have hne : o ≠ some s := fun e => ho.ready s e h₁
      exact .inl ⟨(ho.running s).mpr (.inl h₁), by rw [ho.cpu, if_neg hne, h₂],
        (hcalm s).alike.pid.trans h₃⟩
    · exact .inr ⟨by rw [h₁], fun hk => by rw [hlive]; exact h₂ hk⟩
  · rw [hkilled] at hs
    exact (ho.running s).mpr (.inl (h.marked s hs))
  · rw [ho.out] at hs
    rcases List.mem_append.mp hs with hs | hs
    · exact absurd hs (h.quiet c' s)
    · obtain ⟨i, hi, he⟩ := List.mem_map.mp hs
      obtain ⟨rfl, rfl⟩ := Output.dispatched.inj he
      have hio : o = some i := Option.mem_toList.mp hi
      refine ⟨by rw [ho.current, Function.update_self, hio], ?_⟩
      rw [hkilled, Bool.eq_false_iff]
      exact fun hk => ho.ready i hio (h.marked i hk)
  · rw [hlive] at hs'
    rw [h.regs s hs hs' hR, Machine.regs]
    by_cases hrun : (μ.procs s).state = .running
    · have hne : o ≠ some s := fun e => ho.ready s e hrun
      have hcpu : (μ.dispatch c ws).cpu s = μ.cpu s := by rw [ho.cpu, if_neg hne]
      rw [if_pos hrun, if_pos ((ho.running s).mpr (.inl hrun)), hcpu, ho.frame,
        Function.update_of_ne (h.away s hrun), ho.fpu _ (h.away s hrun)]
    · rw [if_neg hrun]
      by_cases hos : o = some s
      · have hcpu : (μ.dispatch c ws).cpu s = c := by rw [ho.cpu, if_pos hos]
        rw [if_pos ((ho.running s).mpr (.inr hos)), hcpu, ho.frame, Function.update_self,
          ho.fpuOwn s hos, hos]
        rfl
      · rw [if_neg fun e => ((ho.running s).mp e).elim hrun hos, ho.ctx, ho.fp s hos]

/-! ### Events that leave every processor its slot -/

theorem Beside.regs (h : Beside σ τ) (hrun : Procs.SameRunning σ.procs τ.procs) (s : Nat) :
    τ.regs s = σ.regs s := by
  simp only [Machine.regs, hrun s, h.frame, h.cpu, h.fpu, h.ctx, h.fp]

/-- Every processor keeps its slot. -/
structure Aside (R : Nat → Prop) (σ τ : Machine) : Prop where
  running : Procs.SameRunning σ.procs τ.procs
  cpu : ∀ s, (σ.procs s).state = .running → τ.cpu s = σ.cpu s
  pid : ∀ s, (σ.procs s).state = .running → (τ.procs s).pid = (σ.procs s).pid
  killed : ∀ s, (τ.procs s).killed = true → (σ.procs s).killed = true ∨
    (σ.procs s).state = .running
  marks : ∀ s, (σ.procs s).state = .running → (σ.procs s).killed = true →
    (τ.procs s).killed = true
  quiet : τ.Quiet
  regs : ∀ s, (σ.procs s).Live → (τ.procs s).Live → ¬ R s → τ.regs s = σ.regs s

theorem Aside.marked (h : Aside R σ τ) (hm : σ.Marked) : τ.Marked := fun s hs =>
  (h.running s).mpr ((h.killed s hs).elim (hm s) id)

theorem Aside.turn (h : Aside R σ τ) (hm : σ.Marked) (c : Option Nat) : Turn c R σ τ where
  runs s hs := .inl ⟨(h.running s).mpr hs, h.cpu s hs, h.pid s hs⟩
  marked := h.marked hm
  dispatched c s hs := absurd hs (h.quiet c s)
  regs := h.regs

theorem Aside.trans (h : Aside R σ τ) (h' : Aside R τ μ)
    (hlive : ∀ s, (σ.procs s).Live → (τ.procs s).Live) : Aside R σ μ where
  running := h.running.trans h'.running
  cpu s hs := (h'.cpu s ((h.running s).mpr hs)).trans (h.cpu s hs)
  pid s hs := (h'.pid s ((h.running s).mpr hs)).trans (h.pid s hs)
  killed s hs := (h'.killed s hs).elim (h.killed s) fun e => .inr ((h.running s).mp e)
  marks s hs hk := h'.marks s ((h.running s).mpr hs) (h.marks s hs hk)
  quiet := h'.quiet
  regs s hs hs' hR := (h'.regs s (hlive s hs) hs' hR).trans (h.regs s hs (hlive s hs) hR)

/-- The processor gives up its slot in the second part of an event. -/
theorem Aside.yields (h : Aside R σ τ) (h' : Yields c R τ μ)
    (hlive : ∀ s, (μ.procs s).Live → (τ.procs s).Live) : Yields c R σ μ where
  away := h'.away
  runs s hs := by
    rcases h'.runs s ((h.running s).mpr hs) with ⟨h₁, h₂, h₃⟩ | ⟨h₁, h₂⟩
    · exact .inl ⟨h₁, h₂.trans (h.cpu s hs), h₃.trans (h.pid s hs)⟩
    · exact .inr ⟨(h.cpu s hs).symm.trans h₁, fun hk => h₂ (h.marks s hs hk)⟩
  marked := h'.marked
  quiet := h'.quiet
  regs s hs hs' hR := (h.regs s hs (hlive s hs') hR).symm.trans (h'.regs s (hlive s hs') hs' hR)

/-- The table changes, and neither who runs nor who is marked. -/
theorem aside_same (hrun : Procs.SameRunning σ.procs τ.procs)
    (hpid : ∀ i, (σ.procs i).state = .running → (τ.procs i).pid = (σ.procs i).pid)
    (hkilled : ∀ i, (τ.procs i).killed = (σ.procs i).killed) (hb : Beside σ τ) (hq : τ.Quiet) :
    Aside R σ τ where
  running := hrun
  cpu s _ := congrFun hb.cpu s
  pid := hpid
  killed s hs := .inl ((hkilled s).symm.trans hs)
  marks s _ hs := (hkilled s).trans hs
  quiet := hq
  regs s _ _ _ := hb.regs hrun s

theorem Aside.refl (h : σ.Quiet) : Aside R σ σ :=
  aside_same (.refl _) (fun _ _ => rfl) (fun _ => rfl) (.refl σ) h

theorem aside_go (hgo : Procs.Go σ.procs τ.procs) (hrun : Procs.SameRunning σ.procs τ.procs)
    (hb : Beside σ τ) (hq : τ.Quiet) : Aside R σ τ :=
  aside_same hrun (fun i _ => (hgo i).alike.pid) (fun i => (hgo i).killed) hb hq

/-- Processes end that do not run. -/
theorem aside_fates (hf : Procs.Fates s σ.procs τ.procs)
    (hrun : Procs.SameRunning σ.procs τ.procs) (hb : Beside σ τ) (hq : τ.Quiet) :
    Aside R σ τ where
  running := hrun
  cpu s _ := congrFun hb.cpu s
  pid s _ := (hf.fixed s).pid
  killed _ hs := hf.killed hs
  marks i hi hk := hf.marks ((hrun i).mpr hi) hk
  quiet := hq
  regs s _ _ _ := hb.regs hrun s

theorem aside_begins {r : Option Nat × Procs} (hnone : r.1 = none → r.2 = σ.procs)
    (hsome : ∀ i, r.1 = some i → Procs.Born σ.procs i r.2) (ctx fp : Nat) (hq : σ.Quiet) :
    Aside R σ (σ.begins r ctx fp) := by
  rw [begins]
  cases hr : r.1 with
  | none =>
      simp only [hnone hr]
      exact .refl hq
  | some i =>
      have hb := hsome i hr
      have hothers : ∀ s, s ≠ i → (r.2 s).pid = (σ.procs s).pid ∧
          (r.2 s).killed = (σ.procs s).killed := fun s hs => by
        rw [hb.others s hs]
        exact ⟨rfl, rfl⟩
      have hne : ∀ s, (σ.procs s).state = .running → s ≠ i := fun s hs =>
        hb.ne (Process.live_of_running hs)
      refine ⟨hb.running, fun s hs => ?_, fun s hs => (hothers s (hne s hs)).1, fun s hs => ?_,
        fun s hs hk => ?_, hq, fun s hs _ _ => ?_⟩
      · exact Function.update_of_ne (hne s hs) ..
      · have hsi : s ≠ i := fun e => by
          rw [e] at hs
          exact absurd (hb.killed.symm.trans hs) (by decide)
        exact .inl ((hothers s hsi).2.symm.trans hs)
      · exact (hothers s (hne s hs)).2.trans hk
      · simp only [Machine.regs, hb.running s, Function.update_of_ne (hb.ne hs)]

/-! ### Events that end with a dispatch -/

/-- Slot `s`, which is not marked, is given up. -/
theorem yields_save (h : σ.Sound) (hm : σ.Marked) (hc : σ.current c = some s)
    (hk : (σ.procs s).killed = false) (hs : (τ.procs s).state ≠ .running)
    (hrun : ∀ i, i ≠ s → ((τ.procs i).state = .running ↔ (σ.procs i).state = .running))
    (hpid : ∀ i, (σ.procs i).state = .running → (τ.procs i).pid = (σ.procs i).pid)
    (hkilled : ∀ i, (τ.procs i).killed = true → (σ.procs i).killed = true)
    (hfields : ∀ i, (σ.procs i).Live → τ.cpu i = σ.cpu i ∧ τ.ctx i = σ.ctx i ∧ τ.fp i = σ.fp i)
    (hframe : τ.frame = σ.frame) (hfpu : τ.fpu = σ.fpu) (hcur : τ.current = σ.current)
    (hq : τ.Quiet) : Yields c R σ (τ.save c s) := by
  have hsc := (h.current c s).mp hc
  have hother : ∀ i, (τ.procs i).state = .running →
      i ≠ s ∧ (σ.procs i).state = .running ∧ τ.cpu i = σ.cpu i := fun i hi => by
    have hne : i ≠ s := fun e => hs (e ▸ hi)
    have hi' := (hrun i hne).mp hi
    exact ⟨hne, hi', (hfields i (Process.live_of_running hi')).1⟩
  refine ⟨fun i hi hcpu => ?_, fun i hi => ?_, fun i hi => ?_, hq, fun i hi hi' _ => ?_⟩
  · obtain ⟨hne, hi', hcpu'⟩ := hother i hi
    have := (h.current c i).mpr ⟨hi', hcpu'.symm.trans hcpu⟩
    exact hne (Option.some.inj (hc.symm.trans this)).symm
  · by_cases e : i = s
    · subst e
      exact .inr ⟨hsc.2, fun hki => absurd (hki.symm.trans hk) (by decide)⟩
    · exact .inl ⟨(hrun i e).mpr hi, (hfields i (Process.live_of_running hi)).1, hpid i hi⟩
  · have hki := hkilled i hi
    have hne : i ≠ s := fun e => by
      rw [e, hk] at hki
      exact absurd hki (by decide)
    exact (hrun i hne).mpr (hm i hki)
  · obtain ⟨h₁, h₂, h₃⟩ := hfields i hi
    simp only [save, hcur, hc, hframe, hfpu]
    by_cases e : i = s
    · subst e
      rw [Machine.regs, if_pos hsc.1, if_neg hs, Function.update_self, if_pos rfl, hsc.2]
    · have e' : ¬ some s = some i := fun he => e (Option.some.inj he).symm
      rw [Machine.regs, Function.update_of_ne e, if_neg e', h₁, h₂, h₃]
      simp only [hrun i e]

/-- Slot `s`, which is not marked, changes its record and waits. -/
theorem turn_block_edit (h : σ.Sound) (hm : σ.Marked) (hc : σ.current c = some s)
    (hk : (σ.procs s).killed = false) {f : Process → Process}
    (hτ : τ.procs = σ.procs.edit s f) (hb : Beside σ τ) (hq : τ.Quiet) (ws : Wakes)
    (hf : ∀ p : Process, (f p).pid = p.pid ∧ (f p).killed = p.killed)
    (hs : (f (σ.procs s)).state ≠ .running) : Turn (some c) R σ (τ.block c s ws) := by
  have hkept : ∀ i, (τ.procs i).pid = (σ.procs i).pid ∧
      (τ.procs i).killed = (σ.procs i).killed := fun i => by
    rw [hτ]
    by_cases e : i = s
    · subst e
      rw [Procs.edit_self]
      exact hf _
    · rw [Procs.edit_of_ne e]
      exact ⟨rfl, rfl⟩
  refine Yields.dispatch (yields_save h hm hc hk ?_ (fun i hi => ?_) (fun i _ => (hkept i).1)
    (fun i hi => (hkept i).2.symm.trans hi) (fun i _ => ?_) hb.frame hb.fpu hb.current hq) ws
  · rwa [hτ, Procs.edit_self]
  · rw [hτ, Procs.edit_of_ne hi]
  · exact ⟨congrFun hb.cpu i, congrFun hb.ctx i, congrFun hb.fp i⟩

/-- A processor without a slot. -/
theorem yields_idle (h : σ.Sound) (hm : σ.Marked) (hc : σ.current c = none) (hq : σ.Quiet) :
    Yields c R σ σ where
  away s hs hcpu := absurd (hc.symm.trans ((h.current c s).mpr ⟨hs, hcpu⟩)) (by simp)
  runs s hs := .inl ⟨hs, rfl, rfl⟩
  marked := hm
  quiet := hq
  regs s _ _ _ := by
    rw [Machine.regs, hc, if_neg (by simp : ¬ none = some s)]

theorem after_quiet {r : Outcome} (hq : σ.Quiet) : (σ.after r).Quiet := fun c s h => by
  rcases List.mem_append.mp h with h | h
  · exact hq c s h
  · obtain ⟨e, -, he⟩ := List.mem_map.mp h
    exact absurd he (by simp)

theorem reap_quiet (s : Nat) (hq : σ.Quiet) : (σ.reap s).Quiet := by
  have hrecord : (σ.recordExit s).Quiet := fun c i h => by
    rw [recordExit] at h
    split at h <;> rcases List.mem_append.mp h with h | h
    · exact hq c i h
    · simp at h
    · exact hq c i h
    · simp at h
  rw [reap]
  split_ifs
  · exact after_quiet hrecord
  · exact after_quiet hq

/-- Slot `s` ends on its processor. -/
theorem yields_leave (h : σ.Sound) (hm : σ.Marked) (hc : σ.current c = some s) (mapped : Bool)
    (hq : σ.Quiet) : Yields c R σ (σ.leaveCpu c s mapped) := by
  have hsc := (h.current c s).mp hc
  obtain ⟨ps, hcalm, hsame, hprocs, hfates, hover, -⟩ := leaveCpu_procs hsc.1 c mapped
  have hb : Beside { (σ.after (σ.procs.clearTidOf s mapped)).save c s with
    current := Function.update σ.current c none
    active := Function.update σ.active c none } (σ.leaveCpu c s mapped) := reap_beside ..
  have hlive : ∀ i, ((σ.leaveCpu c s mapped).procs i).Live → i ≠ s := fun i hi e => by
    rw [hprocs, e] at hi
    exact hover hi
  have hrun : ∀ i, i ≠ s → (((σ.leaveCpu c s mapped).procs i).state = .running ↔
      (σ.procs i).state = .running) := fun i hi => by
    rw [hprocs]
    exact (Iff.intro hfates.running_back fun e => hfates.running e hi).trans (hsame i)
  refine ⟨fun i hi hcpu => ?_, fun i hi => ?_, fun i hi => ?_, ?_, fun i hi hi' _ => ?_⟩
  · have hne := hlive i (Process.live_of_running hi)
    have hcur := (h.current c i).mpr ⟨(hrun i hne).mp hi, (congrFun hb.cpu i).symm.trans hcpu⟩
    exact hne (Option.some.inj (hc.symm.trans hcur)).symm
  · by_cases e : i = s
    · subst e
      refine .inr ⟨hsc.2, fun _ hi' => hlive i hi' rfl⟩
    · refine .inl ⟨(hrun i e).mpr hi, congrFun hb.cpu i, ?_⟩
      rw [hprocs]
      exact (hfates.fixed i).pid.trans (hcalm i).alike.pid
  · rw [hprocs] at hi
    have hne : i ≠ s := fun e => by
      subst e
      rw [hfates.ended_killed (Process.live_of_running ((hsame i).mpr hsc.1)) hover] at hi
      exact absurd hi (by decide)
    rw [hrun i hne]
    rcases hfates.killed hi with hi | hi
    · exact hm i ((hcalm i).killed.symm.trans hi)
    · exact (hsame i).mp hi
  · exact reap_quiet s (after_quiet hq)
  · have hne := hlive i hi'
    have hnone : (σ.leaveCpu c s mapped).current c = none := by
      rw [hb.current]
      exact Function.update_self ..
    have hctx : (σ.leaveCpu c s mapped).ctx i = σ.ctx i := by
      rw [hb.ctx]
      exact Function.update_of_ne hne ..
    rw [Machine.regs, hnone, if_neg (by simp : ¬ none = some i), hb.frame, hb.cpu, hb.fpu, hb.fp,
      hctx]
    simp only [hrun i hne]
    rfl

/-- Slot `s` ends on its processor, which goes on with another. -/
theorem turn_exit (h : σ.Sound) (hm : σ.Marked) (hc : σ.current c = some s) (ws : Wakes)
    (mapped : Bool) (hq : σ.Quiet) : Turn (some c) R σ (σ.exitLocked c s ws mapped) :=
  (yields_leave h hm hc mapped hq).dispatch ws

/-- Another slot is told to end or ends, and then slot `s` on its processor. -/
theorem Aside.turn_exit (h : Aside R σ τ) (hτ : τ.Sound) (hm : σ.Marked)
    (hc : τ.current c = some s) (ws : Wakes) (mapped : Bool) :
    Turn (some c) R σ (τ.exitLocked c s ws mapped) := by
  refine (h.yields (yields_leave hτ (h.marked hm) hc mapped h.quiet) fun i hi => ?_).dispatch ws
  obtain ⟨ps, hcalm, -, hprocs, hfates, -⟩ := leaveCpu_procs (hτ.running hc) c mapped
  rw [hprocs] at hi
  exact (hcalm i).same.live.mp (hfates.live hi)

theorem killOther_aside (hs : (σ.procs s).Live) (hq : σ.Quiet) : Aside R σ (σ.killOther s) := by
  obtain ⟨hfates, hsame⟩ := killOther_fates hs
  refine aside_fates hfates hsame (killOther_beside s σ) ?_
  rw [killOther]
  split_ifs
  · exact hq
  · exact reap_quiet s hq

theorem setStatusOf_aside (s status : Nat) (hq : σ.Quiet) :
    Aside R σ (σ.onProcs (·.setStatusOf s status)) :=
  aside_go (Procs.setStatusOf_calm s status).go (Procs.sameRunning_edit .rfl)
    ⟨rfl, rfl, rfl, rfl, rfl, rfl, rfl, rfl⟩ hq

/-! ### Every event -/

theorem turn_exitGroup (h : σ.Sound) (hm : σ.Marked) (hc : σ.current c = some s) (ws : Wakes)
    (mapped : Bool) (hq : σ.Quiet) : Turn (some c) R σ (σ.exitGroup c s ws mapped) := by
  rw [exitGroup]
  by_cases hl : (σ.procs s).leader ≠ s ∧ (σ.procs (σ.procs s).leader).Live
  · simp only [if_pos hl]
    refine (killOther_aside hl.2 hq).turn_exit (h.killOther hl.2) hm ?_ ws mapped
    rw [(killOther_beside ..).current]
    exact hc
  · simp only [if_neg hl]
    exact turn_exit h hm hc ws mapped hq

theorem turn_killSig (h : σ.Sound) (hm : σ.Marked) (hq : σ.Quiet) (ws : Wakes) (pid sig : Nat)
    (mapped : Bool) : Turn (some c) R σ (σ.killSig c ws pid sig mapped) := by
  rw [killSig]
  cases hs : σ.procs.slotOf pid with
  | none => exact (Aside.refl hq).turn hm _
  | some s =>
      have hcalm : Procs.Calm σ.procs (σ.procs.setStatusOf s (sig % 128)) :=
        Procs.setStatusOf_calm s _
      have hstatus : (σ.onProcs (·.setStatusOf s (sig % 128))).Sound :=
        h.onProcs hcalm (Procs.sameRunning_edit .rfl)
      have haside : Aside R σ (σ.onProcs (·.setStatusOf s (sig % 128))) :=
        setStatusOf_aside s _ hq
      have hlive := (hcalm.go.same s).live.mpr (Procs.slotOf_some hs).1
      simp only
      split_ifs with hc
      · exact haside.turn_exit hstatus hm hc ws mapped
      · have hkill := killOther_aside (R := R) (σ := σ.onProcs (·.setStatusOf s (sig % 128))) hlive
          haside.quiet
        exact (haside.trans hkill fun i => (hcalm.go.same i).live.mpr).turn hm _

/-- The current process has a new image, or is told to end with its process. -/
theorem turn_execReplace (h : σ.Sound) (hm : σ.Marked) (hc : σ.current c = some s) (hq : σ.Quiet)
    (hR : R s) (root asid ctx : Nat) : Turn (some c) R σ (σ.execReplace c s root asid ctx) := by
  have hrun := h.running hc
  obtain ⟨rs, hfates, hs, -, hfail, hdone⟩ := Procs.execReplace_fates root asid h.fine hrun
  have hsame : Procs.SameRunning σ.procs rs := fun i => by
    by_cases e : i = s
    · subst e
      exact iff_of_true hs hrun
    · exact ⟨hfates.running_back, fun hi => hfates.running hi e⟩
  refine Aside.turn ?_ hm _
  rw [execReplace]
  cases hr : (σ.procs.execReplace s root asid).1 with
  | false =>
      simp only [Bool.false_eq_true, if_false]
      apply aside_fates (s := s)
      · simp only [after, hfail hr]
        exact hfates
      · simp only [after, hfail hr]
        exact hsame
      · exact ⟨rfl, rfl, rfl, rfl, rfl, rfl, rfl, rfl⟩
      · exact after_quiet hq
  | true =>
      simp only [if_true]
      obtain ⟨-, -, hexecs⟩ := hdone hr
      refine ⟨hsame.trans hexecs.running, fun _ _ => rfl, fun i hi => ?_, fun i hi => ?_,
        fun i hi hk => ?_, after_quiet hq, fun i hi hi' hRi => ?_⟩
      · exact (hexecs.alike i).pid.trans (hfates.fixed i).pid
      · exact hfates.killed ((hexecs.killed i).symm.trans hi)
      · exact (hexecs.killed i).trans (hfates.marks ((hsame i).mpr hi) hk)
      · have his : i ≠ s := fun e => hRi (e ▸ hR)
        have hrun' := hsame.trans hexecs.running i
        by_cases hri : (σ.procs i).state = .running
        · have hcpu : σ.cpu i ≠ c := fun e => by
            have := (h.current c i).mpr ⟨hri, e⟩
            exact his (Option.some.inj (hc.symm.trans this)).symm
          rw [Machine.regs, Machine.regs, if_pos hri]
          simp only [after, hrun'.mpr hri, if_true, Function.update_of_ne hcpu]
        · rw [Machine.regs, Machine.regs, if_neg hri]
          simp only [after, mt hrun'.mp hri, if_false, Function.update_of_ne his]

theorem turn_vfork (h : σ.Sound) (hm : σ.Marked) (hc : σ.current c = some s) (hq : σ.Quiet)
    (hk : σ.procs.freeSlot ≠ none → (σ.procs s).killed = false) (ws : Wakes) (ctx clearTid : Nat) :
    Turn (some c) R σ (σ.vfork c s ws ctx clearTid) := by
  rw [Machine.vfork]
  cases hr : (σ.procs.fork s none clearTid).1 with
  | none =>
      exact (aside_begins Procs.fork_none (fun i hi => absurd (hr.symm.trans hi) (by simp)) ctx _
        hq).turn hm _
  | some i =>
      have hfork : σ.procs.fork s none clearTid = (some i, _) := Prod.ext hr rfl
      obtain ⟨rs, hb, -, -, -, hqs⟩ := Procs.vfork_born hfork
      have hlive := Process.live_of_running (h.running hc)
      have hsi : s ≠ i := hb.ne hlive
      have hown : ∀ j, j ≠ i → (rs j).pid = (σ.procs j).pid ∧ (rs j).killed = (σ.procs j).killed :=
        fun j hj => by
          rw [hb.others j hj]
          exact ⟨rfl, rfl⟩
      have hkept : ∀ j, ((rs.setState s .vforkWait).setRet s ((rs.setState s .vforkWait) i).pid j).pid =
          (rs j).pid ∧ ((rs.setState s .vforkWait).setRet s
            ((rs.setState s .vforkWait) i).pid j).killed = (rs j).killed := fun j => by
        by_cases e : j = s
        · subst e
          simp only [Procs.setRet, Procs.setState, Procs.edit_self, and_self]
        · simp only [Procs.setRet, Procs.setState, Procs.edit_of_ne e, and_self]
      simp only [Machine.begins, hr, hqs, Machine.onProcs]
      refine Yields.dispatch ?_ ws
      refine yields_save h hm hc (hk ?_) ?_ (fun j hj => ?_) (fun j hj => ?_) (fun j hj => ?_)
        (fun j hj => ?_) rfl rfl rfl hq
      · rw [hb.free]
        simp
      · simp only [Procs.setRet, Procs.setState, Procs.edit_self]
        decide
      · simp only [Procs.setRet, Procs.setState, Procs.edit_of_ne hj]
        exact hb.running j
      · exact (hkept j).1.trans (hown j (hb.ne (Process.live_of_running hj))).1
      · have hj' := (hkept j).2.symm.trans hj
        have hji : j ≠ i := fun e => by
          rw [e] at hj'
          exact absurd (hb.killed.symm.trans hj') (by decide)
        exact (hown j hji).2.symm.trans hj'
      · have hji := hb.ne hj
        exact ⟨Function.update_of_ne hji .., Function.update_of_ne hji ..,
          Function.update_of_ne hji ..⟩

/-- A message is taken by a process that goes on running. -/
theorem aside_delivers {r : Nat} {m : Message} (hd : Procs.Delivers s r m σ.procs τ.procs)
    (hs : (σ.procs s).state = .sendBlocked) (hb : Beside σ τ) (hq : τ.Quiet) (v : Nat) :
    Aside R σ (τ.onProcs (·.setRet r v)) := by
  have hrun : Procs.SameRunning σ.procs τ.procs := fun i => by
    by_cases e : i = s
    · rw [e, hd.sender_state, hs]
      decide
    · exact hd.running e
  have hret : ∀ i, ((τ.procs.setRet r v) i).pid = (τ.procs i).pid ∧
      ((τ.procs.setRet r v) i).killed = (τ.procs i).killed := fun i => by
    by_cases e : i = r
    · subst e
      simp only [Procs.setRet, Procs.edit_self, and_self]
    · simp only [Procs.setRet, Procs.edit_of_ne e, and_self]
  refine aside_same (hrun.trans (Procs.sameRunning_edit .rfl)) (fun i _ => ?_) (fun i => ?_) ?_ hq
  · exact (hret i).1.trans (hd.kept i).1.pid
  · exact (hret i).2.trans (hd.kept i).2
  · exact ⟨hb.cpu, hb.ctx, hb.fp, hb.current, hb.frame, hb.fpu, hb.active, hb.online⟩

theorem turn_ipcSend (h : σ.Sound) (hm : σ.Marked) (hc : σ.current c = some s) (hq : σ.Quiet)
    {dstPid : Nat} (hk : (∃ d ∈ σ.procs.slotOf dstPid, d ≠ s) → (σ.procs s).killed = false)
    (ws : Wakes) (msg : Message) (msgPtr : Nat) :
    Turn (some c) R σ (σ.ipcSend c s ws dstPid msg msgPtr) := by
  have hrun := h.running hc
  obtain ⟨-, hdone⟩ := Procs.ipcSend_spec dstPid msgPtr msg hrun
  rw [Machine.ipcSend]
  cases hr : (σ.procs.ipcSend s dstPid msg msgPtr).1 with
  | false =>
      simp only [Bool.false_eq_true, if_false]
      refine Aside.turn ?_ hm _
      exact aside_go (Procs.setRet_calm (sends_running hrun) _).go (Procs.sameRunning_edit .rfl)
        ⟨rfl, rfl, rfl, rfl, rfl, rfl, rfl, rfl⟩ hq
  | true =>
      simp only [if_true]
      obtain ⟨d, hd, hne, hsent | hsent⟩ := hdone hr
      · refine Yields.dispatch ?_ ws
        refine yields_save h hm hc (hk ⟨d, hd, hne⟩) ?_ (fun i hi => hsent.running hi)
          (fun i _ => (hsent.kept i).1.pid) (fun i hi => (hsent.kept i).2.symm.trans hi)
          (fun _ _ => ⟨rfl, rfl, rfl⟩) rfl rfl rfl (after_quiet hq)
        exact fun e => absurd (hsent.sender_state.symm.trans e) (by decide)
      · refine turn_block_edit h hm hc (hk ⟨d, hd, hne⟩) hsent ?_ (after_quiet hq) ws ?_ (by simp)
        · exact ⟨rfl, rfl, rfl, rfl, rfl, rfl, rfl, rfl⟩
        · exact fun _ => ⟨rfl, rfl⟩

theorem turn_ipcRecv (h : σ.Sound) (hm : σ.Marked) (hc : σ.current c = some s) (hq : σ.Quiet)
    (hk : σ.procs.findSender s = none → (σ.procs s).killed = false) (ws : Wakes) (msgPtr : Nat) :
    Turn (some c) R σ (σ.ipcRecv c s ws msgPtr) := by
  rw [Machine.ipcRecv, Procs.ipcRecv]
  cases hs : σ.procs.findSender s with
  | none =>
      refine turn_block_edit h hm hc (hk hs) (after_edit ..) ?_ (after_quiet hq) ws ?_ (by simp)
      · exact ⟨rfl, rfl, rfl, rfl, rfl, rfl, rfl, rfl⟩
      · exact fun _ => ⟨rfl, rfl⟩
  | some i =>
      obtain ⟨hi, hto⟩ := Procs.findSender_some hs
      have hd := Procs.acceptFrom_delivers msgPtr hi hto (h.running hc)
      refine (aside_delivers (τ := σ.after (σ.procs.acceptFrom s i msgPtr).2) hd hi ?_
        (after_quiet hq) _).turn hm _
      exact ⟨rfl, rfl, rfl, rfl, rfl, rfl, rfl, rfl⟩

theorem aside_ipcTryRecv (h : σ.Sound) (hc : σ.current c = some s) (hq : σ.Quiet) (msgPtr : Nat) :
    Aside R σ (σ.ipcTryRecv s msgPtr) := by
  have hrun := h.running hc
  rw [Machine.ipcTryRecv]
  cases hs : σ.procs.findSender s with
  | none =>
      exact aside_go (Procs.setRet_calm (sends_running hrun) _).go (Procs.sameRunning_edit .rfl)
        ⟨rfl, rfl, rfl, rfl, rfl, rfl, rfl, rfl⟩ hq
  | some i =>
      obtain ⟨hi, hto⟩ := Procs.findSender_some hs
      have hd := Procs.acceptFrom_delivers msgPtr hi hto hrun
      refine aside_delivers (τ := σ.after (σ.procs.acceptFrom s i msgPtr).2) hd hi ?_
        (after_quiet hq) _
      exact ⟨rfl, rfl, rfl, rfl, rfl, rfl, rfl, rfl⟩

theorem aside_ipcReply (hq : σ.Quiet) (toPid : Nat) (msg : Message) :
    Aside R σ (σ.ipcReply s toPid msg) := by
  have hret : ∀ (ps : Procs) (i : Nat), ((ps.setRet s 0) i).pid = (ps i).pid ∧
      ((ps.setRet s 0) i).killed = (ps i).killed := fun ps i => by
    by_cases e : i = s
    · subst e
      simp only [Procs.setRet, Procs.edit_self, and_self]
    · simp only [Procs.setRet, Procs.edit_of_ne e, and_self]
  have hreply : Procs.SameRunning σ.procs (σ.procs.ipcReply s toPid msg).1 ∧
      ∀ i, ((σ.procs.ipcReply s toPid msg).1 i).pid = (σ.procs i).pid ∧
        ((σ.procs.ipcReply s toPid msg).1 i).killed = (σ.procs i).killed := by
    rcases Procs.ipcReply_spec σ.procs s toPid msg with hr | ⟨t, -, ht, -, hr⟩ <;> rw [hr]
    · exact ⟨.refl _, fun _ => ⟨rfl, rfl⟩⟩
    · refine ⟨Procs.sameRunning_edit (iff_of_false (by simp) (by rw [ht]; decide)), fun i => ?_⟩
      by_cases e : i = t
      · subst e
        rw [Procs.edit_self]
        exact ⟨rfl, rfl⟩
      · rw [Procs.edit_of_ne e]
        exact ⟨rfl, rfl⟩
  refine aside_same (hreply.1.trans (Procs.sameRunning_edit .rfl)) (fun i _ => ?_) (fun i => ?_)
    ⟨rfl, rfl, rfl, rfl, rfl, rfl, rfl, rfl⟩ (after_quiet hq)
  · exact (hret _ i).1.trans (hreply.2 i).1
  · exact (hret _ i).2.trans (hreply.2 i).2

/-- An answer of a `wait`. -/
theorem aside_answer (h : σ.Sound) (hc : σ.current c = some s) {v : Nat}
    (hτ : τ.procs = σ.procs.setRet s v) (hb : Beside σ τ) (hq : τ.Quiet) : Aside R σ τ := by
  have hcalm : Procs.Calm σ.procs (σ.procs.setRet s v) :=
    Procs.setRet_calm (sends_running (h.running hc)) v
  refine aside_go ?_ ?_ hb hq <;> rw [hτ]
  · exact hcalm.go
  · exact Procs.sameRunning_edit .rfl

theorem quiet_append {o : Output} (hq : σ.Quiet) (ho : ∀ c s, o ≠ .dispatched c s) :
    ∀ c s, .dispatched c s ∉ σ.out ++ [o] := fun c s h => by
  rcases List.mem_append.mp h with h | h
  · exact hq c s h
  · exact ho c s (List.mem_singleton.mp h).symm

theorem turn_waitChild (h : σ.Sound) (hm : σ.Marked) (hc : σ.current c = some s) (hq : σ.Quiet)
    {pid : Option Nat} {nohang : Bool} (hk : σ.findExit (σ.procs.leaderPid s) pid = none ∧
      σ.procs.hasChild (σ.procs.leaderPid s) pid ∧ nohang = false → (σ.procs s).killed = false)
    (ws : Wakes) (statusPtr : Nat) :
    Turn (some c) R σ (σ.waitChild c s ws pid statusPtr nohang) := by
  rw [Machine.waitChild]
  cases hf : σ.findExit (σ.procs.leaderPid s) pid with
  | some x =>
      refine Aside.turn ?_ hm _
      exact aside_answer h hc rfl ⟨rfl, rfl, rfl, rfl, rfl, rfl, rfl, rfl⟩
        (quiet_append (after_quiet hq) (by simp))
  | none =>
      simp only
      by_cases hchild : σ.procs.hasChild (σ.procs.leaderPid s) pid
      · rw [if_neg (not_not.mpr hchild)]
        split_ifs with hn
        · refine Aside.turn ?_ hm _
          exact aside_answer h hc rfl ⟨rfl, rfl, rfl, rfl, rfl, rfl, rfl, rfl⟩ hq
        · refine turn_block_edit h hm hc (hk ⟨hf, hchild, by simpa using hn⟩) (onProcs_edit ..) ?_
            hq ws ?_ (by simp)
          · exact ⟨rfl, rfl, rfl, rfl, rfl, rfl, rfl, rfl⟩
          · exact fun _ => ⟨rfl, rfl⟩
      · rw [if_pos hchild]
        refine Aside.turn ?_ hm _
        exact aside_answer h hc rfl ⟨rfl, rfl, rfl, rfl, rfl, rfl, rfl, rfl⟩
          (quiet_append hq (by simp))

theorem turn_waitidChild (h : σ.Sound) (hm : σ.Marked) (hc : σ.current c = some s) (hq : σ.Quiet)
    {pid : Option Nat} {nohang : Bool} (hk : σ.findExit (σ.procs.leaderPid s) pid = none ∧
      σ.procs.hasChild (σ.procs.leaderPid s) pid ∧ nohang = false → (σ.procs s).killed = false)
    (ws : Wakes) (nowait : Bool) :
    Turn (some c) R σ (σ.waitidChild c s ws pid nohang nowait) := by
  cases hf : σ.findExit (σ.procs.leaderPid s) pid with
  | some x =>
      simp only [Machine.waitidChild, hf]
      split_ifs
      · refine Aside.turn ?_ hm _
        exact aside_answer h hc rfl ⟨rfl, rfl, rfl, rfl, rfl, rfl, rfl, rfl⟩ hq
      · refine Aside.turn ?_ hm _
        exact aside_answer h hc rfl ⟨rfl, rfl, rfl, rfl, rfl, rfl, rfl, rfl⟩
          (quiet_append hq (by simp))
  | none => exact Machine.waitidChild_none c s ws _ hf ▸ turn_waitChild h hm hc hq hk ws _

theorem turn_schedule (h : σ.Sound) (hm : σ.Marked) (hq : σ.Quiet)
    (hk : ∀ s ∈ σ.current c, (σ.procs s).killed = false) (ws : Wakes) :
    Turn (some c) R σ (σ.schedule c ws) := by
  rw [schedule]
  cases hc : σ.current c with
  | none => exact (yields_idle h hm hc hq).dispatch ws
  | some s =>
      have hrun := h.running hc
      simp only [Machine.onProcs, save, hrun, if_true]
      refine turn_block_edit (τ := σ.onProcs (·.setState s .ready)) h hm hc (hk s hc)
        (onProcs_edit ..) ?_ hq ws ?_ (by simp)
      · exact ⟨rfl, rfl, rfl, rfl, rfl, rfl, rfl, rfl⟩
      · exact fun _ => ⟨rfl, rfl⟩

theorem turn_call (h : σ.Sound) (hm : σ.Marked) (hc : σ.current c = some s) (hq : σ.Quiet)
    {k : Call} (hk : k.Waits σ s → (σ.procs s).killed = false)
    (hR : ∀ root asid ctx, k = .execReplace root asid ctx → R s)
    (he : σ.call c s ws k = some τ) : Turn (some c) R σ τ := by
  have hrun := h.running hc
  have hown := (h.fine.owner s (Process.live_of_running hrun).1).1
  cases k with
  | threadCreate ctx =>
      refine Option.some.inj he ▸ (aside_begins Procs.threadCreate_none (fun i hi => ?_) ctx _
        hq).turn hm _
      exact (Procs.threadCreate_born hown (Prod.ext hi rfl)).1
  | cloneThread ctx clearTid =>
      refine Option.some.inj he ▸ (aside_begins Procs.threadCreate_none (fun i hi => ?_) ctx _
        hq).turn hm _
      exact (Procs.threadCreate_born hown (Prod.ext hi rfl)).1
  | fork root asid ctx clearTid =>
      refine Option.some.inj he ▸ (aside_begins Procs.fork_none (fun i hi => ?_) ctx _
        hq).turn hm _
      exact (Procs.fork_born (Prod.ext hi rfl)).1
  | vfork ctx clearTid => exact Option.some.inj he ▸ turn_vfork h hm hc hq hk ws ctx clearTid
  | execReplace root asid ctx =>
      exact Option.some.inj he ▸ turn_execReplace h hm hc hq (hR root asid ctx rfl) root asid ctx
  | ipcSend dstPid msg msgPtr =>
      exact Option.some.inj he ▸ turn_ipcSend h hm hc hq hk ws msg msgPtr
  | ipcRecv msgPtr => exact Option.some.inj he ▸ turn_ipcRecv h hm hc hq hk ws msgPtr
  | ipcTryRecv msgPtr => exact Option.some.inj he ▸ (aside_ipcTryRecv h hc hq msgPtr).turn hm _
  | ipcReply toPid msg => exact Option.some.inj he ▸ (aside_ipcReply hq toPid msg).turn hm _
  | waitChild pid statusPtr nohang =>
      exact Option.some.inj he ▸ turn_waitChild h hm hc hq hk ws statusPtr
  | waitidChild pid nohang nowait =>
      exact Option.some.inj he ▸ turn_waitidChild h hm hc hq hk ws nowait
  | futexWait addr =>
      refine Option.some.inj he ▸ turn_block_edit h hm hc (hk trivial) (onProcs_edit ..) ?_ hq ws ?_
        (by simp)
      · exact ⟨rfl, rfl, rfl, rfl, rfl, rfl, rfl, rfl⟩
      · exact fun _ => ⟨rfl, rfl⟩
  | futexWake addr n =>
      rw [← Option.some.inj he]
      refine Aside.turn ?_ hm _
      exact aside_go (Procs.futexWake_calm _ _ _).go (Procs.futexWake_running _ _ _)
        ⟨rfl, rfl, rfl, rfl, rfl, rfl, rfl, rfl⟩ hq
  | pause st ret =>
      obtain ⟨hst, he⟩ := (Option.ite_none_right_eq_some ..).mp he
      refine Option.some.inj he ▸ turn_block_edit h hm hc (hk trivial) (onProcs_edit ..) ?_ hq ws ?_
        ?_
      · exact ⟨rfl, rfl, rfl, rfl, rfl, rfl, rfl, rfl⟩
      · exact fun _ => ⟨rfl, rfl⟩
      · rcases hst with rfl | rfl | rfl <;> simp
  | setStatus status group =>
      rw [← Option.some.inj he]
      refine Aside.turn ?_ hm _
      refine aside_go ?_ ?_ ⟨rfl, rfl, rfl, rfl, rfl, rfl, rfl, rfl⟩ hq
      · simp only [onProcs]
        split_ifs
        · exact (Procs.setStatusOf_calm s status).go
        · exact Procs.Calm.go (.refl _)
      · simp only [onProcs]
        split_ifs
        · exact Procs.sameRunning_edit .rfl
        · exact .refl _
  | setClearTid addr =>
      rw [← Option.some.inj he]
      refine Aside.turn ?_ hm _
      refine aside_go ?_ ?_ ⟨rfl, rfl, rfl, rfl, rfl, rfl, rfl, rfl⟩ hq
      · exact (Procs.calm_edit_own (f := fun p => { p with clearTid := addr }) hrun rfl).go
      · exact Procs.sameRunning_edit .rfl
  | exitIfKilled mapped =>
      rw [← Option.some.inj he, exitIfKilled]
      split_ifs
      · exact turn_exit h hm hc ws mapped hq
      · exact (Aside.refl hq).turn hm _
  | exitCurrent mapped => exact Option.some.inj he ▸ turn_exit h hm hc ws mapped hq
  | exitGroup mapped => exact Option.some.inj he ▸ turn_exitGroup h hm hc ws mapped hq

/-- **One event**, by which no processor gives up a slot that is marked. -/
theorem turn_act (h : σ.Sound) (hm : σ.Marked) (hq : σ.Quiet) {e : Event} (hh : HandsOver σ e)
    (he : σ.act e = some τ) : Turn e.cpu (e.Changes σ) σ τ := by
  cases e with
  | enterScheduler c ws =>
      obtain ⟨hoff, hτ⟩ := (Option.ite_none_left_eq_some ..).mp he
      have hc := h.offline c (by simpa using hoff)
      have hcur : Function.update σ.current c none = σ.current := by
        rw [← hc]
        exact Function.update_eq_self ..
      have hy : Yields c ((Event.enterScheduler c ws).Changes σ) σ σ := yields_idle h hm hc hq
      rw [← Option.some.inj hτ, enterScheduler, hcur]
      refine Yields.dispatch ?_ ws
      exact ⟨hy.away, hy.runs, hy.marked, hy.quiet, hy.regs⟩
  | schedule c ws =>
      obtain ⟨-, hτ⟩ := (Option.ite_none_right_eq_some ..).mp he
      exact Option.some.inj hτ ▸ turn_schedule h hm hq hh ws
  | onIpi c ws =>
      obtain ⟨-, hτ⟩ := (Option.ite_none_right_eq_some ..).mp he
      rw [← Option.some.inj hτ, onIpi]
      split_ifs with hc
      · exact (yields_idle h hm hc hq).dispatch ws
      · exact (Aside.refl hq).turn hm _
  | user c frame fpu =>
      obtain ⟨-, hτ⟩ := (Option.ite_none_left_eq_some ..).mp he
      rw [← Option.some.inj hτ]
      refine Aside.turn ?_ hm _
      refine ⟨.refl _, fun _ _ => rfl, fun _ _ => rfl, fun _ => .inl, fun _ _ => id, hq,
        fun s _ _ hn => ?_⟩
      by_cases hrun : (σ.procs s).state = .running
      · have hcpu : σ.cpu s ≠ c := fun e => hn ((h.current c s).mpr ⟨hrun, e⟩)
        simp only [Machine.regs, hrun, if_true, Function.update_of_ne hcpu]
      · simp only [Machine.regs, hrun, if_false]
  | createEx c root asid ctx =>
      refine Option.some.inj he ▸ (aside_begins Procs.createEx_none (fun i hi => ?_) ctx 0
        hq).turn hm _
      exact (Procs.createEx_born (Prod.ext hi rfl)).1
  | killSig c pid sig mapped ws =>
      obtain ⟨-, hτ⟩ := (Option.ite_none_right_eq_some ..).mp he
      exact Option.some.inj hτ ▸ turn_killSig h hm hq ws pid sig mapped
  | call c k ws =>
      obtain ⟨s, hc, hk⟩ := Option.bind_eq_some_iff.mp he
      refine turn_call h hm hc hq (hh s hc) (fun root asid ctx hk => ?_) hk
      rw [hk]
      exact hc
  | wake ws =>
      rw [← Option.some.inj he]
      refine Aside.turn ?_ hm _
      exact aside_go (Procs.wakeAll_calm ws).go (Procs.wakeAll_running ws)
        ⟨rfl, rfl, rfl, rfl, rfl, rfl, rfl, rfl⟩ hq

/-- One event, with its own outputs. -/
theorem turn_step (h : σ.Sound) (hm : σ.Marked) {e : Event} (hh : HandsOver σ e)
    (he : σ.step e = some τ) : Turn e.cpu (e.Changes σ) σ τ := by
  have hsound : Sound { σ with out := [] } := ⟨h.fine, h.named, h.current, h.offline⟩
  have ht : Turn e.cpu (fun s => e.Changes { σ with out := [] } s) { σ with out := [] } τ := by
    refine turn_act hsound hm (fun _ _ => List.not_mem_nil) ?_ he
    cases e <;> exact hh
  refine ⟨ht.runs, ht.marked, ht.dispatched, fun s hs hs' hn => ht.regs s hs hs' fun hc => hn ?_⟩
  cases e with
  | call c k ws => cases k <;> exact hc
  | _ => exact hc

theorem Reached.marked (h : Reached HandsOver σ) :
    σ.Sound ∧ σ.Marked ∧
      ∀ c s, .dispatched c s ∈ σ.out → σ.current c = some s ∧ (σ.procs s).killed = false := by
  revert h
  refine Runs.Reached.invariant (I := fun σ : Machine => σ.Sound ∧ σ.Marked ∧ ∀ c s,
    .dispatched c s ∈ σ.out → σ.current c = some s ∧ (σ.procs s).killed = false)
    (fun σ hσ => ?_) fun σ e τ hσ hh hs => ?_
  · rw [hσ]
    exact ⟨sound_boot, fun _ hs => absurd hs (by simp [boot, Process.empty]),
      fun _ _ h => absurd h List.not_mem_nil⟩
  · have ht := turn_step hσ.1 hσ.2.1 hh hs
    exact ⟨hσ.1.step hs, ht.marked, ht.dispatched⟩

/-- **Each slot runs on one processor**, where no processor gives up a slot that is marked. -/
theorem slots_exclusive (h : Reached HandsOver σ) : σ.Exclusive ∧
    ∀ e τ, HandsOver σ e → σ.step e = some τ → Follows σ e τ := by
  obtain ⟨hs, hm, hd⟩ := h.marked
  refine ⟨⟨fun s => ⟨fun hr => ?_, fun ⟨_, hc, _⟩ => hs.running hc⟩,
    fun c s hc => ((hs.current c s).mp hc).2, hm, hd⟩, fun e τ hh he => ?_⟩
  · refine ⟨σ.cpu s, (hs.current _ s).mpr ⟨hr, rfl⟩, fun c hc => ?_⟩
    exact ((hs.current c s).mp hc).2.symm
  · have ht := turn_step hs hm hh he
    exact ⟨ht.regs, fun s hk => (ht.runs s (hm s hk)).imp_right fun h => ⟨h.2 hk, h.1⟩⟩

/-- Two processes run, and one is told to end. -/
def exampleRun : List Event :=
  [.createEx 0 7 0 100, .createEx 0 9 1 200, .enterScheduler 0 [], .enterScheduler 1 [],
   .user 1 201 5, .killSig 0 1 9 true []]

theorem slots_exclusive_run : ∃ σ, (Reached HandsOver σ ∧ (σ.procs 1).killed = true) ∧
    σ.Exclusive := by
  have hboot : Reached HandsOver boot := .init rfl
  have hrun : (Runs.run step HandsOver exampleRun boot).any
      (fun σ => decide ((σ.procs 1).killed = true)) = true := by decide +kernel
  obtain ⟨σ, hσ, hk⟩ := hboot.run_any hrun
  exact ⟨σ, ⟨hσ, hk⟩, (slots_exclusive hσ).1⟩

/-- **A marked slot is dispatched again**: it was marked after the check, and given up. -/
theorem killed_dispatched : ¬ ∀ σ : Machine, Reached (fun _ _ => True) σ → σ.Exclusive := by
  intro h
  have hboot : Reached (fun _ _ => True) boot := .init rfl
  have hrun : (Runs.run step (fun _ _ => True) (exampleRun ++ [.schedule 1 []]) boot).any
      (fun σ => decide ((σ.procs 1).killed = true ∧ .dispatched 1 1 ∈ σ.out)) = true := by
    decide +kernel
  obtain ⟨τ, hτ, hk, hd⟩ := hboot.run_any hrun
  exact absurd (((h τ hτ).dispatched 1 1 hd).2.symm.trans hk) (by decide)

end Machine

end Pulsar.Proc

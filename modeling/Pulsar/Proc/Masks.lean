import Pulsar.Arch.Context

/-!
# The masks of signals

`MaskLog` records, beside a run, the mask before each `rt_sigsuspend` that has not ended, what each
handler starts with, and what each `rt_sigsuspend` leaves behind when it ends: the mask, or what
`rt_sigreturn` makes of the frame of the handler that ends it.

* `masks_kept`: masks are as they should be while each `rt_sigsuspend` has a mask without `SIGKILL`
  and `SIGSTOP` and is ended by a handler.
* `mask_left_behind`: one `rt_sigsuspend` that neither holds of.
-/

namespace Pulsar.Proc

open Runs

variable {C : Type} {m n : SigSet} {sig : Nat}

/-! ### What can be blocked -/

theorem SigSet.blockable_eq_iff : m.blockable = m ↔ m &&& UNBLOCKABLE = 0 := by
  rw [blockable]
  constructor
  · intro h
    rw [← h, BitVec.and_assoc, BitVec.and_comm (~~~UNBLOCKABLE), BitVec.and_not_self]
    exact BitVec.and_zero
  · intro h
    ext i hi
    have hbit := congrArg (fun v : SigSet => v.getLsbD i) h
    simp only [BitVec.getLsbD_and, BitVec.ofNat_eq_ofNat, BitVec.getLsbD_zero] at hbit
    simp only [BitVec.getElem_and, BitVec.getElem_not]
    rw [← BitVec.getLsbD_eq_getElem, ← BitVec.getLsbD_eq_getElem]
    cases hm : m.getLsbD i
    · rfl
    · rw [hm, Bool.true_and] at hbit
      rw [hbit]
      rfl

@[simp] theorem SigSet.blockable_blockable : m.blockable.blockable = m.blockable := by
  rw [blockable, blockable, BitVec.and_assoc, BitVec.and_self]

theorem SigSet.blockable_zero : (0 : SigSet).blockable = 0 := BitVec.zero_and

/-- What a handler starts with. -/
def handlerMask (old : SigSet) (a : Action) (sig : Nat) : SigSet :=
  (old ||| a.mask ||| if a.set SA_NODEFER then 0 else bit sig).blockable

namespace Signals

theorem enter_mask (sig : Nat) (a : Action) (g : SigThread) :
    (enter sig a g).mask = handlerMask (if g.suspended then g.saved else g.mask) a sig := by
  rw [handlerMask, enter]
  cases a.set SA_NODEFER
  · rfl
  · exact congrArg SigSet.blockable BitVec.or_zero.symm

/-! ### The log -/

/-- What a handler started with: the mask before, the action, the signal and the mask after. -/
structure Start where
  old : SigSet
  act : Action
  sig : Nat
  mask : SigSet

structure MaskLog where
  /-- The mask before an `rt_sigsuspend` that has not ended. -/
  before : Nat → Option SigSet
  starts : List Start
  /-- The mask before an `rt_sigsuspend`, and the one that it leaves. -/
  ended : List (SigSet × SigSet)

namespace MaskLog

def empty : MaskLog := ⟨fun _ => none, [], []⟩

/-- An `rt_sigsuspend`, if there is one, ends and leaves the mask `m`. -/
def ends (s : Nat) (m : SigSet) (H : MaskLog) : MaskLog :=
  { H with
    before := Function.update H.before s none
    ended := (H.before s).elim H.ended fun old => (old, m) :: H.ended }

/-- What is recorded of a step. -/
def note [Context C] (σ : Signals C) (a : SigAct C) (τ : Signals C) (H : MaskLog) : MaskLog :=
  match a with
  | .sigSuspend s _ =>
    { H with before := Function.update H.before s (some (σ.tasks s).sig.mask) }
  | .deliver s _ =>
    match (σ.plan s).1 with
    | .handle h =>
      { H.ends s h.oldMask.blockable with
        starts := ⟨(H.before s).getD (σ.tasks s).sig.mask, h.act, h.sig, (τ.tasks s).sig.mask⟩ ::
          H.starts }
    | _ => H
  | .resume s => H.ends s (σ.tasks s).sig.mask
  | .fork s i _ => { H with before := Function.update H.before i (H.before s) }
  | .threadCreate _ i _ _ => { H with before := Function.update H.before i none }
  | .cloneThread _ i _ => { H with before := Function.update H.before i none }
  | .create i _ _ _ => { H with before := Function.update H.before i none }
  | _ => H

end MaskLog

/-- The masks are as they should be. -/
structure Masked (σ : Signals C) (H : MaskLog) : Prop where
  /-- `SIGKILL` and `SIGSTOP` are not blocked. -/
  blockable : ∀ t, (σ.tasks t).Live → (σ.tasks t).sig.mask &&& UNBLOCKABLE = 0
  /-- A handler starts with the mask before, that of its action, and its signal. -/
  starts : ∀ r ∈ H.starts, r.mask = handlerMask r.old r.act r.sig
  /-- An `rt_sigsuspend` leaves the mask that was before it. -/
  ended : ∀ r ∈ H.ended, r.2 = r.1

/-- An `rt_sigsuspend` lets `SIGKILL` and `SIGSTOP` through, and ends with a handler. -/
def Handled (σ : Signals C) : SigAct C → Prop
  | .sigSuspend _ mask => mask &&& UNBLOCKABLE = 0
  | .resume s => (σ.tasks s).sig.suspended = false
  | _ => True

end Signals

/-! ### What every step keeps -/

/-- What holds of a thread and of the mask that was before its `rt_sigsuspend`. -/
structure Task.Fit (p : Task C) (b : Option SigSet) : Prop where
  mask : p.sig.mask.blockable = p.sig.mask
  idle : p.sig.suspended = false → b = none
  saved : p.sig.suspended = true → b = some p.sig.saved ∧ p.sig.saved.blockable = p.sig.saved
  user : p.user = true → p.sig.suspended = false

/-- The masks of a thread are left alone. -/
structure Task.Steady (p q : Task C) : Prop where
  live : q.Live → p.Live
  mask : q.sig.mask = p.sig.mask
  saved : q.sig.saved = p.sig.saved
  suspended : q.sig.suspended = p.sig.suspended
  user : q.user = true → p.user = true

namespace Task

variable {p q r : Task C} {b : Option SigSet}

theorem live_of (st : State) (h : p.state = st) (h₁ : st ≠ .unused) (h₂ : st ≠ .zombie) :
    p.Live :=
  ⟨h ▸ h₁, h ▸ h₂⟩

theorem live_of_running (h : p.state = .running) : p.Live := live_of _ h (by decide) (by decide)

theorem Steady.refl (p : Task C) : p.Steady p := ⟨id, rfl, rfl, rfl, id⟩

theorem Steady.trans (h : p.Steady q) (h' : q.Steady r) : p.Steady r :=
  ⟨h.live ∘ h'.live, h'.mask.trans h.mask, h'.saved.trans h.saved,
    h'.suspended.trans h.suspended, h.user ∘ h'.user⟩

theorem Fit.steady (h : p.Fit b) (hs : p.Steady q) : q.Fit b where
  mask := by rw [hs.mask, h.mask]
  idle hq := h.idle (hs.suspended ▸ hq)
  saved hq := by rw [hs.saved]; exact h.saved (hs.suspended ▸ hq)
  user hq := hs.suspended.trans (h.user (hs.user hq))

theorem Fit.plain (hm : p.sig.mask.blockable = p.sig.mask) (hs : p.sig.suspended = false) :
    p.Fit none := ⟨hm, fun _ => rfl, fun h => absurd (hs.symm.trans h) (by simp), fun _ => hs⟩

end Task

namespace Signals

variable {σ τ υ : Signals C} {s t : Nat} {f : Task C → Task C} {b : Nat → Option SigSet}
  {x : Option SigSet}

@[simp] theorem tasks_edit_self : (σ.edit s f).tasks s = f (σ.tasks s) := Function.update_self ..

theorem tasks_edit_of_ne (h : t ≠ s) : (σ.edit s f).tasks t = σ.tasks t :=
  Function.update_of_ne h ..

@[simp] theorem tasks_editSig_self {g : SigThread → SigThread} :
    (σ.editSig s g).tasks s = { σ.tasks s with sig := g (σ.tasks s).sig } := tasks_edit_self

theorem tasks_editSig_of_ne {g : SigThread → SigThread} (h : t ≠ s) :
    (σ.editSig s g).tasks t = σ.tasks t := tasks_edit_of_ne h

@[simp] theorem tasks_setAction {l sig : Nat} {a : Action} :
    (σ.setAction l sig a).tasks = σ.tasks := rfl

/-- No thread's masks change. -/
def Calm (σ τ : Signals C) : Prop := ∀ t, (σ.tasks t).Steady (τ.tasks t)

theorem Calm.refl (σ : Signals C) : Calm σ σ := fun _ => .refl _

theorem Calm.trans (h : Calm σ τ) (h' : Calm τ υ) : Calm σ υ := fun t => (h t).trans (h' t)

theorem calm_edit (h : (σ.tasks s).Steady (f (σ.tasks s))) : Calm σ (σ.edit s f) := fun t => by
  by_cases ht : t = s
  · subst ht
    rw [tasks_edit_self]
    exact h
  · rw [tasks_edit_of_ne ht]
    exact .refl _

theorem calm_editSig {g : SigThread → SigThread}
    (h : ∀ x, (g x).mask = x.mask ∧ (g x).saved = x.saved ∧ (g x).suspended = x.suspended) :
    Calm σ (σ.editSig s g) :=
  calm_edit ⟨id, (h _).1, (h _).2.1, (h _).2.2, id⟩

theorem calm_faultSignal (s sig code addr : Nat) (σ : Signals C) :
    Calm σ (σ.faultSignal s sig code addr).2 := by
  unfold faultSignal
  dsimp only
  split
  · exact .refl _
  · dsimp only
    apply calm_editSig
    exact fun _ => ⟨rfl, rfl, rfl⟩

theorem calm_sigaction (s sig : Nat) (new : Option Action) (σ : Signals C) :
    Calm σ (σ.sigaction s sig new) := by
  unfold sigaction
  split
  · exact .refl _
  cases new with
  | none => exact .refl _
  | some n =>
      dsimp only
      have hset : Calm σ (σ.setAction (σ.tasks s).leader sig { n with mask := n.mask.blockable }) :=
        fun _ => .refl _
      split_ifs
      · exact .refl _
      · refine hset.trans ?_
        apply calm_editSig
        exact fun _ => ⟨rfl, rfl, rfl⟩
      · exact hset

theorem calm_sigaltstack (s : Nat) (ss : Option (Nat × Nat)) (σ : Signals C) :
    Calm σ (σ.sigaltstack s ss) := by
  unfold sigaltstack
  cases ss with
  | none =>
      apply calm_editSig
      exact fun _ => ⟨rfl, rfl, rfl⟩
  | some x =>
      dsimp only
      split_ifs
      · exact .refl _
      · apply calm_editSig
        exact fun _ => ⟨rfl, rfl, rfl⟩

variable [Context C]

/-! A new thread changes its own slot only. -/

omit [Context C] in
theorem tasks_threadCreate_of_ne {i generation : Nat} {ctx : C} (h : t ≠ i) :
    (σ.threadCreate s i generation ctx).tasks t = σ.tasks t := by
  rw [Signals.threadCreate]
  exact tasks_edit_of_ne h

theorem tasks_cloneThread_of_ne {i generation : Nat} (h : t ≠ i) :
    (σ.cloneThread s i generation).tasks t = σ.tasks t := by
  rw [Signals.cloneThread]
  exact tasks_edit_of_ne h

theorem tasks_fork_of_ne {i generation : Nat} (h : t ≠ i) :
    (σ.fork s i generation).tasks t = σ.tasks t := by
  rw [Signals.fork]
  dsimp only
  exact tasks_edit_of_ne h

omit [Context C] in
theorem tasks_create_of_ne {i generation : Nat} {abi : Abi} {ctx : C} (h : t ≠ i) :
    (σ.create i generation abi ctx).tasks t = σ.tasks t := by
  rw [Signals.create]
  dsimp only
  exact tasks_edit_of_ne h

theorem rouse_cases (restart : Bool) (p : Task C) : rouse restart p = p ∨
    p.Live ∧ ∃ c w k d i, rouse restart p = { p with
      state := .ready, ctx := c, wakeAt := w, ioKey := k, ioDeadline := d, inPoll := i } := by
  cases hp : p.state
  case sleeping | futexWait | waitChild | sigWait =>
    refine .inr ⟨Task.live_of _ hp (by decide) (by decide), ?_⟩
    simp only [rouse, hp]
    split_ifs <;> exact ⟨_, _, _, _, _, rfl⟩
  case ioWait =>
    refine .inr ⟨Task.live_of _ hp (by decide) (by decide), ?_⟩
    simp only [rouse, hp]
    split_ifs <;> exact ⟨_, _, _, _, _, rfl⟩
  all_goals
    left
    simp only [rouse, hp]

theorem steady_rouse (restart : Bool) (p : Task C) : p.Steady (rouse restart p) := by
  rcases rouse_cases restart p with h | ⟨hl, c, w, k, d, i, h⟩
  · rw [h]
    exact .refl p
  · rw [h]
    exact ⟨fun _ => hl, rfl, rfl, rfl, id⟩

theorem steady_accept (sig infoPid : Nat) (restart : Bool) (p : Task C) :
    p.Steady (accept sig infoPid restart p) := by
  unfold accept
  dsimp only
  split_ifs
  · exact ⟨id, rfl, rfl, rfl, id⟩
  · exact Task.Steady.trans (q := { p with sig := { p.sig with
      pending := p.sig.pending ||| bit sig, fromPid := infoPid } }) ⟨id, rfl, rfl, rfl, id⟩
      (steady_rouse _ _)

theorem calm_postSignal (target sig : Nat) (thread : Bool) (infoPid : Nat) (σ : Signals C) :
    Calm σ (σ.postSignal target sig thread infoPid).2 := by
  unfold postSignal
  split
  · exact .refl _
  · dsimp only
    split
    · exact calm_edit (steady_accept ..)
    · exact .refl _

/-- A round of `deliver` that starts no handler takes away what is pending, if anything. -/
def Passes (s : Nat) (pl : Plan) (σ τ : Signals C) : Prop :=
  (∀ h, pl ≠ .handle h) ∧ (∀ t, t ≠ s → τ.tasks t = σ.tasks t) ∧
    ∃ pending, τ.tasks s = { σ.tasks s with sig := { (σ.tasks s).sig with pending := pending } }

/-- A round of `deliver` that starts a handler. -/
def Starts (s : Nat) (pl : Plan) (σ τ : Signals C) : Prop :=
  ∃ h, pl = .handle h ∧ (∀ t, t ≠ s → τ.tasks t = σ.tasks t) ∧
    (τ.tasks s = { σ.tasks s with
      sig := enter h.sig h.act { (σ.tasks s).sig with
        pending := (σ.tasks s).sig.pending &&& ~~~bit h.sig }
      inPoll := false
      ioDeadline := if (σ.tasks s).inPoll then 0 else (σ.tasks s).ioDeadline }) ∧
    h.oldMask = if (σ.tasks s).sig.suspended then (σ.tasks s).sig.saved else (σ.tasks s).sig.mask

omit [Context C] in
theorem passes_editSig {pl : Plan} (hp : ∀ h, pl ≠ .handle h) (pending : SigThread → SigSet) :
    Passes s pl σ (σ.editSig s fun g => { g with pending := pending g }) :=
  ⟨hp, fun _ ht => tasks_editSig_of_ne ht, _, tasks_editSig_self⟩

/-- What a round of `deliver` does to the thread. -/
theorem plan_cases (s : Nat) (σ : Signals C) :
    Passes s (σ.plan s).1 σ (σ.plan s).2 ∨ Starts s (σ.plan s).1 σ (σ.plan s).2 := by
  unfold plan
  dsimp only
  split
  · exact .inl (passes_editSig (by simp) fun _ => 0)
  split
  · exact .inl ⟨by simp, fun _ _ => rfl, _, rfl⟩
  rename_i sig _
  have hpass : ∀ pl : Plan, (∀ h, pl ≠ .handle h) → Passes s pl σ
      (σ.editSig s fun g => { g with pending := g.pending &&& ~~~bit sig }) := fun pl hp =>
    passes_editSig hp fun g => g.pending &&& ~~~bit sig
  split
  · left
    apply hpass
    split <;> simp
  split
  · exact .inl (hpass _ (by simp))
  · right
    refine ⟨_, rfl, fun t ht => ?_, ?_, ?_⟩
    · dsimp only
      rw [tasks_edit_of_ne ht, tasks_editSig_of_ne ht]
      split
      · rw [tasks_setAction, tasks_editSig_of_ne ht]
      · rw [tasks_editSig_of_ne ht]
    · dsimp only
      rw [tasks_edit_self, tasks_editSig_self]
      split
      · rw [tasks_setAction, tasks_editSig_self]
        rfl
      · rw [tasks_editSig_self]
        rfl
    · dsimp only [handling]
      rw [tasks_editSig_self]

omit [Context C] in
theorem Passes.calm {pl : Plan} (h : Passes s pl σ τ) : Calm σ τ := fun t => by
  obtain ⟨-, hother, pending, hself⟩ := h
  by_cases ht : t = s
  · subst ht
    rw [hself]
    exact ⟨id, rfl, rfl, rfl, id⟩
  · rw [hother t ht]
    exact .refl _

/-! ### Runs -/

/-- What holds of the masks, and of the log. -/
structure MaskKept (σ : Signals C) (H : MaskLog) : Prop where
  fit : ∀ t, (σ.tasks t).Live → (σ.tasks t).Fit (H.before t)
  starts : ∀ r ∈ H.starts, r.mask = handlerMask r.old r.act r.sig
  ended : ∀ r ∈ H.ended, r.2 = r.1

variable {H : MaskLog}

omit [Context C] in
theorem MaskKept.calm (h : MaskKept σ H) (hc : Calm σ τ) : MaskKept τ H where
  fit t ht := (h.fit t ((hc t).live ht)).steady (hc t)
  starts := h.starts
  ended := h.ended

omit [Context C] in
theorem MaskKept.change (h : MaskKept σ H) (hother : ∀ t, t ≠ s → τ.tasks t = σ.tasks t)
    (hs : (τ.tasks s).Live → (τ.tasks s).Fit x) :
    MaskKept τ { H with before := Function.update H.before s x } where
  fit t ht := by
    by_cases hts : t = s
    · subst hts
      dsimp only
      rw [Function.update_self]
      exact hs ht
    · dsimp only
      rw [Function.update_of_ne hts, hother t hts]
      exact h.fit t (hother t hts ▸ ht)
  starts := h.starts
  ended := h.ended

omit [Context C] in
/-- An `rt_sigsuspend` ends, if there is one, and leaves the mask that was before it. -/
theorem MaskKept.ends (h : MaskKept σ H) (hother : ∀ t, t ≠ s → τ.tasks t = σ.tasks t)
    (hs : (τ.tasks s).Live → (τ.tasks s).Fit none) {m : SigSet}
    (hm : ∀ old, H.before s = some old → m = old) : MaskKept τ (H.ends s m) where
  fit := (h.change hother hs).fit
  starts := h.starts
  ended r hr := by
    cases hb : H.before s with
    | none =>
        rw [MaskLog.ends, hb] at hr
        exact h.ended r hr
    | some old =>
        rw [MaskLog.ends, hb] at hr
        rcases List.mem_cons.mp hr with rfl | hr
        · exact hm old hb
        · exact h.ended r hr

omit [Context C] in
theorem MaskKept.enters {f : Signals C → Signals C} (h : MaskKept σ H)
    (hs : σ.enters s f = some τ) : ∃ υ, MaskKept υ H ∧ τ = f υ ∧ (σ.tasks s).Live ∧
      (σ.tasks s).user = true ∧ υ.tasks s = { σ.tasks s with user := false } := by
  obtain ⟨⟨hrun, huser⟩, hf⟩ := (Option.ite_none_right_eq_some ..).mp hs
  refine ⟨_, h.calm (calm_edit ⟨id, rfl, rfl, rfl, fun hu => absurd hu Bool.false_ne_true⟩), (Option.some.inj hf).symm, ?_, huser,
    tasks_edit_self⟩
  rw [Task.Live, hrun]
  exact ⟨by decide, by decide⟩

omit [Context C] in
/-- `rt_sigprocmask` sets a mask that can be. -/
theorem MaskKept.sigprocmask (h : MaskKept σ H) (hl : (σ.tasks s).Live) (how : Nat)
    (set : Option SigSet) : MaskKept (σ.sigprocmask s how set) H := by
  unfold Signals.sigprocmask
  cases set with
  | none => exact h
  | some v =>
      dsimp only
      split
      · exact h
      · rename_i m _
        have hfit := h.fit s hl
        have hc := h.change (τ := σ.editSig s fun g => { g with mask := m.blockable })
          (x := H.before s) (fun t ht => tasks_editSig_of_ne ht) fun _ => by
            rw [tasks_editSig_self]
            exact ⟨SigSet.blockable_blockable, hfit.idle, hfit.saved, hfit.user⟩
        rwa [Function.update_eq_self] at hc

/-- **`rt_sigsuspend`** remembers the mask. -/
theorem MaskKept.sigSuspend (h : MaskKept σ H) (hl : (σ.tasks s).Live)
    (hu : (σ.tasks s).user = false) (hm : m.blockable = m) : MaskKept (σ.sigSuspend s m)
      { H with before := Function.update H.before s (some (σ.tasks s).sig.mask) } := by
  have hmask := (h.fit s hl).mask
  refine h.change (fun t ht => ?_) fun _ => ?_
  · unfold Signals.sigSuspend
    dsimp only
    split
    · exact tasks_edit_of_ne ht
    · rw [tasks_edit_of_ne ht, tasks_edit_of_ne ht]
  · have hfit : ∀ st, ({ σ.tasks s with
        sig := { (σ.tasks s).sig with
          saved := (σ.tasks s).sig.mask, suspended := true, mask := m }
        ctx := Context.setRet EINTR_RET (σ.tasks s).ctx, state := st } : Task C).Fit
          (some (σ.tasks s).sig.mask) := fun st =>
      ⟨hm, fun hs => absurd hs (by simp), fun _ => ⟨rfl, hmask⟩, fun hu' => absurd hu' (by simp [hu])⟩
    unfold Signals.sigSuspend
    dsimp only
    split
    · rw [tasks_edit_self]
      exact hfit (σ.tasks s).state
    · rw [tasks_edit_self, tasks_edit_self]
      exact hfit .sigWait

omit [Context C] in
/-- **A handler starts**, and ends an `rt_sigsuspend`. -/
theorem MaskKept.deliver {pl : Plan} {hd : Handling} (h : MaskKept σ H) (hl : (σ.tasks s).Live)
    (hs : Starts s pl σ υ) (hpl : pl = .handle hd) (ctx : C) :
    MaskKept (υ.edit s fun p => { p with ctx := ctx })
      { H.ends s hd.oldMask.blockable with
        starts := ⟨(H.before s).getD (σ.tasks s).sig.mask, hd.act, hd.sig,
          ((υ.edit s fun p => { p with ctx := ctx }).tasks s).sig.mask⟩ :: H.starts } := by
  obtain ⟨hd', hpl', hother, hself, hold⟩ := hs
  obtain rfl : hd = hd' := Plan.handle.inj (hpl.symm.trans hpl')
  have hfit := h.fit s hl
  -- what is put back is the mask before an `rt_sigsuspend`
  have hbefore : hd.oldMask = (H.before s).getD (σ.tasks s).sig.mask := by
    rw [hold]
    cases hsus : (σ.tasks s).sig.suspended
    · rw [hfit.idle hsus]
      rfl
    · rw [(hfit.saved hsus).1]
      rfl
  have hblock : hd.oldMask.blockable = hd.oldMask := by
    rw [hold]
    cases hsus : (σ.tasks s).sig.suspended
    · exact hfit.mask
    · exact (hfit.saved hsus).2
  have hmask : (υ.tasks s).sig.mask = handlerMask hd.oldMask hd.act hd.sig := by
    rw [hself, hold]
    exact enter_mask ..
  have hends := h.ends (τ := υ.edit s fun p => { p with ctx := ctx }) (m := hd.oldMask.blockable)
    (fun t ht => (tasks_edit_of_ne ht).trans (hother t ht)) (fun _ => by
      rw [tasks_edit_self]
      refine .plain ?_ ?_
      · dsimp only
        rw [hmask]
        exact SigSet.blockable_blockable
      · dsimp only
        rw [hself]
        rfl) fun old ho => by rw [hblock, hbefore, ho]; rfl
  refine ⟨hends.fit, fun r hr => ?_, hends.ended⟩
  rcases List.mem_cons.mp hr with rfl | hr
  · dsimp only
    rw [tasks_edit_self, ← hbefore, ← hmask]
  · exact h.starts r hr

theorem MaskKept.sigreturn {mask : SigSet} {ctx : C} (h : MaskKept σ H)
    (hs : σ.step (.sigreturn s mask ctx) = some τ) :
    MaskKept τ (MaskLog.note σ (.sigreturn s mask ctx) τ H) := by
  obtain ⟨υ, hυ, rfl, hl, hu, hself⟩ := h.enters hs
  have hidle : (υ.tasks s).sig.suspended = false := by
    rw [hself]
    exact (h.fit s hl).user hu
  have hc := hυ.change (τ := υ.sigreturn s mask ctx) (x := none)
    (fun t ht => tasks_edit_of_ne ht) fun _ => by
      rw [Signals.sigreturn, tasks_edit_self]
      exact .plain SigSet.blockable_blockable rfl
  have hb : H.before s = none := (hυ.fit s (hself ▸ hl)).idle hidle
  rw [← hb, Function.update_eq_self] at hc
  exact hc

theorem MaskKept.delivers {ctx : C} (h : MaskKept σ H)
    (hs : σ.step (.deliver s ctx) = some τ) :
    MaskKept τ (MaskLog.note σ (.deliver s ctx) τ H) := by
  obtain ⟨⟨hrun, -⟩, hd⟩ := (Option.ite_none_right_eq_some ..).mp hs
  have hl := Task.live_of_running hrun
  have hcases := plan_cases s σ
  rw [MaskLog.note]
  rcases hp : σ.plan s with ⟨pl, υ⟩
  rw [hp] at hcases hd
  dsimp only at hcases hd ⊢
  cases pl with
  | none =>
      obtain rfl := Option.some.inj hd
      exact h.calm (hcases.resolve_right fun hst => by obtain ⟨_, hh, -⟩ := hst; cases hh).calm
  | fatal sig =>
      obtain rfl := Option.some.inj hd
      exact h.calm (hcases.resolve_right fun hst => by obtain ⟨_, hh, -⟩ := hst; cases hh).calm
  | handle hd' =>
      obtain rfl := Option.some.inj hd
      exact h.deliver hl (hcases.resolve_left fun hpass => hpass.1 hd' rfl) rfl ctx

theorem MaskKept.fork {i generation : Nat} (h : MaskKept σ H)
    (hs : σ.step (.fork s i generation) = some τ) :
    MaskKept τ (MaskLog.note σ (.fork s i generation) τ H) := by
  obtain ⟨⟨⟨hrun, -⟩, -⟩, hd⟩ := (Option.ite_none_right_eq_some ..).mp hs
  obtain rfl := Option.some.inj hd
  have hl := Task.live_of_running hrun
  have hfit := h.fit s hl
  refine h.change (fun t ht => tasks_fork_of_ne ht) fun _ => ?_
  rw [Signals.fork]
  dsimp only
  rw [tasks_edit_self]
  exact ⟨hfit.mask, hfit.idle, hfit.saved, fun hu => absurd hu Bool.false_ne_true⟩

theorem MaskKept.over {zombie : Bool} (h : MaskKept σ H)
    (hs : σ.step (.ends t zombie) = some τ) :
    MaskKept τ (MaskLog.note σ (.ends t zombie) τ H) := by
  simp only [Signals.step] at hs
  have hgone : ∀ q : Task C, ¬ q.Live → (σ.tasks t).user = true ∨ q.user = false →
      q.sig = (σ.tasks t).sig → (σ.tasks t).Steady q := fun q hq hu hsig =>
    ⟨fun hl => absurd hl hq, by rw [hsig], by rw [hsig], by rw [hsig], fun hqu =>
      hu.resolve_right (by simp [hqu])⟩
  split at hs
  · obtain rfl := Option.some.inj hs
    refine h.calm (calm_edit (hgone _ ?_ (.inr rfl) rfl))
    rintro ⟨h₁, h₂⟩
    cases zombie <;> simp at h₁ h₂
  · split at hs
    · rename_i hz
      obtain rfl := Option.some.inj hs
      exact h.calm (calm_edit ⟨fun hl => absurd rfl hl.1, rfl, rfl, rfl, id⟩)
    · exact absurd hs (by simp)

theorem MaskKept.step {a : SigAct C} (h : MaskKept σ H) (ho : Handled σ a)
    (hs : σ.step a = some τ) : MaskKept τ (MaskLog.note σ a τ H) := by
  cases a with
  | trap s ctx =>
      obtain ⟨υ, hυ, rfl, -⟩ := h.enters hs
      exact hυ.calm (calm_edit ⟨id, rfl, rfl, rfl, id⟩)
  | sigaction s sig new =>
      obtain ⟨υ, hυ, rfl, -⟩ := h.enters hs
      exact hυ.calm (calm_sigaction s sig new υ)
  | sigaltstack s ss =>
      obtain ⟨υ, hυ, rfl, -⟩ := h.enters hs
      exact hυ.calm (calm_sigaltstack s ss υ)
  | fault s sig code addr =>
      simp only [Signals.step] at hs
      obtain ⟨υ, hυ, rfl, -⟩ := h.enters hs
      exact hυ.calm (calm_faultSignal s sig code addr υ)
  | post target sig thread infoPid =>
      obtain rfl := Option.some.inj hs
      exact h.calm (calm_postSignal target sig thread infoPid σ)
  | sigprocmask s how set =>
      obtain ⟨υ, hυ, rfl, hl, -, hself⟩ := h.enters hs
      exact hυ.sigprocmask (hself ▸ hl) how set
  | sigSuspend s mask =>
      obtain ⟨υ, hυ, rfl, hl, -, hself⟩ := h.enters hs
      have hmask : (σ.tasks s).sig.mask = (υ.tasks s).sig.mask := by rw [hself]
      rw [MaskLog.note, hmask]
      exact hυ.sigSuspend (hself ▸ hl) (by rw [hself]) (SigSet.blockable_eq_iff.mpr ho)
  | sigreturn s mask ctx =>
      exact h.sigreturn hs
  | deliver s ctx =>
      exact h.delivers hs
  | resume s =>
      obtain ⟨⟨hrun, -⟩, hd⟩ := (Option.ite_none_right_eq_some ..).mp hs
      obtain rfl := Option.some.inj hd
      have hl := Task.live_of_running hrun
      have hb : H.before s = none := (h.fit s hl).idle ho
      refine h.ends (fun t ht => tasks_edit_of_ne ht) (fun _ => ?_) fun old hold => ?_
      · rw [tasks_edit_self]
        exact .plain (h.fit s hl).mask ho
      · exact absurd (hb.symm.trans hold) (by simp)
  | threadCreate s i generation ctx =>
      obtain ⟨-, hd⟩ := (Option.ite_none_right_eq_some ..).mp hs
      obtain rfl := Option.some.inj hd
      refine h.change (fun t ht => tasks_threadCreate_of_ne ht) fun _ => ?_
      rw [Signals.threadCreate, tasks_edit_self]
      exact .plain SigSet.blockable_zero rfl
  | cloneThread s i generation =>
      obtain ⟨⟨⟨hrun, -⟩, -⟩, hd⟩ := (Option.ite_none_right_eq_some ..).mp hs
      obtain rfl := Option.some.inj hd
      have hl := Task.live_of_running hrun
      refine h.change (fun t ht => tasks_cloneThread_of_ne ht) fun _ => ?_
      rw [Signals.cloneThread, tasks_edit_self]
      exact .plain (h.fit s hl).mask rfl
  | fork s i generation =>
      exact h.fork hs
  | create i generation abi ctx =>
      obtain ⟨-, hd⟩ := (Option.ite_none_right_eq_some ..).mp hs
      obtain rfl := Option.some.inj hd
      refine h.change (fun t ht => tasks_create_of_ne ht) fun _ => ?_
      rw [Signals.create]
      dsimp only
      rw [tasks_edit_self]
      exact .plain SigSet.blockable_zero rfl
  | execReplace s abi ctx =>
      obtain ⟨-, hd⟩ := (Option.ite_none_right_eq_some ..).mp hs
      obtain rfl := Option.some.inj hd
      have hc : Calm σ (σ.edit s fun p => { p with
        abi := abi, ctx := ctx, sig := { p.sig with altSp := 0, altSize := 0 } }) :=
        calm_edit ⟨id, rfl, rfl, rfl, id⟩
      exact h.calm fun t => hc t
  | ends t zombie =>
      exact h.over hs
  | other t state ctx wakeAt ioKey ioDeadline inPoll =>
      obtain ⟨⟨hl, -⟩, hd⟩ := (Option.ite_none_right_eq_some ..).mp hs
      obtain rfl := Option.some.inj hd
      exact h.calm (calm_edit ⟨fun _ => hl, rfl, rfl, rfl, id⟩)

variable (C) in
/-- The runs from boot, with the log, whose steps satisfy `P`. -/
abbrev Masking (P : Signals C → SigAct C → Prop) : Signals C × MaskLog → Prop :=
  Noted Signals.step MaskLog.note Boot .empty P

/-- **The masks of signals**: while each `rt_sigsuspend` has a mask without `SIGKILL` and `SIGSTOP`
and its thread goes back to user code only once a handler was started, these two are not blocked, a
handler starts with the mask before, that of its action and its signal, and an `rt_sigsuspend`
leaves the mask that was before it. -/
theorem masks_kept (h : Masking C Handled (σ, H)) : σ.Masked H := by
  have hkept : MaskKept σ H := by
    refine Noted.invariant (I := MaskKept) ?_ ?_ h
    · intro σ hσ
      refine ⟨fun t ht => absurd (hσ t) ht.1, fun r hr => ?_, fun r hr => ?_⟩
      · exact absurd hr List.not_mem_nil
      · exact absurd hr List.not_mem_nil
    · intro σ a τ H hI ho hs
      exact hI.step ho hs
  exact ⟨fun t ht => SigSet.blockable_eq_iff.mp (hkept.fit t ht).mask, hkept.starts, hkept.ended⟩

/-! ### Runs from boot -/

instance (σ : Signals C) (a : SigAct C) : Decidable (Handled σ a) := by
  cases a <;> (unfold Handled; infer_instance)

/-- Nothing has happened yet. -/
def boot : Signals Arch.Riscv64.Context :=
  ⟨fun i => { fresh i 0 .zeroed with state := .unused }, fun _ _ => .dfl⟩

theorem boot_masking {P : Signals Arch.Riscv64.Context → SigAct Arch.Riscv64.Context → Prop} :
    Masking _ P (boot, .empty) := Noted.start fun _ => rfl

/-- A thread that blocks signal 12 waits with the mask `mask` for signal 10, which has a handler. -/
def waits (mask : SigSet) : List (SigAct Arch.Riscv64.Context) :=
  [.create 0 0 .linux .zeroed, .other 0 .running .zeroed 0 0 0 false, .resume 0,
    .sigaction 0 10 (some ⟨4096, 0, 0, 0⟩), .resume 0, .sigprocmask 0 0 (some (bit 12)), .resume 0,
    .sigSuspend 0 mask, .post 0 10 false 7, .other 0 .running .zeroed 0 0 0 false,
    .deliver 0 .zeroed, .resume 0]

/-- The handler of the signal starts, with the mask that `rt_sigsuspend` found. -/
theorem masks_kept_one : ∃ (σ : Signals Arch.Riscv64.Context) (H : MaskLog), σ.Masked H ∧
    H.starts.map Start.mask = [bit 12 ||| bit 10] ∧ H.ended = [(bit 12, bit 12)] := by
  have hrun : (Runs.run (noted Signals.step MaskLog.note) (fun x e => Handled x.1 e) (waits 0)
      (boot, .empty)).any (fun x => decide (x.2.starts.map Start.mask = [bit 12 ||| bit 10] ∧
        x.2.ended = [(bit 12, bit 12)])) = true := by
    decide +kernel
  obtain ⟨x, hx, hc⟩ := (Option.any_eq_true _ _).mp hrun
  obtain ⟨hstarts, hended⟩ := of_decide_eq_true hc
  have hreach : Masking _ Handled (x.1, x.2) := Reached.run boot_masking hx
  exact ⟨x.1, x.2, masks_kept hreach, hstarts, hended⟩

/-- The mask blocks `SIGKILL`, and the signal that ends the wait: it is in force afterwards. -/
theorem mask_left_behind : ∃ (σ : Signals Arch.Riscv64.Context) (H : MaskLog),
    Masking _ (fun _ _ => True) (σ, H) ∧
    ((σ.tasks 0).Live ∧ (σ.tasks 0).sig.mask &&& UNBLOCKABLE ≠ 0) ∧
    (σ.tasks 0).user = true ∧ ∃ r ∈ H.ended, r.2 ≠ r.1 := by
  have hrun : (Runs.run (noted Signals.step MaskLog.note) (fun _ _ => True)
      (waits (bit SIGKILL ||| bit 10)) (boot, .empty)).any (fun x => decide (
        ((x.1.tasks 0).Live ∧ (x.1.tasks 0).sig.mask &&& UNBLOCKABLE ≠ 0) ∧
        (x.1.tasks 0).user = true ∧ ∃ r ∈ x.2.ended, r.2 ≠ r.1)) = true := by
    decide +kernel
  obtain ⟨x, hx, hc⟩ := (Option.any_eq_true _ _).mp hrun
  have hreach : Masking _ (fun _ _ => True) (x.1, x.2) :=
    Reached.run (boot_masking (P := fun _ _ => True)) hx
  exact ⟨x.1, x.2, hreach, of_decide_eq_true hc⟩

end Signals

end Pulsar.Proc

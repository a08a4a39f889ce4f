import Pulsar.Proc.Masks

/-!
# Signals sent to a process

A signal sent to a process becomes pending at one of its threads, chosen there and then.  A list of
`Sent` records, beside a run, the signals sent to processes and not yet settled; what settles one is
a parameter, `gone`.

* `directed_pending`: until it is settled at the thread chosen, the signal is pending there, and the
  thread chosen does not block it if some live thread of the process does not.
* `directed_stranded`: a run in which the chosen thread ends, and the signal with it.
-/

namespace Pulsar.Proc

open Runs

variable {C : Type} {sig i : Nat} {m : SigSet}

/-! ### Sets of signals -/

theorem SigSet.has_or : (m ||| bit i).has sig = (m.has sig || (bit i).has sig) :=
  BitVec.getLsbD_or ..

theorem bit_has_self (h₁ : 1 ≤ sig) (h₂ : sig ≤ 64) : (bit sig).has sig = true := by
  rw [SigSet.has, bit, BitVec.getLsbD_twoPow]
  simp only [decide_true, Bool.and_true, decide_eq_true_eq]
  omega

theorem SigSet.has_clear (h : 1 ≤ sig) (hi : 1 ≤ i) (hne : sig ≠ i) :
    (m &&& ~~~bit i).has sig = m.has sig := by
  rw [SigSet.has, SigSet.has, BitVec.getLsbD_and, BitVec.getLsbD_not, bit,
    BitVec.getLsbD_twoPow, decide_eq_false (show ¬ i - 1 = sig - 1 by omega), Bool.and_false,
    Bool.not_false, Bool.and_true]
  by_cases hs : sig - 1 < 64
  · rw [decide_eq_true hs, Bool.and_true]
  · rw [BitVec.getLsbD_of_ge _ _ (by omega), Bool.false_and]

theorem SigSet.first_pos (h : m.first = some i) : 1 ≤ i := by
  obtain ⟨j, -, rfl⟩ := Option.map_eq_some_iff.mp h
  exact Nat.succ_pos j

namespace Signals

/-! ### The list -/

/-- A signal sent to the process of the slot `leader`, pending at `dest`. -/
structure Sent where
  leader : Nat
  sig : Nat
  dest : Nat

/-- The slot is of a live thread of the process of slot `l`. -/
def Member (l i : Nat) (σ : Signals C) : Prop := (σ.tasks i).Live ∧ (σ.tasks i).leader = l

instance (l i : Nat) (σ : Signals C) : Decidable (σ.Member l i) := by
  unfold Member
  infer_instance

def blocks (sig i : Nat) (σ : Signals C) : Bool := (σ.tasks i).sig.mask.has sig

def pends (sig i : Nat) (σ : Signals C) : Bool := (σ.tasks i).sig.pending.has sig

/-- A round of `deliver` takes the signal. -/
def Takes (s sig : Nat) (σ : Signals C) : Prop :=
  (σ.tasks s).abi ≠ .linux ∨ (ready (σ.tasks s).sig).first = some sig

instance (s sig : Nat) (σ : Signals C) : Decidable (σ.Takes s sig) := by
  unfold Takes
  infer_instance

/-- `rt_sigaction` sets the signal to be ignored. -/
def Ignores (sig : Nat) (new : Option Action) : Prop :=
  sig ≠ SIGKILL ∧ sig ≠ SIGSTOP ∧ ∃ a ∈ new, a.handler = SIG_IGN

instance (sig : Nat) (new : Option Action) : Decidable (Ignores sig new) := by
  unfold Ignores
  infer_instance

/-- The signal is delivered to a thread of the process, or one sets it to ignored, or the process
ends. -/
def Over (σ : Signals C) (a : SigAct C) (e : Sent) : Prop :=
  match a with
  | .deliver s _ => (σ.tasks s).leader = e.leader ∧ σ.Takes s e.sig
  | .sigaction s sig new => (σ.tasks s).leader = e.leader ∧ sig = e.sig ∧ Ignores sig new
  | .ends t _ => t = e.leader
  | _ => False

/-- The signal is delivered to its thread, or the thread sets it to ignored, or ends. -/
def OverThere (σ : Signals C) (a : SigAct C) (e : Sent) : Prop :=
  match a with
  | .deliver s _ => s = e.dest ∧ σ.Takes s e.sig
  | .sigaction s sig new => s = e.dest ∧ sig = e.sig ∧ Ignores sig new
  | .ends t _ => t = e.dest
  | _ => False

instance decidableOver (σ : Signals C) : (a : SigAct C) → (e : Sent) → Decidable (σ.Over a e)
  | .deliver .., _ => inferInstanceAs (Decidable (_ ∧ _))
  | .sigaction .., _ => inferInstanceAs (Decidable (_ ∧ _ ∧ _))
  | .ends .., _ => inferInstanceAs (Decidable (_ = _))
  | .trap .., _ | .sigprocmask .., _ | .sigaltstack .., _ | .sigSuspend .., _
  | .sigreturn .., _ | .fault .., _ | .post .., _ | .resume .., _ | .threadCreate .., _
  | .cloneThread .., _ | .fork .., _ | .create .., _ | .execReplace .., _ | .other .., _ => isFalse id

instance decidableOverThere (σ : Signals C) : (a : SigAct C) → (e : Sent) → Decidable (σ.OverThere a e)
  | .deliver .., _ => inferInstanceAs (Decidable (_ ∧ _))
  | .sigaction .., _ => inferInstanceAs (Decidable (_ ∧ _ ∧ _))
  | .ends .., _ => inferInstanceAs (Decidable (_ = _))
  | .trap .., _ | .sigprocmask .., _ | .sigaltstack .., _ | .sigSuspend .., _
  | .sigreturn .., _ | .fault .., _ | .post .., _ | .resume .., _ | .threadCreate .., _
  | .cloneThread .., _ | .fork .., _ | .create .., _ | .execReplace .., _ | .other .., _ => isFalse id

/-- A signal for a live process that is not ignored. -/
def sends (σ : Signals C) (a : SigAct C) : List Sent :=
  match a with
  | .post target sig false _ =>
    match σ.slotOf target with
    | none => []
    | some t =>
      let l := (σ.tasks t).leader
      if 1 ≤ sig ∧ sig ≤ 64 ∧ σ.Member l l ∧ σ.wouldAct l sig = true then
        [⟨l, sig, σ.chosen l sig⟩]
      else []
  | _ => []

/-- What is recorded of a step. -/
def Sent.note (gone : Signals C → SigAct C → Sent → Prop) [∀ σ a e, Decidable (gone σ a e)]
    (σ : Signals C) (a : SigAct C) (_ : Signals C) (H : List Sent) : List Sent :=
  σ.sends a ++ H.filter fun e => ¬ gone σ a e

/-- Some live thread has the signal pending, and one that does not block it if there is one. -/
def Held (σ : Signals C) (e : Sent) : Prop :=
  (∃ i < MAX_PROCS, σ.Member e.leader i ∧ σ.pends e.sig i = true) ∧
    ((∃ i < MAX_PROCS, σ.Member e.leader i ∧ σ.blocks e.sig i = false) →
      ∃ i < MAX_PROCS, σ.Member e.leader i ∧ σ.blocks e.sig i = false ∧ σ.pends e.sig i = true)

/-- The chosen thread is a live one of the process, and has the signal pending. -/
structure Due (σ : Signals C) (e : Sent) : Prop where
  member : σ.Member e.leader e.dest
  pends : σ.pends e.sig e.dest = true
  valid : 1 ≤ e.sig

/-! ### The choice -/

variable {σ τ υ : Signals C} {s t l : Nat} {f : Task C → Task C} {e : Sent} {H : List Sent}

theorem chosen_member (h : σ.Member l l) : σ.Member l (σ.chosen l sig) := by
  unfold chosen
  split
  · cases hf : (List.range MAX_PROCS).find? _ with
    | none => exact h
    | some i =>
        obtain ⟨hl, hlive, -⟩ := of_decide_eq_true (List.find?_some hf :)
        exact ⟨hlive, hl⟩
  · exact h

theorem chosen_free (h : ∃ i < MAX_PROCS, σ.Member l i ∧ σ.blocks sig i = false) :
    σ.blocks sig (σ.chosen l sig) = false := by
  obtain ⟨i, hi, hm, hb⟩ := h
  unfold chosen
  split
  · cases hf : (List.range MAX_PROCS).find? _ with
    | none =>
        have hnone := List.find?_eq_none.mp hf i (List.mem_range.mpr hi)
        exact absurd (decide_eq_true (show (σ.tasks i).leader = l ∧ (σ.tasks i).Live ∧
          (σ.tasks i).sig.mask.has sig = false from ⟨hm.2, hm.1, hb⟩)) hnone
    | some j => exact (of_decide_eq_true (List.find?_some hf :)).2.2
  · rename_i hl
    exact Bool.eq_false_iff.mpr hl

/-! ### What every step keeps -/

/-- A live thread stays one, of its process, and keeps the signal if it is pending. -/
structure Retains (sig : Nat) (p q : Task C) : Prop where
  live : p.Live → q.Live
  leader : q.leader = p.leader
  pending : p.sig.pending.has sig = true → q.sig.pending.has sig = true

theorem Retains.refl (p : Task C) : Retains sig p p := ⟨id, rfl, id⟩

theorem Retains.trans {p q r : Task C} (h : Retains sig p q) (h' : Retains sig q r) :
    Retains sig p r :=
  ⟨h'.live ∘ h.live, h'.leader.trans h.leader, h'.pending ∘ h.pending⟩

/-- Every live thread keeps the signal. -/
def Retained (sig : Nat) (σ τ : Signals C) : Prop := ∀ t, Retains sig (σ.tasks t) (τ.tasks t)

theorem Retained.refl (σ : Signals C) : Retained sig σ σ := fun _ => .refl _

theorem Retained.trans (h : Retained sig σ τ) (h' : Retained sig τ υ) : Retained sig σ υ :=
  fun t => (h t).trans (h' t)

theorem retained_edit (h : Retains sig (σ.tasks s) (f (σ.tasks s))) :
    Retained sig σ (σ.edit s f) := fun t => by
  by_cases ht : t = s
  · subst ht
    rw [tasks_edit_self]
    exact h
  · rw [tasks_edit_of_ne ht]
    exact .refl _

theorem retained_editSig {g : SigThread → SigThread}
    (h : ∀ x, x.pending.has sig = true → (g x).pending.has sig = true) :
    Retained sig σ (σ.editSig s g) :=
  retained_edit ⟨id, rfl, h _⟩

theorem Due.retained (h : σ.Due e) (hr : Retained e.sig σ τ) : τ.Due e :=
  ⟨⟨(hr e.dest).live h.member.1, (hr e.dest).leader.trans h.member.2⟩,
    (hr e.dest).pending h.pends, h.valid⟩

theorem Due.other (h : σ.Due e) (ht : τ.tasks e.dest = σ.tasks e.dest) : τ.Due e := by
  obtain ⟨⟨hlive, hleader⟩, hpends, hvalid⟩ := h
  refine ⟨⟨?_, ?_⟩, ?_, hvalid⟩
  · rwa [ht]
  · rwa [ht]
  · rwa [Signals.pends, ht]

theorem Due.enters {f : Signals C → Signals C} (h : σ.Due e) (hs : σ.enters s f = some τ) :
    ∃ υ, τ = f υ ∧ υ.Due e := by
  obtain ⟨-, hf⟩ := (Option.ite_none_right_eq_some ..).mp hs
  exact ⟨_, (Option.some.inj hf).symm, h.retained (retained_edit ⟨id, rfl, id⟩)⟩

theorem retained_faultSignal (s n code addr : Nat) (σ : Signals C) :
    Retained sig σ (σ.faultSignal s n code addr).2 := by
  unfold faultSignal
  dsimp only
  split
  · exact .refl _
  · dsimp only
    apply retained_editSig
    intro x hx
    rw [SigSet.has_or, hx, Bool.true_or]

theorem retained_sigaltstack (s : Nat) (ss : Option (Nat × Nat)) (σ : Signals C) :
    Retained sig σ (σ.sigaltstack s ss) := by
  unfold sigaltstack
  cases ss with
  | none => exact retained_editSig fun _ => id
  | some x =>
      dsimp only
      split_ifs
      · exact .refl _
      · exact retained_editSig fun _ => id

theorem retained_sigprocmask (s how : Nat) (set : Option SigSet) (σ : Signals C) :
    Retained sig σ (σ.sigprocmask s how set) := by
  unfold sigprocmask
  cases set with
  | none => exact .refl _
  | some v =>
      dsimp only
      split
      · exact .refl _
      · exact retained_editSig fun _ => id

theorem Due.clear (h : σ.Due e) (hi : 1 ≤ i) (hne : s = e.dest → e.sig ≠ i) :
    (σ.editSig s fun g => { g with pending := g.pending &&& ~~~bit i }).Due e := by
  by_cases hd : e.dest = s
  · refine h.retained (retained_edit ⟨id, rfl, fun hp => ?_⟩)
    dsimp only
    rwa [SigSet.has_clear h.valid hi (hne hd.symm)]
  · exact h.other (tasks_editSig_of_ne hd)

/-- `rt_sigaction` takes away no signal but its own, and that only when it ignores it. -/
theorem Due.sigaction {new : Option Action} (h : σ.Due e)
    (ho : ¬ (s = e.dest ∧ sig = e.sig ∧ Ignores sig new)) : (σ.sigaction s sig new).Due e := by
  unfold Signals.sigaction
  split
  · exact h
  rename_i hsig
  cases new with
  | none => exact h
  | some n =>
      dsimp only
      split
      · exact h
      rename_i hfixed
      have hset : (σ.setAction (σ.tasks s).leader sig { n with mask := n.mask.blockable }).Due e :=
        h.other rfl
      split
      · rename_i hign
        refine hset.clear (by omega) fun hd he => ho ⟨hd, he.symm, ?_⟩
        exact ⟨fun hk => hfixed (.inl hk), fun hk => hfixed (.inr hk), n, rfl, hign⟩
      · exact hset

variable [Context C]

theorem retained_sigSuspend (s : Nat) (mask : SigSet) (σ : Signals C) :
    Retained sig σ (σ.sigSuspend s mask) := by
  unfold sigSuspend
  dsimp only
  have hmask : Retained sig σ (σ.edit s fun p => { p with
      sig := { p.sig with saved := p.sig.mask, suspended := true, mask := mask }
      ctx := Context.setRet EINTR_RET p.ctx }) := retained_edit ⟨id, rfl, id⟩
  split
  · exact hmask
  · refine hmask.trans (retained_edit ⟨fun _ => ?_, rfl, id⟩)
    exact Task.live_of .sigWait rfl (by decide) (by decide)

theorem retains_rouse (restart : Bool) (p : Task C) : Retains sig p (rouse restart p) := by
  rcases rouse_cases restart p with h | ⟨-, c, w, k, d, i, h⟩
  · rw [h]
    exact .refl p
  · rw [h]
    exact ⟨fun _ => Task.live_of .ready rfl (by decide) (by decide), rfl, id⟩

theorem accept_pending (n infoPid : Nat) (restart : Bool) (p : Task C) :
    (accept n infoPid restart p).sig.pending = p.sig.pending ||| bit n := by
  unfold accept
  dsimp only
  split
  · rfl
  · rcases rouse_cases restart { p with sig := { p.sig with
        pending := p.sig.pending ||| bit n, fromPid := infoPid } } with h | ⟨-, c, w, k, d, i, h⟩
    · rw [h]
    · rw [h]

theorem retains_accept (n infoPid : Nat) (restart : Bool) (p : Task C) :
    Retains sig p (accept n infoPid restart p) := by
  have hp : Retains sig p { p with sig := { p.sig with
      pending := p.sig.pending ||| bit n, fromPid := infoPid } } := by
    refine ⟨id, rfl, fun hp => ?_⟩
    dsimp only
    rw [SigSet.has_or, hp, Bool.true_or]
  unfold accept
  dsimp only
  split
  · exact hp
  · exact hp.trans (retains_rouse _ _)

theorem retained_postSignal (target n : Nat) (thread : Bool) (infoPid : Nat) (σ : Signals C) :
    Retained sig σ (σ.postSignal target n thread infoPid).2 := by
  unfold postSignal
  split
  · exact .refl _
  · dsimp only
    split
    · exact retained_edit (retains_accept _ _ _ _)
    · exact .refl _

/-- A round of `deliver` takes away no signal but the one that it takes. -/
theorem Due.plan (h : σ.Due e) (ho : ¬ (s = e.dest ∧ σ.Takes s e.sig)) :
    (σ.plan s).2.Due e := by
  unfold Signals.plan
  dsimp only
  split
  · rename_i habi
    apply h.other
    dsimp only
    exact tasks_editSig_of_ne fun hd => ho ⟨hd.symm, .inl habi⟩
  split
  · exact h
  rename_i sig hfirst
  have hclear := h.clear (SigSet.first_pos hfirst) fun hd he => ho ⟨hd, .inr (he ▸ hfirst)⟩
  split
  · exact hclear
  split
  · exact hclear
  · dsimp only
    refine Due.retained ?_ (retained_edit ⟨id, rfl, id⟩)
    refine Due.retained ?_ (retained_editSig fun _ => id)
    split
    · exact hclear.other rfl
    · exact hclear

theorem Due.step {a : SigAct C} (h : σ.Due e) (ho : ¬ σ.OverThere a e) (hs : σ.step a = some τ) :
    τ.Due e := by
  -- a slot that a new thread takes is not that of a live one
  have hborn : ∀ i, (σ.tasks i).state = .unused → e.dest ≠ i := fun i hi hd =>
    h.member.1.1 (hd ▸ hi)
  cases a with
  | trap s ctx =>
      obtain ⟨υ, rfl, hυ⟩ := h.enters hs
      exact hυ.retained (retained_edit ⟨id, rfl, id⟩)
  | sigaction s sig new =>
      obtain ⟨υ, rfl, hυ⟩ := h.enters hs
      exact hυ.sigaction ho
  | sigprocmask s how set =>
      obtain ⟨υ, rfl, hυ⟩ := h.enters hs
      exact hυ.retained (retained_sigprocmask s how set υ)
  | sigaltstack s ss =>
      obtain ⟨υ, rfl, hυ⟩ := h.enters hs
      exact hυ.retained (retained_sigaltstack s ss υ)
  | sigSuspend s mask =>
      obtain ⟨υ, rfl, hυ⟩ := h.enters hs
      exact hυ.retained (retained_sigSuspend s mask υ)
  | sigreturn s mask ctx =>
      obtain ⟨υ, rfl, hυ⟩ := h.enters hs
      exact hυ.retained (retained_edit ⟨id, rfl, id⟩)
  | fault s sig code addr =>
      simp only [Signals.step] at hs
      obtain ⟨υ, rfl, hυ⟩ := h.enters hs
      exact hυ.retained (retained_faultSignal s sig code addr υ)
  | post target sig thread infoPid =>
      obtain rfl := Option.some.inj hs
      exact h.retained (retained_postSignal target sig thread infoPid σ)
  | deliver s ctx =>
      obtain ⟨-, hd⟩ := (Option.ite_none_right_eq_some ..).mp hs
      have hplan := h.plan ho
      rcases hp : σ.plan s with ⟨pl, υ⟩
      rw [hp] at hplan hd
      cases pl with
      | none =>
          obtain rfl := Option.some.inj hd
          exact hplan
      | fatal sig =>
          obtain rfl := Option.some.inj hd
          exact hplan
      | handle hd' =>
          obtain rfl := Option.some.inj hd
          exact hplan.retained (retained_edit ⟨id, rfl, id⟩)
  | resume s =>
      obtain ⟨-, hd⟩ := (Option.ite_none_right_eq_some ..).mp hs
      obtain rfl := Option.some.inj hd
      exact h.retained (retained_edit ⟨id, rfl, id⟩)
  | threadCreate s i generation ctx =>
      obtain ⟨⟨-, -, hi⟩, hd⟩ := (Option.ite_none_right_eq_some ..).mp hs
      obtain rfl := Option.some.inj hd
      exact h.other (tasks_threadCreate_of_ne (hborn i hi))
  | cloneThread s i generation =>
      obtain ⟨⟨-, -, hi⟩, hd⟩ := (Option.ite_none_right_eq_some ..).mp hs
      obtain rfl := Option.some.inj hd
      exact h.other (tasks_cloneThread_of_ne (hborn i hi))
  | fork s i generation =>
      obtain ⟨⟨-, -, hi⟩, hd⟩ := (Option.ite_none_right_eq_some ..).mp hs
      obtain rfl := Option.some.inj hd
      exact h.other (tasks_fork_of_ne (hborn i hi))
  | create i generation abi ctx =>
      obtain ⟨⟨-, hi⟩, hd⟩ := (Option.ite_none_right_eq_some ..).mp hs
      obtain rfl := Option.some.inj hd
      exact h.other (tasks_create_of_ne (hborn i hi))
  | execReplace s abi ctx =>
      obtain ⟨-, hd⟩ := (Option.ite_none_right_eq_some ..).mp hs
      obtain rfl := Option.some.inj hd
      have hr : Retained e.sig σ (σ.edit s fun p => { p with
        abi := abi, ctx := ctx, sig := { p.sig with altSp := 0, altSize := 0 } }) :=
        retained_edit ⟨id, rfl, id⟩
      exact h.retained fun t => hr t
  | ends t zombie =>
      have ht : e.dest ≠ t := fun hd => ho hd.symm
      simp only [Signals.step] at hs
      split at hs
      · obtain rfl := Option.some.inj hs
        exact h.other (tasks_edit_of_ne ht)
      · split at hs
        · obtain rfl := Option.some.inj hs
          exact h.other (tasks_edit_of_ne ht)
        · exact absurd hs (by simp)
  | other t state ctx wakeAt ioKey ioDeadline inPoll =>
      obtain ⟨⟨-, -, h₁, h₂⟩, hd⟩ := (Option.ite_none_right_eq_some ..).mp hs
      obtain rfl := Option.some.inj hd
      exact h.retained (retained_edit ⟨fun _ => ⟨h₁, h₂⟩, rfl, id⟩)

theorem Due.sent {a : SigAct C} (he : e ∈ σ.sends a) (hs : σ.step a = some τ) : τ.Due e := by
  unfold sends at he
  split at he
  case h_2 => exact absurd he List.not_mem_nil
  rename_i target sig infoPid
  cases ht : σ.slotOf target with
  | none =>
      rw [ht] at he
      exact absurd he List.not_mem_nil
  | some t =>
      rw [ht] at he
      dsimp only at he
      split at he
      case isFalse => exact absurd he List.not_mem_nil
      rename_i hsend
      obtain ⟨h₁, h₂, hlead, hact⟩ := hsend
      obtain rfl := List.mem_singleton.mp he
      obtain rfl := Option.some.inj hs
      have hpost : (σ.postSignal target sig false infoPid).2 =
          σ.edit (σ.chosen (σ.tasks t).leader sig)
            (accept sig infoPid (σ.restarts (σ.tasks t).leader sig)) := by
        rw [postSignal, ht]
        dsimp only
        rw [if_pos hact]
        rfl
      have hmember : σ.Member (σ.tasks t).leader (σ.chosen (σ.tasks t).leader sig) :=
        chosen_member hlead
      have hkept : Retains sig (σ.tasks (σ.chosen (σ.tasks t).leader sig))
          (accept sig infoPid (σ.restarts (σ.tasks t).leader sig)
            (σ.tasks (σ.chosen (σ.tasks t).leader sig))) := retains_accept ..
      rw [hpost]
      refine ⟨⟨?_, ?_⟩, ?_, h₁⟩
      · rw [tasks_edit_self]
        exact hkept.live hmember.1
      · rw [tasks_edit_self]
        exact hkept.leader.trans hmember.2
      · rw [Signals.pends, tasks_edit_self, accept_pending, SigSet.has_or, bit_has_self h₁ h₂,
          Bool.or_true]

/-! ### Runs -/

variable (C) in
/-- The runs from boot, with the signals sent to processes that `gone` has not settled. -/
abbrev Directing (gone : Signals C → SigAct C → Sent → Prop) [∀ σ a e, Decidable (gone σ a e)] :
    Signals C × List Sent → Prop :=
  Noted Signals.step (Sent.note gone) Boot [] fun _ _ => True

/-- **Signals sent to a process**: from the moment such a signal is accepted until it is delivered
at the thread chosen for it, or that thread sets it to ignored or ends, that thread is a live one of
the process and has it pending; and the thread chosen at any moment does not block the signal if
some live thread of the process does not. -/
theorem directed_pending (h : Directing C OverThere (σ, H)) :
    (∀ e ∈ H, σ.Member e.leader e.dest ∧ σ.pends e.sig e.dest = true) ∧
    ∀ l sig, σ.Member l l → σ.Member l (σ.chosen l sig) ∧
      ((∃ i < MAX_PROCS, σ.Member l i ∧ σ.blocks sig i = false) →
        σ.blocks sig (σ.chosen l sig) = false) := by
  have hdue : ∀ e ∈ H, σ.Due e := by
    refine Noted.invariant (I := fun σ (H : List Sent) => ∀ e ∈ H, σ.Due e) ?_ ?_ h
    · intro σ _ e he
      exact absurd he List.not_mem_nil
    · intro σ a τ H hI _ hs e he
      rcases List.mem_append.mp he with he | he
      · exact .sent he hs
      · obtain ⟨he, ho⟩ := List.mem_filter.mp he
        exact (hI e he).step (of_decide_eq_true ho) hs
  exact ⟨fun e he => ⟨(hdue e he).member, (hdue e he).pends⟩,
    fun l sig hl => ⟨chosen_member hl, chosen_free⟩⟩

/-! ### Runs from boot -/

/-- The first of two threads blocks signal 10, which has a handler and is sent to the process. -/
def sent : List (SigAct Arch.Riscv64.Context) :=
  [.create 0 0 .linux .zeroed, .other 0 .running .zeroed 0 0 0 false, .cloneThread 0 1 0, .resume 0,
    .sigaction 0 10 (some ⟨4096, 0, 0, 0⟩), .resume 0, .sigprocmask 0 0 (some (bit 10)),
    .post 0 10 false 7]

/-- It is pending at the second thread, and stays so when that one blocks it too. -/
theorem directed_pending_one : ∃ (σ : Signals Arch.Riscv64.Context) (H : List Sent),
    σ.blocks 10 1 = true ∧ H.map (fun e => (e.leader, e.sig, e.dest)) = [(0, 10, 1)] ∧
    ∀ e ∈ H, σ.Member e.leader e.dest ∧ σ.pends e.sig e.dest = true := by
  have hrun : (Runs.run (noted Signals.step (Sent.note OverThere)) (fun _ _ => True)
      (sent ++ [.other 1 .running .zeroed 0 0 0 false, .resume 1,
        .sigprocmask 1 0 (some (bit 10))]) (boot, [])).any (fun x =>
      decide (x.1.blocks 10 1 = true ∧
        x.2.map (fun e => (e.leader, e.sig, e.dest)) = [(0, 10, 1)])) = true := by
    decide +kernel
  obtain ⟨x, hx, hc⟩ := (Option.any_eq_true _ _).mp hrun
  obtain ⟨hblocks, hsent⟩ := of_decide_eq_true hc
  have hstart : Directing _ OverThere (boot, []) := Noted.start fun _ => rfl
  have hreach : Directing _ OverThere (x.1, x.2) := Reached.run hstart hx
  exact ⟨x.1, x.2, hblocks, hsent, (directed_pending hreach).1⟩

/-- The second thread ends, and nobody has the signal any more. -/
theorem directed_stranded : ¬ ∀ (σ : Signals Arch.Riscv64.Context) (H : List Sent),
    Directing _ Over (σ, H) → ∀ e ∈ H, σ.Held e := by
  intro hall
  have hrun : (Runs.run (noted Signals.step (Sent.note Over)) (fun _ _ => True)
      (sent ++ [.ends 1 false]) (boot, [])).any (fun x => decide (∃ e ∈ x.2, ¬ ∃ i < MAX_PROCS,
        x.1.Member e.leader i ∧ x.1.pends e.sig i = true)) = true := by
    decide +kernel
  obtain ⟨x, hx, hc⟩ := (Option.any_eq_true _ _).mp hrun
  obtain ⟨e, he, hnone⟩ := of_decide_eq_true hc
  have hstart : Directing _ Over (boot, []) := Noted.start fun _ => rfl
  have hreach : Directing _ Over (x.1, x.2) := Reached.run hstart hx
  exact hnone (hall x.1 x.2 hreach e he).1

end Signals

end Pulsar.Proc

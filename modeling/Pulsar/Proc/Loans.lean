import Pulsar.Proc.Deeds

/-!
# The loan of a space (`process.rs`)

The parent of a `vfork` lends its space and waits.  The link back, `vfork_parent`, is the slot of
the parent, which may be another process by then; and a thread of the child that runs elsewhere goes
on until its processor enters the kernel.  A note (`Loans`) is kept of who lent the space to whom.

* `Suspends`, `Resumes`: what `vfork` promises, of a state and of a step.
* `parents_suspended`: it keeps its promise where no slot has a stale child when it lends its space,
  and no thread of a child runs when the child gives the space back.
* `parent_resumed`: a stale child resumes the parent of another.
-/

namespace Pulsar.Proc

/-- By slot: the pid of the one that lent its space to the process of the slot, and the pid of the
last child that it lent its own to. -/
structure Loans where
  lender : Nat → Option Nat
  child : Nat → Option Nat

namespace Loans

def none : Loans := ⟨fun _ => .none, fun _ => .none⟩

/-- A thread has what its process has, and a new image ends the loan. -/
def deed (ps : Procs) (H : Loans) : Deed → Loans
  | .creates i _ => { H with lender := Function.update H.lender i .none }
  | .threads s i => { H with lender := Function.update H.lender i (H.lender s) }
  | .vforks s i =>
    { lender := Function.update H.lender i (some (ps s).pid)
      child := Function.update H.child s (some (ps.fresh i).pid) }
  | .execs s => { H with lender := Function.update H.lender s .none }
  | _ => H

/-- The note of an event. -/
def note (σ : Machine) (e : Machine.Event) (_ : Machine) (H : Loans) : Loans :=
  (σ.deeds e).foldl (·.deed σ.procs) H

end Loans

namespace Procs

variable {ps qs rs : Procs} {i s t x : Nat} {H : Loans} {X Y : Nat → Prop}

/-- Nothing stale is left when a space is lent or given back. -/
def Clean (ps : Procs) (ds : List Deed) : Deed → Prop
  | .vforks s _ => ∀ i < MAX_PROCS, (ps i).Live → (ps i).vforkParent ≠ some s
  | .ends t | .execs t => (ps t).vforkParent = none ∨
      ∀ i < MAX_PROCS, (ps i).state = .running → (ps i).leader = t → i = t ∨ .ends i ∈ ds
  | _ => True

instance (ps : Procs) (ds : List Deed) (d : Deed) : Decidable (ps.Clean ds d) := by
  cases d <;> unfold Clean <;> infer_instance

/-- A parent that waits has a child, each child its parent, and each borrower a child for which the
lender waits, but for the slots of `X`, which end. -/
structure Lent (X : Nat → Prop) (ps : Procs) (H : Loans) : Prop where
  waits : ∀ x, (ps x).state = .vforkWait → ∃ i, (ps i).Live ∧ (ps i).vforkParent = some x ∧
    H.child x = some (ps i).pid
  one : ∀ i j x, (ps i).Live → (ps j).Live → (ps i).vforkParent = some x →
    (ps j).vforkParent = some x → i = j
  leads : ∀ i x, (ps i).Live → (ps i).vforkParent = some x → (ps i).leader = i
  lends : ∀ i p, (ps i).Live → ¬ X i → H.lender i = some p → (ps (ps i).leader).Live ∧
    (ps (ps i).leader).vforkParent = some (p % MAX_PROCS) ∧
      ∀ x, (ps x).Live → (ps x).pid = p → (ps x).state = .vforkWait
  past : ∀ i p, H.lender i = some p →
    p < p % MAX_PROCS + MAX_PROCS * (ps (p % MAX_PROCS)).generation

theorem lent_empty : Lent X (fun _ => Process.empty) .none where
  waits _ h := absurd h (by simp [Process.empty])
  one _ _ _ h := absurd rfl h.1
  leads _ _ h := absurd rfl h.1
  lends _ _ h := absurd rfl h.1
  past _ _ h := absurd h (by simp [Loans.none])

theorem update_some {f : Nat → Option Nat} {o : Option Nat} {j p : Nat}
    (h : Function.update f i o j = some p) : j = i ∧ o = some p ∨ j ≠ i ∧ f j = some p := by
  by_cases e : j = i
  · rw [e, Function.update_self] at h
    exact .inl ⟨e, h⟩
  · rw [Function.update_of_ne e] at h
    exact .inr ⟨e, h⟩

theorem update_none {f : Nat → Option Nat} {j p : Nat}
    (h : Function.update f i none j = some p) : j ≠ i ∧ f j = some p :=
  (update_some h).resolve_left fun e => absurd e.2 (by simp)

/-! ### Deeds that neither lend nor give back -/

/-- The same processes live, and the same wait for a child. -/
def Steady (ps qs : Procs) : Prop := ∀ i, (ps i).Alike (qs i) ∧
  (qs i).vforkParent = (ps i).vforkParent ∧ ((qs i).Live ↔ (ps i).Live) ∧
  ((qs i).state = .vforkWait ↔ (ps i).state = .vforkWait)

theorem Go.steady (h : Go ps qs) : Steady ps qs := fun i =>
  ⟨(h i).alike, (h i).vfork, (h i).same.live, (h i).stuck .vforkWait (by decide)⟩

theorem steady_edit {f : Process → Process} (ha : (ps i).Alike (f (ps i)))
    (hv : (f (ps i)).vforkParent = (ps i).vforkParent) (hl : (f (ps i)).Live ↔ (ps i).Live)
    (hw : (f (ps i)).state = .vforkWait ↔ (ps i).state = .vforkWait) :
    Steady ps (ps.edit i f) := fun j => by
  by_cases e : j = i
  · subst e
    rw [edit_self]
    exact ⟨ha, hv, hl, hw⟩
  · rw [edit_of_ne e]
    exact ⟨.refl _, rfl, .rfl, .rfl⟩

theorem Delivers.steady {r : Nat} {m : Message} (h : Delivers s r m ps qs) : Steady ps qs :=
  fun i => by
    refine ⟨(h.kept i).1, ?_, (h.same i).live, ?_⟩
    · by_cases e : i = s
      · rw [e, h.sender]
      · by_cases e' : i = r
        · rw [e', h.receiver]
        · rw [h.others i e e']
    · by_cases e : i = s
      · rw [e, h.sender_state]
        rcases h.sent with hs | ⟨hs, -⟩ <;> rw [hs] <;> decide
      · by_cases e' : i = r
        · rw [e']
          rcases h.state with ⟨h₁, h₂⟩ | ⟨h₁, h₂⟩
          · rw [h₁, h₂]
            decide
          · rw [h₁, h₂]
        · rw [h.others i e e']

theorem Lent.steady (h : Lent X ps H) (hs : Steady ps qs) : Lent X qs H where
  waits x hx := by
    obtain ⟨i, hi, hv, hc⟩ := h.waits x ((hs x).2.2.2.mp hx)
    exact ⟨i, (hs i).2.2.1.mpr hi, (hs i).2.1.trans hv, by rw [(hs i).1.pid, hc]⟩
  one i j x hi hj hvi hvj := h.one i j x ((hs i).2.2.1.mp hi) ((hs j).2.2.1.mp hj)
    ((hs i).2.1.symm.trans hvi) ((hs j).2.1.symm.trans hvj)
  leads i x hi hv := (hs i).1.leader.trans
    (h.leads i x ((hs i).2.2.1.mp hi) ((hs i).2.1.symm.trans hv))
  lends i p hi hX hp := by
    obtain ⟨h₁, h₂, h₃⟩ := h.lends i p ((hs i).2.2.1.mp hi) hX hp
    rw [(hs i).1.leader]
    refine ⟨(hs _).2.2.1.mpr h₁, (hs _).2.1.trans h₂, fun x hx hxp => ?_⟩
    exact (hs x).2.2.2.mpr (h₃ x ((hs x).2.2.1.mp hx) ((hs x).1.pid.symm.trans hxp))
  past i p hp := by
    rw [(hs _).1.generation]
    exact h.past i p hp

/-! ### The ends of processes -/

/-- Processes end, and no child before its threads. -/
theorem Lent.fates (h : Lent X ps H) (hf : Fates s ps qs) (hslot : ∀ i, (ps i).Live → i < MAX_PROCS)
    (hn : ps.Named) (hX : ∀ i, (qs i).Live → ¬ Y i → ¬ X i)
    (hl : ∀ i p, (qs i).Live → ¬ Y i → (ps (ps i).leader).Live →
      (ps (ps i).leader).vforkParent = some p → (ps (ps i).leader).leader = (ps i).leader →
        (qs (ps i).leader).Live) : Lent Y qs H where
  waits x hx := by
    have hx' : (ps x).state = .vforkWait :=
      (hf.state_back (State.live_of_eq hx (by decide) (by decide)) (by rw [hx]; decide)).symm.trans hx
    obtain ⟨i, hi, hv, hc⟩ := h.waits x hx'
    have hi' : (qs i).Live := by
      by_contra hdead
      exact hf.lent i hi hdead x hv hx
    exact ⟨i, hi', (hf.vforkParent hi').trans hv, by rw [(hf.fixed i).pid, hc]⟩
  one i j x hi hj hvi hvj := h.one i j x (hf.live hi) (hf.live hj)
    ((hf.vforkParent hi).symm.trans hvi) ((hf.vforkParent hj).symm.trans hvj)
  leads i x hi hv := (hf.fixed i).leader.trans
    (h.leads i x (hf.live hi) ((hf.vforkParent hi).symm.trans hv))
  lends i p hi hY hp := by
    obtain ⟨h₁, h₂, h₃⟩ := h.lends i p (hf.live hi) (hX i hi hY) hp
    have hlead := hl i _ hi hY h₁ h₂ (h.leads _ _ h₁ h₂)
    rw [(hf.fixed i).leader]
    refine ⟨hlead, (hf.vforkParent hlead).trans h₂, fun x hx hxp => ?_⟩
    have hxl := hf.live hx
    have hxp' := (hf.fixed x).pid.symm.trans hxp
    have hw := h₃ x hxl hxp'
    cases hf.fate x with
    | stays state => exact state.trans hw
    | ends live dead => exact absurd hx dead
    | rests dead => exact absurd hxl dead
    | fails t awaits =>
        rcases awaits with ⟨e, -⟩ | ⟨e, -⟩ <;> exact absurd (hw.symm.trans e) (by decide)
    | resumes t waits live dead child =>
        -- the child that ended is the one that leads slot `i`
        rw [← hxp', hn.slot hxl (hslot x hxl)] at h₂
        exact absurd (h.one _ _ x h₁ live h₂ child ▸ hlead) dead
    | collects waits => exact absurd (hw.symm.trans waits) (by decide)
  past i p hp := by
    rw [(hf.fixed _).generation]
    exact h.past i p hp

/-- A process ends with its threads, of which none runs that is not about to end. -/
theorem Lent.ends (h : Lent X ps H) {es : List Effect} (ht : Takes ps (.ends t) qs es)
    (hslot : ∀ i, (ps i).Live → i < MAX_PROCS) (hn : ps.Named)
    (hX : ∀ i, i ≠ t → (qs i).Live → ¬ Y i → ¬ X i)
    (hc : (ps t).vforkParent = none ∨
      ∀ i < MAX_PROCS, (ps i).state = .running → (ps i).leader = t → i = t ∨ Y i) : Lent Y qs H := by
  cases ht with
  | ends live fates space dead dismissed only =>
      refine h.fates fates hslot hn (fun i hi => hX i (fun e => dead (e ▸ hi)) hi)
        fun i p hi hY hl hv hlead => ?_
      by_contra hgone
      have hit : i ≠ t := fun e => dead (e ▸ hi)
      have hi' := hslot i (fates.live hi)
      have hlt : (ps i).leader = t := by
        rcases only _ hl hgone with e | e
        · exact e
        · rwa [hlead] at e
      rw [hlt] at hv hlead
      -- a thread of the process that ended is left: it runs
      rcases dismissed hlead i hi' hit with e | e | ⟨e, -⟩
      · exact e ((fates.fixed i).leader.trans hlt)
      · exact e hi
      · rcases hc with hc | hc
        · exact absurd (hc.symm.trans hv) (by simp)
        · exact (hc i hi' (fates.running_back e) hlt).elim hit hY

/-- The other threads of slot `s` end, which goes on. -/
theorem Lent.dismisses (h : Lent X ps H) (hf : Fates s ps qs) (hs : (qs s).Live)
    (honly : ∀ i, (ps i).Live → ¬ (qs i).Live → (ps i).leader = s)
    (hslot : ∀ i, (ps i).Live → i < MAX_PROCS) (hn : ps.Named) : Lent X qs H := by
  refine h.fates hf hslot hn (fun _ _ => id) fun i p hi _ hl _ hlead => ?_
  by_contra hgone
  have hls : (ps i).leader = s := hlead.symm.trans (honly _ hl hgone)
  exact hgone (hls ▸ hs)

/-- Slot `s` goes on in another space, and its loan ends. -/
theorem Lent.execs (h : Lent X ps H) (hx : Execs s ps qs)
    (hpid : ∀ i, (ps i).Live → (ps i).pid % MAX_PROCS = i) (hs : (ps s).state = .running)
    (hgone : ∀ i p, i ≠ s → (ps i).Live → (ps i).leader = s → (ps s).vforkParent = some p → False) :
    Lent X qs { H with lender := Function.update H.lender s none } := by
  have hself : (qs s).state = .running ∧ (qs s).vforkParent = none := by
    rw [hx.self]
    exact ⟨hs, rfl⟩
  have hback : ∀ i, i ≠ s → (qs i).Live →
      (ps i).Live ∧ (qs i).vforkParent = (ps i).vforkParent := fun i hi hl => by
    cases hx.others i hi with
    | stays eq =>
        rw [eq] at hl ⊢
        exact ⟨hl, rfl⟩
    | resumes child waits eq =>
        rw [eq]
        exact ⟨State.live_of_eq waits (by decide) (by decide), rfl⟩
    | goes fixed zombie unused => exact absurd unused hl.1
  have hforth : ∀ i, i ≠ s → (ps i).Live → (qs i).Live := fun i hi hl => by
    cases hx.others i hi with
    | stays eq =>
        rw [eq]
        exact hl
    | resumes child waits eq => exact Process.live_of_ready (by rw [eq])
    | goes fixed zombie => exact absurd zombie hl.2
  refine ⟨fun x hw => ?_, fun i j x hi hj hvi hvj => ?_, fun i x hi hv => ?_,
    fun i p hi hX hp => ?_, fun i p hp => ?_⟩
  · have hxs : x ≠ s := fun e => by
      rw [e, hself.1] at hw
      exact absurd hw (by decide)
    cases hx.others x hxs with
    | stays eq hno =>
        rw [eq] at hw
        obtain ⟨i, hi, hv, hc⟩ := h.waits x hw
        have his : i ≠ s := fun e => hno (e ▸ hv) hw
        refine ⟨i, hforth i his hi, ?_, by rw [(hx.alike i).pid, hc]⟩
        rw [(hback i his (hforth i his hi)).2, hv]
    | resumes child waits eq =>
        rw [eq] at hw
        exact absurd hw (by simp)
    | goes fixed zombie unused => exact absurd (unused.symm.trans hw) (by decide)
  · have hne : ∀ k, (qs k).vforkParent = some x → k ≠ s := fun k hk e => by
      rw [e, hself.2] at hk
      exact absurd hk (by simp)
    obtain ⟨hi', hvi'⟩ := hback i (hne i hvi) hi
    obtain ⟨hj', hvj'⟩ := hback j (hne j hvj) hj
    exact h.one i j x hi' hj' (hvi'.symm.trans hvi) (hvj'.symm.trans hvj)
  · have his : i ≠ s := fun e => by
      rw [e, hself.2] at hv
      exact absurd hv (by simp)
    obtain ⟨hi', hvi'⟩ := hback i his hi
    exact (hx.alike i).leader.trans (h.leads i x hi' (hvi'.symm.trans hv))
  · obtain ⟨his, hp⟩ := update_none hp
    have hi' := (hback i his hi).1
    obtain ⟨h₁, h₂, h₃⟩ := h.lends i p hi' hX hp
    have hls : (ps i).leader ≠ s := fun e => hgone i _ his hi' e (e ▸ h₂)
    have hl' := hforth _ hls h₁
    rw [(hx.alike i).leader]
    refine ⟨hl', (hback _ hls hl').2.trans h₂, fun x hxl hxp => ?_⟩
    have hxp' := (hx.alike x).pid.symm.trans hxp
    have hxs : x ≠ s := fun e => by
      subst e
      have hw := h₃ x (Process.live_of_running hs) hxp'
      exact absurd (hs.symm.trans hw) (by decide)
    have hxl' := (hback x hxs hxl).1
    have hw := h₃ x hxl' hxp'
    cases hx.others x hxs with
    | stays eq =>
        rw [eq]
        exact hw
    | resumes child waits eq =>
        rw [← hxp', hpid x hxl'] at h₂
        exact absurd (h.one _ _ x h₁ (Process.live_of_running hs) h₂ child) hls
    | goes fixed zombie unused => exact absurd unused hxl.1
  · rw [(hx.alike _).generation]
    exact h.past i p (update_none hp).2

/-! ### A process begins -/

theorem Born.old (h : Born ps i qs) {j : Nat} (hj : j ≠ i) : (ps j).Alike (qs j) ∧
    (qs j).vforkParent = (ps j).vforkParent ∧ (qs j).state = (ps j).state := by
  rw [h.others j hj]
  exact ⟨⟨rfl, rfl, rfl, rfl⟩, rfl, rfl⟩

theorem Born.live_ne (h : Born ps i qs) {j : Nat} (hj : j ≠ i) : (qs j).Live ↔ (ps j).Live := by
  rw [Process.Live, Process.Live, (h.old hj).2.2]

/-- A process begins in slot `i`: what holds of the other slots holds on, and the new one is a
borrower as slot `s` is, or none. -/
theorem Lent.born (h : Lent X ps H) (hb : Born ps i qs) (hv : (qs i).vforkParent = none)
    {o : Option Nat} (ho : ∀ p, o = some p → (ps (qs i).leader).Live ∧
      (ps (qs i).leader).vforkParent = some (p % MAX_PROCS) ∧
      (∀ x, (ps x).Live → (ps x).pid = p → (ps x).state = .vforkWait) ∧
      p < p % MAX_PROCS + MAX_PROCS * (ps (p % MAX_PROCS)).generation) :
    Lent X qs { H with lender := Function.update H.lender i o } := by
  have hold : ∀ j, (qs j).Live → j ≠ i → (ps j).Live := fun j hj e => (hb.live_ne e).mp hj
  have hgen : ∀ k, (ps k).generation ≤ (qs k).generation := fun k => by
    by_cases e : k = i
    · rw [e, hb.generation]
      omega
    · rw [(hb.old e).1.generation]
  have hlive : ∀ l, (ps l).Live → (qs l).Live ∧ (qs l).vforkParent = (ps l).vforkParent :=
    fun l hl => ⟨(hb.live_ne (hb.ne hl)).mpr hl, (hb.old (hb.ne hl)).2.1⟩
  have hfork : ∀ j x, (qs j).vforkParent = some x → j ≠ i := fun j x hj e => by
    rw [e, hv] at hj
    exact absurd hj (by simp)
  -- the pid of the new process is no pid of a lender
  have hlast : ∀ p, p < p % MAX_PROCS + MAX_PROCS * (ps (p % MAX_PROCS)).generation →
      (∀ x, (ps x).Live → (ps x).pid = p → (ps x).state = .vforkWait) →
      ∀ x, (qs x).Live → (qs x).pid = p → (qs x).state = .vforkWait := fun p hp hw x hx hxp => by
    by_cases e : x = i
    · rw [e, hb.pid] at hxp
      rw [← hxp, Nat.add_mul_mod_self_left, Nat.mod_eq_of_lt hb.unused.2] at hp
      omega
    · rw [(hb.old e).2.2]
      exact hw x (hold x hx e) ((hb.old e).1.pid.symm.trans hxp)
  refine ⟨fun x hx => ?_, fun j k x hj hk hvj hvk => ?_, fun j x hj hvj => ?_,
    fun j p hj hX hp => ?_, fun j p hp => ?_⟩
  · have hxi : x ≠ i := fun e => by
      rw [e, hb.state] at hx
      exact absurd hx (by decide)
    rw [(hb.old hxi).2.2] at hx
    obtain ⟨j, hj, hvj, hc⟩ := h.waits x hx
    exact ⟨j, (hlive j hj).1, (hlive j hj).2.trans hvj, by rw [(hb.old (hb.ne hj)).1.pid, hc]⟩
  · have hji := hfork j x hvj
    have hki := hfork k x hvk
    rw [(hb.old hji).2.1] at hvj
    rw [(hb.old hki).2.1] at hvk
    exact h.one j k x (hold j hj hji) (hold k hk hki) hvj hvk
  · have hji := hfork j x hvj
    rw [(hb.old hji).2.1] at hvj
    exact (hb.old hji).1.leader.trans (h.leads j x (hold j hj hji) hvj)
  · rcases update_some hp with ⟨e, hp'⟩ | ⟨e, hp'⟩
    · subst e
      obtain ⟨h₁, h₂, h₃, h₄⟩ := ho p hp'
      exact ⟨(hlive _ h₁).1, (hlive _ h₁).2.trans h₂, hlast p h₄ h₃⟩
    · obtain ⟨h₁, h₂, h₃⟩ := h.lends j p (hold j hj e) hX hp'
      rw [(hb.old e).1.leader]
      exact ⟨(hlive _ h₁).1, (hlive _ h₁).2.trans h₂, hlast p (h.past j p hp') h₃⟩
  · have hp' : p < p % MAX_PROCS + MAX_PROCS * (ps (p % MAX_PROCS)).generation := by
      rcases update_some hp with ⟨-, hp⟩ | ⟨-, hp⟩
      · exact (ho p hp).2.2.2
      · exact h.past j p hp
    have := Nat.mul_le_mul_left MAX_PROCS (hgen (p % MAX_PROCS))
    omega

/-- A process begins in slot `i`, and its parent waits. -/
theorem Born.waits (h : Born ps i rs) (hs : (ps s).state = .running) {j : Nat} (hj : j ≠ i) :
    (ps j).Alike ((rs.setState s .vforkWait) j) ∧
      ((rs.setState s .vforkWait) j).vforkParent = (ps j).vforkParent ∧
      (((rs.setState s .vforkWait) j).Live ↔ (ps j).Live) ∧
      (((rs.setState s .vforkWait) j).state = .vforkWait ↔ j = s ∨ (ps j).state = .vforkWait) := by
  obtain ⟨h₁, h₂, h₃⟩ := h.old hj
  by_cases e : j = s
  · subst e
    rw [setState, edit_self]
    have hlive := Process.live_of_running hs
    exact ⟨⟨h₁.pid, h₁.generation, h₁.leader, h₁.parent⟩, h₂,
      iff_of_true ⟨by simp, by simp⟩ hlive, iff_of_true rfl (.inl rfl)⟩
  · rw [setState, edit_of_ne e, h₃, Process.Live, Process.Live, h₃]
    exact ⟨h₁, h₂, .rfl, by simp [e]⟩

/-- Slot `s`, which nobody names, lends its space to slot `i` and waits. -/
theorem Lent.vfork (h : Lent X ps H) (hb : Born ps i rs) (hs : (ps s).state = .running)
    (hn : ps.Named) (hslot : ∀ i, (ps i).Live → i < MAX_PROCS) (hv : (rs i).vforkParent = some s)
    (hl : (rs i).leader = i) (hc : ∀ j < MAX_PROCS, (ps j).Live → (ps j).vforkParent ≠ some s) :
    Lent X (rs.setState s .vforkWait)
      { lender := Function.update H.lender i (some (ps s).pid)
        child := Function.update H.child s (some (ps.fresh i).pid) } := by
  have hslive := Process.live_of_running hs
  have hsi : i ≠ s := (hb.ne hslive).symm
  have hnew : (rs.setState s .vforkWait) i = rs i := by rw [setState, edit_of_ne hsi]
  have hnewlive : ((rs.setState s .vforkWait) i).Live := by
    rw [hnew]
    exact Process.live_of_ready hb.state
  have hpid : (ps s).pid % MAX_PROCS = s := hn.slot hslive (hslot s hslive)
  have hold := fun {j} (hj : j ≠ i) => hb.waits hs hj
  -- the lenders and their pids
  have hpast : ∀ j p, Function.update H.lender i (some (ps s).pid) j = some p →
      p < p % MAX_PROCS + MAX_PROCS * (ps (p % MAX_PROCS)).generation := fun j p hp => by
    rcases update_some hp with ⟨-, hp⟩ | ⟨-, hp⟩
    · obtain rfl := Option.some.inj hp
      have := hn s hslive.1
      rw [hpid]
      have hpos : 0 < MAX_PROCS := by decide
      omega
    · exact h.past j p hp
  have hlast : ∀ j p, Function.update H.lender i (some (ps s).pid) j = some p →
      (∀ x, (ps x).Live → (ps x).pid = p → x = s ∨ (ps x).state = .vforkWait) →
      ∀ x, ((rs.setState s .vforkWait) x).Live → ((rs.setState s .vforkWait) x).pid = p →
        ((rs.setState s .vforkWait) x).state = .vforkWait := fun j p hp hw x hx hxp => by
    by_cases e : x = i
    · have hp' := hpast j p hp
      rw [e, hnew, hb.pid] at hxp
      rw [← hxp, Nat.add_mul_mod_self_left, Nat.mod_eq_of_lt hb.unused.2] at hp'
      omega
    · obtain ⟨h₁, -, h₃, h₄⟩ := hold e
      exact h₄.mpr (hw x (h₃.mp hx) (h₁.pid.symm.trans hxp))
  refine ⟨fun x hx => ?_, fun j k x hj hk hvj hvk => ?_, fun j x hj hvj => ?_,
    fun j p hj hX hp => ?_, fun j p hp => ?_⟩
  · by_cases e : x = s
    · subst e
      refine ⟨i, hnewlive, by rw [hnew, hv], ?_⟩
      rw [hnew, hb.pid]
      exact Function.update_self ..
    · have hxi : x ≠ i := fun e' => by
        rw [e', hnew, hb.state] at hx
        exact absurd hx (by decide)
      obtain ⟨j, hj, hvj, hcj⟩ := h.waits x (((hold hxi).2.2.2.mp hx).resolve_left e)
      obtain ⟨h₁, h₂, h₃, -⟩ := hold (hb.ne hj)
      refine ⟨j, h₃.mpr hj, h₂.trans hvj, ?_⟩
      rw [h₁.pid, ← hcj]
      exact Function.update_of_ne e ..
  · have hparent : ∀ j, ((rs.setState s .vforkWait) j).Live →
        ((rs.setState s .vforkWait) j).vforkParent = some x → j ≠ i →
          (ps j).Live ∧ (ps j).vforkParent = some x ∧ x ≠ s := fun j hj hvj hji => by
      obtain ⟨-, h₂, h₃, -⟩ := hold hji
      rw [h₂] at hvj
      exact ⟨h₃.mp hj, hvj, fun e => hc j (hslot j (h₃.mp hj)) (h₃.mp hj) (e ▸ hvj)⟩
    have hown : ((rs.setState s .vforkWait) i).vforkParent = some x → x = s := fun hvi => by
      rw [hnew, hv] at hvi
      exact (Option.some.inj hvi).symm
    by_cases hji : j = i
    · by_cases hki : k = i
      · rw [hji, hki]
      · exact absurd (hown (hji ▸ hvj)) (hparent k hk hvk hki).2.2
    · obtain ⟨hj', hvj', hxs⟩ := hparent j hj hvj hji
      by_cases hki : k = i
      · exact absurd (hown (hki ▸ hvk)) hxs
      · obtain ⟨hk', hvk', -⟩ := hparent k hk hvk hki
        exact h.one j k x hj' hk' hvj' hvk'
  · by_cases hji : j = i
    · rw [hji, hnew, hl]
    · obtain ⟨h₁, h₂, h₃, -⟩ := hold hji
      exact h₁.leader.trans (h.leads j x (h₃.mp hj) (h₂.symm.trans hvj))
  · rcases update_some hp with ⟨e, hp'⟩ | ⟨e, hp'⟩
    · subst e
      obtain rfl := Option.some.inj hp'
      rw [hnew, hl, hnew, hv, hpid]
      refine ⟨Process.live_of_ready hb.state, rfl, hlast j _ hp fun x hx hxp => .inl ?_⟩
      rw [← hn.slot hx (hslot x hx), hxp, hpid]
    · obtain ⟨h₁, -, h₃, -⟩ := hold e
      obtain ⟨hl₁, hl₂, hl₃⟩ := h.lends j p (h₃.mp hj) hX hp'
      obtain ⟨-, hv', hlive', -⟩ := hold (hb.ne hl₁)
      rw [h₁.leader]
      exact ⟨hlive'.mpr hl₁, hv'.trans hl₂, hlast j p hp fun x hx hxp => .inr (hl₃ x hx hxp)⟩
  · have hgen : (ps (p % MAX_PROCS)).generation ≤
        ((rs.setState s .vforkWait) (p % MAX_PROCS)).generation := by
      by_cases e : p % MAX_PROCS = i
      · rw [e, hnew, hb.generation]
        omega
      · rw [(hold e).1.generation]
    have := Nat.mul_le_mul_left MAX_PROCS hgen
    have := hpast j p hp
    omega

/-! ### Every deed -/

theorem Lent.mono (h : Lent X ps H) (hX : ∀ i, ¬ Y i → ¬ X i) : Lent Y ps H :=
  ⟨h.waits, h.one, h.leads, fun i p hi hY => h.lends i p hi (hX i hY), h.past⟩

theorem steady_markKilled (t : Nat) : Steady ps (ps.markKilled t) :=
  steady_edit ⟨rfl, rfl, rfl, rfl⟩ rfl .rfl .rfl

theorem Takes.steady_sends {d : Nat} {m : Message} {es : List Effect}
    (h : Takes ps (.sends s d m) qs es) : Steady ps qs := by
  cases h with
  | sends msgPtr run =>
      refine steady_edit ⟨rfl, rfl, rfl, rfl⟩ rfl ?_ (iff_of_false (by simp) (by rw [run]; decide))
      exact iff_of_true ⟨by simp, by simp⟩ (Process.live_of_running run)

theorem Takes.steady_replies {m : Message} {es : List Effect}
    (h : Takes ps (.replies s t m) qs es) : Steady ps qs := by
  cases h with
  | replies run state =>
      refine steady_edit ⟨rfl, rfl, rfl, rfl⟩ rfl ?_ (iff_of_false (by simp) (by rw [state]; decide))
      exact iff_of_true ⟨by simp, by simp⟩ (State.live_of_eq state (by decide) (by decide))

/-- **One deed** keeps the loans, where it is clean. -/
theorem Takes.lent {d : Deed} {es : List Effect} (ht : Takes ps d qs es) (hf : Fine ps)
    (hn : ps.Named) (h : Lent X ps H) (hX : ∀ i, X i → d = .ends i) (hc : ps.Clean [d] d) :
    Lent (fun _ => False) qs (H.deed ps d) := by
  have hslot : ∀ i, (ps i).Live → i < MAX_PROCS := fun i hi => hf.slots i hi.1
  have hno : (∀ i, d ≠ .ends i) → Lent (fun _ => False) ps H := fun hd =>
    h.mono fun i _ hi => hd i (hX i hi)
  cases ht with
  | sends msgPtr run live ne =>
      exact (hno (by simp)).steady (Takes.sends msgPtr run live ne).steady_sends
  | delivers takes free => exact (hno (by simp)).steady takes.steady
  | replies run state peer free =>
      exact (hno (by simp)).steady (Takes.replies run state peer free).steady_replies
  | creates born space own root leader vfork child => exact (hno (by simp)).born born vfork (by simp)
  | threads run born space join leader vfork child =>
      have hno := hno (by simp)
      refine hno.born born vfork fun p hp => ?_
      obtain ⟨h₁, h₂, h₃⟩ := hno.lends _ p (Process.live_of_running run) id hp
      rw [leader]
      exact ⟨h₁, h₂, h₃, hno.past _ p hp⟩
  | vforks run born space join leader vfork child =>
      exact (hno (by simp)).vfork born run hn hslot vfork leader hc
  | marks run => exact (hno (by simp)).steady (steady_markKilled _)
  | ends live fates space dead dismissed only =>
      refine h.ends (.ends live fates space dead dismissed only) hslot hn
        (fun i hi _ _ hx => hi (Deed.ends.inj (hX i hx)).symm) (hc.imp_right fun hc i hi hr hl => ?_)
      refine .inl ((hc i hi hr hl).elim id fun e => ?_)
      exact Deed.ends.inj (List.mem_singleton.mp e)
  | dismisses run fates space run' only =>
      exact (hno (by simp)).dismisses fates (Process.live_of_running run') only hslot hn
  | execs run fates run' dismissed only image space space' own leader root =>
      have hrest := (hno (by simp)).dismisses fates (Process.live_of_running run') only hslot hn
      have hrunning := Process.live_of_running run'
      refine hrest.execs image (fun i hi => ?_) run' fun i p his hi hl hv => ?_
      · rw [(fates.fixed i).pid]
        exact hn.slot (fates.live hi) (hslot i (fates.live hi))
      · -- a thread of the child is left: it runs
        rcases dismissed i (hslot i (fates.live hi)) his with e | e | ⟨e, -⟩
        · exact e hl
        · exact e hi
        · rw [fates.vforkParent hrunning] at hv
          rcases hc with hc | hc
          · exact absurd (hc.symm.trans hv) (by simp)
          · rw [(fates.fixed i).leader] at hl
            rcases hc i (hslot i (fates.live hi)) (fates.running_back e) hl with e | e
            · exact his e
            · exact absurd (List.mem_singleton.mp e) (by simp)

/-- A parent goes on when its child ended or has a new image. -/
def Resumes (ps : Procs) (H : Loans) (ds : List Deed) (qs : Procs) : Prop :=
  ∀ x, (ps x).state = .vforkWait → (qs x).Live → (qs x).state ≠ .vforkWait →
    ∃ i, (ps i).Live ∧ H.child x = some (ps i).pid ∧ (¬ (qs i).Live ∨ .execs i ∈ ds)

/-- The child of a parent that goes on is the one that ends. -/
theorem Lent.resumes (h : Lent X ps H) (hf : Fates s ps qs) (hx : (ps x).state = .vforkWait)
    (hlive : (qs x).Live) (hgoes : (qs x).state ≠ .vforkWait) :
    ∃ i, (ps i).Live ∧ H.child x = some (ps i).pid ∧ ¬ (qs i).Live := by
  cases hf.fate x with
  | stays state => exact absurd (state.trans hx) hgoes
  | ends live dead => exact absurd hlive dead
  | rests dead dead' => exact absurd hlive dead'
  | fails t awaits =>
      rcases awaits with ⟨e, -⟩ | ⟨e, -⟩ <;> exact absurd (hx.symm.trans e) (by decide)
  | resumes t waits live dead child =>
      obtain ⟨i, hi, hv, hc⟩ := h.waits x hx
      exact ⟨i, hi, hc, h.one i t x hi live hv child ▸ dead⟩
  | collects waits => exact absurd (hx.symm.trans waits) (by decide)

theorem Steady.resumes (h : Steady ps qs) (ds : List Deed) : Resumes ps H ds qs :=
  fun x hx _ hgoes => absurd ((h x).2.2.2.mpr hx) hgoes

theorem Born.resumes (h : Born ps i qs) (ds : List Deed) : Resumes ps H ds qs :=
  fun x hx _ hgoes => by
    have hxi := h.ne (State.live_of_eq hx (by decide) (by decide))
    exact absurd ((h.old hxi).2.2.trans hx) hgoes

/-- **One deed** resumes a parent by its own child. -/
theorem Takes.resumes {d : Deed} {es : List Effect} (ht : Takes ps d qs es) (h : Lent X ps H) :
    Resumes ps H [d] qs := by
  cases ht with
  | sends msgPtr run live ne => exact (Takes.sends msgPtr run live ne).steady_sends.resumes _
  | delivers takes free => exact takes.steady.resumes _
  | replies run state peer free => exact (Takes.replies run state peer free).steady_replies.resumes _
  | creates born => exact born.resumes _
  | threads run born => exact born.resumes _
  | vforks run born =>
      intro x hx _ hgoes
      have hxi := born.ne (State.live_of_eq hx (by decide) (by decide))
      exact absurd ((born.waits run hxi).2.2.2.mpr (.inr hx)) hgoes
  | marks run => exact (steady_markKilled _).resumes _
  | ends live fates =>
      intro x hx hlive hgoes
      obtain ⟨i, h₁, h₂, h₃⟩ := h.resumes fates hx hlive hgoes
      exact ⟨i, h₁, h₂, .inl h₃⟩
  | dismisses run fates =>
      intro x hx hlive hgoes
      obtain ⟨i, h₁, h₂, h₃⟩ := h.resumes fates hx hlive hgoes
      exact ⟨i, h₁, h₂, .inl h₃⟩
  | execs run fates run' dismissed only image space space' own leader root =>
      rename_i s rs _
      intro x hx hlive hgoes
      have hrx : (rs x).Live := image.live hlive
      by_cases hmid : (rs x).state = .vforkWait
      · have hxs : x ≠ s := fun e => by
          rw [e, run'] at hmid
          exact absurd hmid (by decide)
        cases image.others x hxs with
        | stays eq =>
            rw [eq] at hgoes
            exact absurd hmid hgoes
        | resumes child waits eq =>
            obtain ⟨i, hi, hv, hc⟩ := h.waits x hx
            rw [fates.vforkParent (Process.live_of_running run')] at child
            have his := h.one i s x hi (Process.live_of_running run) hv child
            exact ⟨i, hi, hc, .inr (his ▸ List.mem_singleton.mpr rfl)⟩
        | goes fixed zombie unused => exact absurd unused hlive.1
      · obtain ⟨i, h₁, h₂, h₃⟩ := h.resumes fates hx hrx hmid
        exact ⟨i, h₁, h₂, .inl fun hi => h₃ (image.live hi)⟩

theorem Clean.second {l : Nat} {d : Deed} (hf : Fates l ps qs)
    (hd : ∀ i, (qs i).Live → d ≠ .ends i) (hs : (qs s).Live)
    (hc : ps.Clean [d, .ends s] (.ends s)) : qs.Clean [.ends s] (.ends s) := by
  refine hc.imp (fun h => (hf.vforkParent hs).trans h) fun h i hi hr hl => ?_
  rw [(hf.fixed i).leader] at hl
  refine (h i hi (hf.running_back hr) hl).imp_right fun hmem => ?_
  rcases List.mem_cons.mp hmem with e | e
  · exact absurd e.symm (hd i (Process.live_of_running hr))
  · exact e

theorem Clean.go {ds : List Deed} {d : Deed} (h : Go ps qs) (hr : SameRunning ps qs)
    (hc : ps.Clean ds d) : qs.Clean ds d := by
  have hends : ∀ t, ((ps t).vforkParent = none ∨ ∀ i < MAX_PROCS, (ps i).state = .running →
      (ps i).leader = t → i = t ∨ .ends i ∈ ds) → ((qs t).vforkParent = none ∨ ∀ i < MAX_PROCS,
      (qs i).state = .running → (qs i).leader = t → i = t ∨ .ends i ∈ ds) := fun t hc =>
    hc.imp (fun hv => (h t).vfork.trans hv) fun hc i hi hri hl =>
      hc i hi ((hr i).mp hri) ((h i).alike.leader.symm.trans hl)
  cases d with
  | vforks s i =>
      intro j hj hl hv
      exact hc j hj ((h j).same.live.mp hl) ((h j).vfork.symm.trans hv)
  | ends t => exact hends t hc
  | execs t => exact hends t hc
  | _ => trivial

/-- The loans of a table are those of one with the same processes. -/
theorem Loans.deed_congr (h : ∀ i, (ps i).Alike (qs i)) (d : Deed) : H.deed ps d = H.deed qs d := by
  cases d with
  | vforks s i => simp only [Loans.deed, fresh, (h s).pid, (h i).generation]
  | _ => rfl

theorem Go.resumes {ds : List Deed} (h : Resumes ps H ds qs) (hgo : Go qs rs) :
    Resumes ps H ds rs := fun x hx hl hw => by
  obtain ⟨i, h₁, h₂, h₃⟩ := h x hx ((hgo x).same.live.mp hl)
    (mt ((hgo x).stuck .vforkWait (by decide)).mpr hw)
  exact ⟨i, h₁, h₂, h₃.imp_left fun hd => mt (hgo i).same.live.mp hd⟩

theorem Go.resumed {ds : List Deed} (hgo : Go ps qs) (h : Resumes qs H ds rs) :
    Resumes ps H ds rs := fun x hx hl hw => by
  obtain ⟨i, h₁, h₂, h₃⟩ := h x (((hgo x).stuck .vforkWait (by decide)).mpr hx) hl hw
  exact ⟨i, (hgo i).same.live.mp h₁, h₂.trans (by rw [(hgo i).alike.pid]), h₃⟩

/-- **The deeds of an event** keep the loans, where they are clean. -/
theorem Course.lent {ds : List Deed} {fs : List (Nat × Option Nat)}
    (hcourse : Course ds ps fs qs) (hf : Fine ps)
    (hn : ps.Named) (h : Lent (fun _ => False) ps H) (hc : ∀ d ∈ ds, ps.Clean ds d) :
    Lent (fun _ => False) qs (ds.foldl (·.deed ps) H) ∧ Resumes ps H ds qs := by
  cases hcourse with
  | rest go => exact ⟨h.steady go.steady, go.steady.resumes []⟩
  | last go same takes next settles =>
      rename_i d ps' qs' es
      have h' := h.steady go.steady
      have hlent := takes.lent (hf.congr go.same) (hn.same (fun i => (go i).alike) go.same) h'
        (fun _ => False.elim) ((hc d List.mem_cons_self).go go same)
      refine ⟨?_, go.resumed (next.resumes (takes.resumes h'))⟩
      rw [List.foldl_cons, List.foldl_nil, Loans.deed_congr fun i => (go i).alike]
      exact hlent.steady next.steady
  | group kill first go same between takes next settles =>
      rename_i d l s ts ts' qs' es es'
      obtain ⟨hfates, hfine, hnamed, hends⟩ := first.killed kill hf hn
      have hfirst : Lent (· = s) ts H := by
        rcases kill with rfl | rfl
        · cases first
          exact (h.mono fun _ _ => id).steady (steady_markKilled l)
        · refine h.ends first (fun i hi => hf.slots i hi.1) hn (fun _ _ _ _ => id)
            ((hc _ List.mem_cons_self).imp_right fun hc i hi hr hl => ?_)
          rcases hc i hi hr hl with e | e
          · exact .inl e
          · rcases List.mem_cons.mp e with e | e
            · exact .inl (Deed.ends.inj e)
            · exact .inr (Deed.ends.inj (List.mem_singleton.mp e))
      have hslive : (ts' s).Live := by
        cases takes with
        | ends live => exact live
      have hclean : ts'.Clean [.ends s] (.ends s) := by
        refine Clean.go go same (Clean.second hfates hends ((go s).same.live.mp hslive) ?_)
        exact hc _ (List.mem_cons_of_mem _ List.mem_cons_self)
      have h' := hfirst.steady go.steady
      have hlent := takes.lent (hfine.congr go.same) (hnamed.same (fun i => (go i).alike) go.same)
        h' (fun i hi => hi ▸ rfl) hclean
      refine ⟨?_, fun x hx hl hw => ?_⟩
      · have hkept : ([d, .ends s].foldl (·.deed ps) H) = H := by
          rcases kill with rfl | rfl <;> rfl
        rw [hkept]
        exact hlent.steady next.steady
      · have hback : ∀ i, (qs i).Live → (ts i).Live := fun i hi => by
          have hi' := (next i).same.live.mp hi
          cases takes with
          | ends live fates => exact (go i).same.live.mp (fates.live hi')
        by_cases hmid : (ts x).state = .vforkWait
        · obtain ⟨i, h₁, h₂, h₃⟩ :=
            go.resumed (next.resumes (takes.resumes h')) x hmid hl hw
          refine ⟨i, hfates.live h₁, h₂.trans (by rw [(hfates.fixed i).pid]), h₃.imp_right ?_⟩
          exact List.mem_cons_of_mem _
        · obtain ⟨i, h₁, h₂, h₃⟩ := first.resumes h x hx (hback x hl) hmid
          refine ⟨i, h₁, h₂, .inl fun hi => ?_⟩
          rcases h₃ with h₃ | h₃
          · exact h₃ (hback i hi)
          · rcases kill with rfl | rfl <;> exact absurd (List.mem_singleton.mp h₃) (by simp)

end Procs

namespace Machine

variable {σ τ : Machine} {H : Loans}

/-- Each borrower's lender, if it is still there, waits. -/
def Suspends (σ : Machine) (H : Loans) : Prop :=
  ∀ i p, (σ.procs i).Live → H.lender i = some p →
    ∀ x, (σ.procs x).Live → (σ.procs x).pid = p → (σ.procs x).state = .vforkWait

/-- Nothing stale is left when the event lends a space or gives it back. -/
def Clean (σ : Machine) (e : Event) : Prop := ∀ d ∈ σ.deeds e, σ.procs.Clean (σ.deeds e) d

instance (σ : Machine) (e : Event) : Decidable (σ.Clean e) := by unfold Clean; infer_instance

/-- The runs with the note of the loans. -/
abbrev Lending (P : Machine → Event → Prop) : Machine × Loans → Prop :=
  Runs.Noted step Loans.note (· = boot) .none P

theorem Lending.lent {x : Machine × Loans} (h : Lending Clean x) :
    x.1.Sound ∧ x.1.procs.Lent (fun _ => False) x.2 := by
  refine h.invariant (I := fun (σ : Machine) H => σ.Sound ∧ σ.procs.Lent (fun _ => False) H)
    (fun σ hσ => ?_) fun σ e τ H hσ he hs => ?_
  · rw [hσ]
    exact ⟨sound_boot, Procs.lent_empty⟩
  · exact ⟨hσ.1.step hs, ((hσ.1.course hs).lent hσ.1.fine hσ.1.named hσ.2 he).1⟩

/-- **A parent waits while its child uses its space**, where nothing stale is left when a space is
lent or given back. -/
theorem parents_suspended {x : Machine × Loans} (h : Lending Clean x) : x.1.Suspends x.2 ∧
    ∀ e τ, x.1.Clean e → x.1.step e = some τ →
      x.1.procs.Resumes x.2 (x.1.deeds e) τ.procs := by
  obtain ⟨hs, hl⟩ := h.lent
  refine ⟨fun i p hi hp => (hl.lends i p hi id hp).2.2, fun e τ he hτ => ?_⟩
  exact ((hs.course hτ).lent hs.fine hs.named hl he).2

theorem lending_boot (P : Machine → Event → Prop) : Lending P (boot, .none) := .start rfl

/-- A process lends its space to a child, which runs. -/
theorem parents_suspended_run : ∃ x, (Lending Clean x ∧ (x.1.procs 0).state = .vforkWait ∧
    x.1.current 0 = some 1) ∧ x.1.Suspends x.2 := by
  have hrun : (Runs.run (Runs.noted step Loans.note) (fun x e => x.1.Clean e)
      [.createEx 0 7 1 0, .enterScheduler 0 [], .call 0 (.vfork 0 0) []] (boot, .none)).any
      (fun x => decide ((x.1.procs 0).state = .vforkWait ∧ x.1.current 0 = some 1)) = true := by
    decide +kernel
  obtain ⟨x, hx, hw⟩ := (lending_boot Clean).run_any hrun
  exact ⟨x, ⟨hx, hw⟩, (parents_suspended hx).1⟩

/-- A thread lends its space to a child and is killed; another thread gets its slot, and lends the
space to another child; then the first child gets a new image. -/
def staleRun : List Event :=
  [.createEx 0 7 1 0, .enterScheduler 0 [], .call 0 (.threadCreate 0) [], .schedule 0 [],
   .call 0 (.vfork 0 0) [], .schedule 0 [], .killSig 0 1 9 true [], .call 0 (.threadCreate 0) [],
   .schedule 0 [], .call 0 (.vfork 0 0) [], .call 0 (.execReplace 8 2 0) []]

/-- **A parent is resumed** by a child that is not its own, while its own uses its space. -/
theorem parent_resumed :
    ¬ ∀ x : Machine × Loans, Lending (fun _ _ => True) x → x.1.Suspends x.2 := by
  intro h
  have hrun : (Runs.run (Runs.noted step Loans.note) (fun _ _ => True) staleRun (boot, .none)).any
      (fun x => decide ((x.1.procs 3).Live ∧ x.2.lender 3 = some 257 ∧ (x.1.procs 1).Live ∧
        (x.1.procs 1).pid = 257 ∧ (x.1.procs 1).state ≠ .vforkWait)) = true := by decide +kernel
  obtain ⟨x, hx, h₃, hp, h₁, hpid, hst⟩ := (lending_boot fun _ _ => True).run_any hrun
  exact hst (h x hx 3 257 h₃ hp 1 h₁ hpid)

end Machine

end Pulsar.Proc

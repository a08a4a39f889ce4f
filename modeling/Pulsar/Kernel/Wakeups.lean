import Pulsar.Kernel.CallTells

/-!
# No wake-up is lost

Processes that call, go to sleep and are woken, in any order (`process.rs`, `io_wait_until` and
`io_wake_locked`).  Keys go from `PENDING` into the hands of whoever flushes, and from there to the
sleepers.  `no_wakeup_lost` is the result for runs; `wakeup_lost` is a run in which a reader of a
local socket leaves a writer asleep for good.
-/

namespace Pulsar.Kernel

variable {V : Type} {env : Env V}

/-- Where a process is. -/
inductive Phase where
  /-- In its program, or about to run its call again. -/
  | run
  /-- Its call has ended in `EBLOCK`, and it has not reached `io_wait` yet. -/
  | parked (w : Wait) (key seen : Nat)
  /-- In state `IoWait`. -/
  | asleep (w : Wait) (key : Nat)
  deriving DecidableEq

/-- The kernel, its processes, and the keys that were taken out of `PENDING` and not woken yet. -/
structure Sys (V : Type) where
  k : K V
  phase : Nat → Phase
  hand : List Nat

def Sys.boot (vol : V) (frames : Nat → Bool) : Sys V := ⟨.boot vol frames, fun _ => .run, []⟩

inductive Move where
  /-- Process `p`, whose leader has slot `l`, makes a call. -/
  | call (p l : Nat) (c : Call)
  /-- `take_wakes`, the first half of `flush_wakes`. -/
  | take
  /-- `io_wake(key)` for a key that was taken. -/
  | wake (key : Nat)
  /-- `io_wait_until`. -/
  | sleep (p : Nat)
  /-- A signal or a deadline. -/
  | poke (p : Nat)

/-- `take_block`, after a call that ended in `EBLOCK`; a wait for the network is its own affair. -/
def Prog.parks {α : Type} (x : Prog V α) (k : K V) : Phase :=
  match x k with
  | .ok _ _ => .run
  | .error e k =>
    if e = EBLOCK then
      match k.blockOn with
      | some (w, key, seen) => .parked w key seen
      | none => .run
    else .run

def Phase.woken (key : Nat) : Phase → Phase
  | .asleep w key' => if key' = key then .run else .asleep w key'
  | ph => ph

def Sys.step (env : Env V) (s : Sys V) : Move → Sys V
  | .call p l c =>
    match s.phase p with
    | .run =>
      let k := { s.k with blockOn := none }
      { s with
        k := (c.run env l).after k
        phase := Function.update s.phase p ((c.run env l).parks k) }
    | _ => s
  | .take => { s with k := { s.k with pending := [] }, hand := s.hand ++ s.k.pending }
  | .wake key =>
    if key ∈ s.hand then
      { s with hand := s.hand.erase key, phase := fun p => (s.phase p).woken key }
    else s
  | .sleep p =>
    match s.phase p with
    | .parked w key seen =>
      let next := if s.k.seq (keyBucket key) ≠ seen then .run else .asleep w key
      { s with phase := Function.update s.phase p next }
    | _ => s
  | .poke p => { s with phase := Function.update s.phase p .run }

def Sys.run (env : Env V) : List Move → Sys V → Sys V
  | [], s => s
  | m :: ms, s => Sys.run env ms (s.step env m)

/-- A flush: everything pending is taken, and everything taken is woken. -/
def Sys.flush (s : Sys V) : List Move := .take :: (s.hand ++ s.k.pending).map .wake

/-- Process `p` waits for `w`, asleep or on its way there. -/
def Sys.Waiting (s : Sys V) (p : Nat) (w : Wait) : Prop :=
  (∃ key seen, s.phase p = .parked w key seen) ∨ ∃ key, s.phase p = .asleep w key

/-- A call that mutes nobody who waits, and a flush that finds room in `PENDING`. -/
def Move.Clear (s : Sys V) : Move → Prop
  | .call _ l c => l < MAX_PROCS ∧ (∀ dst, c = .fork dst → dst < MAX_PROCS) ∧
    ∀ q w, s.Waiting q w → ¬ c.Mutes s.k l w
  | .take => s.k.pending.length < PENDING_MAX
  | _ => True

def Sys.ClearRun (env : Env V) : List Move → Sys V → Prop
  | [], _ => True
  | m :: ms, s => m.Clear s ∧ Sys.ClearRun env ms (s.step env m)

/-! ### The invariant -/

/-- Whoever could go on will not fall asleep, or has its key on the way. -/
structure Sound (s : Sys V) : Prop where
  bal : ∃ ex, Bal false s.k ex
  parked : ∀ p w key seen, s.phase p = .parked w key seen → w.Ok ∧ key = w.key ∧
    seen ≤ s.k.seq (keyBucket key) ∧ (¬ Blocked s.k w → seen < s.k.seq (keyBucket key))
  asleep : ∀ p w key, s.phase p = .asleep w key → w.Ok ∧ key = w.key ∧ (¬ Blocked s.k w →
    key ∈ s.hand ∨ key ∈ s.k.pending ∨ PENDING_MAX ≤ s.k.pending.length)

theorem boot_sound (vol : V) (frames : Nat → Bool) : Sound (Sys.boot vol frames) :=
  ⟨⟨[], boot_bal vol frames⟩, fun _ _ _ _ h => (by cases h), fun _ _ _ h => (by cases h)⟩

theorem call_loses {k : K V} {l : Nat} {c : Call} (hl : l < MAX_PROCS)
    (hf : ∀ dst, c = .fork dst → dst < MAX_PROCS) (h : ∃ ex, Bal false k ex) :
    ∃ ex, Bal false ((c.run env l).after k) ex := by
  obtain ⟨ex, h⟩ := h
  by_cases hfork : ∃ dst, c = .fork dst
  · obtain ⟨dst, rfl⟩ := hfork
    have h' := cloneTable_bal hl (hf dst rfl) h
    exact ⟨_, h'⟩
  · exact ⟨ex, call_settles hl (fun hs => by cases hs) (fun dst e => hfork ⟨dst, e⟩) h⟩

theorem Stalls.parked {W : Wait → Prop} {k₀ k : K V} (h : Stalls W k₀ k) :
    ∃ w key seen, k.blockOn = some (w, key, seen) ∧ w.Ok ∧ key = w.key ∧
      seen ≤ k.seq (keyBucket key) ∧ (¬ Blocked k w → seen < k.seq (keyBucket key)) := by
  obtain ⟨k₁, w, -, hw, hb, h⟩ := h
  exact ⟨w, w.key, _, h.block, hw, rfl, h.seq _, fun hn => (h.told w hw hb hn).1⟩

theorem Stalls.tells {W : Wait → Prop} {k₀ k : K V} (h : Stalls W k₀ k) (hW : ∀ w, W w → w.Ok) :
    Tells W k₀ { k with blockOn := k₀.blockOn } := by
  obtain ⟨k₁, w, h₁, -, -, h₂⟩ := h
  refine h₁.trans ⟨h₂.seq, h₂.keep, h₂.len, h₁.block.symm, fun v hv => h₂.told v (hW v hv)⟩

theorem call_after (env : Env V) {k : K V} {l : Nat} {c : Call} (ht : Tidy k) (hb : k.blockOn = none) :
    Tells (fun w => w.Ok ∧ ¬ c.Mutes k l w) k { (c.run env l).after k with blockOn := none } ∧
      ∀ w key seen, (c.run env l).parks k = .parked w key seen → w.Ok ∧ key = w.key ∧
        seen ≤ ((c.run env l).after k).seq (keyBucket key) ∧
        (¬ Blocked ((c.run env l).after k) w → seen < ((c.run env l).after k).seq (keyBucket key)) := by
  have h := call_tells env (l := l) (c := c) ht
  unfold Prog.after Prog.parks
  unfold Waits wp at h
  split at h <;> rename_i hx <;> simp only [hx]
  · refine ⟨?_, fun w key seen e => by cases e⟩
    rw [← hb, ← h.block]
    exact h
  · rcases h with h | h
    · have hnone := h.block.trans hb
      refine ⟨?_, fun w key seen e => ?_⟩
      · rw [← hnone]; exact h
      · simp [hnone] at e
    · refine ⟨?_, fun w key seen e => ?_⟩
      · rw [← hb]; exact h.tells fun _ hw => hw.1
      · obtain ⟨w', key', seen', hblock, hrest⟩ := h.parked
        rw [hblock] at e
        split at e
        · cases e; exact hrest
        · cases e

theorem call_sound {s : Sys V} {p l : Nat} {c : Call} (h : Sound s) (hp : s.phase p = .run)
    (hc : (Move.call p l c).Clear s) : Sound (s.step env (.call p l c)) := by
  obtain ⟨hl, hf, hm⟩ := hc
  set k : K V := { s.k with blockOn := none } with hk
  have hbal : ∃ ex, Bal false k ex := h.bal.imp fun _ h => h.same rfl rfl rfl rfl rfl rfl rfl rfl rfl rfl
  have ht : Tidy k := by obtain ⟨_, hb⟩ := hbal; exact hb.tidy
  obtain ⟨htell, hself⟩ := call_after env (l := l) (c := c) ht rfl
  have hform : s.step env (.call p l c) = { s with
      k := (c.run env l).after k, phase := Function.update s.phase p ((c.run env l).parks k) } := by
    simp only [Sys.step, hp, hk]
  have hnotmuted : ∀ q w, s.Waiting q w → ¬ c.Mutes k l w := fun q w hq hmute =>
    hm q w hq (by cases c <;> exact hmute)
  rw [hform]
  refine ⟨call_loses hl hf hbal, fun q w key seen hq => ?_, fun q w key hq => ?_⟩ <;> dsimp only at hq ⊢
  · by_cases hqp : q = p
    · subst hqp
      rw [Function.update_self] at hq
      exact hself w key seen hq
    · rw [Function.update_of_ne hqp] at hq
      obtain ⟨hw, hkey, hle, hlt⟩ := h.parked q w key seen hq
      refine ⟨hw, hkey, Nat.le_trans hle (htell.seq _), fun hn => ?_⟩
      by_cases hb : Blocked s.k w
      · have := htell.told w ⟨hw, hnotmuted q w (Or.inl ⟨key, seen, hq⟩)⟩ hb hn
        rw [hkey] at hle ⊢
        exact Nat.lt_of_le_of_lt hle this.1
      · exact Nat.lt_of_lt_of_le (hlt hb) (htell.seq _)
  · have hqp : q ≠ p := fun e => by
      subst e
      rw [Function.update_self] at hq
      unfold Prog.parks at hq
      split at hq
      · cases hq
      · split at hq
        · split at hq <;> cases hq
        · cases hq
    rw [Function.update_of_ne hqp] at hq
    obtain ⟨hw, hkey, hway⟩ := h.asleep q w key hq
    refine ⟨hw, hkey, fun hn => ?_⟩
    by_cases hb : Blocked s.k w
    · have := htell.told w ⟨hw, hnotmuted q w (Or.inr ⟨key, hq⟩)⟩ hb hn
      rw [hkey]
      exact Or.inr this.2
    · exact (hway hb).imp_right fun h => h.imp (htell.keep _) fun h => Nat.le_trans h htell.len

/-- **One step** of anybody. -/
theorem step_sound {s : Sys V} {m : Move} (h : Sound s) (hm : m.Clear s) : Sound (s.step env m) := by
  cases m with
  | call p l c =>
      cases hp : s.phase p with
      | run => exact call_sound h hp hm
      | parked w key seen =>
          have : s.step env (.call p l c) = s := by simp only [Sys.step, hp]
          rw [this]; exact h
      | asleep w key =>
          have : s.step env (.call p l c) = s := by simp only [Sys.step, hp]
          rw [this]; exact h
  | take =>
      refine ⟨h.bal.imp fun _ h => h.same rfl rfl rfl rfl rfl rfl rfl rfl rfl rfl, h.parked,
        fun p w key hp => ?_⟩
      obtain ⟨hw, hkey, hway⟩ := h.asleep p w key hp
      refine ⟨hw, hkey, fun hn => Or.inl (List.mem_append.mpr ?_)⟩
      rcases hway hn with h' | h' | h'
      · exact Or.inl h'
      · exact Or.inr h'
      · exact absurd h' (Nat.not_le_of_lt hm)
  | wake key =>
      simp only [Sys.step]
      split
      · refine ⟨h.bal, fun p w key' seen hp => ?_, fun p w key' hp => ?_⟩
        · dsimp only at hp
          cases hph : s.phase p with
          | run => rw [hph] at hp; cases hp
          | parked w' key'' seen' =>
              rw [hph] at hp
              exact h.parked p w key' seen (hph.trans hp)
          | asleep w' key'' =>
              rw [hph, Phase.woken] at hp
              split at hp <;> cases hp
        · dsimp only at hp
          cases hph : s.phase p with
          | run => rw [hph] at hp; cases hp
          | parked w' key'' seen' => rw [hph] at hp; cases hp
          | asleep w' key'' =>
              rw [hph, Phase.woken] at hp
              split at hp
              · cases hp
              · rename_i hne
                cases hp
                obtain ⟨hw, hkey, hway⟩ := h.asleep p w key' hph
                exact ⟨hw, hkey, fun hn => (hway hn).imp_left fun h' =>
                  (List.mem_erase_of_ne hne).mpr h'⟩
      · exact h
  | sleep p =>
      simp only [Sys.step]
      split
      · rename_i w key seen hp
        obtain ⟨hw, hkey, hle, hlt⟩ := h.parked p w key seen hp
        refine ⟨h.bal, fun q w' key' seen' hq => ?_, fun q w' key' hq => ?_⟩ <;> dsimp only at hq <;>
          by_cases hqp : q = p
        · subst hqp
          rw [Function.update_self] at hq
          split at hq <;> cases hq
        · rw [Function.update_of_ne hqp] at hq
          exact h.parked q w' key' seen' hq
        · subst hqp
          rw [Function.update_self] at hq
          split at hq
          · cases hq
          · rename_i hseq
            cases hq
            have hseq : s.k.seq (keyBucket key) = seen := not_not.mp hseq
            exact ⟨hw, hkey, fun hn => absurd (hlt hn) (by omega)⟩
        · rw [Function.update_of_ne hqp] at hq
          exact h.asleep q w' key' hq
      · exact h
  | poke p =>
      refine ⟨h.bal, fun q w key seen hq => ?_, fun q w key hq => ?_⟩ <;> dsimp only [Sys.step] at hq <;>
        by_cases hqp : q = p
      · subst hqp; rw [Function.update_self] at hq; cases hq
      · rw [Function.update_of_ne hqp] at hq; exact h.parked q w key seen hq
      · subst hqp; rw [Function.update_self] at hq; cases hq
      · rw [Function.update_of_ne hqp] at hq; exact h.asleep q w key hq

theorem run_sound : ∀ (ms : List Move) {s : Sys V}, s.ClearRun env ms → Sound s → Sound (s.run env ms)
  | [], _, _, h => h
  | _ :: ms, _, hc, h => run_sound ms hc.2 (step_sound h hc.1)

/-! ### What a flush does -/

theorem woken_run {keys : List Nat} {w : Wait} {key p : Nat} : ∀ {s : Sys V}, s.hand = keys →
    key ∈ keys → s.phase p = .asleep w key → (s.run env (keys.map .wake)).phase p = .run := by
  -- once it runs, no later key puts it back to sleep
  have stays : ∀ (ks : List Nat) (s : Sys V), s.phase p = .run →
      (s.run env (ks.map .wake)).phase p = .run := fun ks => by
    induction ks with
    | nil => exact fun s h => h
    | cons x ks ih =>
        intro s h
        refine ih _ ?_
        simp only [Sys.step]
        split
        · simp only [h, Phase.woken]
        · exact h
  induction keys with
  | nil => intro s _ hk; cases hk
  | cons x ks ih =>
      intro s hhand hk hp
      have hx : x ∈ s.hand := by rw [hhand]; exact List.mem_cons_self ..
      have hstep : s.step env (.wake x) = { s with
          hand := s.hand.erase x, phase := fun p => (s.phase p).woken x } := by
        simp only [Sys.step, hx, if_true]
      rw [List.map_cons, Sys.run, hstep]
      by_cases e : key = x
      · subst e
        exact stays ks _ (by simp only [hp, Phase.woken, if_true])
      · refine ih ?_ ((List.mem_cons.mp hk).resolve_left e) ?_
        · simp [hhand]
        · simp only [hp, Phase.woken, e, if_false]

/-- **No wake-up is lost.**  In every run whose steps mute nobody and never find `PENDING` full, a
process asleep sleeps on the key its operation chose; whatever call ends its wait pushes exactly
that key; and once its wait is over the next flush makes it ready. -/
theorem no_wakeup_lost (env : Env V) (vol : V) (frames : Nat → Bool) (ms : List Move)
    (hms : (Sys.boot vol frames).ClearRun env ms) (p : Nat) (w : Wait) (key : Nat)
    (hp : ((Sys.boot vol frames).run env ms).phase p = .asleep w key) :
    let s := (Sys.boot vol frames).run env ms
    key = w.key ∧
      (∀ q l c, (Move.call q l c).Clear s → Blocked s.k w →
        ¬ Blocked (s.step env (.call q l c)).k w →
          Pushed s.k (s.step env (.call q l c)).k key) ∧
      (¬ Blocked s.k w → s.k.pending.length < PENDING_MAX →
        (s.run env s.flush).phase p = .run) := by
  intro s
  have h : Sound s := run_sound ms hms (boot_sound vol frames)
  obtain ⟨hw, hkey, hway⟩ := h.asleep p w key hp
  refine ⟨hkey, fun q l c hc hb hn => ?_, fun hn hroom => ?_⟩
  · have hq : s.phase q = .run := by
      by_contra hq
      have : s.step env (.call q l c) = s := by
        cases hph : s.phase q with
        | run => exact absurd hph hq
        | parked _ _ _ | asleep _ _ => simp only [Sys.step, hph]
      exact hn (this.symm ▸ hb)
    have hform : (s.step env (.call q l c)).k = (c.run env l).after { s.k with blockOn := none } := by
      simp only [Sys.step, hq]
    rw [hform] at hn ⊢
    have ht : Tidy ({ s.k with blockOn := none } : K V) := by
      obtain ⟨ex, hbal⟩ := h.bal
      have hbal' : Bal false ({ s.k with blockOn := none } : K V) ex :=
        hbal.same rfl rfl rfl rfl rfl rfl rfl rfl rfl rfl
      exact hbal'.tidy
    have htell := (call_after env (l := l) (c := c) ht rfl).1
    have hmute : ¬ c.Mutes ({ s.k with blockOn := none } : K V) l w := fun hm =>
      hc.2.2 p w (Or.inr ⟨key, hp⟩) (by cases c <;> exact hm)
    rw [hkey]
    exact htell.told w ⟨hw, hmute⟩ hb hn
  · have hmem : key ∈ s.hand ++ s.k.pending := by
      rcases hway hn with h' | h' | h'
      · exact List.mem_append_left _ h'
      · exact List.mem_append_right _ h'
      · exact absurd h' (Nat.not_le_of_lt hroom)
    exact woken_run (s := s.step env .take) rfl hmem hp

/-- A child reads a pipe and sleeps, and its parent writes: the flush makes the child ready. -/
theorem no_wakeup_lost_pipe :
    let s := (Sys.boot () fun _ => true).run Env.void
      [.call 0 0 (.pipe 0), .call 0 0 (.fork 1), .call 1 1 (.read 3 10 none), .sleep 1,
        .call 0 0 (.write 4 (fun _ => 7) 5 none)]
    (s.run Env.void s.flush).phase 1 = .run := by
  intro s
  have hpipe : (((Sys.boot () fun _ => true).run Env.void [.call 0 0 (.pipe 0),
      .call 0 0 (.fork 1)]).k.fds 1 3).kind ≠ .unix := by decide +kernel
  have hclear : (Sys.boot () fun _ => true).ClearRun Env.void
      [.call 0 0 (.pipe 0), .call 0 0 (.fork 1), .call 1 1 (.read 3 10 none), .sleep 1,
        .call 0 0 (.write 4 (fun _ => 7) 5 none)] :=
    ⟨⟨by decide, by simp, fun _ _ _ h => h⟩, ⟨by decide, by simp [MAX_PROCS], fun _ _ _ h => h⟩,
      ⟨by decide, by simp, fun _ _ _ h => hpipe h.1⟩, trivial,
      ⟨by decide, by simp, fun _ _ _ h => h⟩, trivial⟩
  exact (no_wakeup_lost Env.void () (fun _ => true) _ hclear 1 (.pipeRead 0) (pipeKeyR 0)
    (by decide +kernel)).2.2 (by decide +kernel) (by decide +kernel)

/-- **The writer is not told.**  A parent fills the queue of a socket pair and sleeps to write one
byte more; its child reads everything; the flush wakes nobody, and nothing is left to flush. -/
theorem wakeup_lost :
    let s := (Sys.boot () fun _ => true).run Env.void
      [.call 0 0 (.socketpair 1 1), .call 0 0 (.fork 1),
        .call 0 0 (.write 3 (fun _ => 0) 65536 none), .take, .wake (unixKeyR 0 1),
        .call 0 0 (.write 3 (fun _ => 0) 1 none), .sleep 0,
        .call 1 1 (.read 4 65536 none), .take, .wake (unixKeyR 0 0)]
    s.phase 0 = .asleep (.unixWrite 0 0 1) (unixKeyR 0 1) ∧ ¬ Blocked s.k (.unixWrite 0 0 1) ∧
      s.k.pending = [] ∧ s.hand = [] := by
  decide +kernel

end Pulsar.Kernel

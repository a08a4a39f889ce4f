import Mathlib.Data.List.Basic
import Pulsar.Lib.Runs
import Pulsar.Shell.Server

/-!
# The surfaces of the windows (`shell/src/main.rs`)

The window of a process has a slot, which says where its surface is.  A process that says HELLO is
told the slot of its window; one for which there is no window left is told zero, and takes it for a
slot.

* `Server.Apart`: the windows have different slots and are of different processes.
* **`surfaces_exclusive`**: in every run, the answer to a HELLO is the slot of a window of its own if
  and only if the process has one or one can be made.
* `ninth_window`: a process that is told to draw where another one does.
-/

namespace Pulsar.Shell

open Runs

namespace Server

variable {σ τ : Server} {i j pid app s now : Nat} {p openFile : Int}

/-! ### Searching the windows -/

theorem winOf_some (h : σ.winOf pid = some i) :
    i < MAXWIN ∧ (σ.wins i).used = true ∧ (σ.wins i).pid = pid := by
  have hp := List.find?_some h
  exact ⟨List.mem_range.mp (List.mem_of_find?_eq_some h), of_decide_eq_true hp⟩

theorem winOf_none (h : σ.winOf pid = none) (hi : i < MAXWIN) (hu : (σ.wins i).used = true) :
    (σ.wins i).pid ≠ pid := fun hp =>
  List.find?_eq_none.mp h i (List.mem_range.mpr hi) (decide_eq_true ⟨hu, hp⟩)

theorem freeWin_some (h : σ.freeWin = some i) : i < MAXWIN ∧ (σ.wins i).used = false := by
  have hp := List.find?_some h
  exact ⟨List.mem_range.mp (List.mem_of_find?_eq_some h), by simpa using hp⟩

/-- No window that is used has the slot. -/
def Spare (σ : Server) (s : Nat) : Prop :=
  ∀ i < MAXWIN, (σ.wins i).used = true → (σ.wins i).slot ≠ s

theorem spare_iff : σ.Spare s ↔
    ¬ ((List.range MAXWIN).any fun i => (σ.wins i).used ∧ (σ.wins i).slot = s) = true := by
  simp [Spare, List.any_eq_true]

theorem freeSlot_some (h : σ.freeSlot = some s) : s < SURF_SLOTS ∧ σ.Spare s := by
  have hp := List.find?_some h
  exact ⟨List.mem_range.mp (List.mem_of_find?_eq_some h), spare_iff.mpr (of_decide_eq_true hp)⟩

/-- **A slot that no window has is available.** -/
theorem freeSlot_of_spare (hs : s < SURF_SLOTS) (h : σ.Spare s) : σ.freeSlot.isSome = true :=
  List.find?_isSome.mpr ⟨s, List.mem_range.mpr hs, decide_eq_true (spare_iff.mp h)⟩

/-! ### Different windows -/

/-- The windows have different slots and are of different processes. -/
structure Apart (σ : Server) : Prop where
  small : ∀ i, (σ.wins i).used = true → i < MAXWIN
  internal : ∀ i, (σ.wins i).used = true → (σ.wins i).internal = true →
    (σ.wins i).pid < 0 ∧ (σ.wins i).slot < 0
  surface : ∀ i, (σ.wins i).used = true → (σ.wins i).internal = false →
    0 ≤ (σ.wins i).slot ∧ (σ.wins i).slot < SURF_SLOTS
  slots : ∀ i j, (σ.wins i).used = true → (σ.wins j).used = true → 0 ≤ (σ.wins i).slot →
    (σ.wins i).slot = (σ.wins j).slot → i = j
  pids : ∀ i j, (σ.wins i).used = true → (σ.wins j).used = true → 0 ≤ (σ.wins i).pid →
    (σ.wins i).pid = (σ.wins j).pid → i = j

/-- The windows of `τ` are windows of `σ`. -/
def Fewer (σ τ : Server) : Prop :=
  ∀ i, (τ.wins i).used = true → (σ.wins i).used = true ∧ (τ.wins i).pid = (σ.wins i).pid ∧
    (τ.wins i).slot = (σ.wins i).slot ∧ (τ.wins i).internal = (σ.wins i).internal

theorem Apart.fewer (h : σ.Apart) (hf : σ.Fewer τ) : τ.Apart where
  small i hi := h.small i (hf i hi).1
  internal i hi := by
    obtain ⟨hu, hp, hs, hn⟩ := hf i hi
    rw [hp, hs, hn]
    exact h.internal i hu
  surface i hi := by
    obtain ⟨hu, -, hs, hn⟩ := hf i hi
    rw [hs, hn]
    exact h.surface i hu
  slots i j hi hj := by
    rw [(hf i hi).2.2.1, (hf j hj).2.2.1]
    exact h.slots i j (hf i hi).1 (hf j hj).1
  pids i j hi hj := by
    rw [(hf i hi).2.1, (hf j hj).2.1]
    exact h.pids i j (hf i hi).1 (hf j hj).1

theorem fewer_of_wins (h : τ.wins = σ.wins) : σ.Fewer τ := fun i hi => by
  rw [h] at hi ⊢
  exact ⟨hi, rfl, rfl, rfl⟩

theorem fewer_setWin {f : Win → Win} (hf : ∀ w, ((f w).used = true → w.used = true) ∧
    (f w).pid = w.pid ∧ (f w).slot = w.slot ∧ (f w).internal = w.internal) :
    σ.Fewer (σ.setWin i f) := fun j hj => by
  by_cases hne : j = i
  · subst hne
    rw [setWin_self] at hj ⊢
    exact ⟨(hf _).1 hj, (hf _).2⟩
  · rw [setWin_of_ne hne] at hj ⊢
    exact ⟨hj, rfl, rfl, rfl⟩

theorem Fewer.trans {ρ : Server} (h : σ.Fewer τ) (h' : τ.Fewer ρ) : σ.Fewer ρ := fun i hi => by
  obtain ⟨hu, hp, hs, hn⟩ := h' i hi
  obtain ⟨hu', hp', hs', hn'⟩ := h i hu
  exact ⟨hu', hp.trans hp', hs.trans hs', hn.trans hn'⟩

/-! ### A window is made -/

/-- The window that `new_window` makes. -/
def made (app : Nat) (internal : Bool) (p slot openFile : Int) : Win :=
  { Win.empty with
    used := true, app := app, internal := internal, pid := p, slot := slot, openFile := openFile }

theorem newWindow_process : σ.newWindow app p openFile false =
    match σ.freeWin, σ.freeSlot with
    | some i, some s => (some i, σ.setWin i fun _ => made app false p s openFile)
    | _, _ => (none, σ) := by
  unfold newWindow
  cases σ.freeWin <;> cases σ.freeSlot <;> rfl

theorem newWindow_internal : σ.newWindow app p openFile true =
    match σ.freeWin with
    | some i => (some i, σ.setWin i fun _ => made app true p (-1) openFile)
    | none => (none, σ) := by
  unfold newWindow
  cases σ.freeWin <;> rfl

theorem Apart.made {internal : Bool} {slot : Int} (h : σ.Apart) (hi : i < MAXWIN)
    (hn : internal = true → p < 0 ∧ slot < 0)
    (hs : internal = false → 0 ≤ slot ∧ slot < SURF_SLOTS)
    (hslot : 0 ≤ slot → ∀ j, (σ.wins j).used = true → (σ.wins j).slot ≠ slot)
    (hpid : 0 ≤ p → ∀ j, (σ.wins j).used = true → (σ.wins j).pid ≠ p) :
    (σ.setWin i fun _ => Server.made app internal p slot openFile).Apart := by
  have hself : (σ.setWin i fun _ => Server.made app internal p slot openFile).wins i =
    Server.made app internal p slot openFile := setWin_self ..
  have hother : ∀ j, j ≠ i →
      (σ.setWin i fun _ => Server.made app internal p slot openFile).wins j = σ.wins j :=
    fun j hj => setWin_of_ne hj _
  constructor
  case small =>
    intro j hj
    by_cases hne : j = i
    · exact hne ▸ hi
    · exact h.small j (by rwa [hother j hne] at hj)
  case internal =>
    intro j hj
    by_cases hne : j = i
    · rw [hne, hself]
      exact hn
    · rw [hother j hne] at hj ⊢
      exact h.internal j hj
  case surface =>
    intro j hj
    by_cases hne : j = i
    · rw [hne, hself]
      exact hs
    · rw [hother j hne] at hj ⊢
      exact h.surface j hj
  case slots =>
    intro j k hj hk hpos heq
    by_cases hji : j = i <;> by_cases hki : k = i
    · rw [hji, hki]
    · rw [hji, hself] at hpos
      rw [hji, hself, hother k hki] at heq
      exact absurd heq.symm (hslot hpos k (hother k hki ▸ hk))
    · rw [heq, hki, hself] at hpos
      rw [hki, hself, hother j hji] at heq
      exact absurd heq (hslot hpos j (hother j hji ▸ hj))
    · rw [hother j hji] at hj hpos heq
      rw [hother k hki] at hk heq
      exact h.slots j k hj hk hpos heq
  case pids =>
    intro j k hj hk hpos heq
    by_cases hji : j = i <;> by_cases hki : k = i
    · rw [hji, hki]
    · rw [hji, hself] at hpos
      rw [hji, hself, hother k hki] at heq
      exact absurd heq.symm (hpid hpos k (hother k hki ▸ hk))
    · rw [heq, hki, hself] at hpos
      rw [hki, hself, hother j hji] at heq
      exact absurd heq (hpid hpos j (hother j hji ▸ hj))
    · rw [hother j hji] at hj hpos heq
      rw [hother k hki] at hk heq
      exact h.pids j k hj hk hpos heq

theorem Spare.used (h : σ.Apart) (hs : σ.Spare s) (hi : (σ.wins i).used = true) :
    (σ.wins i).slot ≠ s := hs i (h.small i hi) hi

theorem Apart.newWindow_process (h : σ.Apart) (hp : σ.winOf pid = none) :
    (σ.newWindow app pid openFile false).2.Apart := by
  rw [Server.newWindow_process]
  cases hw : σ.freeWin with
  | none => exact h
  | some i =>
      cases hs : σ.freeSlot with
      | none => exact h
      | some s =>
          obtain ⟨hlt, hspare⟩ := freeSlot_some hs
          exact h.made (freeWin_some hw).1 (fun h => nomatch h)
            (fun _ => ⟨Int.natCast_nonneg s, Int.ofNat_lt.mpr hlt⟩) (fun _ j hj => hspare.used h hj)
            fun _ j hj => winOf_none hp (h.small j hj) hj

theorem Apart.newWindow_internal (h : σ.Apart) : (σ.newWindow app (-1) openFile true).2.Apart := by
  rw [Server.newWindow_internal]
  cases hw : σ.freeWin with
  | none => exact h
  | some i =>
      exact h.made (freeWin_some hw).1 (fun _ => ⟨by decide, by decide⟩) (fun h => nomatch h)
        (fun h => absurd h (by decide)) fun h => absurd h (by decide)

/-! ### The operations -/

theorem newWindow_lists {internal : Bool} :
    (σ.newWindow app p openFile internal).2.pending = σ.pending ∧
      (σ.newWindow app p openFile internal).2.parked = σ.parked := by
  cases internal with
  | true =>
      rw [newWindow_internal]
      cases σ.freeWin <;> exact ⟨rfl, rfl⟩
  | false =>
      rw [newWindow_process]
      cases σ.freeWin with
      | none => exact ⟨rfl, rfl⟩
      | some i => cases σ.freeSlot <;> exact ⟨rfl, rfl⟩

theorem helloWin_pending : (σ.helloWin app pid).2.pending = σ.pending := by
  unfold helloWin
  cases σ.winOf pid with
  | none => exact newWindow_lists.1
  | some i => rfl

theorem helloWin_parked : (σ.helloWin app pid).2.parked = σ.parked := by
  unfold helloWin
  cases σ.winOf pid with
  | none => exact newWindow_lists.2
  | some i => rfl

theorem Apart.helloWin (h : σ.Apart) : (σ.helloWin app pid).2.Apart := by
  unfold Server.helloWin
  cases hw : σ.winOf pid with
  | some i => exact h
  | none => exact h.newWindow_process hw

/-- What is done with a message: it is answered now, or the sender is noted with its window. -/
inductive Handled (σ : Server) (now sender : Nat) : Msg → Option Reply × Server → Prop where
  | now {m : Msg} {d : Data} {τ : Server} (hp : τ.pending = σ.pending) (hk : τ.parked = σ.parked)
      (ha : σ.Apart → τ.Apart) (hd : ∀ i owner, d = .news i owner → owner = sender) :
      Handled σ now sender m (some ⟨sender, m.op, d⟩, τ)
  | pending {i : Nat} {τ : Server} (hf : σ.Fewer τ) (hp : τ.pending = σ.pending ++ [(sender, i)])
      (hk : τ.parked = σ.parked) : Handled σ now sender .commit (none, τ)
  | parked {i : Nat} {τ : Server} (hf : σ.Fewer τ) (hp : τ.pending = σ.pending)
      (hk : τ.parked = σ.parked ++ [(sender, i, now)]) :
      Handled σ now sender (.poll false) (none, τ)

theorem Handled.kept {m : Msg} {d : Data} (hd : ∀ i owner, d = .news i owner → owner = pid) :
    σ.Handled now pid m (some ⟨pid, m.op, d⟩, σ) := .now rfl rfl id hd

/-- **One case for each way** a message is dealt with. -/
theorem handled (σ : Server) (news : Nat → Bool) (now pid : Nat) (m : Msg) :
    σ.Handled now pid m (σ.handleMsg news now pid m) := by
  have hzero : ∀ i owner, Data.zero = .news i owner → owner = (pid : Int) := fun _ _ h => nomatch h
  cases m with
  | hello app =>
      have ha : σ.Apart → (σ.helloWin app pid).2.Apart := Apart.helloWin
      have hp : (σ.helloWin app pid).2.pending = σ.pending := helloWin_pending
      have hk : (σ.helloWin app pid).2.parked = σ.parked := helloWin_parked
      rcases hr : σ.helloWin app pid with ⟨_ | i, τ⟩
      · simp only [handleMsg, hr] at ha hp hk ⊢
        exact .now hp hk ha hzero
      · simp only [handleMsg, hr] at ha hp hk ⊢
        exact .now hp hk (fun h => (ha h).fewer (fewer_setWin fun w => ⟨id, rfl, rfl, rfl⟩))
          fun _ _ h => nomatch h
  | commit =>
      cases hw : σ.winOf pid with
      | none =>
          simp only [handleMsg, hw]
          exact .kept hzero
      | some i =>
          have hf : σ.Fewer (σ.setWin i fun w => { w with committed := true }) :=
            fewer_setWin fun w => ⟨id, rfl, rfl, rfl⟩
          simp only [handleMsg, hw]
          split_ifs
          · exact .pending (hf.trans (fewer_of_wins rfl)) rfl rfl
          · refine .now rfl rfl (fun h => h.fewer hf) fun j owner h => ?_
            injection h with _ h
            rw [← h, setWin_self]
            exact (winOf_some hw).2.2
  | poll peek =>
      cases hw : σ.winOf pid with
      | none =>
          simp only [handleMsg, hw]
          exact .kept hzero
      | some i =>
          simp only [handleMsg, hw]
          split_ifs with hc
          · obtain ⟨rfl, -⟩ := hc
            exact .parked (fewer_of_wins rfl) rfl rfl
          · refine .kept fun j owner h => ?_
            injection h with _ h
            rw [← h]
            exact (winOf_some hw).2.2
  | bye =>
      cases hw : σ.winOf pid with
      | none =>
          simp only [handleMsg, hw]
          exact .kept hzero
      | some i =>
          simp only [handleMsg, hw]
          exact .now rfl rfl
            (fun h => h.fewer (fewer_setWin fun w => ⟨(fun h => nomatch h), rfl, rfl, rfl⟩)) hzero
  | setRes ok =>
      refine .kept fun i owner h => ?_
      cases ok <;> exact nomatch h
  | title | other _ => exact .kept hzero

theorem Apart.handleMsg {news : Nat → Bool} {m : Msg} (h : σ.Apart) :
    (σ.handleMsg news now pid m).2.Apart := by
  cases hr : σ.handleMsg news now pid m with
  | mk r τ =>
      have hh := σ.handled news now pid m
      rw [hr] at hh
      cases hh with
      | now _ _ ha _ => exact ha h
      | pending hf _ _ => exact h.fewer hf
      | parked hf _ _ => exact h.fewer hf

theorem fastTick_fewer (gone : Nat → Bool) : σ.Fewer (σ.fastTick gone) := fun i => by
  unfold fastTick
  dsimp only
  split_ifs with hc
  · exact fun h => nomatch h
  · exact fun h => ⟨h, rfl, rfl, rfl⟩

theorem Apart.launch {pid : Option Nat} (h : σ.Apart) (hp : ∀ p ∈ pid, σ.winOf p = none) :
    (σ.launch app pid openFile).Apart := by
  cases pid with
  | none => exact h.newWindow_internal
  | some p =>
      unfold Server.launch
      dsimp only
      split_ifs
      · exact h
      · exact h.newWindow_process (hp p rfl)

theorem closeWindow_fewer : σ.Fewer (σ.closeWindow i) := by
  unfold closeWindow
  split_ifs
  · exact fewer_of_wins rfl
  · exact fewer_setWin fun w => ⟨(fun h => nomatch h), rfl, rfl, rfl⟩
  · exact fewer_setWin fun w => ⟨id, rfl, rfl, rfl⟩

/-! ### What a HELLO is told -/

/-- The process has a window, or one can be made. -/
def Served (σ : Server) (pid : Nat) : Prop :=
  (σ.winOf pid).isSome = true ∨ σ.freeWin.isSome = true ∧ σ.freeSlot.isSome = true

/-- The slot is that of a window of the process, and of no other window. -/
def Own (σ : Server) (pid : Nat) (slot : Int) : Prop :=
  ∃ i, (σ.wins i).used = true ∧ (σ.wins i).pid = pid ∧ (σ.wins i).slot = slot ∧
    ∀ j, (σ.wins j).used = true → (σ.wins j).slot = slot → j = i

theorem Apart.own (h : σ.Apart) (hu : (σ.wins i).used = true) (hp : (σ.wins i).pid = pid) :
    σ.Own pid (σ.wins i).slot := by
  have hn : (σ.wins i).internal = false := by
    refine Bool.eq_false_iff.mpr fun hn => ?_
    have hneg := (h.internal i hu hn).1
    omega
  exact ⟨i, hu, hp, rfl, fun j hj heq =>
    (h.slots i j hu hj (h.surface i hu hn).1 heq.symm).symm⟩

/-- A HELLO that is served finds a window of the sender, which has one afterwards. -/
theorem Served.helloWin (h : σ.Served pid) (app : Nat) : ∃ i τ, σ.helloWin app pid = (some i, τ) ∧
    (τ.wins i).used = true ∧ (τ.wins i).pid = pid := by
  unfold Server.helloWin
  cases hw : σ.winOf pid with
  | some i => exact ⟨i, σ, rfl, (winOf_some hw).2⟩
  | none =>
      obtain hwin | ⟨hfree, hslot⟩ := h
      · rw [hw] at hwin
        exact nomatch hwin
      obtain ⟨i, hi⟩ := Option.isSome_iff_exists.mp hfree
      obtain ⟨s, hs⟩ := Option.isSome_iff_exists.mp hslot
      simp only [newWindow_process, hi, hs]
      exact ⟨i, _, rfl, congrArg Win.used (setWin_self ..), congrArg Win.pid (setWin_self ..)⟩

theorem helloWin_of_not_served (h : ¬ σ.Served pid) : σ.helloWin app pid = (none, σ) := by
  unfold helloWin
  cases hw : σ.winOf pid with
  | some i => exact absurd (.inl (hw ▸ rfl)) h
  | none =>
      cases hi : σ.freeWin with
      | none => simp only [newWindow_process, hi]
      | some i =>
          cases hs : σ.freeSlot with
          | none => simp only [newWindow_process, hi, hs]
          | some s => exact absurd (.inr ⟨hi ▸ rfl, hs ▸ rfl⟩) h

/-- The windows that `fast_tick` leaves are of processes that are there. -/
theorem fastTick_live {gone : Nat → Bool} {i : Nat} (h : σ.Apart)
    (ha : (σ.fastTick gone).Alive pid i) : gone pid = false := by
  obtain ⟨hu, hp⟩ := ha
  unfold fastTick at hu hp
  dsimp only at hu hp
  split_ifs at hu hp with hc
  have hn : (σ.wins i).internal = false := by
    refine Bool.eq_false_iff.mpr fun hn => ?_
    have hneg := (h.internal i hu hn).1
    omega
  refine Bool.eq_false_iff.mpr fun hgone => hc ⟨h.small i hu, hu, hn, ?_, ?_⟩
  · omega
  · rw [hp]
    exact hgone

end Server

namespace World

variable {W W' : World} {sender app now : Nat} {news : Nat → Bool}

theorem apart_serve {a : Act} (h : W.server.Apart) (ha : W.Can a) : (W.serve a).2.Apart := by
  cases a with
  | take _ _ | die _ => exact h
  | handle news now =>
      unfold serve
      cases W.hand with
      | none => exact h
      | some m => exact h.handleMsg
  | frame news now =>
      exact h.fewer ((Server.fastTick_fewer W.gone).trans (Server.fewer_of_wins rfl))
  | launch app pid openFile => exact h.launch fun p hp => (ha p hp).2.2
  | closeWindow i => exact h.fewer Server.closeWindow_fewer
  | minimize hidden => exact h.fewer fun i hi => ⟨hi, rfl, rfl, rfl⟩

theorem after_server (a : Act) : (W.after a).server = (W.serve a).2 := by
  cases a <;> rfl

theorem step_some {a : Act} (h : W.step a = some W') : W.Can a ∧ W' = W.after a := by
  obtain ⟨ha, h⟩ := (Option.ite_none_right_eq_some ..).mp h
  exact ⟨ha, (Option.some.inj h).symm⟩

/-- The states of the runs. -/
abbrev Running : World → Prop := Reached step (· = start) fun _ _ => True

theorem running_start : Running start := Reached.init rfl

theorem running_any {as : List Act} (C : World → Prop) [DecidablePred C]
    (hr : (run step (fun _ _ => True) as start).any (fun W => decide (C W)) = true) :
    ∃ W, Running W ∧ C W := running_start.run_any hr

theorem Running.apart (h : Running W) : W.server.Apart := by
  refine Reached.invariant (I := fun W : World => W.server.Apart) ?_ ?_ h
  · rintro W rfl
    exact ⟨nofun, nofun, nofun, nofun, nofun⟩
  · intro W a W' hW _ hs
    obtain ⟨ha, rfl⟩ := step_some hs
    rw [after_server]
    exact apart_serve hW ha

/-! ### The answers to HELLO -/

/-- No window of another process that is there has the slot. -/
def Unshared (W : World) (σ : Server) (pid : Nat) (slot : Int) : Prop :=
  ∀ j q : Nat, (σ.wins j).used = true → (σ.wins j).pid = q → q ≠ pid → W.gone q = false →
    (σ.wins j).slot ≠ slot

theorem unshared_of_own {σ : Server} {slot : Int} (h : σ.Own sender slot) :
    W.Unshared σ sender slot := by
  obtain ⟨i, -, hp, -, hone⟩ := h
  intro j q hj hq hne _ heq
  rw [hone j hj heq, hp] at hq
  exact hne (Int.ofNat.inj hq).symm

/-- The answer to a HELLO that is served is the slot of a window of the sender. -/
theorem hello_served (h : W.server.Apart) (hm : W.hand = some (sender, .hello app))
    (hs : W.server.Served sender) (news : Nat → Bool) (now : Nat) :
    ∃ r, (W.serve (.handle news now)).1 = [r] ∧ r.dest = sender ∧
      (W.serve (.handle news now)).2.Own sender r.data.slot := by
  obtain ⟨i, τ, hw, hu, hp⟩ := hs.helloWin app
  have ha : (W.serve (.handle news now)).2.Apart := apart_serve h (Option.isSome_of_eq_some hm)
  simp only [serve, hm, Server.handleMsg, hw] at ha ⊢
  refine ⟨_, rfl, rfl, ?_⟩
  have hself : (τ.setWin i fun w => { w with hello := true }).wins i =
    { τ.wins i with hello := true } := Server.setWin_self ..
  exact ha.own (by rw [hself]; exact hu) (by rw [hself]; exact hp)

theorem hello_zero (hm : W.hand = some (sender, .hello app)) (hs : ¬ W.server.Served sender) :
    W.serve (.handle news now) = ([⟨sender, .hello, .zero⟩], W.server) := by
  simp only [serve, hm, Server.handleMsg, Server.helloWin_of_not_served hs]
  rfl

theorem not_own (h : W.server.Apart) (hs : ¬ W.server.Served sender) {slot : Int} :
    ¬ W.server.Own sender slot := by
  rintro ⟨i, hu, hp, -⟩
  cases hw : W.server.winOf sender with
  | none => exact Server.winOf_none hw (h.small i hu) hu hp
  | some _ => exact hs (.inl (hw ▸ rfl))

theorem bye_leaves (h : W.server.Apart) (hm : W.hand = some (sender, .bye)) (i : Nat)
    (hu : ((W.serve (.handle news now)).2.wins i).used = true) :
    ((W.serve (.handle news now)).2.wins i).pid ≠ sender := by
  cases hw : W.server.winOf sender with
  | none =>
      simp only [serve, hm, Server.handleMsg, hw] at hu ⊢
      exact Server.winOf_none hw (h.small i hu) hu
  | some k =>
      obtain ⟨-, hk, hpid⟩ := Server.winOf_some hw
      simp only [serve, hm, Server.handleMsg, hw] at hu ⊢
      by_cases hne : i = k
      · rw [hne, Server.setWin_self] at hu
        exact nomatch hu
      · rw [Server.setWin_of_ne hne] at hu ⊢
        intro hp
        have hpos : 0 ≤ (W.server.wins i).pid := hp ▸ Int.natCast_nonneg sender
        exact hne (h.pids i k hu hk hpos (hp.trans hpid.symm))

/-- **A HELLO is told a slot of its own** exactly if it has a window or one can be made: one for
which there is none is told slot 0, which another process that is there may have.  The slots that
no window has are available, a process that said BYE has no window, and after a frame none that is
gone has one. -/
theorem surfaces_exclusive (h : Running W) :
    (∀ sender app news now, W.hand = some (sender, .hello app) →
      ∃ r, (W.serve (.handle news now)).1 = [r] ∧ r.dest = sender ∧
        ((W.serve (.handle news now)).2.Own sender r.data.slot ↔ W.server.Served sender) ∧
        (W.Unshared (W.serve (.handle news now)).2 sender r.data.slot ↔
          W.server.Served sender ∨ W.Unshared W.server sender 0)) ∧
    (∀ s < SURF_SLOTS, (∀ i, (W.server.wins i).used = true → (W.server.wins i).slot ≠ s) →
      W.server.freeSlot.isSome = true) ∧
    (∀ sender news now, W.hand = some (sender, .bye) → ∀ i,
      ((W.serve (.handle news now)).2.wins i).used = true →
        ((W.serve (.handle news now)).2.wins i).pid ≠ sender) ∧
    ∀ news now pid i, (W.serve (.frame news now)).2.Alive pid i → W.gone pid = false := by
  have ha := h.apart
  refine ⟨fun sender app news now hm => ?_, fun s hs hspare => ?_, fun sender news now hm => ?_,
    fun _ _ _ _ hl => Server.fastTick_live ha hl⟩
  · by_cases hs : W.server.Served sender
    · obtain ⟨r, hr, hdest, hown⟩ := hello_served ha hm hs news now
      exact ⟨r, hr, hdest, iff_of_true hown hs, iff_of_true (unshared_of_own hown) (.inl hs)⟩
    · rw [hello_zero hm hs]
      exact ⟨_, rfl, rfl, iff_of_false (not_own ha hs) hs, (or_iff_right hs).symm⟩
  · exact Server.freeSlot_of_spare hs fun i _ hi => hspare i hi
  · exact bye_leaves ha hm

/-- Processes 0 to `n - 1` say HELLO and are answered, and process `n` says it. -/
def greetings (n : Nat) : List Act :=
  ((List.range n).flatMap fun p => [.take p (.hello 1), .handle (fun _ => false) 0]) ++
    [.take n (.hello 1)]

/-- What the answers to the message in hand are, and the windows after it. -/
abbrev told (W : World) : List Reply × Server := W.serve (.handle (fun _ => false) 0)

theorem surfaces_exclusive_two : ∃ W, (Running W ∧ W.hand = some (2, .hello 1) ∧
    (W.told.1.map fun r => r.data.slot) = [2]) ∧
    (∀ r, W.told.1 = [r] → (W.told.2.Own 2 r.data.slot ↔ W.server.Served 2)) := by
  obtain ⟨W, h, hm, hr⟩ := running_any
    (fun W => W.hand = some (2, .hello 1) ∧ (W.told.1.map fun r => r.data.slot) = [2])
    (show (run step _ (greetings 2) start).any _ = true by decide +kernel)
  refine ⟨W, ⟨h, hm, hr⟩, fun r hr => ?_⟩
  obtain ⟨r', hr', -, hown, -⟩ := (surfaces_exclusive h).1 2 1 (fun _ => false) 0 hm
  rw [List.cons.inj (hr.symm.trans hr') |>.1]
  exact hown

/-- Eight processes have windows; the ninth is told to draw where the first one does. -/
theorem ninth_window : ¬ ∀ W, Running W → ∀ sender app news now,
    W.hand = some (sender, .hello app) → ∀ r ∈ (W.serve (.handle news now)).1,
      W.Unshared (W.serve (.handle news now)).2 sender r.data.slot := by
  intro hall
  obtain ⟨W, h, hm, hr, hu, hp, hs, hlive⟩ := running_any (fun W => W.hand = some (8, .hello 1) ∧ W.told.1 = [⟨8, .hello, .zero⟩] ∧
      (W.told.2.wins 0).used = true ∧ (W.told.2.wins 0).pid = Int.ofNat 0 ∧
      (W.told.2.wins 0).slot = 0 ∧ W.gone 0 = false)
    (show (run step _ (greetings 8) start).any _ = true by decide +kernel)
  have hmem : (⟨8, .hello, .zero⟩ : Reply) ∈ W.told.1 := hr ▸ List.mem_singleton_self _
  exact hall W h 8 1 _ _ hm _ hmem 0 0 hu hp (by decide) hlive hs

end World

end Pulsar.Shell

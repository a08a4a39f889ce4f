import Mathlib.Data.List.Perm.Basic
import Mathlib.Data.List.Nodup
import Pulsar.Shell.Slots

/-!
# Every message is answered once (`shell/src/main.rs`)

What the server owes is in its hand, in `pending` and in `parked`.  The notes of a run are the
messages that were received and the answers that were given; both are of a process and an operation.

* `Owing`: what was asked is what was answered and what is owed, and a process is owed one answer
  while it waits and none when it does not.
* **`replies_settled`**: this holds in every run, and what a frame leaves owed is to processes that
  are there, have their window and have no news.
-/

namespace Pulsar.Shell

open Runs

/-! ### What is owed -/

namespace Server

variable {σ τ : Server} {pid now : Nat} {news : Nat → Bool}

/-- The answers that are owed for `pending` and `parked`. -/
def owed (σ : Server) : List (Nat × Op) :=
  (σ.pending.map fun r => (r.1, Op.commit)) ++ σ.parked.map fun r => (r.1, Op.poll)

theorem owed_congr (hp : τ.pending = σ.pending) (hk : τ.parked = σ.parked) : τ.owed = σ.owed := by
  unfold owed
  rw [hp, hk]

theorem launch_owed {app : Nat} {p : Option Nat} {openFile : Int} :
    (σ.launch app p openFile).owed = σ.owed := by
  unfold launch
  cases p with
  | none => exact owed_congr newWindow_lists.1 newWindow_lists.2
  | some p =>
      dsimp only
      split_ifs
      · rfl
      · exact owed_congr newWindow_lists.1 newWindow_lists.2

theorem closeWindow_owed {i : Nat} : (σ.closeWindow i).owed = σ.owed := by
  unfold closeWindow
  split_ifs <;> rfl

theorem handleMsg_settles (σ : Server) (news : Nat → Bool) (now pid : Nat) (m : Msg) :
    ((σ.handleMsg news now pid m).1.toList.map Reply.to ++ (σ.handleMsg news now pid m).2.owed).Perm
      ((pid, m.op) :: σ.owed) := by
  have hh := σ.handled news now pid m
  cases hr : σ.handleMsg news now pid m with
  | mk r τ =>
      rw [hr] at hh
      cases hh with
      | now hp hk _ _ => exact owed_congr hp hk ▸ .refl _
      | pending _ hp hk =>
          unfold owed
          rw [hp, hk, List.map_append, List.append_assoc]
          exact List.perm_middle
      | parked _ hp hk =>
          unfold owed
          rw [hp, hk, List.map_append, ← List.append_assoc, ← List.append_assoc]
          exact List.perm_append_singleton ..

theorem lastFirst_perm {α : Type} (rs : List α) : (lastFirst rs).Perm rs := by
  unfold lastFirst
  rcases List.eq_nil_or_concat rs with rfl | ⟨ls, l, rfl⟩
  · exact .refl _
  · rw [List.concat_eq_append, List.getLast?_concat, List.dropLast_concat]
    exact (List.perm_append_singleton l ls).symm

theorem releaseLoop_settles {n : Nat} {rs : List (Nat × Nat × Nat)} (hn : rs.length ≤ n) :
    ((σ.releaseLoop news now n rs).2.map Reply.to ++
      (σ.releaseLoop news now n rs).1.map fun r => (r.1, Op.poll)).Perm
        (rs.map fun r => (r.1, Op.poll)) := by
  induction n generalizing rs with
  | zero =>
      obtain rfl := List.eq_nil_of_length_eq_zero (Nat.le_zero.mp hn)
      exact .refl _
  | succ n ih =>
      cases rs with
      | nil => exact .refl _
      | cons r rs =>
          unfold releaseLoop
          have hlen : rs.length ≤ n := Nat.le_of_succ_le_succ hn
          split_ifs
          · have hrest := lastFirst_perm rs
            exact ((ih (hrest.length_eq ▸ hlen)).trans (hrest.map _)).cons _
          · exact List.perm_middle.trans ((ih hlen).cons _)

theorem releaseLoop_left {n : Nat} {rs : List (Nat × Nat × Nat)} (hn : rs.length ≤ n)
    {r : Nat × Nat × Nat} (hr : r ∈ (σ.releaseLoop news now n rs).1) : ¬ σ.Ripe news now r := by
  induction n generalizing rs with
  | zero =>
      obtain rfl := List.eq_nil_of_length_eq_zero (Nat.le_zero.mp hn)
      exact nomatch hr
  | succ n ih =>
      cases rs with
      | nil => exact nomatch hr
      | cons q rs =>
          unfold releaseLoop at hr
          have hlen : rs.length ≤ n := Nat.le_of_succ_le_succ hn
          split_ifs at hr with hq
          · exact ih ((lastFirst_perm rs).length_eq ▸ hlen) hr
          · obtain rfl | hr := List.mem_cons.mp hr
            · exact hq
            · exact ih hlen hr

theorem not_ripe {r : Nat × Nat × Nat} (h : ¬ σ.Ripe news now r) :
    σ.Alive r.1 r.2.1 ∧ news r.2.1 = false ∧ now - r.2.2 < POLL_MAX_MS := by
  obtain ⟨halive, hnews, hold⟩ := not_or.mp h |>.imp_right not_or.mp
  exact ⟨not_not.mp halive, Bool.eq_false_iff.mpr hnews, Nat.lt_of_not_le hold⟩

/-- What `later` says is of a window of the process. -/
theorem later_own {op : Op} {i j : Nat} {owner : Int}
    (h : (σ.later op pid i).data = .news j owner) : owner = pid := by
  unfold later at h
  dsimp only at h
  split_ifs at h with ha
  · injection h with _ h
    rw [← h]
    exact ha.2

theorem releaseLoop_later {n : Nat} {rs : List (Nat × Nat × Nat)} {a : Reply}
    (ha : a ∈ (σ.releaseLoop news now n rs).2) : ∃ pid i, a = σ.later .poll pid i := by
  induction n generalizing rs with
  | zero => exact nomatch ha
  | succ n ih =>
      cases rs with
      | nil => exact nomatch ha
      | cons r rs =>
          unfold releaseLoop at ha
          split_ifs at ha
          · obtain rfl | ha := List.mem_cons.mp ha
            · exact ⟨_, _, rfl⟩
            · exact ih ha
          · exact ih ha

theorem answer_settles :
    ((σ.answer news now).1.map Reply.to ++ (σ.answer news now).2.owed).Perm σ.owed := by
  have hloop : ((σ.releaseParked news now).1.map Reply.to ++
      (σ.releaseParked news now).2.parked.map fun r => (r.1, Op.poll)).Perm
        (σ.parked.map fun r => (r.1, Op.poll)) := releaseLoop_settles (Nat.le_refl _)
  have hflush : ((σ.releaseParked news now).2.flushCommits.1.map Reply.to) =
      σ.pending.map fun r => (r.1, Op.commit) := by
    simp only [flushCommits, releaseParked, List.map_map]
    rfl
  have hkept : (σ.answer news now).2.owed =
      (σ.releaseParked news now).2.parked.map fun r => (r.1, Op.poll) := rfl
  rw [hkept, answer, List.map_append, hflush, List.append_assoc]
  exact (List.perm_append_comm_assoc ..).trans (hloop.append_left _)

theorem answer_own {a : Reply} (ha : a ∈ (σ.answer news now).1) {i : Nat} {owner : Int}
    (hd : a.data = .news i owner) : owner = a.dest := by
  obtain ha | ha := List.mem_append.mp ha
  · obtain ⟨p, k, rfl⟩ := releaseLoop_later ha
    exact later_own hd
  · obtain ⟨r, -, rfl⟩ := List.mem_map.mp ha
    exact later_own hd

end Server

/-! ### The notes of a run -/

/-- The messages that were received, and the answers. -/
structure Notes where
  asked : List (Nat × Op)
  answers : List Reply

namespace World

variable {W W' : World} {L : Notes}

/-- The answers that are owed. -/
def owed (W : World) : List (Nat × Op) :=
  (W.hand.toList.map fun h => (h.1, h.2.op)) ++ W.server.owed

/-- The message that an act receives. -/
def received : Act → List (Nat × Op)
  | .take sender m => [(sender, m.op)]
  | _ => []

/-- The notes after an act. -/
def note (W : World) (a : Act) (_ : World) (L : Notes) : Notes :=
  ⟨received a ++ L.asked, (W.serve a).1 ++ L.answers⟩

/-- The states of the runs, with their notes. -/
abbrev Noting : World × Notes → Prop := Noted step note (· = start) ⟨[], []⟩ fun _ _ => True

/-- What was asked was answered or is owed, and a process is owed one answer while it waits. -/
structure Owing (W : World) (L : Notes) : Prop where
  settled : L.asked.Perm (L.answers.map Reply.to ++ W.owed)
  once : (W.owed.map Prod.fst).Nodup
  waits : ∀ pid, W.waiting pid = true ↔ W.gone pid = false ∧ pid ∈ W.owed.map Prod.fst
  own : ∀ r ∈ L.answers, ∀ i owner, r.data = .news i owner → owner = r.dest

/-- **What an act answers** it owes no more, and it owes what it receives. -/
theorem serve_settles {a : Act} (ha : W.Can a) :
    ((W.serve a).1.map Reply.to ++ (W.after a).owed).Perm (received a ++ W.owed) := by
  cases a with
  | take sender m =>
      have hnone : W.hand = none := ha.1
      simp only [owed, hnone]
      exact .refl _
  | handle news now =>
      obtain ⟨⟨sender, m⟩, hm⟩ := Option.isSome_iff_exists.mp ha
      have hs := W.server.handleMsg_settles news now sender m
      simp only [owed, after, serve, hm]
      exact hs
  | frame news now =>
      have hnone : W.hand = none := ha
      simp only [owed, after, serve, hnone]
      exact (W.server.fastTick W.gone).answer_settles
  | launch app pid openFile =>
      simp only [owed, after, serve, Server.launch_owed]
      exact .refl _
  | closeWindow i =>
      simp only [owed, after, serve, Server.closeWindow_owed]
      exact .refl _
  | minimize hidden => exact .refl _
  | die pid => exact .refl _

theorem serve_own {a : Act} {r : Reply} (hr : r ∈ (W.serve a).1) {i : Nat} {owner : Int}
    (hd : r.data = .news i owner) : owner = r.dest := by
  cases a with
  | handle news now =>
      rcases hm : W.hand with _ | ⟨sender, m⟩
      · simp only [serve, hm] at hr
        exact absurd hr List.not_mem_nil
      · simp only [serve, hm] at hr
        have hh := W.server.handled news now sender m
        generalize W.server.handleMsg news now sender m = x at hr hh
        cases hh with
        | now _ _ _ hown =>
            obtain rfl := Option.some.inj (Option.mem_toList.mp hr)
            exact hown i owner hd
        | pending | parked => exact absurd hr List.not_mem_nil
  | frame news now => exact Server.answer_own hr hd
  | take _ _ | launch _ _ _ | closeWindow _ | minimize _ | die _ =>
      exact absurd hr List.not_mem_nil

theorem deliver_iff {rs : List Reply} {waiting : Nat → Bool} {pid : Nat} :
    deliver rs waiting pid = true ↔ waiting pid = true ∧ pid ∉ rs.map Reply.dest := by
  unfold deliver
  rw [Bool.and_eq_true, Bool.not_eq_true', ← Bool.not_eq_true, List.any_eq_true]
  simp only [beq_iff_eq, List.mem_map]

theorem after_waiting {a : Act} {pid : Nat} (ha : W.Can a)
    (hw : W.waiting pid = true → W.gone pid = false) : (W.after a).waiting pid = true ↔
      (W.after a).gone pid = false ∧ (W.waiting pid = true ∨ pid ∈ (received a).map Prod.fst) ∧
        pid ∉ (W.serve a).1.map Reply.dest := by
  cases a with
  | take sender m =>
      by_cases hp : pid = sender
      · simp [after, received, serve, hp, ha.2.1]
      · simpa [after, received, serve, hp] using hw
  | die p =>
      by_cases hp : pid = p
      · simp [after, hp]
      · simpa [after, received, serve, hp] using hw
  | handle | frame | launch | closeWindow | minimize =>
      simp only [after, deliver_iff, received, List.map_nil, List.not_mem_nil, or_false]
      exact ⟨fun h => ⟨hw h.1, h⟩, fun h => h.2⟩

theorem Owing.received_nodup {a : Act} (h : Owing W L) (ha : W.Can a) :
    ((received a ++ W.owed).map Prod.fst).Nodup := by
  cases a with
  | take sender m =>
      refine List.nodup_cons.mpr ⟨fun hmem => ?_, h.once⟩
      have hwait : W.waiting sender = true := (h.waits sender).mpr ⟨ha.2.1, hmem⟩
      exact Bool.false_ne_true (ha.2.2.symm.trans hwait)
  | handle | frame | launch | closeWindow | minimize | die => exact h.once

theorem gone_of_after {a : Act} {pid : Nat} (h : (W.after a).gone pid = false) :
    W.gone pid = false := by
  cases a with
  | die p =>
      by_cases hp : pid = p
      · simp [after, hp] at h
      · simpa [after, hp] using h
  | take | handle | frame | launch | closeWindow | minimize => exact h

/-- **The step.** -/
theorem Owing.step {a : Act} (h : Owing W L) (hs : W.step a = some W') :
    Owing W' (note W a W' L) := by
  obtain ⟨ha, rfl⟩ := step_some hs
  have hserve := serve_settles ha
  have hfst : ((W.serve a).1.map Reply.dest ++ (W.after a).owed.map Prod.fst).Perm
      ((received a ++ W.owed).map Prod.fst) := by
    have hmap := hserve.map Prod.fst
    rw [List.map_append, List.map_map] at hmap
    exact hmap
  have hboth := hfst.nodup_iff.mpr (h.received_nodup ha)
  obtain ⟨-, honce, hapart⟩ := List.nodup_append.mp hboth
  refine ⟨?_, honce, fun pid => ?_, fun r hr i owner hd => ?_⟩
  case refine_1 =>
    have hold := (h.settled.append_left (received a)).trans (List.perm_append_comm_assoc ..)
    have hnow := (hold.trans (hserve.symm.append_left _)).trans (List.perm_append_comm_assoc ..)
    rw [← List.append_assoc, ← List.map_append] at hnow
    exact hnow
  case refine_2 =>
    rw [after_waiting ha fun hw => ((h.waits pid).mp hw).1]
    refine and_congr_right fun hgone => ?_
    have hmem := hfst.mem_iff (a := pid)
    rw [List.map_append, List.mem_append, List.mem_append] at hmem
    rw [h.waits pid, and_iff_right (gone_of_after hgone), or_comm, ← hmem]
    exact ⟨fun h => h.1.resolve_left h.2, fun h => ⟨.inr h, fun hd => hapart _ hd _ h rfl⟩⟩
  case refine_3 =>
    obtain hr | hr := List.mem_append.mp hr
    · exact serve_own hr hd
    · exact h.own r hr i owner hd

theorem Noting.running {x : World × Notes} (h : Noting x) : Running x.1 := Noted.reached h

theorem Noting.owing {x : World × Notes} (h : Noting x) : Owing x.1 x.2 := by
  refine Noted.invariant (I := Owing) ?_ ?_ h
  · rintro W rfl
    refine ⟨.refl _, List.nodup_nil, fun pid => ?_, fun r hr => nomatch hr⟩
    exact iff_of_false Bool.false_ne_true fun h => nomatch h.2
  · intro W a W' L hO _ hs
    exact hO.step hs

/-- What a frame leaves owed: questions of processes that are there, of their windows, that have no
news and are not old. -/
structure Quiet (W : World) (news : Nat → Bool) (now : Nat) (W' : World) : Prop where
  pending : W'.server.pending = []
  alive : ∀ r ∈ W'.server.parked, W'.gone r.1 = false ∧ W'.server.Alive r.1 r.2.1
  patient : ∀ r ∈ W'.server.parked, news r.2.1 = false ∧ now - r.2.2 < POLL_MAX_MS

/-- **A frame** leaves no record of a window or a process that is gone. -/
theorem frame_quiet {news : Nat → Bool} {now : Nat} (h : W.server.Apart) :
    Quiet W news now (W.after (.frame news now)) := by
  have hleft : ∀ r ∈ (W.after (.frame news now)).server.parked,
      ¬ (W.server.fastTick W.gone).Ripe news now r :=
    fun r hr => Server.releaseLoop_left (Nat.le_refl _) hr
  refine ⟨rfl, fun r hr => ?_, fun r hr => ?_⟩
  · obtain ⟨halive, -, -⟩ := Server.not_ripe (hleft r hr)
    exact ⟨Server.fastTick_live h halive, halive⟩
  · exact (Server.not_ripe (hleft r hr)).2

/-- **Every message is answered once**, to the process that sent it: at any time what was asked is
what was answered and what is owed, each process is owed one answer while it waits and none when it
does not, and the news are of its own window.  What a frame leaves owed is to processes that are
there and have their window. -/
theorem replies_settled {x : World × Notes} (h : Noting x) : Owing x.1 x.2 ∧
    ∀ news now W', x.1.step (.frame news now) = some W' → Quiet x.1 news now W' := by
  refine ⟨h.owing, fun news now W' hs => ?_⟩
  obtain ⟨-, rfl⟩ := step_some hs
  exact frame_quiet h.running.apart

/-- A process says HELLO, draws, and asks for events. -/
def session : List Act :=
  [.take 7 (.hello 1), .handle (fun _ => false) 0, .take 7 .commit, .handle (fun _ => false) 5,
    .frame (fun _ => false) 16, .take 7 (.poll false), .handle (fun _ => false) 20]

theorem replies_settled_session : ∃ x, (Noting x ∧ x.2.asked.length = 3 ∧
    x.2.answers.map Reply.to = [(7, .commit), (7, .hello)] ∧ x.1.owed = [(7, .poll)]) ∧
    Owing x.1 x.2 := by
  have hstart : Noting (start, ⟨[], []⟩) := Noted.start rfl
  obtain ⟨x, h, hx⟩ : ∃ x, Noting x ∧ x.2.asked.length = 3 ∧
      x.2.answers.map Reply.to = [(7, .commit), (7, .hello)] ∧ x.1.owed = [(7, .poll)] :=
    hstart.run_any (show (run (noted step note) _ session _).any _ = true by decide +kernel)
  exact ⟨x, ⟨h, hx⟩, (replies_settled h).1⟩

end World

end Pulsar.Shell

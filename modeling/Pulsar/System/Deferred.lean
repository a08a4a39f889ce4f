import Mathlib.Data.List.Find
import Pulsar.System.State
import Pulsar.Vm.Refine

/-!
# Operations completed for another process (`process.rs`)

A process that is blocked in an operation of IPC or in `wait`, or that is over and had the word of
its `clear_tid` cleared, does not write its memory itself: the one that completes the operation
does.  `owes` says which words that is, and `delivered_iff` that they arrive exactly when the page
table has the page of each word for writing at that moment.

* `delivered_iff`: when the words arrive and the wake is issued.
-/

namespace Pulsar

open Proc Vm

/-- The completion of an operation. -/
inductive Completion where
  /-- `ipc_send` to a process that waits for a message. -/
  | send (me dstPid : Nat) (msg : Message) (msgPtr : Nat)
  /-- `ipc_recv` and `ipc_try_recv` from a process that waits to send. -/
  | recv (me msgPtr : Nat)
  | reply (me toPid : Nat) (msg : Message)
  /-- `record_exit`. -/
  | exit (s : Nat)
  /-- The first part of `exit_locked`. -/
  | clearTid (s : Nat)

/-- What a completion owes to the memory of a space, and the futex to wake there. -/
structure Owed where
  root : Nat
  words : List Word
  wake : Option Nat

namespace System

variable {σ : System} {s i : Nat}

/-- `CLONE_CHILD_CLEARTID`: clears the word and wakes a thread that waits for it. -/
def exitClear (s : Nat) (σ : System) : System :=
  let ct := (σ.procs s).clearTid
  if ct ≠ 0 then
    match (σ.procs s).root with
    | none => σ
    | some r =>
      match (σ.mm.pts r).translateUser ct true with
      | none => σ
      | some f => ⟨(σ.procs.futexWake (some r) ct 1).2, σ.mm.store (f * PAGE + ct % PAGE) 4 0⟩
  else σ

/-- The process that `record_exit(s)` completes the `wait` of. -/
def waiter (ps : Procs) (s : Nat) : Option Nat :=
  (List.range MAX_PROCS).find? fun i =>
    decide (ps.waitsFor (ps s).pid (ps s).parent (ps i) ∧ (ps i).waitPtr ≠ Procs.WAIT_REDO)

end System

namespace Completion

/-- What the kernel does. -/
def run (σ : System) : Completion → System
  | send me dstPid msg msgPtr => σ.after (σ.procs.ipcSend me dstPid msg msgPtr).2
  | recv me msgPtr => σ.after (σ.procs.ipcRecv me msgPtr).2
  | reply me toPid msg => σ.after (σ.procs.ipcReply me toPid msg)
  | exit s => σ.after (σ.procs.recordExit s)
  | clearTid s => σ.exitClear s

/-- The words of a message owed to process `p`, which gave a buffer. -/
def message (ps : Procs) (p ptr : Nat) (m : Message) : Option Owed :=
  if ptr ≠ 0 then (ps p).root.map fun r => ⟨r, m.words ptr, none⟩ else none

/-- What is to be written in the space of the process whose operation is completed. -/
def owes (ps : Procs) : Completion → Option Owed
  | send me dstPid msg _ => do
    let dst ← ps.slotOf dstPid
    if dst ≠ me ∧ (ps dst).state = .recvBlocked then message ps dst (ps dst).msgPtr msg else none
  | recv me msgPtr => do
    let s ← ps.findSender me
    message ps me msgPtr (ps s).inbox
  | reply me toPid msg => do
    let p ← ps.slotOf toPid
    if (ps p).state = .replyBlocked ∧ (ps p).peer = me then message ps p (ps p).msgPtr msg
    else none
  | exit s => do
    let i ← System.waiter ps s
    if (ps i).waitPtr ≠ 0 then
      (ps i).root.map fun r => ⟨r, [⟨(ps i).waitPtr, 4, (ps s).status⟩], none⟩
    else none
  | clearTid s =>
    if (ps s).clearTid ≠ 0 then
      (ps s).root.map fun r => ⟨r, [⟨(ps s).clearTid, 4, 0⟩], some (ps s).clearTid⟩
    else none

end Completion

/-- What is owed has arrived, and the first thread that waited on the futex goes on. -/
structure Delivered (o : Owed) (σ τ : System) : Prop where
  arrived : Arrived o.root o.words σ.mm τ.mm
  woken : ∀ a, o.wake = some a → ∀ i < MAX_PROCS, Procs.waitsOn (some o.root) a (σ.procs i) →
    (∀ j < i, ¬ Procs.waitsOn (some o.root) a (σ.procs j)) → (τ.procs i).state = .ready

/-! ### The words -/

theorem spaced_words (m : Message) (va : Nat) : Spaced (m.words va) := by
  refine ⟨fun w hw => ?_, ?_⟩
  · obtain ⟨x, -, rfl⟩ := List.mem_map.mp hw
    exact ⟨Nat.succ_pos 7, show 8 ≤ PAGE by decide⟩
  · have hlen : (m.words va).length = 7 := by simp [Message.words]
    rw [List.pairwise_iff_getElem]
    intro i j hi hj hij a ha b hb
    rw [hlen] at hi hj
    simp only [Message.words, List.getElem_map, List.getElem_zipIdx, PAGE, Nat.zero_add] at *
    omega

theorem spaced_one {va value : Nat} : Spaced [⟨va, 4, value⟩] :=
  ⟨fun w hw => by
    obtain rfl := List.mem_singleton.mp hw
    exact ⟨Nat.succ_pos 3, show 4 ≤ PAGE by decide⟩,
    List.pairwise_singleton ..⟩

namespace Completion

variable {σ : System} {c : Completion} {o : Owed} {ps : Procs} {p ptr s : Nat} {m : Message}

theorem effects_message (t : Mm) (h : message ps p ptr m = some o) :
    t.effects (Procs.writeMsg (ps p).root ptr m) = t.puts o.root o.words ∧ Spaced o.words ∧
      o.wake = none := by
  rw [message] at h
  split_ifs at h with hp
  obtain ⟨r, hr, rfl⟩ := Option.map_eq_some_iff.mp h
  refine ⟨?_, spaced_words m ptr, rfl⟩
  rw [Procs.writeMsg, if_pos hp, hr]
  rfl

theorem waitsFor_setState {pid : Nat} {parent : Option Nat} {i j : Nat} (h : j ≠ i) :
    Procs.waitsFor (ps.setState i .ready) pid parent ((ps.setState i .ready) j) ↔
      ps.waitsFor pid parent (ps j) := by
  have hpid : ∀ l, ((ps.setState i .ready) l).pid = (ps l).pid := fun l => by
    by_cases e : l = i
    · rw [e, Procs.setState, Procs.edit, Function.update_self]
    · rw [Procs.setState, Procs.edit, Function.update_of_ne e]
  have hj : (ps.setState i .ready) j = ps j := by
    rw [Procs.setState, Procs.edit, Function.update_of_ne h]
  rw [Procs.waitsFor, Procs.waitsFor, hj, hpid]

/-- The loop of `record_exit` writes for the first process that waits in `wait`. -/
theorem recordLoop_effects (pid : Nat) (parent : Option Nat) (status : Nat) {is : List Nat}
    (hn : is.Nodup) : (Procs.recordLoop pid parent status is ps).2 =
      ((is.find? fun i => decide (ps.waitsFor pid parent (ps i) ∧
        (ps i).waitPtr ≠ Procs.WAIT_REDO)).elim [] fun i =>
          if (ps i).waitPtr ≠ 0 then [.put32 (ps i).root (ps i).waitPtr status] else []) := by
  induction is generalizing ps with
  | nil => rfl
  | cons i is ih =>
      obtain ⟨hi, hn⟩ := List.nodup_cons.mp hn
      rw [Procs.recordLoop]
      by_cases hw : ps.waitsFor pid parent (ps i)
      · rw [if_pos hw]
        by_cases hr : (ps i).waitPtr = Procs.WAIT_REDO
        · -- it looks again by itself, and those after it wait as before
          rw [if_pos hr, ih hn, List.find?_cons_of_neg (by simp [hr])]
          have hne : ∀ j ∈ is, j ≠ i := fun j hj e => hi (e ▸ hj)
          have hsame : ∀ j ∈ is, (ps.setState i .ready) j = ps j := fun j hj => by
            rw [Procs.setState, Procs.edit, Function.update_of_ne (hne j hj)]
          have hfind : (is.find? fun j => decide (Procs.waitsFor (ps.setState i .ready) pid parent
              ((ps.setState i .ready) j) ∧ ((ps.setState i .ready) j).waitPtr ≠ Procs.WAIT_REDO)) =
              is.find? fun j => decide (ps.waitsFor pid parent (ps j) ∧
                (ps j).waitPtr ≠ Procs.WAIT_REDO) :=
            List.find?_congr fun j hj => by
              rw [decide_eq_decide, waitsFor_setState (hne j hj), hsame j hj]
          rw [hfind]
          cases hf : is.find? fun j => decide (ps.waitsFor pid parent (ps j) ∧
              (ps j).waitPtr ≠ Procs.WAIT_REDO) with
          | none => rfl
          | some j =>
              have hj : j ∈ is := List.mem_of_find?_eq_some hf
              simp only [Option.elim_some, hsame j hj]
        · rw [if_neg hr, List.find?_cons_of_pos (by simp [hw, hr])]
          rfl
      · rw [if_neg hw, ih hn, List.find?_cons_of_neg (by simp [hw])]

/-- **What is owed is written** word by word, and nothing else. -/
theorem run_mm (ho : c.owes σ.procs = some o) :
    (c.run σ).mm = σ.mm.puts o.root o.words ∧ Spaced o.words := by
  cases c with
  | send me dstPid msg msgPtr =>
      obtain ⟨dst, hdst, ho⟩ := Option.bind_eq_some_iff.mp ho
      split_ifs at ho with hc
      obtain ⟨hne, hst⟩ := hc
      obtain ⟨heff, hspaced, -⟩ := effects_message σ.mm ho
      refine ⟨?_, hspaced⟩
      have hd : (σ.procs.edit me fun p => { p with msgPtr := msgPtr }) dst = σ.procs dst := by
        rw [Procs.edit, Function.update_of_ne hne]
      have hst' : ((σ.procs.edit me fun p => { p with msgPtr := msgPtr }) dst).state =
          .recvBlocked := by rw [hd, hst]
      simp only [run, System.after, Procs.ipcSend, hdst, if_neg hne, if_pos hst']
      simp only [Procs.deliverRecv, Procs.edit, Function.update_self, Function.update_of_ne hne]
      exact heff
  | recv me msgPtr =>
      obtain ⟨s, hs, ho⟩ := Option.bind_eq_some_iff.mp ho
      obtain ⟨heff, hspaced, -⟩ := effects_message σ.mm ho
      refine ⟨?_, hspaced⟩
      simp only [run, System.after, Procs.ipcRecv, hs, Procs.acceptFrom]
      exact heff
  | reply me toPid msg =>
      obtain ⟨p, hp, ho⟩ := Option.bind_eq_some_iff.mp ho
      split_ifs at ho with hc
      obtain ⟨heff, hspaced, -⟩ := effects_message σ.mm ho
      refine ⟨?_, hspaced⟩
      simp only [run, System.after, Procs.ipcReply, hp, hc, and_self, if_true]
      exact heff
  | exit s =>
      obtain ⟨i, hi, ho⟩ := Option.bind_eq_some_iff.mp ho
      split_ifs at ho with hp
      obtain ⟨r, hr, rfl⟩ := Option.map_eq_some_iff.mp ho
      refine ⟨?_, spaced_one⟩
      rw [System.waiter] at hi
      simp only [run, System.after, Procs.recordExit]
      rw [recordLoop_effects _ _ _ List.nodup_range, hi, Option.elim_some, if_pos hp, hr]
      rfl
  | clearTid s =>
      rw [owes] at ho
      split_ifs at ho with hct
      obtain ⟨r, hr, rfl⟩ := Option.map_eq_some_iff.mp ho
      refine ⟨?_, spaced_one⟩
      simp only [run, System.exitClear, if_pos hct, hr, Mm.puts, List.foldl_cons, List.foldl_nil,
        Mm.put]
      cases (σ.mm.pts r).translateUser (σ.procs s).clearTid true <;> rfl

/-- Only the first part of `exit_locked` owes a wake. -/
theorem wake_some {a : Nat} (ho : c.owes ps = some o) (ha : o.wake = some a) :
    ∃ s, c = .clearTid s ∧ (ps s).clearTid = a ∧ a ≠ 0 ∧ (ps s).root = some o.root ∧
      o.words = [⟨a, 4, 0⟩] := by
  have hmsg : ∀ {p ptr m}, message ps p ptr m ≠ some o := fun {p ptr m} h => by
    have := (effects_message (Mm.boot (.boot 0 fun _ => false)) h).2.2
    rw [ha] at this
    exact absurd this (by simp)
  cases c with
  | send me dstPid msg msgPtr =>
      obtain ⟨dst, -, ho⟩ := Option.bind_eq_some_iff.mp ho
      split_ifs at ho
      exact absurd ho hmsg
  | recv me msgPtr =>
      obtain ⟨s, -, ho⟩ := Option.bind_eq_some_iff.mp ho
      exact absurd ho hmsg
  | reply me toPid msg =>
      obtain ⟨p, -, ho⟩ := Option.bind_eq_some_iff.mp ho
      split_ifs at ho
      exact absurd ho hmsg
  | exit s =>
      obtain ⟨i, -, ho⟩ := Option.bind_eq_some_iff.mp ho
      split_ifs at ho
      obtain ⟨r, -, rfl⟩ := Option.map_eq_some_iff.mp ho
      exact absurd ha (by simp)
  | clearTid s =>
      rw [owes] at ho
      split_ifs at ho with hct
      obtain ⟨r, hr, rfl⟩ := Option.map_eq_some_iff.mp ho
      obtain rfl := Option.some.inj ha
      exact ⟨s, rfl, rfl, hct, hr, rfl⟩

end Completion

namespace System

variable {σ : System} {c : Completion} {o : Owed} {s i : Nat}

theorem owes_withMem (mem : Nat → Bytes) : c.owes (σ.withMem mem).procs = c.owes σ.procs := rfl

theorem wakeLoop_first {root : Option Nat} {addr : Nat} {ps : Procs} {pre post : List Nat}
    (hpre : ∀ j ∈ pre, ¬ Procs.waitsOn root addr (ps j)) (hi : Procs.waitsOn root addr (ps i)) :
    ((Procs.wakeLoop root addr 1 (pre ++ i :: post) ps).2 i).state = .ready := by
  induction pre with
  | nil =>
      rw [List.nil_append, Procs.wakeLoop, if_pos hi]
      simp only [Procs.wakeLoop, Procs.edit, Function.update_self]
  | cons j pre ih =>
      rw [List.cons_append, Procs.wakeLoop, if_neg (hpre j List.mem_cons_self)]
      exact ih fun k hk => hpre k (List.mem_cons_of_mem j hk)

/-- `futex_wake` wakes the first process that waits. -/
theorem futexWake_first {root : Option Nat} {addr : Nat} {ps : Procs} (hlt : i < MAX_PROCS)
    (hi : Procs.waitsOn root addr (ps i)) (hpre : ∀ j < i, ¬ Procs.waitsOn root addr (ps j)) :
    ((ps.futexWake root addr 1).2 i).state = .ready := by
  have hsplit : List.range MAX_PROCS = List.range i ++ i :: List.range' (i + 1) (MAX_PROCS - i - 1) := by
    have hlen : MAX_PROCS = i + (1 + (MAX_PROCS - i - 1)) := by omega
    conv_lhs => rw [hlen]
    rw [List.range_eq_range', List.range_eq_range', ← List.range'_append_1, Nat.zero_add,
      Nat.add_comm 1, List.range'_succ]
  rw [Procs.futexWake, hsplit]
  exact wakeLoop_first (fun j hj => hpre j (List.mem_range.mp hj)) hi

/-- **When a completed operation reaches the memory it is owed to**: whatever the memory holds,
exactly when each of its words is written where the space has it and no other space has those pages
for itself. -/
theorem delivered_iff (σ : System) (c : Completion) (o : Owed) (ho : c.owes σ.procs = some o) :
    (∀ mem, Delivered o (σ.withMem mem) (c.run (σ.withMem mem))) ↔
      (∀ w ∈ o.words, Direct (σ.mm.pts o.root) w) ∧ Alone σ.mm.pts o.root o.words := by
  have hrun : ∀ mem, (c.run (σ.withMem mem)).mm = (σ.mm.withMem mem).puts o.root o.words :=
    fun mem => (Completion.run_mm ((owes_withMem mem).trans ho)).1
  have hspaced : Spaced o.words := (Completion.run_mm ho).2
  rw [← puts_iff hspaced]
  constructor
  · intro h mem
    have harr := (h mem).arrived
    rwa [hrun mem] at harr
  · intro h mem
    refine ⟨by rw [hrun mem]; exact h mem, fun a ha i hi hwait hfirst => ?_⟩
    obtain ⟨s, rfl, hct, ha₀, hr, hwords⟩ := Completion.wake_some ho ha
    obtain ⟨f, hf, -⟩ := ((puts_iff hspaced).mp h).1 ⟨a, 4, 0⟩ (by rw [hwords]; exact .head _)
    have hf' : ((σ.withMem mem).mm.pts o.root).translateUser a true = some f := hf
    have hwoken : ((Completion.clearTid s).run (σ.withMem mem)).procs =
        (σ.procs.futexWake (some o.root) a 1).2 := by
      simp only [Completion.run, exitClear, withMem, hct, ne_eq, ha₀, not_false_eq_true, if_true, hr]
      rw [show (σ.mm.withMem mem).pts = σ.mm.pts from rfl, hf]
    rw [hwoken]
    exact futexWake_first hi hwait hfirst

/-- A space with root 0, of slot 1, whose page at `MMAP_BASE` was written. -/
def written : Mm :=
  let s := (Mm.boot (.boot 64 fun _ => false)).createUser.2
  let s := ((Request.mmap MMAP_BASE 4096 3 256 0 0 0).run ⟨1, 0⟩ s).2
  (s.fault (fun _ _ => none) (some ⟨1, 0⟩) MMAP_BASE .write).2

/-- The process of slot 1 waits for a message there, and a thread of it forks. -/
def forked : System where
  procs
    | 0 => { Process.empty with state := .running }
    | 1 => { Process.empty with pid := 1, state := .recvBlocked, root := some 0, mm := 1,
                                msgPtr := MMAP_BASE }
    | _ => Process.empty
  mm := (written.cloneUser 0).2

/-- A message for slot 1, and where it is owed. -/
def note : Message := ⟨7, Vector.replicate 6 0⟩
def noteOwed : Owed := ⟨0, note.words MMAP_BASE, none⟩

theorem delivered_iff_forked :
    (∀ mem, Delivered noteOwed (forked.withMem mem)
      (((Completion.send 0 1 note 0)).run (forked.withMem mem))) ↔
      (∀ w ∈ noteOwed.words, Direct (forked.mm.pts 0) w) ∧
        Alone forked.mm.pts 0 noteOwed.words :=
  delivered_iff forked (.send 0 1 note 0) noteOwed rfl

/-- **A message is lost** after a fork, though the buffer is in a writable region. -/
theorem message_lost : (Completion.send 0 1 note 0).owes forked.procs = some noteOwed ∧
    (find (forked.mm.spaces 1).vmas MMAP_BASE).map (fun v => (v.prot, v.stop)) =
      some (3, MMAP_BASE + PAGE) ∧
    ¬ Delivered noteOwed forked ((Completion.send 0 1 note 0).run forked) := by
  refine ⟨rfl, by decide +kernel, fun h => ?_⟩
  have hfirst := h.arrived.bytes ⟨MMAP_BASE, 8, 7⟩ (.head _) 0 (by decide)
  revert hfirst
  decide +kernel

end System

end Pulsar

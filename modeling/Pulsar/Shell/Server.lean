import Mathlib.Logic.Function.Basic
import Mathlib.Tactic.Common

/-!
# The window server (`shell/src/main.rs`)

Applications send messages to the window server and wait for the answer.  A frame that was drawn is
answered after it is composed (`pending`), and a question for events that finds none is kept until
there are some (`parked`).

Geometry, drawing and what an answer says of the mouse and the keys are left out: whether there are
news for a window is given with each step (`news`), as is the clock.  An answer changes no news that
the same step still asks for: no two questions that are kept are of one window.
-/

namespace Pulsar.Shell

def MAXWIN : Nat := 12
def SURF_SLOTS : Nat := 8
def POLL_MAX_MS : Nat := 250

structure Win where
  used : Bool
  app : Nat
  internal : Bool
  minimized : Bool
  pid : Int
  slot : Int
  hello : Bool
  committed : Bool
  wantClose : Bool
  openFile : Int
  deriving DecidableEq

/-- `Win::empty()`. -/
def Win.empty : Win := ⟨false, 0, false, false, -1, -1, false, false, false, -1⟩

/-- The messages; `hello` has the application that its kind and its title choose, which is one that
runs as a process. -/
inductive Msg where
  | hello (app : Nat)
  | commit
  | poll (peek : Bool)
  | title
  | bye
  | setRes (ok : Bool)
  | other (tag : Nat)
  deriving DecidableEq

inductive Op where
  | hello | commit | poll | title | bye | setRes
  | other (tag : Nat)
  deriving DecidableEq

def Msg.op : Msg → Op
  | .hello _ => .hello
  | .commit => .commit
  | .poll _ => .poll
  | .title => .title
  | .bye => .bye
  | .setRes _ => .setRes
  | .other tag => .other tag

/-- What an answer says: nothing (zeros), the surface of a window, the news of window `i`, which is
of process `owner`, or that it failed. -/
inductive Data where
  | zero
  | surface (slot : Int) (openFile : Int)
  | news (i : Nat) (owner : Int)
  | failed
  deriving DecidableEq

structure Reply where
  dest : Nat
  op : Op
  data : Data
  deriving DecidableEq

/-- What the answer is to. -/
def Reply.to (r : Reply) : Nat × Op := (r.dest, r.op)

/-- `data[0]` of the answer to a HELLO, which `App::new` takes for the slot of its surface. -/
def Data.slot : Data → Int
  | .surface slot _ => slot
  | _ => 0

/-- The windows, and the answers that are owed: to whom, for which window, and since when. -/
structure Server where
  wins : Nat → Win
  pending : List (Nat × Nat)
  parked : List (Nat × Nat × Nat)

namespace Server

variable (σ : Server)

def setWin (i : Nat) (f : Win → Win) : Server :=
  { σ with wins := Function.update σ.wins i (f (σ.wins i)) }

@[simp] theorem setWin_self (i : Nat) (f : Win → Win) : (σ.setWin i f).wins i = f (σ.wins i) :=
  Function.update_self ..

variable {σ} in
theorem setWin_of_ne {i j : Nat} (h : j ≠ i) (f : Win → Win) :
    (σ.setWin i f).wins j = σ.wins j := Function.update_of_ne h ..

/-- The window of a process. -/
def winOf (pid : Nat) : Option Nat :=
  (List.range MAXWIN).find? fun i => (σ.wins i).used ∧ (σ.wins i).pid = pid

/-- `free_slot()`. -/
def freeSlot : Option Nat :=
  (List.range SURF_SLOTS).find? fun s =>
    ¬ ((List.range MAXWIN).any fun i => (σ.wins i).used ∧ (σ.wins i).slot = s)

/-- The first window that is not used. -/
def freeWin : Option Nat := (List.range MAXWIN).find? fun i => ¬ (σ.wins i).used

/-- `new_window(app, pid, open_file)`. -/
def newWindow (app : Nat) (pid : Int) (openFile : Int) (internal : Bool) : Option Nat × Server :=
  match σ.freeWin with
  | none => (none, σ)
  | some i =>
    match (if internal then some (-1) else σ.freeSlot.map Int.ofNat : Option Int) with
    | none => (none, σ)
    | some slot =>
      (some i, σ.setWin i fun _ => { Win.empty with
        used := true, app := app, internal := internal, pid := pid, slot := slot
        openFile := openFile })

/-- What `fill_poll(i, r)` answers. -/
def fillPoll (i : Nat) : Data := .news i (σ.wins i).pid

/-- The window that a HELLO is about: that of the sender, or else a new one. -/
def helloWin (app sender : Nat) : Option Nat × Server :=
  match σ.winOf sender with
  | some i => (some i, σ)
  | none => σ.newWindow app sender (-1) false

/-- `handle_msg(from, m)`: the answer, if there is one now. -/
def handleMsg (news : Nat → Bool) (now sender : Nat) (m : Msg) : Option Reply × Server :=
  let answer (d : Data) (σ : Server) : Option Reply × Server := (some ⟨sender, m.op, d⟩, σ)
  match m with
  | .hello app =>
    match σ.helloWin app sender with
    | (none, σ) => answer .zero σ
    | (some i, σ) =>
      let σ := σ.setWin i fun w => { w with hello := true }
      answer (.surface (σ.wins i).slot (σ.wins i).openFile) σ
  | .commit =>
    match σ.winOf sender with
    | none => answer .zero σ
    | some i =>
      let σ := σ.setWin i fun w => { w with committed := true }
      if (σ.wins i).minimized = false ∧ σ.pending.length < MAXWIN then
        (none, { σ with pending := σ.pending ++ [(sender, i)] })
      else answer (σ.fillPoll i) σ
  | .poll peek =>
    match σ.winOf sender with
    | none => answer .zero σ
    | some i =>
      if peek = false ∧ news i = false ∧ σ.parked.length < MAXWIN then
        (none, { σ with parked := σ.parked ++ [(sender, i, now)] })
      else answer (σ.fillPoll i) σ
  | .title => answer .zero σ
  | .bye =>
    match σ.winOf sender with
    | none => answer .zero σ
    | some i => answer .zero (σ.setWin i fun w => { w with used := false })
  | .setRes ok => answer (if ok then .zero else .failed) σ
  | .other _ => answer .zero σ

/-- The window is still the one of the process. -/
def Alive (pid i : Nat) : Prop := (σ.wins i).used = true ∧ (σ.wins i).pid = pid

instance (pid i : Nat) : Decidable (σ.Alive pid i) :=
  inferInstanceAs (Decidable ((σ.wins i).used = true ∧ (σ.wins i).pid = pid))

/-- The answer to what was kept for a process and a window. -/
def later (op : Op) (pid i : Nat) : Reply :=
  ⟨pid, op, if σ.Alive pid i then σ.fillPoll i else .zero⟩

/-- A question that is kept is answered now. -/
def Ripe (news : Nat → Bool) (now : Nat) (r : Nat × Nat × Nat) : Prop :=
  ¬ σ.Alive r.1 r.2.1 ∨ news r.2.1 = true ∨ now - r.2.2 ≥ POLL_MAX_MS

instance (news : Nat → Bool) (now : Nat) (r : Nat × Nat × Nat) : Decidable (σ.Ripe news now r) :=
  inferInstanceAs (Decidable (_ ∨ _))

/-- What is left of a list whose last element takes the place of one before. -/
def lastFirst {α : Type} (rs : List α) : List α :=
  match rs.getLast? with
  | none => []
  | some l => l :: rs.dropLast

/-- The loop of `release_parked()`, which fills the place of a question with the last one: the
questions that are left, and the answers. -/
def releaseLoop (news : Nat → Bool) (now : Nat) : Nat → List (Nat × Nat × Nat) →
    List (Nat × Nat × Nat) × List Reply
  | 0, rs => (rs, [])
  | _ + 1, [] => ([], [])
  | n + 1, r :: rs =>
    if σ.Ripe news now r then
      let q := releaseLoop news now n (lastFirst rs)
      (q.1, σ.later .poll r.1 r.2.1 :: q.2)
    else
      let q := releaseLoop news now n rs
      (r :: q.1, q.2)

/-- `release_parked()`. -/
def releaseParked (news : Nat → Bool) (now : Nat) : List Reply × Server :=
  let q := σ.releaseLoop news now σ.parked.length σ.parked
  (q.2, { σ with parked := q.1 })

/-- `flush_commits()`. -/
def flushCommits : List Reply × Server :=
  (σ.pending.map fun r => σ.later .commit r.1 r.2, { σ with pending := [] })

/-- The windows in `fast_tick`: those of processes that are gone are freed. -/
def fastTick (gone : Nat → Bool) : Server :=
  { σ with wins := fun i =>
      let w := σ.wins i
      if i < MAXWIN ∧ w.used ∧ w.internal = false ∧ 0 ≤ w.pid ∧ gone w.pid.toNat then
        { w with used := false }
      else w }

/-- `release_parked()` and, in `render()`, `flush_commits()`. -/
def answer (news : Nat → Bool) (now : Nat) : List Reply × Server :=
  let r := σ.releaseParked news now
  let q := r.2.flushCommits
  (r.1 ++ q.1, q.2)

/-- `launch(app, open_file)` when it makes a window: of the process `pid`, or of the server. -/
def launch (app : Nat) (pid : Option Nat) (openFile : Int) : Server :=
  match pid with
  | none => (σ.newWindow app (-1) (-1) true).2
  | some pid =>
    if σ.freeSlot = none ∨ σ.freeWin = none then σ else (σ.newWindow app pid openFile false).2

/-- `close_window(i)`. -/
def closeWindow (i : Nat) : Server :=
  if (σ.wins i).used = false then σ
  else if (σ.wins i).internal then σ.setWin i fun w => { w with used := false }
  else σ.setWin i fun w => { w with wantClose := true }

end Server

/-! ### The system -/

/-- The server, with the message it has received and not handled yet, and the processes: which are
gone, and which wait for an answer. -/
structure World where
  server : Server
  hand : Option (Nat × Msg)
  gone : Nat → Bool
  waiting : Nat → Bool

/-- What happens. -/
inductive Act where
  /-- The message of a process is received. -/
  | take (sender : Nat) (m : Msg)
  | handle (news : Nat → Bool) (now : Nat)
  | frame (news : Nat → Bool) (now : Nat)
  /-- The user opens an application, which runs as a process that is new, or in the server. -/
  | launch (app : Nat) (pid : Option Nat) (openFile : Int)
  | closeWindow (i : Nat)
  /-- Windows are hidden or shown. -/
  | minimize (hidden : Nat → Bool)
  /-- A process ends. -/
  | die (pid : Nat)

namespace World

/-- Nothing runs but the server, which has no window. -/
def start : World := ⟨⟨fun _ => Win.empty, [], []⟩, none, fun _ => false, fun _ => false⟩

/-- `reply(pid, r)` for each answer: the process goes on, if it is there. -/
def deliver (rs : List Reply) (waiting : Nat → Bool) : Nat → Bool := fun pid =>
  waiting pid && !(rs.any fun r => r.dest == pid)

variable (W : World)

/-- The answers of an act, and the server after it. -/
def serve : Act → List Reply × Server
  | .handle news now =>
    match W.hand with
    | none => ([], W.server)
    | some (sender, m) =>
      let r := W.server.handleMsg news now sender m
      (r.1.toList, r.2)
  | .frame news now => (W.server.fastTick W.gone).answer news now
  | .launch app pid openFile => ([], W.server.launch app pid openFile)
  | .closeWindow i => ([], W.server.closeWindow i)
  | .minimize hidden =>
    ([], { W.server with wins := fun i => { W.server.wins i with minimized := hidden i } })
  | _ => ([], W.server)

/-- The act can happen: a process sends when it waits for nothing, and one that is new has no window
yet. -/
def Can : Act → Prop
  | .take sender _ => W.hand = none ∧ W.gone sender = false ∧ W.waiting sender = false
  | .handle .. => W.hand.isSome
  | .frame .. => W.hand = none
  | .launch _ pid _ => ∀ p ∈ pid, W.gone p = false ∧ W.waiting p = false ∧ W.server.winOf p = none
  | _ => True

instance : DecidablePred W.Can
  | .take .. => inferInstanceAs (Decidable (_ ∧ _))
  | .handle .. => inferInstanceAs (Decidable (_ = _))
  | .frame .. => inferInstanceAs (Decidable (_ = _))
  | .launch _ none _ => isTrue fun _ h => nomatch h
  | .launch _ (some p) _ => decidable_of_iff
      (W.gone p = false ∧ W.waiting p = false ∧ W.server.winOf p = none) (by simp [Can])
  | .closeWindow _ => isTrue trivial
  | .minimize _ => isTrue trivial
  | .die _ => isTrue trivial

/-- The world after an act. -/
def after (a : Act) : World :=
  let W' : World := { W with server := (W.serve a).2, waiting := deliver (W.serve a).1 W.waiting }
  match a with
  | .take sender m =>
    { W' with hand := some (sender, m), waiting := Function.update W.waiting sender true }
  | .handle .. => { W' with hand := none }
  | .die pid =>
    { W' with gone := Function.update W.gone pid true
              waiting := Function.update W.waiting pid false }
  | _ => W'

def step (a : Act) : Option World := if W.Can a then some (W.after a) else none

end World

end Pulsar.Shell

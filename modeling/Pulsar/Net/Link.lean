import Pulsar.Lib.Runs
import Pulsar.Net.Tcp

/-!
# What happens to a connection

A step of the stack is an act of each connection that it concerns (`actAt`), or opens one
(`opened`).  A note (`Link`) tells of a connection what its slot forgets: the bytes queued to be
sent, the bytes returned, the segments sent.

* `after_tcps`: a step is its acts.
* `output_rule`: what each segment keeps, `tcp_output` keeps.
-/

namespace Pulsar.Net

/-! ### What the functions leave alone -/

namespace Tcp

variable {t u : Tcp} {now : Nat}

/-- At most what a transmission changes is changed. -/
def Beside (t u : Tcp) : Prop :=
  u = { t with sndNxt := u.sndNxt, lastTx := u.lastTx, advWnd := u.advWnd }

theorem Beside.refl (t : Tcp) : t.Beside t := rfl

theorem Beside.trans {w : Tcp} (h : t.Beside u) (h' : u.Beside w) : t.Beside w := by
  rw [Beside] at h h' ⊢
  rw [h', h]

theorem Beside.state (h : t.Beside u) : u.state = t.state := by
  rw [Beside] at h
  rw [h]

theorem segment_beside (t : Tcp) (flags : UInt8) (seq : UInt32) (data : List UInt8) :
    t.Beside (t.segment flags seq data).1 := rfl

theorem transmit_beside (t : Tcp) (now : Nat) : t.Beside (t.transmit now).1 := rfl

/-- **`tcp_output`** keeps what each segment that it sends keeps. -/
theorem output_rule {M : Tcp → List Sent → Prop} (h₀ : M t [])
    (hs : ∀ u out, M u out → u.CanSend → M (u.transmit now).1 (out ++ [(u.transmit now).2])) :
    M (t.output now).1 (t.output now).2 := by
  have hloop : ∀ fuel u out, M u out →
      M (outputLoop now fuel u).1 (out ++ (outputLoop now fuel u).2) := by
    intro fuel
    induction fuel with
    | zero =>
        intro u out h
        rwa [outputLoop, List.append_nil]
    | succ fuel ih =>
        intro u out h
        rw [outputLoop]
        split
        · rename_i hcan
          simpa only [List.append_assoc, List.singleton_append] using ih _ _ (hs u out h hcan)
        · rwa [List.append_nil]
  rw [output]
  split
  · exact h₀
  · exact hloop _ t [] h₀

theorem output_beside (t : Tcp) (now : Nat) : t.Beside (t.output now).1 :=
  output_rule (M := fun u _ => t.Beside u) (.refl t) fun u _ h _ => h.trans (transmit_beside u now)

theorem respond_beside (t : Tcp) (now : Nat) (need : Bool) : t.Beside (t.respond now need).1 := by
  rw [respond]
  split
  · exact (segment_beside t ..).trans (output_beside ..)
  · exact output_beside t now

end Tcp

/-! ### Acts -/

/-- What happens to a connection. -/
inductive Act where
  | input (now : Nat) (s : Segment)
  | timer (now : Nat)
  | send (now : Nat) (data : List UInt8)
  | recv (len : Nat)
  | close
  deriving DecidableEq

/-- The connection after an act, and the segments sent. -/
def Tcp.act (t : Tcp) : Act → Tcp × List Sent
  | .input now s => t.input now s
  | .timer now => t.timer now
  | .send now data => ((t.send now data).1, (t.send now data).2.2)
  | .recv len => ((t.recv len).1, (t.recv len).2.2.2)
  | .close => t.close

namespace Stack

theorem target_some {σ : Stack} {src : Ip} {s : Segment} {h : Nat}
    (ht : σ.target src s = some h) : h < MAX_TCP ∧ Matches src s (σ.tcps h) := by
  rw [target] at ht
  exact ⟨List.mem_range.mp (List.mem_of_find?_eq_some ht),
    of_decide_eq_true (List.find?_some ht : _)⟩

/-- The act of connection `h` in an event. -/
def actAt (σ : Stack) (h : Nat) : Event → Option Act
  | .frame now f =>
    match packet f with
    | .tcp src s => if σ.target src s = some h then some (.input now s) else none
    | _ => none
  | .timers now => if h < MAX_TCP then some (.timer now) else none
  | .send now h' data => if h = h' ∧ σ.InUse h then some (.send now data) else none
  | .recv h' len => if h = h' ∧ σ.InUse h then some (.recv len) else none
  | .close h' => if h = h' ∧ σ.InUse h then some .close else none
  | .connect .. | .udpAllocPort => none

theorem actAt_lt {σ : Stack} {h : Nat} {e : Event} {a : Act} (ha : σ.actAt h e = some a) :
    h < MAX_TCP := by
  cases e with
  | timers now => exact ((Option.ite_none_right_eq_some ..).mp ha).1
  | frame now f =>
      simp only [actAt] at ha
      cases hp : packet f with
      | tcp src s =>
          rw [hp] at ha
          exact (target_some ((Option.ite_none_right_eq_some ..).mp ha).1).1
      | _ => simp [hp] at ha
  | send now h' data => exact ((Option.ite_none_right_eq_some ..).mp ha).1.2.1
  | recv h' len => exact ((Option.ite_none_right_eq_some ..).mp ha).1.2.1
  | close h' => exact ((Option.ite_none_right_eq_some ..).mp ha).1.2.1
  | _ => cases ha

/-- The segment that an event brings, and the connection that it is for. -/
def inputAt (σ : Stack) : Event → Option (Nat × Nat × Segment)
  | .frame now f =>
    match packet f with
    | .tcp src s => (σ.target src s).map fun h => (h, now, s)
    | _ => none
  | _ => none

theorem actAt_input {σ : Stack} {h now : Nat} {s : Segment} {e : Event} :
    σ.actAt h e = some (.input now s) ↔ σ.inputAt e = some (h, now, s) := by
  cases e with
  | frame n f =>
      simp only [actAt, inputAt]
      cases packet f with
      | tcp src s' => cases σ.target src s' <;> simp [eq_comm]
      | _ => simp
  | _ => simp [actAt, inputAt]

/-- The slot that an event opens. -/
def opened (σ : Stack) : Event → Option Nat
  | .connect .. => if σ.gateway then σ.freeSlot else none
  | _ => none

/-- The first number of the connection that an event opens. -/
def isn : Event → UInt32
  | .connect _ cycles _ _ => UInt32.ofNat cycles * 2654435761
  | _ => 0

/-- The connection that an event opens in slot `h`, with its SYN. -/
def opening (σ : Stack) (h : Nat) : Event → Tcp × List Sent
  | .connect now cycles ip port =>
    (σ.tcps h).connect now σ.nextPort ip port (isn (.connect now cycles ip port))
  | _ => (σ.tcps h, [])

variable {σ : Stack} {e : Event}

/-- **A step is its acts**: each slot is opened, or goes through its act, or stays. -/
theorem after_tcps (σ : Stack) (e : Event) (h : Nat) : (σ.after e).tcps h =
    if σ.opened e = some h then (σ.opening h e).1
    else ((σ.actAt h e).map fun a => ((σ.tcps h).act a).1).getD (σ.tcps h) := by
  cases e with
  | frame now f =>
      simp only [after, handleFrame, opened, actAt]
      cases packet f with
      | tcp src s =>
          simp only [tcpInput]
          cases ht : σ.target src s with
          | none => simp
          | some h' =>
              by_cases e : h = h'
              · simp [e, setTcp, Tcp.act]
              · simp [setTcp, Function.update_of_ne e, Ne.symm e]
      | _ => simp
  | timers now =>
      by_cases e : h < MAX_TCP <;> simp [after, tcpTimers, opened, actAt, e, Tcp.act]
  | connect now cycles ip port =>
      simp only [after, tcpConnect, opened, actAt, opening, isn]
      by_cases hg : σ.gateway = true
      · simp only [if_pos hg]
        cases σ.freeSlot with
        | none => simp
        | some h' =>
            by_cases e : h = h'
            · simp [e, setTcp]
            · simp [setTcp, Function.update_of_ne e, Ne.symm e]
      · simp [hg]
  | send now h' data =>
      by_cases hu : σ.InUse h' <;> by_cases e : h = h' <;>
        simp_all [after, tcpSend, opened, actAt, setTcp, Tcp.act]
  | recv h' len =>
      by_cases hu : σ.InUse h' <;> by_cases e : h = h' <;>
        simp_all [after, tcpRecv, opened, actAt, setTcp, Tcp.act]
  | close h' =>
      by_cases hu : σ.InUse h' <;> by_cases e : h = h' <;>
        simp_all [after, tcpClose, opened, actAt, setTcp, Tcp.act]
  | udpAllocPort => simp [after, udpAllocPort, opened, actAt]

end Stack

/-! ### The note -/

/-- Of the connection of a slot: which it is, its first number, whether it was established, whether
the peer's FIN was taken, and whether it failed; the bytes queued to be sent, and those that
`tcp_recv` returned; the segments sent; the furthest end of what was in flight when the timers ran;
and whether it was closed while it was open. -/
structure Link where
  id : Nat
  isn : UInt32
  up : Bool
  fin : Bool
  failed : Bool
  queued : List UInt8
  returned : List UInt8
  sent : List Sent
  back : Nat
  closed : Bool

def Link.none : Link := ⟨0, 0, false, false, false, [], [], [], 0, false⟩

/-- Is the connection established, and not failed? -/
def TcpState.Open (s : TcpState) : Prop := s = .established ∨ s = .peerClosed

instance (s : TcpState) : Decidable s.Open := by
  unfold TcpState.Open
  infer_instance

namespace Link

/-- The bytes that an act queues. -/
def queues (t : Tcp) : Act → List UInt8
  | .send now data => data.take (t.send now data).2.1.toNat
  | _ => []

/-- The bytes that an act returns. -/
def returns (t : Tcp) : Act → List UInt8
  | .recv len => (t.recv len).2.2.1
  | _ => []

/-- How many bytes were acknowledged. -/
def acked (L : Link) (t : Tcp) : Nat := L.queued.length - t.tx.length

/-- How many bytes of the peer's are in. -/
def taken (L : Link) (t : Tcp) : Nat := L.returned.length + t.rxLen

/-- The note after an act. -/
def next (L : Link) (t : Tcp) (a : Act) : Link where
  id := L.id
  isn := L.isn
  up := L.up || decide ((t.act a).1.state = .established)
  fin := L.fin || decide ((t.act a).1.state = .peerClosed)
  failed := L.failed || decide ((t.act a).1.state = .error)
  queued := L.queued ++ queues t a
  returned := L.returned ++ returns t a
  sent := L.sent ++ (t.act a).2
  back := match a with
    | .timer _ => max L.back (L.acked t + t.inFlight)
    | _ => L.back
  closed := L.closed || match a with
    | .close => decide t.state.Open
    | _ => false

@[simp] theorem next_up (L : Link) (t : Tcp) (a : Act) :
    (L.next t a).up = (L.up || decide ((t.act a).1.state = .established)) := rfl

@[simp] theorem next_fin (L : Link) (t : Tcp) (a : Act) :
    (L.next t a).fin = (L.fin || decide ((t.act a).1.state = .peerClosed)) := rfl

@[simp] theorem next_failed (L : Link) (t : Tcp) (a : Act) :
    (L.next t a).failed = (L.failed || decide ((t.act a).1.state = .error)) := rfl

@[simp] theorem next_queued (L : Link) (t : Tcp) (a : Act) :
    (L.next t a).queued = L.queued ++ queues t a := rfl

@[simp] theorem next_returned (L : Link) (t : Tcp) (a : Act) :
    (L.next t a).returned = L.returned ++ returns t a := rfl

@[simp] theorem next_sent (L : Link) (t : Tcp) (a : Act) :
    (L.next t a).sent = L.sent ++ (t.act a).2 := rfl

end Link

/-- The note of a run: how many connections were opened, and that of each slot. -/
structure Log where
  opened : Nat
  link : Nat → Link

def Log.none : Log := ⟨0, fun _ => .none⟩

/-- The note after an event. -/
def Log.note (σ : Stack) (e : Event) (_ : Stack) (H : Log) : Log where
  opened := if (σ.opened e).isSome then H.opened + 1 else H.opened
  link := fun h =>
    if σ.opened e = some h then
      { Link.none with id := H.opened, isn := Stack.isn e, sent := (σ.opening h e).2 }
    else ((σ.actAt h e).map ((H.link h).next (σ.tcps h))).getD (H.link h)

/-- The runs from boot whose events satisfy a condition. -/
abbrev Going (P : Stack × Log → Event → Prop) : Stack × Log → Prop :=
  Runs.Reached (Runs.noted Stack.step Log.note) (fun x => x.1 = .boot ∧ x.2 = .none) P

variable {P : Stack × Log → Event → Prop} {I : Tcp → Link → Prop} {x : Stack × Log}

/-- **An invariant of connections** that opening one makes true, and that each act keeps. -/
theorem Going.invariant (hx : Going P x) (h₀ : I TCP_INIT .none)
    (hopen : ∀ (t : Tcp) now lport ip port isn id, I (t.connect now lport ip port isn).1
      { Link.none with id := id, isn := isn, sent := (t.connect now lport ip port isn).2 })
    (hact : ∀ x e h a, P x e → x.1.actAt h e = some a → I (x.1.tcps h) (x.2.link h) →
      I ((x.1.tcps h).act a).1 ((x.2.link h).next (x.1.tcps h) a)) (h : Nat) :
    I (x.1.tcps h) (x.2.link h) := by
  refine Runs.Reached.invariant (I := fun x => ∀ h, I (x.1.tcps h) (x.2.link h)) ?_ ?_ hx h
  · rintro ⟨σ, H⟩ ⟨rfl, rfl⟩ h
    exact h₀
  · intro y e z hy he hs h
    obtain ⟨hs, hn⟩ := Runs.noted_some hs
    rw [← Option.some.inj hs, hn, Stack.after_tcps, Log.note]
    by_cases ho : y.1.opened e = some h
    · simp only [if_pos ho]
      cases e with
      | connect now cycles ip port => exact hopen ..
      | _ => cases ho
    · simp only [if_neg ho]
      cases ha : y.1.actAt h e with
      | none => exact hy h
      | some a => exact hact y e h a he ha (hy h)

/-! ### A connection to run -/

/-- The address of a peer. -/
def peerIp : Ip := #v[93, 184, 216, 34]

/-- A segment of the peer, to the first connection. -/
def fromPeer (seq ack : UInt32) (flags : UInt8) (wnd : Nat) (data : List UInt8) : Event :=
  .frame 1 (Segment.frame peerIp ⟨80, FIRST_PORT, seq, ack, flags, wnd, [], data⟩)

/-- The first connection is opened, to a peer with a window of `wnd` bytes. -/
def opening (wnd : Nat) : List Event :=
  [.frame 0 gatewayFrame, .connect 0 0 peerIp 80, fromPeer 7 1 (SYN ||| ACK) wnd []]

end Pulsar.Net

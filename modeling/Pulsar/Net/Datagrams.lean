import Pulsar.Lib.Runs
import Pulsar.Lib.Slots
import Pulsar.Net.Tcp
import Mathlib.Data.Fintype.Basic
import Mathlib.Data.List.FinRange

/-!
# The UDP queue (`net.rs`)

Datagrams wait in eight slots.  Each that comes goes into the slot UDP_NEXT; `udp_recv` goes through
the slots from UDP_NEXT on and frees the first that holds a datagram for its port, `udp_next_len`
and `udp_pending` go through them from the first.  Each call polls first: the datagrams that come
then are steps of their own, before the call's.

* `udp_order`: a port's datagrams are returned in the order in which they came, each at most once.
* `udp_queue`: as long as each datagram comes to a free slot or to a full queue, and the length of
  the next datagram is asked for where both scans find the same, datagrams are lost only from a full
  queue and what is told of the next is true; and no longer.
* `udp_lost_early`: a datagram is lost while six slots are free, and a length told is another's.
-/

namespace Pulsar.Net

abbrev UDP_Q : Nat := 8
def UDP_MAX : Nat := 1472

local instance : NeZero UDP_Q := ⟨by decide⟩

/-- A slot of the queue: the array `data` holds a datagram of `len` bytes. -/
structure Datagram where
  used : Bool
  srcIp : Ip
  srcPort : UInt16
  dstPort : UInt16
  len : Nat
  data : List UInt8
  whole : data.length = UDP_MAX
  fits : len ≤ UDP_MAX

def Datagram.zero : Datagram where
  used := false
  srcIp := .replicate 4 0
  srcPort := 0
  dstPort := 0
  len := 0
  data := .replicate UDP_MAX 0
  whole := List.length_replicate
  fits := Nat.zero_le _

/-- UDPQ and UDP_NEXT. -/
structure Udp where
  slots : Fin UDP_Q → Datagram
  next : Fin UDP_Q

def Udp.boot : Udp := ⟨fun _ => .zero, 0⟩

/-- What `udp_recv` returns, with the bytes that it copies. -/
structure Reply where
  srcIp : Ip
  srcPort : UInt16
  n : Nat
  bytes : List UInt8
  deriving DecidableEq

namespace Udp

variable {q : Udp} {port : UInt16}

/-- `q[k] = ..` with the bytes copied into the array. -/
def fill (d : Datagram) (src : Ip) (u : List UInt8) : Datagram :=
  let data := u.drop 8
  let n := min data.length UDP_MAX
  { used := true, srcIp := src, srcPort := be16 u 0, dstPort := be16 u 2, len := n
    data := data.take n ++ d.data.drop n
    whole := by
      have hn : n ≤ data.length := Nat.min_le_left ..
      have hmax : n ≤ UDP_MAX := Nat.min_le_right ..
      have hrest : (d.data.drop n).length = UDP_MAX - n := by rw [List.length_drop, d.whole]
      rw [List.length_append, List.length_take, hrest, Nat.min_eq_left hn]
      exact Nat.add_sub_of_le hmax
    fits := Nat.min_le_right .. }

/-- `udp_input`. -/
def input (q : Udp) (src : Ip) (u : List UInt8) : Udp :=
  if u.length < 8 then q
  else
    { slots := Function.update q.slots q.next (fill (q.slots q.next) src u), next := q.next + 1 }

/-- The slots from UDP_NEXT on, all the way round. -/
def order (q : Udp) : List (Fin UDP_Q) := (List.finRange UDP_Q).map (q.next + ·)

/-- `d.used && d.dst_port == port`. -/
def holds (q : Udp) (port : UInt16) (i : Fin UDP_Q) : Bool :=
  (q.slots i).used && (q.slots i).dstPort == port

/-- `udp_recv` with a buffer of `room` bytes. -/
def recv (q : Udp) (port : UInt16) (room : Nat) : Option Reply × Udp :=
  match q.order.find? (q.holds port) with
  | none => (none, q)
  | some i =>
      let d := q.slots i
      let n := min d.len room
      (some ⟨d.srcIp, d.srcPort, n, d.data.take n⟩,
        { q with slots := Function.update q.slots i { d with used := false } })

/-- `udp_next_len`. -/
def nextLen (q : Udp) (port : UInt16) : Nat :=
  ((List.finRange UDP_Q).find? (q.holds port)).elim 0 fun i => (q.slots i).len

/-- `udp_pending`. -/
def pending (q : Udp) (port : UInt16) : Bool := (List.finRange UDP_Q).any (q.holds port)

end Udp

/-! ### Runs -/

inductive UdpEvent where
  | arrive (src : Ip) (u : List UInt8)
  | recv (port : UInt16) (room : Nat)
  | nextLen (port : UInt16)
  | pending (port : UInt16)

def Udp.after (q : Udp) : UdpEvent → Udp
  | .arrive src u => q.input src u
  | .recv port room => (q.recv port room).2
  | .nextLen _ | .pending _ => q

def udpStep (q : Udp) (e : UdpEvent) : Option Udp := some (q.after e)

/-- A datagram that waits or came. -/
structure Message where
  srcIp : Ip
  srcPort : UInt16
  dstPort : UInt16
  data : List UInt8
  deriving DecidableEq

/-- What came in the bytes of a datagram with its header. -/
def Message.of (src : Ip) (u : List UInt8) : Message :=
  ⟨src, be16 u 0, be16 u 2, (u.drop 8).take UDP_MAX⟩

/-- What a buffer of `room` bytes gets of it. -/
def Message.reply (m : Message) (room : Nat) : Reply :=
  ⟨m.srcIp, m.srcPort, min m.data.length room, m.data.take room⟩

/-- What happened in a run: the datagrams that came; those returned, with the port and the buffer's
room; how many waited when one was overwritten; and what the queries told, with what `udp_recv` with
a buffer for every datagram would have returned then. -/
structure UdpLog where
  arrived : List Message := []
  returned : List (UInt16 × Nat × Reply) := []
  lost : List Nat := []
  lens : List (Nat × Option Reply) := []
  asked : List (Bool × Option Reply) := []

/-- How many datagrams wait. -/
def Udp.count (q : Udp) : Nat := (List.finRange UDP_Q).countP fun i => (q.slots i).used

def UdpLog.note (q : Udp) (e : UdpEvent) (_ : Udp) (l : UdpLog) : UdpLog :=
  match e with
  | .arrive src u =>
      if u.length < 8 then l
      else
        { l with
          arrived := l.arrived ++ [.of src u]
          lost := if (q.slots q.next).used then l.lost ++ [q.count] else l.lost }
  | .recv port room =>
      { l with returned := l.returned ++ ((q.recv port room).1.map (port, room, ·)).toList }
  | .nextLen port => { l with lens := l.lens ++ [(q.nextLen port, (q.recv port UDP_MAX).1)] }
  | .pending port => { l with asked := l.asked ++ [(q.pending port, (q.recv port UDP_MAX).1)] }

namespace UdpLog

/-- The datagrams returned for a port are some of those that came for it, in their order. -/
def Ordered (l : UdpLog) : Prop :=
  ∀ port, ∃ ms, ms.Sublist (l.arrived.filter (·.dstPort == port)) ∧
    List.Forall₂ (fun m (r : UInt16 × Nat × Reply) => r.2.2 = m.reply r.2.1) ms
      (l.returned.filter (·.1 == port))

/-- Datagrams come in order and once, they are lost only from a full queue, and what is told of the
next one is what it is. -/
structure Right (l : UdpLog) : Prop where
  ordered : l.Ordered
  full : ∀ n ∈ l.lost, n = UDP_Q
  lens : ∀ a ∈ l.lens, a.1 = a.2.elim 0 Reply.n
  asked : ∀ a ∈ l.asked, a.1 = a.2.isSome

end UdpLog

namespace Udp

variable {q : Udp} {port : UInt16} {room : Nat} {l : UdpLog} {i : Fin UDP_Q}

/-- The first slot before UDP_NEXT that holds a datagram for the port. -/
def before (q : Udp) (port : UInt16) : Option (Fin UDP_Q) :=
  ((List.finRange UDP_Q).take q.next).find? (q.holds port)

/-- The first slot from UDP_NEXT to the end that holds a datagram for the port. -/
def behind (q : Udp) (port : UInt16) : Option (Fin UDP_Q) :=
  ((List.finRange UDP_Q).drop q.next).find? (q.holds port)

/-- A datagram comes to a free slot or to a full queue; and where a port has datagrams on both sides
of UDP_NEXT, those that are first on each side are of one length when the length is asked for. -/
def Meets (q : Udp) : UdpEvent → Prop
  | .arrive _ u => u.length < 8 ∨ (q.slots q.next).used = false ∨ ∀ i, (q.slots i).used = true
  | .recv .. | .pending _ => True
  | .nextLen port =>
      ∀ i ∈ q.before port, ∀ j ∈ q.behind port, (q.slots i).len = (q.slots j).len

/-! ### The datagrams that wait -/

/-- What lies in a slot. -/
def message (d : Datagram) : Option Message :=
  if d.used then some ⟨d.srcIp, d.srcPort, d.dstPort, d.data.take d.len⟩ else none

/-- The datagrams that wait, the oldest first. -/
def waiting (q : Udp) : List Message := Slots.contents q.order fun i => message (q.slots i)

theorem order_facts : ∀ n : Fin UDP_Q,
    ((List.finRange UDP_Q).map (n + ·)).Nodup ∧
    (List.finRange UDP_Q).map (n + ·) = n :: ((List.finRange UDP_Q).map (n + ·)).tail ∧
    (List.finRange UDP_Q).map (n + 1 + ·) = ((List.finRange UDP_Q).map (n + ·)).tail ++ [n] ∧
    (List.finRange UDP_Q).map (n + ·) =
      (List.finRange UDP_Q).drop n ++ (List.finRange UDP_Q).take n := by
  decide

theorem mem_order : ∀ n i : Fin UDP_Q, i ∈ (List.finRange UDP_Q).map (n + ·) := by
  decide

theorem message_any (d : Datagram) :
    (message d).any (·.dstPort == port) = (d.used && d.dstPort == port) := by
  rw [message]
  cases d.used <;> rfl

/-- `udp_recv` finds the oldest of the port's datagrams. -/
theorem waiting_find? (q : Udp) (port : UInt16) :
    q.waiting.find? (·.dstPort == port) =
      (q.order.find? (q.holds port)).bind fun i => message (q.slots i) := by
  rw [waiting, Slots.contents_find?]
  simp only [message_any]
  rfl

theorem message_fill (d : Datagram) (src : Ip) (u : List UInt8) :
    message (fill d src u) = some (.of src u) := by
  have hlen : ((u.drop 8).take (min (u.drop 8).length UDP_MAX)).length =
      min (u.drop 8).length UDP_MAX := by
    rw [List.length_take]
    exact Nat.min_eq_left (Nat.min_le_left ..)
  have htake : (u.drop 8).take (min (u.drop 8).length UDP_MAX) = (u.drop 8).take UDP_MAX := by
    rw [List.take_eq_take_iff]
    omega
  simp only [message, fill, if_true, Message.of]
  rw [List.take_left' hlen, htake]

/-- **What comes** waits behind the others; the oldest is lost if it lies in the slot UDP_NEXT. -/
theorem waiting_input {src : Ip} {u : List UInt8} (h : ¬ u.length < 8) :
    (q.input src u).waiting =
      (if (q.slots q.next).used then q.waiting.tail else q.waiting) ++ [.of src u] := by
  obtain ⟨hnodup, hcons, hround, -⟩ := order_facts q.next
  have hnext : q.next ∉ q.order.tail := (List.nodup_cons.mp (hcons ▸ hnodup)).1
  have hrest : Slots.contents q.order.tail (fun i => message ((q.input src u).slots i)) =
      Slots.contents q.order.tail fun i => message (q.slots i) := by
    refine Slots.contents_congr fun i hi => ?_
    rw [input, if_neg h]
    exact congrArg message (Function.update_of_ne (ne_of_mem_of_not_mem hi hnext) ..)
  have hnew : message ((q.input src u).slots q.next) = some (.of src u) := by
    rw [input, if_neg h]
    exact (congrArg message (Function.update_self ..)).trans (message_fill ..)
  have hold : q.waiting = (message (q.slots q.next)).toList ++
      Slots.contents q.order.tail fun i => message (q.slots i) := by
    have horder : q.order = q.next :: q.order.tail := hcons
    rw [waiting, horder, Slots.contents, List.filterMap_cons]
    cases message (q.slots q.next) <;> rfl
  have hwait : (q.input src u).waiting = Slots.contents q.order.tail
      (fun i => message ((q.input src u).slots i)) ++ [.of src u] := by
    have horder : (q.input src u).order = q.order.tail ++ [q.next] := by
      rw [input, if_neg h]
      exact hround
    rw [waiting, horder, Slots.contents, List.filterMap_append, ← Slots.contents]
    exact congrArg _ (List.filterMap_cons_some hnew)
  rw [hwait, hrest, hold, message]
  cases (q.slots q.next).used <;> rfl

/-- **What `udp_recv` returns** is the oldest of the port's datagrams. -/
theorem recv_fst (q : Udp) (port : UInt16) (room : Nat) :
    (q.recv port room).1 = (q.waiting.find? (·.dstPort == port)).map (·.reply room) := by
  rw [waiting_find?, recv]
  cases hfind : q.order.find? (q.holds port) with
  | none => rfl
  | some i =>
      have hused : (q.slots i).used = true := by
        have := List.find?_some hfind
        rw [holds, Bool.and_eq_true] at this
        exact this.1
      have hlen : ((q.slots i).data.take (q.slots i).len).length = (q.slots i).len := by
        rw [List.length_take, (q.slots i).whole, Nat.min_eq_left (q.slots i).fits]
      rw [Option.bind_some, message, if_pos hused, Option.map_some]
      simp only [Message.reply, hlen, List.take_take, Nat.min_comm room]

/-- **What `udp_recv` leaves** waits as before, without the datagram returned. -/
theorem recv_waiting (q : Udp) (port : UInt16) (room : Nat) :
    (q.recv port room).2.waiting = q.waiting.eraseP (·.dstPort == port) := by
  rw [recv]
  cases hfind : q.order.find? (q.holds port) with
  | none =>
      have hnone := waiting_find? q port
      rw [hfind, Option.bind_none] at hnone
      exact (List.eraseP_of_forall_not (List.find?_eq_none.mp hnone)).symm
  | some i =>
      have hupdate : (fun j => message (Function.update q.slots i
          { q.slots i with used := false } j)) =
            Function.update (fun j => message (q.slots j)) i none := by
        rw [← Function.comp_def message, Function.comp_update]
        rfl
      have hany : (q.order.find? fun j => (message (q.slots j)).any (·.dstPort == port)) =
          some i := by
        simp only [message_any]
        exact hfind
      rw [waiting]
      exact (congrArg _ hupdate).trans (Slots.contents_update (order_facts q.next).1 hany)

/-! ### In order, and once -/

/-- What is returned for a port and what waits for it are some of what came for it. -/
def Inv (q : Udp) (l : UdpLog) : Prop :=
  ∀ port, ∃ ms, (ms ++ q.waiting.filter (·.dstPort == port)).Sublist
      (l.arrived.filter (·.dstPort == port)) ∧
    List.Forall₂ (fun m (r : UInt16 × Nat × Reply) => r.2.2 = m.reply r.2.1) ms
      (l.returned.filter (·.1 == port))

theorem Inv.arrive {src : Ip} {u : List UInt8} (h : q.Inv l) :
    (q.input src u).Inv (.note q (.arrive src u) (q.input src u) l) := by
  by_cases hu : u.length < 8
  · rwa [UdpLog.note, if_pos hu, input, if_pos hu]
  intro port
  obtain ⟨ms, hsub, hret⟩ := h port
  refine ⟨ms, ?_, by rwa [UdpLog.note, if_neg hu]⟩
  rw [waiting_input hu, UdpLog.note, if_neg hu, List.filter_append, List.filter_append,
    ← List.append_assoc]
  refine List.Sublist.append (List.Sublist.trans ?_ hsub) (.refl _)
  refine List.Sublist.append (.refl _) (List.Sublist.filter _ ?_)
  split
  · exact List.tail_sublist _
  · exact .refl _

theorem Inv.recv (h : q.Inv l) (port : UInt16) (room : Nat) :
    (q.recv port room).2.Inv (.note q (.recv port room) (q.recv port room).2 l) := by
  intro port'
  obtain ⟨ms, hsub, hret⟩ := h port'
  have hfirst : q.waiting.find? (·.dstPort == port) =
      (q.waiting.filter (·.dstPort == port)).head? := (List.head?_filter ..).symm
  rw [recv_waiting, UdpLog.note, recv_fst, List.filter_append, hfirst]
  by_cases hport : port' = port
  · -- The oldest moves from those that wait to those returned.
    subst hport
    rw [Slots.filter_eraseP]
    cases hwait : q.waiting.filter (·.dstPort == port') with
    | nil =>
        rw [hwait] at hsub
        refine ⟨ms, hsub, ?_⟩
        rwa [List.head?_nil, Option.map_none, Option.map_none, Option.toList_none, List.filter_nil,
          List.append_nil]
    | cons m rest =>
        rw [hwait] at hsub
        refine ⟨ms ++ [m], by simpa using hsub, ?_⟩
        rw [List.head?_cons, Option.map_some, Option.map_some, Option.toList_some,
          List.filter_cons_of_pos (by simp), List.filter_nil]
        exact List.rel_append hret (.cons rfl .nil)
  · have hkeep : (q.waiting.eraseP (·.dstPort == port)).filter (·.dstPort == port') =
        q.waiting.filter (·.dstPort == port') := by
      refine Slots.filter_eraseP_of_not (fun m hm => ?_) _
      rw [beq_eq_false_iff_ne, eq_of_beq hm]
      exact Ne.symm hport
    refine ⟨ms, by rwa [hkeep], ?_⟩
    have hnone : (((q.waiting.filter (·.dstPort == port)).head?.map (·.reply room)).map
        (port, room, ·)).toList.filter (·.1 == port') = [] := by
      cases (q.waiting.filter (·.dstPort == port)).head? with
      | none => rfl
      | some m => simpa using Ne.symm hport
    rwa [hnone, List.append_nil]

/-- **Each event** keeps the order. -/
theorem Inv.step {e : UdpEvent} (h : q.Inv l) : (q.after e).Inv (.note q e (q.after e) l) := by
  cases e with
  | arrive src u => exact h.arrive
  | recv port room => exact h.recv port room
  | nextLen port | pending port => exact h

theorem inv_noted {P : Udp → UdpEvent → Prop} {x : Udp × UdpLog}
    (h : Runs.Noted udpStep UdpLog.note (· = boot) {} P x) : x.1.Inv x.2 := by
  refine h.invariant (fun q hq => ?_) (fun q e t l hl _ hs => ?_)
  · subst hq
    exact fun port => ⟨[], List.Sublist.refl [], .nil⟩
  · obtain rfl := Option.some.inj hs
    exact hl.step

theorem Inv.ordered (h : q.Inv l) : l.Ordered := by
  intro port
  obtain ⟨ms, hsub, hret⟩ := h port
  exact ⟨ms, (List.sublist_append_left ..).trans hsub, hret⟩

/-- **A port's datagrams** are returned in the order in which they came, each at most once, in every
run. -/
theorem udp_order {x : Udp × UdpLog}
    (h : Runs.Noted udpStep UdpLog.note (· = boot) {} (fun _ _ => True) x) : x.2.Ordered :=
  (inv_noted h).ordered

/-! ### What is told of the next datagram -/

theorem nextLen_eq (q : Udp) (port : UInt16) :
    q.nextLen port = ((q.before port).or (q.behind port)).elim 0 fun i => (q.slots i).len := by
  rw [before, behind, ← List.find?_append, List.take_append_drop]
  rfl

theorem recv_n (q : Udp) (port : UInt16) : (q.recv port UDP_MAX).1.elim 0 Reply.n =
    ((q.behind port).or (q.before port)).elim 0 fun i => (q.slots i).len := by
  rw [before, behind, ← List.find?_append, ← (order_facts q.next).2.2.2, recv]
  change _ = (q.order.find? (q.holds port)).elim 0 _
  cases q.order.find? (q.holds port) with
  | none => rfl
  | some i => exact Nat.min_eq_left (q.slots i).fits

/-- `udp_pending` tells whether `udp_recv` returns a datagram. -/
theorem pending_eq (q : Udp) (port : UInt16) (room : Nat) :
    q.pending port = (q.recv port room).1.isSome := by
  have hrecv : (q.recv port room).1.isSome = (q.order.find? (q.holds port)).isSome := by
    rw [recv]
    cases q.order.find? (q.holds port) <;> rfl
  rw [hrecv, Bool.eq_iff_iff, pending, List.any_eq_true, List.find?_isSome]
  exact ⟨fun ⟨i, _, hi⟩ => ⟨i, mem_order q.next i, hi⟩,
    fun ⟨i, _, hi⟩ => ⟨i, List.mem_finRange i, hi⟩⟩

/-- **`udp_next_len`** tells the length of the next datagram where both scans find datagrams of one
length. -/
theorem nextLen_right (q : Udp) (port : UInt16) :
    q.nextLen port = (q.recv port UDP_MAX).1.elim 0 Reply.n ↔
      ∀ i ∈ q.before port, ∀ j ∈ q.behind port, (q.slots i).len = (q.slots j).len := by
  rw [nextLen_eq, recv_n]
  cases q.before port <;> cases q.behind port <;> simp

theorem count_full (q : Udp) : q.count = UDP_Q ↔ ∀ i, (q.slots i).used = true := by
  have hall := List.countP_eq_length (p := fun i => (q.slots i).used) (l := List.finRange UDP_Q)
  rw [List.length_finRange] at hall
  rw [count, hall]
  exact ⟨fun h i => h i (List.mem_finRange i), fun h i _ => h i⟩

/-! ### The queue -/

open UdpLog

/-- **A step** keeps what is right where it meets the condition, and only there. -/
theorem right_step {e : UdpEvent} (hinv : q.Inv l) (h : l.Right) :
    (UdpLog.note q e (q.after e) l).Right ↔ q.Meets e := by
  have hnext : (UdpLog.note q e (q.after e) l).Ordered := hinv.step.ordered
  cases e with
  | arrive src u =>
      rw [Meets]
      by_cases hu : u.length < 8
      · exact iff_of_true (by rwa [UdpLog.note, if_pos hu]) (.inl hu)
      rw [UdpLog.note, if_neg hu] at hnext ⊢
      cases hused : (q.slots q.next).used with
      | false => exact iff_of_true ⟨hnext, h.full, h.lens, h.asked⟩ (.inr (.inl rfl))
      | true =>
          constructor
          · intro hr
            exact .inr (.inr ((count_full q).mp (hr.full _ (by simp))))
          · rintro (hlt | hfree | hfull)
            · exact absurd hlt hu
            · exact absurd hfree (by simp)
            · refine ⟨hnext, fun n hn => ?_, h.lens, h.asked⟩
              obtain hn | hn := List.mem_append.mp hn
              · exact h.full n hn
              · exact (List.mem_singleton.mp hn).trans ((count_full q).mpr hfull)
  | recv port room => exact iff_of_true ⟨hnext, h.full, h.lens, h.asked⟩ trivial
  | nextLen port =>
      rw [Meets, ← nextLen_right]
      constructor
      · exact fun hr => hr.lens _ (List.mem_append_right _ List.mem_cons_self)
      · refine fun hlen => ⟨hnext, h.full, fun a ha => ?_, h.asked⟩
        obtain ha | ha := List.mem_append.mp ha
        · exact h.lens a ha
        · rwa [List.mem_singleton.mp ha]
  | pending port =>
      refine iff_of_true ⟨hnext, h.full, h.lens, fun a ha => ?_⟩ trivial
      obtain ha | ha := List.mem_append.mp ha
      · exact h.asked a ha
      · rw [List.mem_singleton.mp ha]
        exact pending_eq q port UDP_MAX

/-- **The queue is right** in every run whose steps all met the condition, and the next step keeps
it so where it meets the condition, and only there. -/
theorem udp_queue {x : Udp × UdpLog}
    (h : Runs.Noted udpStep UdpLog.note (· = boot) {} Meets x) :
    x.2.Right ∧ ∀ e, (UdpLog.note x.1 e (x.1.after e) x.2).Right ↔ x.1.Meets e := by
  have hright : x.1.Inv x.2 ∧ x.2.Right := by
    refine h.invariant (I := fun q l => q.Inv l ∧ l.Right) (fun q hq => ?_)
      (fun q e t l hl he hs => ?_)
    · have hinv : q.Inv {} := inv_noted (P := Meets) (.start hq)
      exact ⟨hinv, hinv.ordered, nofun, nofun, nofun⟩
    · obtain rfl := Option.some.inj hs
      exact ⟨hl.1.step, (right_step hl.1 hl.2).mpr he⟩
  exact ⟨hright.2, fun e => right_step hright.1 hright.2⟩

/-- A datagram of `n` bytes for a port. -/
def datagram (port : UInt8) (n : Nat) : UdpEvent :=
  .arrive GW_IP ([0, 53, 0, port, 0, 0, 0, 0] ++ .replicate n 0)

/-- Datagrams for port 2 that are taken at once, as many as are told. -/
def taken (n : Nat) : List UdpEvent := (List.replicate n [datagram 2 0, .recv 2 16]).flatten

instance (e : UdpEvent) : Decidable (q.Meets e) := by
  cases e <;> unfold Meets <;> infer_instance

theorem udp_queue_run : ∃ x, (Runs.Noted udpStep UdpLog.note (· = boot) {} Meets x ∧
      x.2.lost = [8]) ∧ x.2.Right ∧
        ∀ e, (UdpLog.note x.1 e (x.1.after e) x.2).Right ↔ x.1.Meets e := by
  have hboot : Runs.Noted udpStep UdpLog.note (· = boot) {} Meets (boot, {}) := .start rfl
  have hrun : (Runs.run (Runs.noted udpStep UdpLog.note) (fun x e => x.1.Meets e)
      (.replicate 9 (datagram 1 3)) (boot, {})).any (fun x => decide (x.2.lost = [8])) = true := by
    decide +kernel
  obtain ⟨x, hx, hlost⟩ := Runs.Reached.run_any hboot hrun
  exact ⟨x, ⟨hx, hlost⟩, udp_queue hx⟩

/-- **A datagram is lost** while six slots are free, and the length told of the next one is that of
another. -/
theorem udp_lost_early : ¬ ∀ x : Udp × UdpLog,
    Runs.Noted udpStep UdpLog.note (· = boot) {} (fun _ _ => True) x →
      (∀ n ∈ x.2.lost, n = UDP_Q) ∨ ∀ a ∈ x.2.lens, a.1 = a.2.elim 0 Reply.n := by
  intro h
  have hboot : Runs.Noted udpStep UdpLog.note (· = boot) {} (fun _ _ => True) (boot, {}) :=
    .start rfl
  have hrun : (Runs.run (Runs.noted udpStep UdpLog.note) (fun _ _ => True)
      (taken 7 ++ [datagram 1 1, datagram 1 2, .nextLen 1] ++ taken 6 ++ [datagram 2 0])
      (boot, {})).any (fun x => decide (x.2.lost = [2] ∧
        x.2.lens.map (fun a => (a.1, a.2.elim 0 Reply.n)) = [(2, 1)])) = true := by
    decide +kernel
  obtain ⟨x, hx, hlost, hlens⟩ := Runs.Reached.run_any hboot hrun
  obtain hfull | hlen := h x hx
  · rw [hlost] at hfull
    exact absurd (hfull 2 List.mem_cons_self) (by decide)
  · obtain ⟨a, hl, ha⟩ := List.map_eq_singleton_iff.mp hlens
    have hone := hlen a (hl ▸ List.mem_cons_self)
    rw [Prod.mk.injEq] at ha
    omega

end Udp

end Pulsar.Net

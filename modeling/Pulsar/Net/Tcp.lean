import Pulsar.Lib.Ring
import Pulsar.Lib.Seq
import Mathlib.Data.Vector.Basic

/-!
# TCP (`net.rs`)

The connections of the kernel, frame by frame and call by call, under NET_LOCK.  Each call of the
source polls first: the frames that wait are handled (`handleFrame`), then the timers run
(`tcpTimers`); here these are steps of their own, which come before the call's.  A segment sent is a
record of what `tcp_segment` puts in it.  The bytes of the transmit buffer are a list, the receive
ring is the memory it is.

UDP datagrams are not kept; what the port counter gives to UDP sockets is (`udpAllocPort`).
-/

namespace Pulsar.Net

def MAX_TCP : Nat := 24
def RXCAP : Nat := 64 * 1024
def TXCAP : Nat := 16 * 1024
def RTO_MS : Nat := 400
def MAX_RETRIES : Nat := 12

def FIN : UInt8 := 0x01
def SYN : UInt8 := 0x02
def RST : UInt8 := 0x04
def PSH : UInt8 := 0x08
def ACK : UInt8 := 0x10

/-- `flags & bit != 0`. -/
def has (flags bit : UInt8) : Bool := flags &&& bit != 0

abbrev Ip := Vector UInt8 4

def GW_IP : Ip := #v[10, 0, 2, 2]

/-! ### Frames -/

def be16 (s : List UInt8) (i : Nat) : UInt16 :=
  (s.getD i 0).toUInt16 <<< 8 ||| (s.getD (i + 1) 0).toUInt16

def be32 (s : List UInt8) (i : Nat) : UInt32 :=
  (be16 s i).toUInt32 <<< 16 ||| (be16 s (i + 2)).toUInt32

/-- The address in the four bytes from `i` on. -/
def ipAt (s : List UInt8) (i : Nat) : Ip := Vector.ofFn fun k => s.getD (i + k) 0

/-- A segment received: what `tcp_input` reads of its header, its options and its data. -/
structure Segment where
  sport : UInt16
  dport : UInt16
  seq : UInt32
  ack : UInt32
  flags : UInt8
  wnd : Nat
  opts : List UInt8
  data : List UInt8
  deriving DecidableEq

/-- The header of `tcp_input`. -/
def Segment.parse (s : List UInt8) : Option Segment :=
  if s.length < 20 then none
  else
    let off := (s.getD 12 0 >>> 4).toNat * 4
    if s.length < off ∨ off < 20 then none
    else some
      { sport := be16 s 0, dport := be16 s 2, seq := be32 s 4, ack := be32 s 8
        flags := s.getD 13 0, wnd := (be16 s 14).toNat
        opts := (s.take off).drop 20, data := s.drop off }

/-- What a frame is to the stack: the gateway's ARP, a segment from an address, or nothing that
concerns TCP. -/
inductive Packet where
  | gateway
  | tcp (src : Ip) (s : Segment)
  | other

/-- The frame as `handle_frame` reads it. -/
def packet (f : List UInt8) : Packet :=
  let p := f.drop 14
  if be16 f 12 = 0x0806 ∧ 28 ≤ p.length then
    if ipAt p 14 = GW_IP then .gateway else .other
  else if be16 f 12 = 0x0800 ∧ 20 ≤ p.length then
    let ihl := (p.getD 0 0 &&& 0x0F).toNat * 4
    let total := min (be16 p 2).toNat p.length
    if ihl < total ∧ p.getD 9 0 = 6 then
      ((Segment.parse ((p.take total).drop ihl)).map (.tcp (ipAt p 12))).getD .other
    else .other
  else .other

def bytes16 (x : UInt16) : List UInt8 := [(x >>> 8).toUInt8, x.toUInt8]

def bytes32 (x : UInt32) : List UInt8 := bytes16 (x >>> 16).toUInt16 ++ bytes16 x.toUInt16

/-- A frame in which a segment without options arrives from `src`. -/
def Segment.frame (src : Ip) (s : Segment) : List UInt8 :=
  .replicate 12 0 ++ [0x08, 0x00] ++
    ([0x45, 0] ++ bytes16 (UInt16.ofNat (40 + s.data.length)) ++ [0, 0, 0x40, 0, 64, 6, 0, 0] ++
      src.toList ++ [10, 0, 2, 15]) ++
    (bytes16 s.sport ++ bytes16 s.dport ++ bytes32 s.seq ++ bytes32 s.ack ++ [0x50, s.flags] ++
      bytes16 (UInt16.ofNat s.wnd) ++ [0, 0, 0, 0]) ++ s.data

/-- A frame in which the gateway tells its address. -/
def gatewayFrame : List UInt8 :=
  .replicate 12 0 ++ [0x08, 0x06] ++ .replicate 14 0 ++ GW_IP.toList ++ .replicate 10 0

/-! ### A connection -/

inductive TcpState where
  | free | synSent | established | peerClosed | error
  deriving DecidableEq

/-- A connection: `tx` holds the bytes from `sndUna` on, `rx` the receive ring. -/
structure Tcp where
  state : TcpState
  lport : UInt16
  rip : Ip
  rport : UInt16
  sndUna : UInt32
  sndNxt : UInt32
  rcvNxt : UInt32
  peerWnd : Nat
  mss : Nat
  tx : List UInt8
  rx : Nat → UInt8
  rxHead : Nat
  rxLen : Nat
  advWnd : Nat
  lastTx : Nat
  retries : Nat
  synPending : Bool

def TCP_INIT : Tcp :=
  ⟨.free, 0, .replicate 4 0, 0, 0, 0, 0, 0, 0, [], fun _ => 0, 0, 0, 0, 0, 0, false⟩

/-- A segment sent. -/
structure Sent where
  lport : UInt16
  rip : Ip
  rport : UInt16
  seq : UInt32
  ack : UInt32
  flags : UInt8
  wnd : Nat
  /-- The MSS option. -/
  mss : Option Nat
  data : List UInt8
  deriving DecidableEq

namespace Tcp

/-- `snd_nxt - snd_una`. -/
def inFlight (t : Tcp) : Nat := (t.sndNxt - t.sndUna).toNat

/-- `tcp_segment(t, flags, seq, data)`. -/
def segment (t : Tcp) (flags : UInt8) (seq : UInt32) (data : List UInt8) : Tcp × Sent :=
  let wnd := min (RXCAP - t.rxLen) 65535
  ({ t with advWnd := wnd },
    { lport := t.lport, rip := t.rip, rport := t.rport, seq := seq
      ack := if has flags ACK then t.rcvNxt else 0
      flags := flags, wnd := wnd, mss := if has flags SYN then some 1460 else none, data := data })

/-- The window of the peer that `tcp_output` goes by. -/
def window (t : Tcp) : Nat := max t.peerWnd 1

/-- Is there something to send, and room for it in the window? -/
def CanSend (t : Tcp) : Prop := t.inFlight < t.tx.length ∧ t.inFlight < t.window

instance (t : Tcp) : Decidable t.CanSend := by
  unfold CanSend
  infer_instance

/-- How many bytes the next segment carries. -/
def burst (t : Tcp) : Nat := min (min (t.tx.length - t.inFlight) t.mss) (t.window - t.inFlight)

/-- One round of `tcp_output`. -/
def transmit (now : Nat) (t : Tcp) : Tcp × Sent :=
  let r := t.segment (ACK ||| PSH) t.sndNxt ((t.tx.drop t.inFlight).take t.burst)
  ({ r.1 with sndNxt := t.sndNxt + UInt32.ofNat t.burst, lastTx := now }, r.2)

/-- The loop of `tcp_output`. -/
def outputLoop (now : Nat) : Nat → Tcp → Tcp × List Sent
  | 0, t => (t, [])
  | fuel + 1, t =>
    if t.CanSend then
      let r := t.transmit now
      let o := outputLoop now fuel r.1
      (o.1, r.2 :: o.2)
    else (t, [])

/-- `tcp_output(t)`; each round sends a byte at least. -/
def output (now : Nat) (t : Tcp) : Tcp × List Sent :=
  if t.state ≠ .established ∧ t.state ≠ .peerClosed then (t, []) else outputLoop now t.tx.length t

/-- The MSS among the options of a SYN, of which `skip` bytes belong to the option before. -/
def mssScan : Nat → List UInt8 → Nat → Nat
  | _, [], mss => mss
  | skip + 1, _ :: o, mss => mssScan skip o mss
  | 0, k :: o, mss =>
    if o = [] ∨ k = 0 then mss
    else if k = 1 then mssScan 0 o mss
    else if k = 2 ∧ 3 ≤ o.length then mssScan 3 o (max 536 (min (be16 o 1).toNat 1460))
    else mssScan (max (o.headD 0).toNat 2 - 1) o mss

/-- A segment that answers the SYN. -/
def opens (t : Tcp) (s : Segment) : Prop :=
  s.flags &&& (SYN ||| ACK) = SYN ||| ACK ∧ s.ack = t.sndUna + 1

instance (t : Tcp) (s : Segment) : Decidable (t.opens s) := by
  unfold opens
  infer_instance

/-- The handshake is complete. -/
def establish (s : Segment) (t : Tcp) : Tcp :=
  { t with
    mss := mssScan 0 s.opts t.mss
    sndUna := s.ack
    sndNxt := s.ack
    rcvNxt := s.seq + 1
    peerWnd := s.wnd
    state := .established
    synPending := false
    retries := 0 }

/-- `tcp_input`: the ACK of what was sent. -/
def ackIn (now : Nat) (s : Segment) (t : Tcp) : Tcp :=
  if has s.flags ACK then
    let acked := (s.ack - t.sndUna).toNat
    if 0 < acked ∧ acked ≤ t.inFlight then
      { t with
        tx := t.tx.drop acked, sndUna := s.ack, retries := 0, lastTx := now, peerWnd := s.wnd }
    else { t with peerWnd := s.wnd }
  else t

/-- How many bytes of a segment's data are old, where that is some but not all. -/
def behind (t : Tcp) (seq : UInt32) (data : List UInt8) : Option Nat :=
  let n := (t.rcvNxt - seq).toNat
  if n < data.length ∧ n < 0x80000000 then some n else none

/-- The data `d`, which starts with the byte expected, enters the ring as far as there is room. -/
def accept (d : List UInt8) (t : Tcp) : Tcp :=
  let n := min d.length (RXCAP - t.rxLen)
  { t with
    rx := Ring.store RXCAP t.rx (t.rxHead + t.rxLen) (d.take n)
    rxLen := t.rxLen + n
    rcvNxt := t.rcvNxt + UInt32.ofNat n }

/-- `tcp_input`: the data, and whether all of it is in (`in_order`). -/
def dataIn (seq : UInt32) (data : List UInt8) (t : Tcp) : Tcp × Bool :=
  if data = [] then (t, true)
  else
    match t.behind seq data with
    | some n => (t.accept (data.drop n), decide (data.length - n ≤ RXCAP - t.rxLen))
    | none =>
      if seq = t.rcvNxt then (t.accept data, decide (data.length ≤ RXCAP - t.rxLen))
      else (t, false)

/-- Does `tcp_input` take the FIN of a segment whose data is in? -/
def TakesFin (t : Tcp) (s : Segment) (inOrder : Bool) : Prop :=
  has s.flags FIN = true ∧ inOrder = true ∧ s.seq + UInt32.ofNat s.data.length = t.rcvNxt ∧
    t.state = .established

instance (t : Tcp) (s : Segment) (b : Bool) : Decidable (t.TakesFin s b) := by
  unfold TakesFin
  infer_instance

/-- `tcp_input`: the FIN, and whether the segment needs an ACK. -/
def finIn (s : Segment) (inOrder : Bool) (t : Tcp) : Tcp × Bool :=
  if t.TakesFin s inOrder then ({ t with rcvNxt := t.rcvNxt + 1, state := .peerClosed }, true)
  else (t, decide (s.data ≠ []))

/-- `tcp_segment(t, ACK, t.snd_nxt, &[])`. -/
def ackNow (t : Tcp) : Tcp × Sent := t.segment ACK t.sndNxt []

/-- An ACK, if it is needed, and what can be sent. -/
def respond (now : Nat) (need : Bool) (t : Tcp) : Tcp × List Sent :=
  if need then
    let o := t.ackNow.1.output now
    (o.1, t.ackNow.2 :: o.2)
  else t.output now

/-- `tcp_input`, for the connection that the segment is for. -/
def input (now : Nat) (s : Segment) (t : Tcp) : Tcp × List Sent :=
  if has s.flags RST then ({ t with state := .error }, [])
  else if t.state = .synSent then
    if t.opens s then (t.establish s).respond now true else (t, [])
  else
    let d := (t.ackIn now s).dataIn s.seq s.data
    let f := d.1.finIn s d.2
    f.1.respond now f.2

/-- Does the connection wait for an answer? -/
def Waits (t : Tcp) : Prop :=
  (t.synPending = true ∨ t.sndNxt ≠ t.sndUna) ∧ t.state ≠ .free ∧ t.state ≠ .error

instance (t : Tcp) : Decidable t.Waits := by
  unfold Waits
  infer_instance

/-- Has the time to wait for an answer passed? -/
def Late (now : Nat) (t : Tcp) : Prop :=
  t.Waits ∧ RTO_MS * 2 ^ min t.retries 4 ≤ now - t.lastTx

instance (now : Nat) (t : Tcp) : Decidable (t.Late now) := by
  unfold Late
  infer_instance

/-- One time-out more. -/
def retry (now : Nat) (t : Tcp) : Tcp := { t with retries := t.retries + 1, lastTx := now }

/-- One time-out too many. -/
def giveUp (t : Tcp) : Tcp := { t with retries := t.retries + 1, state := .error }

/-- Back to the first byte not acknowledged. -/
def goBack (t : Tcp) : Tcp := { t with sndNxt := t.sndUna }

/-- `tcp_timers`, for one connection. -/
def timer (now : Nat) (t : Tcp) : Tcp × List Sent :=
  if t.Late now then
    if MAX_RETRIES < t.retries + 1 then (t.giveUp, [])
    else if t.synPending then
      let r := (t.retry now).segment SYN t.sndUna []
      (r.1, [r.2])
    else (t.retry now).goBack.output now
  else (t, [])

/-- `tcp_connect`, for the slot found. -/
def connect (now : Nat) (lport : UInt16) (ip : Ip) (port : UInt16) (isn : UInt32) (t : Tcp) :
    Tcp × List Sent :=
  let t := { t with
    state := .synSent, lport := lport, rip := ip, rport := port
    sndUna := isn, sndNxt := isn, rcvNxt := 0, peerWnd := 0, mss := 536
    tx := [], rxHead := 0, rxLen := 0, retries := 0, synPending := true, lastTx := now }
  let r := t.segment SYN isn []
  (r.1, [r.2])

/-- As much of the data as there is room for enters the transmit buffer. -/
def enqueue (data : List UInt8) (t : Tcp) : Tcp :=
  { t with tx := t.tx ++ data.take (TXCAP - t.tx.length) }

/-- `tcp_send`, for a connection in use: what it returns, too. -/
def send (now : Nat) (data : List UInt8) (t : Tcp) : Tcp × Int × List Sent :=
  match t.state with
  | .synSent => (t, 0, [])
  | .established =>
    let o := (t.enqueue data).output now
    (o.1, ((min data.length (TXCAP - t.tx.length) : Nat) : Int), o.2)
  | _ => (t, -1, [])

/-- `tcp_recv` into a buffer of `len` bytes, for a connection in use: what it returns, and the bytes
read. -/
def recv (len : Nat) (t : Tcp) : Tcp × Int × List UInt8 × List Sent :=
  if t.rxLen = 0 then
    (t, match t.state with
      | .peerClosed => 0
      | .error => -1
      | _ => -2, [], [])
  else
    let n := min len t.rxLen
    let data := Ring.slice t.rx RXCAP t.rxHead n
    let t := { t with rxHead := (t.rxHead + n) % RXCAP, rxLen := t.rxLen - n }
    -- The window has opened by much: the peer would stay stopped.
    if t.state = .established ∧ t.advWnd < RXCAP / 4 ∧ RXCAP / 2 ≤ min (RXCAP - t.rxLen) 65535 then
      (t.ackNow.1, n, data, [t.ackNow.2])
    else (t, n, data, [])

/-- `tcp_close`, for a connection in use. -/
def close (t : Tcp) : Tcp × List Sent :=
  let r := match t.state with
    | .established | .peerClosed =>
      let r := t.segment (FIN ||| ACK) t.sndNxt []
      (r.1, [r.2])
    | .synSent =>
      let r := t.segment RST t.sndNxt []
      (r.1, [r.2])
    | _ => (t, [])
  ({ r.1 with state := .free }, r.2)

end Tcp

/-! ### The connections -/

/-- The slots, the next local port, and whether the gateway's address is known. -/
structure Stack where
  tcps : Nat → Tcp
  nextPort : UInt16
  gateway : Bool

/-- What every boot starts from. -/
def Stack.boot : Stack := ⟨fun _ => TCP_INIT, 49152, false⟩

def FIRST_PORT : UInt16 := 49152
def LAST_PORT : UInt16 := 60999

/-- `if NEXT_PORT >= 60999 { 49152 } else { NEXT_PORT + 1 }` -/
def portAfter (p : UInt16) : UInt16 := if LAST_PORT ≤ p then FIRST_PORT else p + 1

namespace Stack

variable (σ : Stack)

def setTcp (h : Nat) (t : Tcp) : Stack := { σ with tcps := Function.update σ.tcps h t }

/-- Does a segment from `src` carry the addresses of the connection? -/
def Matches (src : Ip) (s : Segment) (t : Tcp) : Prop :=
  t.state ≠ .free ∧ t.lport = s.dport ∧ t.rport = s.sport ∧ t.rip = src

instance (src : Ip) (s : Segment) (t : Tcp) : Decidable (Matches src s t) := by
  unfold Matches
  infer_instance

/-- The slot that `tcp_input` finds. -/
def target (src : Ip) (s : Segment) : Option Nat :=
  (List.range MAX_TCP).find? fun h => decide (Matches src s (σ.tcps h))

/-- The first free slot. -/
def freeSlot : Option Nat :=
  (List.range MAX_TCP).find? fun h => decide ((σ.tcps h).state = .free)

/-- `conn(h)`: a slot in use. -/
def InUse (h : Nat) : Prop := h < MAX_TCP ∧ (σ.tcps h).state ≠ .free

instance (h : Nat) : Decidable (σ.InUse h) := by
  unfold InUse
  infer_instance

/-- `tcp_input(src, s)`. -/
def tcpInput (now : Nat) (src : Ip) (s : Segment) : Stack :=
  match σ.target src s with
  | some h => σ.setTcp h ((σ.tcps h).input now s).1
  | none => σ

/-- `handle_frame(f)`. -/
def handleFrame (now : Nat) (f : List UInt8) : Stack :=
  match packet f with
  | .gateway => { σ with gateway := true }
  | .tcp src s => σ.tcpInput now src s
  | .other => σ

/-- `tcp_timers()`. -/
def tcpTimers (now : Nat) : Stack :=
  { σ with tcps := fun h => if h < MAX_TCP then ((σ.tcps h).timer now).1 else σ.tcps h }

/-- `tcp_connect(ip, port)`; `cycles` is the cycle counter. -/
def tcpConnect (now cycles : Nat) (ip : Ip) (port : UInt16) : Stack :=
  if σ.gateway then
    match σ.freeSlot with
    | some h =>
      { σ.setTcp h ((σ.tcps h).connect now σ.nextPort ip port
          (UInt32.ofNat cycles * 2654435761)).1 with nextPort := portAfter σ.nextPort }
    | none => σ
  else σ

/-- `tcp_send(h, data)`. -/
def tcpSend (now h : Nat) (data : List UInt8) : Stack :=
  if σ.InUse h then σ.setTcp h ((σ.tcps h).send now data).1 else σ

/-- `tcp_recv(h, out)`. -/
def tcpRecv (h len : Nat) : Stack :=
  if σ.InUse h then σ.setTcp h ((σ.tcps h).recv len).1 else σ

/-- `tcp_close(h)`. -/
def tcpClose (h : Nat) : Stack :=
  if σ.InUse h then σ.setTcp h (σ.tcps h).close.1 else σ

/-- `udp_alloc_port()`. -/
def udpAllocPort : Stack := { σ with nextPort := portAfter σ.nextPort }

end Stack

/-- What happens: a frame arrives, the timers run, or a call is made. -/
inductive Event where
  | frame (now : Nat) (f : List UInt8)
  | timers (now : Nat)
  | connect (now cycles : Nat) (ip : Ip) (port : UInt16)
  | send (now h : Nat) (data : List UInt8)
  | recv (h len : Nat)
  | close (h : Nat)
  | udpAllocPort

def Stack.after (σ : Stack) : Event → Stack
  | .frame now f => σ.handleFrame now f
  | .timers now => σ.tcpTimers now
  | .connect now cycles ip port => σ.tcpConnect now cycles ip port
  | .send now h data => σ.tcpSend now h data
  | .recv h len => σ.tcpRecv h len
  | .close h => σ.tcpClose h
  | .udpAllocPort => σ.udpAllocPort

def Stack.step (σ : Stack) (e : Event) : Option Stack := some (σ.after e)

end Pulsar.Net

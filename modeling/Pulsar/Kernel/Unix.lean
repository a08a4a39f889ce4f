import Pulsar.Kernel.Refs

/-!
# Local sockets (`unix.rs`)

Connections, their queues, and listeners.  A message or a run of bytes is a function from
positions to bytes; what is copied into or out of a ring is said byte by byte, modulo its
capacity.
-/

namespace Pulsar.Kernel

variable {V : Type}

/-- The `n` bytes at `head` of a ring of `cap` bytes. -/
def ringGet (ring : Nat → UInt8) (cap head n : Nat) : Nat → UInt8 := fun i =>
  if i < n then ring ((head + i) % cap) else 0

/-- The ring after `n` bytes of `src` have been copied to position `at'`. -/
def ringPut (ring : Nat → UInt8) (cap at' n : Nat) (src : Nat → UInt8) : Nat → UInt8 := fun x =>
  let i := (x + cap - at' % cap) % cap
  if x < cap ∧ i < n then src i else ring x

def K.setQueue (k : K V) (c e : Nat) (q : Queue) : K V :=
  k.setConn c { k.conns c with q := Function.update (k.conns c).q e q }

/-! ### Connections -/

/-- `conn_new(packet)`. -/
def connNew (packet : Bool) : Prog V Nat := do
  let k ← get
  let c ← position MAX_CONNS (fun c => !(k.conns c).used) ENOMEM
  let a ← allocContig ENOMEM
  let b ← allocContig ENOMEM
  modify fun k => k.setConn c
    { CEMPTY with
      used := true
      packet := packet
      q := fun e => { QEMPTY with buf := if e = 0 then a else b }
      refs := fun _ => 1 }
  pure c

/-- What `unix::read` delivers: how many bytes, whether a message was cut, the bytes, and the
descriptors attached to them. -/
structure Received where
  n : Nat
  trunc : Bool
  data : Nat → UInt8
  files : List OpenFile

/-- The descriptors attached to the next byte of a queue are taken off it. -/
def Queue.takeAtt (q : Queue) : List OpenFile × Queue :=
  match q.atts with
  | a :: as => if a.pos = q.rpos then (a.files, { q with atts := as }) else ([], q)
  | [] => ([], q)

/-- How many bytes a stream read of `len` may take: not across the start of other descriptors. -/
def Queue.streamLen (q : Queue) (len : Nat) : Nat :=
  match q.atts with
  | a :: _ => if q.rpos < a.pos then min (min len q.len) (a.pos - q.rpos) else min len q.len
  | [] => min len q.len

/-- `consume` bytes leave the queue. -/
def Queue.advance (q : Queue) (consume : Nat) : Queue :=
  { q with head := (q.head + consume) % CAP, len := q.len - consume, rpos := q.rpos + consume }

/-- The transfer of `unix::read` from a queue that has something: a message, or bytes. -/
def Queue.receive (q : Queue) (packet : Bool) (len : Nat) : Received × Queue :=
  let (files, q) := q.takeAtt
  if packet then
    let m := q.msgs q.mhead
    let n := min len m
    (⟨n, decide (len < m), ringGet q.ring CAP q.head n, files⟩,
      { q with mhead := (q.mhead + 1) % MSGQ, mcount := q.mcount - 1 }.advance m)
  else
    let n := q.streamLen len
    (⟨n, false, ringGet q.ring CAP q.head n, files⟩, q.advance n)

/-- `unix::read(c, e, ..)`. -/
def unixRead (c e len : Nat) (nonblock : Bool) : Prog V Received := do
  let k ← get
  let x := k.conns c
  let q := x.q e
  if q.len = 0 then
    if x.refs (1 - e) = 0 ∨ q.eof = true then pure ⟨0, false, fun _ => 0, []⟩
    else if nonblock then throw EAGAIN
    else wouldBlock (.unixRead c e) (unixKeyR c e)
  else
    let r := q.receive x.packet len
    set (pushWake (unixKeyR c (1 - e)) (k.setQueue c e r.2))
    pure r.1

/-- Does a write of `len` bytes have to wait? -/
def Queue.full (q : Queue) (packet : Bool) (len : Nat) : Prop :=
  if packet then CAP - q.len < len ∨ q.mcount = MSGQ else CAP - q.len = 0

instance (q : Queue) (packet : Bool) (len : Nat) : Decidable (q.full packet len) := by
  unfold Queue.full; infer_instance

/-- `n` bytes of `src` and the descriptors `files` enter the queue. -/
def Queue.send (q : Queue) (packet : Bool) (n : Nat) (src : Nat → UInt8) (files : List OpenFile) :
    Queue :=
  { q with
    atts := if files = [] then q.atts else q.atts ++ [⟨q.wpos, files⟩]
    ring := ringPut q.ring CAP (q.head + q.len) n src
    len := q.len + n
    wpos := q.wpos + n
    msgs := if packet then Function.update q.msgs ((q.mhead + q.mcount) % MSGQ) n else q.msgs
    mcount := if packet then q.mcount + 1 else q.mcount }

/-- `unix::write(c, e, ..)`: into the queue the other end reads. -/
def unixWrite (c e : Nat) (src : Nat → UInt8) (len : Nat) (nonblock : Bool)
    (files : List OpenFile) : Prog V Nat := do
  let k ← get
  let x := k.conns c
  if x.refs (1 - e) = 0 then throw EPIPE
  let q := x.q (1 - e)
  if x.packet ∧ CAP < len then throw EMSGSIZE
  if q.full x.packet len then
    if nonblock then throw EAGAIN
    else wouldBlock (.unixWrite c e len) (unixKeyR c (1 - e))
  else
    if files ≠ [] ∧ (q.atts.length = ATTQ ∨ MAX_ATT_FDS < files.length) then throw ENOBUFS
    let n := if x.packet then len else min len (CAP - q.len)
    set (pushWake (unixKeyR c (1 - e)) (k.setQueue c (1 - e) (q.send x.packet n src files)))
    pure n

/-- `unix::shutdown(c, e, how)`. -/
def unixShutdown (c e how : Nat) (k : K V) : K V :=
  let k := if how ≠ 0 then
      pushWake (unixKeyR c (1 - e))
        (k.setQueue c (1 - e) { (k.conns c).q (1 - e) with eof := true })
    else k
  if how ≠ 1 then
    pushWake (unixKeyR c e) (k.setQueue c e { (k.conns c).q e with eof := true })
  else k

/-! ### Listeners -/

/-- `find_listener(key)`. -/
@[irreducible] def findListener (k : K V) (key : SockKey) : Option Nat :=
  (List.range MAX_LISTEN).find? fun i => (k.listeners i).used && decide ((k.listeners i).key = key)

/-- `unix::listen(key, packet)`. -/
def unixListen (key : SockKey) (packet : Bool) : Prog V Nat := do
  let k ← get
  if (findListener k key).isSome then throw EADDRINUSE
  let i ← position MAX_LISTEN (fun i => !(k.listeners i).used) ENOMEM
  set (k.setListener i ⟨true, 1, packet, key, []⟩)
  pure i

/-- `unix::connect(key, packet)`. -/
def unixConnect (key : SockKey) (packet : Bool) : Prog V Nat := do
  let k ← get
  match findListener k key with
  | none => throw ECONNREFUSED
  | some li =>
    if (k.listeners li).packet ≠ packet then throw ECONNREFUSED
    if (k.listeners li).backlog.length = BACKLOG then throw EAGAIN
    let c ← connNew packet
    modify fun k => pushWake (unixKeyL li)
      (k.setListener li { k.listeners li with backlog := (k.listeners li).backlog ++ [c] })
    pure c

/-- `unix::accept(i, nonblock)`. -/
def unixAccept (i : Nat) (nonblock : Bool) : Prog V Nat := do
  let k ← get
  match (k.listeners i).backlog with
  | [] => if nonblock then throw EAGAIN else wouldBlock (.accept i) (unixKeyL i)
  | c :: cs =>
    set (k.setListener i { k.listeners i with backlog := cs })
    pure c

end Pulsar.Kernel

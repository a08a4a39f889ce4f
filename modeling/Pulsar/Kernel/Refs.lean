import Pulsar.Kernel.State

/-!
# Taking and giving back references

`addRef` and `dropRefs` are `add_ref` and `drop_ref` of `file.rs` with what they call in `unix.rs`
and `shm.rs`.  Giving back the last reference of a connection closes the descriptors travelling in
its queues, which may close other connections, and so on: `dropOne` does one object and says what
is to be closed next, `dropRefs` goes on until nothing is left, in the order of the source's
recursion.  Every file it closes on the way comes out of a queue or a backlog, so `inTransit`
bounds how far it can go.
-/

namespace Pulsar.Kernel

variable {V : Type}

namespace K

def setPipe (k : K V) (i : Nat) (p : Pipe) : K V := { k with pipes := Function.update k.pipes i p }
def setMem (k : K V) (i : Nat) (m : MemFile) : K V := { k with mems := Function.update k.mems i m }
def setEvent (k : K V) (i : Nat) (e : EventFd) : K V :=
  { k with events := Function.update k.events i e }
def setEpoll (k : K V) (i : Nat) (e : Epoll) : K V :=
  { k with epolls := Function.update k.epolls i e }
def setSock (k : K V) (i : Nat) (s : Sock) : K V := { k with socks := Function.update k.socks i s }
def setUSock (k : K V) (i : Nat) (u : USock) : K V :=
  { k with usocks := Function.update k.usocks i u }
def setConn (k : K V) (c : Nat) (x : Conn) : K V := { k with conns := Function.update k.conns c x }
def setListener (k : K V) (i : Nat) (l : Listener) : K V :=
  { k with listeners := Function.update k.listeners i l }
def setShm (k : K V) (i : Nat) (o : Shm) : K V := { k with shms := Function.update k.shms i o }

end K

/-- The open file of end `e` of connection `c`, for its references. -/
def unixEnd (c e : Nat) : OpenFile := ⟨.unix, c * 2 + e, O_RDWR, false, 0⟩

/-- The descriptors travelling in a queue. -/
def Queue.files (q : Queue) : List OpenFile := q.atts.flatMap Att.files

/-- The descriptors travelling in a connection. -/
def Conn.files (x : Conn) : List OpenFile := (x.q 0).files ++ (x.q 1).files

/-! ### Shared memory -/

/-- `obj(id)`: the index of a live object; ids start at 1. -/
def shmIdx (k : K V) (id : Nat) : Option Nat :=
  if 0 < id ∧ id ≤ MAX_OBJS ∧ (k.shms (id - 1)).used then some (id - 1) else none

/-- `maybe_free(id)`. -/
def maybeFree (id : Nat) (k : K V) : K V :=
  match shmIdx k id with
  | none => k
  | some i =>
    let o := k.shms i
    if 0 < o.fdRefs ∨ 0 < o.mapRefs ∨ o.named = true then k else k.setShm i .EMPTY

/-- `fd_ref(id, delta)`. -/
def shmFdRef (id : Nat) (delta : Int) (k : K V) : K V :=
  let k := match shmIdx k id with
    | none => k
    | some i => k.setShm i { k.shms i with fdRefs := ((k.shms i).fdRefs + delta).toNat }
  if delta < 0 then maybeFree id k else k

/-- `map_ref(id, delta)`. -/
def shmMapRef (id : Nat) (delta : Int) (k : K V) : K V :=
  let k := match shmIdx k id with
    | none => k
    | some i => k.setShm i { k.shms i with mapRefs := ((k.shms i).mapRefs + delta).toNat }
  if delta < 0 then maybeFree id k else k

/-! ### One more reference -/

/-- `add_ref(f)`. -/
def addRef (f : OpenFile) (k : K V) : K V :=
  let i := f.ino
  match f.kind with
  | .pipeR => k.setPipe i { k.pipes i with readers := (k.pipes i).readers + 1 }
  | .pipeW => k.setPipe i { k.pipes i with writers := (k.pipes i).writers + 1 }
  | .mem => k.setMem i { k.mems i with refs := (k.mems i).refs + 1 }
  | .event => k.setEvent i { k.events i with refs := (k.events i).refs + 1 }
  | .epoll => k.setEpoll i { k.epolls i with refs := (k.epolls i).refs + 1 }
  | .sock => k.setSock i { k.socks i with refs := (k.socks i).refs + 1 }
  | .unix =>
    let (c, e) := (i / 2, i % 2)
    let x := k.conns c
    k.setConn c { x with refs := Function.update x.refs e (x.refs e + 1) }
  | .uSock => k.setUSock i { k.usocks i with refs := (k.usocks i).refs + 1 }
  | .listen => k.setListener i { k.listeners i with refs := (k.listeners i).refs + 1 }
  | .shm => shmFdRef i 1 k
  | _ => k

/-! ### One reference less -/

/-- `is_open(ino)`. -/
def isOpen (k : K V) (ino : Nat) : Bool :=
  ((List.range MAX_PROCS).any fun l => (List.range MAX_FDS).any fun fd =>
    ((k.fds l fd).kind == .file || (k.fds l fd).kind == .dir) && (k.fds l fd).ino == ino) ||
  decide (0 < k.mapped ino)

/-- `after_close(ino)`. -/
def afterClose (env : Env V) (ino : Nat) (k : K V) : K V :=
  let k := if ino ∈ k.orphans ∧ isOpen k ino = false then
      { k with vol := env.releaseInode ino k.vol, orphans := k.orphans.replace ino 0 }
    else k
  { k with vol := env.tidy k.vol }

/-- A reader or a writer of a pipe is gone: the other side is woken, and a pipe without either is
freed. -/
def dropPipe (f : OpenFile) (k : K V) : K V :=
  let i := f.ino
  let p := k.pipes i
  let k := if f.kind = .pipeR then
      pushWake (pipeKeyW i) (k.setPipe i { p with readers := p.readers - 1 })
    else pushWake (pipeKeyR i) (k.setPipe i { p with writers := p.writers - 1 })
  let p := k.pipes i
  if p.readers = 0 ∧ p.writers = 0 then k.setPipe i .EMPTY else k

/-- `unix::drop_ref(c, e)`, but for the descriptors to be closed, which it returns. -/
def dropEnd (c e : Nat) (k : K V) : List OpenFile × K V :=
  let x := k.conns c
  let x := { x with refs := Function.update x.refs e (x.refs e - 1) }
  let k := k.setConn c x
  let k := if x.refs e = 0 then pushWake (unixKeyR c e) (pushWake (unixKeyR c (1 - e)) k) else k
  if x.refs 0 = 0 ∧ x.refs 1 = 0 then (x.files, k.setConn c CEMPTY) else ([], k)

/-- `listener_ref(i, -1)`, but for the connections to be closed. -/
def dropListener (i : Nat) (k : K V) : List OpenFile × K V :=
  let x := k.listeners i
  let x := { x with refs := x.refs - 1 }
  if x.refs = 0 then (x.backlog.map (unixEnd · 1), k.setListener i LEMPTY)
  else ([], k.setListener i x)

/-- `drop_ref(f)`, but for the files to be closed next. -/
def dropOne (env : Env V) (f : OpenFile) (k : K V) : List OpenFile × K V :=
  let i := f.ino
  match f.kind with
  | .file | .dir => ([], afterClose env i k)
  | .pipeR | .pipeW => ([], dropPipe f k)
  | .mem =>
    let m := { k.mems i with refs := (k.mems i).refs - 1 }
    ([], k.setMem i (if m.refs = 0 then .EMPTY else m))
  | .event =>
    let e := { k.events i with refs := (k.events i).refs - 1 }
    ([], k.setEvent i (if e.refs = 0 then { e with used := false } else e))
  | .epoll =>
    let e := { k.epolls i with refs := (k.epolls i).refs - 1 }
    ([], k.setEpoll i (if e.refs = 0 then { e with used := false } else e))
  | .sock =>
    let s := { k.socks i with refs := (k.socks i).refs - 1 }
    if s.refs = 0 then
      ([], { k.setSock i .EMPTY with
        vol := match s.net.tcp with
          | some h => env.tcpClose h k.vol
          | none => k.vol })
    else ([], k.setSock i s)
  | .unix => dropEnd (i / 2) (i % 2) k
  | .uSock =>
    let u := { k.usocks i with refs := (k.usocks i).refs - 1 }
    ([], k.setUSock i (if u.refs = 0 then .EMPTY else u))
  | .listen => dropListener i k
  | .shm => ([], shmFdRef i (-1) k)
  | .free | .console | .devNull | .devZero | .devRandom => ([], k)

/-- The files in queues and the connections in backlogs. -/
def inTransit (k : K V) : Nat :=
  ((List.range MAX_CONNS).map fun c => (k.conns c).files.length).sum +
    ((List.range MAX_LISTEN).map fun i => (k.listeners i).backlog.length).sum

/-- Closing the files `fs`, and what that closes, for at most `n` files. -/
def dropUpTo (env : Env V) : Nat → List OpenFile → K V → K V
  | _, [], k => k
  | 0, _ :: _, k => k
  | n + 1, f :: fs, k =>
    let r := dropOne env f k
    dropUpTo env n (r.1 ++ fs) r.2

/-- `drop_ref` of each of the files `fs`. -/
def dropRefs (env : Env V) (fs : List OpenFile) (k : K V) : K V :=
  dropUpTo env (inTransit k + fs.length) fs k

/-- `drop_ref(f)`. -/
def dropRef (env : Env V) (f : OpenFile) (k : K V) : K V := dropRefs env [f] k

end Pulsar.Kernel

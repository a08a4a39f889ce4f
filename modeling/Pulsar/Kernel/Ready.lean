import Mathlib.Algebra.Ring.Nat
import Pulsar.Kernel.File

/-!
# Readiness (`file.rs`, `unix.rs`)

What `poll`, `select` and `epoll` find ready on a descriptor, and the keys on which they wait for
it.  The readiness of an INET socket is the network's business: `sock i` stands for what
`ready_locked` answers for socket `i`.
-/

namespace Pulsar.Kernel

variable {V : Type}

def POLLIN : UInt32 := 0x001
def POLLOUT : UInt32 := 0x004
def POLLERR : UInt32 := 0x008
def POLLHUP : UInt32 := 0x010
def POLLNVAL : UInt32 := 0x020

/-- `if b { m } else { 0 }`. -/
def flag (b : Bool) (m : UInt32) : UInt32 := if b then m else 0

/-- `unix::ready(c, e)`: something to read or the end, room to write, the other side is gone. -/
def unixReady (c e : Nat) (k : K V) : Bool × Bool × Bool :=
  let x := k.conns c
  let gone := decide (x.refs (1 - e) = 0)
  let q := x.q e
  let out := x.q (1 - e)
  let writable := !gone && if x.packet then decide (out.len < CAP ∧ out.mcount < MSGQ)
    else decide (out.len < CAP)
  (decide (0 < q.len) || gone || q.eof, writable, gone)

/-- The events ready on an open file. -/
def readyFile (sock : Nat → UInt32) (k : K V) (f : OpenFile) : UInt32 :=
  match f.kind with
  | .pipeR =>
    let p := k.pipes f.ino
    flag (decide (0 < p.len ∨ p.writers = 0)) POLLIN ||| flag (decide (p.writers = 0)) POLLHUP
  | .pipeW =>
    let p := k.pipes f.ino
    if p.readers = 0 then POLLERR else flag (decide (p.len < PIPE_CAP)) POLLOUT
  | .unix =>
    let (d, w, hup) := unixReady (f.ino / 2) (f.ino % 2) k
    flag d POLLIN ||| flag w POLLOUT ||| flag hup POLLHUP
  | .listen => flag (decide ((k.listeners f.ino).backlog ≠ [])) POLLIN
  | .uSock => POLLOUT
  | .event => flag (decide (0 < (k.events f.ino).count)) POLLIN ||| POLLOUT
  | .sock => sock f.ino
  | .console => POLLOUT
  | .epoll => 0
  | .free => POLLNVAL
  | .file | .dir | .devNull | .devZero | .devRandom | .mem | .shm => POLLIN ||| POLLOUT

/-- The open file of a number, if it is one. -/
def fileAt (k : K V) (l fd : Nat) : Option OpenFile :=
  let fd := fd % 2 ^ 32
  if fd < MAX_FDS ∧ (k.fds l fd).kind ≠ .free then some (k.fds l fd) else none

/-- `ready_locked(l, fd)`. -/
def readyLocked (sock : Nat → UInt32) (k : K V) (l fd : Nat) : UInt32 :=
  (fileAt k l fd).elim POLLNVAL (readyFile sock k)

/-- The answer of `ready_locked` depends on the network. -/
def dependsOnNet (k : K V) (l fd : Nat) : Bool :=
  (fileAt k l fd).elim false fun f => decide (f.kind = .sock)

/-- `always_ready(l, fd)`. -/
def alwaysReady (k : K V) (l fd : Nat) : Bool :=
  (fileAt k l fd).elim false fun f =>
    match f.kind with
    | .file | .dir | .mem | .shm | .devNull | .devZero | .devRandom | .console => true
    | _ => false

/-! ### What wakes a scan -/

/-- `SOCK_KEY`. -/
def SOCK_KEY : Nat := 0x534F434B

/-- `key_bit(key)`. -/
def keyBit (key : Nat) : Nat := 1 <<< keyBucket key

/-- The buckets that wake for an open file. -/
def waitKeysFile (f : OpenFile) : Nat :=
  match f.kind with
  | .pipeR => keyBit (pipeKeyR f.ino)
  | .pipeW => keyBit (pipeKeyW f.ino)
  | .unix =>
    keyBit (unixKeyR (f.ino / 2) (f.ino % 2)) ||| keyBit (unixKeyR (f.ino / 2) (1 - f.ino % 2))
  | .listen => keyBit (unixKeyL f.ino)
  | .event => keyBit (keyEv f.ino)
  | .sock => keyBit SOCK_KEY
  | .epoll => 2 ^ 64 - 1
  | _ => 0

/-- `wait_keys_locked(l, fd)`. -/
def waitKeys (k : K V) (l fd : Nat) : Nat := (fileAt k l fd).elim 0 waitKeysFile

end Pulsar.Kernel

import Mathlib.Logic.Function.Basic
import Mathlib.Data.List.Basic
import Mathlib.Data.UInt
import Pulsar.Lib.Prog

/-!
# Descriptors and the objects behind them (`file.rs`, `unix.rs`, `shm.rs`)

`K` is the state the lock FS protects: the descriptor tables, one table for each kind of object a
descriptor can name, the wake-ups not delivered yet and the event counters of `process.rs`.  What
lies below (the ext2 volume, the network, the contents of files) is a type `V`, reached only
through `Env V`.

Tables are functions of the index; a slot is free as the source says it (`buf == 0`, `!used`).
Reference counters are natural numbers.
-/

namespace Pulsar.Kernel

abbrev Errno := Nat

def ENOENT : Errno := 2
def EBADF : Errno := 9
def EAGAIN : Errno := 11
def ENOMEM : Errno := 12
def EEXIST : Errno := 17
def ENOTDIR : Errno := 20
def EISDIR : Errno := 21
def EINVAL : Errno := 22
def ENFILE : Errno := 23
def EMFILE : Errno := 24
def ENOSPC : Errno := 28
def ESPIPE : Errno := 29
def EPIPE : Errno := 32
def ELOOP : Errno := 40
def ENOTSOCK : Errno := 88
def EMSGSIZE : Errno := 90
def EOPNOTSUPP : Errno := 95
def EAFNOSUPPORT : Errno := 97
def EADDRINUSE : Errno := 98
def ENOBUFS : Errno := 105
def ENOTCONN : Errno := 107
def ECONNREFUSED : Errno := 111

/-- The internal error of an operation that has to wait. -/
def EBLOCK : Errno := 0x7FFF0000

def MAX_PROCS : Nat := 256
def MAX_FDS : Nat := 512

def O_ACCMODE : UInt32 := 3
def O_WRONLY : UInt32 := 1
def O_RDWR : UInt32 := 2
def O_CREAT : UInt32 := 0o100
def O_EXCL : UInt32 := 0o200
def O_TRUNC : UInt32 := 0o1000
def O_APPEND : UInt32 := 0o2000
def O_NONBLOCK : UInt32 := 0o4000
def O_DIRECTORY : UInt32 := 0o200000
def O_NOFOLLOW : UInt32 := 0o400000
def O_CLOEXEC : UInt32 := 0o2000000

/-- `flags & bit != 0`. -/
def has (flags bit : UInt32) : Bool := flags &&& bit != 0

/-! ### Open files -/

inductive Kind where
  | free | console | file | dir | pipeR | pipeW | devNull | devZero | devRandom | mem | event
  | epoll | sock | unix | uSock | listen | shm
  deriving DecidableEq

/-- What a descriptor is open on: `ino` is the inode, or the index of the object. -/
structure OpenFile where
  kind : Kind
  ino : Nat
  flags : UInt32
  cloexec : Bool
  off : Nat
  deriving DecidableEq

def FREE : OpenFile := ⟨.free, 0, 0, false, 0⟩
def CONSOLE : OpenFile := ⟨.console, 0, O_RDWR, false, 0⟩

/-- `DEFAULT_TABLE`: the console on 0, 1 and 2. -/
def DEFAULT_TABLE : Nat → OpenFile := fun fd => if fd < 3 then CONSOLE else FREE

/-! ### Objects -/

def MAX_PIPES : Nat := 256
def PIPE_PAGES : Nat := 16
def PIPE_CAP : Nat := PIPE_PAGES * 4096

/-- A pipe; `ring` is the memory at `buf`. -/
structure Pipe where
  buf : Nat
  ring : Nat → UInt8
  head : Nat
  len : Nat
  readers : Nat
  writers : Nat

def Pipe.EMPTY : Pipe := ⟨0, fun _ => 0, 0, 0, 0, 0⟩

/-- The text of an opened `/proc` file. -/
structure MemFile where
  buf : Nat
  len : Nat
  refs : Nat
  pages : Nat

def MemFile.EMPTY : MemFile := ⟨0, 0, 0, 0⟩

structure EventFd where
  used : Bool
  refs : Nat
  count : Nat
  sem : Bool

/-- An epoll; what it watches is not modelled. -/
structure Epoll where
  used : Bool
  refs : Nat

/-- The network part of a socket: its own business and the network's. -/
structure SockNet where
  udp : Bool
  tcp : Option Nat
  lport : Nat

structure Sock where
  used : Bool
  refs : Nat
  net : SockNet

def Sock.EMPTY : Sock := ⟨false, 0, ⟨false, none, 0⟩⟩

/-- `unix::Key`: the address a local socket is bound to. -/
inductive SockKey where
  | none
  | ino (i : Nat)
  | abstract (name : List UInt8)
  | port (p : Nat)
  deriving DecidableEq

structure USock where
  used : Bool
  refs : Nat
  packet : Bool
  key : SockKey

def USock.EMPTY : USock := ⟨false, 0, false, .none⟩

def CAP : Nat := 64 * 1024
def MSGQ : Nat := 128
def ATTQ : Nat := 8
/-- `unix::MAX_FDS`. -/
def MAX_ATT_FDS : Nat := 16
def MAX_CONNS : Nat := 512
def MAX_LISTEN : Nat := 64
def BACKLOG : Nat := 16

/-- Descriptors travelling with the byte at position `pos` of the stream. -/
structure Att where
  pos : Nat
  files : List OpenFile

/-- One direction of a connection; `ring` is the memory at `buf`, `msgs` the ring of message
sizes. -/
structure Queue where
  buf : Nat
  ring : Nat → UInt8
  head : Nat
  len : Nat
  wpos : Nat
  rpos : Nat
  msgs : Nat → Nat
  mhead : Nat
  mcount : Nat
  atts : List Att
  eof : Bool

def QEMPTY : Queue := ⟨0, fun _ => 0, 0, 0, 0, 0, fun _ => 0, 0, 0, [], false⟩

/-- A connection: `q e` is what end `e` reads. -/
structure Conn where
  used : Bool
  packet : Bool
  q : Nat → Queue
  refs : Nat → Nat
  port : Nat → Nat

def CEMPTY : Conn := ⟨false, false, fun _ => QEMPTY, fun _ => 0, fun _ => 0⟩

structure Listener where
  used : Bool
  refs : Nat
  packet : Bool
  key : SockKey
  backlog : List Nat

def LEMPTY : Listener := ⟨false, 0, false, .none, []⟩

def MAX_OBJS : Nat := 512
def SHM_NAME_MAX : Nat := 64

/-- A shared memory object; its pages are not modelled. -/
structure Shm where
  used : Bool
  size : Nat
  fdRefs : Nat
  mapRefs : Nat
  named : Bool
  name : List UInt8

def Shm.EMPTY : Shm := ⟨false, 0, 0, 0, false, []⟩

/-! ### The state -/

/-- What a blocked operation waits for, by object: the operation it will be when it runs again. -/
inductive Wait where
  | pipeRead (i : Nat)
  | pipeWrite (i : Nat)
  | unixRead (c e : Nat)
  | unixWrite (c e len : Nat)
  | accept (i : Nat)
  | eventRead (i : Nat)
  deriving DecidableEq

structure K (V : Type) where
  vol : V
  fds : Nat → Nat → OpenFile
  cwd : Nat → Nat
  orphans : List Nat
  pipes : Nat → Pipe
  mems : Nat → MemFile
  events : Nat → EventFd
  epolls : Nat → Epoll
  socks : Nat → Sock
  usocks : Nat → USock
  conns : Nat → Conn
  listeners : Nat → Listener
  shms : Nat → Shm
  /-- How many file-backed VMAs name an inode (`vm.rs`). -/
  mapped : Nat → Nat
  /-- `PENDING`: keys to wake, in order. -/
  pending : List Nat
  /-- `IO_SEQ`, by bucket. -/
  seq : Nat → Nat
  /-- `BLOCK_ON`: key and counter of the operation that returned `EBLOCK`, and what it was. -/
  blockOn : Option (Wait × Nat × Nat)
  /-- Which requests for contiguous frames the frame allocator grants, and how many there were. -/
  frames : Nat → Bool
  asked : Nat

/-- A kernel function under FS. -/
abbrev Prog (V α : Type) := EStateM Errno (K V) α

/-- `n.kind()`: regular, directory, symbolic link, or anything else. -/
inductive IMode where
  | reg | dir | lnk | other
  deriving DecidableEq

/-- What the file layer needs from below. -/
structure Env (V : Type) where
  /-- `ext2::create`: the inode, and whether it was made now. -/
  create : Nat → List UInt8 → Bool → V → Except Errno (Nat × Bool) × V
  resolveAt : Nat → List UInt8 → Bool → V → Except Errno Nat × V
  /-- The type of file an inode is (`S_IFMT`). -/
  kindOf : Nat → V → Except Errno IMode × V
  truncate : Nat → V → Except Errno Unit × V
  releaseInode : Nat → V → V
  /-- The `sync` of `after_close` when 64 blocks or more are dirty. -/
  tidy : V → V
  mknodSocket : Nat → List UInt8 → V → Except Errno Nat × V
  isSocket : Nat → V → Except Errno Bool × V
  tcpClose : Nat → V → V
  /-- `connect` of an INET socket that is not local. -/
  netConnect : SockNet → V → Except Errno Unit × SockNet × V
  udpAllocPort : V → Nat × V
  /-- A transfer (a write or a read, of so many bytes) that touches no queue of the kernel: regular
  files, `/proc` texts, shared memory and the network.  Bytes moved and new offset. -/
  transfer : OpenFile → Bool → Nat → V → Except Errno (Nat × Nat) × V

variable {V : Type}

/-! ### Wake-ups -/

def POLL_KEY : Nat := 0x504F4C4C

/-- `key_bucket(key)`. -/
@[irreducible] def keyBucket (key : Nat) : Nat := key * 0x9E3779B97F4A7C15 % 2 ^ 64 / 2 ^ 58 % 64

/-- `bump_io_seq(key)`. -/
def bumpIoSeq (key : Nat) (k : K V) : K V :=
  let s := Function.update k.seq (keyBucket key) (k.seq (keyBucket key) + 1)
  { k with seq := Function.update s (keyBucket POLL_KEY) (s (keyBucket POLL_KEY) + 1) }

/-- The room in `PENDING`. -/
def PENDING_MAX : Nat := 64

/-- `push_wake(key)`: a key that finds `PENDING` full is dropped. -/
def pushWake (key : Nat) (k : K V) : K V :=
  let k := bumpIoSeq key k
  if key ∈ k.pending then k
  else if k.pending.length < PENDING_MAX then { k with pending := k.pending ++ [key] }
  else k

/-- `would_block(key)`, for the operation `w`. -/
def wouldBlock {α : Type} (w : Wait) (key : Nat) : Prog V α := do
  modify fun k => { k with blockOn := some (w, key, k.seq (keyBucket key)) }
  throw EBLOCK

/-- `key_r(i)` and `key_w(i)` of `file.rs`. -/
def pipeKeyR (i : Nat) : Nat := 0x5049504500000000 ||| i <<< 1
def pipeKeyW (i : Nat) : Nat := pipeKeyR i ||| 1

/-- `key_r(c, e)` and `key_l(i)` of `unix.rs`. -/
def unixKeyR (c e : Nat) : Nat := 0x554E00000000 ||| c <<< 2 ||| e
def unixKeyL (i : Nat) : Nat := 0x554C00000000 ||| i

/-- `key_ev(i)`. -/
def keyEv (i : Nat) : Nat := 0x455600000000 ||| i

/-! ### Small pieces -/

/-- `frame_allocator::alloc_contig`. -/
def allocContig (e : Errno) : Prog V Nat := do
  let k ← get
  set { k with asked := k.asked + 1 }
  if k.frames k.asked then pure (k.asked + 1) else throw e

/-- The first index below `n` with `p`, or the error `e`. -/
@[irreducible] def position (n : Nat) (p : Nat → Bool) (e : Errno) : Prog V Nat :=
  match (List.range n).find? p with
  | some i => pure i
  | none => throw e

/-- `get(l, fd)`. -/
def getFd (l fd : Nat) : Prog V OpenFile := do
  let k ← get
  let fd := fd % 2 ^ 32
  if fd < MAX_FDS ∧ (k.fds l fd).kind ≠ .free then pure (k.fds l fd) else throw EBADF

def K.setFd (k : K V) (l fd : Nat) (f : OpenFile) : K V :=
  { k with fds := Function.update k.fds l (Function.update (k.fds l) fd f) }

/-- `install(l, f, min)`: the lowest free descriptor from `min` on. -/
def install (l : Nat) (f : OpenFile) (min : Nat) : Prog V Nat := do
  let k ← get
  let fd ← position MAX_FDS (fun i => decide (min ≤ i ∧ (k.fds l i).kind = .free)) EMFILE
  set (k.setFd l fd f)
  pure fd

/-- `x.inspect_err(|_| f)`. -/
def onError {α : Type} (x : Prog V α) (f : K V → K V) : Prog V α := fun k =>
  match x k with
  | .ok a k => .ok a k
  | .error e k => .error e (f k)

/-- `|_| x` on the volume below. -/
def below {α : Type} (x : V → Except Errno α × V) : Prog V α := fun k =>
  match x k.vol with
  | (.ok a, v) => .ok a { k with vol := v }
  | (.error e, v) => .error e { k with vol := v }

end Pulsar.Kernel

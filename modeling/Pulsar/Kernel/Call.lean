import Pulsar.Kernel.File

/-!
# The system calls

`Call` is a call of a process whose leader is in slot `l`, `Call.run` what it does under FS.  Calls
end in an errno or normally; what they return besides is not needed here.
-/

namespace Pulsar.Kernel

variable {V : Type}

/-- `mmap(MAP_SHARED)` of a descriptor: one more VMA names the object. -/
def mapShm (l fd : Nat) : Prog V Unit := do
  let f ← getFd l fd
  if f.kind = .shm then modify (shmMapRef f.ino 1) else throw EINVAL

/-- A VMA that names the object `id` is gone. -/
def unmapShm (id : Nat) : Prog V Unit := do
  let k ← get
  match shmIdx k id with
  | none => throw EINVAL
  | some i => if 0 < (k.shms i).mapRefs then modify (shmMapRef id (-1)) else throw EINVAL

/-- `mmap(MAP_SHARED | MAP_ANONYMOUS)`: `create_anon`, then the VMA. -/
def mapAnon : Prog V Unit := do
  let id ← shmCreate none
  modify fun k => k.setShm (id - 1) { k.shms (id - 1) with fdRefs := 0 }
  let _ ← onError (allocContig ENOMEM) (maybeFree id)
  modify (shmMapRef id 1)

inductive Call where
  | openAt (at' : Nat) (t : Target) (flags : UInt32)
  | pipe (flags : UInt32)
  | read (fd len : Nat) (pos : Option Nat)
  | write (fd : Nat) (src : Nat → UInt8) (len : Nat) (pos : Option Nat)
  | close (fd : Nat)
  | dup (fd newfd : Nat) (cloexec : Bool)
  | eventfd (init : Nat) (flags : UInt32)
  | epollCreate (flags : UInt32)
  | socket (domain : Nat) (ty : UInt32)
  | socketpair (domain : Nat) (ty : UInt32)
  | bind (fd : Nat) (sa : SockAddr)
  | listen (fd : Nat)
  | connect (fd : Nat) (sa : SockAddr)
  | accept (fd : Nat) (flags : UInt32)
  | send (fd : Nat) (src : Nat → UInt8) (len : Nat) (fds : List Nat) (nonblock : Bool)
  | recv (fd len : Nat) (nonblock cloexec : Bool) (room : Nat)
  | shutdown (fd how : Nat)
  | memfd (cloexec : Bool)
  | shmUnlink (name : List UInt8)
  | mapShm (fd : Nat)
  | unmapShm (id : Nat)
  | mapAnon
  | fork (dst : Nat)
  | exec
  | exit

/-- What a call does, for the process of slot `l`. -/
def Call.run (env : Env V) (l : Nat) : Call → Prog V Unit
  | .openAt at' t flags => discard (Kernel.openAt env l at' t flags)
  | .pipe flags => discard (Kernel.pipe env l flags)
  | .read fd len pos => discard (Kernel.read env l fd len pos)
  | .write fd src len pos => discard (Kernel.write env l fd src len pos)
  | .close fd => discard (Kernel.close env l fd)
  | .dup fd newfd cloexec => discard (dupEx env l fd newfd cloexec)
  | .eventfd init flags => discard (Kernel.eventfd env l init flags)
  | .epollCreate flags => discard (Kernel.epollCreate env l flags)
  | .socket domain ty => discard (Kernel.socket env l domain ty)
  | .socketpair domain ty => discard (Kernel.socketpair env l domain ty)
  | .bind fd sa => discard (Kernel.bind env l fd sa)
  | .listen fd => discard (Kernel.listen env l fd)
  | .connect fd sa => discard (Kernel.connect env l fd sa)
  | .accept fd flags => discard (Kernel.accept env l fd flags)
  | .send fd src len fds nonblock => discard (unixSend env l fd src len fds nonblock)
  | .recv fd len nonblock cloexec room => discard (unixRecv env l fd len nonblock cloexec room)
  | .shutdown fd how => discard (Kernel.shutdown l fd how)
  | .memfd cloexec => discard (Kernel.memfd env l cloexec)
  | .shmUnlink name => discard (Kernel.shmUnlink name)
  | .mapShm fd => Kernel.mapShm l fd
  | .unmapShm id => Kernel.unmapShm id
  | .mapAnon => Kernel.mapAnon
  | .fork dst => modify (cloneTable l dst)
  | .exec => modify (execCleanup env l)
  | .exit => modify (release env l)

/-- The state a program leaves, however it ends. -/
def Prog.after {α : Type} (x : Prog V α) (k : K V) : K V :=
  match x k with
  | .ok _ k => k
  | .error _ k => k

/-- What every boot starts from: every table empty, the console on the standard descriptors. -/
def K.boot (vol : V) (frames : Nat → Bool) : K V where
  vol := vol
  fds := fun _ => DEFAULT_TABLE
  cwd := fun _ => 2
  orphans := List.replicate 32 0
  pipes := fun _ => .EMPTY
  mems := fun _ => .EMPTY
  events := fun _ => ⟨false, 0, 0, false⟩
  epolls := fun _ => ⟨false, 0⟩
  socks := fun _ => .EMPTY
  usocks := fun _ => .EMPTY
  conns := fun _ => CEMPTY
  listeners := fun _ => LEMPTY
  shms := fun _ => .EMPTY
  mapped := fun _ => 0
  pending := []
  seq := fun _ => 0
  blockOn := none
  frames := frames
  asked := 0

end Pulsar.Kernel

import Pulsar.Lib.Bytes
import Pulsar.Kernel.Unix

/-!
# The calls on descriptors (`file.rs`)

Each function is the part of the source's between taking FS and giving it back; `l` is the slot of
the caller's leader, whose table it works on.
-/

namespace Pulsar.Kernel

variable {V : Type}

/-- Bytes delivered to the caller. -/
structure Got where
  n : Nat
  data : Nat → UInt8

def Got.none (n : Nat) : Got := ⟨n, fun _ => 0⟩

/-- A new descriptor for an object whose only reference is `f`. -/
def installNew (env : Env V) (l : Nat) (f : OpenFile) : Prog V Nat :=
  onError (install l f 0) (dropRef env f)

/-- A descriptor open on an object, with the flags of the call. -/
def openOn (kind : Kind) (ino : Nat) (flags : UInt32) (cloexec : Bool) : OpenFile :=
  ⟨kind, ino, flags, cloexec, 0⟩

/-! ### Pipes -/

/-- `pipe(flags)`. -/
def pipe (env : Env V) (l : Nat) (flags : UInt32) : Prog V (Nat × Nat) := do
  let k ← get
  let i ← position MAX_PIPES (fun i => decide ((k.pipes i).buf = 0)) ENFILE
  let buf ← allocContig ENOSPC
  modify fun k => k.setPipe i ⟨buf, fun _ => 0, 0, 0, 1, 1⟩
  let fl := flags &&& O_NONBLOCK
  let cloexec := has flags O_CLOEXEC
  let fr := openOn .pipeR i fl cloexec
  let r ← onError (install l fr 0) fun k =>
    k.setPipe i { k.pipes i with readers := 0, writers := 0, buf := 0 }
  let w ← onError (install l (openOn .pipeW i (fl ||| O_WRONLY) cloexec) 0) fun k =>
    let k := k.setFd l r FREE
    dropRef env fr (k.setPipe i { k.pipes i with writers := 0 })
  pure (r, w)

/-- `pipe_read(flags, i, ..)`. -/
def pipeRead (flags : UInt32) (i len : Nat) : Prog V Got := do
  let k ← get
  let p := k.pipes i
  if p.len = 0 then
    if p.writers = 0 then pure (.none 0)
    else if has flags O_NONBLOCK then throw EAGAIN
    else wouldBlock (.pipeRead i) (pipeKeyR i)
  else
    let n := min len p.len
    set (pushWake (pipeKeyW i)
      (k.setPipe i { p with head := (p.head + n) % PIPE_CAP, len := p.len - n }))
    pure ⟨n, ringGet p.ring PIPE_CAP p.head n⟩

/-- `pipe_write(flags, i, ..)`. -/
def pipeWrite (flags : UInt32) (i : Nat) (src : Nat → UInt8) (len : Nat) : Prog V Nat := do
  let k ← get
  let p := k.pipes i
  if p.readers = 0 then throw EPIPE
  if PIPE_CAP - p.len = 0 then
    if has flags O_NONBLOCK then throw EAGAIN
    else wouldBlock (.pipeWrite i) (pipeKeyW i)
  else
    let n := min len (PIPE_CAP - p.len)
    set (pushWake (pipeKeyR i) (k.setPipe i
      { p with ring := ringPut p.ring PIPE_CAP (p.head + p.len) n src, len := p.len + n }))
    pure n

/-! ### eventfd, epoll, sockets -/

/-- `eventfd(init, flags)`. -/
def eventfd (env : Env V) (l init : Nat) (flags : UInt32) : Prog V Nat := do
  let k ← get
  let i ← position 256 (fun i => !(k.events i).used) ENFILE
  set (k.setEvent i ⟨true, 1, init, has flags 1⟩)
  installNew env l (openOn .event i (O_RDWR ||| (flags &&& O_NONBLOCK)) (has flags O_CLOEXEC))

/-- `event_read(flags, i, ..)`: the value read. -/
def eventRead (flags : UInt32) (i len : Nat) : Prog V Got := do
  if len < 8 then throw EINVAL
  let k ← get
  let e := k.events i
  if e.count = 0 then
    if has flags O_NONBLOCK then throw EAGAIN
    else wouldBlock (.eventRead i) (keyEv i)
  else
    let v := if e.sem then 1 else e.count
    set (pushWake (keyEv i) (k.setEvent i { e with count := e.count - v }))
    pure ⟨8, lePut (fun _ => 0) 0 8 v⟩

/-- `event_write(i, src, len)`. -/
def eventWrite (i : Nat) (src : Nat → UInt8) (len : Nat) : Prog V Nat := do
  if len < 8 then throw EINVAL
  let v := leGet src 0 8
  if v = 2 ^ 64 - 1 then throw EINVAL
  modify fun k => pushWake (keyEv i)
    (k.setEvent i { k.events i with
      count := min (min ((k.events i).count + v) (2 ^ 64 - 1)) (2 ^ 64 - 2) })
  pure 8

/-- `epoll_create(flags)`. -/
def epollCreate (env : Env V) (l : Nat) (flags : UInt32) : Prog V Nat := do
  let k ← get
  let i ← position 128 (fun i => !(k.epolls i).used) ENFILE
  set (k.setEpoll i ⟨true, 1⟩)
  installNew env l (openOn .epoll i O_RDWR (has flags O_CLOEXEC))

/-- The flags of a new socket. -/
def sockFlags (ty : UInt32) : UInt32 := O_RDWR ||| (ty &&& O_NONBLOCK)

/-- `socket(domain, ty)`. -/
def socket (env : Env V) (l domain : Nat) (ty : UInt32) : Prog V Nat := do
  let k ← get
  let base := ty &&& 0xF
  if domain = 1 then
    if base ≠ 1 ∧ base ≠ 5 then throw (if base = 2 then EOPNOTSUPP else EINVAL)
    let i ← position 128 (fun i => !(k.usocks i).used) ENFILE
    set (k.setUSock i ⟨true, 1, base = 5, .none⟩)
    installNew env l (openOn .uSock i (sockFlags ty) (has ty O_CLOEXEC))
  else
    if domain ≠ 2 then throw EAFNOSUPPORT
    if base ≠ 1 ∧ base ≠ 2 then throw EINVAL
    let i ← position 128 (fun i => !(k.socks i).used) ENFILE
    set (k.setSock i ⟨true, 1, ⟨base = 2, none, 0⟩⟩)
    installNew env l (openOn .sock i (sockFlags ty) (has ty O_CLOEXEC))

/-- `socketpair(domain, ty)`. -/
def socketpair (env : Env V) (l domain : Nat) (ty : UInt32) : Prog V (Nat × Nat) := do
  if domain ≠ 1 then throw EAFNOSUPPORT
  let base := ty &&& 0xF
  if base ≠ 1 ∧ base ≠ 2 ∧ base ≠ 5 then throw EINVAL
  let c ← connNew (base ≠ 1)
  let mk := fun e => openOn .unix (c * 2 + e) (sockFlags ty) (has ty O_CLOEXEC)
  let a ← onError (install l (mk 0) 0) (dropRefs env [unixEnd c 0, unixEnd c 1])
  let b ← onError (install l (mk 1) 0) fun k =>
    dropRefs env [unixEnd c 0, unixEnd c 1] (k.setFd l a FREE)
  pure (a, b)

/-- A decoded socket address; an INET address is local when it starts with 127. -/
inductive SockAddr where
  | inet (loopback : Bool) (port : Nat)
  | path (p : List UInt8)
  | abstract (name : List UInt8)

/-- `unix_key(l, a, create)`. -/
def unixKey (env : Env V) (l : Nat) (a : SockAddr) (create : Bool) : Prog V SockKey :=
  match a with
  | .abstract name => pure (.abstract name)
  | .inet _ _ => throw EINVAL
  | .path p => do
    let k ← get
    if create then
      match env.mknodSocket (k.cwd l) p k.vol with
      | (.ok ino, v) => do
        set { k with vol := v }
        pure (.ino ino)
      | (.error e, v) => do
        set { k with vol := v }
        if e = EEXIST then
          let ino ← below (env.resolveAt (k.cwd l) p true)
          let sock ← below (env.isSocket ino)
          let k ← get
          if sock ∧ findListener k (.ino ino) = none then pure (.ino ino) else throw EADDRINUSE
        else throw e
    else
      let ino ← below (env.resolveAt (k.cwd l) p true)
      let sock ← below (env.isSocket ino)
      if sock then pure (.ino ino) else throw ECONNREFUSED

/-- The local port of an INET socket, given one now if it has none. -/
def ensurePort (env : Env V) (i : Nat) : Prog V Nat := do
  let k ← get
  let n := (k.socks i).net
  if n.lport ≠ 0 then pure n.lport
  else
    let (p, v) := env.udpAllocPort k.vol
    set { k.setSock i { k.socks i with net := { n with lport := p } } with vol := v }
    pure p

/-- `bind(fd, sa)`. -/
def bind (env : Env V) (l fd : Nat) (sa : SockAddr) : Prog V Nat := do
  let f ← getFd l fd
  if f.kind = .uSock then
    let k ← get
    if (k.usocks f.ino).key ≠ .none then throw EINVAL
    let key ← unixKey env l sa true
    modify fun k => k.setUSock f.ino { k.usocks f.ino with key := key }
    pure 0
  else
    match sa with
    | .inet _ port =>
      if f.kind ≠ .sock then throw ENOTSOCK
      if port ≠ 0 then
        modify fun k => k.setSock f.ino
          { k.socks f.ino with net := { (k.socks f.ino).net with lport := port } }
      else
        modify fun k =>
          let (p, v) := env.udpAllocPort k.vol
          { k.setSock f.ino { k.socks f.ino with
              net := { (k.socks f.ino).net with lport := p } } with vol := v }
      pure 0
    | _ => throw EINVAL

/-- The descriptor `fd` becomes the open file `f`; what it was is closed. -/
def replaceFd (env : Env V) (l fd : Nat) (f old : OpenFile) (k : K V) : K V :=
  dropRef env old (k.setFd l fd f)

/-- `listen(fd)`. -/
def listen (env : Env V) (l fd : Nat) : Prog V Nat := do
  let f ← getFd l fd
  if f.kind = .listen then pure 0
  else
    let k ← get
    let li ←
      if f.kind = .uSock then
        if (k.usocks f.ino).key = .none then throw EINVAL
        else unixListen (k.usocks f.ino).key (k.usocks f.ino).packet
      else if f.kind = .sock ∧ (k.socks f.ino).net.udp = false then do
        let port ← ensurePort env f.ino
        unixListen (.port port) false
      else throw EOPNOTSUPP
    modify (replaceFd env l (fd % 2 ^ 32) { f with kind := .listen, ino := li } f)
    pure 0

/-- `connect(fd, sa)`. -/
def connect (env : Env V) (l fd : Nat) (sa : SockAddr) : Prog V Nat := do
  let f ← getFd l fd
  let k ← get
  if f.kind = .uSock then
    let key ← unixKey env l sa false
    let c ← unixConnect key (k.usocks f.ino).packet
    modify (replaceFd env l (fd % 2 ^ 32) { f with kind := .unix, ino := c * 2 } f)
    pure 0
  else
    match sa with
    | .inet loopback port =>
      if loopback ∧ f.kind = .sock ∧ (k.socks f.ino).net.udp = false then
        let c ← unixConnect (.port port) false
        modify fun k =>
          let (p, v) := env.udpAllocPort k.vol
          let k := { k with vol := v }
          let k := k.setConn c { k.conns c with port := fun e => if e = 0 then p else port }
          replaceFd env l (fd % 2 ^ 32) { f with kind := .unix, ino := c * 2 } f k
        pure 0
      else
        if f.kind ≠ .sock then throw ENOTSOCK
        let (r, n, v) := env.netConnect (k.socks f.ino).net k.vol
        set { k.setSock f.ino { k.socks f.ino with net := n } with vol := v }
        match r with
        | .ok _ => pure 0
        | .error e => throw e
    | _ => throw EINVAL

/-- `accept(fd, flags)`. -/
def accept (env : Env V) (l fd : Nat) (flags : UInt32) : Prog V Nat := do
  let f ← getFd l fd
  if f.kind ≠ .listen then throw EINVAL
  let c ← unixAccept f.ino (has f.flags O_NONBLOCK)
  onError (install l (openOn .unix (c * 2 + 1) (sockFlags flags) (has flags O_CLOEXEC)) 0)
    (dropRef env (unixEnd c 1))

/-- `unix_read(f, ..)`: descriptors received are closed. -/
def unixReadPlain (env : Env V) (f : OpenFile) (len : Nat) (nonblock : Bool) : Prog V Got := do
  let r ← unixRead (f.ino / 2) (f.ino % 2) len (nonblock || has f.flags O_NONBLOCK)
  modify (dropRefs env r.files)
  pure ⟨r.n, r.data⟩

/-- The open files of the descriptors `fds`, as they are sent. -/
def filesToSend (l : Nat) : List Nat → Prog V (List OpenFile)
  | [] => pure []
  | fd :: fds => do
    let f ← getFd l fd
    let fs ← filesToSend l fds
    pure ({ f with cloexec := false } :: fs)

/-- `unix_send(fd, src, len, fds, nonblock)`. -/
def unixSend (env : Env V) (l fd : Nat) (src : Nat → UInt8) (len : Nat) (fds : List Nat)
    (nonblock : Bool) : Prog V Nat := do
  let f ← getFd l fd
  if f.kind ≠ .unix then throw ENOTSOCK
  if MAX_ATT_FDS < fds.length then throw EINVAL
  let files ← filesToSend l fds
  modify fun k => files.foldl (fun k x => addRef x k) k
  onError (unixWrite (f.ino / 2) (f.ino % 2) src len (nonblock || has f.flags O_NONBLOCK) files)
    (dropRefs env files)

/-- The loop of `unix_recv` over the descriptors received, `room` more of which the caller can
take; the others are closed. -/
def receiveFiles (env : Env V) (l : Nat) (cloexec : Bool) : Nat → List OpenFile → K V →
    List Nat × K V
  | _, [], k => ([], k)
  | 0, x :: xs, k => receiveFiles env l cloexec 0 xs (dropRef env x k)
  | room + 1, x :: xs, k =>
    match install l { x with cloexec := cloexec } 0 k with
    | .ok fd k =>
      let r := receiveFiles env l cloexec room xs k
      (fd :: r.1, r.2)
    | .error _ k => receiveFiles env l cloexec (room + 1) xs (dropRef env x k)

/-- `unix_recv(fd, ..)`, for a caller with room for `room` descriptors. -/
def unixRecv (env : Env V) (l fd len : Nat) (nonblock cloexec : Bool) (room : Nat) :
    Prog V (Got × List Nat × Bool) := do
  let f ← getFd l fd
  if f.kind ≠ .unix then throw ENOTSOCK
  let r ← unixRead (f.ino / 2) (f.ino % 2) len (nonblock || has f.flags O_NONBLOCK)
  let k ← get
  let (fds, k) := receiveFiles env l cloexec room r.files k
  set k
  pure (⟨r.n, r.data⟩, fds, r.trunc)

/-- `shutdown(fd, how)`. -/
def shutdown (l fd how : Nat) : Prog V Nat := do
  let f ← getFd l fd
  match f.kind with
  | .unix => do
    modify (unixShutdown (f.ino / 2) (f.ino % 2) how)
    pure 0
  | .sock | .uSock | .listen => pure 0
  | _ => throw ENOTSOCK

/-! ### Shared memory -/

/-- `shm::create(name)`. -/
def shmCreate (name : Option (List UInt8)) : Prog V Nat := do
  let k ← get
  let i ← position MAX_OBJS (fun i => !(k.shms i).used) ENFILE
  set (k.setShm i { Shm.EMPTY with
    used := true, fdRefs := 1, named := name.isSome, name := (name.getD []).take SHM_NAME_MAX })
  pure (i + 1)

/-- The live object called `name`, by index. -/
@[irreducible] def findNamed (k : K V) (name : List UInt8) : Option Nat :=
  (List.range MAX_OBJS).find? fun i =>
    (k.shms i).used && (k.shms i).named && decide ((k.shms i).name = name)

/-- `shm::truncate(id, 0)`, which has no index to grow. -/
def shmEmpty (id : Nat) (k : K V) : K V :=
  match shmIdx k id with
  | none => k
  | some i => k.setShm i { k.shms i with size := 0 }

/-- `install_shm(l, id, flags)`. -/
def installShm (env : Env V) (l id : Nat) (flags : UInt32) : Prog V Nat :=
  installNew env l (openOn .shm id (flags &&& (O_ACCMODE ||| O_NONBLOCK)) (has flags O_CLOEXEC))

/-- `memfd(cloexec)`. -/
def memfd (env : Env V) (l : Nat) (cloexec : Bool) : Prog V Nat := do
  let id ← shmCreate none
  installShm env l id (O_RDWR ||| if cloexec then O_CLOEXEC else 0)

/-- `shm::unlink(name)`. -/
def shmUnlink (name : List UInt8) : Prog V Nat := do
  let k ← get
  match findNamed k name with
  | none => throw ENOENT
  | some i =>
    set (maybeFree (i + 1) (k.setShm i { k.shms i with named := false }))
    pure 0

/-! ### Opening -/

/-- The devices that have a path (`special`). -/
inductive Dev where
  | null | zero | random | console

/-- `Special::Dev(kind)`. -/
def Dev.kind : Dev → Kind
  | .null => .devNull
  | .zero => .devZero
  | .random => .devRandom
  | .console => .console

/-- What a path turns out to be: `/dev/shm/..`, `/proc/self/fd/N`, a device, a `/proc` text of so
many pages and bytes, or a file of the volume. -/
inductive Target where
  | shm (name : List UInt8)
  | procFd (n : Nat)
  | dev (d : Dev)
  | proc (pages len : Nat)
  | file (path : List UInt8)

/-- `open` of `/dev/shm/name`. -/
def openShm (env : Env V) (l : Nat) (name : List UInt8) (flags : UInt32) : Prog V Nat := do
  let k ← get
  let id ←
    match findNamed k name with
    | some i => do
      -- `open_named` has taken a reference
      set (k.setShm i { k.shms i with fdRefs := (k.shms i).fdRefs + 1 })
      if has flags O_CREAT ∧ has flags O_EXCL then
        modify (shmFdRef (i + 1) (-1))
        throw EEXIST
      pure (i + 1)
    | none => if has flags O_CREAT then shmCreate (some name) else throw ENOENT
  if has flags O_TRUNC then modify (shmEmpty id)
  let drop := shmFdRef id (-1)
  let fd ← onError (installShm env l id flags) drop
  modify drop
  pure fd

/-- `open` of `/proc/self/fd/n`. -/
def openProcFd (env : Env V) (l n : Nat) (flags : UInt32) : Prog V Nat := do
  let f ← getFd l n
  let cloexec := has flags O_CLOEXEC
  let nf := match f.kind with
    | .file | .dir | .shm =>
      openOn f.kind f.ino (flags &&& (O_ACCMODE ||| O_NONBLOCK ||| O_APPEND)) cloexec
    | _ => { f with cloexec := cloexec }
  modify (addRef nf)
  installNew env l nf

/-- `open` of a `/proc` text. -/
def openProc (env : Env V) (l pages len : Nat) (flags : UInt32) : Prog V Nat := do
  let buf ← allocContig ENOSPC
  let k ← get
  let i ← position 128 (fun i => decide ((k.mems i).buf = 0)) ENFILE
  set (k.setMem i ⟨buf, len, 1, pages⟩)
  installNew env l (openOn .mem i (flags &&& O_NONBLOCK) (has flags O_CLOEXEC))

/-- The kind of descriptor an inode gets. -/
def openKind (env : Env V) (ino : Nat) : Prog V Kind := do
  match ← below (env.kindOf ino) with
  | .dir => pure .dir
  | .reg => pure .file
  | .lnk => throw ELOOP
  | .other => throw EINVAL

/-- `open` of the inode `ino`, which may have been created now. -/
def openIno (env : Env V) (l ino : Nat) (created : Bool) (flags : UInt32) : Prog V Nat := do
  let kind ← openKind env ino
  if kind = .dir ∧ has flags O_ACCMODE then throw EISDIR
  if kind ≠ .dir ∧ has flags O_DIRECTORY then throw ENOTDIR
  if kind = .file ∧ has flags O_TRUNC ∧ has flags O_ACCMODE ∧ created = false then
    below (env.truncate ino)
  install l (openOn kind ino (flags &&& (O_ACCMODE ||| O_APPEND ||| O_NONBLOCK))
    (has flags O_CLOEXEC)) 0

/-- `open` of a file of the volume. -/
def openFile (env : Env V) (l at' : Nat) (path : List UInt8) (flags : UInt32) : Prog V Nat :=
  if has flags O_CREAT then do
    let r ← below (env.create at' path (has flags O_EXCL))
    openIno env l r.1 r.2 flags
  else do
    let ino ← below (env.resolveAt at' path (!has flags O_NOFOLLOW))
    openIno env l ino false flags

/-- `open(at, path, flags)`. -/
def openAt (env : Env V) (l at' : Nat) (t : Target) (flags : UInt32) : Prog V Nat :=
  match t with
  | .shm name => openShm env l name flags
  | .procFd n => openProcFd env l n flags
  | .dev d => install l (openOn d.kind 0 (flags &&& (O_ACCMODE ||| O_NONBLOCK))
      (has flags O_CLOEXEC)) 0
  | .proc pages len => openProc env l pages len flags
  | .file path => openFile env l at' path flags

/-! ### Descriptors -/

/-- `close(fd)`. -/
def close (env : Env V) (l fd : Nat) : Prog V Nat := do
  let f ← getFd l fd
  modify (replaceFd env l (fd % 2 ^ 32) FREE f)
  pure 0

/-- `dup_ex(fd, newfd, cloexec)`. -/
def dupEx (env : Env V) (l fd newfd : Nat) (cloexec : Bool) : Prog V Nat := do
  let f ← getFd l fd
  let f := { f with cloexec := cloexec }
  if newfd = 2 ^ 64 - 1 ∨ 2 ^ 32 ≤ newfd then
    let r ← install l f (if newfd = 2 ^ 64 - 1 then 0 else newfd / 2 ^ 32)
    modify (addRef f)
    pure r
  else if MAX_FDS ≤ newfd then throw EBADF
  else if newfd = fd then pure fd
  else
    modify fun k => dropRef env (k.fds l newfd) (addRef f (k.setFd l newfd f))
    pure newfd

/-- The offset of a descriptor after a transfer, unless the call named a position. -/
def moveOff (l fd : Nat) (pos : Option Nat) (off : Nat) (k : K V) : K V :=
  if pos.isNone then k.setFd l fd { k.fds l fd with off := off } else k

/-- `read(fd, .., len, at)`. -/
def read (env : Env V) (l fd len : Nat) (pos : Option Nat) : Prog V Got := do
  let f ← getFd l fd
  let other : Prog V Got := do
    let (n, off) ← below (env.transfer f false len)
    modify (if f.kind = .sock then id else moveOff l (fd % 2 ^ 32) pos off)
    pure (.none n)
  match f.kind with
  | .console | .devNull => pure (.none 0)
  | .devZero | .devRandom => pure (.none (min len (2 ^ 20)))
  | .dir => throw EISDIR
  | .file => if f.flags &&& O_ACCMODE = O_WRONLY then throw EBADF else other
  | .mem | .shm | .sock => other
  | .pipeR => if pos.isSome then throw ESPIPE else pipeRead f.flags f.ino len
  | .unix => unixReadPlain env f len false
  | .event => eventRead f.flags f.ino len
  | .uSock | .listen => throw ENOTCONN
  | .pipeW | .epoll | .free => throw EBADF

/-- `write(fd, src, len, at)`. -/
def write (env : Env V) (l fd : Nat) (src : Nat → UInt8) (len : Nat) (pos : Option Nat) :
    Prog V Nat := do
  let f ← getFd l fd
  let other : Prog V Nat := do
    let (n, off) ← below (env.transfer f true len)
    modify (if f.kind = .sock then id else moveOff l (fd % 2 ^ 32) pos off)
    pure n
  match f.kind with
  | .console | .devNull | .devZero | .devRandom => pure len
  | .mem => throw EBADF
  | .dir => throw EISDIR
  | .file => if f.flags &&& O_ACCMODE = 0 then throw EBADF else other
  | .shm | .sock => other
  | .pipeW => if pos.isSome then throw ESPIPE else pipeWrite f.flags f.ino src len
  | .unix => unixWrite (f.ino / 2) (f.ino % 2) src len (has f.flags O_NONBLOCK) []
  | .event => eventWrite f.ino src len
  | .uSock | .listen => throw ENOTCONN
  | .pipeR | .epoll | .free => throw EBADF

/-! ### Processes -/

/-- The whole table of slot `l`. -/
def K.row (k : K V) (l : Nat) : List OpenFile := (List.range MAX_FDS).map (k.fds l)

/-- `release(l)`: the process of slot `l` is over. -/
def release (env : Env V) (l : Nat) (k : K V) : K V :=
  dropRefs env (k.row l) { k with
    fds := Function.update k.fds l DEFAULT_TABLE, cwd := Function.update k.cwd l 2 }

/-- `clone_table(src, dst)` and the current directory, as fork does it. -/
def cloneTable (src dst : Nat) (k : K V) : K V :=
  let t := k.fds src
  let k := (k.row src).foldl (fun k f => addRef f k) k
  { k with fds := Function.update k.fds dst t, cwd := Function.update k.cwd dst (k.cwd src) }

/-- `exec_cleanup(l)` over the descriptors `fds`. -/
def execCleanupFrom (env : Env V) (l : Nat) : List Nat → K V → K V
  | [], k => k
  | fd :: fds, k =>
    let f := k.fds l fd
    execCleanupFrom env l fds
      (if f.kind ≠ .free ∧ f.cloexec = true then replaceFd env l fd FREE f k else k)

/-- `exec_cleanup(l)`. -/
def execCleanup (env : Env V) (l : Nat) : K V → K V := execCleanupFrom env l (List.range MAX_FDS)

end Pulsar.Kernel

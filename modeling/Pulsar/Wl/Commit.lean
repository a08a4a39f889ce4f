import Pulsar.Wl.Input

/-!
# Contents of surfaces (`wlclient/main.c`)

A commit copies what the program attached: for the toplevel to the window, or to `base` while the
window has children; for the others to a copy of their own.  `present` composes what changed, gives
it to the window server, and answers the frame callbacks.
-/

namespace Pulsar.Wl

/-! ### Pools -/

def munmap (base size : Nat) : W Unit := do
  if (base, size) ∈ (← get).shm.maps then
    modify fun s => { s with shm.maps := s.shm.maps.erase (base, size) }
  else throw (.fault .memory)

def closeFd (fd : Nat) : W Unit := do
  if fd ∈ (← get).shm.fds then modify fun s => { s with shm.fds := s.shm.fds.erase fd }
  else throw (.fault .memory)

/-- `close(fd)`, if there is one. -/
def closeSome : Option Nat → W Unit
  | none => pure ()
  | some fd => closeFd fd

/-- An edit of what the entry has as a pool. -/
def editPool (i : Nat) (f : Pool → Pool) : W Unit := edit i fun o => { o with pool := f o.pool }

/-- `release_pool(pool)`. -/
def releasePool (i : Nat) : W Unit := do
  let o ← obj i
  whenever (o.pool.base ≠ 0) (munmap o.pool.base o.pool.size)
  closeSome o.pool.fd
  editPool i fun p => { p with base := 0, fd := none }

/-! ### Commits -/

/-- `attach(NULL)`. -/
def unmapSurface (i : Nat) : W Unit := do
  let o ← obj i
  whenever (o.srf.role ≠ .toplevel) (damageSurface i)
  editSrf i fun o => { o with mapped := false }

/-- A buffer that is committed: where its pixels are, and the size of its pool. -/
structure Source where
  w : Int
  h : Int
  stride : Nat
  fmt : Nat
  /-- the first byte in the pool, if the buffer fits in it -/
  src : Option Nat
  size : Nat

/-- The pool of a buffer. -/
def Client.poolOf (s : Client) (b : Buffer) : Pool := (b.pool.map s.objs).elim Obj.zero.pool Obj.pool

/-- The buffer in an entry. -/
def Client.source (s : Client) (i : Nat) : Source :=
  let b := (s.objs i).buf
  let p := s.poolOf b
  { w := b.w, h := b.h, stride := b.stride, fmt := b.fmt
    src := if p.base ≠ 0 ∧ b.offset + b.stride * b.h ≤ p.size then some b.offset else none
    size := p.size }

/-- The surface has the size of the buffer and is mapped. -/
def Surface.Sized (o : Surface) (q : Source) : Prop := o.sw = q.w ∧ o.sh = q.h ∧ o.mapped = true

instance (o : Surface) (q : Source) : Decidable (o.Sized q) :=
  inferInstanceAs (Decidable (_ ∧ _ ∧ _))

/-- What of the buffer is copied: the declared damage, or all of it. -/
def Surface.region (o : Surface) (q : Source) : Box :=
  if o.Sized q ∧ o.dmg.x1 > o.dmg.x0 then
    ⟨max o.dmg.x0 0, max o.dmg.y0 0, min o.dmg.x1 q.w, min o.dmg.y1 q.h⟩
  else ⟨0, 0, q.w, q.h⟩

/-- The window is made with the first contents of the toplevel. -/
def openApp (x : Ext) : W Unit := do
  let s ← get
  whenever (s.win.haveApp = false) do
    let w : Int := x.hello.1
    let h : Int := x.hello.2
    modify fun s => { s with
      win.haveApp := true, win.w := w, win.h := h, win.cfgW := w, win.cfgH := h }

/-- The loop that makes a window white. -/
def whiten (m : Mem) (stride w h : Int) : W Mem :=
  (List.range h.toNat).foldlM (fun m (y : Nat) => m.write (y * stride) w fun _ _ => 0xFFFFFF) m

/-- The memory that shows the toplevel: `base` if it is used, else the window. -/
def target (useBase : Bool) : W Mem := do
  let s ← get
  if useBase then deref s.scene.base else pure s.screen

def setTarget (useBase : Bool) (m : Mem) : W Unit :=
  if useBase then modify fun s => { s with scene.base := some m }
  else modify fun s => { s with scene.fb := m.px }

/-- The region of a buffer of the toplevel in the window. -/
def Surface.clip (o : Surface) (r : Box) (win : Window) : Box :=
  ⟨max (i32 (r.x0 - o.geom.1)) 0, max (i32 (r.y0 - o.geom.2)) 0,
    min (i32 (r.x1 - o.geom.1)) win.w, min (i32 (r.y1 - o.geom.2)) win.h⟩

/-- The row length of the memory that shows the toplevel. -/
def Client.stride (s : Client) (useBase : Bool) : Int := if useBase then s.scene.baseW else SURF_W

/-- A window of a new size is white where the buffer does not cover it. -/
def clearTarget (useBase : Bool) : W Unit := do
  let s ← get
  let m ← target useBase
  let m ← whiten m (s.stride useBase) s.win.w s.win.h
  setTarget useBase m

/-- The pixels of a buffer of the toplevel, whose first byte is `src`. -/
def copyToplevel (x : Ext) (o : Surface) (q : Source) (c : Box) (useBase : Bool) (src : Nat) :
    W Unit := do
  let s ← get
  let m ← target useBase
  let m ← copyRows x m (s.stride useBase) c.x0 c.y0 src q.size q.stride
    (i32 (c.x0 + o.geom.1)) (i32 (c.y0 + o.geom.2)) (c.x1 - c.x0) (c.y1 - c.y0)
    (q.fmt = 0 && !o.opq)
  setTarget useBase m
  whenever (useBase = false) (modify fun s => { s with scene.baseValid := false })

/-- `ensure_base()` while the window has children. -/
def ensureKids (x : Ext) : W Bool := do
  let s ← get
  whenever s.hasChildren (ensureBase x)
  return s.hasChildren && (← get).scene.baseValid

/-- A commit of the toplevel. -/
def commitToplevel (x : Ext) (i : Nat) (q : Source) : W Unit := do
  openApp x
  let o ← obj i
  let o := o.srf
  let useBase ← ensureKids x
  let s ← get
  let c := o.clip (o.region q) s.win
  whenever (¬ o.Sized q) (clearTarget useBase)
  whenever (q.src.isSome ∧ c.x0 < c.x1 ∧ c.y0 < c.y1)
    (copyToplevel x o q c useBase (q.src.getD 0))
  if o.Sized q then winDamage c.x0 c.y0 (i32 (c.x1 - c.x0)) (i32 (c.y1 - c.y0))
  else winDamage 0 0 s.win.w s.win.h
  editSrf i fun o => { o with sw := q.w, sh := q.h, mapped := true }

/-- The copy of a surface is made anew. -/
def Surface.Resized (o : Surface) (q : Source) : Prop := o.st.isNone = true ∨ o.sw ≠ q.w ∨ o.sh ≠ q.h

instance (o : Surface) (q : Source) : Decidable (o.Resized q) :=
  inferInstanceAs (Decidable (_ ∨ _ ∨ _))

/-- The copy of a subsurface or popup that has a new size. -/
def resizeCopy (x : Ext) (i : Nat) (q : Source) : W Unit := do
  damageSurface i
  editSrf i fun o => { o with
    st := if x.allocSt then some ⟨(q.w * q.h).toNat, fun _ => 0⟩ else none, sw := q.w, sh := q.h }

/-- What of a buffer comes to the copy of a surface. -/
def Surface.patch (o : Surface) (q : Source) : Box :=
  if o.Resized q then ⟨0, 0, q.w, q.h⟩ else o.region q

/-- The pixels of a buffer of a subsurface or popup, if there is a copy. -/
def copyChild (x : Ext) (i : Nat) (q : Source) (r : Box) (src : Nat) : W Unit := do
  let o ← obj i
  match o.srf.st with
  | none => pure ()
  | some m =>
    let m ← copyRows x m q.w r.x0 r.y0 src q.size q.stride r.x0 r.y0 (r.x1 - r.x0) (r.y1 - r.y0)
      false
    editSrf i fun o => { o with st := some m }

/-- The damage of a commit of a subsurface or popup; `patched` if it only changed in `r`. -/
def damageChild (x : Ext) (i : Nat) (q : Source) (r : Box) (patched : Bool) : W Unit := do
  let s ← get
  whenever (s.visible i) do
    whenever s.win.haveApp (ensureBase x)
    let a := s.absPos i
    if patched then winDamage (i32 (a.1 + r.x0)) (i32 (a.2 + r.y0)) (r.x1 - r.x0) (r.y1 - r.y0)
    else winDamage a.1 a.2 q.w q.h

/-- A commit of a subsurface or popup. -/
def commitChild (x : Ext) (i : Nat) (q : Source) : W Unit := do
  let s ← get
  let o := (s.objs i).srf
  let r := o.patch q
  whenever (o.Resized q) (resizeCopy x i q)
  whenever (q.src.isSome ∧ r.x0 < r.x1 ∧ r.y0 < r.y1) (copyChild x i q r (q.src.getD 0))
  editSrf i fun o => { o with alpha := q.fmt = 0 && !o.opq, mapped := true }
  damageChild x i q r (o.mapped && s.visible i && ¬ o.Resized q)

/-- A commit with a buffer. -/
def commitContents (x : Ext) (i : Nat) (q : Source) : Role → W Unit
  | .toplevel => commitToplevel x i q
  | .sub => commitChild x i q
  | .popup => commitChild x i q
  | .none => pure ()

def commitBuffer (x : Ext) (i b : Nat) : W Unit := do
  let s ← get
  commitContents x i (s.source b) (s.objs i).srf.role
  ev .buffer (s.objs b).id 0 []

def MAXPEND : Nat := 64

/-- A frame callback is done. -/
def frameDone (now cb : Nat) : W Unit := ev .callback cb 0 [.word now]

/-- A frame callback that is committed waits for the frame, if there is room. -/
def pendCallback (x : Ext) (cb : Nat) : W Unit := do
  if (← get).scene.pendCbs.length < MAXPEND then
    modify fun s => { s with scene.pendCbs := s.scene.pendCbs ++ [cb] }
  else
    frameDone x.now cb
    deleteId cb

/-- The frame callbacks of a surface that is committed. -/
def commitCallbacks (x : Ext) (i : Nat) : W Unit := do
  let o ← obj i
  o.srf.cbs.forM (pendCallback x)
  editSrf i fun o => { o with cbs := [] }

/-- The part of `surface_commit` about what was attached. -/
def commitAttached (x : Ext) (i : Nat) : W Unit := do
  editSrf i fun o => { o with attached := false }
  let s ← get
  match (s.find (s.objs i).ref).filter fun b => (s.objs b).type = .buffer with
  | none => unmapSurface i
  | some b => commitBuffer x i b

/-- `surface_commit(s)`. -/
def surfaceCommit (x : Ext) (i : Nat) : W Unit := do
  let o ← obj i
  whenever o.srf.attached (commitAttached x i)
  editSrf i fun o => { o with dmg := Box.none }
  commitCallbacks x i

/-! ### Frames -/

/-- The window server is told what changed. -/
def showWindow (x : Ext) (c : Box) : W Unit := do
  let s ← get
  whenever s.scene.baseValid (compose c)
  modify fun s => { s with scene.wd := Box.none }
  whenever (c.x0 < c.x1 ∧ c.y0 < c.y1) (pumpWm x x.commit)

/-- The part of `present` about the window. -/
def presentWindow (x : Ext) : W Unit := do
  let s ← get
  let d := s.scene.wd
  whenever (d.x1 > d.x0 ∧ s.win.haveApp)
    (showWindow x ⟨max d.x0 0, max d.y0 0, min d.x1 s.win.w, min d.y1 s.win.h⟩)

/-- The object of a callback ends, if there is one. -/
def freeCallback (cb : Nat) : W Unit := do
  match (← get).find cb with
  | none => pure ()
  | some i => edit i fun o => { o with type := .free }

/-- A callback is answered, and its object ends. -/
def endCallback (now cb : Nat) : W Unit := do
  frameDone now cb
  freeCallback cb
  deleteId cb
  ensureRoom

/-- `present()`. -/
def present (x : Ext) : W Unit := do
  presentWindow x
  let s ← get
  s.scene.pendCbs.forM (endCallback x.now)
  modify fun s => { s with scene.pendCbs := [] }

end Pulsar.Wl

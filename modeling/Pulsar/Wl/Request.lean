import Pulsar.Wl.Commit

/-!
# Requests of the program (`wlclient/main.c`)

`request` does what a message asks of the object that it is for.  A request that makes an object
takes an entry of the table, `destroy` frees it.
-/

namespace Pulsar.Wl

/-! ### Popups -/

/-- Left and right changed in an anchor or a gravity, and top and bottom. -/
def flipX (n : Nat) : Nat := [0, 1, 2, 4, 3, 7, 8, 5, 6].getD n 0
def flipY (n : Nat) : Nat := [0, 2, 1, 3, 4, 6, 5, 8, 7].getD n 0

/-- The remainder that C gives, or zero where it is negative. -/
def edge (v : Int) : Nat := (v.tmod 9).toNat

/-- `popup_xy`. -/
def popupXy (p : Nat → Int) (fx fy : Bool) (w h : Int) : Int × Int :=
  let an := edge (p 6)
  let gr := edge (p 7)
  let (an, gr) := if fx then (flipX an, flipX gr) else (an, gr)
  let (an, gr) := if fy then (flipY an, flipY gr) else (an, gr)
  let x := if an ∈ [3, 5, 6] then p 2 else if an ∈ [4, 7, 8] then p 2 + p 4 else p 2 + (p 4).tdiv 2
  let y := if an ∈ [1, 5, 7] then p 3 else if an ∈ [2, 6, 8] then p 3 + p 5 else p 3 + (p 5).tdiv 2
  let x := x + if fx then -p 9 else p 9
  let y := y + if fy then -p 10 else p 10
  let x := if gr ∈ [3, 5, 6] then x - w else if gr ∈ [4, 7, 8] then x else x - w.tdiv 2
  let y := if gr ∈ [1, 5, 7] then y - h else if gr ∈ [2, 6, 8] then y else y - h.tdiv 2
  (i32 x, i32 y)

/-- A bit of the adjustment that a positioner allows. -/
def adjusts (v : Int) (bit : Nat) : Bool := (v % 2 ^ 32).toNat.testBit bit

/-- An axis of `place_popup`: where it goes if it does not fit, `flipped` if it can, else slid. -/
def fitAxis (origin size extent at_ flipped : Int) (mayFlip : Bool) : Int :=
  let at_ :=
    if mayFlip = true ∧ (origin + at_ < 0 ∨ origin + at_ + size > extent) ∧
      (origin + flipped ≥ 0 ∧ origin + flipped + size ≤ extent) then flipped else at_
  let at_ := if origin + at_ + size > extent then extent - size - origin else at_
  if origin + at_ < 0 then -origin else at_

/-- The origin of the geometry of the parent of a popup. -/
def Client.parentOrigin (s : Client) (parent : Nat) : Int × Int :=
  match s.surf parent with
  | none => (0, 0)
  | some j =>
    let g := (s.objs j).srf.geom
    ((s.absPos j).1 + g.1, (s.absPos j).2 + g.2)

/-- `place_popup(s, p)`. -/
def placePopup (i : Nat) (p : Nat → Int) : W Unit := do
  let s ← get
  let o := (s.objs i).srf
  let w := if p 0 > 0 then p 0 else 1
  let h := if p 1 > 0 then p 1 else 1
  let origin := s.parentOrigin o.parent
  let at_ := popupXy p false false w h
  let x := i32 (fitAxis origin.1 w s.win.w at_.1 (popupXy p true false w h).1 (adjusts (p 8) 2))
  let y := i32 (fitAxis origin.2 h s.win.h at_.2 (popupXy p false true w h).2 (adjusts (p 8) 3))
  editSrf i fun o => { o with px := x, py := y }
  ev .popup o.roleobj 0 [word x, word y, word w, word h]
  let n ← nextSerial
  ev .xdgsurf o.xdg 0 [.word n]

/-! ### The end of objects -/

/-- A surface loses its role. -/
def Surface.unrole (o : Surface) : Surface :=
  { o with role := .none, mapped := false, roleobj := 0, grab := false }

/-- The entry is freed. -/
def freeEntry (i : Nat) : W Unit := do
  let o ← obj i
  edit i fun o => { o with type := .free }
  deleteId o.id

/-- A pool that nothing uses any more ends. -/
def endPool (p : Nat) : W Unit := do
  releasePool p
  edit p fun o => { o with type := .free }

/-- The pool of a buffer that ends. -/
def dropBuffer (p : Nat) : W Unit := do
  let o ← obj p
  whenever (o.type = .pool) do
    editPool p fun q => { q with refs := q.refs - 1 }
    whenever (o.pool.refs - 1 ≤ 0 ∧ o.pool.dead) (endPool p)

/-- The role object of a surface ends. -/
def dropRole (i : Nat) : W Unit := do
  let s ← get
  match (s.surf (s.objs i).ref).filter fun j => (s.objs j).srf.roleobj = (s.objs i).id with
  | none => pure ()
  | some j =>
    damageSurface j
    editSrf j Surface.unrole

/-- A pool whose buffers live: only its name goes. -/
def orphanPool (i : Nat) : W Unit := do
  let o ← obj i
  deleteId o.id
  edit i fun o => { o with id := 0 }

def destroyPool (i : Nat) : W Unit := do
  editPool i fun p => { p with dead := true }
  let o ← obj i
  if o.pool.refs > 0 then orphanPool i
  else
    releasePool i
    freeEntry i

/-- The pool of a buffer, if it has one. -/
def dropPool : Option Nat → W Unit
  | none => pure ()
  | some p => dropBuffer p

def destroyBuffer (i : Nat) : W Unit := do
  let o ← obj i
  dropPool o.buf.pool
  freeEntry i

def destroySurface (i : Nat) : W Unit := do
  let o ← obj i
  whenever (o.srf.role ≠ .toplevel) (damageSurface i)
  editSrf i fun o => { o with st := none }
  freeEntry i

def destroyPopup (i : Nat) : W Unit := do
  dropRole i
  kbRefocus
  freeEntry i

def destroySubsurf (i : Nat) : W Unit := do
  dropRole i
  freeEntry i

/-- `destroy(o)`. -/
def destroy (i : Nat) : W Unit := do
  let o ← obj i
  match o.type with
  | .pool => destroyPool i
  | .buffer => destroyBuffer i
  | .surface => destroySurface i
  | .popup => destroyPopup i
  | .subsurf => destroySubsurf i
  | _ => freeEntry i

/-! ### Requests -/

/-- The globals: interface and version. -/
def GLOBALS : List (String × Kind × Nat) :=
  [("wl_compositor", .compositor, 4), ("wl_shm", .shm, 1), ("xdg_wm_base", .wmbase, 2),
    ("wl_seat", .seat, 5), ("wl_output", .output, 2), ("wl_subcompositor", .subcomp, 1),
    ("wl_data_device_manager", .ddm, 3), ("org_kde_kwin_server_decoration_manager", .decomgr, 1)]

/-- A text argument. -/
def text (t : String) : Arg := .text t.utf8ByteSize

/-- The bytes of a text. -/
def bytesOf (t : String) : List UInt8 := t.toByteArray.data.toList

/-- What a global tells about itself when it is bound. -/
def greet (x : Ext) (id version : Nat) : Kind → W Unit
  | .shm => do
    ev .shm id 0 [.word 0]
    ev .shm id 0 [.word 1]
  | .seat => do
    ev .seat id 0 [.word 3]
    whenever (version ≥ 2) (ev .seat id 1 [text "seat0"])
  | .output => do
    modify fun s => { s with win.outW := x.screen.1, win.outH := x.screen.2 }
    ev .output id 0
      [.word 0, .word 0, .word 340, .word 215, .word 0, text "Pulsar", text "Tela", .word 0]
    ev .output id 1 [.word 3, .word x.screen.1, .word x.screen.2, .word 60000]
    whenever (version ≥ 2) do
      ev .output id 3 [.word 1]
      ev .output id 2 []
  | .decomgr => ev .decomgr id 0 [.word 2]
  | _ => pure ()

/-- `bind_global(name, iface, version, id)`. -/
def bindGlobal (x : Ext) (name : Nat) (iface : List UInt8) (version id : Nat) : W Unit := do
  match (GLOBALS[name - 1]?).filter fun g => 1 ≤ name ∧ iface = bytesOf g.1 with
  | none => protocolError 1 0
  | some g =>
    let r ← add id g.2.1 (min version g.2.2)
    whenever (r = none) (protocolError 1 2)
    greet x id (min version g.2.2) g.2.1

def displayRequest (op : Nat) : W Unit := do
  match op with
  | 0 =>
    let cb ← aU32
    let n ← nextSerial
    ev .callback cb 0 [.word n]
    deleteId cb
  | 1 =>
    let id ← aU32
    let _ ← add id .registry 1
    GLOBALS.zipIdx.forM fun g => ev .registry id 0 [.word (g.2 + 1), text g.1.1, .word g.1.2.2]
  | _ => protocolError 1 1

def registryRequest (x : Ext) (op : Nat) : W Unit := do
  match op with
  | 0 =>
    let name ← aU32
    let iface ← aStr
    let version ← aU32
    let id ← aU32
    bindGlobal x name iface version id
  | _ => pure ()

/-- A request whose first argument is an object that it makes. -/
def makes (type : Kind) (version : Nat) : W Unit := do
  let id ← aU32
  let _ ← add id type version
  pure ()

def compositorRequest (o : Obj) (op : Nat) : W Unit :=
  match op with
  | 0 => makes .surface o.version
  | 1 => makes .region 1
  | _ => pure ()

/-- `add` and `subtract` of a region. -/
def regionBox (i : Nat) (refs : Int) : W Unit := do
  let _ ← aI32
  let _ ← aI32
  let w ← aI32
  let h ← aI32
  whenever (0 < w ∧ 0 < h) (editPool i fun p => { p with refs := refs })

def regionRequest (i op : Nat) : W Unit :=
  match op with
  | 0 => destroy i
  | 1 => regionBox i 1
  | 2 => regionBox i 0
  | _ => pure ()

/-- The mapping of a pool; `o` is the object that is told when there is none. -/
def mapPool (x : Ext) (o : Obj) (p size : Nat) : W Unit := do
  match x.mmap with
  | none => protocolError o.id 2
  | some b =>
    modify fun s => { s with shm.maps := (b, size) :: s.shm.maps }
    editPool p fun q => { q with base := b, size := size }

def shmRequest (x : Ext) (o : Obj) (op : Nat) : W Unit := do
  match op with
  | 0 =>
    let id ← aU32
    let fd ← takeFd
    let size ← aI32
    match ← add id .pool 1 with
    | none => protocolError o.id 0
    | some p =>
      whenever (size ≤ 0) (protocolError o.id 0)
      editPool p fun q => { q with fd := some fd, size := size.toNat, shm := x.shm }
      mapPool x o p size.toNat
  | _ => pure ()

/-- `create_buffer`. -/
def createBuffer (i : Nat) (o : Obj) : W Unit := do
  let id ← aU32
  match ← add id .buffer 1 with
  | none => protocolError 1 2
  | some b =>
    let offset ← aU32
    let w ← aU32
    let h ← aU32
    let stride ← aU32
    let fmt ← aU32
    edit b fun q => { q with ref := o.id, buf := ⟨some i, offset, w, h, stride, fmt⟩ }
    editPool i fun p => { p with refs := p.refs + 1 }
    whenever (fmt > 1 ∨ stride < w * 4 % 2 ^ 32 ∨ w > 8192 ∨ h > 8192) (protocolError o.id 0)

/-- `resize` of a pool. -/
def resizePool (x : Ext) (i : Nat) (o : Obj) : W Unit := do
  let size ← aU32
  whenever (size > o.pool.size) do
    munmap o.pool.base o.pool.size
    mapPool x o i size

def poolRequest (x : Ext) (i : Nat) (o : Obj) (op : Nat) : W Unit :=
  match op with
  | 0 => createBuffer i o
  | 1 => destroy i
  | 2 => resizePool x i o
  | _ => pure ()

/-- A coordinate of damage is kept small. -/
def clampDamage (v : Int) : Int := if v < -16384 then -16384 else if v > 16384 then 16384 else v

/-- `damage` and `damage_buffer`. -/
def damageRequest (i : Nat) : W Unit := do
  let x ← aI32
  let y ← aI32
  let w ← aI32
  let h ← aI32
  whenever (0 < w ∧ 0 < h) (editSrf i fun o => { o with
    dmg := o.dmg.add (clampDamage x) (clampDamage y) (min w 16384) (min h 16384) })

/-- A region with something in it, or a region with nothing. -/
def Client.regionIs (s : Client) (id : Nat) (p : Int → Bool) : Bool :=
  (s.find id).any fun r => (s.objs r).type = .region && p (s.objs r).pool.refs

/-- `frame(callback)`. -/
def frameRequest (i : Nat) : W Unit := do
  let cb ← aU32
  let _ ← add cb .callback 1
  editSrf i fun o => { o with cbs := if o.cbs.length < 16 then o.cbs ++ [cb] else o.cbs }

def surfaceRequest (x : Ext) (i op : Nat) : W Unit := do
  match op with
  | 0 => destroy i
  | 1 =>
    let buf ← aU32
    edit i fun o => { o with ref := buf, srf.attached := true }
  | 2 => damageRequest i
  | 9 => damageRequest i
  | 3 => frameRequest i
  | 4 =>
    let r ← aU32
    let s ← get
    editSrf i fun o => { o with opq := s.regionIs r (· > 0) }
  | 5 =>
    let r ← aU32
    let s ← get
    editSrf i fun o => { o with noInput := r ≠ 0 && s.regionIs r (· = 0) }
  | 6 => surfaceCommit x i
  | _ => pure ()

/-- The next number for the order of surfaces. -/
def nextZ : W Int := do
  let z := (← get).scene.zcount
  modify fun s => { s with scene.zcount := i32 (z + 1) }
  return z

/-- A role object of the surface with identifier `sid`; the table may be full. -/
def addRole (id : Nat) (type : Kind) (version sid : Nat) : W Unit := do
  let r ← add id type version
  let r ← deref r
  edit r fun q => { q with ref := sid }

/-- `get_subsurface(id, surface, parent)`. -/
def getSubsurface (o : Obj) : W Unit := do
  let id ← aU32
  let sid ← aU32
  let pid ← aU32
  let s ← get
  match s.surf sid, s.surf pid with
  | some j, some k =>
    whenever (j = k ∨ (s.objs j).srf.role ≠ .none) (protocolError o.id 0)
    addRole id .subsurf 1 sid
    let z ← nextZ
    editSrf j fun q => { q with
      role := .sub, parent := pid, roleobj := id, z := z, px := 0, py := 0 }
  | _, _ => protocolError o.id 0

def subcompRequest (i : Nat) (o : Obj) (op : Nat) : W Unit :=
  match op with
  | 0 => destroy i
  | 1 => getSubsurface o
  | _ => pure ()

/-- `set_position`. -/
def setPosition (j : Nat) : W Unit := do
  let x ← aI32
  let y ← aI32
  damageSurface j
  editSrf j fun o => { o with px := x, py := y }
  damageSurface j

/-- Where `place_below` the parent puts a subsurface. -/
def BELOW : Int := -0x7ffffff0

/-- `place_above` and `place_below`. -/
def Client.restacked (s : Client) (j k : Nat) (above : Bool) : Int :=
  let z := s.zOf k
  if above = false ∧ (s.objs k).id = (s.objs j).srf.parent then BELOW
  else if k = j then z
  else i32 (if above then z + 1 else z - 1)

def restack (j : Nat) (above : Bool) : W Unit := do
  let sib ← aU32
  let s ← get
  let z := (s.surf sib).elim (s.zOf j) fun k => s.restacked j k above
  editSrf j fun o => { o with z := z }
  damageSurface j

/-- A request of the role object of surface `j`. -/
def subsurfOp (j : Nat) : Nat → W Unit
  | 1 => setPosition j
  | 2 => restack j true
  | 3 => restack j false
  | _ => pure ()

/-- What is done with an entry, if there is one. -/
def withSome (f : Nat → W Unit) : Option Nat → W Unit
  | none => pure ()
  | some j => f j

/-- What is done with a surface, if it is there. -/
def withSurf (id : Nat) (f : Nat → W Unit) : W Unit := do
  let s ← get
  withSome f (s.surf id)

def subsurfRequest (i : Nat) (o : Obj) (op : Nat) : W Unit :=
  if op = 0 then destroy i else withSurf o.ref fun j => subsurfOp j op

def wmbaseRequest (i : Nat) (o : Obj) (op : Nat) : W Unit := do
  match op with
  | 0 => destroy i
  | 1 => makes .positioner 1
  | 2 =>
    let id ← aU32
    let r ← add id .xdgsurf o.version
    let sid ← aU32
    match r, (← get).surf sid with
    | some r, some j =>
      edit r fun q => { q with ref := sid }
      editSrf j fun q => { q with xdg := id }
    | _, _ => protocolError o.id 0
  | 3 =>
    let _ ← aU32
    pure ()
  | _ => pure ()

/-- The numbers of a positioner from `k` on are set. -/
def setPos (i : Nat) : Nat → Nat → W Unit
  | _, 0 => pure ()
  | k, n + 1 => do
    let v ← aI32
    edit i fun o => { o with pos := Function.update o.pos k v }
    setPos i (k + 1) n

def positionerRequest (i op : Nat) : W Unit :=
  match op with
  | 0 => destroy i
  | 1 => setPos i 0 2
  | 2 => setPos i 2 4
  | 3 => setPos i 6 1
  | 4 => setPos i 7 1
  | 5 => setPos i 8 1
  | 6 => setPos i 9 2
  | _ => pure ()

/-- The surface becomes the window. -/
def becomeToplevel (id xdg j : Nat) : W Unit := do
  let o ← obj j
  modify fun s => { s with
    win.topLevel := id, win.topXdg := xdg, win.topSurface := o.id, win.cfgW := 0, win.cfgH := 0 }
  editSrf j fun q => { q with role := .toplevel, roleobj := id }
  sendConfigure

/-- `get_toplevel`. -/
def getToplevel (o : Obj) : W Unit := do
  let id ← aU32
  let s ← get
  addRole id .toplevel o.version o.ref
  whenever (s.win.topLevel = 0) (withSome (becomeToplevel id o.id) (s.surf o.ref))

/-- The surface becomes a popup with the positioner in entry `p`. -/
def becomePopup (id j p parent : Nat) : W Unit := do
  let z ← nextZ
  editSrf j fun q => { q with
    role := .popup, roleobj := id, z := z, mapped := false, parent := parent }
  let o ← obj p
  placePopup j o.pos

/-- The surface of an `xdg_surface`, or else the window. -/
def Client.popupParent (s : Client) (xdg : Nat) : Nat :=
  match (s.find xdg).filter fun k => (s.objs k).type = .xdgsurf with
  | none => s.win.topSurface
  | some k => (s.objs k).ref

/-- `get_popup`. -/
def getPopup (o : Obj) : W Unit := do
  let id ← aU32
  let px ← aU32
  let pos ← aU32
  let s ← get
  match s.surf o.ref, s.find pos with
  | some j, some p =>
    whenever ((s.objs p).type ≠ .positioner ∨ (s.objs j).srf.role ≠ .none) (protocolError o.id 0)
    let r ← add id .popup o.version
    match r with
    | none => protocolError 1 2
    | some r =>
      edit r fun q => { q with ref := o.ref }
      becomePopup id j p (s.popupParent px)
  | _, _ => protocolError o.id 0

/-- `set_window_geometry`. -/
def setGeometry (j : Nat) : W Unit := do
  let x ← aI32
  let y ← aI32
  let w ← aI32
  let h ← aI32
  whenever (0 < w ∧ 0 < h) (editSrf j fun q => { q with gx := x, gy := y, gw := w, gh := h })

def xdgsurfRequest (i : Nat) (o : Obj) (op : Nat) : W Unit :=
  match op with
  | 0 => destroy i
  | 1 => getToplevel o
  | 2 => getPopup o
  | 3 => withSurf o.ref setGeometry
  | _ => pure ()

/-- `grab` of a popup. -/
def grabPopup (j : Nat) : W Unit := do
  let _ ← aU32
  let _ ← aU32
  editSrf j fun q => { q with grab := true }
  kbRefocus

def popupRequest (i : Nat) (o : Obj) (op : Nat) : W Unit :=
  match op with
  | 0 => destroy i
  | 1 => withSurf o.ref grabPopup
  | _ => pure ()

/-- The surface of the toplevel with identifier `id` loses its role. -/
def unroleToplevel (id j : Nat) : W Unit := do
  let o ← obj j
  whenever (o.srf.roleobj = id)
    (editSrf j fun q => { q with role := .none, mapped := false, roleobj := 0 })

/-- The window is closed at once; the program may stay. -/
def closeToplevel (i : Nat) (o : Obj) : W Unit := do
  withSurf o.ref (unroleToplevel o.id)
  modify fun s => { s with win.haveApp := false }
  destroy i

def toplevelRequest (i : Nat) (o : Obj) (op : Nat) : W Unit := do
  match op with
  | 0 => closeToplevel i o
  | 2 =>
    let t ← aStr
    modify fun s => { s with win.title := t.take 31 }
  | 3 =>
    let t ← aStr
    modify fun s => { s with win.appId := t.take 31 }
  | _ => pure ()

/-- `send_keymap_to(kbd)`: nothing if the file is not there. -/
def sendKeymapTo (x : Ext) (kbd : Nat) : W Unit := do
  match x.keymap with
  | none => pure ()
  | some size =>
    let s ← get
    whenever (s.out.fds < 7) do
      modify fun s => { s with out.fds := s.out.fds + 1 }
      ev .keyboard kbd 0 [.word 1, .word size]

/-- `get_pointer`. -/
def getPointer (o : Obj) : W Unit := do
  let id ← aU32
  modify fun s => { s with dev.pointerId := id }
  let _ ← add id .pointer o.version
  modify fun s => { s with dev.ptrs := devAdd s.dev.ptrs id }

/-- `enter` of a keyboard that is new. -/
def enterNew (kbd surface : Nat) : W Unit := do
  let n ← nextSerial
  ev .keyboard kbd 1 [.word n, .word surface, .array []]

/-- `get_keyboard`. -/
def getKeyboard (x : Ext) (o : Obj) : W Unit := do
  let id ← aU32
  modify fun s => { s with dev.keyboardId := id }
  let _ ← add id .keyboard o.version
  modify fun s => { s with dev.kbds := devAdd s.dev.kbds id }
  sendKeymapTo x id
  whenever (o.version ≥ 4) (ev .keyboard id 5 [.word 25, .word 600])
  let s ← get
  whenever (s.dev.kbSurf ≠ 0) (enterNew id s.dev.kbSurf)

def seatRequest (x : Ext) (o : Obj) (op : Nat) : W Unit :=
  match op with
  | 0 => getPointer o
  | 1 => getKeyboard x o
  | _ => pure ()

/-- `release` of a pointer. -/
def pointerRequest (i : Nat) (o : Obj) (op : Nat) : W Unit :=
  whenever (op = 1) do
    modify fun s => { s with
      dev.ptrs := devDel s.dev.ptrs o.id, dev.pointerId := (devDel s.dev.ptrs o.id).getLastD 0 }
    destroy i

/-- `release` of a keyboard. -/
def keyboardRequest (i : Nat) (o : Obj) (op : Nat) : W Unit :=
  whenever (op = 0) do
    modify fun s => { s with
      dev.kbds := devDel s.dev.kbds o.id, dev.keyboardId := (devDel s.dev.kbds o.id).getLastD 0 }
    destroy i

def ddmRequest (o : Obj) (op : Nat) : W Unit := do
  match op with
  | 0 => makes .dsource o.version
  | 1 =>
    let id ← aU32
    let _ ← aU32
    let _ ← add id .ddevice o.version
    pure ()
  | _ => pure ()

def decomgrRequest (op : Nat) : W Unit :=
  whenever (op = 0) do
    let id ← aU32
    let _ ← add id .deco 1
    ev .deco id 0 [.word 2]

def decoRequest (i : Nat) (o : Obj) (op : Nat) : W Unit := do
  match op with
  | 0 => destroy i
  | 1 =>
    let mode ← aU32
    ev .deco o.id 0 [.word (min mode 2)]
  | _ => pure ()

/-- `request(o, op, a)`, for the object in entry `i`. -/
def request (x : Ext) (i op : Nat) : W Unit := do
  let o ← obj i
  match o.type with
  | .display => displayRequest op
  | .registry => registryRequest x op
  | .compositor => compositorRequest o op
  | .region => regionRequest i op
  | .shm => shmRequest x o op
  | .pool => poolRequest x i o op
  | .buffer => whenever (op = 0) (destroy i)
  | .surface => surfaceRequest x i op
  | .subcomp => subcompRequest i o op
  | .subsurf => subsurfRequest i o op
  | .wmbase => wmbaseRequest i o op
  | .positioner => positionerRequest i op
  | .xdgsurf => xdgsurfRequest i o op
  | .popup => popupRequest i o op
  | .toplevel => toplevelRequest i o op
  | .seat => seatRequest x o op
  | .pointer => pointerRequest i o op
  | .keyboard => keyboardRequest i o op
  | .ddm => ddmRequest o op
  | .dsource => whenever (op = 1) (destroy i)
  | .ddevice => whenever (op = 2) (destroy i)
  | .decomgr => decomgrRequest op
  | .deco => decoRequest i o op
  | .output | .callback | .free => pure ()

/-- A message that is whole: its object, its operation and its arguments. -/
structure Message where
  obj : Nat
  op : Nat
  args : List UInt32

/-- What `process` does with a message. -/
def message (x : Ext) (m : Message) : W Unit := do
  match ← find m.obj with
  | none => protocolError 1 0
  | some i =>
    modify fun s => { s with inp.args := m.args }
    request x i m.op
    ensureRoom

end Pulsar.Wl

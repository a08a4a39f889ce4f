import Mathlib.Algebra.Ring.Int.Defs
import Mathlib.Algebra.Ring.Nat
import Mathlib.Logic.Function.Basic
import Pulsar.Lib.Prog

/-!
# The Wayland translator: its state (`wlclient/main.c`)

`wlclient` speaks Wayland to one program and is an application of the window server.  Its functions
are programs over `Client`, which stop when the process ends: by itself (`Stop.exits`), after an
error of the protocol, or at an access that the memory does not allow (`Stop.fault`).

Identifiers are numbers below `2 ^ 32`, and numbers with a sign are integers; sums that may leave
32 bits are wrapped (`i32`).  A pointer to an entry of the table is its index.  The arguments that
are left of the message in hand are part of the state, as is a list of all events that were sent.
What the rest of the system answers in a step is given with it (`Ext`).
-/

namespace Pulsar.Wl

@[irreducible] def MAXOBJ : Nat := 512
def MAXDEV : Nat := 8
def SURF_W : Nat := 2560
def SURF_H : Nat := 1440

/-- The types of objects. -/
inductive Kind where
  | free | display | registry | callback | compositor | surface | region | shm | pool | buffer
  | wmbase | xdgsurf | toplevel | seat | pointer | keyboard | output | positioner | subcomp
  | subsurf | popup | ddm | dsource | ddevice | decomgr | deco
  deriving DecidableEq

/-- The role of a surface. -/
inductive Role where
  | none | toplevel | sub | popup
  deriving DecidableEq

/-- A sum in 32 bits with a sign. -/
def i32 (x : Int) : Int := x.bmod (2 ^ 32)

/-- A box `[x0, x1) × [y0, y1)`; `x1 ≤ x0` means none. -/
structure Box where
  x0 : Int
  y0 : Int
  x1 : Int
  y1 : Int
  deriving DecidableEq

def Box.none : Box := ⟨0, 0, -1, -1⟩

/-- Memory from `malloc`: `len` pixels. -/
structure Mem where
  len : Nat
  px : Nat → UInt32

/-- What an entry has as a pool: where it is mapped, its descriptor, and the buffers that live. -/
structure Pool where
  base : Nat
  size : Nat
  fd : Option Nat
  shm : Bool
  refs : Int
  dead : Bool

/-- What an entry has as a buffer. -/
structure Buffer where
  pool : Option Nat
  offset : Nat
  w : Nat
  h : Nat
  stride : Nat
  fmt : Nat

/-- What an entry has as a surface. -/
structure Surface where
  cbs : List Nat
  attached : Bool
  dmg : Box
  role : Role
  mapped : Bool
  alpha : Bool
  grab : Bool
  opq : Bool
  noInput : Bool
  parent : Nat
  xdg : Nat
  roleobj : Nat
  px : Int
  py : Int
  gx : Int
  gy : Int
  gw : Int
  gh : Int
  st : Option Mem
  sw : Int
  sh : Int
  z : Int

/-- An entry of the table.  `ref` is the surface of a role object, and what was attached to a
surface; the count of a region is `pool.refs`; `pos` are the numbers of a positioner. -/
structure Obj where
  id : Nat
  type : Kind
  version : Nat
  ref : Nat
  pool : Pool
  buf : Buffer
  srf : Surface
  pos : Nat → Int

/-- An entry of zeros. -/
def Obj.zero : Obj where
  id := 0
  type := .free
  version := 0
  ref := 0
  pool := ⟨0, 0, none, false, 0, false⟩
  buf := ⟨none, 0, 0, 0, 0, 0⟩
  srf := { cbs := [], attached := false, dmg := ⟨0, 0, 0, 0⟩, role := .none, mapped := false
           alpha := false, grab := false, opq := false, noInput := false, parent := 0, xdg := 0
           roleobj := 0, px := 0, py := 0, gx := 0, gy := 0, gw := 0, gh := 0, st := none
           sw := 0, sh := 0, z := 0 }
  pos := fun _ => 0

/-- An argument of an event; of a text only the length matters. -/
inductive Arg where
  | word (v : Nat)
  | text (len : Nat)
  | array (vs : List Nat)
  deriving DecidableEq

def Arg.size : Arg → Nat
  | .word _ => 4
  | .text len => 4 + (len + 1 + 3) / 4 * 4
  | .array vs => 4 + 4 * vs.length

/-- An event of an object, with the interface that it belongs to. -/
structure Event where
  iface : Kind
  obj : Nat
  op : Nat
  args : List Arg
  deriving DecidableEq

def Event.size (e : Event) : Nat := 8 + (e.args.map Arg.size).sum

/-- What is sent: the events, the last one first, and what is not flushed yet. -/
structure Out where
  log : List Event
  len : Nat
  fds : Nat
  serial : Nat

/-- What is received: the arguments that are left of the message in hand, and the descriptors. -/
structure In where
  args : List UInt32
  fds : List Nat

/-- The window: whether there is one, its size and the one that was told, the objects of the
toplevel, and the size of the screen that was told. -/
structure Window where
  haveApp : Bool
  w : Int
  h : Int
  cfgW : Int
  cfgH : Int
  title : List UInt8
  appId : List UInt8
  topSurface : Nat
  topXdg : Nat
  topLevel : Nat
  outW : Nat
  outH : Nat

/-- The devices and the focus. -/
structure Devices where
  ptrs : List Nat
  kbds : List Nat
  pointerId : Nat
  keyboardId : Nat
  kbSurf : Nat
  winFocused : Bool
  ptrSurf : Nat
  lastDown : Bool
  swallowUp : Bool
  lastX : Int
  lastY : Int

/-- The scene: the surface of the window (`fb`), the contents of the toplevel, the damage, and the
frame callbacks that wait. -/
structure Scene where
  zcount : Int
  fb : Nat → UInt32
  base : Option Mem
  baseW : Int
  baseH : Int
  baseValid : Bool
  wd : Box
  pendCbs : List Nat

/-- The mappings and the descriptors that the pools have. -/
structure Shared where
  maps : List (Nat × Nat)
  fds : List Nat

/-- The state of the process. -/
structure Client where
  objs : Nat → Obj
  out : Out
  inp : In
  win : Window
  dev : Devices
  scene : Scene
  shm : Shared

/-- What goes wrong: a pointer that is null, memory that is not there, the end of the message or of
the buffer of events, a recursion without end. -/
inductive Fault where
  | null | memory | message | out | deep
  deriving DecidableEq

inductive Stop where
  | exits
  | protocolError (obj code : Nat)
  | fault (f : Fault)
  deriving DecidableEq

abbrev W := EStateM Stop Client

/-- An event of the window server. -/
structure WmEvent where
  close : Bool
  focused : Bool
  changed : Bool
  w : Nat
  h : Nat
  mx : Int
  my : Int
  down : Bool
  click : Bool
  rclick : Bool
  wheel : Int
  key : Nat
  mods : UInt8

/-- What the rest of the system answers in a step: the time, where `mmap` puts a pool and whether
its file is shared memory, the pixels of a pool at a byte, whether `malloc` finds memory (for the
base and for a surface), the size that the window server gives a window, its answer to a COMMIT, the
size of the screen, and the size of the keymap. -/
structure Ext where
  now : Nat
  mmap : Option Nat
  shm : Bool
  pool : Nat → UInt32
  alloc : Bool
  allocSt : Bool
  hello : Fin (SURF_W + 1) × Fin (SURF_H + 1)
  commit : WmEvent
  screen : Nat × Nat
  keymap : Option Nat

/-! ### Objects -/

namespace Client

variable (s : Client)

/-- `find(id)`. -/
def find (id : Nat) : Option Nat :=
  if id = 0 then none
  else (List.range MAXOBJ).find? fun i => (s.objs i).type ≠ .free ∧ (s.objs i).id = id

/-- `surf(id)`. -/
def surf (id : Nat) : Option Nat := (s.find id).filter fun i => (s.objs i).type = .surface

/-- The first entry that is free. -/
def freeObj : Option Nat := (List.range MAXOBJ).find? fun i => (s.objs i).type = .free

def setObj (i : Nat) (f : Obj → Obj) : Client :=
  { s with objs := Function.update s.objs i (f (s.objs i)) }

@[simp] theorem setObj_self (i : Nat) (f : Obj → Obj) : (s.setObj i f).objs i = f (s.objs i) :=
  Function.update_self ..

variable {s} in
theorem setObj_of_ne {i j : Nat} (h : j ≠ i) (f : Obj → Obj) :
    (s.setObj i f).objs j = s.objs j := Function.update_of_ne h ..

end Client

def obj (i : Nat) : W Obj := do return (← get).objs i

def edit (i : Nat) (f : Obj → Obj) : W Unit := modify fun s => s.setObj i f

/-- An edit of what the entry has as a surface. -/
def editSrf (i : Nat) (f : Surface → Surface) : W Unit := edit i fun o => { o with srf := f o.srf }

/-- The program, if the condition holds. -/
def whenever (c : Prop) [Decidable c] (x : W Unit) : W Unit := if c then x else pure ()

def find (id : Nat) : W (Option Nat) := do return (← get).find id

/-- The entry that `add` makes. -/
def Obj.new (id : Nat) (type : Kind) (version : Nat) : Obj :=
  { Obj.zero with id := id, type := type, version := version }

/-- `add(id, type, version)`. -/
def add (id : Nat) (type : Kind) (version : Nat) : W (Option Nat) := do
  match (← get).freeObj with
  | none => return none
  | some i =>
    edit i fun _ => Obj.new id type version
    return some i

/-- A pointer that is used without a check. -/
def deref {α : Type} : Option α → W α
  | some a => pure a
  | none => throw (.fault .null)

/-! ### Events -/

def OUT_SIZE : Nat := 64 * 1024

/-- `ev_begin` to `ev_end`. -/
def ev (iface : Kind) (o op : Nat) (args : List Arg) : W Unit := do
  let e : Event := ⟨iface, o, op, args⟩
  if (← get).out.len + e.size > OUT_SIZE then throw (.fault .out)
  else modify fun s => { s with out.log := e :: s.out.log, out.len := s.out.len + e.size }

/-- `flush()`, when the program is still there. -/
def flush : W Unit := modify fun s => { s with out.len := 0, out.fds := 0 }

def ensureRoom : W Unit := do
  whenever ((← get).out.len > OUT_SIZE - 4096) flush

def deleteId (id : Nat) : W Unit := ev .display 1 1 [.word id]

def protocolError {α : Type} (o code : Nat) : W α := throw (.protocolError o code)

/-- `serial++`. -/
def nextSerial : W Nat := do
  let n := (← get).out.serial
  modify fun s => { s with out.serial := (n + 1) % 2 ^ 32 }
  return n

/-! ### Requests -/

/-- `take_fd()`. -/
def takeFd : W Nat := do
  match (← get).inp.fds with
  | [] => protocolError 1 1
  | f :: fs =>
    modify fun s => { s with inp.fds := fs, shm.fds := f :: s.shm.fds }
    return f

/-- `a_u32(a)`. -/
def aU32 : W Nat := do
  match (← get).inp.args with
  | [] => protocolError 1 1
  | w :: ws =>
    modify fun s => { s with inp.args := ws }
    return w.toNat

/-- `a_i32(a)`. -/
def aI32 : W Int := do return i32 (← aU32)

/-- The bytes of the words of a message. -/
def wordBytes (ws : List UInt32) : List UInt8 :=
  ws.flatMap fun w : UInt32 => [w.toUInt8, (w >>> 8).toUInt8, (w >>> 16).toUInt8, (w >>> 24).toUInt8]

/-- `a_str(a)`: the bytes before the first zero. -/
def aStr : W (List UInt8) := do
  let n ← aU32
  let ws := (← get).inp.args
  let m := (n + 3) % 2 ^ 32 / 4 * 4
  if n = 0 then return []
  else if m > 4 * ws.length then protocolError 1 1
  else
    match (wordBytes ws)[n - 1]? with
    | none => throw (.fault .message)
    | some b =>
      if b ≠ 0 then protocolError 1 1
      else
        modify fun s => { s with inp.args := ws.drop (m / 4) }
        return (wordBytes ws).takeWhile (· ≠ 0)

/-! ### Devices -/

/-- `dev_add`. -/
def devAdd (v : List Nat) (id : Nat) : List Nat := if v.length < MAXDEV then v ++ [id] else v

/-- `dev_del`: the last device takes the place of the one that goes. -/
def devDel : List Nat → Nat → List Nat
  | [], _ => []
  | d :: v, id =>
    if d = id then
      match v.getLast? with
      | none => []
      | some l => l :: v.dropLast
    else d :: devDel v id

end Pulsar.Wl

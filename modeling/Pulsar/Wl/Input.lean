import Pulsar.Wl.Scene

/-!
# Input of the Wayland translator (`wlclient/main.c`)

Events of the window server become events of all pointers and keyboards of the program.  The pointer
is over the highest surface there (`hit`), the keyboard is with the newest popup that has a grab,
else with the window.
-/

namespace Pulsar.Wl

/-- A number with a sign as an argument. -/
def word (x : Int) : Arg := .word (x % 2 ^ 32).toNat

/-! ### Events for all devices -/

/-- An event of all pointers. -/
def ptrEv (op : Nat) (args : List Arg) : W Unit := do
  (← get).dev.ptrs.forM fun p => ev .pointer p op args

/-- `ptr_frame()`. -/
def ptrFrame : W Unit := do
  (← get).dev.ptrs.forM fun p => do
    let s ← get
    whenever ((s.find p).any fun i => (s.objs i).version ≥ 5) (ev .pointer p 5 [])

/-- An event of all keyboards. -/
def kbEv (op : Nat) (args : List Arg) : W Unit := do
  (← get).dev.kbds.forM fun k => ev .keyboard k op args

/-- `send_mods(m)`. -/
def sendMods (m : UInt8) : W Unit := do
  let bit := fun (f : UInt8) (v : Nat) => if m &&& f ≠ 0 then v else 0
  let dep := bit 1 0x1 + bit 2 0x4 + bit 4 0x8 + bit 8 0x40 + bit 16 0x80
  let lock := bit 32 0x2 + 0x10
  let n ← nextSerial
  kbEv 4 [.word n, .word dep, .word 0, .word lock, .word 0]

/-- `kb_key(now, key, state)`. -/
def kbKey (now key state : Nat) : W Unit := do
  let n ← nextSerial
  kbEv 3 [.word n, .word now, .word key, .word state]

/-- `ptr_button(now, button, pressed)`. -/
def ptrButton (now button : Nat) (pressed : Bool) : W Unit := do
  let n ← nextSerial
  ptrEv 3 [.word n, .word now, .word button, .word (if pressed then 1 else 0)]

/-- `leave` of all pointers. -/
def ptrLeave (surface : Nat) : W Unit := do
  let n ← nextSerial
  ptrEv 1 [.word n, .word surface]

/-- `enter` of all pointers. -/
def ptrEnter (surface : Nat) (at_ : Arg × Arg) : W Unit := do
  let n ← nextSerial
  ptrEv 0 [.word n, .word surface, at_.1, at_.2]

/-- `leave` of all keyboards. -/
def kbLeave (surface : Nat) : W Unit := do
  let n ← nextSerial
  kbEv 2 [.word n, .word surface]

/-- `enter` of all keyboards. -/
def kbEnter (surface : Nat) : W Unit := do
  let n ← nextSerial
  kbEv 1 [.word n, .word surface, .array []]

/-- `send_configure()`. -/
def sendConfigure : W Unit := do
  let s ← get
  whenever (s.win.topLevel ≠ 0) do
    ev .toplevel s.win.topLevel 0 [word s.win.cfgW, word s.win.cfgH, .array [4]]
    let n ← nextSerial
    ev .xdgsurf s.win.topXdg 0 [.word n]

/-! ### Keyboard focus -/

namespace Client

variable (s : Client)

/-- A popup with a grab. -/
def isGrab (i : Nat) : Bool :=
  let o := s.objs i
  o.type = .surface ∧ o.srf.role = .popup ∧ o.srf.grab

/-- `any_grab()`. -/
def anyGrab : Bool := (List.range MAXOBJ).any s.isGrab

/-- The surface that is to have the keyboard. -/
def kbWant : Nat :=
  if s.dev.winFocused then
    match pick (fun i => s.isGrab i ∧ s.zOf i > LOWEST) fun i => -s.zOf i with
    | some i => (s.objs i).id
    | none => s.win.topSurface
  else 0

end Client

/-- `kb_refocus()`. -/
def kbRefocus : W Unit := do
  let s ← get
  whenever (s.dev.keyboardId ≠ 0 ∧ s.kbWant ≠ s.dev.kbSurf) do
    whenever (s.dev.kbSurf ≠ 0 ∧ (s.surf s.dev.kbSurf).isSome) (kbLeave s.dev.kbSurf)
    modify fun t => { t with dev.kbSurf := s.kbWant }
    whenever (s.kbWant ≠ 0) (kbEnter s.kbWant)

/-- A surface that is visible damages the window. -/
def damageSurface (i : Nat) : W Unit := do
  let s ← get
  let o := (s.objs i).srf
  whenever (o.mapped ∧ s.visible i) (winDamage (s.absPos i).1 (s.absPos i).2 o.sw o.sh)

/-- The popups that have their object. -/
def Client.isOpen (s : Client) (i : Nat) : Bool :=
  let o := s.objs i
  o.type = .surface ∧ o.srf.role = .popup ∧ o.srf.roleobj ≠ 0

/-- A popup is dismissed. -/
def dismiss (i : Nat) : W Unit := do
  let o ← obj i
  ev .popup o.srf.roleobj 1 []
  damageSurface i
  editSrf i fun o => { o with role := .none, mapped := false, grab := false }

/-- The loop of `dismiss_popups`, with a round for each entry. -/
def dismissLoop : Nat → W Unit
  | 0 => pure ()
  | n + 1 => do
    let s ← get
    match Client.pick s.isOpen fun i => -s.zOf i with
    | none => pure ()
    | some b =>
      dismiss b
      dismissLoop n

/-- `dismiss_popups()`. -/
def dismissPopups : W Unit := do
  dismissLoop MAXOBJ
  kbRefocus

/-! ### What is under the pointer -/

/-- What `last` is at first in the loops that go down. -/
def HIGHEST : Int := 0x7fffffff

/-- The surface of `among` that was drawn before those from `last` on. -/
def Client.nextDown (s : Client) (among : Nat → Bool) (last : Int) : Option Nat :=
  Client.pick (fun i => among i ∧ s.zOf i < last) fun i => -s.zOf i

/-- A surface, and the point in its coordinates. -/
abbrev Hit := Option (Nat × Int × Int)

/-- The point in the coordinates of a surface, if it is in a box of it. -/
def Client.inside (s : Client) (i : Nat) (x y gx gy gw gh : Int) : Hit :=
  let a := s.absPos i
  if x ≥ i32 (a.1 + gx) ∧ y ≥ i32 (a.2 + gy) ∧ x < i32 (a.1 + gx + gw) ∧ y < i32 (a.2 + gy + gh)
  then some (i, i32 (x - a.1), i32 (y - a.2)) else none

/-- A subsurface takes input at the point. -/
def Client.inSub (s : Client) (i : Nat) (x y : Int) : Hit :=
  let o := (s.objs i).srf
  if o.noInput then none else s.inside i x y 0 0 o.sw o.sh

/-- A popup takes input at the point: where its geometry is. -/
def Client.inPopup (s : Client) (i : Nat) (x y : Int) : Hit :=
  let o := (s.objs i).srf
  let g := if o.gw ≠ 0 then (o.gw, o.gh) else (o.sw, o.sh)
  if o.noInput then none else s.inside i x y o.geom.1 o.geom.2 g.1 g.2

/-- The toplevel takes input at the point: where the window is. -/
def Client.inTop (s : Client) (x y : Int) : Hit :=
  if 0 ≤ x ∧ 0 ≤ y ∧ x < s.win.w ∧ y < s.win.h then
    (s.surf s.win.topSurface).map fun t =>
      (t, i32 (x - (s.absPos t).1), i32 (y - (s.absPos t).2))
  else none

/-- The first that is found. -/
def orElse (h : Hit) (x : W Hit) : W Hit :=
  match h with
  | some r => pure (some r)
  | none => x

/-- `hit_tree(parent, x, y)`, from `last` down. -/
def hitTree (x y : Int) : Nat → Nat → Int → W Hit
  | 0, _, _ => throw (.fault .deep)
  | n + 1, parent, last => do
    let s ← get
    match s.nextDown (s.isSub parent) last with
    | none => pure none
    | some b =>
      let r ← hitTree x y n (s.objs b).id HIGHEST
      orElse r (orElse (s.inSub b x y) (hitTree x y n parent (s.zOf b)))

/-- The loop of `hit` over the popups, from `last` down. -/
def hitPopups (x y : Int) : Nat → Int → W Hit
  | 0, _ => throw (.fault .deep)
  | n + 1, last => do
    let s ← get
    match s.nextDown s.isPopup last with
    | none => pure none
    | some b =>
      let r ← hitTree x y (MAXOBJ + 1) (s.objs b).id HIGHEST
      orElse r (orElse (s.inPopup b x y) (hitPopups x y n (s.zOf b)))

/-- `hit(x, y)`. -/
def hit (x y : Int) : W Hit := do
  let s ← get
  let r ← hitPopups x y (MAXOBJ + 1) HIGHEST
  orElse r do
    let r ← hitTree x y (MAXOBJ + 1) s.win.topSurface HIGHEST
    orElse r (pure (s.inTop x y))

/-! ### Events of the window server -/

/-- The size of the screen for an output. -/
def sendOutput (o : Obj) (w h : Nat) : W Unit :=
  whenever (o.type = .output) do
    ev .output o.id 1 [.word 3, .word w, .word h, .word 60000]
    whenever (o.version ≥ 2) (ev .output o.id 2 [])

/-- The part of `handle_wm` about the screen. -/
def handleScreen (x : Ext) (e : WmEvent) : W Unit := do
  let s ← get
  whenever (e.changed = true ∧ s.win.outW ≠ 0 ∧
      (x.screen.1 ≠ s.win.outW ∨ x.screen.2 ≠ s.win.outH)) do
    modify fun s => { s with win.outW := x.screen.1, win.outH := x.screen.2 }
    (List.range MAXOBJ).forM fun i => sendOutput (s.objs i) x.screen.1 x.screen.2

/-- The part of `handle_wm` about the size of the window. -/
def handleSize : W Unit := do
  let s ← get
  whenever (s.win.w ≠ s.win.cfgW ∨ s.win.h ≠ s.win.cfgH) do
    modify fun s => { s with win.cfgW := s.win.w, win.cfgH := s.win.h }
    sendConfigure

/-- The part of `handle_wm` about the focus of the window. -/
def handleFocus (e : WmEvent) : W Unit := do
  let s ← get
  whenever (e.focused ≠ s.dev.winFocused) do
    modify fun s => { s with dev.winFocused := e.focused }
    whenever (e.focused = false ∧ s.anyGrab) dismissPopups
    kbRefocus

/-- What is under the pointer, with the point as arguments of events. -/
def underPointer (e : WmEvent) : W (Nat × Arg × Arg) := do
  let s ← get
  if 0 ≤ e.mx ∧ 0 ≤ e.my ∧ e.mx < s.win.w ∧ e.my < s.win.h then
    let t ← hit e.mx e.my
    pure (t.elim (0, .word 0, .word 0) fun t =>
      ((s.objs t.1).id, word (t.2.1 * 256), word (t.2.2 * 256)))
  else pure (0, .word 0, .word 0)

/-- The surface that the pointer was over may have ended. -/
def forgetPointer : W Unit := do
  let s ← get
  whenever (s.dev.ptrSurf ≠ 0 ∧ (s.surf s.dev.ptrSurf).isNone)
    (modify fun s => { s with dev.ptrSurf := 0 })

/-- The pointer goes from one surface to another. -/
def crossPointer (old tid : Nat) (at_ : Arg × Arg) : W Unit := do
  whenever (old ≠ 0) (ptrLeave old)
  whenever (tid ≠ 0) (ptrEnter tid at_)
  modify fun s => { s with dev.ptrSurf := tid }

/-- The part of `handle_wm` about where the pointer is: whether an event was sent. -/
def movePointer (x : Ext) (e : WmEvent) (tid : Nat) (at_ : Arg × Arg) : W Bool := do
  forgetPointer
  let s ← get
  if tid ≠ s.dev.ptrSurf then
    crossPointer s.dev.ptrSurf tid at_
    pure true
  else if tid ≠ 0 ∧ (e.mx ≠ s.dev.lastX ∨ e.my ≠ s.dev.lastY) then
    ptrEv 2 [.word x.now, at_.1, at_.2]
    pure true
  else pure false

/-- The left button: whether an event was sent. -/
def leftButton (x : Ext) (e : WmEvent) : W Bool := do
  let s ← get
  if e.down ≠ s.dev.lastDown then
    let sends := ¬ (s.dev.swallowUp = true ∧ e.down = false)
    whenever sends (ptrButton x.now 0x110 e.down)
    modify fun s => { s with dev.swallowUp := false }
    pure (decide sends)
  else if e.click then
    ptrButton x.now 0x110 true
    ptrButton x.now 0x110 false
    pure true
  else pure false

/-- The right button, pressed and released. -/
def rightButton (x : Ext) : W Unit := do
  ptrButton x.now 0x111 true
  ptrButton x.now 0x111 false

/-- The part of `handle_wm` about the buttons and the wheel, over a surface: whether an event was
sent. -/
def handleButtons (x : Ext) (e : WmEvent) : W Bool := do
  let sent ← leftButton x e
  whenever (e.rclick = true) (rightButton x)
  whenever (e.wheel ≠ 0) (ptrEv 4 [.word x.now, .word 0, word (-e.wheel * 10 * 256)])
  return sent || e.rclick || e.wheel ≠ 0

/-- A click away from the popups that have a grab. -/
def Client.clicksAway (s : Client) (e : WmEvent) (tid : Nat) : Prop :=
  ((e.down = true ∧ s.dev.lastDown = false) ∨ e.click = true ∨ e.rclick = true) ∧
    s.anyGrab = true ∧ ((s.surf tid).any fun i => (s.objs i).srf.role = .popup) = false

instance (s : Client) (e : WmEvent) (tid : Nat) : Decidable (s.clicksAway e tid) :=
  inferInstanceAs (Decidable (_ ∧ _ ∧ _))

/-- The popups close, and the click is consumed. -/
def swallowClick (e : WmEvent) : W Unit := do
  dismissPopups
  modify fun s => { s with dev.swallowUp := e.down, dev.lastDown := e.down }

/-- The buttons count where the pointer is over a surface: whether an event was sent. -/
def overSurface (x : Ext) (e : WmEvent) : W Bool := do
  if (← get).dev.ptrSurf ≠ 0 then handleButtons x e else pure false

/-- The part of `handle_wm` about the buttons: whether an event was sent. -/
def pressPointer (x : Ext) (e : WmEvent) : W Bool := do
  let sent ← overSurface x e
  modify fun s => { s with dev.lastDown := e.down }
  pure sent

/-- The part of `handle_wm` about the pointer: whether what follows it is done. -/
def handlePointer (x : Ext) (e : WmEvent) : W Bool := do
  let t ← underPointer e
  let sent ← movePointer x e t.1 t.2
  modify fun s => { s with dev.lastX := e.mx, dev.lastY := e.my }
  if (← get).clicksAway e t.1 then
    swallowClick e
    whenever sent ptrFrame
    pure false
  else
    let sent' ← pressPointer x e
    whenever (sent || sent') ptrFrame
    pure true

/-- A key without a focus means that the window has it. -/
def claimFocus : W Unit := do
  let s ← get
  whenever (s.dev.kbSurf = 0) do
    modify fun s => { s with dev.winFocused := true }
    kbRefocus

/-- The part of `handle_wm` about the keyboard. -/
def handleKey (x : Ext) (e : WmEvent) : W Unit := do
  claimFocus
  let s ← get
  whenever (s.dev.kbSurf ≠ 0) do
    sendMods e.mods
    kbKey x.now e.key 1
    kbKey x.now e.key 0

/-- The end of `handle_wm`. -/
def handleRest (x : Ext) (e : WmEvent) : W Unit := do
  let s ← get
  whenever (s.dev.keyboardId ≠ 0 ∧ e.key ≠ 0) (handleKey x e)
  ensureRoom

/-- The part of `handle_wm` for programs with a pointer: whether what follows it is done. -/
def handlePointers (x : Ext) (e : WmEvent) : W Bool := do
  if (← get).dev.pointerId ≠ 0 then handlePointer x e else pure true

/-- `handle_wm(e)`. -/
def handleWm (x : Ext) (e : WmEvent) : W Unit := do
  let s ← get
  whenever (e.close = true ∧ s.win.topLevel ≠ 0) (ev .toplevel s.win.topLevel 1 [])
  handleScreen x e
  handleSize
  handleFocus e
  let rest ← handlePointers x e
  whenever rest (handleRest x e)

/-- What an answer of the window server says of the size. -/
def applySize (e : WmEvent) : W Unit :=
  whenever (0 < e.w ∧ 0 < e.h)
    (modify fun s => { s with win.w := min e.w SURF_W, win.h := min e.h SURF_H })

/-- A round of `pump_wm`. -/
def pumpWm (x : Ext) (e : WmEvent) : W Unit := do
  applySize e
  handleWm x e

end Pulsar.Wl

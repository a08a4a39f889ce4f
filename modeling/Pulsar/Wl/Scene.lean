import Pulsar.Lib.Ascent
import Pulsar.Wl.Client

/-!
# The scene of a window (`wlclient/main.c`)

The window is composed of the contents of the toplevel (`base`), its subsurfaces and the popups with
theirs.  Coordinates are those of the window: its origin is the corner of the geometry of the
toplevel.

A recursion over subsurfaces that goes deeper than there are surfaces has no end (`Fault.deep`).
-/

namespace Pulsar.Wl

/-- The box with `[x, x + w) × [y, y + h)`, if there is anything in it. -/
def Box.add (b : Box) (x y w h : Int) : Box :=
  if w ≤ 0 ∨ h ≤ 0 then b
  else if b.x1 ≤ b.x0 then ⟨x, y, i32 (x + w), i32 (y + h)⟩
  else ⟨min x b.x0, min y b.y0, max (i32 (x + w)) b.x1, max (i32 (y + h)) b.y1⟩

/-- `win_damage(x, y, w, h)`. -/
def winDamage (x y w h : Int) : W Unit := modify fun s => { s with scene.wd := s.scene.wd.add x y w h }

/-- The corner of the geometry of a surface, if it has one. -/
def Surface.geom (o : Surface) : Int × Int := if o.gw ≠ 0 then (o.gx, o.gy) else (0, 0)

/-! ### Places -/

namespace Client

variable (s : Client)

/-- The loop of `visible`. -/
def visibleFrom : Nat → Option Nat → Bool
  | 0, _ => false
  | _, none => false
  | n + 1, some i =>
    let o := s.objs i
    if o.id = s.win.topSurface then true
    else if o.srf.mapped = false ∨ o.srf.role = .none then false
    else visibleFrom n (s.surf o.srf.parent)

/-- `visible(s)`: the surface is mapped, and so are its parents up to the window. -/
def visible (i : Nat) : Bool := s.visibleFrom 16 (some i)

/-- The loop of `abs_pos`. -/
def absFrom : Nat → Option Nat → Int × Int → Int × Int
  | 0, _, p => p
  | _, none, p => p
  | n + 1, some i, p =>
    let o := (s.objs i).srf
    if (s.objs i).id = s.win.topSurface then (i32 (p.1 - o.geom.1), i32 (p.2 - o.geom.2))
    else
      match o.role with
      | .sub => absFrom n (s.surf o.parent) (i32 (p.1 + o.px), i32 (p.2 + o.py))
      | .popup =>
        let g := ((s.surf o.parent).elim (0, 0) fun j => (s.objs j).srf.geom : Int × Int)
        absFrom n (s.surf o.parent)
          (i32 (p.1 + (o.px - o.geom.1) + g.1), i32 (p.2 + (o.py - o.geom.2) + g.2))
      | _ => p

/-- `abs_pos(s)`: the corner of the surface in the window. -/
def absPos (i : Nat) : Int × Int := s.absFrom 16 (some i) (0, 0)

/-- `has_children()`. -/
def hasChildren : Bool := (List.range MAXOBJ).any fun i =>
  let o := s.objs i
  o.type = .surface ∧ (o.srf.role = .sub ∨ o.srf.role = .popup) ∧ o.srf.mapped ∧ s.visible i

/-- The loops that choose a surface: the first of those with the least key. -/
def pick (among : Nat → Bool) (key : Nat → Int) : Option Nat :=
  (List.range MAXOBJ).foldl (fun best i =>
    if among i ∧ best.all (fun b => key i < key b) then some i else best) none

theorem pick_eq (among : Nat → Bool) (key : Nat → Int) :
    pick among key = least (List.range MAXOBJ) among key := rfl

theorem pick_among {among : Nat → Bool} {key : Nat → Int} {i : Nat}
    (h : pick among key = some i) : i < MAXOBJ ∧ among i = true := by
  rw [pick_eq] at h
  obtain ⟨hi, ha, -⟩ := least_some h
  exact ⟨List.mem_range.mp hi, ha⟩

/-- The subsurfaces of a parent that are mapped. -/
def isSub (parent i : Nat) : Bool :=
  let o := s.objs i
  o.type = .surface ∧ o.srf.role = .sub ∧ o.srf.parent = parent ∧ o.srf.mapped

/-- The popups that are visible. -/
def isPopup (i : Nat) : Bool :=
  let o := s.objs i
  o.type = .surface ∧ o.srf.role = .popup ∧ s.visible i

def zOf (i : Nat) : Int := (s.objs i).srf.z

/-- The surface of `among` to draw after those up to `last`. -/
def nextUp (among : Nat → Bool) (last : Int) : Option Nat :=
  pick (fun i => among i ∧ s.zOf i > last) s.zOf

end Client

/-- What `last` is at first in the loops. -/
def LOWEST : Int := -0x7fffffff

/-! ### Pixels -/

/-- `over(d, s)`: a premultiplied pixel over another. -/
def blend (d s : UInt32) : UInt32 :=
  let a := s >>> 24
  if a = 255 then s &&& 0xFFFFFF
  else if a = 0 ∧ s &&& 0xFFFFFF = 0 then d
  else
    let ia := 255 - a
    let rb := (((d &&& 0xFF00FF) * ia + 0x800080) >>> 8) &&& 0xFF00FF
    let g := (((d &&& 0x00FF00) * ia + 0x008000) >>> 8) &&& 0x00FF00
    let r := (s &&& 0xFF00FF) + rb
    let gg := (s &&& 0x00FF00) + g
    let r := if r &&& 0x01000000 ≠ 0 then r ||| 0xFF0000 else r
    let r := if r &&& 0x100 ≠ 0 then r ||| 0xFF else r
    let gg := if gg > 0xFF00 then 0xFF00 else gg
    (r &&& 0xFF00FF) ||| (gg &&& 0xFF00)

/-- The surface of the window. -/
def Client.screen (s : Client) : Mem := ⟨SURF_W * SURF_H, s.scene.fb⟩

/-- `n` pixels from `at_` on, each from what was there; outside of the memory this is a fault. -/
def Mem.write (m : Mem) (at_ n : Int) (f : Int → UInt32 → UInt32) : W Mem :=
  if 0 ≤ at_ ∧ 0 ≤ n ∧ at_ + n ≤ m.len then
    pure { m with px := fun k => if at_ ≤ k ∧ k < at_ + n then f (k - at_) (m.px k) else m.px k }
  else throw (.fault .memory)

/-- `n` pixels from `at_` on can be read. -/
def Mem.reads (m : Mem) (at_ n : Int) : W Unit :=
  if 0 ≤ at_ ∧ 0 ≤ n ∧ at_ + n ≤ m.len then pure () else throw (.fault .memory)

/-- The loop `for (y = y0; y < y1; y++)`. -/
def forRows (y0 y1 : Int) (f : Int → W Unit) : W Unit :=
  (List.range (y1 - y0).toNat).forM fun k => f (y0 + k)

/-- A row of `draw_surface`, at `y`. -/
def drawRow (m : Mem) (o : Surface) (ax ay x0 x1 y : Int) : W Unit := do
  let at_ := y * SURF_W + x0
  let from_ := (y - ay) * o.sw + (x0 - ax)
  if o.alpha = false then
    m.reads from_ (x1 - x0)
    let d ← (← get).screen.write at_ (x1 - x0) fun k _ => m.px (from_ + k).toNat
    modify fun s => { s with scene.fb := d.px }
  else if x0 < x1 then
    m.reads from_ (x1 - x0)
    let d ← (← get).screen.write at_ (x1 - x0) fun k d =>
      let v := m.px (from_ + k).toNat
      if v ≥ 0xFF000000 then v else if v ≠ 0 then blend d v else d
    modify fun s => { s with scene.fb := d.px }

/-- `draw_surface(s, clip)`. -/
def drawSurface (i : Nat) (c : Box) : W Unit := do
  let s ← get
  let o := (s.objs i).srf
  match o.st with
  | none => pure ()
  | some m =>
    let a := s.absPos i
    let x0 := max a.1 c.x0
    let y0 := max a.2 c.y0
    let x1 := min (i32 (a.1 + o.sw)) c.x1
    let y1 := min (i32 (a.2 + o.sh)) c.y1
    forRows y0 y1 (drawRow m o a.1 a.2 x0 x1)

/-- `draw_subs(parent, clip)`, from `last` on. -/
def drawSubs (c : Box) : Nat → Nat → Int → W Unit
  | 0, _, _ => throw (.fault .deep)
  | n + 1, parent, last => do
    let s ← get
    match s.nextUp (s.isSub parent) last with
    | none => pure ()
    | some b =>
      drawSurface b c
      drawSubs c n (s.objs b).id LOWEST
      drawSubs c n parent (s.zOf b)

/-- The popups of `compose`, from `last` on. -/
def drawPopups (c : Box) : Nat → Int → W Unit
  | 0, _ => throw (.fault .deep)
  | n + 1, last => do
    let s ← get
    match s.nextUp s.isPopup last with
    | none => pure ()
    | some b =>
      drawSurface b c
      drawSubs c (MAXOBJ + 1) (s.objs b).id LOWEST
      drawPopups c n (s.zOf b)

/-- A row of `compose`, at `y`. -/
def baseRow (x0 x1 y : Int) : W Unit := do
  let s ← get
  let m ← deref s.scene.base
  m.reads (y * s.scene.baseW + x0) (x1 - x0)
  let d ← s.screen.write (y * SURF_W + x0) (x1 - x0) fun k _ => m.px (y * s.scene.baseW + x0 + k).toNat
  modify fun s => { s with scene.fb := d.px }

/-- `compose(x0, y0, x1, y1)`. -/
def compose (c : Box) : W Unit := do
  let s ← get
  let c : Box := ⟨max c.x0 0, max c.y0 0, min c.x1 s.win.w, min c.y1 s.win.h⟩
  if c.x0 ≥ c.x1 ∨ c.y0 ≥ c.y1 ∨ s.scene.baseValid = false then pure ()
  else
    forRows c.y0 c.y1 (baseRow c.x0 c.x1)
    drawSubs c (MAXOBJ + 1) s.win.topSurface LOWEST
    drawPopups c (MAXOBJ + 1) LOWEST

/-- A row of `ensure_base`. -/
def saveRow (y : Int) : W Unit := do
  let s ← get
  let m ← deref s.scene.base
  s.screen.reads (y * SURF_W) s.scene.baseW
  let d ← m.write (y * s.scene.baseW) s.scene.baseW fun k _ => s.scene.fb (y * SURF_W + k).toNat
  modify fun s => { s with scene.base := some d }

/-- The part of `ensure_base` that copies what is on the screen. -/
def saveScreen : W Unit := do
  forRows 0 (← get).scene.baseH saveRow
  modify fun s => { s with scene.baseValid := true }

/-- `base` is there and has the size of the window. -/
def Client.baseFits (s : Client) : Prop :=
  s.scene.base.isSome = true ∧ s.scene.baseW = s.win.w ∧ s.scene.baseH = s.win.h

instance (s : Client) : Decidable s.baseFits := inferInstanceAs (Decidable (_ ∧ _ ∧ _))

/-- `ensure_base()`. -/
def ensureBase (x : Ext) : W Unit := do
  let s ← get
  if s.baseFits ∧ s.scene.baseValid then pure ()
  else if s.baseFits then saveScreen
  else if x.alloc then
    let m : Mem := ⟨(s.win.w * s.win.h).toNat, fun _ => 0⟩
    modify fun s => { s with
      scene.base := some m, scene.baseW := s.win.w, scene.baseH := s.win.h }
    saveScreen
  else
    modify fun s => { s with
      scene.base := none, scene.baseW := s.win.w, scene.baseH := s.win.h, scene.baseValid := false }

/-- A pixel of a buffer as it is copied, over white if the flag says so. -/
def convert (white : Bool) (v : UInt32) : UInt32 :=
  if white = true ∧ v < 0xFF000000 then blend 0xFFFFFF v else v

/-- `copy_rows`: rows of a buffer, whose first byte is `src` in a pool of `size` bytes. -/
def copyRows (x : Ext) (dst : Mem) (dstStride dx dy : Int) (src size stride : Nat)
    (sx sy w h : Int) (white : Bool) : W Mem :=
  (List.range h.toNat).foldlM (fun d (y : Nat) => do
    let from_ : Int := src + (sy + y) * stride + 4 * sx
    if 0 ≤ from_ ∧ from_ + 4 * w ≤ size then
      d.write ((dy + y) * dstStride + dx) w fun k _ =>
        convert white (x.pool (from_ + 4 * k).toNat)
    else throw (.fault .memory)) dst

end Pulsar.Wl

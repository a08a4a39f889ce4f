import Pulsar.Wl.Session

/-!
# What the parts of the translator leave alone (`wlclient/main.c`)

A `Frame` says how entries of the table and devices may change and of which interfaces events may be
sent; all else that matters to other requests is kept.  There is one lemma for each function, with
the edits that it makes as hypotheses.
-/

namespace Pulsar.Wl

open Prog

/-- How the parts of the state may change, and of which interfaces events may be sent. -/
structure Frame where
  obj : Change Obj
  dev : Change Devices
  shm : Change Shared
  zcount : Change Int
  pend : Change (List Nat)
  /-- the surface and the toplevel of the window -/
  top : Change (Nat × Nat)
  sends : Kind → Prop

namespace Frame

/-- From `s` to `t` there are only changes that the frame allows. -/
structure Kept (F : Frame) (s t : Client) : Prop where
  objs : ∀ i, F.obj.rel (s.objs i) (t.objs i)
  dev : F.dev.rel s.dev t.dev
  shm : F.shm.rel s.shm t.shm
  zcount : F.zcount.rel s.scene.zcount t.scene.zcount
  pend : F.pend.rel s.scene.pendCbs t.scene.pendCbs
  top : F.top.rel (s.win.topSurface, s.win.topLevel) (t.win.topSurface, t.win.topLevel)
  log : ∃ l, t.out.log = l ++ s.out.log ∧ ∀ e ∈ l, F.sends e.iface

variable {F : Frame}

theorem Kept.refl (s : Client) : F.Kept s s where
  objs _ := F.obj.refl _
  dev := F.dev.refl _
  shm := F.shm.refl _
  zcount := F.zcount.refl _
  pend := F.pend.refl _
  top := F.top.refl _
  log := ⟨[], rfl, fun _ h => absurd h List.not_mem_nil⟩

theorem Kept.trans {s t u : Client} (h : F.Kept s t) (h' : F.Kept t u) : F.Kept s u where
  objs i := F.obj.trans (h.objs i) (h'.objs i)
  dev := F.dev.trans h.dev h'.dev
  shm := F.shm.trans h.shm h'.shm
  zcount := F.zcount.trans h.zcount h'.zcount
  pend := F.pend.trans h.pend h'.pend
  top := F.top.trans h.top h'.top
  log := by
    obtain ⟨l, hl, hs⟩ := h.log
    obtain ⟨l', hl', hs'⟩ := h'.log
    refine ⟨l' ++ l, by rw [hl', hl, List.append_assoc], fun e he => ?_⟩
    exact (List.mem_append.mp he).elim (hs' e) (hs e)

instance : Path F.Kept := ⟨Kept.refl, Kept.trans⟩

/-- A run of the program changes only what the frame allows. -/
abbrev Moves {α : Type} (F : Frame) (x : W α) : Prop := Prog.Moves F.Kept x

section

variable {β : Type}

theorem whenever {c : Prop} [Decidable c] {x : W Unit} (h : c → F.Moves x) :
    F.Moves (whenever c x) := Prog.Moves.ite h fun _ => Prog.Moves.pure _

theorem get_bind {f : Client → W β} (hf : ∀ s, F.Moves (f s)) : F.Moves (get >>= f) :=
  Prog.Moves.get.bind hf

end

/-! ### Primitive steps -/

theorem setObj_kept {s : Client} {i : Nat} {f : Obj → Obj} (h : F.obj.rel (s.objs i) (f (s.objs i))) :
    F.Kept s (s.setObj i f) := by
  refine { Kept.refl s with objs := fun j => ?_ }
  by_cases hj : j = i
  · rw [hj, Client.setObj_self]
    exact h
  · rw [Client.setObj_of_ne hj]
    exact F.obj.refl _

theorem edit {i : Nat} {f : Obj → Obj} (h : ∀ o, F.obj.rel o (f o)) : F.Moves (edit i f) :=
  .modify fun _ => setObj_kept (h _)

theorem editSrf {i : Nat} {f : Surface → Surface}
    (h : ∀ o : Obj, F.obj.rel o { o with srf := f o.srf }) : F.Moves (editSrf i f) := edit h

theorem obj_bind {β : Type} {i : Nat} {f : Obj → W β} (hf : ∀ o, F.Moves (f o)) :
    F.Moves (Wl.obj i >>= f) := (get_bind fun _ => .pure _).bind hf

theorem deref {α : Type} (o : Option α) : F.Moves (deref o) := by
  cases o with
  | none => exact .throw _
  | some a => exact .pure a

theorem ev {iface : Kind} {o op : Nat} {args : List Arg} (h : F.sends iface) :
    F.Moves (ev iface o op args) := by
  refine get_bind fun s => .ite (fun _ => .throw _) fun _ => .modify fun t => ?_
  exact { Kept.refl t with log := ⟨[⟨iface, o, op, args⟩], rfl, by simpa using h⟩ }

/-- An update of what is sent that sends no event. -/
theorem setOut {f : Client → Out} (h : ∀ s, (f s).log = s.out.log) :
    F.Moves (modify fun s => { s with out := f s } : W Unit) :=
  .modify fun s => { Kept.refl s with log := ⟨[], h s, fun _ h => absurd h List.not_mem_nil⟩ }

/-- An update of what is received. -/
theorem setIn (f : Client → In) : F.Moves (modify fun s => { s with inp := f s } : W Unit) :=
  .modify fun s => { Kept.refl s with }

/-- An update of the scene that keeps the order and the callbacks. -/
theorem setScene {f : Client → Scene} (hz : ∀ s, (f s).zcount = s.scene.zcount)
    (hp : ∀ s, (f s).pendCbs = s.scene.pendCbs) :
    F.Moves (modify fun s => { s with scene := f s } : W Unit) :=
  .modify fun s => { Kept.refl s with
    zcount := hz s ▸ F.zcount.refl _, pend := hp s ▸ F.pend.refl _ }

/-- An update of the window that keeps its objects. -/
theorem setWin {f : Client → Window} (hs : ∀ s, (f s).topSurface = s.win.topSurface)
    (hl : ∀ s, (f s).topLevel = s.win.topLevel) :
    F.Moves (modify fun s => { s with win := f s } : W Unit) :=
  .modify fun s => { Kept.refl s with top := hs s ▸ hl s ▸ F.top.refl _ }

/-- An update of the devices that the frame allows. -/
theorem setDev {f : Client → Devices} (h : ∀ s, F.dev.rel s.dev (f s)) :
    F.Moves (modify fun s => { s with dev := f s } : W Unit) :=
  .modify fun s => { Kept.refl s with dev := h s }

theorem flush : F.Moves flush := setOut fun _ => rfl

theorem ensureRoom : F.Moves ensureRoom := get_bind fun _ => whenever fun _ => flush

theorem nextSerial : F.Moves nextSerial :=
  get_bind fun _ => .bind (setOut fun _ => rfl) fun _ => .pure _

theorem winDamage (x y w h : Int) : F.Moves (winDamage x y w h) :=
  setScene (fun _ => rfl) fun _ => rfl

theorem damageSurface (i : Nat) : F.Moves (damageSurface i) :=
  get_bind fun _ => whenever fun _ => winDamage _ _ _ _

/-- Anything but the objects may change. -/
def still : Frame := ⟨.none, .any, .any, .any, .any, .any, fun _ => True⟩

/-! ### Drawing -/

theorem write (m : Mem) (at_ n : Int) (f : Int → UInt32 → UInt32) : F.Moves (m.write at_ n f) :=
  .ite (fun _ => .pure _) fun _ => .throw _

theorem reads (m : Mem) (at_ n : Int) : F.Moves (m.reads at_ n) :=
  .ite (fun _ => .pure _) fun _ => .throw _

theorem forRows {y0 y1 : Int} {f : Int → W Unit} (h : ∀ y, F.Moves (f y)) :
    F.Moves (forRows y0 y1 f) := .forM fun _ _ => h _

theorem setFb (px : Nat → UInt32) : F.Moves (modify fun s => { s with scene.fb := px } : W Unit) :=
  setScene (fun _ => rfl) fun _ => rfl

theorem drawRow (m : Mem) (o : Surface) (ax ay x0 x1 y : Int) :
    F.Moves (drawRow m o ax ay x0 x1 y) := by
  refine .ite (fun _ => ?_) fun _ => .ite (fun _ => ?_) fun _ => .pure _
  · exact (reads ..).bind fun _ => get_bind fun _ => (write ..).bind fun _ => setFb _
  · exact (reads ..).bind fun _ => get_bind fun _ => (write ..).bind fun _ => setFb _

theorem drawSurface (i : Nat) (c : Box) : F.Moves (drawSurface i c) := by
  refine get_bind fun s => ?_
  dsimp only
  cases (s.objs i).srf.st with
  | none => exact .pure _
  | some m => exact forRows fun _ => drawRow ..

theorem drawSubs (c : Box) (n parent : Nat) (last : Int) : F.Moves (drawSubs c n parent last) := by
  induction n generalizing parent last with
  | zero => exact .throw _
  | succ n ih =>
      refine get_bind fun s => ?_
      cases s.nextUp (s.isSub parent) last with
      | none => exact .pure _
      | some b => exact (drawSurface b c).bind fun _ => (ih ..).bind fun _ => ih ..

theorem drawPopups (c : Box) (n : Nat) (last : Int) : F.Moves (drawPopups c n last) := by
  induction n generalizing last with
  | zero => exact .throw _
  | succ n ih =>
      refine get_bind fun s => ?_
      cases s.nextUp s.isPopup last with
      | none => exact .pure _
      | some b => exact (drawSurface b c).bind fun _ => (drawSubs ..).bind fun _ => ih _

theorem compose (c : Box) : F.Moves (compose c) := by
  refine get_bind fun s => .ite (fun _ => .pure _) fun _ => ?_
  refine (forRows fun y => ?_).bind fun _ => (drawSubs ..).bind fun _ => drawPopups ..
  exact get_bind fun s => (deref _).bind fun _ => (reads ..).bind fun _ => (write ..).bind fun _ =>
    setFb _

theorem saveScreen : F.Moves saveScreen := by
  refine get_bind fun _ => (forRows fun y => ?_).bind fun _ => setScene (fun _ => rfl) fun _ => rfl
  exact get_bind fun s => (deref _).bind fun _ => (reads ..).bind fun _ => (write ..).bind fun _ =>
    setScene (fun _ => rfl) fun _ => rfl

theorem ensureBase (x : Ext) : F.Moves (ensureBase x) := by
  refine get_bind fun s => .ite (fun _ => .pure _) fun _ => .ite (fun _ => saveScreen) fun _ => ?_
  refine .ite (fun _ => .bind ?_ fun _ => saveScreen) fun _ => ?_
  · exact setScene (fun _ => rfl) fun _ => rfl
  · exact setScene (fun _ => rfl) fun _ => rfl

theorem copyRows (x : Ext) (dst : Mem) (dstStride dx dy : Int) (src size stride : Nat)
    (sx sy w h : Int) (white : Bool) :
    F.Moves (copyRows x dst dstStride dx dy src size stride sx sy w h white) :=
  .foldlM (fun _ _ => .ite (fun _ => write ..) fun _ => .throw _) _

/-! ### Contents -/

theorem target (useBase : Bool) : F.Moves (target useBase) :=
  get_bind fun _ => .ite (fun _ => deref _) fun _ => .pure _

theorem setTarget (useBase : Bool) (m : Mem) : F.Moves (setTarget useBase m) :=
  .ite (fun _ => setScene (fun _ => rfl) fun _ => rfl) fun _ => setFb _

theorem clearTarget (useBase : Bool) : F.Moves (clearTarget useBase) :=
  get_bind fun _ => (target _).bind fun m =>
    (Prog.Moves.foldlM (fun _ _ => write ..) m).bind fun _ => setTarget ..

theorem copyToplevel (x : Ext) (o : Surface) (q : Source) (c : Box) (useBase : Bool) (src : Nat) :
    F.Moves (copyToplevel x o q c useBase src) :=
  get_bind fun _ => (target _).bind fun _ => (copyRows ..).bind fun _ => (setTarget ..).bind fun _ =>
    whenever fun _ => setScene (fun _ => rfl) fun _ => rfl

theorem openApp (x : Ext) : F.Moves (openApp x) :=
  get_bind fun _ => whenever fun _ =>
    setWin (fun _ => rfl) fun _ => rfl

theorem ensureKids (x : Ext) : F.Moves (ensureKids x) :=
  get_bind fun _ => (whenever fun _ => ensureBase x).bind fun _ => get_bind fun _ => .pure _

/-- A commit sets the size of a surface and maps it. -/
theorem commitToplevel (x : Ext) (i : Nat) (q : Source)
    (h : ∀ (o : Obj) sw sh, F.obj.rel o { o with srf.sw := sw, srf.sh := sh, srf.mapped := true }) :
    F.Moves (commitToplevel x i q) := by
  refine (openApp x).bind fun _ => obj_bind fun _ => (ensureKids x).bind fun _ => get_bind fun _ => ?_
  refine (whenever fun _ => clearTarget _).bind fun _ =>
    (whenever fun _ => copyToplevel ..).bind fun _ => ?_
  exact .ite (fun _ => (winDamage ..).bind fun _ => editSrf fun o => h o _ _)
    fun _ => (winDamage ..).bind fun _ => editSrf fun o => h o _ _

/-- A commit changes the copy, the size and the alpha of a surface, and maps it. -/
theorem commitChild (x : Ext) (i : Nat) (q : Source)
    (hst : ∀ (o : Obj) st sw sh, F.obj.rel o { o with srf.st := st, srf.sw := sw, srf.sh := sh })
    (hmap : ∀ (o : Obj) a, F.obj.rel o { o with srf.alpha := a, srf.mapped := true }) :
    F.Moves (commitChild x i q) := by
  refine get_bind fun s => (whenever fun _ => ?_).bind fun _ => (whenever fun _ => ?_).bind fun _ => ?_
  · exact (damageSurface i).bind fun _ => editSrf fun o => hst o _ _ _
  · refine obj_bind fun o => ?_
    cases o.srf.st with
    | none => exact .pure _
    | some m => exact (copyRows ..).bind fun _ => editSrf fun o => hst o _ _ _
  · refine (editSrf fun o => hmap o _).bind fun _ => get_bind fun _ => whenever fun _ => ?_
    refine (whenever fun _ => ensureBase x).bind fun _ => ?_
    exact .ite (fun _ => winDamage _ _ _ _) fun _ => winDamage _ _ _ _

/-- The edits of a commit. -/
structure Commits (F : Frame) : Prop where
  contents : ∀ (o : Obj) st sw sh, F.obj.rel o { o with srf.st := st, srf.sw := sw, srf.sh := sh }
  map : ∀ (o : Obj) a m, F.obj.rel o { o with srf.alpha := a, srf.mapped := m }
  attached : ∀ o : Obj, F.obj.rel o { o with srf.attached := false }
  damage : ∀ o : Obj, F.obj.rel o { o with srf.dmg := Box.none }
  release : F.sends .buffer

theorem Commits.commitContents (h : F.Commits) (x : Ext) (i : Nat) (q : Source) (r : Role) :
    F.Moves (commitContents x i q r) := by
  cases r with
  | none => exact .pure _
  | toplevel =>
      exact commitToplevel x i q fun o sw sh =>
        F.obj.trans (h.contents o o.srf.st sw sh) (h.map _ _ true)
  | sub | popup => exact commitChild x i q h.contents fun o a => h.map o a true

theorem Commits.commitAttached (h : F.Commits) (x : Ext) (i : Nat) :
    F.Moves (commitAttached x i) := by
  refine (editSrf h.attached).bind fun _ => get_bind fun s => ?_
  cases (s.find (s.objs i).ref).filter fun b => (s.objs b).type = .buffer with
  | none =>
      exact obj_bind fun _ => (whenever fun _ => damageSurface i).bind fun _ =>
        editSrf fun o => h.map o _ false
  | some b => exact get_bind fun _ => (h.commitContents ..).bind fun _ => ev h.release

/-! ### Input -/

theorem orElse {r : Hit} {x : W Hit} (hx : F.Moves x) : F.Moves (orElse r x) := by
  cases r with
  | none => exact hx
  | some r => exact .pure _

theorem hitTree (x y : Int) (n parent : Nat) (last : Int) : F.Moves (hitTree x y n parent last) := by
  induction n generalizing parent last with
  | zero => exact .throw _
  | succ n ih =>
      refine get_bind fun s => ?_
      cases s.nextDown (s.isSub parent) last with
      | none => exact .pure _
      | some b => exact (ih ..).bind fun _ => orElse (orElse (ih ..))

theorem hitPopups (x y : Int) (n : Nat) (last : Int) : F.Moves (hitPopups x y n last) := by
  induction n generalizing last with
  | zero => exact .throw _
  | succ n ih =>
      refine get_bind fun s => ?_
      cases s.nextDown s.isPopup last with
      | none => exact .pure _
      | some b => exact (hitTree ..).bind fun _ => orElse (orElse (ih _))

theorem hit (x y : Int) : F.Moves (hit x y) :=
  get_bind fun _ => (hitPopups ..).bind fun _ => orElse ((hitTree ..).bind fun _ => orElse (.pure _))

theorem underPointer (e : WmEvent) : F.Moves (underPointer e) :=
  get_bind fun _ => .ite (fun _ => (hit ..).bind fun _ => .pure _) fun _ => .pure _

/-- The edits and the events of input. -/
structure Inputs (F : Frame) : Prop where
  dismiss : ∀ o : Obj, o.srf.role = .popup →
    F.obj.rel o { o with srf.role := .none, srf.mapped := false, srf.grab := false }
  dev : ∀ d e, F.dev.rel d e
  sends : ∀ k ∈ [Kind.pointer, .keyboard, .popup, .toplevel, .xdgsurf, .output], F.sends k

namespace Inputs

variable (h : F.Inputs)

include h

theorem setDev {f : Client → Devices} :
    F.Moves (modify fun s => { s with dev := f s } : W Unit) := Frame.setDev fun _ => h.dev _ _

theorem ptrEv (op : Nat) (args : List Arg) : F.Moves (ptrEv op args) :=
  get_bind fun _ => .forM fun _ _ => ev (h.sends _ (by simp))

theorem kbEv (op : Nat) (args : List Arg) : F.Moves (kbEv op args) :=
  get_bind fun _ => .forM fun _ _ => ev (h.sends _ (by simp))

theorem ptrFrame : F.Moves ptrFrame :=
  get_bind fun _ => .forM fun _ _ => get_bind fun _ => whenever fun _ => ev (h.sends _ (by simp))

theorem sendMods (m : UInt8) : F.Moves (sendMods m) := nextSerial.bind fun _ => h.kbEv _ _

theorem kbKey (now key state : Nat) : F.Moves (kbKey now key state) :=
  nextSerial.bind fun _ => h.kbEv _ _

theorem ptrButton (now button : Nat) (pressed : Bool) : F.Moves (ptrButton now button pressed) :=
  nextSerial.bind fun _ => h.ptrEv _ _

theorem ptrLeave (surface : Nat) : F.Moves (ptrLeave surface) :=
  nextSerial.bind fun _ => h.ptrEv _ _

theorem ptrEnter (surface : Nat) (at_ : Arg × Arg) : F.Moves (ptrEnter surface at_) :=
  nextSerial.bind fun _ => h.ptrEv _ _

theorem kbLeave (surface : Nat) : F.Moves (kbLeave surface) := nextSerial.bind fun _ => h.kbEv _ _

theorem kbEnter (surface : Nat) : F.Moves (kbEnter surface) := nextSerial.bind fun _ => h.kbEv _ _

theorem sendConfigure : F.Moves sendConfigure :=
  get_bind fun _ => whenever fun _ => (ev (h.sends _ (by simp))).bind fun _ =>
    nextSerial.bind fun _ => ev (h.sends _ (by simp))

theorem kbRefocus : F.Moves kbRefocus :=
  get_bind fun _ => whenever fun _ => (whenever fun _ => h.kbLeave _).bind fun _ =>
    h.setDev.bind fun _ => whenever fun _ => h.kbEnter _

/-- A popup that is dismissed. -/
theorem dismiss_at {s : Client} {i : Nat} (hr : (s.objs i).srf.role = .popup) :
    wp (Wl.dismiss i) (fun _ t => F.Kept s t) (fun _ _ => True) s := by
  have hsend : F.sends .popup := h.sends _ (by simp)
  simp only [Wl.dismiss, Wl.obj, wp_bind, wp_get, wp_pure]
  refine wp_mono (wp_and ((ev hsend).along s) ((ev (F := still) trivial).along s))
    (fun _ t ht => ?_) fun _ _ _ => trivial
  refine (wp_bind _ _).mpr (wp_mono (wp_and ((damageSurface (F := F) i).along t)
    ((damageSurface (F := still) i).along t)) (fun _ u hu => ?_) fun _ _ _ => trivial)
  have hi : (u.objs i).srf.role = .popup := by
    rw [show u.objs i = t.objs i from hu.2.objs i, show t.objs i = s.objs i from ht.2.objs i]
    exact hr
  exact ht.1.trans (hu.1.trans (setObj_kept (h.dismiss _ hi)))

theorem dismissLoop (n : Nat) : F.Moves (dismissLoop n) := by
  induction n with
  | zero => exact .pure _
  | succ n ih =>
      refine .get_at fun s => ?_
      cases hb : Client.pick s.isOpen fun i => -s.zOf i with
      | none => exact Kept.refl s
      | some b =>
          have hr : (s.objs b).srf.role = .popup := by
            have hopen := (Client.pick_among hb).2
            simp only [Client.isOpen, Bool.decide_and, Bool.and_eq_true, decide_eq_true_eq] at hopen
            exact hopen.2.1
          exact (wp_bind _ _).mpr (wp_mono (h.dismiss_at hr)
            (fun _ t ht => wp_mono (ih.along t) (fun _ _ hu => ht.trans hu) fun _ _ _ => trivial)
            fun _ _ _ => trivial)

theorem dismissPopups : F.Moves dismissPopups := (h.dismissLoop _).bind fun _ => h.kbRefocus

theorem handleScreen (x : Ext) (e : WmEvent) : F.Moves (handleScreen x e) := by
  refine get_bind fun s => whenever fun _ => .bind (setWin (fun _ => rfl) fun _ => rfl) fun _ => ?_
  refine .forM fun i _ => whenever fun _ => (ev (h.sends _ (by simp))).bind fun _ => ?_
  exact whenever fun _ => ev (h.sends _ (by simp))

theorem handleSize : F.Moves handleSize :=
  get_bind fun _ => whenever fun _ => .bind (setWin (fun _ => rfl) fun _ => rfl) fun _ =>
    h.sendConfigure

theorem handleFocus (e : WmEvent) : F.Moves (handleFocus e) :=
  get_bind fun _ => whenever fun _ => .bind h.setDev fun _ =>
    (whenever fun _ => h.dismissPopups).bind fun _ => h.kbRefocus

theorem crossPointer (old tid : Nat) (at_ : Arg × Arg) : F.Moves (crossPointer old tid at_) :=
  (whenever fun _ => h.ptrLeave _).bind fun _ => (whenever fun _ => h.ptrEnter _ _).bind fun _ =>
    h.setDev

theorem movePointer (x : Ext) (e : WmEvent) (tid : Nat) (at_ : Arg × Arg) :
    F.Moves (movePointer x e tid at_) := by
  refine .bind (get_bind fun _ => whenever fun _ => h.setDev) fun _ => get_bind fun _ => ?_
  refine .ite (fun _ => (h.crossPointer _ _ _).bind fun _ => .pure _) fun _ => ?_
  exact .ite (fun _ => (h.ptrEv _ _).bind fun _ => .pure _) fun _ => .pure _

theorem leftButton (x : Ext) (e : WmEvent) : F.Moves (leftButton x e) := by
  refine get_bind fun _ => .ite (fun _ => ?_) fun _ => .ite (fun _ => ?_) fun _ => .pure _
  · exact .bind (whenever fun _ => h.ptrButton _ _ _) fun _ => .bind h.setDev fun _ => .pure _
  · exact (h.ptrButton _ _ _).bind fun _ => (h.ptrButton _ _ _).bind fun _ => .pure _

theorem handleButtons (x : Ext) (e : WmEvent) : F.Moves (handleButtons x e) :=
  (h.leftButton x e).bind fun _ => (whenever fun _ => (h.ptrButton _ _ _).bind fun _ =>
    h.ptrButton _ _ _).bind fun _ => (whenever fun _ => h.ptrEv _ _).bind fun _ => .pure _

theorem swallowClick (e : WmEvent) : F.Moves (swallowClick e) :=
  h.dismissPopups.bind fun _ => h.setDev

theorem pressPointer (x : Ext) (e : WmEvent) : F.Moves (pressPointer x e) :=
  .bind (get_bind fun _ => .ite (fun _ => h.handleButtons x e) fun _ => .pure _) fun _ =>
    .bind h.setDev fun _ => .pure _

theorem handlePointer (x : Ext) (e : WmEvent) : F.Moves (handlePointer x e) := by
  refine (underPointer e).bind fun t => (h.movePointer x e _ _).bind fun _ => .bind h.setDev fun _ => ?_
  refine get_bind fun _ => .ite (fun _ => ?_) fun _ => ?_
  · exact (h.swallowClick e).bind fun _ => (whenever fun _ => h.ptrFrame).bind fun _ => .pure _
  · exact (h.pressPointer x e).bind fun _ => (whenever fun _ => h.ptrFrame).bind fun _ => .pure _

theorem handleKey (x : Ext) (e : WmEvent) : F.Moves (handleKey x e) := by
  refine .bind (get_bind fun _ => whenever fun _ => .bind h.setDev fun _ => h.kbRefocus) fun _ => ?_
  exact get_bind fun _ => whenever fun _ => (h.sendMods _).bind fun _ => (h.kbKey _ _ _).bind fun _ =>
    h.kbKey _ _ _

theorem handleWm (x : Ext) (e : WmEvent) : F.Moves (handleWm x e) := by
  refine get_bind fun _ => (whenever fun _ => ev (h.sends _ (by simp))).bind fun _ => ?_
  refine (h.handleScreen x e).bind fun _ => h.handleSize.bind fun _ => (h.handleFocus e).bind fun _ => ?_
  refine .bind (get_bind fun _ => .ite (fun _ => h.handlePointer x e) fun _ => .pure _) fun _ => ?_
  exact whenever fun _ => get_bind fun _ => (whenever fun _ => h.handleKey x e).bind fun _ => ensureRoom

theorem pumpWm (x : Ext) (e : WmEvent) : F.Moves (pumpWm x e) :=
  .bind (whenever fun _ => setWin (fun _ => rfl) fun _ => rfl) fun _ => h.handleWm x e

/-- What is shown may be answered with input. -/
theorem presentWindow (x : Ext) : F.Moves (presentWindow x) := by
  refine get_bind fun _ => whenever fun _ => get_bind fun _ => ?_
  refine (whenever fun _ => compose _).bind fun _ => .bind (setScene (fun _ => rfl) fun _ => rfl) ?_
  exact fun _ => whenever fun _ => h.pumpWm x _

end Inputs

/-! ### Requests -/

theorem aU32 : F.Moves aU32 := by
  refine get_bind fun s => ?_
  cases s.inp.args with
  | nil => exact .throw _
  | cons w ws => exact .bind (setIn _) fun _ => .pure _

theorem aI32 : F.Moves aI32 := aU32.bind fun _ => .pure _

theorem aStr : F.Moves aStr := by
  refine aU32.bind fun n => get_bind fun s => ?_
  refine .ite (fun _ => .pure _) fun _ => .ite (fun _ => .throw _) fun _ => ?_
  cases (wordBytes s.inp.args)[n - 1]? with
  | none => exact .throw _
  | some b => exact .ite (fun _ => .throw _) fun _ => .bind (setIn _) fun _ => .pure _

theorem withSome {f : Nat → W Unit} {j : Option Nat} (h : ∀ i, F.Moves (f i)) :
    F.Moves (withSome f j) := by
  cases j with
  | none => exact .pure _
  | some i => exact h i

theorem withSurf {f : Nat → W Unit} {id : Nat} (h : ∀ i, F.Moves (f i)) : F.Moves (withSurf id f) :=
  get_bind fun _ => withSome h

theorem editPool {i : Nat} {f : Pool → Pool} (h : ∀ o : Obj, F.obj.rel o { o with pool := f o.pool }) :
    F.Moves (editPool i f) := edit h

theorem regionBox (i : Nat) (refs : Int) (h : ∀ o : Obj, F.obj.rel o { o with pool.refs := refs }) :
    F.Moves (regionBox i refs) :=
  aI32.bind fun _ => aI32.bind fun _ => aI32.bind fun _ => aI32.bind fun _ =>
    whenever fun _ => editPool h

theorem damageRequest (i : Nat) (h : ∀ (o : Obj) d, F.obj.rel o { o with srf.dmg := d }) :
    F.Moves (damageRequest i) :=
  aI32.bind fun _ => aI32.bind fun _ => aI32.bind fun _ => aI32.bind fun _ =>
    whenever fun _ => editSrf fun o => h o _

theorem setPosition (j : Nat) (h : ∀ (o : Obj) x y, F.obj.rel o { o with srf.px := x, srf.py := y }) :
    F.Moves (setPosition j) :=
  aI32.bind fun x => aI32.bind fun y => (damageSurface j).bind fun _ =>
    (editSrf fun o => h o x y).bind fun _ => damageSurface j

theorem restack (j : Nat) (above : Bool) (h : ∀ (o : Obj) z, F.obj.rel o { o with srf.z := z }) :
    F.Moves (restack j above) :=
  aU32.bind fun _ => get_bind fun _ => (editSrf fun o => h o _).bind fun _ => damageSurface j

theorem setPos (i k n : Nat) (h : ∀ (o : Obj) p, F.obj.rel o { o with pos := p }) :
    F.Moves (setPos i k n) := by
  induction n generalizing k with
  | zero => exact .pure _
  | succ n ih => exact aI32.bind fun _ => (edit fun o => h o _).bind fun _ => ih _

theorem setGeometry (j : Nat) (h : ∀ (o : Obj) x y w h,
    F.obj.rel o { o with srf.gx := x, srf.gy := y, srf.gw := w, srf.gh := h }) :
    F.Moves (setGeometry j) :=
  aI32.bind fun _ => aI32.bind fun _ => aI32.bind fun _ => aI32.bind fun _ =>
    whenever fun _ => editSrf fun o => h o _ _ _ _

theorem grabPopup (j : Nat) (hi : F.Inputs) (h : ∀ o : Obj, F.obj.rel o { o with srf.grab := true }) :
    F.Moves (grabPopup j) :=
  aU32.bind fun _ => aU32.bind fun _ => (editSrf h).bind fun _ => hi.kbRefocus

theorem munmap (base size : Nat)
    (h : ∀ s : Shared, F.shm.rel s { s with maps := s.maps.erase (base, size) }) :
    F.Moves (munmap base size) :=
  get_bind fun _ => .ite (fun _ => .modify fun s => { Kept.refl s with shm := h _ }) fun _ =>
    .throw _

theorem closeSome (fd : Option Nat)
    (h : ∀ (s : Shared) fd, F.shm.rel s { s with fds := s.fds.erase fd }) :
    F.Moves (closeSome fd) := by
  cases fd with
  | none => exact .pure _
  | some fd =>
      exact get_bind fun _ => .ite (fun _ => .modify fun s => { Kept.refl s with shm := h _ _ })
        fun _ => .throw _

/-- The edits of a pool that comes and goes. -/
structure Pools (F : Frame) : Prop where
  shm : ∀ s s', F.shm.rel s s'
  size : ∀ (o : Obj) b n, F.obj.rel o { o with pool.base := b, pool.size := n }
  fd : ∀ (o : Obj) fd n b, F.obj.rel o { o with pool.fd := fd, pool.size := n, pool.shm := b }
  gone : ∀ o : Obj, F.obj.rel o { o with pool.base := 0, pool.fd := none }
  refs : ∀ (o : Obj) n, F.obj.rel o { o with pool.refs := n }
  buf : ∀ (o : Obj) r b, F.obj.rel o { o with ref := r, buf := b }

namespace Pools

variable (h : F.Pools)

include h

theorem takeFd : F.Moves takeFd := by
  refine get_bind fun s => ?_
  cases s.inp.fds with
  | nil => exact .throw _
  | cons f fs => exact .bind (.modify fun s => { Kept.refl s with shm := h.shm _ _ }) fun _ => .pure _

theorem mapPool (x : Ext) (o : Obj) (p size : Nat) : F.Moves (mapPool x o p size) := by
  unfold Wl.mapPool
  cases x.mmap with
  | none => exact .throw _
  | some a =>
      exact .bind (.modify fun s => { Kept.refl s with shm := h.shm _ _ }) fun _ =>
        editPool fun o => h.size o _ _

theorem releasePool (p : Nat) : F.Moves (releasePool p) :=
  obj_bind fun _ => (whenever fun _ => munmap _ _ fun _ => h.shm _ _).bind fun _ =>
    (closeSome _ fun _ _ => h.shm _ _).bind fun _ => editPool h.gone

theorem resizePool (x : Ext) (i : Nat) (o : Obj) : F.Moves (resizePool x i o) :=
  aU32.bind fun _ => whenever fun _ => (munmap _ _ fun _ => h.shm _ _).bind fun _ => h.mapPool ..

/-- What follows when a pool was made. -/
theorem makesPool (x : Ext) (o : Obj) (fd : Nat) (size : Int) (p : Nat) : F.Moves (do
    Wl.whenever (size ≤ 0) (protocolError o.id 0)
    Wl.editPool p fun q => { q with fd := some fd, size := size.toNat, shm := x.shm }
    Wl.mapPool x o p size.toNat) :=
  (whenever fun _ => .throw _).bind fun _ => (editPool fun o => h.fd o _ _ _).bind fun _ =>
    h.mapPool ..

/-- What follows when a buffer was made. -/
theorem makesBuffer (i c : Nat) (o : Obj) : F.Moves (do
    let offset ← Wl.aU32
    let w ← Wl.aU32
    let h ← Wl.aU32
    let stride ← Wl.aU32
    let fmt ← Wl.aU32
    Wl.edit c fun q => { q with ref := o.id, buf := ⟨some i, offset, w, h, stride, fmt⟩ }
    Wl.editPool i fun p => { p with refs := p.refs + 1 }
    Wl.whenever (fmt > 1 ∨ stride < w * 4 % 2 ^ 32 ∨ w > 8192 ∨ h > 8192) (protocolError o.id 0)) :=
  aU32.bind fun _ => aU32.bind fun _ => aU32.bind fun _ => aU32.bind fun _ => aU32.bind fun _ =>
    (edit fun o => h.buf o _ _).bind fun _ => (editPool fun o => h.refs o _).bind fun _ =>
      whenever fun _ => .throw _

end Pools

theorem nextZ (h : ∀ z z', F.zcount.rel z z') : F.Moves nextZ :=
  get_bind fun _ => .bind (.modify fun s => { Kept.refl s with zcount := h _ _ }) fun _ => .pure _

theorem placePopup (i : Nat) (p : Nat → Int)
    (h : ∀ (o : Obj) x y, F.obj.rel o { o with srf.px := x, srf.py := y }) (hi : F.Inputs) :
    F.Moves (placePopup i p) := by
  refine get_bind fun _ => (editSrf fun o => h o _ _).bind fun _ => ?_
  exact (ev (hi.sends _ (by simp))).bind fun _ => nextSerial.bind fun _ => ev (hi.sends _ (by simp))

theorem sendKeymapTo (x : Ext) (kbd : Nat) (h : F.sends .keyboard) : F.Moves (sendKeymapTo x kbd) := by
  unfold Wl.sendKeymapTo
  cases x.keymap with
  | none => exact .pure _
  | some size =>
      exact get_bind fun _ => whenever fun _ => .bind (setOut fun _ => rfl) fun _ => ev h

theorem changeLayout (x : Ext) (h : F.sends .keyboard) : F.Moves (changeLayout x) :=
  get_bind fun _ => whenever fun _ => get_bind fun _ => .forM fun _ _ => flush.bind fun _ =>
    sendKeymapTo x _ h

theorem Inputs.pump (h : F.Inputs) (x : Ext) (e : WmEvent) : F.Moves (pump x e) :=
  get_bind fun _ => whenever fun _ => h.pumpWm x e

theorem greet (x : Ext) (id version : Nat) (k : Kind)
    (h : ∀ k ∈ [Kind.shm, .seat, .output, .decomgr], F.sends k) : F.Moves (greet x id version k) := by
  cases k with
  | shm => exact (ev (h _ (by simp))).bind fun _ => ev (h _ (by simp))
  | seat => exact (ev (h _ (by simp))).bind fun _ => whenever fun _ => ev (h _ (by simp))
  | output =>
      refine .bind (setWin (fun _ => rfl) fun _ => rfl) fun _ => (ev (h _ (by simp))).bind fun _ => ?_
      refine (ev (h _ (by simp))).bind fun _ => whenever fun _ => ?_
      exact (ev (h _ (by simp))).bind fun _ => ev (h _ (by simp))
  | decomgr => exact ev (h _ (by simp))
  | _ => exact .pure _

theorem unroleToplevel (id j : Nat) (h : ∀ o : Obj,
    F.obj.rel o { o with srf.role := .none, srf.mapped := false, srf.roleobj := 0 }) :
    F.Moves (unroleToplevel id j) := obj_bind fun _ => whenever fun _ => editSrf h

theorem dropRole (i : Nat) (h : ∀ o : Obj, F.obj.rel o { o with srf := o.srf.unrole }) :
    F.Moves (dropRole i) := by
  refine get_bind fun s => ?_
  cases (s.surf (s.objs i).ref).filter fun j => (s.objs j).srf.roleobj = (s.objs i).id with
  | none => exact .pure _
  | some j => exact (damageSurface j).bind fun _ => editSrf h

end Frame

end Pulsar.Wl

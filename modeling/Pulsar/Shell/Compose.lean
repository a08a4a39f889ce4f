import Pulsar.Shell.Rect

/-!
# Composing a frame (`shell/src/main.rs`)

A damaged rectangle is composed of layers: the wallpaper, the windows from the lowest, and what lies
above them.  `compose_split` cuts it into pieces around the opaque part of a window, so that what
the window hides is not drawn there.

What a layer paints is a function of the point and of the pixel below.

* `parts_partition`: the pieces are disjoint and cover the rectangle.
* `Scene.value_eq`: which windows and which bar are drawn changes no pixel of a piece.
* **`compose_split_iff`**: the pixels are those of one composition exactly where the dock is not
  missed in a piece (`Scene.Docked`).
* `dock_shadow_missed`: the shadow of the dock beside a window.
-/

namespace Pulsar.Shell

def MENU_H : Int32 := 28
def WIN_RAD : Int32 := 10

abbrev Pixel := UInt32

/-- What is painted at a point over a pixel. -/
abbrev Paint := Int32 → Int32 → Pixel → Pixel

def Rect.inset (r : Rect) (d : Int32) : Rect := ⟨r.x + d, r.y + d, r.w - 2 * d, r.h - 2 * d⟩

/-- A window, and what `draw_window` paints. -/
structure Scene.Win where
  r : Rect
  internal : Bool
  committed : Bool
  paint : Paint

namespace Scene.Win

/-- `outer()`: what the window may paint. -/
def outer (w : Win) : Rect := ⟨w.r.x - 32, w.r.y - 24, w.r.w + 64, w.r.h + 64⟩

/-- `opaque()`: what the window hides. -/
def opaqueRect (w : Win) : Rect := ⟨w.r.x, w.r.y + WIN_RAD, w.r.w, w.r.h - 2 * WIN_RAD⟩

/-- The window has something to show. -/
def solid (w : Win) : Bool := w.internal || w.committed

end Scene.Win

/-- What there is to compose.  `stack` has the windows in the order of `z_order`; `snap` is drawn
above them, and `rest` is what is drawn last whatever is damaged: the control center, the toasts,
the search, the switcher and the dialog. -/
structure Scene where
  wall : Int32 → Int32 → Pixel
  stack : List Scene.Win
  snap : Paint
  dock_area : Rect
  dock : Paint
  menubar : Paint
  menu : Option (Rect × Paint)
  rest : Paint

namespace Scene

/-- The windows from the highest one on that hides the whole rectangle. -/
def covered (dmg : Rect) : List Win → Option (List Win)
  | [] => none
  | w :: ws =>
    match covered dmg ws with
    | some l => some l
    | none => if w.opaqueRect.contains_rect dmg && w.solid then some (w :: ws) else none

/-- The loop over the windows. -/
def windows (dmg : Rect) (px py : Int32) (ws : List Win) (v : Pixel) : Pixel :=
  ws.foldl (fun v w => if w.outer.overlaps dmg then w.paint px py v else v) v

/-- The pixel that `compose(dmg)` leaves where `v` was. -/
def value (σ : Scene) (dmg : Rect) (px py : Int32) (v : Pixel) : Pixel :=
  let v := match covered dmg σ.stack with
    | some ws => windows dmg px py ws v
    | none => windows dmg px py σ.stack (σ.wall px py)
  let v := σ.snap px py v
  let v := if σ.dock_area.overlaps dmg then σ.dock px py v else v
  let v := if dmg.y < MENU_H then σ.menubar px py v else v
  let v := match σ.menu with
    | some (r, paint) => if (r.inset (-24)).overlaps dmg then paint px py v else v
    | none => v
  σ.rest px py v

/-- `compose(dmg)`. -/
def compose (σ : Scene) (dmg : Rect) (fb : Int32 → Int32 → Pixel) : Int32 → Int32 → Pixel :=
  fun px py => if dmg.contains px py then σ.value dmg px py (fb px py) else fb px py

/-- What is left around the part that is cut out. -/
def pieces (dmg o : Rect) : List Rect :=
  [⟨dmg.x, dmg.y, dmg.w, o.y - dmg.y⟩,
    ⟨dmg.x, o.bottom, dmg.w, dmg.bottom - o.bottom⟩,
    ⟨dmg.x, o.y, o.x - dmg.x, o.h⟩,
    ⟨o.right, o.y, dmg.right - o.right, o.h⟩]

/-- The loop over the windows from the highest: the part to cut out. -/
def cut (dmg : Rect) : List Win → Option Rect
  | [] => none
  | w :: ws =>
    let o := w.opaqueRect.intersect dmg
    if o.is_empty then cut dmg ws
    else if !w.solid || o.contains_rect dmg then none
    else if o.w * o.h * 4 < dmg.w * dmg.h then none
    else some o

/-- The rectangles that `compose_split(dmg, 3 - n)` composes. -/
def parts (ws : List Win) : Nat → Rect → List Rect
  | 0, dmg => [dmg]
  | n + 1, dmg =>
    match cut dmg ws.reverse with
    | some o => o :: (pieces dmg o).flatMap fun p => if p.is_empty then [] else parts ws n p
    | none => [dmg]

/-- `compose_split(dmg, 0)`. -/
def compose_split (σ : Scene) (dmg : Rect) (fb : Int32 → Int32 → Pixel) : Int32 → Int32 → Pixel :=
  (parts σ.stack 3 dmg).foldl (fun fb d => σ.compose d fb) fb

variable {σ : Scene} {dmg d o q : Rect} {ws : List Win} {px py w k : Int32} {n : Nat}

/-! ### Tilings -/

/-- Some rectangle of the list covers the point. -/
def Covers (ps : List Rect) (px py : Int32) : Prop := ∃ p ∈ ps, p.contains px py = true

/-- No point is covered by both. -/
def Apart (p q : Rect) : Prop := ∀ px py, p.contains px py = true → ¬ q.contains px py = true

/-- Rectangles that cover what others cover, and are disjoint if those are. -/
structure Tiles (ps ds : List Rect) : Prop where
  covers : ∀ px py, Covers ps px py ↔ Covers ds px py
  apart : ps.Pairwise Apart → ds.Pairwise Apart

variable {p : Rect} {ps qs ds : List Rect}

theorem Tiles.refl (ps : List Rect) : Tiles ps ps := ⟨fun _ _ => Iff.rfl, id⟩

theorem Tiles.trans (h : Tiles ps qs) (h' : Tiles qs ds) : Tiles ps ds :=
  ⟨fun px py => (h.covers px py).trans (h'.covers px py), fun ha => h'.apart (h.apart ha)⟩

theorem covers_append : Covers (ps ++ qs) px py ↔ Covers ps px py ∨ Covers qs px py := by
  simp only [Covers, List.mem_append, or_and_right, exists_or]

theorem covers_singleton : Covers [p] px py ↔ p.contains px py = true := by
  simp only [Covers, List.mem_singleton, exists_eq_left]

theorem Tiles.cons (h : Tiles [p] ds) (h' : Tiles ps qs) : Tiles (p :: ps) (ds ++ qs) where
  covers px py := by
    rw [covers_append, ← h.covers, ← h'.covers, ← covers_append]
    rfl
  apart ha := by
    obtain ⟨hp, hps⟩ := List.pairwise_cons.mp ha
    refine List.pairwise_append.mpr ⟨h.apart (List.pairwise_singleton ..), h'.apart hps,
      fun d hd q hq px py hc hc' => ?_⟩
    obtain ⟨p', hp', hin⟩ := (h'.covers px py).mpr ⟨q, hq, hc'⟩
    exact hp p' hp' px py (covers_singleton.mp ((h.covers px py).mpr ⟨d, hd, hc⟩)) hin

theorem Tiles.flatMap {f : Rect → List Rect} (h : ∀ p ∈ ps, Tiles [p] (f p)) :
    Tiles ps (ps.flatMap f) := by
  induction ps with
  | nil => exact .refl []
  | cons p ps ih =>
      exact (h p (List.mem_cons_self ..)).cons (ih fun q hq => h q (List.mem_cons_of_mem _ hq))

/-! ### The pieces -/

theorem pieces_inside (hd : dmg.Inside w k) (ho : o.Inside w k) (hin : o.Within dmg) :
    (Rect.mk dmg.x dmg.y dmg.w (o.y - dmg.y)).Inside w k ∧
      (Rect.mk dmg.x o.bottom dmg.w (dmg.bottom - o.bottom)).Inside w k ∧
      (Rect.mk dmg.x o.y (o.x - dmg.x) o.h).Inside w k ∧
      (Rect.mk o.right o.y (dmg.right - o.right) o.h).Inside w k := by
  have hr := hd.toInt_right
  have hb := hd.toInt_bottom
  have hr' := ho.toInt_right
  have hb' := ho.toInt_bottom
  obtain ⟨_, _, _, _⟩ := hd
  obtain ⟨_, _, _, _⟩ := ho
  obtain ⟨_, _, _, _, _, _⟩ := hin
  have := w.toInt_lt
  have := k.toInt_lt
  have hup := Rect.toInt_sub_of o.y dmg.y (by omega) (by omega)
  have hdown := Rect.toInt_sub_of dmg.bottom o.bottom (by omega) (by omega)
  have hleft := Rect.toInt_sub_of o.x dmg.x (by omega) (by omega)
  have hright := Rect.toInt_sub_of dmg.right o.right (by omega) (by omega)
  refine ⟨⟨?_, ?_, ?_, ?_⟩, ⟨?_, ?_, ?_, ?_⟩, ⟨?_, ?_, ?_, ?_⟩, ⟨?_, ?_, ?_, ?_⟩⟩ <;>
    simp only [hup, hdown, hleft, hright, hr', hb'] <;> omega

theorem pieces_tile (hd : dmg.Inside w k) (ho : o.Inside w k) (hin : o.Within dmg) :
    Tiles [dmg] (o :: pieces dmg o) := by
  obtain ⟨hu, hv, hl, hm⟩ := pieces_inside hd ho hin
  have hr := hd.toInt_right
  have hb := hd.toInt_bottom
  have hr' := ho.toInt_right
  have hb' := ho.toInt_bottom
  have hd' := hd
  have ho' := ho
  obtain ⟨_, _, _, _⟩ := hd'
  obtain ⟨_, _, _, _⟩ := ho'
  obtain ⟨_, _, _, _, _, _⟩ := hin
  have := w.toInt_lt
  have := k.toInt_lt
  have hup := Rect.toInt_sub_of o.y dmg.y (by omega) (by omega)
  have hdown := Rect.toInt_sub_of dmg.bottom o.bottom (by omega) (by omega)
  have hleft := Rect.toInt_sub_of o.x dmg.x (by omega) (by omega)
  have hright := Rect.toInt_sub_of dmg.right o.right (by omega) (by omega)
  refine ⟨fun px py => ?_, fun _ => ?_⟩
  · simp only [Covers, pieces, List.mem_cons, List.not_mem_nil, or_false, exists_eq_or_imp,
      exists_eq_left, hd.contains_iff, ho.contains_iff, hu.contains_iff, hv.contains_iff,
      hl.contains_iff, hm.contains_iff, hup, hdown, hleft, hright, hr', hb', hr, hb]
    omega
  · simp only [Apart, pieces, List.pairwise_cons, List.mem_cons, List.not_mem_nil, or_false,
      forall_eq_or_imp, forall_eq, ho.contains_iff, hu.contains_iff, hv.contains_iff,
      hl.contains_iff, hm.contains_iff, hup, hdown, hleft, hright, hr', hb', hr, hb]
    refine ⟨⟨?_, ?_, ?_, ?_⟩, ⟨?_, ?_, ?_⟩, ⟨?_, ?_⟩, ?_, ?_⟩
    iterate 10
      · intro px py hp hq
        omega
    exact ⟨fun _ hf => hf.elim, .nil⟩

theorem cut_some (hd : dmg.Inside w k) (h : cut dmg ws = some o) : o.Inside w k ∧ o.Within dmg := by
  induction ws with
  | nil => cases h
  | cons u ws ih =>
      rw [cut] at h
      split_ifs at h with he
      · exact ih h
      · obtain rfl := Option.some.inj h
        obtain hno | ⟨-, hin, hw⟩ := hd.meet u.opaqueRect
        · rw [hno] at he
          exact absurd rfl he
        · exact ⟨hin, hw⟩

/-- **The pieces** are inside the screen and disjoint, and cover the rectangle. -/
theorem parts_tile (hd : dmg.Inside w k) :
    (∀ d ∈ parts ws n dmg, d.Inside w k) ∧ Tiles [dmg] (parts ws n dmg) := by
  induction n generalizing dmg with
  | zero => exact ⟨fun d h => List.mem_singleton.mp h ▸ hd, .refl _⟩
  | succ n ih =>
      rw [parts]
      cases hc : cut dmg ws.reverse with
      | none => exact ⟨fun d h => List.mem_singleton.mp h ▸ hd, .refl _⟩
      | some o =>
          obtain ⟨ho, hin⟩ := cut_some hd hc
          obtain ⟨hu, hv, hl, hm⟩ := pieces_inside hd ho hin
          have hpieces : ∀ p ∈ pieces dmg o, p.Inside w k := by
            simp only [pieces, List.mem_cons, List.not_mem_nil, or_false, forall_eq_or_imp,
              forall_eq]
            exact ⟨hu, hv, hl, hm⟩
          simp only
          refine ⟨fun d h => ?_, (pieces_tile hd ho hin).trans
            ((Tiles.refl [o]).cons (.flatMap fun p hp => ?_))⟩
          · obtain rfl | h := List.mem_cons.mp h
            · exact ho
            obtain ⟨p, hp, h⟩ := List.mem_flatMap.mp h
            split_ifs at h
            · exact absurd h List.not_mem_nil
            · exact (ih (hpieces p hp)).1 d h
          · split_ifs with he
            · refine ⟨fun px py => ?_, fun _ => .nil⟩
              rw [covers_singleton, (hpieces p hp).contains_empty he]
              simp [Covers]
            · exact (ih (hpieces p hp)).2

/-! ### The pixels -/

/-- What the drawing of the layers keeps to: a window paints in its outer rectangle, and in its
opaque one whatever is below; the bar paints at the top, and the menu around its rectangle. -/
structure Painted (σ : Scene) : Prop where
  outer : ∀ u ∈ σ.stack, ∀ px py v, u.outer.contains px py = false → u.paint px py v = v
  hides : ∀ u ∈ σ.stack, u.solid = true → ∀ px py, u.opaqueRect.contains px py = true →
    ∀ v v', u.paint px py v = u.paint px py v'
  menubar : ∀ px py v, MENU_H ≤ py → σ.menubar px py v = v
  menu : ∀ m ∈ σ.menu, ∀ px py v, (m.1.inset (-24)).contains px py = false → m.2 px py v = v

/-- What there is at a point below the dock. -/
def below (σ : Scene) (px py : Int32) : Pixel :=
  σ.snap px py (σ.stack.foldl (fun v u => u.paint px py v) (σ.wall px py))

/-- What is painted at a point above the dock. -/
def above (σ : Scene) (px py : Int32) (v : Pixel) : Pixel :=
  let v := σ.menubar px py v
  let v := match σ.menu with
    | some (_, paint) => paint px py v
    | none => v
  σ.rest px py v

/-- The pixel that the composition of a rectangle leaves. -/
def pixel (σ : Scene) (d : Rect) (px py : Int32) : Pixel :=
  σ.above px py (if σ.dock_area.overlaps d then σ.dock px py (σ.below px py) else σ.below px py)

theorem contains_of_rect {r : Rect} (h : r.contains_rect d = true) (hp : d.contains px py = true) :
    r.contains px py = true := by
  simp only [Rect.contains_rect, Bool.and_eq_true, decide_eq_true_eq] at h
  rw [Rect.contains_iff] at hp ⊢
  simp only [Int32.le_iff_toInt_le, Int32.lt_iff_toInt_lt] at h hp ⊢
  omega

theorem contains_of_guard {r : Rect} (hd : d.Inside w k) (hp : d.contains px py = true)
    (h : ¬ r.overlaps d = true) : r.contains px py = false :=
  Bool.eq_false_iff.mpr fun hr => h ((hd.overlaps_iff r).mpr ⟨px, py, hr, hp⟩)

theorem windows_eq (h : ∀ u ∈ ws, ∀ px py v, u.outer.contains px py = false → u.paint px py v = v)
    (hd : d.Inside w k) (hp : d.contains px py = true) (v : Pixel) :
    windows d px py ws v = ws.foldl (fun v u => u.paint px py v) v := by
  induction ws generalizing v with
  | nil => rfl
  | cons u ws ih =>
      have hrest := ih fun u' hu' => h u' (List.mem_cons_of_mem _ hu')
      have hone : (if u.outer.overlaps d then u.paint px py v else v) = u.paint px py v := by
        split_ifs with ho
        · rfl
        · exact (h u (List.mem_cons_self ..) px py v (contains_of_guard hd hp ho)).symm
      exact (congrArg (windows d px py ws) hone).trans (hrest _)

theorem covered_some {l : List Win} (h : covered d ws = some l) : ∃ pre u rest,
    ws = pre ++ u :: rest ∧ l = u :: rest ∧ u.opaqueRect.contains_rect d = true ∧
      u.solid = true := by
  induction ws with
  | nil => cases h
  | cons u ws ih =>
      rw [covered] at h
      cases hc : covered d ws with
      | some l' =>
          rw [hc] at h
          obtain rfl := Option.some.inj h
          obtain ⟨pre, u', rest, rfl, hl, hr⟩ := ih hc
          exact ⟨u :: pre, u', rest, rfl, hl, hr⟩
      | none =>
          rw [hc] at h
          simp only at h
          split_ifs at h with hu
          obtain rfl := Option.some.inj h
          exact ⟨[], u, ws, rfl, rfl, Bool.and_eq_true_iff.mp hu⟩

/-- **The pixel** depends on the rectangle only in the dock. -/
theorem value_eq (hσ : σ.Painted) (hd : d.Inside w k) (hp : d.contains px py = true) (v : Pixel) :
    σ.value d px py v = σ.pixel d px py := by
  have hwin : (match covered d σ.stack with
      | some ws => windows d px py ws v
      | none => windows d px py σ.stack (σ.wall px py)) =
        σ.stack.foldl (fun v u => u.paint px py v) (σ.wall px py) := by
    cases hc : covered d σ.stack with
    | none => exact windows_eq hσ.outer hd hp _
    | some l =>
        obtain ⟨pre, u, rest, hs, rfl, hu, hsolid⟩ := covered_some hc
        have hmem : u ∈ σ.stack := hs ▸ List.mem_append_right _ (List.mem_cons_self ..)
        have hsub : ∀ u' ∈ u :: rest, u' ∈ σ.stack := fun u' h => hs ▸ List.mem_append_right _ h
        have hsame := hσ.hides u hmem hsolid px py (contains_of_rect hu hp) v
        simp only
        rw [windows_eq (fun u' h => hσ.outer u' (hsub u' h)) hd hp, hs, List.foldl_append,
          List.foldl_cons, List.foldl_cons, hsame]
  have hbar (v : Pixel) : (if d.y < MENU_H then σ.menubar px py v else v) = σ.menubar px py v := by
    split_ifs with hy
    · rfl
    · refine (hσ.menubar px py v ?_).symm
      have hpy := (Rect.contains_iff.mp hp).2.2.1
      rw [Int32.lt_iff_toInt_lt] at hy
      rw [Int32.le_iff_toInt_le] at hpy ⊢
      omega
  have hmenu (v : Pixel) : (match σ.menu with
      | some (r, paint) => if (r.inset (-24)).overlaps d then paint px py v else v
      | none => v) = match σ.menu with
      | some (_, paint) => paint px py v
      | none => v := by
    rcases hm : σ.menu with - | ⟨r, paint⟩
    · rfl
    simp only
    split_ifs with ho
    · rfl
    · exact (hσ.menu (r, paint) hm px py v (contains_of_guard hd hp ho)).symm
  unfold value pixel above below
  simp only [hwin, hbar, hmenu]

/-! ### Both compositions -/

theorem compose_out {ds : List Rect} {fb : Int32 → Int32 → Pixel}
    (h : ∀ d ∈ ds, ¬ d.contains px py = true) :
    (ds.foldl (fun fb d => σ.compose d fb) fb) px py = fb px py := by
  induction ds generalizing fb with
  | nil => rfl
  | cons d ds ih =>
      rw [List.foldl_cons, ih fun e he => h e (List.mem_cons_of_mem _ he)]
      exact if_neg (h d (List.mem_cons_self ..))

theorem compose_in (hσ : σ.Painted) {ds : List Rect} {fb : Int32 → Int32 → Pixel}
    (hin : ∀ d ∈ ds, d.Inside w k) (ha : ds.Pairwise Apart) (hd : d ∈ ds)
    (hp : d.contains px py = true) :
    (ds.foldl (fun fb d => σ.compose d fb) fb) px py = σ.pixel d px py := by
  induction ds generalizing fb with
  | nil => exact absurd hd List.not_mem_nil
  | cons e ds ih =>
      obtain ⟨he, hds⟩ := List.pairwise_cons.mp ha
      rw [List.foldl_cons]
      obtain rfl | hd := List.mem_cons.mp hd
      · rw [compose_out fun e' he' => he e' he' px py hp]
        exact (if_pos hp).trans (value_eq hσ (hin d (List.mem_cons_self ..)) hp _)
      · exact ih (fun e' he' => hin e' (List.mem_cons_of_mem _ he')) hds hd

/-- Where a piece does not meet the area of the dock, although the rectangle does, what the dock
paints in it is not seen. -/
def Docked (σ : Scene) (dmg : Rect) : Prop :=
  σ.dock_area.overlaps dmg = true → ∀ d ∈ parts σ.stack 3 dmg, σ.dock_area.overlaps d = false →
    ∀ px py, d.contains px py = true →
      σ.above px py (σ.dock px py (σ.below px py)) = σ.above px py (σ.below px py)

/-- **Composing the pieces** is composing the rectangle exactly where the dock is not missed. -/
theorem compose_split_iff (hσ : σ.Painted) (hd : dmg.Inside w k) :
    ((parts σ.stack 3 dmg).Pairwise Apart ∧
        (∀ px py, dmg.contains px py = true ↔ Covers (parts σ.stack 3 dmg) px py) ∧
        ∀ fb, compose_split σ dmg fb = σ.compose dmg fb) ↔ σ.Docked dmg := by
  obtain ⟨hin, ht⟩ := @parts_tile dmg σ.stack w k 3 hd
  have hapart := ht.apart (List.pairwise_singleton ..)
  have hcovers (px py : Int32) : dmg.contains px py = true ↔ Covers (parts σ.stack 3 dmg) px py :=
    covers_singleton.symm.trans (ht.covers px py)
  rw [and_iff_right hapart, and_iff_right hcovers]
  have hwhole {px py : Int32} (fb : Int32 → Int32 → Pixel) (hp : dmg.contains px py = true) :
      σ.compose dmg fb px py = σ.pixel dmg px py := (if_pos hp).trans (value_eq hσ hd hp _)
  constructor
  · intro h hdock d hmem hno px py hp
    have hp' := (hcovers px py).mpr ⟨d, hmem, hp⟩
    have heq := (hwhole (fun _ _ => 0) hp').symm.trans
      ((congrFun (congrFun (h fun _ _ => 0) px) py).symm.trans (compose_in hσ hin hapart hmem hp))
    rwa [pixel, pixel, if_pos hdock, if_neg (by simp [hno])] at heq
  · intro h fb
    funext px py
    by_cases hp : dmg.contains px py = true
    · obtain ⟨d, hmem, hpd⟩ := (hcovers px py).mp hp
      rw [hwhole fb hp]
      refine (compose_in hσ hin hapart hmem hpd).trans ?_
      rw [pixel, pixel]
      by_cases hdock : σ.dock_area.overlaps d = true
      · obtain ⟨qx, qy, hq, hq'⟩ := ((hin d hmem).overlaps_iff _).mp hdock
        have hall := (hd.overlaps_iff σ.dock_area).mpr
          ⟨qx, qy, hq, (hcovers qx qy).mpr ⟨d, hmem, hq'⟩⟩
        rw [if_pos hdock, if_pos hall]
      · rw [if_neg hdock]
        split_ifs with hall
        · exact (h hall d hmem (by simpa using hdock) px py hpd).symm
        · rfl
    · have hout : ∀ d ∈ parts σ.stack 3 dmg, ¬ d.contains px py = true := fun d hmem hpd =>
        hp ((hcovers px py).mpr ⟨d, hmem, hpd⟩)
      exact (compose_out hout).trans (if_neg hp).symm

/-! ### The shadow of the dock -/

/-- `darken(bg, a)`. -/
def darken (bg a : UInt32) : UInt32 :=
  let b := a + (a >>> 7)
  let ia := 256 - if b ≤ 256 then b else 256
  let rb : UInt32 := ((bg &&& 0xFF00FF) * ia) >>> 8
  let g : UInt32 := ((bg &&& 0xFF00) * ia) >>> 8
  (rb &&& 0xFF00FF) ||| (g &&& 0xFF00)

/-- The left side of `shadow(bg, rad, 20, 6, alpha)`, beside the straight part of its edge. -/
def leftShadow (bg : Rect) (rad : Int) (alpha : UInt32) : Paint := fun px py v =>
  let d := (bg.x.toInt - px.toInt) * 16 - 8
  if 0 < d ∧ d < 320 ∧ bg.y.toInt + 6 + rad ≤ py.toInt ∧
      py.toInt < bg.y.toInt + bg.h.toInt + 6 - rad then
    let t := UInt32.ofNat (256 - d * 256 / 320).toNat
    let s : UInt32 := (t * t) >>> 8
    darken v ((alpha * s) >>> 8)
  else v

/-- A white wallpaper on a screen of 1280 by 800, a dock of nine icons at the bottom, and a window
from the left end of its area on. -/
def besideDock : Scene where
  wall _ _ := 0xFFFFFF
  stack := [⟨⟨340, 680, 400, 120⟩, true, false, fun px py v =>
    if (Rect.mk 340 680 400 120).contains px py then 0x202020 else v⟩]
  snap _ _ v := v
  dock_area := (Rect.mk 352 722 575 72).inset (-12) |>.union ⟨352, 682, 575, 40⟩
  dock := leftShadow ⟨352, 722, 575, 72⟩ 21 60
  menubar _ _ v := v
  menu := none
  rest _ _ v := v

theorem painted_besideDock : besideDock.Painted where
  outer u hu px py v h := by
    obtain rfl := List.mem_singleton.mp hu
    refine if_neg fun hc => ?_
    exact Bool.eq_false_iff.mp h (contains_of_rect (by decide) hc)
  hides u hu _ px py h v v' := by
    obtain rfl := List.mem_singleton.mp hu
    have hc : (Rect.mk 340 680 400 120).contains px py = true := contains_of_rect (by decide) h
    exact (if_pos hc).trans (if_pos hc).symm
  menubar _ _ _ _ := rfl
  menu m hm := absurd hm (Option.not_mem_none m)

/-- Nothing is missed above the area of the dock. -/
theorem compose_split_above :
    ((parts besideDock.stack 3 ⟨330, 600, 100, 60⟩).Pairwise Apart ∧
        (∀ px py, (Rect.mk 330 600 100 60).contains px py = true ↔
          Covers (parts besideDock.stack 3 ⟨330, 600, 100, 60⟩) px py) ∧
        ∀ fb, compose_split besideDock ⟨330, 600, 100, 60⟩ fb =
          besideDock.compose ⟨330, 600, 100, 60⟩ fb) ↔
      besideDock.Docked ⟨330, 600, 100, 60⟩ :=
  compose_split_iff painted_besideDock (⟨by decide, by decide, by decide, by decide⟩ :
    (Rect.mk 330 600 100 60).Inside 1280 800)

/-- **The shadow is missed**: left of a window that hides the dock from its area on. -/
theorem dock_shadow_missed :
    besideDock.Painted ∧ (Rect.mk 330 700 300 80).Inside 1280 800 ∧
      compose_split besideDock ⟨330, 700, 300, 80⟩ (fun _ _ => 0) 339 750 = 0xFFFFFF ∧
      besideDock.compose ⟨330, 700, 300, 80⟩ (fun _ _ => 0) 339 750 = 0xF7F7F7 ∧
      ¬ ∀ fb, compose_split besideDock ⟨330, 700, 300, 80⟩ fb =
        besideDock.compose ⟨330, 700, 300, 80⟩ fb := by
  have hsplit : compose_split besideDock ⟨330, 700, 300, 80⟩ (fun _ _ => 0) 339 750 = 0xFFFFFF := by
    decide +kernel
  have hwhole : besideDock.compose ⟨330, 700, 300, 80⟩ (fun _ _ => 0) 339 750 = 0xF7F7F7 := by
    decide +kernel
  refine ⟨painted_besideDock, ⟨by decide, by decide, by decide, by decide⟩, hsplit, hwhole,
    fun h => ?_⟩
  have heq := hsplit.symm.trans ((congrFun (congrFun (h fun _ _ => 0) 339) 750).trans hwhole)
  exact absurd heq (by decide)

end Scene

end Pulsar.Shell

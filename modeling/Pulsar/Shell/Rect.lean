import Mathlib.Data.Int.Basic

/-!
# Rectangles of the screen (`plib/src/gfx.rs`)

A rectangle is a corner and two lengths in signed 32-bit words, whose sums wrap.  What it covers is
what `Rect.contains` says.

* `contains_intersect`, `contains_union`: the intersection covers what both cover, and the union of
  two that are not empty covers what either does, whatever the corners are.
* `Rect.Inside`: the rectangle is inside a screen, and its corners do not wrap.
-/

namespace Pulsar.Shell

@[ext] structure Rect where
  x : Int32
  y : Int32
  w : Int32
  h : Int32
  deriving DecidableEq, Repr

namespace Rect

def empty : Rect := ⟨0, 0, 0, 0⟩

def right (r : Rect) : Int32 := r.x + r.w

def bottom (r : Rect) : Int32 := r.y + r.h

def is_empty (r : Rect) : Bool := r.w ≤ 0 || r.h ≤ 0

def contains (r : Rect) (px py : Int32) : Bool :=
  r.x ≤ px && px < r.x + r.w && r.y ≤ py && py < r.y + r.h

def contains_rect (r o : Rect) : Bool :=
  r.x ≤ o.x && r.y ≤ o.y && o.right ≤ r.right && o.bottom ≤ r.bottom

def intersect (r o : Rect) : Rect :=
  let x0 := max r.x o.x
  let y0 := max r.y o.y
  let x1 := min r.right o.right
  let y1 := min r.bottom o.bottom
  if x1 ≤ x0 ∨ y1 ≤ y0 then empty else ⟨x0, y0, x1 - x0, y1 - y0⟩

def overlaps (r o : Rect) : Bool := !(r.intersect o).is_empty

def union (r o : Rect) : Rect :=
  if r.is_empty then o
  else if o.is_empty then r
  else
    let x0 := min r.x o.x
    let y0 := min r.y o.y
    let x1 := max r.right o.right
    let y1 := max r.bottom o.bottom
    ⟨x0, y0, x1 - x0, y1 - y0⟩

variable {r o : Rect} {px py w k : Int32}

/-! ### What a rectangle covers -/

theorem contains_iff :
    r.contains px py = true ↔ r.x ≤ px ∧ px < r.right ∧ r.y ≤ py ∧ py < r.bottom := by
  simp only [contains, right, bottom, Bool.and_eq_true, decide_eq_true_eq, and_assoc]

/-- A rectangle whose sums do not wrap covers the points between its corners. -/
theorem contains_iff_of_add (hw : r.right.toInt = r.x.toInt + r.w.toInt)
    (hh : r.bottom.toInt = r.y.toInt + r.h.toInt) : r.contains px py = true ↔
      (r.x.toInt ≤ px.toInt ∧ px.toInt < r.x.toInt + r.w.toInt) ∧
        r.y.toInt ≤ py.toInt ∧ py.toInt < r.y.toInt + r.h.toInt := by
  rw [contains_iff, Int32.le_iff_toInt_le, Int32.lt_iff_toInt_lt, Int32.le_iff_toInt_le,
    Int32.lt_iff_toInt_lt, hw, hh, and_assoc]

theorem add_sub_self (a b : Int32) : a + (b - a) = b := by
  rw [Int32.add_comm, Int32.sub_add_cancel]

theorem toInt_max (a b : Int32) : (max a b).toInt = max a.toInt b.toInt := by
  show (if a ≤ b then b else a).toInt = _
  split
  · next h => have := Int32.le_iff_toInt_le.mp h; omega
  · next h => have := mt Int32.le_iff_toInt_le.mpr h; omega

theorem toInt_min (a b : Int32) : (min a b).toInt = min a.toInt b.toInt := by
  show (if a ≤ b then a else b).toInt = _
  split
  · next h => have := Int32.le_iff_toInt_le.mp h; omega
  · next h => have := mt Int32.le_iff_toInt_le.mpr h; omega

/-- What two rectangles cover, their intersection covers, and nothing else. -/
theorem contains_intersect :
    (r.intersect o).contains px py = true ↔
      r.contains px py = true ∧ o.contains px py = true := by
  simp only [contains_iff, intersect]
  split
  · next h =>
    simp only [Int32.le_iff_toInt_le, Int32.lt_iff_toInt_lt, toInt_max, toInt_min, empty, right,
      bottom] at h ⊢
    constructor
    · rintro ⟨hx, hx', -⟩
      exact absurd (Int.lt_of_le_of_lt hx hx') (Int.lt_irrefl _)
    · intro hp
      omega
  · simp only [right, bottom, add_sub_self, Int32.le_iff_toInt_le, Int32.lt_iff_toInt_lt, toInt_max,
      toInt_min]
    omega

/-- What one of two rectangles that are not empty covers, their union covers. -/
theorem contains_union (hr : r.is_empty = false) (ho : o.is_empty = false)
    (h : r.contains px py = true ∨ o.contains px py = true) :
    (r.union o).contains px py = true := by
  simp only [union, hr, ho, Bool.false_eq_true, if_false]
  simp only [contains_iff, right, bottom, add_sub_self, Int32.le_iff_toInt_le,
    Int32.lt_iff_toInt_lt, toInt_max, toInt_min] at h ⊢
  omega

theorem contains_empty (px py : Int32) : empty.contains px py = false := by
  rw [← Bool.not_eq_true, contains_iff]
  rintro ⟨hx, hx', -⟩
  rw [Int32.le_iff_toInt_le] at hx
  rw [Int32.lt_iff_toInt_lt] at hx'
  exact absurd (Int.lt_of_le_of_lt hx hx') (Int.lt_irrefl _)

/-! ### Rectangles inside a screen -/

/-- A rectangle inside a screen: its corners are those it has without wrapping. -/
structure Inside (r : Rect) (w h : Int32) : Prop where
  left : 0 ≤ r.x.toInt
  top : 0 ≤ r.y.toInt
  right : r.x.toInt + r.w.toInt ≤ w.toInt
  bottom : r.y.toInt + r.h.toInt ≤ h.toInt

/-- A rectangle that is not empty, inside another one. -/
structure Within (r o : Rect) : Prop where
  left : o.x.toInt ≤ r.x.toInt
  top : o.y.toInt ≤ r.y.toInt
  right : r.x.toInt + r.w.toInt ≤ o.x.toInt + o.w.toInt
  bottom : r.y.toInt + r.h.toInt ≤ o.y.toInt + o.h.toInt
  wide : 0 < r.w.toInt
  high : 0 < r.h.toInt

theorem toInt_add_of (a b : Int32) (h : -2147483648 ≤ a.toInt + b.toInt)
    (h' : a.toInt + b.toInt < 2147483648) : (a + b).toInt = a.toInt + b.toInt := by
  rw [Int32.toInt_add]
  simp only [Int.bmod]
  omega

theorem toInt_sub_of (a b : Int32) (h : -2147483648 ≤ a.toInt - b.toInt)
    (h' : a.toInt - b.toInt < 2147483648) : (a - b).toInt = a.toInt - b.toInt := by
  rw [Int32.toInt_sub]
  simp only [Int.bmod]
  omega

namespace Inside

theorem toInt_right (h : r.Inside w k) : r.right.toInt = r.x.toInt + r.w.toInt := by
  have := h.left
  have := h.right
  have := w.toInt_lt
  have := r.w.le_toInt
  exact toInt_add_of _ _ (by omega) (by omega)

theorem toInt_bottom (h : r.Inside w k) : r.bottom.toInt = r.y.toInt + r.h.toInt := by
  have := h.top
  have := h.bottom
  have := k.toInt_lt
  have := r.h.le_toInt
  exact toInt_add_of _ _ (by omega) (by omega)

/-- A rectangle inside a screen covers the points between its corners. -/
theorem contains_iff (h : r.Inside w k) :
    r.contains px py = true ↔
      (r.x.toInt ≤ px.toInt ∧ px.toInt < r.x.toInt + r.w.toInt) ∧
        r.y.toInt ≤ py.toInt ∧ py.toInt < r.y.toInt + r.h.toInt :=
  contains_iff_of_add h.toInt_right h.toInt_bottom

theorem contains_empty (h : r.Inside w k) (he : r.is_empty = true) :
    r.contains px py = false := by
  rw [← Bool.not_eq_true, h.contains_iff]
  simp only [is_empty, Bool.or_eq_true, decide_eq_true_eq, Int32.le_iff_toInt_le,
    Int32.toInt_zero] at he
  omega

theorem screen (w k : Int32) : (Rect.mk 0 0 w k).Inside w k :=
  ⟨Int.le_refl _, Int.le_refl _, by simp, by simp⟩

/-- What is left of a rectangle in another one that is inside the screen: nothing, or a rectangle
inside both. -/
theorem meet (hd : o.Inside w k) (r : Rect) :
    r.intersect o = empty ∨ (r.intersect o).is_empty = false ∧ (r.intersect o).Inside w k ∧
      (r.intersect o).Within o := by
  have hr := hd.toInt_right
  have hb := hd.toInt_bottom
  have := hd.left
  have := hd.top
  have := hd.right
  have := hd.bottom
  have := w.toInt_lt
  have := k.toInt_lt
  simp only [intersect]
  split
  · exact .inl rfl
  next h =>
  right
  simp only [Int32.le_iff_toInt_le, toInt_max, toInt_min, hr, hb] at h
  have hw := toInt_sub_of (min r.right o.right) (max r.x o.x)
  have hk := toInt_sub_of (min r.bottom o.bottom) (max r.y o.y)
  simp only [toInt_max, toInt_min, hr, hb] at hw hk
  specialize hw (by omega) (by omega)
  specialize hk (by omega) (by omega)
  refine ⟨?_, ⟨?_, ?_, ?_, ?_⟩, ⟨?_, ?_, ?_, ?_, ?_, ?_⟩⟩
  · simp only [is_empty, Bool.or_eq_false_iff, decide_eq_false_iff_not, Int32.le_iff_toInt_le,
      Int32.toInt_zero, hw, hk]
    omega
  all_goals
    simp only [toInt_max, hw, hk]
    omega

/-- What is left of a rectangle on the screen is nothing, or a rectangle inside it. -/
theorem clip (r : Rect) (w k : Int32) :
    r.intersect ⟨0, 0, w, k⟩ = empty ∨
      (r.intersect ⟨0, 0, w, k⟩).is_empty = false ∧ (r.intersect ⟨0, 0, w, k⟩).Inside w k :=
  ((screen w k).meet r).imp_right fun h => ⟨h.1, h.2.1⟩

theorem overlaps_iff (hd : o.Inside w k) (r : Rect) : r.overlaps o = true ↔
    ∃ px py, r.contains px py = true ∧ o.contains px py = true := by
  rw [overlaps, Bool.not_eq_true']
  refine ⟨fun h => ?_, fun ⟨px, py, hp⟩ => ?_⟩
  · obtain he | ⟨-, hin, hw⟩ := hd.meet r
    · rw [he] at h
      cases h
    · refine ⟨(r.intersect o).x, (r.intersect o).y, contains_intersect.mp (hin.contains_iff.mpr ?_)⟩
      have := hw.wide
      have := hw.high
      omega
  · have hp := contains_intersect.mpr hp
    obtain he | ⟨he, -⟩ := hd.meet r
    · rw [he, Rect.contains_empty] at hp
      cases hp
    · exact he

theorem union (hr : r.Inside w k) (ho : o.Inside w k) : (r.union o).Inside w k := by
  unfold Rect.union
  split_ifs with her heo
  · exact ho
  · exact hr
  simp only [is_empty, Bool.or_eq_true, decide_eq_true_eq, Int32.le_iff_toInt_le,
    Int32.toInt_zero] at her heo
  have := hr.left
  have := hr.top
  have := hr.right
  have := hr.bottom
  have := ho.left
  have := ho.top
  have := ho.right
  have := ho.bottom
  have := w.toInt_lt
  have := k.toInt_lt
  refine ⟨?_, ?_, ?_, ?_⟩ <;> simp only [toInt_min]
  · omega
  · omega
  · rw [toInt_sub_of] <;> simp only [toInt_max, toInt_min, hr.toInt_right, ho.toInt_right] <;> omega
  · rw [toInt_sub_of] <;> simp only [toInt_max, toInt_min, hr.toInt_bottom, ho.toInt_bottom] <;>
      omega

/-- What one of two rectangles inside a screen covers, their union covers. -/
theorem contains_union (hr : r.Inside w k) (ho : o.Inside w k)
    (h : r.contains px py = true ∨ o.contains px py = true) :
    (r.union o).contains px py = true := by
  cases her : r.is_empty with
  | true => simpa [Rect.union, her, hr.contains_empty her] using h
  | false =>
      cases heo : o.is_empty with
      | true => simpa [Rect.union, her, heo, ho.contains_empty heo] using h
      | false => exact Rect.contains_union her heo h

end Inside

end Rect

end Pulsar.Shell

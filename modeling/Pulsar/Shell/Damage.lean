import Mathlib.Logic.Function.Basic
import Pulsar.Shell.Rect

/-!
# The damage of a frame (`shell/src/main.rs`)

What changed on the screen is kept as at most eight rectangles until the next frame is composed.  A
request is clipped to the screen and merged with every kept rectangle that it overlaps; when the
list is full it is merged with the first one.

* `Wm.merge_spec`: merging loses no point, and what it keeps is inside the screen.
* **`damage_kept`**: in every run, the points of the screen asked for since the last frame are in
  the rectangles kept, which are inside the screen and at most eight.
-/

namespace Pulsar.Shell

/-- The capacity of the list of rectangles. -/
def DMG_MAX : Nat := 8

/-- The screen and the first `ndmg` rectangles of the list, which are those kept. -/
structure Wm where
  w : Int32
  h : Int32
  dmg : Nat → Rect
  ndmg : Nat

namespace Wm

/-- The window manager as it starts, on a screen of a size. -/
def new (w h : Int32) : Wm := ⟨w, h, fun _ => Rect.empty, 0⟩

def screen (σ : Wm) : Rect := ⟨0, 0, σ.w, σ.h⟩

/-- The loop of `damage`: what it merges with is taken out and the list is searched again. -/
def merge (dmg : Nat → Rect) (ndmg : Nat) (r : Rect) (k : Nat) : (Nat → Rect) × Nat × Rect :=
  if k < ndmg then
    if (dmg k).overlaps r || (dmg k).contains_rect r then
      merge (Function.update dmg k (dmg (ndmg - 1))) (ndmg - 1) (r.union (dmg k)) 0
    else
      merge dmg ndmg r (k + 1)
  else
    (dmg, ndmg, r)
  termination_by (ndmg, ndmg - k)

def damage (σ : Wm) (r : Rect) : Wm :=
  let r := r.intersect σ.screen
  if r.is_empty then σ
  else
    let (dmg, ndmg, r) := merge σ.dmg σ.ndmg r 0
    if ndmg = DMG_MAX then
      { σ with dmg := Function.update dmg 0 ((dmg 0).union r), ndmg := ndmg }
    else
      { σ with dmg := Function.update dmg ndmg r, ndmg := ndmg + 1 }

def damage_all (σ : Wm) : Wm :=
  { σ with dmg := Function.update σ.dmg 0 σ.screen, ndmg := 1 }

/-- What happens between two frames and at a frame. -/
inductive Request where
  | damage (r : Rect)
  | damage_all
  /-- `apply_config` with another resolution, which ends with `damage_all`. -/
  | resolution (w h : Int32)
  | render

def step (σ : Wm) : Request → Wm
  | .damage r => σ.damage r
  | .damage_all => σ.damage_all
  | .resolution w h => { σ with w := w, h := h }.damage_all
  | .render => { σ with ndmg := 0 }

/-- Whether a point was asked for since the last frame: by a rectangle that covers it, or with the
whole screen. -/
def asked (px py : Int32) (a : Bool) : Request → Bool
  | .damage r => a || r.contains px py
  | .damage_all | .resolution _ _ => true
  | .render => false

variable {σ : Wm} {dmg : Nat → Rect} {n k : Nat} {r : Rect} {px py w h : Int32}

/-! ### The kept rectangles -/

/-- The first `n` rectangles cover a point. -/
def Covers (dmg : Nat → Rect) (n : Nat) (px py : Int32) : Prop :=
  ∃ k < n, (dmg k).contains px py = true

/-- The first `n` rectangles are inside a screen. -/
def Within (dmg : Nat → Rect) (n : Nat) (w h : Int32) : Prop :=
  ∀ k < n, (dmg k).Inside w h

theorem Within.take (hd : Within dmg n w h) (hk : k < n) :
    Within (Function.update dmg k (dmg (n - 1))) (n - 1) w h := by
  intro j hj
  obtain rfl | hjk := eq_or_ne j k
  · rw [Function.update_self]
    exact hd _ (by omega)
  · rw [Function.update_of_ne hjk]
    exact hd _ (by omega)

theorem Covers.take (h : Covers dmg n px py) (hk : k < n) :
    (dmg k).contains px py = true ∨
      Covers (Function.update dmg k (dmg (n - 1))) (n - 1) px py := by
  obtain ⟨j, hj, hc⟩ := h
  obtain rfl | hjk := eq_or_ne j k
  · exact .inl hc
  obtain hl | hl := eq_or_ne j (n - 1)
  · subst hl
    exact .inr ⟨k, by omega, by rwa [Function.update_self]⟩
  · exact .inr ⟨j, by omega, by rwa [Function.update_of_ne hjk]⟩

theorem Within.set {d : Rect} (hd : Within dmg n w h) (hr : d.Inside w h) :
    Within (Function.update dmg k d) n w h := by
  intro j hj
  obtain rfl | hjk := eq_or_ne j k
  · rwa [Function.update_self]
  · rw [Function.update_of_ne hjk]
    exact hd _ hj

theorem Covers.first (h0 : 0 < n) (hd : Within dmg n w h) (hr : r.Inside w h)
    (hp : r.contains px py = true ∨ Covers dmg n px py) :
    Covers (Function.update dmg 0 ((dmg 0).union r)) n px py := by
  obtain hp | ⟨j, hj, hp⟩ := hp
  · refine ⟨0, h0, ?_⟩
    rw [Function.update_self]
    exact (hd 0 h0).contains_union hr (.inr hp)
  obtain rfl | hj0 := eq_or_ne j 0
  · refine ⟨0, h0, ?_⟩
    rw [Function.update_self]
    exact (hd 0 h0).contains_union hr (.inl hp)
  · exact ⟨j, hj, by rwa [Function.update_of_ne hj0]⟩

theorem Within.push (hd : Within dmg n w h) (hr : r.Inside w h) :
    Within (Function.update dmg n r) (n + 1) w h := by
  intro j hj
  obtain rfl | hjn := eq_or_ne j n
  · rwa [Function.update_self]
  · rw [Function.update_of_ne hjn]
    exact hd j (by omega)

theorem Covers.push (hp : r.contains px py = true ∨ Covers dmg n px py) :
    Covers (Function.update dmg n r) (n + 1) px py := by
  obtain hp | ⟨j, hj, hp⟩ := hp
  · exact ⟨n, n.lt_succ_self, by rwa [Function.update_self]⟩
  · exact ⟨j, by omega, by rwa [Function.update_of_ne (by omega)]⟩

/-! ### Merging -/

theorem merge_spec (hd : Within dmg n w h) (hr : r.Inside w h) :
    (merge dmg n r k).2.1 ≤ n ∧ Within (merge dmg n r k).1 (merge dmg n r k).2.1 w h ∧
      (merge dmg n r k).2.2.Inside w h ∧
      ∀ px py, r.contains px py = true ∨ Covers dmg n px py →
        (merge dmg n r k).2.2.contains px py = true ∨
          Covers (merge dmg n r k).1 (merge dmg n r k).2.1 px py := by
  fun_induction merge dmg n r k with
  | case1 dmg n r k hk _ ih =>
    obtain ⟨hn, hd', hr', hc⟩ := ih (hd.take hk) (hr.union (hd k hk))
    refine ⟨by omega, hd', hr', fun px py hp => hc px py ?_⟩
    obtain hp | hp := hp
    · exact .inl (hr.contains_union (hd k hk) (.inl hp))
    obtain hp | hp := hp.take hk
    · exact .inl (hr.contains_union (hd k hk) (.inr hp))
    · exact .inr hp
  | case2 dmg n r k _ _ ih => exact ih hd hr
  | case3 dmg n r k _ => exact ⟨le_refl _, hd, hr, fun _ _ hp => hp⟩

/-! ### A request -/

/-- The list is within its capacity and its rectangles are inside the screen. -/
structure Kept (σ : Wm) : Prop where
  ndmg : σ.ndmg ≤ DMG_MAX
  within : Within σ.dmg σ.ndmg σ.w σ.h

/-- The point is covered by a kept rectangle. -/
def Damaged (σ : Wm) (px py : Int32) : Prop := Covers σ.dmg σ.ndmg px py

theorem damage_spec (hσ : σ.Kept) :
    (σ.damage r).Kept ∧ (σ.damage r).screen = σ.screen ∧
      ∀ px py, σ.Damaged px py ∨ σ.screen.contains px py = true ∧ r.contains px py = true →
        (σ.damage r).Damaged px py := by
  have hclip {px py : Int32} (h : σ.screen.contains px py = true ∧ r.contains px py = true) :
      (r.intersect σ.screen).contains px py = true :=
    Rect.contains_intersect.mpr h.symm
  obtain he | ⟨he, hin⟩ := Rect.Inside.clip r σ.w σ.h
  · -- nothing of the rectangle is on the screen
    have he : r.intersect σ.screen = Rect.empty := he
    unfold damage
    rw [he] at hclip ⊢
    refine ⟨hσ, rfl, fun px py hp => ?_⟩
    obtain hp | hp := hp
    · exact hp
    · exact absurd (hclip hp) (Bool.eq_false_iff.mp (Rect.contains_empty px py))
  replace he : (r.intersect σ.screen).is_empty = false := he
  replace hin : (r.intersect σ.screen).Inside σ.w σ.h := hin
  obtain ⟨hn, hd, hr, hc⟩ := merge_spec (k := 0) hσ.within hin
  simp only [damage, he, Bool.false_eq_true, if_false]
  generalize merge σ.dmg σ.ndmg (r.intersect σ.screen) 0 = m at hn hd hr hc ⊢
  obtain ⟨dmg, n, s⟩ := m
  replace hc {px py : Int32} (hp : σ.Damaged px py ∨
      σ.screen.contains px py = true ∧ r.contains px py = true) :
      s.contains px py = true ∨ Covers dmg n px py :=
    hc px py (hp.symm.imp_left hclip)
  have hcap : n ≤ DMG_MAX := le_trans hn hσ.ndmg
  dsimp only
  split_ifs with hfull
  · -- the list is full
    have h0 : 0 < n := hfull ▸ by decide
    exact ⟨⟨hcap, hd.set ((hd 0 h0).union hr)⟩, rfl, fun px py hp => .first h0 hd hr (hc hp)⟩
  · exact ⟨⟨lt_of_le_of_ne hcap hfull, hd.push hr⟩, rfl, fun px py hp => .push (hc hp)⟩

theorem damage_all_spec (σ : Wm) :
    σ.damage_all.Kept ∧ ∀ px py, σ.screen.contains px py = true → σ.damage_all.Damaged px py := by
  have h0 : σ.damage_all.dmg 0 = σ.screen := by simp only [damage_all, Function.update_self]
  refine ⟨⟨show 1 ≤ DMG_MAX by decide, fun j hj => ?_⟩, fun px py hp => ⟨0, Nat.one_pos, ?_⟩⟩
  · obtain rfl : j = 0 := Nat.lt_one_iff.mp hj
    rw [h0]
    exact Rect.Inside.screen _ _
  · rwa [h0]

/-! ### Every run -/

theorem step_spec (hσ : σ.Kept) {a : Int32 → Int32 → Bool}
    (ha : ∀ px py, σ.screen.contains px py = true → a px py = true → σ.Damaged px py)
    (q : Request) :
    (σ.step q).Kept ∧ ∀ px py, (σ.step q).screen.contains px py = true →
      asked px py (a px py) q = true → (σ.step q).Damaged px py := by
  cases q with
  | damage r =>
    obtain ⟨hk, hs, hc⟩ := damage_spec (r := r) hσ
    refine ⟨hk, fun px py hp hq => hc px py ?_⟩
    replace hp : σ.screen.contains px py = true := hs ▸ hp
    obtain hq | hq := Bool.or_eq_true_iff.mp hq
    · exact .inl (ha px py hp hq)
    · exact .inr ⟨hp, hq⟩
  | damage_all =>
    obtain ⟨hk, hc⟩ := σ.damage_all_spec
    exact ⟨hk, fun px py hp _ => hc px py hp⟩
  | resolution w h =>
    obtain ⟨hk, hc⟩ := damage_all_spec { σ with w := w, h := h }
    exact ⟨hk, fun px py hp _ => hc px py hp⟩
  | render =>
    exact ⟨⟨Nat.zero_le _, fun j hj => absurd hj j.not_lt_zero⟩, fun _ _ _ hq => by cases hq⟩

/-- **Damage tracking loses nothing**: whatever is asked for, in any number of frames, the list is
within its capacity, the rectangles kept are inside the screen, and they cover every point of the
screen that was asked for since the last frame. -/
theorem damage_kept (w h : Int32) (qs : List Request) :
    (qs.foldl step (new w h)).ndmg ≤ DMG_MAX ∧
      (∀ k < (qs.foldl step (new w h)).ndmg,
        ((qs.foldl step (new w h)).dmg k).Inside (qs.foldl step (new w h)).w
          (qs.foldl step (new w h)).h) ∧
      ∀ px py, (qs.foldl step (new w h)).screen.contains px py = true →
        qs.foldl (asked px py) false = true → (qs.foldl step (new w h)).Damaged px py := by
  have hrun (qs : List Request) : ∀ (σ : Wm) (a : Int32 → Int32 → Bool), σ.Kept →
      (∀ px py, σ.screen.contains px py = true → a px py = true → σ.Damaged px py) →
      (qs.foldl step σ).Kept ∧ ∀ px py, (qs.foldl step σ).screen.contains px py = true →
        qs.foldl (asked px py) (a px py) = true → (qs.foldl step σ).Damaged px py := by
    induction qs with
    | nil => exact fun σ a hσ ha => ⟨hσ, ha⟩
    | cons q qs ih =>
        intro σ a hσ ha
        obtain ⟨hk, hc⟩ := step_spec hσ ha q
        exact ih (σ.step q) (fun px py => asked px py (a px py) q) hk hc
  obtain ⟨hk, hc⟩ := hrun qs (new w h) (fun _ _ => false)
    ⟨Nat.zero_le _, fun j hj => absurd hj j.not_lt_zero⟩ fun _ _ _ hq => by cases hq
  exact ⟨hk.ndmg, hk.within, hc⟩

end Wm

end Pulsar.Shell

import Mathlib.Algebra.BigOperators.Intervals
import Mathlib.Algebra.Order.BigOperators.Group.Finset
import Mathlib.Tactic.Ring
import Mathlib.Tactic.Common

/-!
# The blur of a line (`plib/src/gfx.rs`)

`blur_line` replaces each pixel of a line by the average of those around it.  The sums of a window
are not made again for each pixel: what comes in is added and what goes out is subtracted.  The
pixels beyond an end are the one at the end.

* `sums_exact`: the sums are those of the window, as numbers.
* **`blurLine_average`**: each pixel of the line is the average of its window, and no other changes.
-/

namespace Pulsar.Plib

open Finset (range sum_range_succ sum_range_succ')

/-- The channels of `0x00RRGGBB`. -/
def red (c : UInt32) : UInt32 := c >>> 16 &&& 0xFF

def green (c : UInt32) : UInt32 := c >>> 8 &&& 0xFF

def blue (c : UInt32) : UInt32 := c &&& 0xFF

/-- The sums of the channels. -/
structure Sums where
  sr : UInt32
  sg : UInt32
  sb : UInt32

namespace Sums

def zero : Sums := ⟨0, 0, 0⟩

def add (c : UInt32) (s : Sums) : Sums := ⟨s.sr + red c, s.sg + green c, s.sb + blue c⟩

def sub (c : UInt32) (s : Sums) : Sums := ⟨s.sr - red c, s.sg - green c, s.sb - blue c⟩

/-- The pixel of the averages. -/
def pixel (win : UInt32) (s : Sums) : UInt32 :=
  (s.sr / win) <<< 16 ||| (s.sg / win) <<< 8 ||| s.sb / win

end Sums

/-- `i.clamp(0, n - 1)`. -/
def clampTo (n : Nat) (i : Int) : Nat := (max 0 (min i (n - 1))).toNat

section

variable (p step n r : Nat) (m : Nat → UInt32) (tmp : List UInt32)

/-- The loop that copies the line: an index that is not in `tmp` is a panic. -/
def loadLine : Option (List UInt32) :=
  (List.range n).foldlM
    (fun tmp i => if i < tmp.length then some (tmp.set i (m (p + i * step))) else none) tmp

/-- `at(i)`. -/
def lineAt (i : Int) : UInt32 := tmp.getD (clampTo n i) 0

/-- The sums of the first window. -/
def firstSums : Sums :=
  (List.range (2 * r + 1)).foldl (fun s (k : Nat) => s.add (lineAt n tmp (k - r))) .zero

/-- A pixel is written, and the window moves. -/
def blurStep (x : (Nat → UInt32) × Sums) (i : Nat) : (Nat → UInt32) × Sums :=
  (Function.update x.1 (p + i * step) (x.2.pixel (.ofNat (2 * r + 1))),
    (x.2.add (lineAt n tmp (i + r + 1))).sub (lineAt n tmp (i - r)))

/-- The pixels and the sums after `i` steps. -/
def blurSteps (i : Nat) : (Nat → UInt32) × Sums :=
  (List.range i).foldl (blurStep p step n r tmp) (m, firstSums n r tmp)

/-- `blur_line(p, step, n, r, tmp)`: the pixels and the scratch buffer, or a panic.  A line has a pixel:
on one of none `clamp(0, -1)` would panic too. -/
def blurLine : Option ((Nat → UInt32) × List UInt32) :=
  (loadLine p step n m tmp).map fun tmp => ((blurSteps p step n r m tmp n).1, tmp)

end

/-! ### What it is for -/

/-- The sum of a channel over the window of pixel `i`. -/
def windowSum (n r : Nat) (px : Nat → UInt32) (f : UInt32 → UInt32) (i : Nat) : Nat :=
  ∑ k ∈ range (2 * r + 1), (f (px (clampTo n (i + k - r)))).toNat

/-- The average, rounded down. -/
def windowAverage (n r : Nat) (px : Nat → UInt32) (f : UInt32 → UInt32) (i : Nat) : Nat :=
  windowSum n r px f i / (2 * r + 1)

/-! ### Channels -/

variable {p step n r i j : Nat} {m : Nat → UInt32} {tmp tmp' : List UInt32} {px : Nat → UInt32}
  {f : UInt32 → UInt32} {s : Sums} {c : UInt32}

/-- What a channel can be. -/
def Channel (f : UInt32 → UInt32) : Prop := ∀ c, (f c).toNat ≤ 255

theorem masked_le (c : UInt32) : (c &&& 0xFF).toNat ≤ 255 := by
  rw [UInt32.toNat_and]
  exact Nat.and_le_right

theorem channel_red : Channel red := fun _ => masked_le _

theorem channel_green : Channel green := fun _ => masked_le _

theorem channel_blue : Channel blue := fun _ => masked_le _

theorem windowSum_le (hf : Channel f) (i : Nat) :
    windowSum n r px f i ≤ 255 * (2 * r + 1) := by
  have hle := Finset.sum_le_card_nsmul (range (2 * r + 1))
    (fun k : Nat => (f (px (clampTo n (i + k - r)))).toNat) 255 fun k _ => hf _
  rw [Finset.card_range, Nat.nsmul_eq_mul] at hle
  exact hle.trans_eq (Nat.mul_comm _ _)

theorem windowAverage_le (hf : Channel f) (i : Nat) : windowAverage n r px f i ≤ 255 :=
  Nat.div_le_of_le_mul (Nat.mul_comm _ _ ▸ windowSum_le hf i)

/-- **The window moves**: what comes in is added, and what goes out is subtracted. -/
theorem windowSum_succ (n r : Nat) (px : Nat → UInt32) (f : UInt32 → UInt32) (i : Nat) :
    windowSum n r px f (i + 1) + (f (px (clampTo n (i - r)))).toNat =
      windowSum n r px f i + (f (px (clampTo n (i + r + 1)))).toNat := by
  have hmove (k : Nat) : ((i + 1 : Nat) : Int) + k - r = i + (k + 1 : Nat) - r := by omega
  have hlast : ((i + 1 : Nat) : Int) + (2 * r : Nat) - r = i + r + 1 := by omega
  have hfirst : (i : Int) + (0 : Nat) - r = i - r := by omega
  rw [windowSum, windowSum, sum_range_succ, sum_range_succ', hlast, hfirst]
  simp only [hmove]
  omega

/-! ### The scratch buffer -/

theorem clampTo_lt (hn : 0 < n) (i : Int) : clampTo n i < n := by
  unfold clampTo
  omega

/-- After `j` steps the buffer has the first `j` pixels. -/
theorem loadLine_some (p step : Nat) (m : Nat → UInt32) (hlen : n ≤ tmp.length) :
    ∃ tmp', loadLine p step n m tmp = some tmp' ∧ tmp'.length = tmp.length ∧
      ∀ j < n, tmp'.getD j 0 = m (p + j * step) := by
  unfold loadLine
  induction n with
  | zero => exact ⟨tmp, rfl, rfl, fun j hj => absurd hj (Nat.not_lt_zero j)⟩
  | succ n ih =>
      obtain ⟨t, ht, hl, hpx⟩ := ih (Nat.le_of_succ_le hlen)
      have hlt : n < t.length := hl ▸ hlen
      refine ⟨t.set n (m (p + n * step)), ?_, ?_, fun j hj => ?_⟩
      · rw [List.range_succ, List.foldlM_append, ht]
        simp only [Option.bind_eq_bind, Option.bind_some, List.foldlM_cons, List.foldlM_nil,
          if_pos hlt, Option.pure_def]
      · rw [List.length_set, hl]
      · rcases Nat.lt_succ_iff_lt_or_eq.mp hj with hj | rfl
        · rw [List.getD_eq_getElem?_getD, List.getElem?_set_ne (Nat.ne_of_gt hj),
            ← List.getD_eq_getElem?_getD, hpx j hj]
        · rw [List.getD_eq_getElem?_getD, List.getElem?_set_self hlt, Option.getD_some]

/-! ### The sums -/

/-- A buffer with the line. -/
def Copied (n : Nat) (px : Nat → UInt32) (tmp : List UInt32) : Prop :=
  ∀ j < n, tmp.getD j 0 = px j

theorem Copied.lineAt (h : Copied n px tmp) (hn : 0 < n) (i : Int) :
    lineAt n tmp i = px (clampTo n i) := h _ (clampTo_lt hn i)

/-- The sums of a window: each is a sum of numbers, modulo `2 ^ 32`. -/
def Summed (n r : Nat) (px : Nat → UInt32) (i : Nat) (s : Sums) : Prop :=
  s.sr = .ofNat (windowSum n r px red i) ∧ s.sg = .ofNat (windowSum n r px green i) ∧
    s.sb = .ofNat (windowSum n r px blue i)

theorem foldl_add (tmp : List UInt32) (k : Nat) :
    ((List.range k).foldl (fun s (k : Nat) => s.add (lineAt n tmp (k - r))) .zero : Sums) =
      ⟨.ofNat (∑ k ∈ range k, (red (lineAt n tmp (k - r))).toNat),
        .ofNat (∑ k ∈ range k, (green (lineAt n tmp (k - r))).toNat),
        .ofNat (∑ k ∈ range k, (blue (lineAt n tmp (k - r))).toNat)⟩ := by
  induction k with
  | zero => rfl
  | succ k ih =>
      rw [List.range_succ, List.foldl_append, ih]
      simp only [List.foldl_cons, List.foldl_nil, Sums.add, sum_range_succ, UInt32.ofNat_add,
        UInt32.ofNat_toNat]

theorem firstSums_summed (h : Copied n px tmp) (hn : 0 < n) :
    Summed n r px 0 (firstSums n r tmp) := by
  have hzero (k : Nat) : ((0 : Nat) : Int) + k - r = k - r := by omega
  rw [firstSums, foldl_add]
  simp only [Summed, windowSum, hzero, h.lineAt hn, and_self]

theorem ofNat_windowSum_succ (n r : Nat) (px : Nat → UInt32) (f : UInt32 → UInt32) (i : Nat) :
    UInt32.ofNat (windowSum n r px f i) + f (px (clampTo n (i + r + 1))) -
      f (px (clampTo n (i - r))) = .ofNat (windowSum n r px f (i + 1)) := by
  have hsum := congrArg UInt32.ofNat (windowSum_succ n r px f i)
  rw [UInt32.ofNat_add, UInt32.ofNat_add, UInt32.ofNat_toNat, UInt32.ofNat_toNat] at hsum
  rw [← hsum, UInt32.add_sub_cancel]

theorem Summed.moved (h : Summed n r px i s) (hc : Copied n px tmp) (hn : 0 < n) :
    Summed n r px (i + 1) ((s.add (lineAt n tmp (i + r + 1))).sub (lineAt n tmp (i - r))) := by
  obtain ⟨hr, hg, hb⟩ := h
  simp only [Summed, Sums.add, Sums.sub, hc.lineAt hn, hr, hg, hb, ofNat_windowSum_succ, and_self]

theorem blurSteps_succ (p step n r : Nat) (m : Nat → UInt32) (tmp : List UInt32) (i : Nat) :
    blurSteps p step n r m tmp (i + 1) =
      blurStep p step n r tmp (blurSteps p step n r m tmp i) i := by
  rw [blurSteps, List.range_succ, List.foldl_append]
  rfl

theorem blurSteps_summed (p step r : Nat) (m : Nat → UInt32) (hc : Copied n px tmp) (hn : 0 < n)
    (i : Nat) : Summed n r px i (blurSteps p step n r m tmp i).2 := by
  induction i with
  | zero => exact firstSums_summed hc hn
  | succ i ih =>
      rw [blurSteps_succ]
      exact ih.moved hc hn

theorem toNat_ofNat_windowSum (hr : 255 * (2 * r + 1) < 2 ^ 32) (hf : Channel f) (i : Nat) :
    (UInt32.ofNat (windowSum n r px f i)).toNat = windowSum n r px f i :=
  UInt32.toNat_ofNat_of_lt' (Nat.lt_of_le_of_lt (windowSum_le hf i) hr)

/-- The sums of a window, as numbers, and what goes out of each is in it. -/
structure Exact (n r : Nat) (px : Nat → UInt32) (i : Nat) (s : Sums) : Prop where
  red : s.sr.toNat = windowSum n r px red i
  green : s.sg.toNat = windowSum n r px green i
  blue : s.sb.toNat = windowSum n r px blue i
  out : ∀ f, (f (px (clampTo n (i - r)))).toNat ≤
    windowSum n r px f i + (f (px (clampTo n (i + r + 1)))).toNat

/-- **The sums** are those of the window. -/
theorem sums_exact (hr : 255 * (2 * r + 1) < 2 ^ 32) (hc : Copied n px tmp) (hn : 0 < n)
    (i : Nat) : Exact n r px i (blurSteps p step n r m tmp i).2 := by
  obtain ⟨hsr, hsg, hsb⟩ := blurSteps_summed p step r m hc hn i
  refine ⟨?_, ?_, ?_, fun f => ?_⟩
  · rw [hsr, toNat_ofNat_windowSum hr channel_red i]
  · rw [hsg, toNat_ofNat_windowSum hr channel_green i]
  · rw [hsb, toNat_ofNat_windowSum hr channel_blue i]
  · exact windowSum_succ n r px f i ▸ Nat.le_add_left ..

/-! ### The pixels -/

/-- The pixel of three channels. -/
def packed (a b c : UInt32) : UInt32 := a <<< 16 ||| b <<< 8 ||| c

theorem shifted_or {a b c : Nat} (hb : b < 2 ^ 8) (hc : c < 2 ^ 8) :
    a <<< 16 ||| b <<< 8 ||| c = a * 2 ^ 16 + b * 2 ^ 8 + c := by
  have hlow : b <<< 8 + c < 2 ^ 16 := by
    rw [Nat.shiftLeft_eq]
    omega
  rw [Nat.or_assoc, ← Nat.shiftLeft_add_eq_or_of_lt hc, ← Nat.shiftLeft_add_eq_or_of_lt hlow,
    Nat.shiftLeft_eq, Nat.shiftLeft_eq, Nat.add_assoc]

theorem toNat_packed {a b c : UInt32} (ha : a.toNat ≤ 255) (hb : b.toNat ≤ 255)
    (hc : c.toNat ≤ 255) : (packed a b c).toNat = a.toNat * 2 ^ 16 + b.toNat * 2 ^ 8 + c.toNat := by
  have hshift {x k : Nat} (hx : x ≤ 255) (hk : k ≤ 16) : x <<< k % 2 ^ 32 = x <<< k := by
    rw [Nat.shiftLeft_eq]
    exact Nat.mod_eq_of_lt (Nat.lt_of_le_of_lt
      (Nat.mul_le_mul hx (Nat.pow_le_pow_right (by decide) hk)) (by decide))
  rw [← shifted_or (Nat.lt_succ_of_le hb) (Nat.lt_succ_of_le hc), packed, UInt32.toNat_or,
    UInt32.toNat_or, UInt32.toNat_shiftLeft, UInt32.toNat_shiftLeft]
  exact congrArg₂ (· ||| · ||| c.toNat) (hshift ha (by decide)) (hshift hb (by decide))

theorem toNat_channels (c : UInt32) : (red c).toNat = c.toNat / 2 ^ 16 % 2 ^ 8 ∧
    (green c).toNat = c.toNat / 2 ^ 8 % 2 ^ 8 ∧ (blue c).toNat = c.toNat % 2 ^ 8 := by
  refine ⟨?_, ?_, ?_⟩
  · rw [red, UInt32.toNat_and, UInt32.toNat_shiftRight]
    exact (Nat.and_two_pow_sub_one_eq_mod _ 8).trans
      (congrArg (· % 2 ^ 8) (Nat.shiftRight_eq_div_pow _ 16))
  · rw [green, UInt32.toNat_and, UInt32.toNat_shiftRight]
    exact (Nat.and_two_pow_sub_one_eq_mod _ 8).trans
      (congrArg (· % 2 ^ 8) (Nat.shiftRight_eq_div_pow _ 8))
  · rw [blue, UInt32.toNat_and]
    exact Nat.and_two_pow_sub_one_eq_mod _ 8

/-- Pixel `c` has the averages of window `i`, and nothing beside its channels. -/
structure Average (n r : Nat) (px : Nat → UInt32) (i : Nat) (c : UInt32) : Prop where
  red : (red c).toNat = windowAverage n r px red i
  green : (green c).toNat = windowAverage n r px green i
  blue : (blue c).toNat = windowAverage n r px blue i
  top : c.toNat < 2 ^ 24

theorem average_pixel (hr : 255 * (2 * r + 1) < 2 ^ 32) (hs : Summed n r px i s) :
    Average n r px i (s.pixel (.ofNat (2 * r + 1))) := by
  have hlt : 2 * r + 1 < 2 ^ 32 := by omega
  have hwin : (UInt32.ofNat (2 * r + 1)).toNat = 2 * r + 1 := UInt32.toNat_ofNat_of_lt' hlt
  have havg {f : UInt32 → UInt32} (hf : Channel f) :
      (UInt32.ofNat (windowSum n r px f i) / .ofNat (2 * r + 1)).toNat =
        windowAverage n r px f i := by
    rw [UInt32.toNat_div, hwin, toNat_ofNat_windowSum hr hf, windowAverage]
  have hle {f : UInt32 → UInt32} (hf : Channel f) :
      (UInt32.ofNat (windowSum n r px f i) / .ofNat (2 * r + 1)).toNat ≤ 255 :=
    (havg hf).trans_le (windowAverage_le hf i)
  have hpix : (s.pixel (.ofNat (2 * r + 1))).toNat = windowAverage n r px Plib.red i * 2 ^ 16 +
      windowAverage n r px Plib.green i * 2 ^ 8 + windowAverage n r px Plib.blue i := by
    rw [← havg channel_red, ← havg channel_green, ← havg channel_blue,
      ← toNat_packed (hle channel_red) (hle channel_green) (hle channel_blue), ← hs.1, ← hs.2.1,
      ← hs.2.2]
    rfl
  obtain ⟨hred, hgreen, hblue⟩ := toNat_channels (s.pixel (.ofNat (2 * r + 1)))
  have hler : windowAverage n r px Plib.red i ≤ 255 := windowAverage_le channel_red i
  have hleg : windowAverage n r px Plib.green i ≤ 255 := windowAverage_le channel_green i
  have hleb : windowAverage n r px Plib.blue i ≤ 255 := windowAverage_le channel_blue i
  rw [hpix] at hred hgreen hblue
  refine ⟨?_, ?_, ?_, ?_⟩
  · rw [hred]
    omega
  · rw [hgreen]
    omega
  · rw [hblue]
    omega
  · rw [hpix]
    omega

theorem blurSteps_pixels (p step n r : Nat) (m : Nat → UInt32) (tmp : List UInt32) (i a : Nat) :
    (∃ j < i, a = p + j * step ∧ (blurSteps p step n r m tmp i).1 a =
        (blurSteps p step n r m tmp j).2.pixel (.ofNat (2 * r + 1))) ∨
      (∀ j < i, a ≠ p + j * step) ∧ (blurSteps p step n r m tmp i).1 a = m a := by
  induction i with
  | zero => exact .inr ⟨fun j hj => absurd hj (Nat.not_lt_zero j), rfl⟩
  | succ i ih =>
      have hnext : (blurSteps p step n r m tmp (i + 1)).1 =
          Function.update (blurSteps p step n r m tmp i).1 (p + i * step)
            ((blurSteps p step n r m tmp i).2.pixel (.ofNat (2 * r + 1))) := by
        rw [blurSteps_succ]
        rfl
      rw [hnext]
      by_cases ha : a = p + i * step
      · exact .inl ⟨i, Nat.lt_succ_self i, ha, by rw [ha, Function.update_self]⟩
      · rw [Function.update_of_ne ha]
        obtain ⟨j, hj, hpj, hval⟩ | ⟨hnone, hval⟩ := ih
        · exact .inl ⟨j, Nat.lt_succ_of_lt hj, hpj, hval⟩
        · refine .inr ⟨fun j hj => ?_, hval⟩
          rcases Nat.lt_succ_iff_lt_or_eq.mp hj with hj | rfl
          · exact hnone j hj
          · exact ha

theorem windowAverage_const (h : ∀ j, px j = px 0) (f : UInt32 → UInt32) (i j : Nat) :
    windowAverage n r px f i = windowAverage n r px f j := by
  have hsum (i : Nat) : windowSum n r px f i = ∑ _k ∈ range (2 * r + 1), (f (px 0)).toNat :=
    Finset.sum_congr rfl fun _ _ => by rw [h]
  rw [windowAverage, windowAverage, hsum, hsum]

theorem Average.of_const (h : ∀ j, px j = px 0) (ha : Average n r px i c) : Average n r px j c :=
  ⟨ha.red.trans (windowAverage_const h _ i j), ha.green.trans (windowAverage_const h _ i j),
    ha.blue.trans (windowAverage_const h _ i j), ha.top⟩

/-- **The blur of a line**: each of the `n` pixels has the averages of its window in the line as it
was, no other pixel changes, and the sums on the way are those of the windows: what goes out is in
them. -/
theorem blurLine_average (p step : Nat) (m : Nat → UInt32) (hn : 0 < n)
    (hr : 255 * (2 * r + 1) < 2 ^ 32) (hlen : n ≤ tmp.length) :
    ∃ m' tmp', blurLine p step n r m tmp = some (m', tmp') ∧
      (∀ i < n, Average n r (fun j => m (p + j * step)) i (m' (p + i * step))) ∧
      (∀ a, (∀ i < n, a ≠ p + i * step) → m' a = m a) ∧
      ∀ i, Exact n r (fun j => m (p + j * step)) i (blurSteps p step n r m tmp' i).2 := by
  obtain ⟨tmp', hload, -, hcopied⟩ := loadLine_some p step m hlen
  refine ⟨_, tmp', by rw [blurLine, hload]; rfl, fun i hi => ?_, fun a ha => ?_,
    fun i => sums_exact hr hcopied hn i⟩
  · obtain ⟨j, hj, hpj, hval⟩ | ⟨hnone, -⟩ := blurSteps_pixels p step n r m tmp' n (p + i * step)
    · rw [hval]
      have havg := average_pixel hr (blurSteps_summed p step r m hcopied hn j)
      rcases Nat.eq_zero_or_pos step with rfl | hstep
      · exact havg.of_const fun _ => rfl
      · have hij : i = j := Nat.eq_of_mul_eq_mul_right hstep (Nat.add_left_cancel hpj)
        exact hij ▸ havg
    · exact absurd rfl (hnone i hi)
  · obtain ⟨j, hj, hpj, -⟩ | ⟨-, hval⟩ := blurSteps_pixels p step n r m tmp' n a
    · exact absurd hpj (ha j hj)
    · exact hval

/-- Two pixels, three apart: the window of the first has it twice. -/
theorem blurLine_average_two : ∃ m' tmp',
    blurLine 5 3 2 1 (fun a => if a = 5 then 2 else 5) [0, 0, 0] = some (m', tmp') ∧
      (blue (m' 5)).toNat = 3 := by
  have hlen : 2 ≤ [0, 0, (0 : UInt32)].length := by decide
  obtain ⟨m', tmp', hrun, havg, -⟩ := blurLine_average 5 3 (fun a => if a = 5 then 2 else 5)
    (by decide : 0 < 2) (by decide : 255 * (2 * 1 + 1) < 2 ^ 32) hlen
  exact ⟨m', tmp', hrun, (havg 0 (by decide)).blue⟩

end Pulsar.Plib

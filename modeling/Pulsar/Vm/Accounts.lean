import Mathlib.Algebra.BigOperators.Group.Multiset.Basic
import Mathlib.Tactic.Abel
import Pulsar.Vm.Leaves

/-!
# Who holds the frames

`Accounted N L fr` says that the allocator's counts are those of its holders: `N` are the frames
that something holds alone (a table, an array, a page of an object, a thread that took one), `L` has
a frame once for each private page that refers to it.  Each function of the allocator and each walk
of the page tables moves frames between the two and what is free.

* `Accounted.allocFrame`, `Accounted.freeFrame`, `Accounted.drop`, `Accounted.incRef`: the allocator.
* `Accounted.unmapRange`, `Accounted.cloneUserSpace`, …: the walks.
-/

namespace Pulsar.Vm

open Pulsar.Tree

/-- The counts are those of the holders. -/
structure Accounted (N L : Multiset Nat) (fr : Frames) : Prop where
  refs : ∀ f, fr.Owned f → fr.refs f = N.count f + L.count f
  used : ∀ f, fr.Owned f → (fr.used f = true ↔ fr.refs f ≠ 0)
  alone : ∀ f ∈ N, fr.Owned f ∧ N.count f = 1 ∧ f ∉ L
  kept : ∀ f, fr.reserved f = true → fr.used f = true

/-- The same window, with the same frames reserved. -/
structure Frames.Like (fr fr' : Frames) : Prop where
  n : fr'.n = fr.n
  reserved : fr'.reserved = fr.reserved

theorem Frames.Like.refl (fr : Frames) : fr.Like fr := ⟨rfl, rfl⟩

theorem Frames.Like.trans {fr fr' fr'' : Frames} (h : fr.Like fr') (h' : fr'.Like fr'') :
    fr.Like fr'' := ⟨h'.n.trans h.n, h'.reserved.trans h.reserved⟩

variable {N L M : Multiset Nat} {fr fr' : Frames} {f g b k p : Nat} {pt pt' : Pt} {e : Pte}

theorem Frames.Like.owned (h : fr.Like fr') : fr'.Owned f ↔ fr.Owned f := by
  rw [Frames.Owned, Frames.Owned, h.n, h.reserved]

theorem Frames.like_incRef (f : Nat) (fr : Frames) : fr.Like (fr.incRef f) := by
  unfold Frames.incRef
  split_ifs
  · exact ⟨rfl, rfl⟩
  · exact .refl fr

theorem Frames.like_freeIdx (f : Nat) (fr : Frames) : fr.Like (fr.freeIdx f) := by
  unfold Frames.freeIdx
  split_ifs <;> exact ⟨rfl, rfl⟩

theorem Frames.like_freeFrame (f : Nat) (fr : Frames) : fr.Like (fr.freeFrame f) := by
  unfold Frames.freeFrame
  split_ifs
  · exact fr.like_freeIdx f
  · exact .refl fr

theorem Frames.like_freeAll (fs : List Nat) (fr : Frames) : fr.Like (fr.freeAll fs) := by
  induction fs generalizing fr with
  | nil => exact .refl fr
  | cons f fs ih => exact (like_freeFrame f fr).trans (ih _)

theorem Frames.like_allocFrame (fr : Frames) : fr.Like fr.allocFrame.2 := by
  unfold Frames.allocFrame
  split <;> exact ⟨rfl, rfl⟩

theorem Frames.like_setAllUsed (fs : List Nat) (fr : Frames) :
    fr.Like (fs.foldl (fun fr f => fr.setUsed f) fr) := by
  induction fs generalizing fr with
  | nil => exact .refl fr
  | cons f fs ih =>
      have hone : fr.Like (fr.setUsed f) := ⟨rfl, rfl⟩
      exact hone.trans (ih (fr.setUsed f))

theorem Frames.like_allocContig (k : Nat) (fr : Frames) : fr.Like (fr.allocContig k).2 := by
  unfold Frames.allocContig
  split_ifs
  · exact .refl fr
  · exact fr.like_allocFrame
  · split
    · exact fr.like_setAllUsed _
    · exact .refl fr

theorem Frames.like_freeContig (b k : Nat) (fr : Frames) : fr.Like (fr.freeContig b k) := by
  have hall : ∀ (fs : List Nat) (fr : Frames),
      fr.Like (fs.foldl (fun fr f => fr.freeIdx f) fr) := fun fs => by
    induction fs with
    | nil => exact .refl
    | cons f fs ih => exact fun fr => (fr.like_freeIdx f).trans (ih _)
  unfold Frames.freeContig
  split_ifs
  · exact hall _ fr
  · exact .refl fr

theorem like_nextTable {t t' : Tree Nat} (h : nextTable t k fr = some (t', fr')) : fr.Like fr' := by
  have ha := fr.like_allocFrame
  unfold nextTable at h
  cases hk : t[k]? with
  | none =>
      rw [hk] at h
      simp only at h
      rcases hr : fr.allocFrame with ⟨- | f, fr₁⟩ <;> rw [hr] at h ha
      · exact absurd h (by simp)
      · obtain ⟨-, rfl⟩ := Prod.mk.inj (Option.some.inj h)
        exact ha
  | some f =>
      rw [hk] at h
      obtain ⟨-, rfl⟩ := Prod.mk.inj (Option.some.inj h)
      exact .refl fr

theorem like_mapPage (p : Nat) (e : Pte) (s : Pt × Frames) : s.2.Like (mapPage p e s).2.2 := by
  unfold mapPage
  rcases h₁ : nextTable s.1.l1 (p / 512 ^ 3) s.2 with - | ⟨m₁, fr₁⟩
  · exact .refl _
  · have hl₁ := like_nextTable h₁
    simp only
    rcases h₂ : nextTable s.1.l2 (p / 512 ^ 2) fr₁ with - | ⟨m₂, fr₂⟩
    · exact hl₁
    · have hl₂ := hl₁.trans (like_nextTable h₂)
      simp only
      rcases h₃ : nextTable s.1.l3 (p / 512) fr₂ with - | ⟨m₃, fr₃⟩
      · exact hl₂
      · exact hl₂.trans (like_nextTable h₃)

namespace Accounted

theorem boot (n : Nat) (reserved : Nat → Bool) : Accounted 0 0 (.boot n reserved) where
  refs f hf := by
    have hres : reserved f = false := hf.2
    simp [Frames.boot, hres]
  used f hf := by
    have hres : reserved f = false := hf.2
    simp [Frames.boot, hres]
  alone f hf := absurd hf (by simp)
  kept f hf := hf

theorem not_free (h : Accounted N L fr) (hf : fr.Owned f) (hin : f ∈ N ∨ f ∈ L) :
    fr.used f = true := by
  rw [h.used f hf, h.refs f hf]
  rcases hin with hin | hin
  · have := Multiset.count_pos.mpr hin
    omega
  · have := Multiset.count_pos.mpr hin
    omega

theorem free (h : Accounted N L fr) (hf : fr.isFree f = true) :
    fr.Owned f ∧ N.count f = 0 ∧ L.count f = 0 := by
  obtain ⟨hlt, hused⟩ : f < fr.n ∧ fr.used f = false := by
    simpa [Frames.isFree] using hf
  have hres : fr.reserved f = false := by
    cases hr : fr.reserved f with
    | false => rfl
    | true => exact absurd (h.kept f hr) (by simp [hused])
  have hown : fr.Owned f := ⟨hlt, hres⟩
  have hzero : fr.refs f = 0 := by
    by_contra hne
    exact absurd ((h.used f hown).mpr hne) (by simp [hused])
  have := h.refs f hown
  exact ⟨hown, by omega, by omega⟩

theorem setUsed (h : Accounted N L fr) (hf : fr.isFree f = true) :
    Accounted (f ::ₘ N) L (fr.setUsed f) := by
  obtain ⟨hown, hN, hL⟩ := h.free hf
  refine ⟨fun g hg => ?_, fun g hg => ?_, fun g hg => ?_, fun g hg => ?_⟩
  · have hg' : fr.Owned g := hg
    by_cases e : g = f
    · subst e
      rw [Multiset.count_cons_self, hN, hL]
      exact Function.update_self ..
    · rw [Multiset.count_cons_of_ne e, ← h.refs g hg']
      exact Function.update_of_ne e ..
  · have hg' : fr.Owned g := hg
    by_cases e : g = f
    · subst e
      simp [Frames.setUsed]
    · simpa only [Frames.setUsed, Function.update_of_ne e] using h.used g hg'
  · by_cases e : g = f
    · subst e
      refine ⟨hown, by rw [Multiset.count_cons_self, hN], ?_⟩
      exact Multiset.count_eq_zero.mp hL
    · have hg' := (Multiset.mem_cons.mp hg).resolve_left e
      obtain ⟨h₁, h₂, h₃⟩ := h.alone g hg'
      exact ⟨h₁, by rw [Multiset.count_cons_of_ne e, h₂], h₃⟩
  · by_cases e : g = f
    · subst e
      exact Function.update_self ..
    · exact (Function.update_of_ne e ..).trans (h.kept g hg)

theorem hint (h : Accounted N L fr) (i : Nat) : Accounted N L { fr with hint := i } :=
  ⟨h.refs, h.used, h.alone, h.kept⟩

end Accounted

theorem Frames.allocFrame_some (h : fr.allocFrame = (some f, fr')) :
    fr.isFree f = true ∧ fr' = { fr.setUsed f with hint := f } := by
  unfold Frames.allocFrame at h
  split at h
  · rename_i g hg
    obtain ⟨hf, rfl⟩ := Prod.mk.inj h
    obtain rfl := Option.some.inj hf
    exact ⟨List.find?_some hg, rfl⟩
  · exact absurd h (by simp)

theorem Frames.allocFrame_none (h : fr.allocFrame = (none, fr')) : fr' = fr := by
  unfold Frames.allocFrame at h
  split at h
  · exact absurd h (by simp)
  · exact (Prod.mk.inj h).2.symm

namespace Accounted

/-- **A frame is taken.** -/
theorem allocFrame (h : Accounted N L fr) (ha : fr.allocFrame = (some f, fr')) :
    Accounted (f ::ₘ N) L fr' := by
  obtain ⟨hf, rfl⟩ := Frames.allocFrame_some ha
  exact (h.setUsed hf).hint f

/-- What is held alone becomes the frame of a private page. -/
theorem share (h : Accounted (f ::ₘ N) L fr) : Accounted N (f ::ₘ L) fr := by
  obtain ⟨-, hone, -⟩ := h.alone f (Multiset.mem_cons_self f N)
  rw [Multiset.count_cons_self] at hone
  refine ⟨fun g hg => ?_, h.used, fun g hg => ?_, h.kept⟩
  · rw [h.refs g hg, Multiset.count_cons, Multiset.count_cons]
    omega
  · have hne : g ≠ f := fun e => by
      have := Multiset.count_pos.mpr (e ▸ hg)
      omega
    obtain ⟨h₁, h₂, h₃⟩ := h.alone g (Multiset.mem_cons_of_mem hg)
    rw [Multiset.count_cons_of_ne hne] at h₂
    exact ⟨h₁, h₂, fun hin => (Multiset.mem_cons.mp hin).elim hne h₃⟩

theorem freeIdx (h : Accounted N (f ::ₘ L) fr) (hf : fr.Owned f) : Accounted N L (fr.freeIdx f) := by
  have hrefs := h.refs f hf
  rw [Multiset.count_cons_self] at hrefs
  have hused : fr.used f = true := (h.used f hf).mpr (by omega)
  have hfN : f ∉ N := fun hin => (h.alone f hin).2.2 (Multiset.mem_cons_self f L)
  have halone : ∀ g ∈ N, fr.Owned g ∧ N.count g = 1 ∧ g ∉ L := fun g hg => by
    obtain ⟨h₁, h₂, h₃⟩ := h.alone g hg
    exact ⟨h₁, h₂, fun hin => h₃ (Multiset.mem_cons_of_mem hin)⟩
  have hother : ∀ g, fr.Owned g → g ≠ f → fr.refs g = N.count g + L.count g := fun g hg e => by
    rw [h.refs g hg, Multiset.count_cons_of_ne e]
  unfold Frames.freeIdx
  rw [if_pos hused]
  by_cases hone : 1 < fr.refs f
  · rw [if_pos hone]
    refine ⟨fun g hg => ?_, fun g hg => ?_, halone, h.kept⟩
    · by_cases e : g = f
      · subst e
        refine (Function.update_self ..).trans ?_
        omega
      · exact (Function.update_of_ne e ..).trans (hother g hg e)
    · by_cases e : g = f
      · subst e
        simp only [hused, Function.update_self, true_iff]
        omega
      · simpa only [Function.update_of_ne e] using h.used g hg
  · rw [if_neg hone]
    have hzero : N.count f = 0 ∧ L.count f = 0 := by omega
    refine ⟨fun g hg => ?_, fun g hg => ?_, halone, fun g hg => ?_⟩
    · by_cases e : g = f
      · subst e
        refine (Function.update_self ..).trans ?_
        omega
      · exact (Function.update_of_ne e ..).trans (hother g hg e)
    · by_cases e : g = f
      · subst e
        simp
      · simpa only [Function.update_of_ne e] using h.used g hg
    · have e : g ≠ f := fun e => by
        rw [e, hf.2] at hg
        exact Bool.noConfusion hg
      exact (Function.update_of_ne e ..).trans (h.kept g hg)

/-- **A reference of a private page is given back.** -/
theorem drop (h : Accounted N (f ::ₘ L) fr) : Accounted N L (fr.freeFrame f) := by
  unfold Frames.freeFrame
  split_ifs with hf
  · exact h.freeIdx hf
  · refine ⟨fun g hg => ?_, h.used, fun g hg => ?_, h.kept⟩
    · have e : g ≠ f := fun e => hf (e ▸ hg)
      rw [h.refs g hg, Multiset.count_cons_of_ne e]
    · obtain ⟨h₁, h₂, h₃⟩ := h.alone g hg
      exact ⟨h₁, h₂, fun hin => h₃ (Multiset.mem_cons_of_mem hin)⟩

/-- **A frame held alone is given back.** -/
theorem freeFrame (h : Accounted (f ::ₘ N) L fr) : Accounted N L (fr.freeFrame f) := h.share.drop

/-- **A private page is shared once more.** -/
theorem incRef (h : Accounted N L fr) (hin : f ∈ L) (hmax : fr.Owned f → L.count f < REF_MAX) :
    Accounted N (f ::ₘ L) (fr.incRef f) := by
  have hfN : f ∉ N := fun hc => (h.alone f hc).2.2 hin
  unfold Frames.incRef
  split_ifs with hf
  · have hrefs := h.refs f hf
    have hpos := Multiset.count_pos.mpr hin
    have hlt := hmax hf
    have hzero := Multiset.count_eq_zero.mpr hfN
    refine ⟨fun g hg => ?_, fun g hg => ?_, fun g hg => ?_, h.kept⟩
    · have hg' : fr.Owned g := hg
      by_cases e : g = f
      · subst e
        rw [Multiset.count_cons_self]
        refine (Function.update_self ..).trans ?_
        omega
      · rw [Multiset.count_cons_of_ne e]
        exact (Function.update_of_ne e ..).trans (h.refs g hg')
    · have hg' : fr.Owned g := hg
      by_cases e : g = f
      · subst e
        have hused := (h.used g hg').mpr (by omega)
        simp only [hused, Function.update_self, true_iff]
        omega
      · simpa only [Function.update_of_ne e] using h.used g hg'
    · obtain ⟨h₁, h₂, h₃⟩ := h.alone g hg
      exact ⟨h₁, h₂, fun hc => (Multiset.mem_cons.mp hc).elim (fun e => hfN (e ▸ hg)) h₃⟩
  · refine ⟨fun g hg => ?_, h.used, fun g hg => ?_, h.kept⟩
    · have e : g ≠ f := fun e => hf (e ▸ hg)
      rw [Multiset.count_cons_of_ne e, h.refs g hg]
    · obtain ⟨h₁, h₂, h₃⟩ := h.alone g hg
      exact ⟨h₁, h₂, fun hc => (Multiset.mem_cons.mp hc).elim (fun e => hfN (e ▸ hg)) h₃⟩

theorem dropAll (fs : List Nat) (h : Accounted N (fs + L) fr) : Accounted N L (fr.freeAll fs) := by
  induction fs generalizing fr with
  | nil =>
      rw [Multiset.coe_nil, zero_add] at h
      exact h
  | cons f fs ih =>
      rw [← Multiset.cons_coe, Multiset.cons_add] at h
      exact ih h.drop

theorem freeAll (fs : List Nat) (h : Accounted (fs + N) L fr) : Accounted N L (fr.freeAll fs) := by
  induction fs generalizing fr with
  | nil =>
      rw [Multiset.coe_nil, zero_add] at h
      exact h
  | cons f fs ih =>
      rw [← Multiset.cons_coe, Multiset.cons_add] at h
      exact ih h.freeFrame

theorem setAllUsed (fs : List Nat) (h : Accounted N L fr) (hd : fs.Nodup)
    (hf : ∀ f ∈ fs, fr.isFree f = true) :
    Accounted (fs + N) L (fs.foldl (fun fr f => fr.setUsed f) fr) := by
  induction fs generalizing N fr with
  | nil =>
      rw [Multiset.coe_nil, zero_add]
      exact h
  | cons f fs ih =>
      obtain ⟨hfs, hd⟩ := List.nodup_cons.mp hd
      have hstep := h.setUsed (hf f List.mem_cons_self)
      have hrest : ∀ g ∈ fs, (fr.setUsed f).isFree g = true := fun g hg => by
        have e : g ≠ f := fun e => hfs (e ▸ hg)
        have hkeep : (fr.setUsed f).used g = fr.used g := Function.update_of_ne e ..
        have hg' := hf g (List.mem_cons_of_mem f hg)
        rw [Frames.isFree] at hg' ⊢
        rw [hkeep]
        exact hg'
      have hend := ih hstep hd hrest
      rwa [← Multiset.cons_coe, Multiset.cons_add, ← Multiset.add_cons]

/-- **An array of frames is taken.** -/
theorem allocContig (h : Accounted N L fr) (ha : fr.allocContig k = (some b, fr')) :
    Accounted (List.range' b k + N) L fr' := by
  unfold Frames.allocContig at ha
  split_ifs at ha with hz hone
  · exact absurd ha (by simp)
  · have := h.allocFrame ha
    rwa [hone, List.range'_one, Multiset.coe_singleton, Multiset.singleton_add]
  · split at ha
    · rename_i c hc
      obtain ⟨hb, rfl⟩ := Prod.mk.inj ha
      obtain rfl := Option.some.inj hb
      have hall := List.find?_some hc
      exact h.setAllUsed _ List.nodup_range' fun f hf => List.all_eq_true.mp hall f hf
    · exact absurd ha (by simp)

/-- **An array of frames is given back.** -/
theorem freeContig (h : Accounted (List.range' b k + N) L fr) : Accounted N L (fr.freeContig b k) := by
  have hall : ∀ f ∈ List.range' b k, fr.Owned f := fun f hf =>
    (h.alone f (Multiset.mem_add.mpr (.inl hf))).1
  have hfree : ∀ (fs : List Nat) {fr : Frames} {N : Multiset Nat}, Accounted (fs + N) L fr →
      Accounted N L (fs.foldl (fun fr f => fr.freeIdx f) fr) := fun fs => by
    induction fs with
    | nil =>
        intro fr N h
        rw [Multiset.coe_nil, zero_add] at h
        exact h
    | cons f fs ih =>
        intro fr N h
        rw [← Multiset.cons_coe, Multiset.cons_add] at h
        exact ih (h.share.freeIdx (h.alone f (Multiset.mem_cons_self ..)).1)
  have hwhole : (List.range' b k).filter (· < fr.n) = List.range' b k :=
    List.filter_eq_self.mpr fun f hf => decide_eq_true (hall f hf).1
  unfold Frames.freeContig
  rw [hwhole]
  split_ifs with hown
  · exact hfree _ h
  · -- an array of no frames
    cases k with
    | zero => simpa using h
    | succ k => exact absurd (hall b (by simp)) hown

end Accounted

/-! ### Page tables -/

/-- The reference that a leaf entry holds. -/
def Pte.own (e : Pte) : Multiset Nat := if e.flags.isShared then 0 else {e.frame}

/-- The references that leaf entries hold. -/
def heldBy (m : Tree Pte) : Multiset Nat := ((cells m).map fun e => e.2.own).sum

theorem heldBy_insert_new {m : Tree Pte} (h : m[p]? = none) :
    heldBy (m.insert p e) = e.own + heldBy m := by
  rw [heldBy, cells_insert h, Multiset.map_cons, Multiset.sum_cons, heldBy]

theorem heldBy_erase {m : Tree Pte} (h : m[p]? = some e) :
    heldBy m = e.own + heldBy (m.erase p) := by
  rw [heldBy, cells_erase h, Multiset.map_cons, Multiset.sum_cons, heldBy]

theorem heldBy_insert {m : Tree Pte} {e₀ : Pte} (h : m[p]? = some e₀) :
    heldBy (m.insert p e) + e₀.own = e.own + heldBy m := by
  have hera : (m.erase p)[p]? = none := by rw [get_erase, if_pos rfl]
  rw [← erase_insert, heldBy_insert_new hera, heldBy_erase h]
  abel

/-- Entries change that keep their frames and the bit of shared objects. -/
theorem heldBy_map (m : Tree Pte) {F : Nat → Pte → Pte} (hF : ∀ p e, (F p e).own = e.own) :
    heldBy (m.map F) = heldBy m := by
  rw [heldBy, cells_map, Multiset.map_map, heldBy]
  simp only [Function.comp_def, hF]

theorem heldBy_filter (m : Tree Pte) (P : Nat → Bool) :
    heldBy (m.filter fun p _ => P p) + heldBy (m.filter fun p _ => !P p) = heldBy m := by
  rw [heldBy, heldBy, heldBy, cells_filter, cells_filter, ← Multiset.sum_add, ← Multiset.map_add]
  have hnot : ((cells m).filter fun e => (!P e.1) = true) = (cells m).filter fun e => ¬ P e.1 = true :=
    Multiset.filter_congr fun e _ => by simp
  rw [hnot, Multiset.filter_add_not]

theorem privateFrames_eq (m : Tree Pte) : (privateFrames m.toList : Multiset Nat) = heldBy m := by
  have hall : ∀ es : List (Nat × Pte), (privateFrames es : Multiset Nat) =
      ((es : Multiset (Nat × Pte)).map fun e => e.2.own).sum := fun es => by
    induction es with
    | nil => rfl
    | cons e es ih =>
        rw [← Multiset.cons_coe, Multiset.map_cons, Multiset.sum_cons, ← ih, privateFrames, Pte.own]
        cases he : e.2.flags.isShared <;> simp [he, privateFrames]
  exact hall _

/-- The references after an entry was put in, with that of the one it replaced. -/
theorem heldBy_put (m : Tree Pte) (p : Nat) (e : Pte) :
    heldBy (m.insert p e) + (m[p]?.elim 0 Pte.own) = e.own + heldBy m := by
  cases h : m[p]? with
  | none => rw [heldBy_insert_new h, Option.elim_none, add_zero]
  | some e₀ => exact heldBy_insert h

namespace Accounted

/-- A frame of no window may be named by any number of pages. -/
theorem outside (h : Accounted N L fr) (hf : ¬ fr.Owned f) : Accounted N (f ::ₘ L) fr := by
  refine ⟨fun g hg => ?_, h.used, fun g hg => ?_, h.kept⟩
  · have e : g ≠ f := fun e => hf (e ▸ hg)
    rw [h.refs g hg, Multiset.count_cons_of_ne e]
  · obtain ⟨h₁, h₂, h₃⟩ := h.alone g hg
    exact ⟨h₁, h₂, fun hin => (Multiset.mem_cons.mp hin).elim (fun e => hf (e ▸ h₁)) h₃⟩

/-- `next_table` takes a frame for the table that it makes. -/
theorem nextTable {t t' : Tree Nat} (h : Accounted ((cells t).map (·.2) + N) L fr)
    (ht : Vm.nextTable t k fr = some (t', fr')) : Accounted ((cells t').map (·.2) + N) L fr' := by
  unfold Vm.nextTable at ht
  cases hk : t[k]? with
  | some f =>
      rw [hk] at ht
      obtain ⟨rfl, rfl⟩ := Prod.mk.inj (Option.some.inj ht)
      exact h
  | none =>
      rw [hk] at ht
      simp only at ht
      rcases ha : fr.allocFrame with ⟨- | f, fr₁⟩
      · rw [ha] at ht
        exact absurd ht (by simp)
      · rw [ha] at ht
        obtain ⟨rfl, rfl⟩ := Prod.mk.inj (Option.some.inj ht)
        rw [cells_insert hk, Multiset.map_cons, Multiset.cons_add]
        exact h.allocFrame ha

/-- **The tables that a mapping makes** are the space's, also when it fails. -/
theorem mapPage {s : Pt × Frames} (p : Nat) (e : Pte) (h : Accounted (s.1.tables + N) L s.2) :
    Accounted ((mapPage p e s).2.1.tables + N) L (mapPage p e s).2.2 := by
  obtain ⟨⟨l₁, l₂, l₃, leaf⟩, fr⟩ := s
  -- each level in turn comes to the front
  have turn : ∀ {A B C : Multiset Nat} {fr : Frames},
      Accounted (A + B + C + N) L fr → Accounted (B + (C + A + N)) L fr := fun {A B C fr} h => by
    have hsum : A + B + C + N = B + (C + A + N) := by abel
    exact hsum ▸ h
  have back : ∀ {A B C : Multiset Nat} {fr : Frames},
      Accounted (A + (B + C + N)) L fr → Accounted (A + B + C + N) L fr := fun {A B C fr} h => by
    rwa [← add_assoc, ← add_assoc] at h
  rw [Pt.tables] at h
  unfold Vm.mapPage
  rcases h₁ : Vm.nextTable l₁ (p / 512 ^ 3) fr with - | ⟨m₁, fr₁⟩
  · exact h
  · rw [add_assoc, add_assoc, ← add_assoc _ _ N] at h
    have hm₁ := back (h.nextTable h₁)
    simp only
    rcases h₂ : Vm.nextTable l₂ (p / 512 ^ 2) fr₁ with - | ⟨m₂, fr₂⟩
    · exact hm₁
    · have hm₂ := back ((turn hm₁).nextTable h₂)
      simp only
      rcases h₃ : Vm.nextTable l₃ (p / 512) fr₂ with - | ⟨m₃, fr₃⟩
      · exact back (turn (back (turn hm₂)))
      · exact back (turn (back ((turn hm₂).nextTable h₃)))

/-- **A range is unmapped**: its private pages are given back. -/
theorem unmapRange {s : Pt × Frames} (start stop : Nat)
    (h : Accounted (s.1.tables + N) (heldBy s.1.leaf + L) s.2) :
    Accounted ((unmapRange start stop s).1.tables + N)
      (heldBy (unmapRange start stop s).1.leaf + L) (unmapRange start stop s).2 := by
  refine .dropAll (privateFrames (s.1.leaf.filter fun p _ => Pt.walked start stop p).toList) ?_
  rw [privateFrames_eq, ← add_assoc]
  exact (heldBy_filter s.1.leaf (Pt.walked start stop)).symm ▸ h

theorem tables_eq (pt : Pt) : pt.tables = ((pt.l1.toList.map (·.2) : List Nat) : Multiset Nat) +
    (pt.l2.toList.map (·.2) : List Nat) + (pt.l3.toList.map (·.2) : List Nat) := rfl

/-- **A space is freed**: its private pages, its tables and its root. -/
theorem freeUserSpace {root : Nat}
    (h : Accounted (root ::ₘ (pt.tables + N)) (heldBy pt.leaf + L) fr) :
    Accounted N L (freeUserSpace root pt fr) := by
  have hsum : root ::ₘ (pt.tables + N) =
      ((pt.l3.toList.map (·.2) : List Nat) : Multiset Nat) +
        (((pt.l2.toList.map (·.2) : List Nat) : Multiset Nat) +
          (((pt.l1.toList.map (·.2) : List Nat) : Multiset Nat) + (root ::ₘ N))) := by
    rw [tables_eq]
    simp only [← Multiset.singleton_add]
    abel
  rw [hsum, ← privateFrames_eq] at h
  exact ((((h.dropAll _).freeAll _).freeAll _).freeAll _).freeFrame

/-- **A space is made**, or the frames taken before one was missing are lost. -/
theorem createUserSpace (h : Accounted N L fr) :
    (∃ root pt, (createUserSpace fr).1 = some (root, pt) ∧ pt.leaf = ∅ ∧
      Accounted (root ::ₘ (pt.tables + N)) L (createUserSpace fr).2) ∨
    (createUserSpace fr).1 = none ∧ ∃ lost, Accounted (lost + N) L (createUserSpace fr).2 := by
  unfold Vm.createUserSpace
  rcases h₀ : fr.allocFrame with ⟨- | l₀, fr₀⟩
  · exact .inr ⟨rfl, 0, by rw [zero_add]; exact Frames.allocFrame_none h₀ ▸ h⟩
  · have ha₀ := h.allocFrame h₀
    simp only
    rcases h₁ : fr₀.allocFrame with ⟨- | l₁, fr₁⟩
    · exact .inr ⟨rfl, {l₀}, Frames.allocFrame_none h₁ ▸ ha₀⟩
    · have ha₁ := ha₀.allocFrame h₁
      simp only
      rcases h₂ : fr₁.allocFrame with ⟨- | l₂, fr₂⟩
      · refine .inr ⟨rfl, l₁ ::ₘ {l₀}, ?_⟩
        rw [Multiset.cons_add, Multiset.singleton_add]
        exact Frames.allocFrame_none h₂ ▸ ha₁
      · have ha₂ := ha₁.allocFrame h₂
        refine .inl ⟨l₀, _, rfl, rfl, ?_⟩
        have hnone : (∅ : Tree Nat)[0]? = none := by simp
        have hsum : l₀ ::ₘ (({ Pt.empty with
            l1 := Pt.empty.l1.insert 0 l₁, l2 := Pt.empty.l2.insert 0 l₂ } : Pt).tables + N) =
            l₂ ::ₘ l₁ ::ₘ l₀ ::ₘ N := by
          simp only [Pt.tables, Pt.empty, cells_insert hnone, cells_empty, Multiset.map_add,
            Multiset.map_singleton, Multiset.map_zero, ← Multiset.singleton_add]
          abel
        exact hsum ▸ ha₂

end Accounted

theorem like_createUserSpace (fr : Frames) : fr.Like (createUserSpace fr).2 := by
  have hl₀ := fr.like_allocFrame
  unfold createUserSpace
  rcases h₀ : fr.allocFrame with ⟨- | l₀, fr₀⟩ <;> rw [h₀] at hl₀
  · exact hl₀
  · have hl₁ := fr₀.like_allocFrame
    simp only
    rcases h₁ : fr₀.allocFrame with ⟨- | l₁, fr₁⟩ <;> rw [h₁] at hl₁
    · exact hl₀.trans hl₁
    · have hl₂ := fr₁.like_allocFrame
      simp only
      rcases h₂ : fr₁.allocFrame with ⟨- | l₂, fr₂⟩ <;> rw [h₂] at hl₂
      · exact (hl₀.trans hl₁).trans hl₂
      · exact (hl₀.trans hl₁).trans hl₂

/-! ### The copy of a space -/

/-- The entry that a copy has, and then the page copied too: a private one cannot be written. -/
def Pte.cow (reserved : Nat → Bool) (e : Pte) : Pte :=
  if reserved e.frame || e.flags.isShared then e else { e with flags := { e.flags with ro := true } }

@[simp] theorem Pte.own_cow (reserved : Nat → Bool) (e : Pte) : (e.cow reserved).own = e.own := by
  unfold Pte.cow
  split_ifs <;> rfl

theorem privateFrames_cons (x : Nat × Pte) (es : List (Nat × Pte)) :
    (privateFrames (x :: es) : Multiset Nat) = x.2.own + privateFrames es := by
  rw [privateFrames, Pte.own]
  cases hx : x.2.flags.isShared <;> simp [hx, privateFrames]

/-- Where the copy of `src₀` stands with `es` to go; `T` are the references when it is done. -/
structure Cloning (fr₀ : Frames) (src₀ : Pt) (N L T : Multiset Nat) (es : List (Nat × Pte))
    (src dst : Pt) (fr : Frames) : Prop where
  there : ∀ x ∈ es, src₀.leaf[x.1]? = some x.2
  once : (es.map (·.1)).Nodup
  ahead : ∀ p ∈ es.map (·.1), src.leaf[p]? = src₀.leaf[p]? ∧ dst.leaf[p]? = none
  behind : ∀ p, p ∉ es.map (·.1) → src.leaf[p]? = src₀.leaf[p]?.map (Pte.cow fr₀.reserved) ∧
    dst.leaf[p]? = src₀.leaf[p]?.map (Pte.cow fr₀.reserved)
  tables : src.tables = src₀.tables
  accounted : Accounted (dst.tables + N) (heldBy dst.leaf + (heldBy src.leaf + L)) fr
  total : heldBy dst.leaf + (heldBy src.leaf + L) + privateFrames es = T
  like : fr₀.Like fr

/-- What a copy that failed leaves, before its tables are freed. -/
structure Abandoned (fr₀ : Frames) (src₀ : Pt) (N L : Multiset Nat) (src dst : Pt) (fr : Frames) :
    Prop where
  entries : ∀ p : Nat, src.leaf[p]? = src₀.leaf[p]? ∨
    src.leaf[p]? = src₀.leaf[p]?.map (Pte.cow fr₀.reserved)
  tables : src.tables = src₀.tables
  accounted : Accounted (dst.tables + N) (heldBy dst.leaf + (heldBy src.leaf + L)) fr

section Cloning

variable {fr₀ : Frames} {src₀ src src' dst dst' : Pt} {T : Multiset Nat} {es : List (Nat × Pte)}

theorem Cloning.entries (h : Cloning fr₀ src₀ N L T es src dst fr) (q : Nat) :
    src.leaf[q]? = src₀.leaf[q]? ∨ src.leaf[q]? = src₀.leaf[q]?.map (Pte.cow fr₀.reserved) := by
  by_cases hq : q ∈ es.map (·.1)
  · exact .inl (h.ahead q hq).1
  · exact .inr (h.behind q hq).1

theorem Cloning.next {fr'' : Frames} (h : Cloning fr₀ src₀ N L T ((p, e) :: es) src dst fr)
    (hget : ∀ q, src'.leaf[q]? = if q = p then some (e.cow fr₀.reserved) else src.leaf[q]?)
    (htab : src'.tables = src.tables) (hheld : heldBy src'.leaf = heldBy src.leaf)
    (hlike : fr.Like fr')
    (ha : Accounted (dst.tables + N) (e.own + (heldBy dst.leaf + (heldBy src.leaf + L))) fr')
    (hmap : mapPage p (e.cow fr₀.reserved) (dst, fr') = (true, dst', fr'')) :
    Cloning fr₀ src₀ N L T es src' dst' fr'' := by
  have hthere : src₀.leaf[p]? = some e := h.there (p, e) List.mem_cons_self
  have hnone : dst.leaf[p]? = none := (h.ahead p List.mem_cons_self).2
  obtain ⟨hpes, honce⟩ := List.nodup_cons.mp h.once
  have hacc := Accounted.mapPage (s := (dst, fr')) p (e.cow fr₀.reserved) ha
  have hl := like_mapPage p (e.cow fr₀.reserved) (dst, fr')
  have hleaf := mapPage_leaf p (e.cow fr₀.reserved) (dst, fr')
  rw [hmap] at hacc hl hleaf
  replace hleaf : dst'.leaf = dst.leaf.insert p (e.cow fr₀.reserved) :=
    hleaf.elim (·.2) fun hc => absurd hc.1 (by simp)
  have hput : heldBy dst'.leaf = e.own + heldBy dst.leaf := by
    rw [hleaf, heldBy_insert_new hnone, Pte.own_cow]
  refine ⟨fun x hx => h.there x (List.mem_cons_of_mem _ hx), honce, fun q hq => ?_, fun q hq => ?_,
    htab.trans h.tables, ?_, ?_, h.like.trans (hlike.trans hl)⟩
  · have hne : q ≠ p := fun e' => hpes (e' ▸ hq)
    obtain ⟨h₁, h₂⟩ := h.ahead q (List.mem_cons_of_mem _ hq)
    rw [hget, if_neg hne, hleaf, get_insert, if_neg hne]
    exact ⟨h₁, h₂⟩
  · rw [hget, hleaf, get_insert]
    by_cases e' : q = p
    · subst e'
      rw [if_pos rfl, if_pos rfl, hthere]
      exact ⟨rfl, rfl⟩
    · rw [if_neg e', if_neg e']
      exact h.behind q fun hin => (List.mem_cons.mp hin).elim e' hq
  · rw [hput, hheld, add_assoc]
    exact hacc
  · rw [hput, hheld, ← h.total, privateFrames_cons]
    abel

theorem Cloning.abandon {fr'' fr₁ : Frames} (h : Cloning fr₀ src₀ N L T ((p, e) :: es) src dst fr)
    (hget : ∀ q, src'.leaf[q]? = if q = p then some (e.cow fr₀.reserved) else src.leaf[q]?)
    (htab : src'.tables = src.tables) (hheld : heldBy src'.leaf = heldBy src.leaf)
    (ha : Accounted (dst.tables + N) (e.own + (heldBy dst.leaf + (heldBy src.leaf + L))) fr')
    (hmap : mapPage p (e.cow fr₀.reserved) (dst, fr') = (false, dst', fr''))
    (hdrop : ∀ {N L}, Accounted N (e.own + L) fr'' → Accounted N L fr₁) :
    Abandoned fr₀ src₀ N L src' dst' fr₁ := by
  have hacc := Accounted.mapPage (s := (dst, fr')) p (e.cow fr₀.reserved) ha
  have hleaf := mapPage_leaf p (e.cow fr₀.reserved) (dst, fr')
  rw [hmap] at hacc hleaf
  replace hleaf : dst'.leaf = dst.leaf := hleaf.elim (fun hc => absurd hc.1 (by simp)) (·.2)
  refine ⟨fun q => ?_, htab.trans h.tables, ?_⟩
  · rw [hget]
    by_cases e' : q = p
    · subst e'
      rw [if_pos rfl, h.there (q, e) List.mem_cons_self]
      exact .inr rfl
    · rw [if_neg e']
      exact h.entries q
  · rw [hleaf, hheld]
    exact hdrop hacc

/-- The entry of a page of an object, or of a reserved frame, is copied as it is. -/
theorem Accounted.keep (h : Accounted N L fr)
    (hc : (fr.reserved e.frame || e.flags.isShared) = true) : Accounted N (e.own + L) fr := by
  unfold Pte.own
  by_cases hs : e.flags.isShared = true
  · rwa [if_pos hs, zero_add]
  · rw [if_neg hs, Multiset.singleton_add]
    refine h.outside fun hown => ?_
    rw [hown.2, Bool.false_or] at hc
    exact hs hc

theorem Accounted.unkeep (h : Accounted N (e.own + L) fr)
    (hc : (fr.reserved e.frame || e.flags.isShared) = true) : Accounted N L fr := by
  unfold Pte.own at h
  by_cases hs : e.flags.isShared = true
  · rwa [if_pos hs, zero_add] at h
  · rw [if_neg hs, Multiset.singleton_add] at h
    have hown : ¬ fr.Owned e.frame := fun hown => by
      rw [hown.2, Bool.false_or] at hc
      exact hs hc
    have hd := h.drop
    rwa [Frames.freeFrame, if_neg hown] at hd

/-- **The entries are copied**, or the copy is abandoned. -/
theorem cloneLoop_spec (hmax : ∀ f ∈ heldBy src₀.leaf, fr₀.Owned f → T.count f ≤ REF_MAX)
    (h : Cloning fr₀ src₀ N L T es src dst fr) :
    ((cloneLoop es src dst fr).1 = true → Cloning fr₀ src₀ N L T [] (cloneLoop es src dst fr).2.1
      (cloneLoop es src dst fr).2.2.1 (cloneLoop es src dst fr).2.2.2) ∧
    ((cloneLoop es src dst fr).1 = false → Abandoned fr₀ src₀ N L (cloneLoop es src dst fr).2.1
      (cloneLoop es src dst fr).2.2.1 (cloneLoop es src dst fr).2.2.2) := by
  induction es generalizing src dst fr with
  | nil => exact ⟨fun _ => h, fun hc => absurd hc (by simp [cloneLoop])⟩
  | cons x es ih =>
      obtain ⟨p, e⟩ := x
      have hthere : src₀.leaf[p]? = some e := h.there (p, e) List.mem_cons_self
      have hsrc : src.leaf[p]? = some e := (h.ahead p List.mem_cons_self).1.trans hthere
      by_cases hc : (fr.reserved e.frame || e.flags.isShared) = true
      · -- the entry is copied as it is
        have hcow : e.cow fr₀.reserved = e := by
          rw [Pte.cow, ← h.like.reserved, if_pos hc]
        have hget : ∀ q, src.leaf[q]? = if q = p then some (e.cow fr₀.reserved) else src.leaf[q]? :=
          fun q => by
            by_cases e' : q = p
            · rw [if_pos e', e', hcow, hsrc]
            · rw [if_neg e']
        have ha := h.accounted.keep hc
        rw [cloneLoop, if_pos hc]
        have hl := like_mapPage p e (dst, fr)
        rcases hm : mapPage p e (dst, fr) with ⟨- | -, dst', fr'⟩
        · refine ⟨fun hb => absurd hb (by simp), fun _ => ?_⟩
          rw [hm] at hl
          rw [← hl.reserved] at hc
          exact h.abandon hget rfl rfl ha (hcow.symm ▸ hm) fun h => h.unkeep hc
        · exact ih (h.next hget rfl rfl (.refl fr) ha (hcow.symm ▸ hm))
      · -- a private page becomes one that is copied when it is written
        have hpriv : e.flags.isShared = false := by
          cases hs : e.flags.isShared
          · rfl
          · exact absurd (by rw [hs, Bool.or_true]) hc
        have hown : e.own = {e.frame} := by rw [Pte.own, hpriv, if_neg (by simp)]
        obtain ⟨e', he'⟩ : ∃ e' : Pte, e' = { e with flags := { e.flags with ro := true } } :=
          ⟨_, rfl⟩
        have hcow : e.cow fr₀.reserved = e' := by
          rw [Pte.cow, ← h.like.reserved, if_neg hc, he']
        obtain ⟨src', hs', hget, htab, hheld⟩ : ∃ src' : Pt,
            src' = (if e.flags.ro then src else { src with leaf := src.leaf.insert p e' }) ∧
            (∀ q, src'.leaf[q]? = if q = p then some (e.cow fr₀.reserved) else src.leaf[q]?) ∧
            src'.tables = src.tables ∧ heldBy src'.leaf = heldBy src.leaf := by
          refine ⟨_, rfl, ?_⟩
          by_cases hro : e.flags.ro = true
          · rw [if_pos hro]
            refine ⟨fun q => ?_, rfl, rfl⟩
            by_cases hq : q = p
            · rw [if_pos hq, hq, hcow, hsrc, he', ← hro]
            · rw [if_neg hq]
          · rw [if_neg hro]
            refine ⟨fun q => ?_, rfl, ?_⟩
            · rw [hcow]
              exact get_insert
            · have hput := heldBy_insert (e := e.cow fr₀.reserved) hsrc
              rw [Pte.own_cow, add_comm e.own, hcow] at hput
              exact add_right_cancel hput
        have hin : e.frame ∈ heldBy src.leaf := by
          rw [heldBy_erase hsrc, hown]
          exact Multiset.mem_add.mpr (.inl (Multiset.mem_singleton_self _))
        have hin₀ : e.frame ∈ heldBy src₀.leaf := by
          rw [heldBy_erase hthere, hown]
          exact Multiset.mem_add.mpr (.inl (Multiset.mem_singleton_self _))
        have hcount : fr.Owned e.frame →
            (heldBy dst.leaf + (heldBy src.leaf + L)).count e.frame < REF_MAX := fun ho => by
          have hle := hmax e.frame hin₀ (h.like.owned.mp ho)
          rw [← h.total, privateFrames_cons, hown, Multiset.count_add, Multiset.count_add _ {e.frame},
            Multiset.count_singleton_self] at hle
          omega
        have ha := h.accounted.incRef
          (Multiset.mem_add.mpr (.inr (Multiset.mem_add.mpr (.inl hin)))) hcount
        rw [← Multiset.singleton_add, ← hown] at ha
        rw [cloneLoop, if_neg hc]
        simp only [← he', ← hs']
        rcases hm : mapPage p e' (dst, fr.incRef e.frame) with ⟨- | -, dst', fr'⟩
        · refine ⟨fun hb => absurd hb (by simp), fun _ => ?_⟩
          refine h.abandon hget htab hheld ha (hcow.symm ▸ hm) fun h => ?_
          rw [hown, Multiset.singleton_add] at h
          exact h.drop
        · exact ih (h.next hget htab hheld (fr.like_incRef e.frame) ha (hcow.symm ▸ hm))

/-- The references of a space with those that its copy adds are no more than can be counted. -/
def Countable (pt : Pt) (fr : Frames) : Prop :=
  ∀ f ∈ privateFrames pt.leaf.toList, fr.Owned f →
    fr.refs f + (privateFrames pt.leaf.toList).count f ≤ REF_MAX

/-- **A space is copied**: every entry is, and a private one cannot be written any more. -/
theorem cloneUserSpace_spec (h : Accounted (pt.tables + N) (heldBy pt.leaf + L) fr)
    (hmax : Countable pt fr) :
    (∃ root dst, (cloneUserSpace pt fr).1 = some (root, dst) ∧
      (∀ p : Nat, dst.leaf[p]? = pt.leaf[p]?.map (Pte.cow fr.reserved)) ∧
      (∀ p : Nat, (cloneUserSpace pt fr).2.1.leaf[p]? = pt.leaf[p]?.map (Pte.cow fr.reserved)) ∧
      Accounted (root ::ₘ (dst.tables + ((cloneUserSpace pt fr).2.1.tables + N)))
        (heldBy dst.leaf + (heldBy (cloneUserSpace pt fr).2.1.leaf + L))
        (cloneUserSpace pt fr).2.2) ∨
    (cloneUserSpace pt fr).1 = none ∧
      (∀ p : Nat, (cloneUserSpace pt fr).2.1.leaf[p]? = pt.leaf[p]? ∨
        (cloneUserSpace pt fr).2.1.leaf[p]? = pt.leaf[p]?.map (Pte.cow fr.reserved)) ∧
      ∃ lost, Accounted ((cloneUserSpace pt fr).2.1.tables + (lost + N))
        (heldBy (cloneUserSpace pt fr).2.1.leaf + L) (cloneUserSpace pt fr).2.2 := by
  unfold cloneUserSpace
  rcases h.createUserSpace with ⟨root, dst, hc, hempty, ha⟩ | ⟨hc, lost, ha⟩
  · rcases hr : createUserSpace fr with ⟨r, fr₁⟩
    rw [hr] at hc ha
    obtain rfl : r = some (root, dst) := hc
    have hl := like_createUserSpace fr
    rw [hr] at hl
    have hstart : Cloning fr₁ pt (root ::ₘ (pt.tables + N)) L
        (0 + (heldBy pt.leaf + L) + privateFrames pt.leaf.toList) pt.leaf.toList pt dst fr₁ := by
      refine ⟨fun x hx => mem_toList.mp hx, nodup_keys, fun p _ => ⟨rfl, by simp [hempty]⟩,
        fun p hp => ?_, rfl, ?_, by rw [hempty]; rfl, .refl fr₁⟩
      · have hnone : pt.leaf[p]? = none := by
          cases hg : pt.leaf[p]? with
          | none => rfl
          | some e => exact absurd (mem_keys.mpr ⟨e, hg⟩) hp
        simp [hnone, hempty]
      · rw [hempty, Multiset.add_cons]
        simpa [heldBy] using ha
    have hcount : ∀ f ∈ heldBy pt.leaf, fr₁.Owned f →
        (0 + (heldBy pt.leaf + L) + privateFrames pt.leaf.toList).count f ≤ REF_MAX :=
      fun f hf ho => by
        rw [← privateFrames_eq] at hf
        have hle := hmax f hf (hl.owned.mp ho)
        have hrefs := h.refs f (hl.owned.mp ho)
        rw [zero_add, Multiset.count_add, Multiset.coe_count]
        omega
    obtain ⟨hdone, hgone⟩ := cloneLoop_spec hcount hstart
    simp only
    rcases hloop : cloneLoop pt.leaf.toList pt dst fr₁ with ⟨- | -, src', dst', fr'⟩
    · rw [hloop] at hgone
      obtain ⟨hentries, htab, hacc⟩ := hgone rfl
      simp only at htab hacc
      rw [hl.reserved] at hentries
      refine .inr ⟨rfl, hentries, 0, ?_⟩
      rw [zero_add, htab]
      rw [Multiset.add_cons] at hacc
      exact hacc.freeUserSpace
    · rw [hloop] at hdone
      obtain ⟨-, -, -, hbehind, htab, hacc, -, -⟩ := hdone rfl
      simp only [List.map_nil, List.not_mem_nil, not_false_eq_true, forall_const] at hbehind
      rw [hl.reserved] at hbehind
      simp only at htab hacc
      refine .inl ⟨root, dst', rfl, fun p => (hbehind p).2, fun p => (hbehind p).1, ?_⟩
      rw [htab, ← Multiset.add_cons]
      exact hacc
  · rcases hr : createUserSpace fr with ⟨r, fr₁⟩
    rw [hr] at hc ha
    obtain rfl : r = none := hc
    refine .inr ⟨rfl, fun p => .inl rfl, lost, ?_⟩
    rwa [add_left_comm]

end Cloning

/-! ### The move of a range -/

/-- The page number to which a page of a range moves. -/
def target (oldStart newStart p : Nat) : Nat := newStart / PAGE + (p - oldStart / PAGE)

/-- What holds of the entries to move and is kept by each move holds at the end. -/
theorem moveRange_induction {I : List (Nat × Pte) → Pt × Frames → Prop}
    {oldStart oldEnd newStart : Nat} {s : Pt × Frames}
    (h₀ : I (s.1.leaf.filter fun p _ => Pt.walked oldStart oldEnd p).toList s)
    (hmove : ∀ p e es s pt fr, I ((p, e) :: es) s →
      mapPage (target oldStart newStart p) e s = (true, pt, fr) →
      I es ({ pt with leaf := pt.leaf.erase p }, fr))
    (hstay : ∀ p e es s s', I ((p, e) :: es) s →
      mapPage (target oldStart newStart p) e s = (false, s') → I es s') :
    I [] (moveRange oldStart oldEnd newStart s) := by
  unfold moveRange
  generalize (s.1.leaf.filter fun p _ => Pt.walked oldStart oldEnd p).toList = es at h₀
  induction es generalizing s with
  | nil => exact h₀
  | cons x es ih =>
      obtain ⟨p, e⟩ := x
      rw [List.foldl_cons]
      rcases hm : mapPage (target oldStart newStart p) e s with ⟨- | -, pt, fr⟩ <;>
        rw [target] at hm <;> simp only [hm]
      · exact ih (hstay p e es s _ h₀ hm)
      · exact ih (hmove p e es s pt fr h₀ hm)

/-- The entries to move are there, and none goes where one of them is. -/
structure Moving (oldStart newStart : Nat) (K : Nat → Prop) (es : List (Nat × Pte)) (m : Tree Pte) :
    Prop where
  there : ∀ x ∈ es, m[x.1]? = some x.2
  once : (es.map (·.1)).Nodup
  apart : ∀ x ∈ es, K x.1 ∧ ∀ p, K p → target oldStart newStart p ≠ x.1

variable {oldStart oldEnd newStart : Nat} {K : Nat → Prop} {es : List (Nat × Pte)} {m m' : Tree Pte}

theorem Moving.next (h : Moving oldStart newStart K ((p, e) :: es) m)
    (hm : ∀ q, q ≠ p → (∀ x, K x → q ≠ target oldStart newStart x) → m'[q]? = m[q]?) :
    Moving oldStart newStart K es m' := by
  obtain ⟨hp, honce⟩ := List.nodup_cons.mp h.once
  refine ⟨fun x hx => ?_, honce, fun x hx => h.apart x (List.mem_cons_of_mem _ hx)⟩
  obtain ⟨-, htgt⟩ := h.apart x (List.mem_cons_of_mem _ hx)
  rw [hm x.1 (fun e => hp (List.mem_map.mpr ⟨x, hx, e⟩)) fun y hy e => htgt y hy e.symm]
  exact h.there x (List.mem_cons_of_mem _ hx)

/-- The range that is moved lies apart from where it goes. -/
def Apart (oldStart oldEnd newStart : Nat) : Prop :=
  ∀ p q, Pt.walked oldStart oldEnd p = true → Pt.walked oldStart oldEnd q = true →
    target oldStart newStart p ≠ q

theorem Apart.moving (h : Apart oldStart oldEnd newStart) (m : Tree Pte) :
    Moving oldStart newStart (fun p => Pt.walked oldStart oldEnd p = true)
      (m.filter fun p _ => Pt.walked oldStart oldEnd p).toList m := by
  have hmem : ∀ x ∈ (m.filter fun p _ => Pt.walked oldStart oldEnd p).toList,
      m[x.1]? = some x.2 ∧ Pt.walked oldStart oldEnd x.1 = true := fun x hx => by
    have := mem_toList.mp hx
    rw [get_filter] at this
    obtain ⟨h₁, h₂⟩ := Option.filter_eq_some_iff.mp this
    exact ⟨h₁, h₂⟩
  refine ⟨fun x hx => (hmem x hx).1, nodup_keys, fun x hx => ⟨(hmem x hx).2, fun p hp => ?_⟩⟩
  exact h p x.1 hp (hmem x hx).2

/-- **A range is moved**: the references of entries that it replaces are lost. -/
theorem Accounted.moveRange {s : Pt × Frames} (hap : Apart oldStart oldEnd newStart)
    (h : Accounted (s.1.tables + N) (heldBy s.1.leaf + L) s.2) :
    ∃ lost, Accounted ((moveRange oldStart oldEnd newStart s).1.tables + N)
      (heldBy (moveRange oldStart oldEnd newStart s).1.leaf + (lost + L))
      (moveRange oldStart oldEnd newStart s).2 := by
  refine (moveRange_induction (s := s) (I := fun es s =>
    Moving oldStart newStart (fun p => Pt.walked oldStart oldEnd p = true) es s.1.leaf ∧
      ∃ lost, Accounted (s.1.tables + N) (heldBy s.1.leaf + (lost + L)) s.2)
    ⟨hap.moving s.1.leaf, 0, by rwa [zero_add]⟩ ?_ ?_).2
  · rintro p e es s pt fr ⟨hmov, lost, ha⟩ hm
    have hp : s.1.leaf[p]? = some e := hmov.there (p, e) List.mem_cons_self
    obtain ⟨hK, hne⟩ := hmov.apart (p, e) List.mem_cons_self
    have hacc := ha.mapPage (target oldStart newStart p) e
    have hleaf := mapPage_leaf (target oldStart newStart p) e s
    rw [hm] at hacc hleaf
    replace hleaf : pt.leaf = s.1.leaf.insert (target oldStart newStart p) e :=
      hleaf.elim (·.2) fun hc => absurd hc.1 (by simp)
    have hpt : pt.leaf[p]? = some e := by
      rw [hleaf, get_insert, if_neg (hne p hK).symm, hp]
    refine ⟨hmov.next fun q hq ht => ?_,
      s.1.leaf[target oldStart newStart p]?.elim 0 Pte.own + lost, ?_⟩
    · simp only
      rw [get_erase, if_neg hq, hleaf, get_insert, if_neg (ht p hK)]
    · -- what is mapped again is what is erased
      have hput := heldBy_put s.1.leaf (target oldStart newStart p) e
      rw [← hleaf, heldBy_erase hpt, add_assoc] at hput
      have hsum := add_left_cancel hput
      simp only
      rw [← add_assoc, ← add_assoc, hsum, add_assoc]
      exact hacc
  · rintro p e es s s' ⟨hmov, lost, ha⟩ hm
    obtain ⟨hK, -⟩ := hmov.apart (p, e) List.mem_cons_self
    have hacc := ha.mapPage (target oldStart newStart p) e
    have hleaf := mapPage_leaf (target oldStart newStart p) e s
    rw [hm] at hacc hleaf
    replace hleaf : s'.1.leaf = s.1.leaf := hleaf.elim (fun hc => absurd hc.1 (by simp)) (·.2)
    refine ⟨hmov.next fun q _ _ => by rw [hleaf], lost, ?_⟩
    rw [hleaf]
    exact hacc

end Pulsar.Vm

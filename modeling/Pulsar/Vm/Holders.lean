import Pulsar.Vm.Accounts
import Pulsar.Vm.Counts

/-!
# The holders of the frames of the memory

`s.Holds live X Y` is `Accounted` for the whole memory: the spaces of the roots `live`, the objects
and the tables of regions hold their frames, and beside them `X` are held alone and `Y` are
references of pages that no table names.  `Holds.root`, `Holds.object` and `Holds.array` bring one
holder to the front, and put it back after a change.
-/

namespace Pulsar.Vm

open Pulsar.Tree Proc

/-- The frames of the vector of an object. -/
def Obj.vector (o : Obj) : Multiset Nat :=
  o.index.elim (0 : Multiset Nat) fun b => (List.range' b o.indexFrames : List Nat)

/-- The frames of an object: its pages and its vector. -/
def Obj.frames (o : Obj) : Multiset Nat := (cells o.page).map (·.2) + o.vector

/-- The frames of the array of regions. -/
def Space.array (sp : Space) : Multiset Nat :=
  sp.table.elim (0 : Multiset Nat) fun b => (List.range' b sp.pages : List Nat)

/-- The reference of the entry of a page. -/
def Pt.ownAt (pt : Pt) (p : Nat) : Multiset Nat := pt.leaf[p]?.elim 0 Pte.own

section Objects

variable {N L : Multiset Nat} {fr fr' : Frames} {o o' : Obj} {pages : Nat}

theorem Accounted.freeIndex (h : Accounted (o.vector + N) L fr) :
    Accounted N L (Mm.freeIndex o fr) := by
  rw [Obj.vector] at h
  unfold Mm.freeIndex
  cases hi : o.index with
  | none => rwa [hi, Option.elim_none, zero_add] at h
  | some b =>
      rw [hi, Option.elim_some] at h
      exact h.freeContig

/-- **The vector of an object grows.** -/
theorem Accounted.growIndex (h : Accounted (o.frames + N) L fr)
    (hg : Mm.growIndex o pages fr = some (o', fr')) : Accounted (o'.frames + N) L fr' := by
  unfold Mm.growIndex at hg
  split_ifs at hg with hc
  · obtain ⟨rfl, rfl⟩ := Prod.mk.inj (Option.some.inj hg)
    exact h
  · simp only at hg
    rcases ha : fr.allocContig (max ((pages * 8 + (PAGE - 1)) / PAGE) 1) with ⟨- | b, fr₁⟩
    · rw [ha] at hg
      exact absurd hg (by simp)
    · rw [ha] at hg
      obtain ⟨rfl, rfl⟩ := Prod.mk.inj (Option.some.inj hg)
      have hsum : ∀ A B C D : Multiset Nat, A + (B + C + D) = C + (B + A + D) := fun A B C D => by
        abel
      have hacc := h.allocContig ha
      rw [Obj.frames, hsum] at hacc
      exact hacc.freeIndex

theorem growIndex_same (hg : Mm.growIndex o pages fr = some (o', fr')) :
    o'.page = o.page ∧ o'.used = o.used ∧ o'.name = o.name ∧ o'.fdRefs = o.fdRefs ∧
      o'.mapRefs = o.mapRefs := by
  unfold Mm.growIndex at hg
  split_ifs at hg
  · obtain ⟨rfl, -⟩ := Prod.mk.inj (Option.some.inj hg)
    exact ⟨rfl, rfl, rfl, rfl, rfl⟩
  · simp only at hg
    split at hg
    · exact absurd hg (by simp)
    · obtain ⟨rfl, -⟩ := Prod.mk.inj (Option.some.inj hg)
      exact ⟨rfl, rfl, rfl, rfl, rfl⟩

/-- **The pages of an object past its end** are given back. -/
theorem Accounted.cut (h : Accounted (o.frames + N) L fr) (k size : Nat) :
    Accounted (({ o with page := o.page.filter (fun p _ => decide (p < k)), size := size } :
      Obj).frames + N) L
      (fr.freeAll ((o.page.filter fun p _ => decide (k ≤ p)).toList.map (·.2))) := by
  have hback : ((((o.page.filter fun p _ => decide (k ≤ p)).toList.map (·.2) : List Nat) :
      Multiset Nat)) = (cells (o.page.filter fun p _ => decide (k ≤ p))).map (·.2) := rfl
  have hnot : ((cells o.page).filter fun e => decide (e.1 < k) = true) =
      (cells o.page).filter fun e => ¬ decide (k ≤ e.1) = true :=
    Multiset.filter_congr fun e _ => by simp
  have hcut : (cells (o.page.filter fun p _ => decide (k ≤ p))).map (·.2) +
      (cells (o.page.filter fun p _ => decide (p < k))).map (·.2) = (cells o.page).map (·.2) := by
    rw [cells_filter, cells_filter, ← Multiset.map_add, hnot, Multiset.filter_add_not]
  refine Accounted.freeAll ((o.page.filter fun p _ => decide (k ≤ p)).toList.map (·.2)) ?_
  rw [hback, ← add_assoc, Obj.frames, ← add_assoc, hcut]
  exact h

theorem Accounted.freeTable {S : Space} (h : Accounted (S.array + N) L fr) :
    Accounted N L (Mm.freeTable S fr) := by
  rw [Space.array] at h
  unfold Mm.freeTable
  cases ht : S.table with
  | none => rwa [ht, Option.elim_none, zero_add] at h
  | some b =>
      rw [ht, Option.elim_some] at h
      exact h.freeContig

end Objects

namespace Mm

variable {s t : Mm} {live : Finset Nat} {X Y X' Y' : Multiset Nat} {r i l f va start stop : Nat}
  {e : Pte} {flags : PageFlags} {fr : Frames}

/-- The frames that something holds alone. -/
def alone (live : Finset Nat) (s : Mm) : Multiset Nat :=
  ∑ r ∈ live, (r ::ₘ (s.pts r).tables) +
    (∑ i ∈ Finset.range (MAX_OBJS + 1), (s.objs i).frames +
      ∑ l ∈ Finset.range MAX_PROCS, (s.spaces l).array)

/-- The references of private pages. -/
def leafRefs (live : Finset Nat) (s : Mm) : Multiset Nat := ∑ r ∈ live, heldBy (s.pts r).leaf

/-- Every frame is held by those who hold it. -/
structure Holds (live : Finset Nat) (X Y : Multiset Nat) (s : Mm) : Prop where
  accounted : Accounted (s.alone live + X) (s.leafRefs live + Y) s.frames
  clean : ∀ i, (s.objs i).used = false → (s.objs i).frames = 0

/-- Nothing differs but the space of root `r`, the frames and what they hold. -/
structure Beside (r : Nat) (s t : Mm) : Prop where
  objs : t.objs = s.objs
  spaces : t.spaces = s.spaces
  pts : ∀ r', r' ≠ r → t.pts r' = s.pts r'

theorem Beside.refl (r : Nat) (s : Mm) : Beside r s s := ⟨rfl, rfl, fun _ _ => rfl⟩

theorem beside_setPt (r : Nat) (pt : Pt) (s : Mm) : Beside r s (s.setPt r pt) :=
  ⟨rfl, rfl, fun _ h => pts_setPt_of_ne h⟩

theorem Beside.setFrames (h : Beside r s t) (fr : Frames) : Beside r s (t.setFrames fr) :=
  ⟨h.objs, h.spaces, h.pts⟩

theorem beside_mapIn (r va : Nat) (e : Pte) (s : Mm) : Beside r s (s.mapIn r va e).2 :=
  (beside_setPt r _ s).setFrames _

theorem beside_unmap (r start stop : Nat) (s : Mm) : Beside r s (s.unmap r start stop) :=
  (beside_setPt r _ s).setFrames _

theorem beside_protectPages (r start stop : Nat) (flags : PageFlags) (s : Mm) :
    Beside r s (s.protectPages r start stop flags) :=
  beside_setPt r _ s

theorem beside_movePages (r oldStart oldEnd newStart : Nat) (s : Mm) :
    Beside r s (s.movePages r oldStart oldEnd newStart) :=
  (beside_setPt r _ s).setFrames _

theorem alone_congr (hp : ∀ r ∈ live, t.pts r = s.pts r) (ho : t.objs = s.objs)
    (hs : t.spaces = s.spaces) : t.alone live = s.alone live := by
  rw [alone, alone, ho, hs, Finset.sum_congr rfl fun r hr => by rw [hp r hr]]

theorem leafRefs_congr (hp : ∀ r ∈ live, t.pts r = s.pts r) : t.leafRefs live = s.leafRefs live := by
  rw [leafRefs, leafRefs, Finset.sum_congr rfl fun r hr => by rw [hp r hr]]

theorem alone_erase (hr : r ∈ live) :
    s.alone live = (r ::ₘ (s.pts r).tables) + s.alone (live.erase r) := by
  rw [alone, ← Finset.add_sum_erase live _ hr, add_assoc, alone]

theorem leafRefs_erase (hr : r ∈ live) :
    s.leafRefs live = heldBy (s.pts r).leaf + s.leafRefs (live.erase r) := by
  rw [leafRefs, ← Finset.add_sum_erase live _ hr, leafRefs]

namespace Holds

/-- **The space of a root**, and the others. -/
theorem root (h : s.Holds live X Y) (hr : r ∈ live) : ∃ N L,
    Accounted ((s.pts r).tables + (N + X)) (heldBy (s.pts r).leaf + (L + Y)) s.frames ∧
      (∀ {t : Mm}, Beside r s t → t.alone live = (t.pts r).tables + N ∧
        t.leafRefs live = heldBy (t.pts r).leaf + L) ∧
      ∀ {t : Mm} {X' Y' : Multiset Nat}, Beside r s t →
        Accounted ((t.pts r).tables + (N + X')) (heldBy (t.pts r).leaf + (L + Y')) t.frames →
          t.Holds live X' Y' := by
  have hsums : ∀ {t : Mm}, Beside r s t →
      t.alone live = (t.pts r).tables + (r ::ₘ s.alone (live.erase r)) ∧
        t.leafRefs live = heldBy (t.pts r).leaf + s.leafRefs (live.erase r) := fun {t} hb => by
    have hpts : ∀ r' ∈ live.erase r, t.pts r' = s.pts r' := fun r' hr' =>
      hb.pts r' (Finset.ne_of_mem_erase hr')
    rw [alone_erase hr, leafRefs_erase hr, alone_congr hpts hb.objs hb.spaces, leafRefs_congr hpts,
      Multiset.cons_add, Multiset.add_cons]
    exact ⟨rfl, rfl⟩
  obtain ⟨h₁, h₂⟩ := hsums (.refl r s)
  refine ⟨r ::ₘ s.alone (live.erase r), s.leafRefs (live.erase r), ?_, hsums,
    fun {t X' Y'} hb ha => ⟨?_, hb.objs ▸ h.clean⟩⟩
  · have ha := h.accounted
    rwa [h₁, h₂, add_assoc, add_assoc] at ha
  · obtain ⟨h₃, h₄⟩ := hsums hb
    rwa [h₃, h₄, add_assoc, add_assoc]

/-- **An object**, and the others. -/
theorem object (h : s.Holds live X Y) (hi : i ≤ MAX_OBJS) : ∃ N,
    Accounted ((s.objs i).frames + (N + X)) (s.leafRefs live + Y) s.frames ∧
      ∀ {t : Mm} {X' : Multiset Nat}, t.pts = s.pts → t.spaces = s.spaces → (∀ j, j ≠ i → t.objs j = s.objs j) →
        ((t.objs i).used = false → (t.objs i).frames = 0) →
        Accounted ((t.objs i).frames + (N + X')) (s.leafRefs live + Y) t.frames →
          t.Holds live X' Y := by
  have hmem : i ∈ Finset.range (MAX_OBJS + 1) := Finset.mem_range.mpr (Nat.lt_succ_of_le hi)
  obtain ⟨N, halone⟩ : ∃ N, ∀ {t : Mm} {X' : Multiset Nat}, t.pts = s.pts →
      t.spaces = s.spaces → (∀ j, j ≠ i → t.objs j = s.objs j) →
        t.alone live + X' = (t.objs i).frames + (N + X') := by
    refine ⟨∑ r ∈ live, (r ::ₘ (s.pts r).tables) +
      (∑ j ∈ (Finset.range (MAX_OBJS + 1)).erase i, (s.objs j).frames +
        ∑ l ∈ Finset.range MAX_PROCS, (s.spaces l).array), fun {t X'} hp hs ho => ?_⟩
    have hrest : ∑ j ∈ (Finset.range (MAX_OBJS + 1)).erase i, (t.objs j).frames =
        ∑ j ∈ (Finset.range (MAX_OBJS + 1)).erase i, (s.objs j).frames :=
      Finset.sum_congr rfl fun j hj => by rw [ho j (Finset.ne_of_mem_erase hj)]
    rw [alone, ← Finset.add_sum_erase _ _ hmem, hrest, hp, hs]
    abel
  refine ⟨N, ?_, fun {t X'} hp hs ho hu ha => ⟨?_, fun j hj => ?_⟩⟩
  · have ha := h.accounted
    rwa [halone rfl rfl fun _ _ => rfl] at ha
  · have hrefs : t.leafRefs live = s.leafRefs live := by rw [leafRefs, leafRefs, hp]
    rwa [halone hp hs ho, hrefs]
  · by_cases e : j = i
    · exact e ▸ hu (e ▸ hj)
    · rw [ho j e] at hj ⊢
      exact h.clean j hj

/-- **A table of regions**, and the others. -/
theorem array (h : s.Holds live X Y) (hl : l < MAX_PROCS) : ∃ N,
    Accounted ((s.spaces l).array + (N + X)) (s.leafRefs live + Y) s.frames ∧
      ∀ {t : Mm} {X' : Multiset Nat}, t.pts = s.pts → t.objs = s.objs → (∀ j, j ≠ l → t.spaces j = s.spaces j) →
        Accounted ((t.spaces l).array + (N + X')) (s.leafRefs live + Y) t.frames →
          t.Holds live X' Y := by
  have hmem : l ∈ Finset.range MAX_PROCS := Finset.mem_range.mpr hl
  obtain ⟨N, halone⟩ : ∃ N, ∀ {t : Mm} {X' : Multiset Nat}, t.pts = s.pts → t.objs = s.objs →
      (∀ j, j ≠ l → t.spaces j = s.spaces j) →
        t.alone live + X' = (t.spaces l).array + (N + X') := by
    refine ⟨∑ r ∈ live, (r ::ₘ (s.pts r).tables) +
      (∑ i ∈ Finset.range (MAX_OBJS + 1), (s.objs i).frames +
        ∑ j ∈ (Finset.range MAX_PROCS).erase l, (s.spaces j).array), fun {t X'} hp ho hs => ?_⟩
    have hrest : ∑ j ∈ (Finset.range MAX_PROCS).erase l, (t.spaces j).array =
        ∑ j ∈ (Finset.range MAX_PROCS).erase l, (s.spaces j).array :=
      Finset.sum_congr rfl fun j hj => by rw [hs j (Finset.ne_of_mem_erase hj)]
    rw [alone, ← Finset.add_sum_erase _ _ hmem, hrest, hp, ho]
    abel
  refine ⟨N, ?_, fun {t X'} hp ho hs ha => ⟨?_, ?_⟩⟩
  · have ha := h.accounted
    rwa [halone rfl rfl fun _ _ => rfl] at ha
  · have hrefs : t.leafRefs live = s.leafRefs live := by rw [leafRefs, leafRefs, hp]
    rwa [halone hp ho hs, hrefs]
  · rw [ho]
    exact h.clean

/-! ### Frames -/

theorem frames (h : s.Holds live X Y) (hfr : ∀ {N L}, Accounted (N + X) (L + Y) s.frames →
    Accounted (N + X') (L + Y') fr) : (s.setFrames fr).Holds live X' Y' :=
  ⟨hfr h.accounted, h.clean⟩

theorem setMem (h : s.Holds live X Y) (f : Nat) (b : Bytes) : (s.setMem f b).Holds live X Y :=
  ⟨h.accounted, h.clean⟩

/-- **A frame is taken.** -/
theorem take (h : s.Holds live X Y) (ha : s.frames.allocFrame = (some f, fr)) :
    (s.setFrames fr).Holds live (f ::ₘ X) Y :=
  h.frames fun h => by
    rw [Multiset.add_cons]
    exact h.allocFrame ha

/-- **A frame is given back.** -/
theorem give (h : s.Holds live (f ::ₘ X) Y) :
    (s.setFrames (s.frames.freeFrame f)).Holds live X Y :=
  h.frames fun h => by
    rw [Multiset.add_cons] at h
    exact h.freeFrame

/-- **A reference is given back.** -/
theorem drop (h : s.Holds live X (f ::ₘ Y)) :
    (s.setFrames (s.frames.freeFrame f)).Holds live X Y :=
  h.frames fun h => by
    rw [Multiset.add_cons] at h
    exact h.drop

theorem giveAll (fs : List Nat) (h : s.Holds live (fs + X) Y) :
    (s.setFrames (s.frames.freeAll fs)).Holds live X Y :=
  h.frames fun h => by
    rw [add_left_comm] at h
    exact h.freeAll fs

theorem share (h : s.Holds live (f ::ₘ X) Y) : s.Holds live X (f ::ₘ Y) := by
  refine ⟨?_, h.clean⟩
  have ha := h.accounted
  rw [Multiset.add_cons] at ha ⊢
  exact ha.share

/-! ### Pages -/

/-- **A page is mapped**, with the reference that its entry is to have; that of the entry that was
there is left. -/
theorem mapIn (h : s.Holds live X (e.own + Y)) (hr : r ∈ live) (va : Nat) :
    ((s.mapIn r va e).1 = true →
      (s.mapIn r va e).2.Holds live X ((s.pts r).ownAt (vpn va) + Y)) ∧
    ((s.mapIn r va e).1 = false → (s.mapIn r va e).2.Holds live X (e.own + Y)) := by
  obtain ⟨N, L, ha, -, hput⟩ := h.root hr
  have hacc := Accounted.mapPage (s := (s.pts r, s.frames)) (vpn va) e ha
  have hb := beside_mapIn r va e s
  have hpt : (s.mapIn r va e).2.pts r = (mapPage (vpn va) e (s.pts r, s.frames)).2.1 :=
    pts_setPt_self
  rcases mapPage_leaf (vpn va) e (s.pts r, s.frames) with ⟨h₁, hleaf⟩ | ⟨h₁, hleaf⟩
  · refine ⟨fun _ => hput hb ?_, fun hc => absurd (h₁.symm.trans hc) (by simp)⟩
    have hsum := heldBy_put (s.pts r).leaf (vpn va) e
    have hall : heldBy (s.pts r).leaf + (L + (e.own + Y)) =
        heldBy ((s.pts r).leaf.insert (vpn va) e) + (L + ((s.pts r).ownAt (vpn va) + Y)) := by
      rw [add_left_comm L, ← add_assoc, add_comm (heldBy _), ← hsum, Pt.ownAt]
      abel
    rw [hpt, hleaf]
    rwa [hall] at hacc
  · refine ⟨fun hc => absurd (h₁.symm.trans hc) (by simp), fun _ => hput hb ?_⟩
    rw [hpt, hleaf]
    exact hacc

theorem unmap (h : s.Holds live X Y) (hr : r ∈ live) (start stop : Nat) :
    (s.unmap r start stop).Holds live X Y := by
  obtain ⟨N, L, ha, -, hput⟩ := h.root hr
  have hpt : (s.unmap r start stop).pts r = (unmapRange start stop (s.pts r, s.frames)).1 :=
    pts_setPt_self
  refine hput (beside_unmap r start stop s) ?_
  rw [hpt]
  exact Accounted.unmapRange (s := (s.pts r, s.frames)) start stop ha

theorem protectPages (h : s.Holds live X Y) (hr : r ∈ live) (start stop : Nat)
    (hf : flags.isShared = false) : (s.protectPages r start stop flags).Holds live X Y := by
  obtain ⟨N, L, ha, -, hput⟩ := h.root hr
  have hpt : (s.protectPages r start stop flags).pts r = protectRange start stop flags (s.pts r) :=
    pts_setPt_self
  refine hput (beside_protectPages r start stop flags s) ?_
  have hheld : heldBy (protectRange start stop flags (s.pts r)).leaf = heldBy (s.pts r).leaf :=
    heldBy_map _ fun p e => by
      split_ifs
      · rw [Pte.own, Pte.own, hf, Bool.false_or]
      · rfl
  rw [hpt, hheld]
  exact ha

theorem movePages (h : s.Holds live X Y) (hr : r ∈ live) {oldStart oldEnd newStart : Nat}
    (hap : Apart oldStart oldEnd newStart) :
    ∃ lost, (s.movePages r oldStart oldEnd newStart).Holds live X (lost + Y) := by
  obtain ⟨N, L, ha, -, hput⟩ := h.root hr
  have hpt : (s.movePages r oldStart oldEnd newStart).pts r =
      (moveRange oldStart oldEnd newStart (s.pts r, s.frames)).1 := pts_setPt_self
  obtain ⟨lost, hacc⟩ := Accounted.moveRange (s := (s.pts r, s.frames)) hap ha
  refine ⟨lost, hput (beside_movePages r oldStart oldEnd newStart s) ?_⟩
  rw [hpt, add_left_comm L]
  exact hacc

/-! ### Faults -/

theorem zeroedFrame (h : s.Holds live X Y) :
    s.zeroedFrame.2.Holds live (s.zeroedFrame.1.elim 0 (fun f => {f}) + X) Y := by
  unfold Mm.zeroedFrame
  rcases ha : s.frames.allocFrame with ⟨- | f, fr⟩
  · rw [Option.elim_none, zero_add]
    exact h
  · rw [Option.elim_some, Multiset.singleton_add]
    exact (h.take ha).setMem f zeroPage

theorem mapNew (flags : PageFlags) (h : s.Holds live (f ::ₘ X) Y) (hr : r ∈ live) (va : Nat)
    (hnew : (s.pts r).leaf[vpn va]? = none) (hf : flags.isShared = false) :
    ((s.mapIn r va ⟨f, flags⟩).1 = true → (s.mapIn r va ⟨f, flags⟩).2.Holds live X Y) ∧
    ((s.mapIn r va ⟨f, flags⟩).1 = false →
      ((s.mapIn r va ⟨f, flags⟩).2.setFrames
        ((s.mapIn r va ⟨f, flags⟩).2.frames.freeFrame f)).Holds live X Y) := by
  have hown : (⟨f, flags⟩ : Pte).own = {f} := by rw [Pte.own, hf, if_neg (by simp)]
  have hs : s.Holds live X ((⟨f, flags⟩ : Pte).own + Y) := by
    rw [hown, Multiset.singleton_add]
    exact h.share
  obtain ⟨h₁, h₂⟩ := hs.mapIn hr va
  refine ⟨fun hb => ?_, fun hb => ?_⟩
  · have hend := h₁ hb
    rwa [Pt.ownAt, hnew, Option.elim_none, zero_add] at hend
  · have hend := h₂ hb
    rw [hown, Multiset.singleton_add] at hend
    exact hend.drop

/-- **A page is copied.** -/
theorem copyPage {page frame : Nat} {e₀ : Pte} (h : s.Holds live X Y) (hr : r ∈ live)
    (he : (s.pts r).leaf[vpn page]? = some e₀) (hown : e₀.own = {frame})
    (hf : flags.isShared = false) : (s.copyPage r page frame flags).2.Holds live X Y := by
  unfold Mm.copyPage
  rcases ha : s.frames.allocFrame with ⟨- | new, fr⟩
  · exact h
  · have hnew : (⟨new, flags⟩ : Pte).own = {new} := by rw [Pte.own, hf, if_neg (by simp)]
    have hs := ((h.take ha).setMem new (s.mem frame)).share
    rw [← Multiset.singleton_add, ← hnew] at hs
    obtain ⟨h₁, h₂⟩ := hs.mapIn hr page
    simp only
    rcases hm : ((s.setFrames fr).setMem new (s.mem frame)).mapIn r page ⟨new, flags⟩
      with ⟨- | -, t⟩
    · rw [hm] at h₂
      have hend := h₂ rfl
      rw [hnew, Multiset.singleton_add] at hend
      exact hend.drop
    · rw [hm] at h₁
      have hend := h₁ rfl
      have hat : (((s.setFrames fr).setMem new (s.mem frame)).pts r).ownAt (vpn page) = {frame} := by
        rw [pts_setMem, pts_setFrames, Pt.ownAt, he, Option.elim_some, hown]
      rw [hat, Multiset.singleton_add] at hend
      exact hend.drop

/-- **A new zeroed page is mapped** where nothing is. -/
theorem mapZeroed {page : Nat} (h : s.Holds live X Y) (hr : r ∈ live)
    (hnew : (s.pts r).leaf[vpn page]? = none) (hf : flags.isShared = false) :
    (s.mapZeroed r page flags).2.Holds live X Y := by
  unfold Mm.mapZeroed Mm.zeroedFrame
  rcases ha : s.frames.allocFrame with ⟨- | f, fr⟩
  · exact h
  · obtain ⟨h₁, h₂⟩ := ((h.take ha).setMem f zeroPage).mapNew flags hr page hnew hf
    simp only
    rcases hm : ((s.setFrames fr).setMem f zeroPage).mapIn r page ⟨f, flags⟩ with ⟨- | -, t⟩
    · rw [hm] at h₂
      exact h₂ rfl
    · rw [hm] at h₁
      exact h₁ rfl

/-- **Frames are taken**, as many as there are. -/
theorem takeFrames (n : Nat) (h : s.Holds live X Y) :
    (takeFrames n s).2.Holds live ((takeFrames n s).1 + X) Y := by
  induction n generalizing s X with
  | zero => simpa [Mm.takeFrames] using h
  | succ n ih =>
      have hz := h.zeroedFrame
      unfold Mm.takeFrames
      rcases hr : s.zeroedFrame with ⟨- | f, t⟩ <;> rw [hr] at hz
      · simpa using hz
      · rw [Option.elim_some, Multiset.singleton_add] at hz
        have hrest := ih hz
        rw [Multiset.add_cons, ← Multiset.cons_add, Multiset.cons_coe] at hrest
        exact hrest

theorem readPages (file : Nat → Option Bytes) (fs : List Nat) (h : s.Holds live X Y) (pg : Nat) :
    (readPages file pg fs s).2.Holds live X Y := by
  induction fs generalizing s pg with
  | nil => exact h
  | cons f fs ih =>
      unfold Mm.readPages
      split
      · exact h
      · exact ih (h.setMem f _) _

/-- **The pages of a file are read** into frames that the fault has in hand. -/
theorem faultRead {file : Nat → Nat → Option Bytes} {page n : Nat} {v : Vma}
    (h : s.Holds live X Y) : (s.faultRead file page v n).2.Holds live
      ((s.faultRead file page v n).1.elim 0 (fun fs => (fs : Multiset Nat)) + X) Y := by
  have ht := h.takeFrames n
  have hr := ht.readPages (file v.ino) (Mm.takeFrames n s).1 (v.page page)
  unfold Mm.faultRead
  simp only
  by_cases he : (Mm.takeFrames n s).1 = []
  · rw [if_pos he, Option.elim_none, zero_add]
    rwa [he, Multiset.coe_nil, zero_add] at ht
  · rw [if_neg he]
    rcases hq : Mm.readPages (file v.ino) (v.page page) (Mm.takeFrames n s).1 (Mm.takeFrames n s).2
      with ⟨- | -, t⟩ <;> rw [hq] at hr
    · rw [Option.elim_none, zero_add]
      exact hr.giveAll _
    · exact hr

/-- **The pages read are mapped**; those left over when the first fails are lost. -/
theorem placePages {page : Nat} {v cur : Vma} (fs : List Nat) (hr : r ∈ live) :
    ∀ {i X s}, s.Holds live (fs + X) Y →
      ∃ lost, (placePages r page v cur i fs s).2.Holds live (lost + X) Y := by
  induction fs with
  | nil => exact fun {i X s} h => ⟨0, h⟩
  | cons f fs ih =>
      intro i X s h
      rw [← Multiset.cons_coe, Multiset.cons_add] at h
      rw [Mm.placePages]
      simp only
      by_cases hc : page + i * PAGE < cur.stop ∧ cur.ino = v.ino ∧
          (s.pts r).isMapped (page + i * PAGE) = false
      · rw [if_pos hc]
        have hnone := Pt.isMapped_eq_false.mp hc.2.2
        obtain ⟨h₁, h₂⟩ := h.mapNew (.userProt cur.prot) hr (page + i * PAGE) hnone rfl
        rcases hm : s.mapIn r (page + i * PAGE) ⟨f, .userProt cur.prot⟩ with ⟨- | -, t⟩
        · rw [hm] at h₂
          simp only
          split_ifs
          · exact ⟨fs, h₂ rfl⟩
          · exact ih (h₂ rfl)
        · rw [hm] at h₁
          exact ih (h₁ rfl)
      · rw [if_neg hc]
        split_ifs
        · exact ih (h.give.protectPages hr _ _ rfl)
        · exact ih h.give

theorem faultEnd {c : Cur} {addr : Nat} {v : Vma} {fs : List Nat} (h : s.Holds live (fs + X) Y)
    (hr : c.root ∈ live) : ∃ lost, (s.faultEnd c addr v fs).2.Holds live (lost + X) Y := by
  unfold Mm.faultEnd
  rcases find (s.spaces c.slot).vmas addr with - | cur
  · exact ⟨0, by rw [zero_add]; exact h.giveAll fs⟩
  · exact placePages fs hr h

end Holds

/-! ### Objects -/

theorem frames_empty : Obj.empty.frames = 0 := rfl

namespace Holds

variable {o : Obj}

theorem setObj (h : s.Holds live X Y) (hi : i ≤ MAX_OBJS) (hf : o.frames = (s.objs i).frames)
    (hu : o.used = false → o.frames = 0) : (s.setObj i o).Holds live X Y := by
  obtain ⟨N, ha, hput⟩ := h.object hi
  refine hput rfl rfl (fun j hj => objs_setObj_of_ne hj) (by rwa [objs_setObj_self]) ?_
  rw [objs_setObj_self, hf]
  exact ha

/-- **An object that nobody refers to is freed.** -/
theorem maybeFree (h : s.Holds live X Y) (i : Nat) : (s.maybeFree i).Holds live X Y := by
  unfold Mm.maybeFree
  split_ifs with hi
  · simp only
    split_ifs
    · exact h
    · obtain ⟨N, ha, hput⟩ := h.object hi.2.1
      refine hput rfl rfl (fun j hj => objs_setObj_of_ne hj) ?_ ?_
      · rw [objs_setObj_self]
        exact fun _ => rfl
      · rw [objs_setObj_self, frames_empty, zero_add]
        rw [Obj.frames, add_assoc] at ha
        exact Accounted.freeIndex (Accounted.freeAll ((s.objs i).page.toList.map (·.2)) ha)
  · exact h

theorem fdRef (h : s.Holds live X Y) (i : Nat) (d : Int) : (s.fdRef i d).Holds live X Y := by
  obtain ⟨t, ht⟩ : ∃ t, t = if s.HasObj i then s.setObj i
      { s.objs i with fdRefs := ((s.objs i).fdRefs + d).toNat } else s := ⟨_, rfl⟩
  have hset : t.Holds live X Y := by
    rw [ht]
    split_ifs with hi
    · exact h.setObj hi.2.1 rfl fun hu => absurd (hi.2.2.symm.trans hu) (by simp)
    · exact h
  unfold Mm.fdRef
  simp only [← ht]
  split_ifs
  · exact hset.maybeFree i
  · exact hset

theorem mapRef (h : s.Holds live X Y) (i : Nat) (d : Int) : (s.mapRef i d).Holds live X Y := by
  obtain ⟨t, ht⟩ : ∃ t, t = if s.HasObj i then s.setObj i
      { s.objs i with mapRefs := ((s.objs i).mapRefs + d).toNat } else s := ⟨_, rfl⟩
  have hset : t.Holds live X Y := by
    rw [ht]
    split_ifs with hi
    · exact h.setObj hi.2.1 rfl fun hu => absurd (hi.2.2.symm.trans hu) (by simp)
    · exact h
  unfold Mm.mapRef
  simp only [← ht]
  split_ifs
  · exact hset.maybeFree i
  · exact hset

theorem objRef (h : s.Holds live X Y) (x : Nat × Int) : (s.objRef x).Holds live X Y := by
  unfold Mm.objRef
  split_ifs
  · exact h.mapRef x.1 x.2
  · exact h

theorem objRefs (h : s.Holds live X Y) (rs : Refs) : (s.objRefs rs).Holds live X Y := by
  unfold Mm.objRefs
  induction rs generalizing s with
  | nil => exact h
  | cons x rs ih => exact ih (h.objRef x)

theorem create (h : s.Holds live X Y) (name : Option (List UInt8)) :
    (s.create name).2.Holds live X Y := by
  unfold Mm.create
  rcases hf : s.freeObj with - | id
  · exact h
  · obtain ⟨hid, hused⟩ := freeObj_some hf
    refine h.setObj hid.2 ?_ fun hu => absurd hu (by simp)
    rw [h.clean id hused]
    rfl

theorem createAnon (h : s.Holds live X Y) (size : Nat) : (s.createAnon size).2.Holds live X Y := by
  have hc := h.create none
  unfold Mm.createAnon
  rcases hcr : s.create none with ⟨- | id, u⟩ <;> rw [hcr] at hc
  · exact hc
  · have hid : id ≤ MAX_OBJS ∧ (u.objs id).used = true := by
      unfold Mm.create at hcr
      rcases hf : s.freeObj with - | j
      · rw [hf] at hcr
        exact absurd (congrArg Prod.fst hcr) (by simp)
      · rw [hf] at hcr
        obtain ⟨h₁, rfl⟩ := Prod.mk.inj hcr
        obtain rfl := Option.some.inj h₁
        exact ⟨(freeObj_some hf).1.2, by rw [objs_setObj_self]⟩
    have hfree : ((u.setObj id { u.objs id with fdRefs := 0 }).maybeFree id).Holds live X Y :=
      (hc.setObj (o := { u.objs id with fdRefs := 0 }) hid.1 rfl
        fun hu => absurd (hid.2.symm.trans hu) (by simp)).maybeFree id
    simp only
    split_ifs
    · exact hfree
    · rcases hg : Mm.growIndex { u.objs id with fdRefs := 0 } (Mm.pagesOf size) u.frames with
        - | ⟨o, fr⟩
      · exact hfree
      · obtain ⟨N, ha, hput⟩ := hc.object hid.1
        have hsame := growIndex_same hg
        have hacc := Accounted.growIndex (o := { u.objs id with fdRefs := 0 }) ha hg
        refine hput rfl rfl (fun j hj => objs_setObj_of_ne hj) ?_ ?_
        · rw [objs_setObj_self]
          exact fun hu => absurd ((hsame.2.1.trans hid.2).symm.trans hu) (by simp)
        · rw [objs_setObj_self]
          exact hacc

theorem openNamed (h : s.Holds live X Y) (name : List UInt8) :
    (s.openNamed name).2.Holds live X Y := by
  unfold Mm.openNamed
  rcases hn : s.named? name with - | id
  · exact h
  · have hid := named?_some hn
    exact h.setObj hid.2.1 rfl fun hu => absurd (hid.2.2.symm.trans hu) (by simp)

theorem unlink (h : s.Holds live X Y) (name : List UInt8) : (s.unlink name).2.Holds live X Y := by
  unfold Mm.unlink
  rcases hn : s.named? name with - | id
  · exact h
  · have hid := named?_some hn
    exact (h.setObj (o := { s.objs id with name := none }) hid.2.1 rfl
      fun hu => absurd (hid.2.2.symm.trans hu) (by simp)).maybeFree id

/-- **A page of an object** is there, or a new one is made. -/
theorem page (h : s.Holds live X Y) (id pg : Nat) (alloc : Bool) :
    (s.page id pg alloc).2.Holds live X Y := by
  unfold Mm.page
  by_cases hid : s.HasObj id
  · rw [if_pos hid]
    simp only
    by_cases hlen : Mm.pagesOf (s.objs id).size ≤ pg
    · rw [if_pos hlen]
      exact h
    · rw [if_neg hlen]
      cases hp : (s.objs id).page[pg]? with
      | some f => exact h
      | none =>
          cases alloc with
          | false => exact h
          | true =>
              simp only [if_true]
              rcases ha : s.frames.allocFrame with ⟨- | f, fr⟩
              · exact h
              · obtain ⟨N, hacc, hput⟩ := h.object hid.2.1
                refine hput rfl rfl (fun j hj => objs_setObj_of_ne hj) ?_ ?_
                · rw [objs_setObj_self]
                  exact fun hu => absurd (hid.2.2.symm.trans hu) (by simp)
                · have hframes : ({ s.objs id with page := (s.objs id).page.insert pg f } :
                      Obj).frames = f ::ₘ (s.objs id).frames := by
                    rw [Obj.frames, cells_insert hp, Multiset.map_cons, Multiset.cons_add]
                    rfl
                  rw [objs_setObj_self, hframes, Multiset.cons_add]
                  exact hacc.allocFrame ha
  · rw [if_neg hid]
    exact h

/-- **An object is cut**, or grows: the pages past its end are given back. -/
theorem truncate (h : s.Holds live X Y) (id size : Nat) :
    (s.truncate id size).2.Holds live X Y := by
  unfold Mm.truncate
  by_cases hs : MAX_SIZE < size
  · rw [if_pos hs]
    exact h
  · rw [if_neg hs]
    by_cases hid : s.HasObj id
    · rw [if_pos hid]
      rcases hg : Mm.growIndex (s.objs id) (Mm.pagesOf size) s.frames with - | ⟨o, fr⟩
      · exact h
      · obtain ⟨N, ha, hput⟩ := h.object hid.2.1
        have hsame := growIndex_same hg
        have hacc := Accounted.growIndex ha hg
        obtain ⟨u, hu⟩ : ∃ u, u = (s.setFrames (fr.freeAll ((o.page.filter
            fun p _ => decide (Mm.pagesOf size ≤ p)).toList.map (·.2)))).setObj id
              { o with page := o.page.filter (fun p _ => decide (p < Mm.pagesOf size)),
                       size := size } := ⟨_, rfl⟩
        have hall : u.Holds live X Y := by
          rw [hu]
          refine hput rfl rfl (fun j hj => objs_setObj_of_ne hj) ?_ ?_
          · rw [objs_setObj_self]
            exact fun hu => absurd ((hsame.2.1.trans hid.2.2).symm.trans hu) (by simp)
          · rw [objs_setObj_self]
            exact hacc.cut (Mm.pagesOf size) size
        simp only [← hu]
        split_ifs
        · split
          · exact hall.setMem _ _
          · exact hall
        · exact hall
    · rw [if_neg hid]
      exact h

/-! ### Tables of regions -/

theorem setSpace {S : Space} (h : s.Holds live X Y) (hl : l < MAX_PROCS)
    (hsp : S.array = (s.spaces l).array) : (s.setSpace l S).Holds live X Y := by
  obtain ⟨N, ha, hput⟩ := h.array hl
  refine hput rfl rfl (fun j hj => spaces_setSpace_of_ne hj) ?_
  rw [spaces_setSpace_self, hsp]
  exact ha

theorem edit (h : s.Holds live X Y) (hl : l < MAX_PROCS) (F : List Vma → List Vma × Refs) :
    (s.edit l F).Holds live X Y :=
  (h.setSpace (S := { s.spaces l with vmas := (F (s.spaces l).vmas).1 }) hl rfl).objRefs _

/-- **A longer array is taken** for the regions. -/
theorem reserve (h : s.Holds live X Y) (hl : l < MAX_PROCS) (k : Nat) :
    (s.reserve l k).2.Holds live X Y := by
  rcases reserve_cases l k s with ⟨-, hr⟩ | hr | ⟨b, fr, ha, hr⟩
  · rw [hr]
    exact h
  · rw [hr]
    exact h
  · rw [hr]
    obtain ⟨N, hacc, hput⟩ := h.array hl
    refine hput rfl rfl (fun j hj => spaces_setSpace_of_ne hj) ?_
    rw [spaces_setSpace_self]
    refine Accounted.freeTable (S := s.spaces l) ?_
    rw [add_left_comm]
    exact hacc.allocContig ha

/-- **The regions are copied** to a slot that has no array. -/
theorem cloneSpace {src dst : Nat} (h : s.Holds live X Y) (hd : dst < MAX_PROCS)
    (hempty : (s.spaces dst).array = 0) : (cloneSpace src dst s).Holds live X Y := by
  have hset : (s.setSpace dst { Space.empty with hint := (s.spaces src).hint }).Holds live X Y :=
    h.setSpace hd (by rw [hempty]; rfl)
  unfold Vm.cloneSpace
  simp only
  split_ifs
  · exact hset
  · rcases ha : (s.setSpace dst { Space.empty with hint := (s.spaces src).hint }).frames.allocContig
      (s.spaces src).pages with ⟨- | b, fr⟩
    · exact hset
    · obtain ⟨N, hacc, hput⟩ := hset.array hd
      have hnone : ({ Space.empty with hint := (s.spaces src).hint } : Space).array = 0 := rfl
      rw [spaces_setSpace_self, hnone, zero_add] at hacc
      have hnext : (((s.setSpace dst { Space.empty with hint := (s.spaces src).hint }).setFrames
          fr).setSpace dst { s.spaces src with table := some b }).Holds live X Y := by
        refine hput rfl rfl (fun j hj => ?_) ?_
        · rw [spaces_setSpace_of_ne hj]
          rfl
        · rw [spaces_setSpace_self]
          exact hacc.allocContig ha
      exact hnext.objRefs _

/-- **A table is released.** -/
theorem release (h : s.Holds live X Y) (hl : l < MAX_PROCS) : (release l s).Holds live X Y := by
  obtain ⟨u, hu⟩ : ∃ u, u = s.objRefs ((s.spaces l).vmas.map fun v => (v.obj, -1)) := ⟨_, rfl⟩
  have hrefs : u.Holds live X Y := hu ▸ h.objRefs _
  have hsp : u.spaces l = s.spaces l := by rw [hu, spaces_objRefs]
  obtain ⟨N, hacc, hput⟩ := hrefs.array hl
  unfold Vm.release
  simp only [← hu]
  refine hput rfl rfl (fun j hj => spaces_setSpace_of_ne hj) ?_
  rw [spaces_setSpace_self]
  rw [hsp] at hacc
  exact (zero_add (N + X)).symm ▸ hacc.freeTable

/-! ### Roots -/

theorem enter {root : Nat} {pt : Pt} (hclean : ∀ i, (s.objs i).used = false → (s.objs i).frames = 0)
    (ha : Accounted (root ::ₘ (pt.tables + (s.alone live + X)))
      (heldBy pt.leaf + (s.leafRefs live + Y)) fr) :
    root ∉ live ∧ ((s.setFrames fr).setPt root pt).Holds (insert root live) X Y := by
  have hnew : root ∉ live := fun hin => by
    have hone := (ha.alone root (Multiset.mem_cons_self ..)).2.1
    rw [alone_erase hin, Multiset.count_cons_self] at hone
    have hpos : 0 < (pt.tables + ((root ::ₘ (s.pts root).tables) + s.alone (live.erase root) + X)).count
        root := Multiset.count_pos.mpr (by simp)
    omega
  have hpts : ∀ r ∈ live, ((s.setFrames fr).setPt root pt).pts r = s.pts r := fun r hr =>
    pts_setPt_of_ne fun e => hnew (e ▸ hr)
  refine ⟨hnew, ?_, hclean⟩
  rw [alone_erase (Finset.mem_insert_self root live), leafRefs_erase (Finset.mem_insert_self root live),
    Finset.erase_insert hnew, pts_setPt_self, alone_congr hpts rfl rfl, leafRefs_congr hpts,
    Multiset.cons_add, Multiset.cons_add, add_assoc, add_assoc]
  exact ha

/-- **A space is made**, or frames are lost. -/
theorem createUser (h : s.Holds live X Y) :
    (∀ root, s.createUser.1 = some root → root ∉ live ∧ (s.createUser.2.pts root).leaf = ∅ ∧
      s.createUser.2.Holds (insert root live) X Y) ∧
    (s.createUser.1 = none → ∃ lost, s.createUser.2.Holds live (lost + X) Y) := by
  unfold Mm.createUser
  rcases h.accounted.createUserSpace with ⟨root, pt, hc, hempty, ha⟩ | ⟨hc, lost, ha⟩
  · rcases hr : createUserSpace s.frames with ⟨x, fr⟩
    rw [hr] at hc ha
    obtain rfl : x = some (root, pt) := hc
    have hheld : heldBy pt.leaf = 0 := by rw [hempty]; rfl
    rw [← zero_add (s.leafRefs live + Y), ← hheld] at ha
    obtain ⟨hnew, hall⟩ := enter h.clean ha
    refine ⟨fun r hr' => ?_, fun hc => absurd hc (by simp)⟩
    obtain rfl := Option.some.inj hr'
    exact ⟨hnew, by rw [pts_setPt_self, hempty], hall⟩
  · rcases hr : createUserSpace s.frames with ⟨x, fr⟩
    rw [hr] at hc ha
    obtain rfl : x = none := hc
    refine ⟨fun r hr' => absurd hr' (by simp), fun _ => ⟨lost, ?_, h.clean⟩⟩
    rw [add_left_comm] at ha
    exact ha

/-- **A space is freed.** -/
theorem freeSpace (h : s.Holds live X Y) (hr : r ∈ live) :
    (s.freeSpace r).Holds (live.erase r) X Y := by
  have hpts : ∀ r' ∈ live.erase r, (s.freeSpace r).pts r' = s.pts r' := fun r' hr' =>
    pts_setPt_of_ne (Finset.ne_of_mem_erase hr')
  refine ⟨?_, h.clean⟩
  have ha := h.accounted
  rw [alone_erase hr, leafRefs_erase hr, Multiset.cons_add, Multiset.cons_add, add_assoc,
    add_assoc] at ha
  rw [alone_congr hpts rfl rfl, leafRefs_congr hpts]
  exact ha.freeUserSpace

/-- **A space is copied**, or frames are lost. -/
theorem cloneUser (h : s.Holds live X Y) (hr : r ∈ live)
    (hmax : Countable (s.pts r) s.frames) :
    (∀ root, (s.cloneUser r).1 = some root → root ∉ live ∧
      (s.cloneUser r).2.Holds (insert root live) X Y) ∧
    ((s.cloneUser r).1 = none → ∃ lost, (s.cloneUser r).2.Holds live (lost + X) Y) := by
  obtain ⟨N, L, ha, hsums, hput⟩ := h.root hr
  unfold Mm.cloneUser
  rcases cloneUserSpace_spec ha hmax with ⟨root, dst, hc, -, -, hacc⟩ | ⟨hc, -, lost, hacc⟩
  · rcases hq : cloneUserSpace (s.pts r) s.frames with ⟨x, pt, fr⟩
    rw [hq] at hc hacc
    obtain rfl : x = some (root, dst) := hc
    have hb : Beside r s ((s.setFrames fr).setPt r pt) := ⟨rfl, rfl, fun _ hj => pts_setPt_of_ne hj⟩
    obtain ⟨h₁, h₂⟩ := hsums hb
    refine ⟨fun r' hr' => ?_, fun hc => absurd hc (by simp)⟩
    obtain rfl := Option.some.inj hr'
    refine enter (s := (s.setFrames fr).setPt r pt) h.clean ?_
    rw [h₁, h₂, pts_setPt_self, add_assoc, add_assoc]
    exact hacc
  · rcases hq : cloneUserSpace (s.pts r) s.frames with ⟨x, pt, fr⟩
    rw [hq] at hc hacc
    obtain rfl : x = none := hc
    refine ⟨fun r' hr' => absurd hr' (by simp), fun _ => ⟨lost, ?_⟩⟩
    have hb : Beside r s ((s.setFrames fr).setPt r pt) := ⟨rfl, rfl, fun _ hj => pts_setPt_of_ne hj⟩
    refine hput hb ?_
    rw [pts_setPt_self, add_left_comm N]
    exact hacc

end Holds

end Mm

end Pulsar.Vm

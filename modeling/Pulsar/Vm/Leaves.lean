import Pulsar.Vm.Fault

/-!
# What the walks do to the leaf entries

One lemma for each walk of the page tables: the entry of each page afterwards.
-/

namespace Pulsar.Vm

open Pulsar.Tree

variable {p q : Nat} {e : Pte} {pt : Pt} {fr : Frames} {root start stop : Nat} {s : Mm}

/-- A page is mapped, or no leaf entry changes. -/
theorem mapPage_leaf (p : Nat) (e : Pte) (s : Pt × Frames) :
    (mapPage p e s).1 = true ∧ (mapPage p e s).2.1.leaf = s.1.leaf.insert p e ∨
      (mapPage p e s).1 = false ∧ (mapPage p e s).2.1.leaf = s.1.leaf := by
  unfold mapPage
  split
  · exact .inr ⟨rfl, rfl⟩
  · split
    · exact .inr ⟨rfl, rfl⟩
    · split
      · exact .inr ⟨rfl, rfl⟩
      · exact .inl ⟨rfl, rfl⟩

/-- The entry of a page after one was mapped, or was to be. -/
theorem get_mapPage (p : Nat) (e : Pte) (s : Pt × Frames) (q : Nat) :
    (mapPage p e s).2.1.leaf[q]? =
      if (mapPage p e s).1 = true ∧ q = p then some e else s.1.leaf[q]? := by
  rcases mapPage_leaf p e s with ⟨hb, hl⟩ | ⟨hb, hl⟩
  · rw [hl, get_insert, hb]
    simp only [true_and]
  · rw [hl, hb]
    simp only [Bool.false_eq_true, false_and, if_false]

theorem get_unmapRange (start stop : Nat) (s : Pt × Frames) (q : Nat) :
    (unmapRange start stop s).1.leaf[q]? =
      if Pt.walked start stop q then none else s.1.leaf[q]? := by
  simp only [unmapRange, get_filter]
  cases Pt.walked start stop q with
  | true => cases s.1.leaf[q]? <;> rfl
  | false => cases s.1.leaf[q]? <;> rfl

/-- An entry under other flags; the bit of shared objects stays. -/
def Pte.reflag (flags : PageFlags) (e : Pte) : Pte :=
  { e with flags := { flags with isShared := flags.isShared || e.flags.isShared } }

theorem get_protectRange (start stop : Nat) (flags : PageFlags) (pt : Pt) (q : Nat) :
    (protectRange start stop flags pt).leaf[q]? =
      if Pt.walked start stop q then pt.leaf[q]?.map (Pte.reflag flags) else pt.leaf[q]? := by
  simp only [protectRange, get_map]
  cases Pt.walked start stop q with
  | true => rfl
  | false => cases pt.leaf[q]? <;> rfl

theorem Pt.isMapped_eq_false {va : Nat} : pt.isMapped va = false ↔ pt.leaf[vpn va]? = none := by
  rw [isMapped, Option.isSome_eq_false_iff, Option.isNone_iff_eq_none]

namespace Mm

@[simp] theorem pts_setFrames (fr : Frames) : (s.setFrames fr).pts = s.pts := rfl

@[simp] theorem pts_setMem (f : Nat) (b : Bytes) : (s.setMem f b).pts = s.pts := rfl

theorem pts_mapIn (root va : Nat) (e : Pte) (s : Mm) :
    (s.mapIn root va e).2.pts =
      Function.update s.pts root (mapPage (vpn va) e (s.pts root, s.frames)).2.1 := rfl

/-- The entry of a page after one was mapped, or was to be. -/
theorem get_mapIn (root va : Nat) (e : Pte) (s : Mm) (q : Nat) :
    ((s.mapIn root va e).2.pts root).leaf[q]? =
      if (s.mapIn root va e).1 = true ∧ q = vpn va then some e else (s.pts root).leaf[q]? := by
  rw [pts_mapIn, Function.update_self, get_mapPage]
  rfl

theorem get_protectPages (root start stop : Nat) (flags : PageFlags) (s : Mm) (q : Nat) :
    ((s.protectPages root start stop flags).pts root).leaf[q]? =
      if Pt.walked start stop q then (s.pts root).leaf[q]?.map (Pte.reflag flags)
      else (s.pts root).leaf[q]? := by
  rw [protectPages, pts_setPt_self, get_protectRange]

/-! ### What leaves the tables of regions alone -/

@[simp] theorem spaces_mapIn (root va : Nat) (e : Pte) (s : Mm) :
    (s.mapIn root va e).2.spaces = s.spaces := rfl

theorem spaces_page (id pg : Nat) (alloc : Bool) (s : Mm) :
    (s.page id pg alloc).2.spaces = s.spaces := by
  unfold page
  by_cases hid : s.HasObj id
  · rw [if_pos hid]
    simp only
    split
    · rfl
    · split
      · rfl
      · split_ifs
        · split <;> rfl
        · rfl
  · rw [if_neg hid]

theorem spaces_copyPage (root page frame : Nat) (flags : PageFlags) (s : Mm) :
    (s.copyPage root page frame flags).2.spaces = s.spaces := by
  unfold copyPage
  split
  · rfl
  · rename_i new fr _
    have h := spaces_mapIn root page ⟨new, flags⟩ ((s.setFrames fr).setMem new (s.mem frame))
    split <;> rename_i hm <;> rw [hm] at h <;> exact h

theorem spaces_faultMapped (root page prot : Nat) (access : Access) (s : Mm) :
    (s.faultMapped root page prot access).2.spaces = s.spaces := by
  unfold faultMapped
  split
  · exact spaces_copyPage ..
  · rfl

theorem spaces_faultShared (root page : Nat) (v : Vma) (s : Mm) :
    (s.faultShared root page v).2.spaces = s.spaces := by
  have h := spaces_page v.obj (v.page page) true s
  unfold faultShared
  split <;> rename_i hp <;> rw [hp] at h <;> exact h

theorem spaces_zeroedFrame (s : Mm) : s.zeroedFrame.2.spaces = s.spaces := by
  unfold zeroedFrame
  split <;> rfl

theorem spaces_mapZeroed (root page : Nat) (flags : PageFlags) (s : Mm) :
    (s.mapZeroed root page flags).2.spaces = s.spaces := by
  have h := spaces_zeroedFrame s
  unfold mapZeroed
  split
  · rename_i hz
    rw [hz] at h
    exact h
  · rename_i f u hz
    rw [hz] at h
    have hm := spaces_mapIn root page ⟨f, flags⟩ u
    split <;> rename_i hq <;> rw [hq] at hm <;> exact hm.trans h

theorem spaces_faultBegin (c : Option Cur) (addr : Nat) (access : Access) (s : Mm) :
    (s.faultBegin c addr access).2.spaces = s.spaces := by
  unfold faultBegin
  split
  · rfl
  · split
    · rfl
    · simp only
      split_ifs
      · rfl
      · exact spaces_faultMapped ..
      · exact spaces_faultShared ..
      · rfl
      · exact spaces_mapZeroed ..
      · rfl

theorem spaces_takeFrames (n : Nat) (s : Mm) : (takeFrames n s).2.spaces = s.spaces := by
  induction n generalizing s with
  | zero => rfl
  | succ n ih =>
      have h := spaces_zeroedFrame s
      unfold takeFrames
      split
      · rename_i hz
        rw [hz] at h
        exact h
      · rename_i hz
        rw [hz] at h
        exact (ih _).trans h

theorem spaces_readPages (file : Nat → Option Bytes) (pg : Nat) (fs : List Nat) (s : Mm) :
    (readPages file pg fs s).2.spaces = s.spaces := by
  induction fs generalizing pg s with
  | nil => rfl
  | cons f fs ih =>
      unfold readPages
      split
      · rfl
      · exact ih ..

theorem spaces_faultRead (file : Nat → Nat → Option Bytes) (page : Nat) (v : Vma) (n : Nat)
    (s : Mm) : (s.faultRead file page v n).2.spaces = s.spaces := by
  have h := spaces_takeFrames n s
  unfold faultRead
  simp only
  split_ifs
  · exact h
  · have hr := spaces_readPages (file v.ino) (v.page page) (takeFrames n s).1 (takeFrames n s).2
    split <;> rename_i hq <;> rw [hq] at hr <;> exact hr.trans h

/-- What the mapping of the pages read keeps: it maps, frees and protects. -/
theorem placePages_keeps {I : Mm → Prop} {root page : Nat} {v cur : Vma}
    (hmap : ∀ s va f, I s → I (s.mapIn root va ⟨f, .userProt cur.prot⟩).2)
    (hfree : ∀ s f, I s → I (s.setFrames (s.frames.freeFrame f)))
    (hprot : ∀ s, I s → I (s.protectPages root page (page + PAGE) (.userProt cur.prot)))
    (fs : List Nat) : ∀ i s, I s → I (placePages root page v cur i fs s).2 := by
  induction fs with
  | nil => exact fun i s h => h
  | cons f fs ih =>
      intro i s h
      rw [placePages]
      simp only
      by_cases hc : page + i * PAGE < cur.stop ∧ cur.ino = v.ino ∧
          (s.pts root).isMapped (page + i * PAGE) = false
      · rw [if_pos hc]
        have hm := hmap s (page + i * PAGE) f h
        rcases hr : s.mapIn root (page + i * PAGE) ⟨f, .userProt cur.prot⟩ with ⟨-|-, u⟩ <;>
          rw [hr] at hm
        · simp only
          split_ifs
          · exact hfree u f hm
          · exact ih _ _ (hfree u f hm)
        · exact ih _ _ hm
      · rw [if_neg hc]
        split_ifs
        · exact ih _ _ (hprot _ (hfree s f h))
        · exact ih _ _ (hfree s f h)

theorem spaces_placePages (root page : Nat) (v cur : Vma) (i : Nat) (fs : List Nat) (s : Mm) :
    (placePages root page v cur i fs s).2.spaces = s.spaces :=
  placePages_keeps (I := fun u => u.spaces = s.spaces) (fun _ _ _ h => h) (fun _ _ h => h)
    (fun _ h => h) fs i s rfl

theorem spaces_faultEnd (c : Cur) (addr : Nat) (v : Vma) (fs : List Nat) (s : Mm) :
    (s.faultEnd c addr v fs).2.spaces = s.spaces := by
  unfold faultEnd
  split
  · rfl
  · exact spaces_placePages ..

end Mm

end Pulsar.Vm

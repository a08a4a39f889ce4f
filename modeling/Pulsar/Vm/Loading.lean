import Pulsar.Vm.Accounts
import Pulsar.Vm.Image

/-!
# The frames of a load

A load takes frames for buffers, tables and pages, and gives back what it does not hand on.  With
the frames that slipped counted among the references, the allocator's counts are right after every
step (`Loading`), so a load that fails leaves none in use but those that slipped
(**`Dropped.leaves_all`**).
-/

namespace Pulsar.Vm

open Pulsar.Tree
open Prog (Keeps)

variable {N L : Multiset Nat} {fr fr' fr₀ : Frames} {s : Load} {e : Pte} {f p b k : Nat} {α : Type}

/-- The frames that slipped. -/
def Load.lost (s : Load) : Multiset Nat := (s.slips.map (·.2) : List Nat)

/-- The counts of frames during a load, of which `fr₀` are those at first. -/
structure Loading (N L : Multiset Nat) (fr₀ : Frames) (s : Load) : Prop where
  accounted : Accounted (s.pt.tables + N) (heldBy s.pt.leaf + (s.lost + L)) s.fr
  like : fr₀.Like s.fr
  owned : ∀ f ∈ s.lost, fr₀.Owned f

/-! ### The allocator -/

theorem like_freeUserSpace (root : Nat) (pt : Pt) (fr : Frames) :
    fr.Like (freeUserSpace root pt fr) :=
  ((((fr.like_freeAll _).trans (Frames.like_freeAll _ _)).trans (Frames.like_freeAll _ _)).trans
    (Frames.like_freeAll _ _)).trans (Frames.like_freeFrame _ _)

/-- A frame of no window need not be counted. -/
theorem Accounted.inside (h : Accounted N (f ::ₘ L) fr) (hf : ¬ fr.Owned f) : Accounted N L fr := by
  have hdrop := h.drop
  rwa [Frames.freeFrame, if_neg hf] at hdrop

/-- The frames that `create_user_space` keeps when it fails. -/
theorem Accounted.short (h : Accounted N L fr) (hc : (Vm.createUserSpace fr).1 = none) :
    Accounted N (shortFrames fr + L) (Vm.createUserSpace fr).2 ∧
      ∀ f ∈ shortFrames fr, fr.Owned f := by
  have hl := fr.like_allocFrame
  unfold Vm.createUserSpace at hc ⊢
  unfold shortFrames
  rcases h₀ : fr.allocFrame with ⟨- | f₀, fr₁⟩ <;> rw [h₀] at hc hl
  · refine ⟨?_, by simp⟩
    simp only [Multiset.coe_nil, zero_add]
    exact Frames.allocFrame_none h₀ ▸ h
  · have ha := h.allocFrame h₀
    have hl' := fr₁.like_allocFrame
    have hown₀ := (ha.alone f₀ (Multiset.mem_cons_self f₀ N)).1
    simp only at hc ⊢
    rcases h₁ : fr₁.allocFrame with ⟨- | f₁, fr₂⟩ <;> rw [h₁] at hc hl'
    · obtain rfl := Frames.allocFrame_none h₁
      refine ⟨?_, fun f hf => ?_⟩
      · rw [Multiset.coe_singleton, Multiset.singleton_add]
        exact ha.share
      · rw [List.mem_singleton.mp hf]
        exact hl.owned.mp hown₀
    · have hb := ha.allocFrame h₁
      have hown₁ := (hb.alone f₁ (Multiset.mem_cons_self f₁ _)).1
      simp only at hc ⊢
      rcases h₂ : fr₂.allocFrame with ⟨- | f₂, fr₃⟩ <;> rw [h₂] at hc
      · refine ⟨?_, fun f hf => ?_⟩
        · obtain rfl := Frames.allocFrame_none h₂
          have hboth := hb.share.share
          rw [Multiset.cons_swap] at hboth
          simp only [← Multiset.cons_coe, Multiset.coe_nil, Multiset.cons_add, zero_add]
          exact hboth
        rcases List.mem_pair.mp hf with rfl | rfl
        · exact hl.owned.mp (hl'.owned.mp hown₁)
        · exact hl.owned.mp hown₀
      · exact absurd hc (by simp)

namespace Loading

theorem start (h : Accounted N L fr) : Loading N L fr ⟨.empty, fr, []⟩ where
  accounted := by
    have hnone : Pt.empty.tables = 0 ∧ heldBy Pt.empty.leaf = 0 := ⟨rfl, rfl⟩
    rw [hnone.1, hnone.2, zero_add, zero_add]
    exact (zero_add L).symm ▸ h
  like := .refl fr
  owned f hf := absurd hf (Multiset.notMem_zero f)

/-- Other frames that are accounted for. -/
theorem put (h : Loading N L fr₀ s) {M K : Multiset Nat} (hl : s.fr.Like fr')
    (ha : Accounted (s.pt.tables + M) (heldBy s.pt.leaf + (s.lost + K)) fr') :
    Loading M K fr₀ { s with fr := fr' } :=
  ⟨ha, h.like.trans hl, h.owned⟩

theorem allocFrame (h : Loading N L fr₀ s) (ha : s.fr.allocFrame = (some f, fr)) :
    Loading (f ::ₘ N) L fr₀ { s with fr := fr } := by
  have hl := s.fr.like_allocFrame
  rw [ha] at hl
  refine h.put hl ?_
  rw [Multiset.add_cons]
  exact h.accounted.allocFrame ha

theorem share (h : Loading (f ::ₘ N) L fr₀ s) : Loading N (f ::ₘ L) fr₀ s := by
  refine ⟨?_, h.like, h.owned⟩
  have ha := h.accounted
  rw [Multiset.add_cons] at ha
  rw [Multiset.add_cons, Multiset.add_cons]
  exact ha.share

/-- A frame that a page refers to is given back. -/
theorem drop (h : Loading N (f ::ₘ L) fr₀ s) :
    Loading N L fr₀ { s with fr := s.fr.freeFrame f } := by
  refine h.put (s.fr.like_freeFrame f) ?_
  have ha := h.accounted
  rw [Multiset.add_cons, Multiset.add_cons] at ha
  exact ha.drop

theorem outside (h : Loading N L fr₀ s) (hf : ¬ s.fr.Owned f) : Loading N (f ::ₘ L) fr₀ s := by
  refine ⟨?_, h.like, h.owned⟩
  rw [Multiset.add_cons, Multiset.add_cons]
  exact h.accounted.outside hf

theorem inside (h : Loading N (f ::ₘ L) fr₀ s) (hf : ¬ s.fr.Owned f) : Loading N L fr₀ s := by
  refine ⟨?_, h.like, h.owned⟩
  have ha := h.accounted
  rw [Multiset.add_cons, Multiset.add_cons] at ha
  exact ha.inside hf

/-- A frame that a page refers to is no longer named. -/
theorem slip (h : Loading N (f ::ₘ L) fr₀ s) (hf : s.fr.Owned f) (x : Slip) :
    Loading N L fr₀ { s with slips := (x, f) :: s.slips } := by
  have hlost : Load.lost { s with slips := (x, f) :: s.slips } = f ::ₘ s.lost := rfl
  refine ⟨?_, h.like, fun g hg => ?_⟩
  · rw [hlost, Multiset.cons_add, ← Multiset.add_cons]
    exact h.accounted
  · rw [hlost] at hg
    rcases Multiset.mem_cons.mp hg with rfl | hg
    · exact h.like.owned.mp hf
    · exact h.owned g hg

theorem freeContig (h : Loading (List.range' b k + N) L fr₀ s) :
    Loading N L fr₀ (s.freeContig b k) := by
  refine h.put (s.fr.like_freeContig b k) ?_
  have ha := h.accounted
  rw [add_left_comm] at ha
  exact ha.freeContig

/-- The space is freed, and another may be made. -/
theorem freeSpace (h : Loading (f ::ₘ N) L fr₀ s) : Loading N L fr₀ (s.freeSpace f) := by
  have hnone : Pt.empty.tables = 0 ∧ heldBy Pt.empty.leaf = 0 := ⟨rfl, rfl⟩
  refine ⟨?_, h.like.trans (like_freeUserSpace f s.pt s.fr), h.owned⟩
  have ha := h.accounted
  rw [Multiset.add_cons] at ha
  have hend := ha.freeUserSpace
  rw [← zero_add N, ← hnone.1, ← zero_add (s.lost + L), ← hnone.2] at hend
  exact hend

/-! ### Pages -/

/-- The reference of an entry that was replaced slips, if it is one of the window's. -/
theorem cover {x : Option Pte} (h : Loading N (x.elim 0 Pte.own + L) fr₀ s) (hl : fr.Like s.fr) :
    Loading N L fr₀ { s with slips := (x.elim [] fun e =>
      if e.flags.isShared = false ∧ fr.Owned e.frame then [(Slip.covered, e.frame)] else []) ++
        s.slips } := by
  cases x with
  | none =>
      rw [Option.elim_none, zero_add] at h
      exact h
  | some e =>
      rw [Option.elim_some] at h
      simp only [Option.elim_some]
      by_cases hs : e.flags.isShared = true
      · rw [Pte.own, if_pos hs, zero_add] at h
        rw [if_neg (by simp [hs])]
        exact h
      · rw [Pte.own, if_neg hs, Multiset.singleton_add] at h
        by_cases ho : fr.Owned e.frame
        · rw [if_pos ⟨by simpa using hs, ho⟩]
          exact h.slip (hl.owned.mpr ho) .covered
        · rw [if_neg fun hc => ho hc.2]
          exact h.inside fun hc => ho (hl.owned.mp hc)

/-- **A page is mapped**, and what it covers is lost; or there is no table for it. -/
theorem mapAt (p : Nat) (h : Loading N (e.own + L) fr₀ s) :
    ((s.mapAt p e).1 = true → Loading N L fr₀ (s.mapAt p e).2) ∧
      ((s.mapAt p e).1 = false → Loading N (e.own + L) fr₀ (s.mapAt p e).2) := by
  have hacc := Accounted.mapPage (s := (s.pt, s.fr)) p e h.accounted
  have hl := h.like.trans (like_mapPage p e (s.pt, s.fr))
  have hleaf := mapPage_leaf p e (s.pt, s.fr)
  unfold Load.mapAt
  rcases hm : mapPage p e (s.pt, s.fr) with ⟨- | -, pt, fr⟩ <;> rw [hm] at hacc hl hleaf
  · have hsame : pt.leaf = s.pt.leaf := hleaf.elim (fun hc => absurd hc.1 (by simp)) (·.2)
    refine ⟨fun hc => absurd hc (by simp), fun _ => ⟨?_, hl, h.owned⟩⟩
    simp only
    rw [hsame]
    exact hacc
  · have hput : pt.leaf = s.pt.leaf.insert p e := hleaf.elim (·.2) fun hc => absurd hc.1 (by simp)
    refine ⟨fun _ => ?_, fun hc => absurd hc (by simp)⟩
    -- the reference of the entry that was replaced goes with what is lost
    have hsum := heldBy_put s.pt.leaf p e
    rw [← hput] at hsum
    have hmid : Loading N (s.pt.leaf[p]?.elim 0 Pte.own + L) fr₀ ⟨pt, fr, s.slips⟩ := by
      refine ⟨?_, hl, h.owned⟩
      have hshape : heldBy pt.leaf + (s.lost + (s.pt.leaf[p]?.elim 0 Pte.own + L)) =
          heldBy s.pt.leaf + (s.lost + (e.own + L)) := by
        calc heldBy pt.leaf + (s.lost + (s.pt.leaf[p]?.elim 0 Pte.own + L))
            = heldBy pt.leaf + s.pt.leaf[p]?.elim 0 Pte.own + (s.lost + L) := by abel
          _ = e.own + heldBy s.pt.leaf + (s.lost + L) := by rw [hsum]
          _ = heldBy s.pt.leaf + (s.lost + (e.own + L)) := by abel
      have hgoal : Accounted (pt.tables + N)
          (heldBy pt.leaf + (s.lost + (s.pt.leaf[p]?.elim 0 Pte.own + L))) fr := by
        rw [hshape]
        exact hacc
      exact hgoal
    have hl' := like_mapPage p e (s.pt, s.fr)
    rw [hm] at hl'
    exact hmid.cover hl'

/-- **A new page is mapped**, or its frame is given back. -/
theorem newPage (va : Nat) (flags : PageFlags) (hflags : flags.isShared = false)
    (h : Loading N L fr₀ s) : Loading N L fr₀ (s.newPage va flags).2 := by
  unfold Load.newPage
  rcases ha : s.fr.allocFrame with ⟨- | f, fr⟩
  · exact h
  · have hown : Pte.own ⟨f, flags⟩ = {f} := by rw [Pte.own, hflags, if_neg (by simp)]
    have hnew := (h.allocFrame ha).share
    rw [← Multiset.singleton_add, ← hown] at hnew
    obtain ⟨hdone, hfail⟩ := hnew.mapAt (vpn va)
    simp only
    rcases hm : Load.mapAt (vpn va) ⟨f, flags⟩ { s with fr := fr } with ⟨- | -, t⟩ <;>
      rw [hm] at hdone hfail
    · have hback := hfail rfl
      rw [hown, Multiset.singleton_add] at hback
      exact hback.drop
    · exact hdone rfl

/-- **A page of the stack is mapped**, or its frame is lost. -/
theorem stackPage (va : Nat) (h : Loading N L fr₀ s) : Loading N L fr₀ (s.stackPage va).2 := by
  unfold Load.stackPage
  rcases ha : s.fr.allocFrame with ⟨- | f, fr⟩
  · exact h
  · have hown : Pte.own ⟨f, .userData⟩ = {f} := rfl
    have hnew := (h.allocFrame ha).share
    rw [← Multiset.singleton_add, ← hown] at hnew
    obtain ⟨hdone, hfail⟩ := hnew.mapAt (vpn va)
    simp only
    rcases hm : Load.mapAt (vpn va) ⟨f, .userData⟩ { s with fr := fr } with ⟨- | -, t⟩ <;>
      rw [hm] at hdone hfail
    · have hlost := hfail rfl
      rw [hown, Multiset.singleton_add] at hlost
      have hf : fr.Owned f := by
        obtain ⟨hfree, rfl⟩ := Frames.allocFrame_some ha
        exact (Accounted.free h.accounted hfree).1
      have hl := like_mapPage (vpn va) ⟨f, .userData⟩ (s.pt, fr)
      have ht : t.fr = (mapPage (vpn va) ⟨f, .userData⟩ (s.pt, fr)).2.2 := by
        have := congrArg (fun r => r.2.fr) hm
        exact this.symm
      exact hlost.slip (by rw [ht]; exact hl.owned.mpr hf) .unmapped
    · exact hdone rfl

theorem protect (start stop prot : Nat) (h : Loading N L fr₀ s) :
    Loading N L fr₀ { s with pt := protectRange start stop (.userProt prot) s.pt } := by
  refine ⟨?_, h.like, h.owned⟩
  have hheld : heldBy (protectRange start stop (.userProt prot) s.pt).leaf = heldBy s.pt.leaf :=
    heldBy_map s.pt.leaf fun p e => by
      split_ifs
      · simp only [Pte.own, PageFlags.userProt, Bool.false_or]
      · rfl
  simp only
  rw [hheld]
  exact h.accounted

theorem copyPages (prot n page : Nat) (h : Loading N L fr₀ s) :
    Loading N L fr₀ (copyPages prot page n s).2 := by
  induction n generalizing page s with
  | zero => exact h
  | succ n ih =>
      rw [Vm.copyPages]
      split
      · exact ih _ (h.protect _ _ _)
      · have hnew := h.newPage page (.userProt prot) rfl
        rcases hr : s.newPage page (.userProt prot) with ⟨- | -, t⟩ <;> rw [hr] at hnew
        · exact hnew
        · exact ih _ hnew

theorem pulsePages {put : Nat → Load → Bool × Load}
    (hput : ∀ va s, Loading N L fr₀ s → Loading N L fr₀ (put va s).2) (n va : Nat)
    (h : Loading N L fr₀ s) : Loading N L fr₀ (pulsePages put va n s).2 := by
  induction n generalizing va s with
  | zero => exact h
  | succ n ih =>
      have hone := hput va s h
      rw [Vm.pulsePages]
      rcases hr : put va s with ⟨- | -, t⟩ <;> rw [hr] at hone
      · exact hone
      · exact ih _ hone

theorem pulseSegs (file : File) (table : Nat) (is : List Nat) (h : Loading N L fr₀ s) :
    Loading N L fr₀ (pulseSegs file table is s).2 := by
  induction is generalizing s with
  | nil => exact h
  | cons i is ih =>
      have hprivate : ∀ c : Bool,
          (if c then PageFlags.userCode else .userData).isShared = false := by decide
      simp only [Vm.pulseSegs]
      split
      · exact h
      · have hpages := pulsePages (fun va s h => h.newPage va _
            (hprivate ((rd32 file (table + i * 24 + 20)).testBit 2)))
          ((rd32 file (table + i * 24 + 16) + (PAGE - 1)) / PAGE) (rd64 file (table + i * 24 + 8)) h
        split <;> rename_i hr <;> rw [hr] at hpages
        · exact ih hpages
        · exact hpages

theorem pulseLoad (file : File) (h : Loading N L fr₀ s) :
    Loading N L fr₀ (pulseLoad file s).2 := by
  have hsegs := h.pulseSegs file (rd32 file 16) (List.range (rd16 file 6))
  unfold Vm.pulseLoad
  split <;> rename_i hr <;> rw [hr] at hsegs
  · exact pulsePages (fun va s h => h.stackPage va) _ _ hsegs
  · exact hsegs

end Loading

/-! ### Programs -/

section Programs

variable {Q : α → Load → Prop} {E : Fail → Load → Prop} {x : Loader α}

theorem wp_onFail (F : Load → Load) :
    wp (onFail F x) Q E s ↔ wp x Q (fun e t => E e (F t)) s := by
  simp only [wp, onFail]
  cases x s <;> rfl

theorem wp_andThen (F : Load → Load) :
    wp (andThen F x) Q E s ↔ wp x (fun a t => Q a (F t)) (fun e t => E e (F t)) s := by
  simp only [wp, andThen]
  cases x s <;> rfl

/-- What a program that has nothing of its own keeps, one with a buffer does that frees it. -/
theorem Loading.andFree (hx : Keeps (Loading (List.range' b k + N) L fr₀) x)
    (h : Loading (List.range' b k + N) L fr₀ s) :
    wp (andThen (Load.freeContig b k) x) (fun _ => Loading N L fr₀) (fun _ => Loading N L fr₀) s :=
  (wp_andThen _).mpr (wp_mono (hx s h) (fun _ _ ht => ht.freeContig) fun _ _ ht => ht.freeContig)

theorem createSpace_loading (errno : Nat) (h : Loading N L fr₀ s) (he : s.pt = .empty) :
    wp (createSpace errno) (fun root => Loading (root ::ₘ N) L fr₀)
      (fun _ t => Loading N L fr₀ t ∧ t.pt = .empty) s := by
  have hnone : Pt.empty.tables = 0 ∧ heldBy Pt.empty.leaf = 0 := ⟨rfl, rfl⟩
  have hacc := h.accounted
  rw [he, hnone.1, hnone.2, zero_add, zero_add] at hacc
  have hl := like_createUserSpace s.fr
  unfold wp createSpace
  rcases hacc.createUserSpace with ⟨root, pt, hc, hempty, ha⟩ | ⟨hc, ha⟩
  · rcases hr : createUserSpace s.fr with ⟨r, fr⟩
    rw [hr] at hc ha hl
    obtain rfl : r = some (root, pt) := hc
    refine ⟨?_, h.like.trans hl, h.owned⟩
    have hleaf : heldBy pt.leaf = 0 := by rw [hempty]; rfl
    simp only
    rw [hleaf, zero_add, Multiset.add_cons]
    exact ha
  · rcases hr : createUserSpace s.fr with ⟨r, fr⟩
    rw [hr] at hc ha hl
    obtain rfl : r = none := hc
    obtain ⟨hshort, hown⟩ := hacc.short (by rw [hr])
    rw [hr] at hshort
    have hlost : (((shortFrames s.fr).map fun f => (Slip.short, f)) ++ s.slips).map (·.2) =
        shortFrames s.fr ++ s.slips.map (·.2) := by
      rw [List.map_append, List.map_map, Function.comp_def, List.map_id']
    refine ⟨⟨?_, h.like.trans hl, fun f hf => ?_⟩, he⟩
    · simp only [Load.lost, hlost, he, hnone.1, hnone.2, zero_add]
      rw [← Multiset.coe_add, add_assoc]
      exact hshort
    · rw [Load.lost, hlost] at hf
      rcases List.mem_append.mp hf with hf | hf
      · exact h.like.owned.mp (hown f hf)
      · exact h.owned f hf

theorem allocContig_loading (k errno : Nat) (h : Loading N L fr₀ s) :
    wp (allocContig k errno) (fun b t => Loading (List.range' b k + N) L fr₀ t ∧ t.pt = s.pt)
      (fun _ t => Loading N L fr₀ t ∧ t.pt = s.pt) s := by
  have hl := s.fr.like_allocContig k
  unfold wp allocContig
  rcases ha : s.fr.allocContig k with ⟨- | b, fr⟩ <;> rw [ha] at hl
  · exact ⟨h, rfl⟩
  · refine ⟨h.put hl ?_, rfl⟩
    rw [add_left_comm]
    exact h.accounted.allocContig ha

theorem readWhole_loading (disk : Disk) (at_ : Nat) (path : List UInt8) (max : Nat)
    (h : Loading N L fr₀ s) :
    wp (readWhole disk at_ path max)
      (fun r t => Loading (List.range' r.1 r.2.1 + N) L fr₀ t ∧ t.pt = s.pt)
      (fun _ t => Loading N L fr₀ t ∧ t.pt = s.pt) s := by
  unfold readWhole
  cases disk.find at_ path with
  | error e => exact ⟨h, rfl⟩
  | ok size =>
      simp only
      split_ifs
      · exact ⟨h, rfl⟩
      · refine (wp_bind _ _).mpr (wp_mono (allocContig_loading _ _ h) ?_ fun _ _ ht => ht)
        rintro b t ⟨ht, hpt⟩
        cases disk.read at_ path with
        | error e => exact ⟨ht.freeContig, hpt⟩
        | ok bytes => exact ⟨ht, hpt⟩

/-! ### What keeps the counts -/

theorem keeps_copyInto (va prot memLen : Nat) :
    Keeps (Loading N L fr₀) (copyInto va prot memLen) := fun _ h => h.copyPages prot _ _

theorem keeps_loadSegment (file : File) (base o : Nat) (a : Scan) :
    Keeps (Loading N L fr₀) (loadSegment file base o a) := by
  unfold loadSegment
  extract_lets ptype flags off va filesz memsz prot rest
  have hrest : ∀ a, Keeps (Loading N L fr₀) (rest a) := fun a => by
    simp only [rest]
    split
    · exact .pure _
    · split
      · exact .pure _
      · split
        · exact .throw _
        · exact .bind (keeps_copyInto _ _ _) fun ok => .ite (fun _ => .pure _) fun _ => .throw _
  split
  · split
    · exact .bind (.throw _) hrest
    · exact .bind (.pure _) hrest
  · exact .bind (.pure _) hrest

theorem keeps_loadSegments (file : File) (base phoff : Nat) (is : List Nat) (a : Scan) :
    Keeps (Loading N L fr₀) (loadSegments file base phoff is a) := by
  induction is generalizing a with
  | nil => exact .pure a
  | cons i is ih =>
      unfold loadSegments
      exact .ite (fun _ => .throw _) fun _ => .bind (keeps_loadSegment _ _ _ _) fun a => ih a

theorem keeps_mapElf (file : File) (dynBase : Nat) (segs : List Seg) :
    Keeps (Loading N L fr₀) (mapElf file dynBase segs) := by
  unfold mapElf
  refine .ite (fun _ => .throw _) fun _ => .ite (fun _ => .throw _) fun _ =>
    .ite (fun _ => .throw _) fun _ => .bind (keeps_loadSegments _ _ _ _ _) fun a => .pure _

theorem keeps_pulseLinuxSegs (file : File) (table : Nat) (is : List Nat) (segs : List Seg) :
    Keeps (Loading N L fr₀) (pulseLinuxSegs file table is segs) := by
  induction is generalizing segs with
  | nil => exact .pure segs
  | cons i is ih =>
      unfold pulseLinuxSegs
      refine .ite (fun _ => .throw _) fun _ => .bind (keeps_copyInto _ _ _) fun ok => ?_
      exact .ite (fun _ => ih _) fun _ => .throw _

theorem keeps_buildStack (path : List UInt8) (args : Args) :
    Keeps (Loading N L fr₀) (buildStack path args) := by
  unfold buildStack
  refine .ite (fun _ => .throw _) fun _ => fun s h => ?_
  refine (wp_bind _ _).mpr (wp_mono (allocContig_loading _ _ h) ?_ fun _ _ ht => ht.1)
  rintro b t ⟨ht, -⟩
  split_ifs
  · exact ht.freeContig
  · refine (wp_bind _ _).mpr (wp_mono (ht.andFree (keeps_copyInto _ _ _)) ?_ fun _ _ ht => ht)
    intro ok u hu
    split_ifs
    · exact hu
    · exact hu

/-- The page of signals is the kernel's, and no frame of the window. -/
theorem mapSigpage_loading (h : Loading N L fr₀ s) :
    wp mapSigpage (fun _ => Loading N L fr₀) (fun _ _ => False) s := by
  have hout : ¬ s.fr.Owned s.fr.n := fun hc => absurd hc.1 (Nat.lt_irrefl _)
  have hown : Pte.own ⟨s.fr.n, .userProt 5⟩ = {s.fr.n} := rfl
  have hnew := h.outside hout
  rw [← Multiset.singleton_add, ← hown] at hnew
  obtain ⟨hdone, hfail⟩ := hnew.mapAt (vpn SIGPAGE_VA)
  have hn := (like_mapPage (vpn SIGPAGE_VA) ⟨s.fr.n, .userProt 5⟩ (s.pt, s.fr)).owned (f := s.fr.n)
  rw [mapSigpage, wp_modify]
  cases hr : (s.mapAt (vpn SIGPAGE_VA) ⟨s.fr.n, .userProt 5⟩).1 with
  | true => exact hdone hr
  | false =>
      have hback := hfail hr
      rw [hown, Multiset.singleton_add] at hback
      exact hback.inside fun hc => hout (hn.mp hc)

/-! ### Images -/

/-- What holds of the counts when a load fails. -/
def Dropped (N L : Multiset Nat) (fr₀ : Frames) (t : Load) : Prop :=
  Loading N L fr₀ t ∧ t.pt = .empty

/-- A space of which the load is given up is freed. -/
theorem Loading.elseFree {root : Nat} (h : wp x Q (fun _ => Loading (root ::ₘ N) L fr₀) s) :
    wp (onFail (Load.freeSpace root) x) Q (fun _ => Dropped N L fr₀) s :=
  (wp_onFail _).mpr (wp_mono h (fun _ _ ht => ht) fun _ _ ht => ⟨ht.freeSpace, rfl⟩)

/-- The frames of a buffer are given back, and those of a space are kept. -/
theorem Loading.freeBuffer {root : Nat} (h : Loading (root ::ₘ (List.range' b k + N)) L fr₀ s) :
    Loading (root ::ₘ N) L fr₀ (s.freeContig b k) := by
  rw [← Multiset.add_cons] at h
  exact h.freeContig

theorem loadElf_loading (disk : Disk) (file : File) (h : Dropped N L fr₀ s) :
    wp (loadElf disk file) (fun img => Loading (img.root ::ₘ N) L fr₀)
      (fun _ => Dropped N L fr₀) s := by
  unfold loadElf
  refine (wp_bind _ _).mpr (wp_mono (createSpace_loading _ h.1 h.2) ?_ fun _ _ ht => ht)
  intro root t ht
  refine Loading.elseFree ((wp_bind _ _).mpr (wp_mono (keeps_mapElf file _ _ t ht) ?_
    fun _ _ ht => ht))
  intro elf t ht
  split
  · exact ht
  · -- the interpreter of the program is read and mapped beside it
    refine (wp_bind _ _).mpr (wp_mono (readWhole_loading disk _ _ _ ht) ?_ fun _ _ ht => ht.1)
    rintro ⟨buf, frames, ifile⟩ t ⟨ht, -⟩
    refine (wp_bind _ _).mpr (wp_mono (ht.andFree (keeps_mapElf ifile _ _)) ?_ fun _ _ ht => ht)
    intro r t ht
    split
    · exact ht
    · exact ht

theorem loadPulseLinux_loading (file : File) (h : Dropped N L fr₀ s) :
    wp (loadPulseLinux file) (fun img => Loading (img.root ::ₘ N) L fr₀)
      (fun _ => Dropped N L fr₀) s := by
  unfold loadPulseLinux
  extract_lets segc entry table
  split_ifs
  · exact h
  · exact h
  · exact h
  · refine (wp_bind _ _).mpr (wp_mono (createSpace_loading _ h.1 h.2) ?_ fun _ _ ht => ht)
    intro root t ht
    exact (wp_bind _ _).mpr (wp_mono (Loading.elseFree (keeps_pulseLinuxSegs file _ _ _ t ht))
      (fun _ _ ht => ht) fun _ _ ht => ht)

theorem loadPulse_loading (file : File) (h : Dropped N L fr₀ s) :
    wp (loadPulse file) (fun r => Loading (r.1 ::ₘ N) L fr₀) (fun _ => Dropped N L fr₀) s := by
  unfold loadPulse
  split_ifs
  · exact h
  · refine (wp_bind _ _).mpr (wp_mono (createSpace_loading _ h.1 h.2) ?_ fun _ _ ht => ht)
    intro root t ht
    refine Loading.elseFree ((wp_bind _ _).mpr ?_)
    have hload := ht.pulseLoad file
    show wp _ _ _ (pulseLoad file t).2
    split_ifs
    · exact hload
    · exact hload

theorem withStack_loading (path : List UInt8) (args : Args) (img : Image)
    (h : Loading (img.root ::ₘ N) L fr₀ s) :
    wp (withStack path args img) (fun r => Loading (r.root ::ₘ N) L fr₀)
      (fun _ => Dropped N L fr₀) s := by
  unfold withStack
  refine (wp_bind _ _).mpr (wp_mono (mapSigpage_loading h) ?_ fun _ _ hc => hc.elim)
  intro _ t ht
  exact (wp_bind _ _).mpr (wp_mono (Loading.elseFree (keeps_buildStack path args t ht))
    (fun _ _ ht => ht) fun _ _ ht => ht)

theorem loadImage_loading (disk : Disk) (file : File) (path : List UInt8) (args : Args)
    (h : Dropped N L fr₀ s) :
    wp (loadImage disk file path args) (fun r => Loading (r.root ::ₘ N) L fr₀)
      (fun _ => Dropped N L fr₀) s := by
  unfold loadImage
  split_ifs
  · exact (wp_bind _ _).mpr (wp_mono (loadElf_loading disk file h)
      (fun img _ ht => withStack_loading path args img ht) fun _ _ ht => ht)
  · exact (wp_bind _ _).mpr (wp_mono (loadPulseLinux_loading file h)
      (fun img _ ht => withStack_loading path args img ht) fun _ _ ht => ht)
  · exact (wp_bind _ _).mpr (wp_mono (loadPulse_loading file h) (fun _ _ ht => ht) fun _ _ ht => ht)

/-- **A load** returns a space that has its frames, or leaves none but those that slipped. -/
theorem loadFrom_loading (disk : Disk) (at_ : Nat) (path : List UInt8) (args : Args)
    (h : Dropped N L fr₀ s) :
    wp (loadFrom disk at_ path args) (fun r => Loading (r.root ::ₘ N) L fr₀)
      (fun _ => Dropped N L fr₀) s := by
  unfold loadFrom
  refine (wp_bind _ _).mpr (wp_mono (readWhole_loading disk at_ path MAX_IMAGE h.1) ?_
    fun _ t ht => ⟨ht.1, ht.2.trans h.2⟩)
  rintro ⟨buf, frames, file⟩ t ⟨ht, hpt⟩
  refine (wp_andThen _).mpr (wp_mono (loadImage_loading disk file path args ⟨ht, hpt.trans h.2⟩)
    (fun _ _ hu => hu.freeBuffer) fun _ _ hu => ⟨hu.1.freeContig, hu.2⟩)

end Programs

/-- What is left of a load that is given up. -/
theorem Dropped.left (h : Dropped N L fr₀ s) : Accounted N (s.lost + L) s.fr := by
  have hnone : Pt.empty.tables = 0 ∧ heldBy Pt.empty.leaf = 0 := ⟨rfl, rfl⟩
  have hacc := h.1.accounted
  rwa [h.2, hnone.1, hnone.2, zero_add, zero_add] at hacc

/-- **A load that is given up** leaves no frame in use exactly if none slipped. -/
theorem Dropped.leaves_all (h : Dropped N L fr₀ s) : Accounted N L s.fr ↔ s.slips = [] := by
  have hleft := h.left
  refine ⟨fun hacc => ?_, fun hnone => ?_⟩
  · refine List.eq_nil_iff_forall_not_mem.mpr fun x hx => ?_
    have hmem : x.2 ∈ s.lost := List.mem_map_of_mem hx
    have hown := h.1.like.owned.mpr (h.1.owned x.2 hmem)
    have h₁ := hacc.refs x.2 hown
    have h₂ := hleft.refs x.2 hown
    have hpos := Multiset.count_pos.mpr hmem
    rw [Multiset.count_add] at h₂
    omega
  · have hlost : s.lost = 0 := by
      rw [Load.lost, hnone]
      rfl
    rwa [hlost, zero_add] at hleft

end Pulsar.Vm

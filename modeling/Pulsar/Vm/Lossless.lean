import Pulsar.Vm.Holders
import Pulsar.Vm.Moves
import Pulsar.Vm.Remap

/-!
# What a caller of `mremap` may rely on

`Carried` says that the pages that are kept are found at the new place, with their bytes and the
counts of their frames, that the rest of the new range is fresh, that nothing is left of the old one
and that no other page changes.  Two paths break it: the end that is cut off is not checked to be
part of one anonymous region, and a page for which no table can be made stays at an address that no
region has any more.  **`mremap_lossless`** says that they are the only ones.
-/

namespace Pulsar.Vm

open Pulsar.Tree Proc

variable {s t u : Mm} {c : Cur} {addr old new flags a l k f x p : Nat} {v : Vma} {e : Pte}

namespace Mm

/-- What the table of regions and the tables of pages say of the page at an address. -/
def pageAt (c : Cur) (x : Nat) (s : Mm) : Option Desc × Option Pte :=
  (descAt (s.spaces c.slot).vmas x, (s.pts c.root).leaf[vpn x]?)

/-- The byte that is read at an address of a private anonymous region; a page that is not there is
zero. -/
def readAt (c : Cur) (x : Nat) (s : Mm) : Option UInt8 :=
  (descAt (s.spaces c.slot).vmas x).bind fun d =>
    if d.obj = 0 ∧ d.ino = 0 ∧ Access.read.permitted d.prot = true then
      some ((s.pts c.root).leaf[vpn x]?.elim 0 fun e => s.mem e.frame (x % PAGE))
    else none

/-- A page of the window that is there and is private and anonymous, with its entry. -/
def AnonPage (c : Cur) (x : Nat) (e : Pte) (s : Mm) : Prop :=
  MMAP_BASE ≤ x ∧ x < MMAP_END ∧ (∃ prot, descAt (s.spaces c.slot).vmas x = some ⟨prot, 0, 0, 0⟩) ∧
    (s.pts c.root).leaf[vpn x]? = some e

/-- A space as the calls keep it: the counts of frames are right, a page of the window that is there
belongs to a region, and each anonymous page has a frame of its own in the space. -/
structure Regular (c : Cur) (s : Mm) : Prop where
  well : (s.spaces c.slot).Well
  counts : ∃ live X Y, c.root ∈ live ∧ c.slot < MAX_PROCS ∧ s.Holds live X Y
  covered : ∀ x, MMAP_BASE ≤ x → x < MMAP_END → descAt (s.spaces c.slot).vmas x = none →
    (s.pts c.root).leaf[vpn x]? = none
  priv : ∀ x e, s.AnonPage c x e → e.flags.isShared = false
  once : ∀ x y e e', s.AnonPage c x e → s.AnonPage c y e' → e.frame = e'.frame → vpn x = vpn y

/-- The range is part of one private anonymous region. -/
def OneRegion (c : Cur) (addr len : Nat) (s : Mm) : Prop :=
  ∃ v ∈ (s.spaces c.slot).vmas, v.Holds addr len

/-- Outside the space nothing changes, nor does a byte of a page. -/
structure Elsewhere (c : Cur) (s t : Mm) : Prop where
  mem : t.mem = s.mem
  spaces : ∀ l, l ≠ c.slot → t.spaces l = s.spaces l
  pts : ∀ r, r ≠ c.root → t.pts r = s.pts r

/-- The pages of the range `[addr, addr + old)` are carried to `[a, a + new)`. -/
structure Carried (c : Cur) (addr old new a : Nat) (s t : Mm) : Prop where
  elsewhere : Elsewhere c s t
  kept : ∀ k, k < old → k < new → t.pageAt c (a + k) = s.pageAt c (addr + k) ∧
    t.readAt c (a + k) = s.readAt c (addr + k)
  counts : ∀ k, k < old → k < new → ∀ e, (s.pts c.root).leaf[vpn (addr + k)]? = some e →
    t.frames.refCount e.frame = s.frames.refCount e.frame
  fresh : ∀ k, old ≤ k → k < new → ∃ d, descAt (s.spaces c.slot).vmas addr = some d ∧
    t.pageAt c (a + k) = (some ⟨d.prot, 0, 0, 0⟩, none) ∧
    (Access.read.permitted d.prot = true → t.readAt c (a + k) = some 0)
  gone : ∀ x, addr ≤ x → x < addr + old → ¬ (a ≤ x ∧ x < a + new) → t.pageAt c x = (none, none)
  rest : ∀ x, x < 2 ^ 48 → ¬ (addr ≤ x ∧ x < addr + old) → ¬ (a ≤ x ∧ x < a + new) →
    t.pageAt c x = s.pageAt c x

/-- What a caller may rely on: an error changes no page, and otherwise the range is carried, and was
part of one anonymous region if it became longer or shorter. -/
def Lossless (c : Cur) (addr old new : Nat) (s : Mm) (r : Option Nat × Mm) : Prop :=
  (r.1 = none → Elsewhere c s r.2 ∧ ∀ x, x < 2 ^ 48 → r.2.pageAt c x = s.pageAt c x) ∧
    ∀ a, r.1 = some a → Carried c addr old new a s r.2 ∧ (new ≠ old → s.OneRegion c addr old)

/-- The paths that lose something are not taken: what is cut off is part of one anonymous region,
and there are frames for the tables on the way to the pages that move. -/
def Sound (c : Cur) (addr old new flags : Nat) (s : Mm) : Prop :=
  (new < old → (s.reserve c.slot 1).1 = true → s.OneRegion c addr old) ∧
    (old < new → s.OneRegion c addr old → (s.reserve c.slot 2).1 = true →
      ¬ InPlace (s.spaces c.slot).vmas addr old new → flags.testBit 0 = true →
        ∀ a, (s.spaces c.slot).gap new = some a →
          (s.pts c.root).needed ((s.pts c.root).targets addr (addr + old) a) ≤
            (s.reserve c.slot 2).2.frames.free)

/-! ### The table for more regions -/

theorem reserve_same (l k : Nat) (s : Mm) : (s.reserve l k).2.pts = s.pts ∧
    (s.reserve l k).2.mem = s.mem ∧
    ((s.reserve l k).2.spaces l).vmas = (s.spaces l).vmas ∧
    ((s.reserve l k).2.spaces l).hint = (s.spaces l).hint ∧
    (∀ m, m ≠ l → (s.reserve l k).2.spaces m = s.spaces m) ∧
    s.frames.Like (s.reserve l k).2.frames := by
  rcases reserve_cases l k s with ⟨-, hr⟩ | hr | ⟨b, fr, ha, hr⟩
  · rw [hr]
    exact ⟨rfl, rfl, rfl, rfl, fun _ _ => rfl, .refl _⟩
  · rw [hr]
    exact ⟨rfl, rfl, rfl, rfl, fun _ _ => rfl, .refl _⟩
  · have hlike := s.frames.like_allocContig (nextPages (s.spaces l))
    rw [ha] at hlike
    rw [hr]
    refine ⟨rfl, rfl, ?_, ?_, fun m hm => spaces_setSpace_of_ne hm, hlike.trans ?_⟩
    · rw [spaces_setSpace_self]
    · rw [spaces_setSpace_self]
    · show fr.Like (freeTable (s.spaces l) fr)
      unfold freeTable
      split
      · exact fr.like_freeContig _ _
      · exact .refl fr

theorem gap_reserve (l k len : Nat) (s : Mm) :
    ((s.reserve l k).2.spaces l).gap len = (s.spaces l).gap len := by
  obtain ⟨-, -, hv, hh, -, -⟩ := reserve_same l k s
  rw [Space.gap, Space.gap, hv, hh]

/-- A page that is there keeps the count of its frame, which is in use. -/
theorem Regular.reserve (h : s.Regular c) (hp : s.AnonPage c x e) (k : Nat) :
    (s.reserve c.slot k).2.frames.refCount e.frame = s.frames.refCount e.frame ∧
      (s.frames.Owned e.frame → (s.reserve c.slot k).2.frames.isFree e.frame = false) := by
  obtain ⟨live, X, Y, hr, hl, hholds⟩ := h.counts
  obtain ⟨hpts, -, -, -, -, hlike⟩ := reserve_same c.slot k s
  have hown : e.own = {e.frame} := by rw [Pte.own, h.priv x e hp, if_neg (by simp)]
  have hmem : ∀ {t : Mm}, t.pts = s.pts → e.frame ∈ t.leafRefs live + Y := fun {t} ht => by
    have hheld := heldBy_erase (m := (t.pts c.root).leaf) (ht ▸ hp.2.2.2)
    rw [leafRefs_erase hr, hheld, hown]
    simp
  have hat : ∀ {t : Mm}, t.pts = s.pts → t.Holds live X Y → t.frames.Owned e.frame →
      t.frames.refs e.frame = (s.leafRefs live + Y).count e.frame := fun {t} ht hh ho => by
    have hnot : e.frame ∉ t.alone live + X := fun hc => (hh.accounted.alone _ hc).2.2 (hmem ht)
    rw [hh.accounted.refs _ ho, Multiset.count_eq_zero.mpr hnot, Nat.zero_add,
      leafRefs_congr (s := s) fun r _ => by rw [ht]]
  have hafter := hholds.reserve hl k
  refine ⟨?_, fun ho => ?_⟩
  · rw [Frames.refCount, Frames.refCount]
    by_cases ho : s.frames.Owned e.frame
    · rw [if_pos ho, if_pos (hlike.owned.mpr ho), hat hpts hafter (hlike.owned.mpr ho),
        hat rfl hholds ho]
    · rw [if_neg ho, if_neg (mt hlike.owned.mp ho)]
  · rw [Frames.isFree, hafter.accounted.not_free (hlike.owned.mpr ho) (.inr (hmem hpts))]
    simp

/-! ### Pages -/

theorem vpn_eq (hx : x < 2 ^ 48) : vpn x = x / PAGE := by
  rw [vpn, Nat.mod_eq_of_lt]
  simp only [PAGE]
  omega

theorem walked_iff {start stop : Nat} (hs : PAGE ∣ start) (he : PAGE ∣ stop) (hx : x < 2 ^ 48) :
    Pt.walked start stop (vpn x) = true ↔ start ≤ x ∧ x < stop := by
  obtain ⟨i, rfl⟩ := hs
  obtain ⟨j, rfl⟩ := he
  rw [vpn_eq hx, Pt.walked, decide_eq_true_eq]
  simp only [PAGE] at *
  omega

theorem walked_vpn (ha : PAGE ∣ addr) (ho : PAGE ∣ old) (hend : addr + old ≤ MMAP_END)
    (hp : Pt.walked addr (addr + old) p = true) : ∃ k, k < old ∧ p = vpn (addr + k) := by
  have hrange := of_decide_eq_true hp
  refine ⟨p * PAGE - addr, ?_, ?_⟩
  · obtain ⟨i, rfl⟩ := ha
    obtain ⟨j, rfl⟩ := ho
    simp only [PAGE] at *
    omega
  · have hlow : addr ≤ p * PAGE ∧ p * PAGE < 2 ^ 48 := by
      obtain ⟨i, rfl⟩ := ha
      obtain ⟨j, rfl⟩ := ho
      simp only [PAGE, MMAP_END] at *
      omega
    rw [Nat.add_sub_cancel' hlow.1, vpn_eq hlow.2, Nat.mul_div_cancel _ (by decide)]

theorem target_vpn (ha : PAGE ∣ addr) (hb : PAGE ∣ a) (h₁ : addr + k < 2 ^ 48) (h₂ : a + k < 2 ^ 48) :
    target addr a (vpn (addr + k)) = vpn (a + k) := by
  obtain ⟨i, rfl⟩ := ha
  obtain ⟨j, rfl⟩ := hb
  rw [target, vpn_eq h₁, vpn_eq h₂]
  simp only [PAGE]
  omega

theorem readAt_congr {y : Nat} (hp : t.pageAt c y = s.pageAt c x) (hm : t.mem = s.mem)
    (hxy : y % PAGE = x % PAGE) : t.readAt c y = s.readAt c x := by
  obtain ⟨h₁, h₂⟩ := Prod.mk.inj hp
  rw [readAt, readAt, h₁, h₂, hm, hxy]

theorem readAt_fresh {prot : Nat} (hp : t.pageAt c x = (some ⟨prot, 0, 0, 0⟩, none))
    (hr : Access.read.permitted prot = true) : t.readAt c x = some 0 := by
  obtain ⟨h₁, h₂⟩ := Prod.mk.inj hp
  rw [readAt, h₁, h₂, Option.bind_some, if_pos ⟨rfl, rfl, hr⟩, Option.elim_none]

theorem refCount_freeAll {fr : Frames} (fs : List Nat) (h : f ∉ fs) :
    (fr.freeAll fs).refCount f = fr.refCount f := by
  induction fs generalizing fr with
  | nil => rfl
  | cons g fs ih =>
      rw [List.mem_cons, not_or] at h
      have hone : (fr.freeFrame g).refCount f = fr.refCount f := by
        have hlike := Frames.like_freeFrame g fr
        have hrefs : (fr.freeFrame g).refs f = fr.refs f := by
          unfold Frames.freeFrame Frames.freeIdx
          split_ifs
          · exact Function.update_of_ne h.1 ..
          · exact Function.update_of_ne h.1 ..
          · rfl
          · rfl
        rw [Frames.refCount, Frames.refCount, hrefs]
        exact if_congr hlike.owned rfl rfl
      exact (ih h.2).trans hone

/-- What a walk leaves that takes frames only of the free ones. -/
theorem refCount_kept {fr fr' : Frames} (hl : fr.Like fr') (hk : KeptCounts fr fr')
    (h : fr.Owned f → fr.isFree f = false) : fr'.refCount f = fr.refCount f := by
  rw [Frames.refCount, Frames.refCount]
  by_cases ho : fr.Owned f
  · rw [if_pos ho, if_pos (hl.owned.mpr ho), (hk f (h ho)).2]
  · rw [if_neg ho, if_neg (mt hl.owned.mp ho)]

/-! ### The three ways -/

theorem Carried.of_pages (ha : PAGE ∣ addr) (hb : PAGE ∣ a) (hel : Elsewhere c s t)
    (hkept : ∀ k, k < old → k < new → t.pageAt c (a + k) = s.pageAt c (addr + k))
    (hcounts : ∀ k, k < old → k < new → ∀ e, (s.pts c.root).leaf[vpn (addr + k)]? = some e →
      t.frames.refCount e.frame = s.frames.refCount e.frame)
    (hfresh : ∀ k, old ≤ k → k < new → ∃ d, descAt (s.spaces c.slot).vmas addr = some d ∧
      t.pageAt c (a + k) = (some ⟨d.prot, 0, 0, 0⟩, none))
    (hgone : ∀ x, addr ≤ x → x < addr + old → ¬ (a ≤ x ∧ x < a + new) →
      t.pageAt c x = (none, none))
    (hrest : ∀ x, x < 2 ^ 48 → ¬ (addr ≤ x ∧ x < addr + old) → ¬ (a ≤ x ∧ x < a + new) →
      t.pageAt c x = s.pageAt c x) : Carried c addr old new a s t := by
  refine ⟨hel, fun k h₁ h₂ => ⟨hkept k h₁ h₂, ?_⟩, hcounts, fun k h₁ h₂ => ?_, hgone, hrest⟩
  · refine readAt_congr (hkept k h₁ h₂) hel.mem ?_
    obtain ⟨i, rfl⟩ := ha
    obtain ⟨j, rfl⟩ := hb
    rw [Nat.mul_add_mod, Nat.mul_add_mod]
  · obtain ⟨d, hd, hp⟩ := hfresh k h₁ h₂
    exact ⟨d, hd, hp, readAt_fresh hp⟩

theorem desc_region (h : Fine (s.spaces c.slot).vmas) (hv : v ∈ (s.spaces c.slot).vmas)
    (hh : v.Holds addr old) (h₁ : addr ≤ x) (h₂ : x < addr + old) :
    descAt (s.spaces c.slot).vmas x = some ⟨v.prot, 0, 0, 0⟩ := by
  have := hh.1
  have := hh.2.1
  rw [descAt, lookup, Spans.look_of_mem h.sorted hv ⟨by omega, by omega⟩, Option.map_some,
    desc_anon hh.2.2]

theorem placed_anon (start stop prot : Nat) (g : Nat → Option Desc) (x : Nat) :
    placed (.anon start stop prot) g x =
      if start ≤ x ∧ x < stop then some ⟨prot, 0, 0, 0⟩ else g x := by
  rw [placed, desc_anon ⟨rfl, rfl⟩]
  rfl

section Ways

variable (h : s.Regular c) (ha : PAGE ∣ addr) (hb : MMAP_BASE ≤ addr) (ho : PAGE ∣ old)
  (hn : PAGE ∣ new) (hend : addr + old ≤ MMAP_END)

theorem lt_window {x : Nat} (hx : x < MMAP_END) : x < 2 ^ 48 := Nat.lt_trans hx (by decide)

include h hb hend in
theorem Regular.anonPage (hv : v ∈ (s.spaces c.slot).vmas) (hh : v.Holds addr old) (h₁ : addr ≤ x)
    (h₂ : x < addr + old) (he : (s.pts c.root).leaf[vpn x]? = some e) : s.AnonPage c x e :=
  ⟨by omega, by omega, ⟨v.prot, desc_region h.well.fine hv hh h₁ h₂⟩, he⟩

include h ha hb ho hn hend in
/-- **The end of a range is cut off.** -/
theorem Regular.shrunk (hlt : new < old) (hone : s.OneRegion c addr old)
    (hnow : Now c.slot s (shrunk c addr old new (s.reserve c.slot 1).2)
      (remapped addr old new addr (descAt (s.spaces c.slot).vmas)) 0) :
    Carried c addr old new addr s (Vm.shrunk c addr old new (s.reserve c.slot 1).2) := by
  obtain ⟨v, hv, hh⟩ := hone
  obtain ⟨hpts, hmem, hvmas, -, -, -⟩ := reserve_same c.slot 1 s
  have hcount := fun x e (hp : s.AnonPage c x e) => (h.reserve hp 1).1
  obtain ⟨u, hu⟩ : ∃ u, u = (s.reserve c.slot 1).2 := ⟨_, rfl⟩
  rw [← hu] at hnow hpts hmem hvmas hcount ⊢
  have hedit := @edit_carve u c.slot _ (addr + new) (addr + old)
    (hvmas ▸ h.well.fine) (hvmas ▸ hv) hh.2.2.1 (by omega) (by have := hh.1; omega) hh.2.1
  have hpt : (Vm.shrunk c addr old new u).pts c.root =
      (unmapRange (addr + new) (addr + old) (u.pts c.root, u.frames)).1 := by
    rw [Vm.shrunk, hedit]
    exact pts_setPt_self
  have hwalk := fun x (hx : x < 2 ^ 48) =>
    walked_iff (x := x) (Nat.dvd_add ha hn) (Nat.dvd_add ha ho) hx
  have hpage : ∀ x, x < 2 ^ 48 → (Vm.shrunk c addr old new u).pageAt c x =
      if addr + new ≤ x ∧ x < addr + old then (none, none) else s.pageAt c x := by
    intro x hx
    rw [pageAt, pageAt, hnow.desc, remapped, if_pos (Nat.le_of_lt hlt), without, hpt,
      get_unmapRange, hpts, if_congr (hwalk x hx) rfl rfl]
    split_ifs <;> rfl
  refine .of_pages ha ha ⟨?_, hnow.others, fun r hr => ?_⟩ (fun k _ h₂ => ?_)
    (fun k _ h₂ e he => ?_) (fun k h₁ h₂ => ?_) (fun x h₁ h₂ h₃ => ?_) (fun x hx h₁ h₂ => ?_)
  · rw [Vm.shrunk, hedit]
    exact hmem
  · rw [Vm.shrunk, hedit]
    exact (pts_setPt_of_ne hr).trans (congrFun hpts r)
  · rw [hpage _ (lt_window (by omega)), if_neg (by omega)]
  · -- no page that is given up has the frame
    have hp := h.anonPage hb hend hv hh (Nat.le_add_right _ k) (by omega) he
    have hframes : (Vm.shrunk c addr old new u).frames =
        (unmapRange (addr + new) (addr + old) (u.pts c.root, u.frames)).2 := by
      rw [Vm.shrunk, hedit]
      rfl
    rw [hframes, unmapRange, refCount_freeAll _ fun hc => ?_, hcount _ _ hp]
    rw [privateFrames, List.mem_map] at hc
    obtain ⟨⟨q, e'⟩, hq, hfr⟩ := hc
    obtain ⟨hq₁, hq₂⟩ := mem_walked (List.mem_of_mem_filter hq)
    rw [hpts] at hq₁
    have hqx : q * PAGE < addr + old ∧ addr + new ≤ q * PAGE := by
      obtain ⟨i, rfl⟩ := ha
      obtain ⟨j, rfl⟩ := hn
      obtain ⟨m, rfl⟩ := ho
      have hrange := of_decide_eq_true hq₂
      simp only [PAGE] at hrange ⊢
      omega
    have hvq : vpn (q * PAGE) = q := by
      rw [vpn_eq (lt_window (by omega)), Nat.mul_div_cancel _ (by decide)]
    have hp' := h.anonPage hb hend hv hh (by omega) hqx.1 (hvq.symm ▸ hq₁)
    have hsame := h.once _ _ _ _ hp hp' hfr.symm
    rw [hvq] at hsame
    rw [← hsame, hwalk _ (lt_window (by omega))] at hq₂
    omega
  · omega
  · rw [hpage _ (lt_window (by omega)), if_pos (by omega)]
  · rw [hpage _ hx, if_neg (by omega)]

include h ha hb hend in
/-- **A range grows where it is.** -/
theorem Regular.grown (hlt : old < new) (hv : v ∈ (s.spaces c.slot).vmas) (hh : v.Holds addr old)
    (hin : InPlace (s.spaces c.slot).vmas addr old new)
    (hnow : Now c.slot s ((s.reserve c.slot 2).2.edit c.slot fun vs =>
      add vs (addr + old) (min (addr + new) (2 ^ 64 - 1)) v.prot)
      (remapped addr old new addr (descAt (s.spaces c.slot).vmas)) 0)
    (hpos : 0 < old) :
    Carried c addr old new addr s ((s.reserve c.slot 2).2.edit c.slot fun vs =>
      add vs (addr + old) (min (addr + new) (2 ^ 64 - 1)) v.prot) := by
  obtain ⟨hpts, hmem, hvmas, -, -, -⟩ := reserve_same c.slot 2 s
  have hcount := fun x e (hp : s.AnonPage c x e) => (h.reserve hp 2).1
  obtain ⟨u, hu⟩ : ∃ u, u = (s.reserve c.slot 2).2 := ⟨_, rfl⟩
  have hstop : min (addr + new) (2 ^ 64 - 1) = addr + new := by
    have := hin.1
    simp only [MMAP_END] at this
    omega
  rw [InPlace, hstop] at hin
  rw [← hu, hstop] at hnow ⊢
  rw [← hu] at hpts hmem hvmas hcount
  have hedit := @edit_add u c.slot (addr + old) (addr + new) v.prot
    (hvmas ▸ h.well.fine)
  rw [hedit] at hnow ⊢
  have hfirst : descAt (s.spaces c.slot).vmas addr = some ⟨v.prot, 0, 0, 0⟩ :=
    desc_region h.well.fine hv hh (Nat.le_refl _) (by omega)
  have hun : Unmapped (addr + old) (addr + new) (descAt (s.spaces c.slot).vmas) :=
    h.well.fine.unmapped hin.2
  obtain ⟨t, ht⟩ : ∃ t, t = u.setSpace c.slot { u.spaces c.slot with
    vmas := (add (u.spaces c.slot).vmas (addr + old) (addr + new) v.prot).1 } := ⟨_, rfl⟩
  have hpt : t.pts = s.pts := ht ▸ hpts
  have hfr : t.frames = u.frames := ht ▸ rfl
  have hmm : t.mem = s.mem := ht ▸ hmem
  rw [← ht] at hnow ⊢
  have hpage : ∀ x, t.pageAt c x = if addr + old ≤ x ∧ x < addr + new then
      (some ⟨v.prot, 0, 0, 0⟩, (s.pts c.root).leaf[vpn x]?) else s.pageAt c x := by
    intro x
    rw [pageAt, pageAt, hnow.desc, remapped, if_neg (by omega), if_pos rfl, hfirst, hpt, placed_anon]
    split_ifs <;> rfl
  refine .of_pages ha ha ⟨hmm, hnow.others, fun r _ => congrFun hpt r⟩ (fun k h₁ _ => ?_)
    (fun k h₁ _ e he => ?_) (fun k h₁ h₂ => ?_) (fun x h₁ h₂ h₃ => ?_) (fun x _ h₁ h₂ => ?_)
  · rw [hpage, if_neg (by omega)]
  · rw [hfr]
    exact hcount _ _ (h.anonPage hb hend hv hh (Nat.le_add_right _ k) (by omega) he)
  · refine ⟨_, hfirst, ?_⟩
    have hnone := h.covered (addr + k) (by omega) (by omega) (hun _ (by omega) (by omega))
    rw [hpage, if_pos (by omega), hnone]
  · omega
  · rw [hpage, if_neg (by omega)]

include h in
/-- The gap lies in the window, apart from the old range. -/
theorem Regular.gap_out (hv : v ∈ (s.spaces c.slot).vmas) (hh : v.Holds addr old)
    (hg : (s.spaces c.slot).gap new = some a) :
    PAGE ∣ a ∧ IsGap (s.spaces c.slot).vmas a new ∧ (a + new ≤ addr ∨ addr + old ≤ a) := by
  obtain ⟨hda, hgap⟩ := h.well.gap_spec hg
  refine ⟨hda, hgap, ?_⟩
  have := hgap.free v hv
  have := hh.1
  have := hh.2.1
  omega

include ha ho hend in
theorem apart_out (hda : PAGE ∣ a) (hlim : a + old ≤ MMAP_END)
    (hout : a + old ≤ addr ∨ addr + old ≤ a) : Apart addr (addr + old) a := fun p q h₁ h₂ hc => by
  obtain ⟨k, hk, rfl⟩ := walked_vpn ha ho hend h₁
  rw [← hc, target_vpn ha hda (lt_window (by omega)) (lt_window (by omega)),
    walked_iff ha (Nat.dvd_add ha ho) (lt_window (by omega))] at h₂
  omega

/-- The pages move in the page tables of the state with the longer table. -/
theorem moved_parts (hfine : Fine (u.spaces c.slot).vmas) (hv : v ∈ (u.spaces c.slot).vmas)
    (hh : v.Holds addr old) (hpos : 0 < old) (ha : PAGE ∣ addr) (ho : PAGE ∣ old) (prot : Nat) :
    (moved c addr old new prot a u).mem = u.mem ∧
      (moved c addr old new prot a u).frames =
        (moveRange addr (addr + old) a (u.pts c.root, u.frames)).2 ∧
      (moved c addr old new prot a u).pts = Function.update u.pts c.root
        (moveRange addr (addr + old) a (u.pts c.root, u.frames)).1 := by
  obtain ⟨w, hw⟩ : ∃ w, w = u.setSpace c.slot { u.spaces c.slot with hint := a + new } := ⟨_, rfl⟩
  have hvmas : (w.spaces c.slot).vmas = (u.spaces c.slot).vmas := by
    rw [hw, spaces_setSpace_self]
  have hcarve := @edit_carve w c.slot _ addr (addr + old)
    (hvmas ▸ hfine) (hvmas ▸ hv) hh.2.2.1 (by omega) hh.1 hh.2.1
  have hfine' : Fine ((w.edit c.slot fun vs => carve vs addr (addr + old)).spaces c.slot).vmas := by
    rw [hcarve, spaces_setSpace_self]
    exact (carve_edit (by omega) ha (Nat.dvd_add ha ho) (hvmas ▸ hfine)).fine
  have hadd := @edit_add _ _ a (a + new) prot hfine'
  rw [moved, ← hw, hadd, hcarve, hw]
  exact ⟨rfl, rfl, rfl⟩

include h ha hb ho hend in
/-- **A range goes elsewhere**, with all its pages. -/
theorem Regular.moved (hlt : old < new) (hv : v ∈ (s.spaces c.slot).vmas) (hh : v.Holds addr old)
    (hg : (s.spaces c.slot).gap new = some a) (hpos : 0 < old)
    (hneed : (s.pts c.root).needed ((s.pts c.root).targets addr (addr + old) a) ≤
      (s.reserve c.slot 2).2.frames.free)
    (hnow : Now c.slot s (moved c addr old new v.prot a (s.reserve c.slot 2).2)
      (remapped addr old new a (descAt (s.spaces c.slot).vmas)) 0) :
    Carried c addr old new a s (Vm.moved c addr old new v.prot a (s.reserve c.slot 2).2) := by
  obtain ⟨hpts, hmem, hvmas, -, -, -⟩ := reserve_same c.slot 2 s
  have hcount := fun x e (hp : s.AnonPage c x e) => h.reserve hp 2
  obtain ⟨u, hu⟩ : ∃ u, u = (s.reserve c.slot 2).2 := ⟨_, rfl⟩
  rw [← hu] at hnow hpts hmem hvmas hcount hneed ⊢
  obtain ⟨hm, hf, hp⟩ := @moved_parts _ _ _ _ new a _ (hvmas ▸ h.well.fine) (hvmas ▸ hv) hh
    hpos ha ho v.prot
  obtain ⟨t, ht⟩ : ∃ t, t = Vm.moved c addr old new v.prot a u := ⟨_, rfl⟩
  rw [← ht] at hm hf hp hnow ⊢
  rw [hpts] at hf hp
  -- the gap lies apart from the old range and has no pages
  obtain ⟨hda, hgap, hout⟩ := h.gap_out hv hh hg
  have hbase := hgap.base
  have hlimit := hgap.limit
  have hun : ∀ x, a ≤ x → x < a + new → descAt (s.spaces c.slot).vmas x = none := fun x h₁ h₂ =>
    descAt_none fun w hw => by
      have := hgap.free w hw
      omega
  have hnone : ∀ x, a ≤ x → x < a + new → (s.pts c.root).leaf[vpn x]? = none := fun x h₁ h₂ =>
    h.covered x (by omega) (by omega) (hun x h₁ h₂)
  have hwalk := fun x (hx : x < 2 ^ 48) => walked_iff (x := x) ha (Nat.dvd_add ha ho) hx
  have htarget := fun k (hk : k < old) =>
    target_vpn (k := k) ha hda (lt_window (by omega)) (lt_window (by omega))
  have hap := apart_out ha ho hend hda (by omega) (by omega)
  have hmoved := moveRange_all (s := (s.pts c.root, u.frames)) hap (fun p h₁ => by
    obtain ⟨k, hk, rfl⟩ := walked_vpn ha ho hend h₁
    rw [htarget k hk]
    exact hnone _ (by omega) (by omega)) hneed
  have hleaf : (t.pts c.root).leaf =
      (moveRange addr (addr + old) a (s.pts c.root, u.frames)).1.leaf := by
    rw [hp, Function.update_self]
  rw [← hleaf] at hmoved
  have hgone : ∀ x, addr ≤ x → x < addr + old → (t.pts c.root).leaf[vpn x]? = none :=
    fun x h₁ h₂ => hmoved.gone _ ((hwalk x (lt_window (by omega))).mpr ⟨h₁, h₂⟩) List.not_mem_nil
  have hcome : ∀ k, k < old →
      (t.pts c.root).leaf[vpn (a + k)]? = (s.pts c.root).leaf[vpn (addr + k)]? := fun k hk => by
    rw [← htarget k hk, hmoved.come _ ((hwalk _ (lt_window (by omega))).mpr (by omega))]
    exact if_neg List.not_mem_nil
  have hrest : ∀ x, x < 2 ^ 48 → ¬ (addr ≤ x ∧ x < addr + old) → ¬ (a ≤ x ∧ x < a + old) →
      (t.pts c.root).leaf[vpn x]? = (s.pts c.root).leaf[vpn x]? := fun x hx h₁ h₂ => by
    refine hmoved.rest _ (Bool.eq_false_iff.mpr fun hc => h₁ ((hwalk x hx).mp hc)) fun p hw hc => ?_
    obtain ⟨k, hk, rfl⟩ := walked_vpn ha ho hend hw
    rw [htarget k hk] at hc
    have hin := (walked_iff (x := a + k) hda (Nat.dvd_add hda ho) (lt_window (by omega))).mpr
      ⟨Nat.le_add_right _ _, by omega⟩
    exact h₂ ((walked_iff hda (Nat.dvd_add hda ho) hx).mp (hc ▸ hin))
  have hfirst : descAt (s.spaces c.slot).vmas addr = some ⟨v.prot, 0, 0, 0⟩ :=
    desc_region h.well.fine hv hh (Nat.le_refl _) (by omega)
  have hdesc : ∀ x, descAt (t.spaces c.slot).vmas x =
      if a ≤ x ∧ x < a + new then some ⟨v.prot, 0, 0, 0⟩
      else if addr ≤ x ∧ x < addr + old then none else descAt (s.spaces c.slot).vmas x := fun x => by
    rw [hnow.desc, remapped, if_neg (by omega), if_neg (by omega), hfirst, placed_anon, without]
    rfl
  refine .of_pages ha hda ⟨hm.trans hmem, hnow.others, fun r hr => ?_⟩ (fun k h₁ h₂ => ?_)
    (fun k h₁ _ e he => ?_) (fun k h₁ h₂ => ?_) (fun x h₁ h₂ h₃ => ?_) (fun x hx h₁ h₂ => ?_)
  · rw [hp, Function.update_of_ne hr]
  · rw [pageAt, pageAt, hdesc, if_pos (by omega), hcome k h₁,
      desc_region h.well.fine hv hh (Nat.le_add_right _ k) (by omega)]
  · obtain ⟨hsame, hused⟩ :=
      hcount _ _ (h.anonPage hb hend hv hh (Nat.le_add_right _ k) (by omega) he)
    have hlike : s.frames.Like u.frames := hu ▸ (reserve_same c.slot 2 s).2.2.2.2.2
    have hkept := kept_moveRange addr (addr + old) a (s.pts c.root, u.frames)
    have hlike' := like_moveRange addr (addr + old) a (s.pts c.root, u.frames)
    rw [hf, ← hsame]
    exact refCount_kept hlike' hkept fun ho => hused (hlike.owned.mp ho)
  · refine ⟨_, hfirst, ?_⟩
    rw [pageAt, hdesc, if_pos (by omega), hrest _ (lt_window (by omega)) (by omega) (by omega),
      hnone _ (by omega) (by omega)]
  · rw [pageAt, hdesc, if_neg h₃, if_pos ⟨h₁, h₂⟩, hgone x h₁ h₂]
  · rw [pageAt, pageAt, hdesc, if_neg h₂, if_neg h₁, hrest x hx h₁ (by omega)]

include h ha ho hend in
/-- A page for which no table can be made stays where it was. -/
theorem Regular.stuck (hlt : old < new) (hv : v ∈ (s.spaces c.slot).vmas) (hh : v.Holds addr old)
    (hg : (s.spaces c.slot).gap new = some a) (hpos : 0 < old)
    (hneed : (s.reserve c.slot 2).2.frames.free <
      (s.pts c.root).needed ((s.pts c.root).targets addr (addr + old) a)) :
    ¬ Carried c addr old new a s (Vm.moved c addr old new v.prot a (s.reserve c.slot 2).2) := by
  obtain ⟨hpts, -, hvmas, -, -, -⟩ := reserve_same c.slot 2 s
  obtain ⟨u, hu⟩ : ∃ u, u = (s.reserve c.slot 2).2 := ⟨_, rfl⟩
  rw [← hu] at hpts hvmas hneed ⊢
  obtain ⟨-, -, hp⟩ := @moved_parts _ _ _ _ new a _ (hvmas ▸ h.well.fine) (hvmas ▸ hv) hh
    hpos ha ho v.prot
  rw [hpts] at hp
  obtain ⟨hda, hgap, hout⟩ := h.gap_out hv hh hg
  have hlimit := hgap.limit
  have hap := apart_out ha ho hend hda (by omega) (by omega)
  obtain ⟨p, hw, hstay⟩ := moveRange_some (s := (s.pts c.root, u.frames)) hap hneed
  obtain ⟨k, hk, rfl⟩ := walked_vpn ha ho hend hw
  intro hc
  have hgone := congrArg Prod.snd (hc.gone (addr + k) (Nat.le_add_right _ _) (by omega) (by omega))
  rw [pageAt, hp, Function.update_self] at hgone
  exact hstay hgone

end Ways

/-- **Nothing is lost** where the arguments are accepted, if and only if the paths that lose
something are not taken. -/
theorem Regular.remap (h : s.Regular c) {oldLen newLen : Nat} (hask : Asked addr oldLen newLen flags) :
    Lossless c addr (up oldLen) (up newLen) s (remap c addr (up oldLen) (up newLen) flags s) ↔
      Sound c addr (up oldLen) (up newLen) flags s := by
  have hspec := answer_spec (@mremap_spec _ _ _ _ addr flags newLen oldLen (Now.start h.well))
  rw [answer_mremap, if_pos hask] at hspec
  obtain ⟨⟨hal, hb, hpos, -, -⟩, -, -, hend⟩ := hask
  have ha := Nat.dvd_of_mod_eq_zero hal
  have ho := up_dvd oldLen
  have hn := up_dvd newLen
  replace hpos := up_pos hpos
  generalize up oldLen = old at *
  generalize up newLen = new at *
  have hfind : ∀ v, find (s.spaces c.slot).vmas addr = some v → v ∈ (s.spaces c.slot).vmas :=
    fun v hv => (Spans.look_some (h.well.fine.find_eq addr ▸ hv)).1
  constructor
  · refine fun hl => ⟨fun hlt hr => ?_, fun hlt hone hr hin hf a hg => ?_⟩
    · rw [remap_shrunk hlt hr] at hl
      exact (hl.2 addr rfl).2 (Nat.ne_of_lt hlt)
    · obtain ⟨v, hv, hh⟩ := hone
      have hfound : find (s.spaces c.slot).vmas addr = some v := by
        rw [h.well.fine.find_eq]
        exact Spans.look_of_mem h.well.fine.sorted hv ⟨hh.1, by have := hh.2.1; omega⟩
      rw [remap_moved hlt hfound hh hr hin hf ((gap_reserve ..).trans hg)] at hl
      by_contra hneed
      exact h.stuck ha ho hend hlt hv hh hg hpos (Nat.lt_of_not_le hneed) (hl.2 a rfl).1
  · intro hs
    rcases remap_cases c addr old new flags s with ⟨k, hr | hr⟩ | ⟨a, t, hr, hway⟩
    · rw [hr]
      exact ⟨fun _ => ⟨⟨rfl, fun _ _ => rfl, fun _ _ => rfl⟩, fun _ _ => rfl⟩,
        fun a ha => absurd ha (by simp)⟩
    · obtain ⟨hpts, hmem, hvmas, -, hothers, -⟩ := reserve_same c.slot k s
      rw [hr]
      refine ⟨fun _ => ⟨⟨hmem, hothers, fun r _ => congrFun hpts r⟩, fun x _ => ?_⟩,
        fun a ha => absurd ha (by simp)⟩
      rw [pageAt, pageAt, hpts, hvmas]
    · rw [hr] at hspec ⊢
      refine ⟨fun hc => absurd hc (by simp), fun b hb' => ?_⟩
      obtain rfl := Option.some.inj hb'
      obtain ⟨b, hb', hnow, -, -⟩ := hspec.resolve_right fun hc => absurd hc.1 (by simp)
      obtain rfl := Option.some.inj hb'
      cases hway with
      | same heq =>
          refine ⟨.of_pages ha ha ⟨rfl, fun _ _ => rfl, fun _ _ => rfl⟩ (fun _ _ _ => rfl)
            (fun _ _ _ _ _ => rfl) (fun k h₁ h₂ => by omega) (fun x h₁ h₂ h₃ => by omega)
            fun _ _ _ _ => rfl, fun hne => absurd heq hne⟩
      | shrunk hlt hres =>
          have hone := hs.1 hlt hres
          exact ⟨h.shrunk ha hb ho hn hend hlt hone hnow, fun _ => hone⟩
      | grown v hlt hv hh hres hin =>
          exact ⟨h.grown ha hb hend hlt (hfind v hv) hh hin hnow hpos, fun _ => ⟨v, hfind v hv, hh⟩⟩
      | moved v a hlt hv hh hres hin hf hg =>
          have hone : s.OneRegion c addr old := ⟨v, hfind v hv, hh⟩
          have hg' := (gap_reserve ..).symm.trans hg
          exact ⟨h.moved ha hb ho hend hlt (hfind v hv) hh hg' hpos
            (hs.2 hlt hone hres hin hf _ hg') hnow, fun _ => hone⟩

/-- **`mremap` loses nothing** if and only if what it cuts off is part of one private anonymous
region, and there are frames for the tables on the way to every page that it moves. -/
theorem mremap_lossless (h : s.Regular c) (addr oldLen newLen flags : Nat) :
    Lossless c addr (up oldLen) (up newLen) s
        (answer (mremap (some c) addr oldLen newLen flags) s) ↔
      (Asked addr oldLen newLen flags → Sound c addr (up oldLen) (up newLen) flags s) := by
  rw [answer_mremap]
  by_cases hask : Asked addr oldLen newLen flags
  · rw [if_pos hask, h.remap hask]
    exact ⟨fun hs _ => hs, fun hs => hs hask⟩
  · rw [if_neg hask]
    exact ⟨fun _ hc => absurd hc hask, fun _ =>
      ⟨fun _ => ⟨⟨rfl, fun _ _ => rfl, fun _ _ => rfl⟩, fun _ _ => rfl⟩,
        fun a ha => absurd ha (by simp)⟩⟩

/-- A space with these regions and no page: frame 0 is its root, the next ones are its array. -/
def fresh (vs : List Vma) : Mm :=
  (boot ([0, 1, 2, 3, 4].foldl (fun fr f => fr.setUsed f) (.boot 16 fun _ => false))).setSpace 0
    ⟨some 1, 4, vs, MMAP_BASE⟩

theorem regular_fresh {vs : List Vma} (hf : Fine vs) (hl : vs.length ≤ 409) :
    (fresh vs).Regular ⟨0, 0⟩ := by
  have hsp : (fresh vs).spaces 0 = ⟨some 1, 4, vs, MMAP_BASE⟩ := spaces_setSpace_self
  have hleaf : ∀ q : Nat, ((fresh vs).pts 0).leaf[q]? = none := fun q => by
    simp [fresh, boot, setSpace, Pt.empty]
  have halone : alone {0} (fresh vs) = ([0, 1, 2, 3, 4] : List Nat) := by
    have hobjs : ∑ i ∈ Finset.range (MAX_OBJS + 1), ((fresh vs).objs i).frames = 0 :=
      Finset.sum_eq_zero fun _ _ => rfl
    have hothers : ∑ l ∈ Finset.range MAX_PROCS, ((fresh vs).spaces l).array =
        ((fresh vs).spaces 0).array := by
      refine Finset.sum_eq_single 0 (fun l _ hl => ?_) fun hc => absurd hc (by decide)
      have hempty : (fresh vs).spaces l = .empty := spaces_setSpace_of_ne hl
      rw [hempty]
      rfl
    rw [alone, Finset.sum_singleton, hobjs, hothers, hsp]
    rfl
  refine ⟨⟨hsp ▸ hf, ?_, ?_⟩, ⟨{0}, 0, 0, by decide, by decide, ?_, fun _ _ => rfl⟩,
    fun x _ _ _ => hleaf _, fun x e hp => ?_, fun x y e e' hp => ?_⟩
  · rw [hsp]
    exact Nat.le_trans hl (by decide : 409 ≤ (⟨some 1, 4, [], MMAP_BASE⟩ : Space).cap)
  · rw [hsp]
    exact (by decide : PAGE ∣ MMAP_BASE)
  · rw [halone]
    exact (Accounted.boot 16 fun _ => false).setAllUsed [0, 1, 2, 3, 4] (by decide) (by decide)
  · exact absurd hp.2.2.2 (by rw [hleaf]; simp)
  · exact absurd hp.2.2.2 (by rw [hleaf]; simp)

/-- Two regions of a page, and frame 5 in hand. -/
def taken : Mm :=
  let s := fresh [⟨MMAP_BASE, MMAP_BASE + 4096, 3, 0, 0, 0⟩,
    ⟨MMAP_BASE + 4096, MMAP_BASE + 8192, 1, 0, 0, 0⟩]
  s.setFrames (s.frames.setUsed 5)

/-- The first region has its page there. -/
def paged : Mm := (taken.mapIn 0 MMAP_BASE ⟨5, .userProt 3⟩).2

theorem paged_leaf {p : Nat} {e : Pte} (h : (paged.pts 0).leaf[p]? = some e) :
    p = vpn MMAP_BASE ∧ e = ⟨5, .userProt 3⟩ := by
  rw [paged, pts_mapIn, Function.update_self, get_mapPage] at h
  split at h
  · rename_i hc
    exact ⟨hc.2, (Option.some.inj h).symm⟩
  · simp [taken, fresh, boot, setSpace, setFrames, Pt.empty] at h

theorem regular_paged : paged.Regular ⟨0, 0⟩ := by
  have h := @regular_fresh [⟨MMAP_BASE, MMAP_BASE + 4096, 3, 0, 0, 0⟩,
    ⟨MMAP_BASE + 4096, MMAP_BASE + 8192, 1, 0, 0, 0⟩] (fine_cons.mpr ⟨by decide, by decide, by decide,
      by simp [MMAP_BASE], fine_cons.mpr ⟨by decide, by decide, by decide, by simp, fine_nil⟩⟩)
    (by decide)
  obtain ⟨live, X, Y, hr, hl, hh⟩ := h.counts
  have hused : taken.Holds live (5 ::ₘ X) Y := hh.frames fun ha => by
    rw [Multiset.add_cons]
    exact ha.setUsed (by decide)
  have htaken : taken.Holds live X (Pte.own ⟨5, .userProt 3⟩ + Y) := hused.share
  have hmap := htaken.mapIn hr MMAP_BASE
  refine ⟨h.well, ?_, fun x hx hlt hd => ?_, fun x e hp => ?_, fun x y e e' hp hp' _ => ?_⟩
  · cases hb : (taken.mapIn 0 MMAP_BASE ⟨5, .userProt 3⟩).1 with
    | true => exact ⟨live, X, _, hr, hl, hmap.1 hb⟩
    | false => exact ⟨live, X, _, hr, hl, hmap.2 hb⟩
  · by_contra hne
    obtain ⟨e, he⟩ := Option.ne_none_iff_exists'.mp hne
    obtain ⟨hp, -⟩ := paged_leaf he
    have hin : x < MMAP_BASE + 4096 := by
      have hlow : x / PAGE < 2 ^ 36 :=
        Nat.div_lt_of_lt_mul (hlt.trans_le (by decide : MMAP_END ≤ PAGE * 2 ^ 36))
      have hbase : vpn MMAP_BASE = 2 ^ 25 := by decide
      have hdiv : x / PAGE = 2 ^ 25 := (Nat.mod_eq_of_lt hlow).symm.trans (hp.trans hbase)
      have hnext : x < (2 ^ 25 + 1) * PAGE :=
        (Nat.div_lt_iff_lt_mul (by decide)).mp (Nat.lt_succ_of_le hdiv.le)
      exact hnext.trans_le (by decide)
    exact absurd (descAt_cons.symm.trans hd) (by simp [hx, hin])
  · rw [(paged_leaf hp.2.2.2).2]
    rfl
  · rw [(paged_leaf hp.2.2.2).1, (paged_leaf hp'.2.2.2).1]

theorem mremap_lossless_moved :
    (paged.pageAt ⟨0, 0⟩ MMAP_BASE).2 = some ⟨5, .userProt 3⟩ ∧
    (answer (mremap (some ⟨0, 0⟩) MMAP_BASE 4096 8192 1) paged).1 = some (MMAP_BASE + 8192) ∧
    Lossless ⟨0, 0⟩ MMAP_BASE (up 4096) (up 8192) paged
      (answer (mremap (some ⟨0, 0⟩) MMAP_BASE 4096 8192 1) paged) := by
  refine ⟨by decide +kernel, by decide +kernel, ?_⟩
  refine (mremap_lossless regular_paged MMAP_BASE 4096 8192 1).mpr fun _ =>
    ⟨fun hc => absurd hc (by decide), fun _ _ _ _ _ a ha => ?_⟩
  have hgap : (paged.spaces 0).gap (up 8192) = some (MMAP_BASE + 8192) := by decide +kernel
  obtain rfl := Option.some.inj (ha.symm.trans hgap)
  decide +kernel

/-- A page of a file is given up by a call that is refused when the range is to grow. -/
theorem mremap_unchecked :
    let s := fresh [⟨MMAP_BASE, MMAP_BASE + 8192, 3, 0, 7, 0⟩]
    s.Regular ⟨0, 0⟩ ∧ ¬ Lossless ⟨0, 0⟩ MMAP_BASE (up 8192) (up 4096) s
      (answer (mremap (some ⟨0, 0⟩) MMAP_BASE 8192 4096 0) s) := by
  have hfine : Fine [⟨MMAP_BASE, MMAP_BASE + 8192, 3, 0, 7, 0⟩] :=
    fine_cons.mpr ⟨by decide, by decide, by decide, fun w hw => absurd hw List.not_mem_nil, fine_nil⟩
  refine ⟨regular_fresh hfine (by decide), fun hl => ?_⟩
  rw [answer_mremap, if_pos (by decide), remap_shrunk (by decide) (by decide)] at hl
  obtain ⟨v, hv, hh⟩ := (hl.2 _ rfl).2 (by decide)
  obtain rfl := List.mem_singleton.mp hv
  exact absurd hh.2.2.2 (by decide)

end Mm

end Pulsar.Vm

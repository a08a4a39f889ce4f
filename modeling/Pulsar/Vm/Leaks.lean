import Pulsar.Vm.FileFaults
import Pulsar.Vm.Holders
import Pulsar.Vm.Moves

/-!
# What a fault leaves behind (`vm.rs`)

A fault takes frames for the pages that it maps and for the tables on the way to them.  A fault on
a page of a file takes them, lets the others run while it reads, and then maps what it read.

* `fault_neat`: a fault that fails leaves each frame that is no page table as it was, and one that
  succeeds maps each frame that it took once, but for a page of an object that is made and not
  mapped and for the frames behind the first page of a file that is not mapped (`Fits`).
* `fault_leaks`: the second of two frames stays in use, and nothing has it.
-/

namespace Pulsar.Vm

open Pulsar.Tree

variable {fr fr' fr'' : Frames} {f g k n p root : Nat} {t t' : Tree Nat} {pt pt' : Pt} {e : Pte}
  {N M : Multiset Nat} {fs : List Nat}

/-! ### Frames taken and given back -/

/-- The frames `N` were taken, and the others stayed as they were. -/
structure Took (N : Multiset Nat) (fr fr' : Frames) : Prop where
  free : ∀ f ∈ N, fr.isFree f = true ∧ fr'.used f = true
  same : ∀ f ∉ N, fr'.used f = fr.used f ∧ fr'.refs f = fr.refs f
  like : fr.Like fr'

theorem Took.refl (fr : Frames) : Took 0 fr fr :=
  ⟨fun f hf => absurd hf (Multiset.notMem_zero f), fun _ _ => ⟨rfl, rfl⟩, .refl fr⟩

theorem Took.isFree (h : Took N fr fr') (hf : f ∉ N) : fr'.isFree f = fr.isFree f := by
  rw [Frames.isFree, Frames.isFree, (h.same f hf).1, h.like.n]

theorem Took.of_free (h : Took N fr fr') (hf : fr'.isFree f = true) :
    f ∉ N ∧ fr.isFree f = true := by
  have hnot : f ∉ N := fun hin => by
    rw [Frames.isFree, (h.free f hin).2] at hf
    simp at hf
  exact ⟨hnot, (h.isFree hnot) ▸ hf⟩

theorem Took.trans (h : Took N fr fr') (h' : Took M fr' fr'') : Took (M + N) fr fr'' where
  free f hf := by
    by_cases hM : f ∈ M
    · exact ⟨(h.of_free (h'.free f hM).1).2, (h'.free f hM).2⟩
    · have hN := (Multiset.mem_add.mp hf).resolve_left hM
      exact ⟨(h.free f hN).1, (h'.same f hM).1.trans (h.free f hN).2⟩
  same f hf := by
    obtain ⟨hM, hN⟩ := not_or.mp fun hc => hf (Multiset.mem_add.mpr hc)
    obtain ⟨hu, hr⟩ := h.same f hN
    obtain ⟨hu', hr'⟩ := h'.same f hM
    exact ⟨hu'.trans hu, hr'.trans hr⟩
  like := h.like.trans h'.like

theorem Took.not_mem (h : Took N fr fr') (hf : fr.used f = true) : f ∉ N := fun hin => by
  have hfree := (h.free f hin).1
  rw [Frames.isFree, hf] at hfree
  simp at hfree

theorem took_allocFrame (h : fr.allocFrame = (some f, fr')) :
    Took {f} fr fr' ∧ fr'.refs f = 1 := by
  obtain ⟨hf, rfl⟩ := Frames.allocFrame_some h
  refine ⟨⟨fun g hg => ?_, fun g hg => ?_, ⟨rfl, rfl⟩⟩, Function.update_self ..⟩
  · rw [Multiset.mem_singleton.mp hg]
    exact ⟨hf, Function.update_self ..⟩
  · have hne : g ≠ f := fun hc => hg (Multiset.mem_singleton.mpr hc)
    exact ⟨Function.update_of_ne hne .., Function.update_of_ne hne ..⟩

theorem took_nextTable (h : nextTable t k fr = some (t', fr')) :
    ∃ N, (cells t').map (·.2) = N + (cells t).map (·.2) ∧ Took N fr fr' := by
  unfold nextTable at h
  cases hk : t[k]? with
  | some g =>
      rw [hk] at h
      obtain ⟨rfl, rfl⟩ := Prod.mk.inj (Option.some.inj h)
      exact ⟨0, (zero_add _).symm, .refl fr⟩
  | none =>
      rw [hk] at h
      simp only at h
      rcases ha : fr.allocFrame with ⟨- | g, fr₁⟩
      · rw [ha] at h
        exact absurd h (by simp)
      · rw [ha] at h
        obtain ⟨rfl, rfl⟩ := Prod.mk.inj (Option.some.inj h)
        refine ⟨{g}, ?_, (took_allocFrame ha).1⟩
        rw [cells_insert hk, Multiset.map_cons, Multiset.singleton_add]

/-- **A mapping** takes the frames of the tables that it makes, and no others. -/
theorem took_mapPage (p : Nat) (e : Pte) (s : Pt × Frames) :
    ∃ N, (mapPage p e s).2.1.tables = N + s.1.tables ∧ Took N s.2 (mapPage p e s).2.2 := by
  unfold mapPage
  rcases h₁ : nextTable s.1.l1 (p / 512 ^ 3) s.2 with - | ⟨m₁, fr₁⟩
  · exact ⟨0, (zero_add _).symm, .refl _⟩
  · obtain ⟨N₁, hN₁, ht₁⟩ := took_nextTable h₁
    simp only
    rcases h₂ : nextTable s.1.l2 (p / 512 ^ 2) fr₁ with - | ⟨m₂, fr₂⟩
    · refine ⟨N₁, ?_, ht₁⟩
      simp only [Pt.tables, hN₁, add_assoc]
    · obtain ⟨N₂, hN₂, ht₂⟩ := took_nextTable h₂
      simp only
      rcases h₃ : nextTable s.1.l3 (p / 512) fr₂ with - | ⟨m₃, fr₃⟩
      · refine ⟨N₂ + N₁, ?_, ht₁.trans ht₂⟩
        simp only [Pt.tables, hN₁, hN₂]
        abel
      · obtain ⟨N₃, hN₃, ht₃⟩ := took_nextTable h₃
        refine ⟨N₃ + (N₂ + N₁), ?_, (ht₁.trans ht₂).trans ht₃⟩
        simp only [Pt.tables, hN₁, hN₂, hN₃]
        abel

/-- A frame with one reference is free when it is given back, and the others stay as they were. -/
theorem freeFrame_one (hown : fr.Owned f) (hused : fr.used f = true) (hone : fr.refs f = 1) :
    (fr.freeFrame f).used f = false ∧ (fr.freeFrame f).refs f = 0 ∧
      ∀ g ≠ f, (fr.freeFrame f).used g = fr.used g ∧ (fr.freeFrame f).refs g = fr.refs g := by
  have hfree : fr.freeFrame f = { fr with
      refs := Function.update fr.refs f 0, used := Function.update fr.used f false,
      hint := min fr.hint f } := by
    rw [Frames.freeFrame, if_pos hown, Frames.freeIdx, if_pos hused, if_neg (by omega)]
  rw [hfree]
  exact ⟨Function.update_self .., Function.update_self ..,
    fun g hg => ⟨Function.update_of_ne hg .., Function.update_of_ne hg ..⟩⟩

theorem freeAll_one : ∀ {fs : List Nat} {fr : Frames}, fs.Nodup →
    (∀ f ∈ fs, fr.Owned f ∧ fr.used f = true ∧ fr.refs f = 1) →
    (∀ f ∈ fs, (fr.freeAll fs).used f = false ∧ (fr.freeAll fs).refs f = 0) ∧
      ∀ g ∉ fs, (fr.freeAll fs).used g = fr.used g ∧ (fr.freeAll fs).refs g = fr.refs g := by
  intro fs
  induction fs with
  | nil => exact fun _ _ => ⟨fun f hf => absurd hf List.not_mem_nil, fun _ _ => ⟨rfl, rfl⟩⟩
  | cons f fs ih =>
      intro fr hnodup hone
      obtain ⟨hf, hnodup⟩ := List.nodup_cons.mp hnodup
      obtain ⟨hown, hused, hrefs⟩ := hone f List.mem_cons_self
      obtain ⟨hself, hself', hother⟩ := freeFrame_one hown hused hrefs
      obtain ⟨hin, hout⟩ := @ih (fr.freeFrame f) hnodup fun g hg => by
        obtain ⟨hown', hused', hrefs'⟩ := hone g (List.mem_cons_of_mem f hg)
        obtain ⟨hu, hr⟩ := hother g (ne_of_mem_of_not_mem hg hf)
        exact ⟨(fr.like_freeFrame f).owned.mpr hown', hu.trans hused', hr.trans hrefs'⟩
      refine ⟨fun g hg => ?_, fun g hg => ?_⟩
      · obtain rfl | hg := List.mem_cons.mp hg
        · obtain ⟨hu, hr⟩ := hout g hf
          exact ⟨hu.trans hself, hr.trans hself'⟩
        · exact hin g hg
      · obtain ⟨hne, hg⟩ := not_or.mp fun hc => hg (List.mem_cons.mpr hc)
        obtain ⟨hu, hr⟩ := hout g hg
        obtain ⟨hu', hr'⟩ := hother g hne
        exact ⟨hu.trans hu', hr.trans hr'⟩

/-- The frames that the leaf entries lead to. -/
def Pt.maps (pt : Pt) : Multiset Nat := (cells pt.leaf).map (·.2.frame)

namespace Mm

/-- The allocator is in order: reserved frames are in use, those that are free have no reference,
and the tables of the space are in use. -/
structure Settled (root : Nat) (s : Mm) : Prop where
  kept : ∀ f, s.frames.reserved f = true → s.frames.used f = true
  refs : ∀ f, s.frames.isFree f = true → s.frames.refs f = 0
  tables : ∀ f ∈ (s.pts root).tables, s.frames.used f = true

/-- The frames are those of a thread alone. -/
structure Held (root : Nat) (fs : List Nat) (s : Mm) : Prop where
  nodup : fs.Nodup
  one : ∀ f ∈ fs, s.frames.Owned f ∧ s.frames.used f = true ∧ s.frames.refs f = 1
  apart : ∀ f ∈ fs, f ∉ (s.pts root).tables

/-- Each frame that is no page table is as it was. -/
def Same (root : Nat) (s t : Mm) : Prop :=
  ∀ f ∉ (t.pts root).tables, t.frames.used f = s.frames.used f ∧ t.frames.refs f = s.frames.refs f

/-- Each frame that was taken, and is no page table, was mapped once, and in this space. -/
def MappedOnce (root : Nat) (s t : Mm) : Prop :=
  (∀ f ∉ (t.pts root).tables, s.frames.isFree f = true → t.frames.used f = true →
    (t.pts root).maps.count f = (s.pts root).maps.count f + 1) ∧ ∀ r ≠ root, t.pts r = s.pts r

/-- What a fault leaves of the memory `s` is right. -/
def Neat (root : Nat) (s : Mm) (r : Bool × Mm) : Prop :=
  if r.1 then MappedOnce root s r.2 else Same root s r.2

/-- `fault(addr, access)`, with what the others do to the memory while a file is read. -/
def faultWith (file : Nat → Nat → Option Bytes) (c : Option Cur) (addr : Nat) (access : Access)
    (others : Mm → Mm) (s : Mm) : Bool × Mm :=
  match s.faultBegin c addr access with
  | (.done b, s) => (b, s)
  | (.file v n, s) =>
    match s.faultRead file (pageOf addr) v n, c with
    | (some fs, s), some c => (others s).faultEnd c addr v fs
    | (_, s), _ => (false, s)

/-- The memory without the fault: what the others made of it, with the frames that the fault took
for the pages of a file given back. -/
def faultBase (file : Nat → Nat → Option Bytes) (c : Option Cur) (addr : Nat) (access : Access)
    (others : Mm → Mm) (s : Mm) : Mm :=
  match s.faultBegin c addr access with
  | (.done _, _) => s
  | (.file v n, t) =>
    match t.faultRead file (pageOf addr) v n with
    | (some fs, t) => (others t).setFrames ((others t).frames.freeAll fs)
    | (none, _) => s

/-- There are frames for the tables on the way to the page. -/
def Reaches (root page : Nat) (s : Mm) : Prop := (s.pts root).needed [vpn page] ≤ s.frames.free

/-- The object lacks a page that it may have, and a frame is free. -/
def Makes (id pg : Nat) (s : Mm) : Prop :=
  s.HasObj id ∧ pg < pagesOf (s.objs id).size ∧ (s.objs id).page[pg]? = none ∧ s.frames.free ≠ 0

/-- If a page of an object is made, there is a frame more than the tables on the way to the page
need. -/
def FitsObject (c : Cur) (addr : Nat) (access : Access) (s : Mm) : Prop :=
  ∀ v ∈ find (s.spaces c.slot).vmas addr, access.permitted v.prot = true →
    (s.pts c.root).isMapped (pageOf addr) = false → v.obj ≠ 0 →
      s.Makes v.obj (v.page (pageOf addr)) →
        (s.pts c.root).needed [vpn (pageOf addr)] < s.frames.free

/-- If the first of two pages of a file or more is to be mapped, there are frames for the tables on
the way to it. -/
def FitsFile (c : Cur) (addr : Nat) (v : Vma) (fs : List Nat) (s : Mm) : Prop :=
  2 ≤ fs.length → ∀ cur ∈ find (s.spaces c.slot).vmas addr, pageOf addr < cur.stop →
    cur.ino = v.ino → (s.pts c.root).isMapped (pageOf addr) = false → s.Reaches c.root (pageOf addr)

/-- No frame is left over. -/
def Fits (file : Nat → Nat → Option Bytes) (c : Cur) (addr : Nat) (access : Access)
    (others : Mm → Mm) (s : Mm) : Prop :=
  s.FitsObject c addr access ∧ ∀ v n t fs u, s.faultBegin (some c) addr access = (.file v n, t) →
    t.faultRead file (pageOf addr) v n = (some fs, u) → (others u).FitsFile c addr v fs

variable {s u : Mm} {va page : Nat} {flags : PageFlags} {v cur : Vma} {c : Cur}

theorem Same.refl (root : Nat) (s : Mm) : Same root s s := fun _ _ => ⟨rfl, rfl⟩

theorem Settled.free (h : s.Settled root) (hf : s.frames.isFree f = true) :
    s.frames.Owned f ∧ s.frames.used f = false ∧ s.frames.refs f = 0 := by
  obtain ⟨hlt, hused⟩ : f < s.frames.n ∧ s.frames.used f = false := by
    simpa [Frames.isFree] using hf
  refine ⟨⟨hlt, ?_⟩, hused, h.refs f hf⟩
  cases hr : s.frames.reserved f with
  | false => rfl
  | true => exact absurd (h.kept f hr) (by simp [hused])

/-- **The holders of the memory** leave the allocator in order. -/
theorem Holds.settled {live : Finset Nat} {X Y : Multiset Nat} (h : s.Holds live X Y)
    (hr : root ∈ live) : s.Settled root := by
  obtain ⟨N, L, ha, -, -⟩ := h.root hr
  refine ⟨ha.kept, fun f hf => ?_, fun f hf => ?_⟩
  · obtain ⟨hown, hN, hL⟩ := ha.free hf
    rw [ha.refs f hown, hN, hL]
  · have hin : f ∈ (s.pts root).tables + (N + X) := Multiset.mem_add.mpr (.inl hf)
    exact ha.not_free (ha.alone f hin).1 (.inl hin)

theorem Holds.held {live : Finset Nat} {X Y : Multiset Nat} (h : s.Holds live (fs + X) Y)
    (hr : root ∈ live) : s.Held root fs := by
  obtain ⟨N, L, ha, -, -⟩ := h.root hr
  have hin : ∀ f ∈ fs, f ∈ (s.pts root).tables + (N + (fs + X)) := fun f hf =>
    Multiset.mem_add.mpr (.inr (Multiset.mem_add.mpr (.inr (Multiset.mem_add.mpr (.inl hf)))))
  have hcount : ∀ f ∈ fs, (s.pts root).tables.count f + fs.count f ≤ 1 := by
    intro f hf
    have hone := (ha.alone f (hin f hf)).2.1
    rw [Multiset.count_add, Multiset.count_add, Multiset.count_add, Multiset.coe_count] at hone
    omega
  refine ⟨List.nodup_iff_count_le_one.mpr fun f => ?_, fun f hf => ?_, fun f hf ht => ?_⟩
  · by_cases hf : f ∈ fs
    · have := hcount f hf
      omega
    · rw [List.count_eq_zero_of_not_mem hf]
      exact Nat.zero_le 1
  · obtain ⟨hown, hone, hL⟩ := ha.alone f (hin f hf)
    refine ⟨hown, ha.not_free hown (.inl (hin f hf)), ?_⟩
    rw [ha.refs f hown, hone, Multiset.count_eq_zero.mpr hL]
  · have hpos := Multiset.count_pos.mpr ht
    have hpos' := List.count_pos_iff.mpr hf
    have := hcount f hf
    omega

/-! ### One page -/

theorem took_mapIn (va : Nat) (e : Pte) (s : Mm) :
    ∃ N, ((s.mapIn root va e).2.pts root).tables = N + (s.pts root).tables ∧
      Took N s.frames (s.mapIn root va e).2.frames := by
  obtain ⟨N, hN, ht⟩ := took_mapPage (vpn va) e (s.pts root, s.frames)
  refine ⟨N, ?_, ht⟩
  rw [pts_mapIn, Function.update_self]
  exact hN

/-- **A page is mapped** when there are frames for the tables on the way to it. -/
theorem mapIn_iff (va : Nat) (e : Pte) (s : Mm) :
    (s.mapIn root va e).1 = true ↔ s.Reaches root va := by
  obtain ⟨hok, hfail⟩ := mapPage_needed (vpn va) e [] (s.pts root, s.frames)
  change (mapPage (vpn va) e (s.pts root, s.frames)).1 = true ↔ _ ≤ _
  cases hb : (mapPage (vpn va) e (s.pts root, s.frames)).1 with
  | true =>
      have := hok hb
      have hnil : ∀ pt : Pt, pt.needed [] = 0 := fun pt => by simp [Pt.needed, missing]
      rw [hnil] at this
      dsimp only at this
      exact iff_of_true rfl (by omega)
  | false => exact iff_of_false (by simp) (Nat.not_le.mpr (hfail hb))

theorem pts_mapIn_of_ne {r : Nat} (h : r ≠ root) : (s.mapIn root va e).2.pts r = s.pts r := by
  rw [pts_mapIn, Function.update_of_ne h]

theorem maps_mapIn (h : (s.mapIn root va e).1 = true) :
    ((s.mapIn root va e).2.pts root).maps +
        ((s.pts root).leaf[vpn va]?.elim 0 fun e₀ => {e₀.frame}) =
      e.frame ::ₘ (s.pts root).maps := by
  have hleaf : ((s.mapIn root va e).2.pts root).leaf = (s.pts root).leaf.insert (vpn va) e := by
    rw [pts_mapIn, Function.update_self]
    exact (mapPage_leaf (vpn va) e (s.pts root, s.frames)).elim (·.2)
      fun hc => absurd (hc.1.symm.trans h) (by simp)
  rw [Pt.maps, Pt.maps, hleaf]
  cases he : (s.pts root).leaf[vpn va]? with
  | none => rw [cells_insert he, Multiset.map_cons, Option.elim_none, add_zero]
  | some e₀ =>
      have hera : ((s.pts root).leaf.erase (vpn va))[vpn va]? = none := by
        rw [get_erase, if_pos rfl]
      rw [← erase_insert, cells_insert hera, cells_erase he, Multiset.map_cons, Multiset.map_cons,
        Option.elim_some, Multiset.cons_add, add_comm, Multiset.singleton_add]

theorem maps_mapIn_fail (h : (s.mapIn root va e).1 = false) :
    ((s.mapIn root va e).2.pts root).maps = (s.pts root).maps := by
  rw [pts_mapIn, Function.update_self, Pt.maps, Pt.maps]
  exact congrArg _ (congrArg cells ((mapPage_leaf (vpn va) e (s.pts root, s.frames)).elim
    (fun hc => absurd (hc.1.symm.trans h) (by simp)) (·.2)))

theorem same_give (h : s.Settled root) (ha : s.frames.allocFrame = (some f, fr))
    (ht : Took N fr u.frames) (htab : (u.pts root).tables = N + (s.pts root).tables) :
    Same root s (u.setFrames (u.frames.freeFrame f)) := by
  obtain ⟨htook, hone⟩ := took_allocFrame ha
  obtain ⟨hfree, hused⟩ := htook.free f (Multiset.mem_singleton_self f)
  obtain ⟨hown, hused₀, hrefs₀⟩ := h.free hfree
  have hf := ht.not_mem hused
  obtain ⟨hu, hr⟩ := ht.same f hf
  obtain ⟨hself, hself', hother⟩ := freeFrame_one
    ((htook.like.trans ht.like).owned.mpr hown) (hu.trans hused) (hr.trans hone)
  intro g hg
  change (u.frames.freeFrame f).used g = _ ∧ (u.frames.freeFrame f).refs g = _
  by_cases hgf : g = f
  · subst hgf
    exact ⟨hself.trans hused₀.symm, hself'.trans hrefs₀.symm⟩
  · have hgN : g ∉ N := fun hin => hg (by
      change g ∈ (u.pts root).tables
      rw [htab]
      exact Multiset.mem_add.mpr (.inl hin))
    obtain ⟨hu₁, hr₁⟩ := hother g hgf
    obtain ⟨hu₂, hr₂⟩ := ht.same g hgN
    obtain ⟨hu₃, hr₃⟩ := htook.same g fun hc => hgf (Multiset.mem_singleton.mp hc)
    exact ⟨hu₁.trans (hu₂.trans hu₃), hr₁.trans (hr₂.trans hr₃)⟩

theorem mappedOnce_one (ha : s.frames.allocFrame = (some f, fr)) (ht : Took N fr u.frames)
    (htab : (u.pts root).tables = N + (s.pts root).tables) {w : Mm} (hpts : w.pts = u.pts)
    (hused : ∀ g, w.frames.used g = true → u.frames.used g = true)
    (hcount : (u.pts root).maps.count f = (s.pts root).maps.count f + 1)
    (hothers : ∀ r ≠ root, u.pts r = s.pts r) : MappedOnce root s w := by
  refine ⟨fun g hg hfree hu => ?_, fun r hr => (congrFun hpts r).trans (hothers r hr)⟩
  rw [hpts] at hg ⊢
  have hgN : g ∉ N := fun hin => hg (by
    rw [htab]
    exact Multiset.mem_add.mpr (.inl hin))
  have hgf : g = f := by
    by_contra hne
    have h₁ := ((took_allocFrame ha).1.trans ht).same g fun hc =>
      (Multiset.mem_add.mp hc).elim hgN fun hc => hne (Multiset.mem_singleton.mp hc)
    rw [Frames.isFree, ← h₁.1, hused g hu] at hfree
    simp at hfree
  exact hgf ▸ hcount

theorem freeFrame_used (h : (fr.freeFrame f).used g = true) : fr.used g = true := by
  rw [Frames.freeFrame] at h
  split at h
  · rw [Frames.freeIdx] at h
    split at h
    · split at h
      · exact h
      · by_cases hg : g = f
        · rw [hg] at h
          exact absurd h (by simp)
        · exact (Function.update_of_ne hg ..).symm.trans h
    · exact h
  · exact h

/-- **A page copied** is mapped once, or its frame is given back. -/
theorem neat_copyPage {frame : Nat} (h : s.Settled root)
    (hold : ∀ e₀, (s.pts root).leaf[vpn page]? = some e₀ → s.frames.isFree e₀.frame = false) :
    Neat root s (s.copyPage root page frame flags) := by
  unfold copyPage
  rcases ha : s.frames.allocFrame with ⟨- | new, fr⟩
  · exact Same.refl root s
  · obtain ⟨N, htab, ht⟩ := @took_mapIn root page ⟨new, flags⟩
      ((s.setFrames fr).setMem new (s.mem frame))
    have hmaps := @maps_mapIn root ⟨new, flags⟩ ((s.setFrames fr).setMem new (s.mem frame)) page
    have hothers := fun r hr => @pts_mapIn_of_ne root ⟨new, flags⟩ ((s.setFrames fr).setMem new (s.mem frame)) page r hr
    simp only
    rcases hm : ((s.setFrames fr).setMem new (s.mem frame)).mapIn root page ⟨new, flags⟩
      with ⟨- | -, u⟩ <;> rw [hm] at htab ht hmaps hothers
    · exact same_give h ha ht htab
    · refine mappedOnce_one ha ht htab rfl (fun g hg => freeFrame_used hg) ?_ hothers
      have hcount := congrArg (Multiset.count new) (hmaps rfl)
      rw [Multiset.count_add, Multiset.count_cons_self] at hcount
      have hzero : ((s.pts root).leaf[vpn page]?.elim 0 fun e₀ => ({e₀.frame} : Multiset Nat)).count
          new = 0 := by
        cases he : (s.pts root).leaf[vpn page]? with
        | none => rfl
        | some e₀ =>
            refine Multiset.count_eq_zero.mpr fun hin => ?_
            have hnew := (Frames.allocFrame_some ha).1
            rw [Multiset.mem_singleton.mp hin, hold e₀ he] at hnew
            exact Bool.noConfusion hnew
      rw [pts_setMem, pts_setFrames, hzero] at hcount
      exact hcount

/-- **A new page** is mapped once, or its frame is given back. -/
theorem neat_mapZeroed (h : s.Settled root) (hnew : (s.pts root).leaf[vpn page]? = none) :
    Neat root s (s.mapZeroed root page flags) := by
  unfold mapZeroed zeroedFrame
  rcases ha : s.frames.allocFrame with ⟨- | f, fr⟩
  · exact Same.refl root s
  · obtain ⟨N, htab, ht⟩ := @took_mapIn root page ⟨f, flags⟩
      ((s.setFrames fr).setMem f zeroPage)
    have hmaps := @maps_mapIn root ⟨f, flags⟩ ((s.setFrames fr).setMem f zeroPage) page
    have hothers := fun r hr => @pts_mapIn_of_ne root ⟨f, flags⟩ ((s.setFrames fr).setMem f zeroPage) page r hr
    simp only
    rcases hm : ((s.setFrames fr).setMem f zeroPage).mapIn root page ⟨f, flags⟩
      with ⟨- | -, u⟩ <;> rw [hm] at htab ht hmaps hothers
    · exact same_give h ha ht htab
    · refine mappedOnce_one ha ht htab rfl (fun g hg => hg) ?_ hothers
      have hcount := congrArg (Multiset.count f) (hmaps rfl)
      rw [pts_setMem, pts_setFrames, hnew, Option.elim_none, add_zero,
        Multiset.count_cons_self] at hcount
      exact hcount

theorem neat_tables (ht : Took N s.frames u.frames)
    (htab : (u.pts root).tables = N + (s.pts root).tables)
    (hothers : ∀ r ≠ root, u.pts r = s.pts r) (b : Bool) : Neat root s (b, u) := by
  have hsame : Same root s u := fun g hg => ht.same g fun hin => hg (by
    rw [htab]
    exact Multiset.mem_add.mpr (.inl hin))
  cases b with
  | false => exact hsame
  | true =>
      refine ⟨fun g hg hfree hused => ?_, hothers⟩
      rw [(hsame g hg).1] at hused
      rw [Frames.isFree, hused] at hfree
      simp at hfree

theorem page_cases (id pg : Nat) (s : Mm) :
    (¬ s.Makes id pg ∧ ∃ o, s.page id pg true = (o, s)) ∨
    (s.Makes id pg ∧ ∃ f fr, s.frames.allocFrame = (some f, fr) ∧ s.page id pg true =
      (some f, ((s.setFrames fr).setMem f zeroPage).setObj id
        { s.objs id with page := (s.objs id).page.insert pg f })) := by
  unfold page
  by_cases hid : s.HasObj id
  · rw [if_pos hid]
    simp only
    by_cases hlen : pagesOf (s.objs id).size ≤ pg
    · exact .inl ⟨fun h => absurd h.2.1 (Nat.not_lt.mpr hlen), none, if_pos hlen⟩
    rw [if_neg hlen]
    cases hp : (s.objs id).page[pg]? with
    | some f => exact .inl ⟨fun h => absurd (h.2.2.1.symm.trans hp) nofun, some f, rfl⟩
    | none =>
        simp only [if_true]
        rcases ha : s.frames.allocFrame with ⟨- | f, fr⟩
        · exact .inl ⟨fun h => h.2.2.2 (Frames.free_of_none ha), none, rfl⟩
        · have hfree := (Frames.free_of_some ha).1
          exact .inr ⟨⟨hid, Nat.lt_of_not_le hlen, hp, by omega⟩, f, fr, rfl, rfl⟩
  · exact .inl ⟨fun h => hid h.1, none, if_neg hid⟩

/-- **A page of an object** that is made stays when it is not mapped. -/
theorem neat_faultShared (h : s.Settled root) (hnew : (s.pts root).leaf[vpn page]? = none) :
    Neat root s (s.faultShared root page v) ↔
      (s.Makes v.obj (v.page page) → (s.pts root).needed [vpn page] < s.frames.free) := by
  unfold faultShared
  obtain ⟨hno, o, ho⟩ | ⟨hyes, f, fr, ha, hp⟩ := page_cases v.obj (v.page page) s
  · refine iff_of_true ?_ fun hc => absurd hc hno
    rw [ho]
    cases o with
    | none => exact Same.refl root s
    | some f =>
        obtain ⟨N, htab, ht⟩ := @took_mapIn root page
          ⟨f, (PageFlags.userProt v.prot).shared⟩ s
        exact neat_tables ht htab (fun r hr => pts_mapIn_of_ne hr) _
  · rw [hp]
    simp only
    generalize hw : ((s.setFrames fr).setMem f zeroPage).setObj v.obj
      { s.objs v.obj with page := (s.objs v.obj).page.insert (v.page page) f } = w
    have hpts : w.pts = s.pts := by rw [← hw]; rfl
    have hframes : w.frames = fr := by rw [← hw]; rfl
    obtain ⟨htook, -⟩ := took_allocFrame ha
    obtain ⟨hfree, hused⟩ := htook.free f (Multiset.mem_singleton_self f)
    have hcard := (Frames.free_of_some ha).1
    obtain ⟨N, htab, ht⟩ := @took_mapIn root page
      ⟨f, (PageFlags.userProt v.prot).shared⟩ w
    have hmaps := @maps_mapIn root ⟨f, (PageFlags.userProt v.prot).shared⟩ w page
    have hothers := fun r hr => @pts_mapIn_of_ne root ⟨f, (PageFlags.userProt v.prot).shared⟩ w page r hr
    have hiff := @mapIn_iff root page ⟨f, (PageFlags.userProt v.prot).shared⟩ w
    rw [Reaches, hpts, hframes] at hiff
    rw [hpts] at htab hmaps hothers
    rw [hframes] at ht
    rcases hm : w.mapIn root page ⟨f, (PageFlags.userProt v.prot).shared⟩ with ⟨- | -, u⟩ <;>
      rw [hm] at htab ht hmaps hothers hiff
    · -- the page is the object's now
      refine iff_of_false (fun hc => ?_) fun hc => ?_
      · have hf := ht.not_mem hused
        have hapart : f ∉ (u.pts root).tables := fun hin => by
          rw [htab] at hin
          have hold := h.tables f ((Multiset.mem_add.mp hin).resolve_left hf)
          rw [(h.free hfree).2.1] at hold
          exact Bool.noConfusion hold
        have hsame := (hc f hapart).1
        change u.frames.used f = _ at hsame
        rw [(ht.same f hf).1, hused, (h.free hfree).2.1] at hsame
        exact Bool.noConfusion hsame
      · have := hc hyes
        exact absurd (hiff.mpr (by omega)) (by simp)
    · refine iff_of_true ?_ fun _ => by
        have := hiff.mp rfl
        omega
      refine mappedOnce_one ha ht htab rfl (fun g hg => hg) ?_ hothers
      have hcount := congrArg (Multiset.count f) (hmaps rfl)
      rw [hnew, Option.elim_none, add_zero, Multiset.count_cons_self] at hcount
      exact hcount

/-- **A page that is mapped** is copied or gets its protection. -/
theorem neat_faultMapped {prot : Nat} {access : Access} (h : s.Settled root) :
    Neat root s (s.faultMapped root page prot access) := by
  unfold faultMapped
  rcases hc : s.toCopy root page prot access with - | frame
  · have hpt : (s.protectPages root page (page + PAGE) (.userProt prot)).pts root =
        protectRange page (page + PAGE) (.userProt prot) (s.pts root) := pts_setPt_self
    exact neat_tables (s := s) (u := s.protectPages root page (page + PAGE) (.userProt prot))
      (.refl s.frames) (by rw [hpt, zero_add]; rfl) (fun r hr => pts_setPt_of_ne hr) true
  · refine neat_copyPage h fun e₀ he => ?_
    unfold toCopy at hc
    split at hc
    · obtain ⟨htr, hcount⟩ := Option.filter_eq_some_iff.mp hc
      rw [Pt.translateUser, he] at htr
      have hfr : e₀.frame = frame := by
        simp only [Bool.false_and, Bool.not_false, Bool.and_true] at htr
        split at htr
        · exact Option.some.inj htr
        · exact absurd htr nofun
      rw [hfr]
      cases hf : s.frames.isFree frame with
      | false => rfl
      | true =>
          obtain ⟨hown, -, hzero⟩ := h.free hf
          rw [decide_eq_true_eq, Frames.refCount, if_pos hown, hzero] at hcount
          omega
    · exact absurd hc nofun

/-! ### Pages of a file -/

theorem Settled.took (h : s.Settled root) (ht : Took N s.frames u.frames)
    (htab : ∀ f ∈ (u.pts root).tables, f ∈ N ∨ f ∈ (s.pts root).tables) : u.Settled root where
  kept f hf := by
    by_cases hN : f ∈ N
    · exact (ht.free f hN).2
    · rw [(ht.same f hN).1]
      exact h.kept f (ht.like.reserved ▸ hf)
  refs f hf := by
    obtain ⟨hN, hfree⟩ := ht.of_free hf
    rw [(ht.same f hN).2]
    exact h.refs f hfree
  tables f hf := by
    by_cases hN : f ∈ N
    · exact (ht.free f hN).2
    · rw [(ht.same f hN).1]
      exact h.tables f ((htab f hf).resolve_left hN)

theorem Held.took (h : s.Held root fs) (ht : Took N s.frames u.frames)
    (htab : ∀ f ∈ (u.pts root).tables, f ∈ N ∨ f ∈ (s.pts root).tables) : u.Held root fs where
  nodup := h.nodup
  one f hf := by
    obtain ⟨hown, hused, hone⟩ := h.one f hf
    obtain ⟨hu, hr⟩ := ht.same f (ht.not_mem hused)
    exact ⟨ht.like.owned.mpr hown, hu.trans hused, hr.trans hone⟩
  apart f hf hin := (htab f hin).elim (ht.not_mem (h.one f hf).2.1) (h.apart f hf)

/-- **The frames taken** for the pages of a file are the fault's alone. -/
theorem takeFrames_took : ∀ {n : Nat} {s : Mm}, s.Settled root →
    (takeFrames n s).2.Settled root ∧ (takeFrames n s).2.Held root (takeFrames n s).1 ∧
      Took (takeFrames n s).1 s.frames (takeFrames n s).2.frames ∧
        (takeFrames n s).2.pts = s.pts := by
  intro n
  induction n with
  | zero => exact fun h => ⟨h, ⟨List.nodup_nil, fun _ hf => absurd hf List.not_mem_nil,
          fun _ hf => absurd hf List.not_mem_nil⟩, .refl _, rfl⟩
  | succ n ih =>
      intro s h
      rw [takeFrames, zeroedFrame]
      rcases ha : s.frames.allocFrame with ⟨- | f, fr⟩
      · exact ⟨h, ⟨List.nodup_nil, fun _ hf => absurd hf List.not_mem_nil,
          fun _ hf => absurd hf List.not_mem_nil⟩, .refl _, rfl⟩
      · obtain ⟨htook, hone⟩ := took_allocFrame ha
        obtain ⟨hfree, hused⟩ := htook.free f (Multiset.mem_singleton_self f)
        obtain ⟨hs, hheld, ht, hpts⟩ := ih (s := (s.setFrames fr).setMem f zeroPage)
          (h.took htook fun g hg => .inr hg)
        have hf : f ∉ ((takeFrames n ((s.setFrames fr).setMem f zeroPage)).1 : Multiset Nat) :=
          ht.not_mem hused
        have hnot : f ∉ (s.pts root).tables := fun hin => by
          have hold := h.tables f hin
          rw [(h.free hfree).2.1] at hold
          exact Bool.noConfusion hold
        obtain ⟨hu, hr⟩ := ht.same f hf
        refine ⟨hs, ⟨List.nodup_cons.mpr ⟨hf, hheld.nodup⟩, fun g hg => ?_, fun g hg => ?_⟩, ?_,
          hpts⟩
        · obtain rfl | hg := List.mem_cons.mp hg
          · exact ⟨(htook.like.trans ht.like).owned.mpr (h.free hfree).1, hu.trans hused,
              hr.trans hone⟩
          · exact hheld.one g hg
        · obtain rfl | hg := List.mem_cons.mp hg
          · exact hpts ▸ hnot
          · exact hheld.apart g hg
        · have hall := htook.trans ht
          rwa [add_comm, Multiset.singleton_add, Multiset.cons_coe] at hall

theorem readPages_frames (file : Nat → Option Bytes) (pg : Nat) (fs : List Nat) (s : Mm) :
    (readPages file pg fs s).2.frames = s.frames ∧ (readPages file pg fs s).2.pts = s.pts := by
  induction fs generalizing pg s with
  | nil => exact ⟨rfl, rfl⟩
  | cons f fs ih =>
      unfold readPages
      split
      · exact ⟨rfl, rfl⟩
      · exact ih ..

theorem giveAll_same (h : s.Settled root) (hheld : u.Held root fs) (ht : Took fs s.frames u.frames)
    (g : Nat) : (u.frames.freeAll fs).used g = s.frames.used g ∧
      (u.frames.freeAll fs).refs g = s.frames.refs g := by
  obtain ⟨hin, hout⟩ := freeAll_one hheld.nodup hheld.one
  by_cases hg : g ∈ fs
  · obtain ⟨-, hused, hrefs⟩ := h.free (ht.free g hg).1
    exact ⟨(hin g hg).1.trans hused.symm, (hin g hg).2.trans hrefs.symm⟩
  · obtain ⟨hu, hr⟩ := hout g hg
    obtain ⟨hu', hr'⟩ := ht.same g hg
    exact ⟨hu.trans hu', hr.trans hr'⟩

/-- **What is read** is in frames of the fault; if nothing is, they are given back. -/
theorem faultRead_held {file : Nat → Nat → Option Bytes} (h : s.Settled root) :
    (∀ t, s.faultRead file page v n = (none, t) → Same root s t) ∧
      ∀ fs t, s.faultRead file page v n = (some fs, t) → t.Settled root ∧ t.Held root fs ∧
        Same root s (t.setFrames (t.frames.freeAll fs)) := by
  obtain ⟨hs, hheld, ht, hpts⟩ := takeFrames_took (n := n) h
  obtain ⟨hframes, hpts'⟩ := readPages_frames (file v.ino) (v.page page) (takeFrames n s).1
    (takeFrames n s).2
  unfold faultRead
  simp only
  by_cases hnil : (takeFrames n s).1 = []
  · rw [if_pos hnil]
    rw [hnil] at ht
    refine ⟨fun t hr => ?_, fun fs t hr => absurd (Prod.mk.inj hr).1 nofun⟩
    obtain rfl := (Prod.mk.inj hr).2
    exact fun g _ => ht.same g (Multiset.notMem_zero g)
  · rw [if_neg hnil]
    rcases hq : readPages (file v.ino) (v.page page) (takeFrames n s).1 (takeFrames n s).2
      with ⟨- | -, w⟩ <;> rw [hq] at hframes hpts'
    · refine ⟨fun t hr => ?_, fun fs t hr => absurd (Prod.mk.inj hr).1 nofun⟩
      obtain rfl := (Prod.mk.inj hr).2
      intro g _
      change (w.frames.freeAll (takeFrames n s).1).used g = _ ∧
        (w.frames.freeAll (takeFrames n s).1).refs g = _
      rw [hframes]
      exact giveAll_same h hheld ht g
    · refine ⟨fun t hr => absurd (Prod.mk.inj hr).1 nofun, fun fs t hr => ?_⟩
      obtain ⟨hfs, rfl⟩ := Prod.mk.inj hr
      obtain rfl := Option.some.inj hfs
      have htook : Took 0 (takeFrames n s).2.frames w.frames := by
        rw [hframes]
        exact .refl _
      have htab : ∀ f ∈ (w.pts root).tables, f ∈ (0 : Multiset Nat) ∨
          f ∈ ((takeFrames n s).2.pts root).tables := fun f hf => .inr (hpts' ▸ hf)
      refine ⟨hs.took htook htab, hheld.took htook htab, fun g _ => ?_⟩
      change (w.frames.freeAll (takeFrames n s).1).used g = _ ∧
        (w.frames.freeAll (takeFrames n s).1).refs g = _
      rw [hframes]
      exact giveAll_same h hheld ht g

/-- The pages of a file are being mapped: the frames `fs` are left, and each taken from the memory
`b` before is mapped once or free again. -/
structure Placing (root : Nat) (b : Mm) (fs : List Nat) (s : Mm) : Prop where
  held : s.Held root fs
  fresh : ∀ f ∈ fs, (s.pts root).maps.count f = (b.pts root).maps.count f
  once : ∀ f ∉ fs, f ∉ (s.pts root).tables → b.frames.isFree f = true → s.frames.used f = true →
    (s.pts root).maps.count f = (b.pts root).maps.count f + 1
  others : ∀ r ≠ root, s.pts r = b.pts r

variable {b : Mm}

theorem Held.placing (h : s.Held root fs) :
    Placing root (s.setFrames (s.frames.freeAll fs)) fs s where
  held := h
  fresh _ _ := rfl
  once f hf _ hfree hused := by
    have hsame := ((freeAll_one h.nodup h.one).2 f hf).1
    rw [Frames.isFree] at hfree
    change (decide _ && !(s.frames.freeAll fs).used f) = true at hfree
    rw [hsame, hused] at hfree
    simp at hfree
  others _ _ := rfl

theorem Placing.give (h : Placing root b (f :: fs) s) :
    Placing root b fs (s.setFrames (s.frames.freeFrame f)) := by
  obtain ⟨hf, hnodup⟩ := List.nodup_cons.mp h.held.nodup
  obtain ⟨hown, hused, hone⟩ := h.held.one f List.mem_cons_self
  obtain ⟨hself, -, hother⟩ := freeFrame_one hown hused hone
  refine ⟨⟨hnodup, fun g hg => ?_, fun g hg => h.held.apart g (List.mem_cons_of_mem f hg)⟩,
    fun g hg => h.fresh g (List.mem_cons_of_mem f hg), fun g hg ht hfree hu => ?_, h.others⟩
  · obtain ⟨hown', hused', hone'⟩ := h.held.one g (List.mem_cons_of_mem f hg)
    obtain ⟨hu, hr⟩ := hother g (ne_of_mem_of_not_mem hg hf)
    exact ⟨(s.frames.like_freeFrame f).owned.mpr hown', hu.trans hused', hr.trans hone'⟩
  · have hgf : g ≠ f := fun hc => by
      subst hc
      exact Bool.noConfusion (hu.symm.trans hself)
    exact h.once g (fun hc => (List.mem_cons.mp hc).elim hgf hg) ht hfree (freeFrame_used hu)

theorem Placing.tables (h : Placing root b fs s) (ht : Took N s.frames u.frames)
    (htab : (u.pts root).tables = N + (s.pts root).tables)
    (hmaps : ∀ g, g ≠ f → (u.pts root).maps.count g = (s.pts root).maps.count g)
    (hothers : ∀ r ≠ root, u.pts r = s.pts r) (hf : f ∈ fs) :
    (∀ g ∈ fs, g ≠ f → (u.pts root).maps.count g = (b.pts root).maps.count g) ∧
    (∀ g ∉ fs, g ∉ (u.pts root).tables → b.frames.isFree g = true → u.frames.used g = true →
      (u.pts root).maps.count g = (b.pts root).maps.count g + 1) ∧
    (∀ r ≠ root, u.pts r = b.pts r) ∧ u.Held root fs := by
  refine ⟨fun g hg hgf => (hmaps g hgf).trans (h.fresh g hg), fun g hg hgt hfree hu => ?_,
    fun r hr => (hothers r hr).trans (h.others r hr),
    h.held.took ht fun g hg => Multiset.mem_add.mp (htab ▸ hg)⟩
  rw [htab] at hgt
  obtain ⟨hgN, hgt⟩ := not_or.mp fun hc => hgt (Multiset.mem_add.mpr hc)
  rw [hmaps g (ne_of_mem_of_not_mem hf hg).symm]
  exact h.once g hg hgt hfree ((ht.same g hgN).1.symm.trans hu)

theorem Placing.mapped (h : Placing root b (f :: fs) s) (hnew : (s.pts root).leaf[vpn va]? = none)
    (hm : s.mapIn root va ⟨f, flags⟩ = (true, u)) : Placing root b fs u := by
  obtain ⟨hf, hnodup⟩ := List.nodup_cons.mp h.held.nodup
  obtain ⟨N, htab, ht⟩ := @took_mapIn root va ⟨f, flags⟩ s
  have hmaps := @maps_mapIn root ⟨f, flags⟩ s va (by rw [hm])
  have hothers := fun r hr => @pts_mapIn_of_ne root ⟨f, flags⟩ s va r hr
  rw [hm] at htab ht hmaps hothers
  rw [hnew, Option.elim_none, add_zero] at hmaps
  obtain ⟨hfresh, honce, hpts, hheld⟩ := h.tables (f := f) ht htab
    (fun g hg => by rw [hmaps, Multiset.count_cons_of_ne hg]) hothers List.mem_cons_self
  refine ⟨⟨hnodup, fun g hg => hheld.one g (List.mem_cons_of_mem f hg),
      fun g hg => hheld.apart g (List.mem_cons_of_mem f hg)⟩,
    fun g hg => hfresh g (List.mem_cons_of_mem f hg) (ne_of_mem_of_not_mem hg hf),
    fun g hg hgt hfree hu => ?_, hpts⟩
  by_cases hgf : g = f
  · subst hgf
    rw [hmaps, Multiset.count_cons_self, h.fresh g List.mem_cons_self]
  · exact honce g (fun hc => (List.mem_cons.mp hc).elim hgf hg) hgt hfree hu

theorem Placing.unmapped (h : Placing root b (f :: fs) s)
    (hm : s.mapIn root va ⟨f, flags⟩ = (false, u)) : Placing root b (f :: fs) u := by
  obtain ⟨N, htab, ht⟩ := @took_mapIn root va ⟨f, flags⟩ s
  have hmaps := @maps_mapIn_fail root ⟨f, flags⟩ s va (by rw [hm])
  have hothers := fun r hr => @pts_mapIn_of_ne root ⟨f, flags⟩ s va r hr
  rw [hm] at htab ht hmaps hothers
  obtain ⟨-, honce, hpts, hheld⟩ := h.tables (f := f) ht htab (fun g _ => by rw [hmaps]) hothers
    List.mem_cons_self
  exact ⟨hheld, fun g hg => by rw [hmaps]; exact h.fresh g hg, honce, hpts⟩

theorem Placing.protect (h : Placing root b fs s) (start stop : Nat) :
    Placing root b fs (s.protectPages root start stop flags) := by
  have hpt : (s.protectPages root start stop flags).pts root =
      protectRange start stop flags (s.pts root) := pts_setPt_self
  have hmaps : ((s.protectPages root start stop flags).pts root).maps = (s.pts root).maps := by
    rw [hpt, Pt.maps, Pt.maps, protectRange, cells_map, Multiset.map_map]
    refine congrArg (fun F => Multiset.map F (cells (s.pts root).leaf)) (funext fun x => ?_)
    simp only [Function.comp_apply]
    split <;> rfl
  have htab : ((s.protectPages root start stop flags).pts root).tables = (s.pts root).tables := by
    rw [hpt]
    rfl
  exact ⟨⟨h.held.nodup, h.held.one, fun g hg => by rw [htab]; exact h.held.apart g hg⟩,
    fun g hg => by rw [hmaps]; exact h.fresh g hg,
    fun g hg hgt hfree hu => by
      rw [hmaps]
      rw [htab] at hgt
      exact h.once g hg hgt hfree hu,
    fun r hr => (pts_setPt_of_ne hr).trans (h.others r hr)⟩

/-- **The pages behind the first** are mapped, or their frames given back. -/
theorem placePages_rest : ∀ {fs : List Nat} {i : Nat} {s : Mm}, 0 < i → Placing root b fs s →
    Neat root b (placePages root page v cur i fs s) := by
  intro fs
  induction fs with
  | nil => exact fun _ h => ⟨fun g hg => h.once g List.not_mem_nil hg, h.others⟩
  | cons f fs ih =>
      intro i s hi h
      rw [placePages]
      simp only
      by_cases hc : page + i * PAGE < cur.stop ∧ cur.ino = v.ino ∧
          (s.pts root).isMapped (page + i * PAGE) = false
      · rw [if_pos hc]
        rcases hm : s.mapIn root (page + i * PAGE) ⟨f, .userProt cur.prot⟩ with ⟨- | -, u⟩
        · simp only
          rw [if_neg (Nat.ne_of_gt hi)]
          exact ih (Nat.succ_pos i) (h.unmapped hm).give
        · exact ih (Nat.succ_pos i) (h.mapped (Pt.isMapped_eq_false.mp hc.2.2) hm)
      · rw [if_neg hc, if_neg (Nat.ne_of_gt hi)]
        exact ih (Nat.succ_pos i) h.give

theorem neat_only (h : s.Held root [f]) (hm : s.mapIn root va ⟨f, flags⟩ = (false, u)) :
    Same root (s.setFrames (s.frames.freeAll [f])) (u.setFrames (u.frames.freeFrame f)) := by
  obtain ⟨N, htab, ht⟩ := @took_mapIn root va ⟨f, flags⟩ s
  rw [hm] at htab ht
  obtain ⟨hown, hused, hone⟩ := h.one f List.mem_cons_self
  obtain ⟨hown', hused', hone'⟩ := (h.took ht fun g hg => Multiset.mem_add.mp (htab ▸ hg)).one f
    List.mem_cons_self
  obtain ⟨hself, hself', hother⟩ := freeFrame_one hown hused hone
  obtain ⟨hselfu, hselfu', hotheru⟩ := freeFrame_one hown' hused' hone'
  intro g hg
  change (u.frames.freeFrame f).used g = (s.frames.freeFrame f).used g ∧
    (u.frames.freeFrame f).refs g = (s.frames.freeFrame f).refs g
  by_cases hgf : g = f
  · subst hgf
    exact ⟨hselfu.trans hself.symm, hselfu'.trans hself'.symm⟩
  · obtain ⟨hu, hr⟩ := ht.same g fun hin => hg (by
      change g ∈ (u.pts root).tables
      rw [htab]
      exact Multiset.mem_add.mpr (.inl hin))
    obtain ⟨hu₁, hr₁⟩ := hother g hgf
    obtain ⟨hu₂, hr₂⟩ := hotheru g hgf
    exact ⟨hu₂.trans (hu.trans hu₁.symm), hr₂.trans (hr.trans hr₁.symm)⟩

/-- **The pages that were read** leave no frame behind, if the first is mapped where it is to be or
it is the only one. -/
theorem neat_faultEnd {addr : Nat} (h : s.Held c.root fs) :
    Neat c.root (s.setFrames (s.frames.freeAll fs)) (s.faultEnd c addr v fs) ↔
      s.FitsFile c addr v fs := by
  unfold faultEnd FitsFile
  cases hfind : find (s.spaces c.slot).vmas addr with
  | none =>
      exact iff_of_true (Same.refl c.root _) fun _ cur hcur => absurd hcur (Option.not_mem_none cur)
  | some cur =>
      simp only
      cases fs with
      | nil =>
          refine iff_of_true ?_ fun hle => absurd hle (by simp)
          exact ⟨fun g hg => h.placing.once g List.not_mem_nil hg, h.placing.others⟩
      | cons f fs =>
          rw [placePages]
          simp only [Nat.zero_mul, Nat.add_zero]
          by_cases hc : pageOf addr < cur.stop ∧ cur.ino = v.ino ∧
              (s.pts c.root).isMapped (pageOf addr) = false
          · rw [if_pos hc]
            have hiff := @mapIn_iff c.root (pageOf addr) ⟨f, .userProt cur.prot⟩ s
            rcases hm : s.mapIn c.root (pageOf addr) ⟨f, .userProt cur.prot⟩ with ⟨- | -, u⟩ <;>
              rw [hm] at hiff
            · simp only [if_true]
              have hlost := (h.placing.unmapped hm).give
              cases fs with
              | nil =>
                  refine iff_of_true (neat_only h hm) fun hle => absurd hle (by simp)
              | cons g fs =>
                  refine iff_of_false (fun hc => ?_) fun hfit => ?_
                  · obtain ⟨-, hused, -⟩ := hlost.held.one g List.mem_cons_self
                    have hfree := ((freeAll_one h.nodup h.one).1 g
                      (List.mem_cons_of_mem f List.mem_cons_self)).1
                    have hsame := (hc g (hlost.held.apart g List.mem_cons_self)).1
                    exact Bool.noConfusion (hused.symm.trans (hsame.trans hfree))
                  · have hle : 2 ≤ (f :: g :: fs).length := by simp
                    have hreach := hfit hle cur rfl hc.1 hc.2.1 hc.2.2
                    exact Bool.noConfusion (hiff.mpr hreach)
            · refine iff_of_true (placePages_rest (Nat.succ_pos 0)
                (h.placing.mapped (Pt.isMapped_eq_false.mp hc.2.2) hm)) fun _ cur' hcur _ _ _ => ?_
              exact hiff.mp rfl
          · rw [if_neg hc]
            refine iff_of_true (placePages_rest (Nat.succ_pos 0) (h.placing.give.protect _ _))
              fun _ cur' hcur h₁ h₂ h₃ => ?_
            obtain rfl := Option.some.inj hcur
            exact absurd ⟨h₁, h₂, h₃⟩ hc

/-- **A fault up to the reading of a file** is neat but for a page of an object that is made and not
mapped. -/
theorem neat_faultBegin {addr : Nat} {access : Access} (h : s.Settled c.root) :
    (∀ ok t, s.faultBegin (some c) addr access = (.done ok, t) →
      (Neat c.root s (ok, t) ↔ s.FitsObject c addr access)) ∧
    ∀ v n t, s.faultBegin (some c) addr access = (.file v n, t) →
      t = s ∧ s.FitsObject c addr access := by
  unfold faultBegin FitsObject
  simp only
  -- an answer that is `r`, in the case that the branch is
  have hdone : ∀ {r : Bool × Mm} {P : Prop}, (Neat c.root s r ↔ P) →
      (∀ ok t, ((Begun.done r.1, r.2) : Begun × Mm) = (.done ok, t) →
        (Neat c.root s (ok, t) ↔ P)) ∧
      ∀ v n t, ((Begun.done r.1, r.2) : Begun × Mm) = (.file v n, t) → t = s ∧ P := by
    intro r P hiff
    refine ⟨fun ok t hd => ?_, fun v n t hd => absurd (Prod.mk.inj hd).1 nofun⟩
    obtain ⟨hok, rfl⟩ := Prod.mk.inj hd
    obtain rfl := Begun.done.inj hok
    exact hiff
  cases hfind : find (s.spaces c.slot).vmas addr with
  | none =>
      exact hdone (r := (false, s)) (iff_of_true (Same.refl c.root s)
        fun v hv => absurd hv (Option.not_mem_none v))
  | some v =>
      simp only
      split_ifs with hprot hmap hobj hout hino
      · refine hdone (r := (false, s)) (iff_of_true (Same.refl c.root s) fun w hw hp => ?_)
        obtain rfl := Option.some.inj hw
        exact Bool.noConfusion (hprot.symm.trans hp)
      · refine hdone (iff_of_true (neat_faultMapped h) fun w _ _ hnot => ?_)
        exact Bool.noConfusion (hmap.symm.trans hnot)
      · have hnew := Pt.isMapped_eq_false.mp (Bool.eq_false_of_not_eq_true hmap)
        refine hdone ((neat_faultShared h hnew).trans ⟨fun hfit w hw _ _ _ hmake => ?_,
          fun hfit hmake => ?_⟩)
        · obtain rfl := Option.some.inj hw
          exact hfit hmake
        · exact hfit v rfl (Bool.eq_true_of_not_eq_false hprot) (Bool.eq_false_of_not_eq_true hmap)
            hobj hmake
      · refine hdone (r := (false, s)) (iff_of_true (Same.refl c.root s) fun w hw _ _ ho => ?_)
        obtain rfl := Option.some.inj hw
        exact absurd ho hobj
      · have hnew := Pt.isMapped_eq_false.mp (Bool.eq_false_of_not_eq_true hmap)
        refine hdone (iff_of_true (neat_mapZeroed h hnew) fun w hw _ _ ho => ?_)
        obtain rfl := Option.some.inj hw
        exact absurd ho hobj
      · refine ⟨fun ok t hd => absurd (Prod.mk.inj hd).1 nofun, fun w n t hd => ?_⟩
        obtain ⟨-, rfl⟩ := Prod.mk.inj hd
        refine ⟨rfl, fun w hw _ _ ho => ?_⟩
        obtain rfl := Option.some.inj hw
        exact absurd ho hobj

/-- **A fault is neat** where no frame is left over, and only there. -/
theorem fault_neat {file : Nat → Nat → Option Bytes} {addr : Nat} {access : Access}
    {others : Mm → Mm} (h : s.Settled c.root)
    (hothers : ∀ fs t, t.Settled c.root → t.Held c.root fs →
      (others t).Settled c.root ∧ (others t).Held c.root fs) :
    s.faultWith file none addr access others = (false, s) ∧
    (others = id → Same c.root s (s.faultBase file (some c) addr access others)) ∧
    (Neat c.root (s.faultBase file (some c) addr access others)
      (s.faultWith file (some c) addr access others) ↔ s.Fits file c addr access others) := by
  obtain ⟨hdone, hfile⟩ := @neat_faultBegin _ _ addr access h
  refine ⟨rfl, ?_⟩
  unfold faultBase faultWith Fits
  rcases hb : s.faultBegin (some c) addr access with ⟨ok | ⟨v, n⟩, t⟩
  · refine ⟨fun _ => Same.refl c.root s, (hdone ok t hb).trans ⟨fun hfit => ⟨hfit, ?_⟩, (·.1)⟩⟩
    exact fun v n t fs u hc => absurd (Prod.mk.inj hc).1 nofun
  · obtain ⟨rfl, hobj⟩ := hfile v n t hb
    obtain ⟨hnone, hsome⟩ := @faultRead_held n _ _ (pageOf addr) v file h
    simp only
    rcases hr : t.faultRead file (pageOf addr) v n with ⟨- | fs, u⟩
    · simp only
      refine ⟨fun _ => Same.refl c.root t, iff_of_true (hnone u hr) ⟨hobj, ?_⟩⟩
      intro v' n' t' fs' u' hc hr'
      obtain ⟨hv, rfl⟩ := Prod.mk.inj hc
      obtain ⟨rfl, rfl⟩ := Begun.file.inj hv
      exact absurd (Prod.mk.inj (hr.symm.trans hr')).1 nofun
    · obtain ⟨hset, hheld, hsame⟩ := hsome fs u hr
      obtain ⟨-, hheld'⟩ := hothers fs u hset hheld
      simp only
      refine ⟨fun hid => by subst hid; exact hsame, (neat_faultEnd hheld').trans
        ⟨fun hfit => ⟨hobj, ?_⟩, fun hfit => hfit.2 v n t fs u rfl hr⟩⟩
      intro v' n' t' fs' u' hc hr'
      obtain ⟨hv, rfl⟩ := Prod.mk.inj hc
      obtain ⟨rfl, rfl⟩ := Begun.file.inj hv
      obtain ⟨hfs, rfl⟩ := Prod.mk.inj (hr.symm.trans hr')
      obtain rfl := Option.some.inj hfs
      exact hfit

/-- Two pages of a file of inode 7 are mapped, on a machine with `n` frames. -/
def mapsFile (n : Nat) : Mm :=
  ((Request.mmap MMAP_BASE 8192 1 256 0 7 0).run ⟨1, 0⟩ (.boot (.boot n fun _ => false))).2

/-- The file of zeros. -/
def zeros : Nat → Nat → Option Bytes := fun _ _ => some zeroPage

theorem settled_mapsFile {n : Nat} (hn : n = 8 ∨ n = 16) : (mapsFile n).Settled 0 := by
  have hres : (mapsFile n).frames.reserved = fun _ => false := by
    obtain rfl | rfl := hn <;> with_unfolding_all rfl
  have hlen : (mapsFile n).frames.n = n := by
    obtain rfl | rfl := hn <;> with_unfolding_all rfl
  have hfree : ∀ f < n, (mapsFile n).frames.isFree f = true → (mapsFile n).frames.refs f = 0 := by
    obtain rfl | rfl := hn <;> decide +kernel
  have htab : ((mapsFile n).pts 0).tables = 0 := by
    obtain rfl | rfl := hn <;> decide +kernel
  refine ⟨fun f hf => ?_, fun f hf => hfree f ?_ hf, fun f hf => ?_⟩
  · rw [hres] at hf
    exact Bool.noConfusion hf
  · simp only [Frames.isFree, hlen, Bool.and_eq_true, decide_eq_true_eq] at hf
    exact hf.1
  · rw [htab] at hf
    exact absurd hf (Multiset.notMem_zero f)

/-- A file that is mapped where there are frames for the tables. -/
theorem fault_neat_maps :
    ((mapsFile 16).fault zeros (some ⟨1, 0⟩) MMAP_BASE .read).1 = true ∧
    (Neat 0 ((mapsFile 16).faultBase zeros (some ⟨1, 0⟩) MMAP_BASE .read id)
      ((mapsFile 16).faultWith zeros (some ⟨1, 0⟩) MMAP_BASE .read id) ↔
        (mapsFile 16).Fits zeros ⟨1, 0⟩ MMAP_BASE .read id) := by
  refine ⟨by decide +kernel, ?_⟩
  exact (fault_neat (c := ⟨1, 0⟩) (settled_mapsFile (.inr rfl)) fun _ _ hs hh => ⟨hs, hh⟩).2.2

/-- **The second frame stays in use**: four frames are left, of which two are taken for the pages
and two for the tables, and a third table is needed. -/
theorem fault_leaks : (mapsFile 8).Settled 0 ∧
    ((mapsFile 8).fault zeros (some ⟨1, 0⟩) MMAP_BASE .read).1 = false ∧
    (mapsFile 8).frames.isFree 5 = true ∧
    ((mapsFile 8).fault zeros (some ⟨1, 0⟩) MMAP_BASE .read).2.frames.used 5 = true ∧
    ¬ Neat 0 (mapsFile 8) ((mapsFile 8).fault zeros (some ⟨1, 0⟩) MMAP_BASE .read) := by
  have hfree : (mapsFile 8).frames.isFree 5 = true ∧ (mapsFile 8).frames.used 5 = false := by
    decide +kernel
  have hused : ((mapsFile 8).fault zeros (some ⟨1, 0⟩) MMAP_BASE .read).1 = false ∧
      ((mapsFile 8).fault zeros (some ⟨1, 0⟩) MMAP_BASE .read).2.frames.used 5 = true := by
    decide +kernel
  have hnot : 5 ∉ (((mapsFile 8).fault zeros (some ⟨1, 0⟩) MMAP_BASE .read).2.pts 0).tables := by
    decide +kernel
  refine ⟨settled_mapsFile (.inl rfl), hused.1, hfree.1, hused.2, fun hneat => ?_⟩
  rw [Neat, hused.1] at hneat
  have hsame := (hneat 5 hnot).1
  rw [hused.2, hfree.2] at hsame
  exact Bool.noConfusion hsame

end Mm

end Pulsar.Vm

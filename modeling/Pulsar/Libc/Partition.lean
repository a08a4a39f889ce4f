import Pulsar.Lib.Count
import Pulsar.Libc.Blocks

/-!
# How the allocator shares out its memory

`Parts` says what the memory obtained from `sbrk` is used for: live blocks, large free blocks, small
ones in the bins of their sizes, the arena, and what was left of arenas before.  `Inv h P held` is
the invariant: the headers of heap `h` show `P`, and every byte obtained is in one part of `P`, or
in `held`, which is on its way from one part to another.
-/

namespace Pulsar.Libc

open Cover Heap

/-- The number of classes of small blocks. -/
def NCLASS : Nat := SMALL_MAX / 16

/-- A block in use: its header, its size, and how many bytes were asked for. -/
structure Live where
  addr : Nat
  size : Nat
  req : Nat

def Live.span (b : Live) : Span := (b.addr, b.size)

/-- What the caller has: a pointer, and the bytes it asked for. -/
def Live.user (b : Live) : Nat × Nat := (b.addr + HDR, b.req)

structure Parts where
  live : List Live
  large : List Span
  bins : Nat → List Nat
  arena : Span
  tails : List Span

/-- The blocks in the bin of class `k`. -/
def binned (bins : Nat → List Nat) (k : Nat) : List Span := (bins k).map fun a => (a, 16 * k)

/-- The blocks in all bins. -/
def smalls (bins : Nat → List Nat) : List Span := (List.range (NCLASS + 1)).flatMap (binned bins)

def Parts.all (P : Parts) : List Span :=
  P.live.map Live.span ++ (P.large ++ (smalls P.bins ++ ([P.arena] ++ P.tails)))

/-- What `sbrk` has answered: aligned ranges of user memory that are apart. -/
def Supplied (obtained : List Span) : Prop :=
  (∀ r ∈ obtained, r.1 % 16 = 0 ∧ r.2 % 16 = 0 ∧ 0 < r.1 ∧ r.1 + r.2 ≤ 2 ^ 63) ∧
    ∀ x, cover obtained x ≤ 1

/-- The parts of the memory of a heap. -/
structure Inv (h : Heap) (P : Parts) (held : List Span) : Prop where
  list : Seg h h.freeList P.large 0
  bins : ∀ k, Seg h (h.bins k) (binned P.bins k) 0
  live : ∀ b ∈ P.live, h.size b.addr = b.size
  arena : h.arenaCur = P.arena.1 ∧ h.arenaEnd = P.arena.1 + P.arena.2
  cover : ∀ x, cover held x + cover P.all x = cover h.obtained x
  supplied : Supplied h.obtained
  spaced : Spaced P.large
  large : ∀ r ∈ P.large, Large r
  classes : ∀ k, P.bins k ≠ [] → 2 ≤ k ∧ k ≤ NCLASS
  aligned : ∀ r ∈ P.all, r.1 % 16 = 0 ∧ r.2 % 16 = 0
  room : ∀ b ∈ P.live, 32 ≤ b.size ∧ HDR + b.req ≤ b.size
  short : ∀ r ∈ P.tails, r.2 < 32

/-- The blocks in use are left alone. -/
def Quiet (live : List Live) (h h' : Heap) : Prop :=
  ∀ b ∈ live, ∀ x, Has b.span x → h'.mem x = h.mem x

variable {h h' : Heap} {P : Parts} {held held' : List Span} {r : Span} {b k n need s x : Nat}

/-! ### Bins -/

theorem cover_smalls (bins : Nat → List Nat) (x : Nat) :
    cover (smalls bins) x = ∑ k ∈ Finset.range (NCLASS + 1), cover (binned bins k) x := by
  rw [← sum_map_range]
  exact List.countP_flatMap

theorem cover_smalls_update (bins : Nat → List Nat) (hk : k ≤ NCLASS) (l : List Nat) (x : Nat) :
    cover (smalls (Function.update bins k l)) x + cover (binned bins k) x =
      cover (smalls bins) x + cover (l.map fun a => (a, 16 * k)) x := by
  rw [cover_smalls, cover_smalls, sum_range_change (Nat.lt_succ_of_le hk)
    (f := fun k => cover (binned bins k) x) fun j hj => by simp [binned, hj]]
  simp [binned]

theorem mem_smalls {bins : Nat → List Nat} (hc : ∀ k, bins k ≠ [] → 2 ≤ k ∧ k ≤ NCLASS) :
    r ∈ smalls bins ↔ ∃ k, r ∈ binned bins k := by
  refine List.mem_flatMap.trans ⟨fun ⟨k, _, hr⟩ => ⟨k, hr⟩, fun ⟨k, hr⟩ => ⟨k, ?_, hr⟩⟩
  have hne : bins k ≠ [] := fun he => by simp [binned, he] at hr
  exact List.mem_range.mpr (Nat.lt_succ_of_le (hc k hne).2)

/-! ### What the invariant says -/

theorem cover_all (P : Parts) (x : Nat) : cover P.all x =
    cover (P.live.map Live.span) x + (cover P.large x + (cover (smalls P.bins) x +
      (cover [P.arena] x + cover P.tails x))) := by
  simp only [Parts.all, cover_append]

theorem mem_all : r ∈ P.all ↔ r ∈ P.live.map Live.span ∨ r ∈ P.large ∨ r ∈ smalls P.bins ∨
    r = P.arena ∨ r ∈ P.tails := by
  simp only [Parts.all, List.mem_append, List.mem_singleton]

namespace Inv

theorem once (hI : Inv h P held) (x : Nat) : Cover.cover held x + Cover.cover P.all x ≤ 1 :=
  (hI.cover x).trans_le (hI.supplied.2 x)

theorem inside (hI : Inv h P held) (hr : r ∈ held ++ P.all) (hpos : 0 < r.2) :
    0 < r.1 ∧ r.1 + r.2 ≤ 2 ^ 63 := by
  have hhas : ∀ x, Has r x → ∃ o ∈ h.obtained, Has o x := fun x hx => by
    refine exists_of_cover ?_
    rw [← hI.cover x, ← cover_append]
    exact cover_pos hr hx
  obtain ⟨o, ho, hlo⟩ := hhas r.1 ⟨Nat.le_refl _, Nat.lt_add_of_pos_right hpos⟩
  obtain ⟨o', ho', hhi⟩ := hhas (r.1 + r.2 - 1) ⟨by omega, by omega⟩
  have := hI.supplied.1 o ho
  have := hI.supplied.1 o' ho'
  unfold Has at hlo hhi
  omega

/-- A change elsewhere leaves the header of a block. -/
theorem sameAt {rs ss : List Span} (hw : Within rs h h')
    (hd : ∀ x, Cover.cover rs x + Cover.cover ss x ≤ 1) (hr : r ∈ ss) (h16 : 16 ≤ r.2) :
    SameAt r.1 h h' := fun x hx => by
  refine hw.mem x ?_
  have := cover_pos hr (x := x) ⟨hx.1, Nat.lt_of_lt_of_le hx.2 (Nat.add_le_add_left h16 _)⟩
  have := hd x
  omega

theorem binned_header (hI : Inv h P held) (hr : r ∈ binned P.bins k) : 32 ≤ r.2 := by
  have hne : P.bins k ≠ [] := fun he => by simp [binned, he] at hr
  obtain ⟨a, -, rfl⟩ := List.mem_map.mp hr
  have := hI.classes k hne
  dsimp only
  omega

/-- Memory changes in what is held and in the list of large blocks only. -/
theorem relist {rs : List Span} {l : List Span} (hI : Inv h P held) (hw : Within rs h h')
    (hrs : ∀ x, Cover.cover rs x ≤ Cover.cover held x + Cover.cover P.large x)
    (hseg : Seg h' h'.freeList l 0) (hsp : Spaced l) (hg : ∀ r ∈ l, Large r)
    (hcover : ∀ x, Cover.cover held' x + Cover.cover l x =
      Cover.cover held x + Cover.cover P.large x) :
    Inv h' { P with large := l } held' ∧ Quiet P.live h h' := by
  have hlive : ∀ x, Cover.cover rs x + Cover.cover (P.live.map Live.span) x ≤ 1 := fun x => by
    have := hI.once x
    have := hrs x
    have := cover_all P x
    omega
  have hsmall : ∀ x, Cover.cover rs x + Cover.cover (smalls P.bins) x ≤ 1 := fun x => by
    have := hI.once x
    have := hrs x
    have := cover_all P x
    omega
  refine ⟨{
    list := hseg
    bins := fun k => ?_
    live := fun b hb => ?_
    arena := by rw [hw.cur, hw.last]; exact hI.arena
    cover := fun x => ?_
    supplied := hw.obtained ▸ hI.supplied
    spaced := hsp
    large := hg
    classes := hI.classes
    aligned := fun r hr => ?_
    room := hI.room
    short := hI.short }, fun b hb x hx => ?_⟩
  · rw [hw.bins]
    refine (hI.bins k).congr fun r hr => sameAt hw hsmall ((mem_smalls hI.classes).mpr ⟨k, hr⟩) ?_
    have := hI.binned_header hr
    omega
  · have h16 : 16 ≤ b.span.2 := Nat.le_trans (by decide) (hI.room b hb).1
    exact (sameAt hw hlive (List.mem_map_of_mem hb) h16).size.trans (hI.live b hb)
  · have := hI.cover x
    have := hcover x
    have := cover_all P x
    rw [hw.obtained, cover_all]
    dsimp only
    omega
  · rcases mem_all.mp hr with hr | hr | hr
    · exact hI.aligned r (mem_all.mpr (.inl hr))
    · exact ⟨(hg r hr).start, (hg r hr).length⟩
    · exact hI.aligned r (mem_all.mpr (.inr (.inr hr)))
  · refine hw.mem x ?_
    have := cover_pos (List.mem_map_of_mem (f := Live.span) hb) hx
    have := hlive x
    omega

/-- Memory changes in what is held only. -/
theorem frame (hI : Inv h P held) (hw : Within held h h') (hf : h'.freeList = h.freeList) :
    Inv h' P held ∧ Quiet P.live h h' := by
  refine hI.relist hw (fun x => Nat.le_add_right _ _) ?_ hI.spaced hI.large fun _ => rfl
  rw [hf]
  have hd : ∀ x, Cover.cover held x + Cover.cover P.large x ≤ 1 := fun x => by
    have := hI.once x
    have := cover_all P x
    omega
  exact hI.list.congr fun r hr => sameAt hw hd hr (hI.large r hr).header

/-! ### The list of large blocks -/

theorem insert {b s : Nat} (hI : Inv h P [(b, s)]) (hb : Large (b, s)) (hs : h.size b = s) :
    ∃ h' l, h.insertFree b = some h' ∧ Inv h' { P with large := l } [] ∧ Quiet P.live h h' ∧
      ∀ x, Cover.cover l x = Cover.cover [(b, s)] x + Cover.cover P.large x := by
  have hpos : 0 < s := Nat.lt_of_lt_of_le (by decide) hb.header
  have hd : ∀ r ∈ P.large, r.1 + r.2 ≤ b ∨ b + s ≤ r.1 := fun r hr => by
    refine (apart_le (r := (b, s)) (fun x => ?_) (List.mem_singleton_self _) hr hpos
      (Nat.lt_of_lt_of_le (by decide) (hI.large r hr).header)).symm
    have := hI.once x
    have := cover_all P x
    omega
  obtain ⟨h', l, hrun, hseg, hsp, hg, hw, hcover⟩ :=
    insertFree_spec hI.list hI.spaced hI.large hb hs hd
  have hnow : ∀ x, Cover.cover [] x + Cover.cover l x =
      Cover.cover [(b, s)] x + Cover.cover P.large x := fun x => by
    rw [hcover, cover_nil, Nat.zero_add]
  obtain ⟨hI', hq⟩ := hI.relist hw (fun x => cover_cons.le) hseg hsp hg hnow
  exact ⟨h', l, hrun, hI', hq, hcover⟩

theorem take {b s : Nat} {pre suf : List Span} (hI : Inv h P []) (hl : P.large = pre ++ (b, s) :: suf)
    (hneed : need ≤ s) (hlarge : SMALL_MAX < need) (hmod : need % 16 = 0) :
    ∃ s' l, need ≤ s' ∧ Large (b, s') ∧ (h.take (lastOr pre 0) b need).size b = s' ∧
      Inv (h.take (lastOr pre 0) b need) { P with large := l } [(b, s')] ∧
      Quiet P.live h (h.take (lastOr pre 0) b need) := by
  obtain ⟨s', l, hs', hb, hsize, hseg, hsp, hg, hw, hcover⟩ := take_spec (hl ▸ hI.list)
    (hl ▸ hI.spaced) (hl ▸ hI.large) hneed hlarge hmod
  have hnow : ∀ x, Cover.cover [(b, s')] x + Cover.cover l x =
      Cover.cover [] x + Cover.cover P.large x := fun x => by
    rw [hl, hcover, cover_nil, Nat.zero_add]
  obtain ⟨hI', hq⟩ := hI.relist hw (fun x => by rw [hl, cover_nil, Nat.zero_add]) hseg hsp hg hnow
  exact ⟨s', l, hs', hb, hsize, hI', hq⟩

/-- `sbrk` answers. -/
theorem supply {o : Span} (hI : Inv h P []) (hf : Supplied (o :: h.obtained)) :
    Inv { h with obtained := o :: h.obtained } P [o] :=
  { hI with
    list := hI.list.congr fun _ _ _ _ => rfl
    bins := fun k => (hI.bins k).congr fun _ _ _ _ => rfl
    supplied := hf
    cover := fun x => by
      have := hI.cover x
      rw [cover_nil] at this
      refine Eq.trans ?_ cover_cons.symm
      omega }

/-- What `grow` asks for is enough. -/
theorem growSize_spec (hmod : need % 16 = 0) (hfit : need ≤ 2 ^ 41) :
    need ≤ growSize need ∧ MIN_GROW ≤ growSize need ∧ growSize need % 16 = 0 := by
  rw [growSize]
  split_ifs with h
  · exact ⟨Nat.le_of_lt h, Nat.le_refl _, by decide⟩
  · have : align16 need = need := by
      rw [align16, Nat.mod_eq_of_lt (by omega)]
      omega
    rw [this]
    exact ⟨Nat.le_refl _, Nat.le_of_not_lt h, hmod⟩

/-- `grow`: if it succeeds, a block in the list is large enough. -/
theorem grow {sbrk : Nat → Option Nat} (hI : Inv h P []) (hmod : need % 16 = 0)
    (hfit : need ≤ 2 ^ 41)
    (hf : ∀ n old, sbrk n = some old → Supplied ((old, n) :: h.obtained)) :
    ∃ ok h' l, h.grow sbrk need = some (ok, h') ∧ Inv h' { P with large := l } [] ∧
      Quiet P.live h h' ∧ (ok = true → ∃ r ∈ l, need ≤ r.2) := by
  obtain ⟨hneed, hmin, hmod'⟩ := growSize_spec hmod hfit
  rw [Heap.grow]
  cases hs : sbrk (growSize need) with
  | none => exact ⟨false, h, P.large, rfl, hI, fun _ _ _ _ => rfl, nofun⟩
  | some old =>
      have hsup := hf _ _ hs
      have ho := hsup.1 (old, growSize need) List.mem_cons_self
      simp only [MIN_GROW] at hmin
      have hw : Within [(old, growSize need)]
          { h with obtained := (old, growSize need) :: h.obtained }
          (setSize old (growSize need) { h with obtained := (old, growSize need) :: h.obtained }) :=
        setSize_within.mono fun x hx =>
          cover_header (r := (old, growSize need)) (by simp) (by dsimp only; omega) hx
      obtain ⟨hI₁, hq₁⟩ := (hI.supply hsup).frame hw rfl
      obtain ⟨h', l, hrun, hI', hq', hcover⟩ := hI₁.insert
        ⟨ho.1, hmod', by simp only [SMALL_MAX]; omega, ho.2.2.1, ho.2.2.2⟩
        (size_setSize (by dsimp only at ho; omega))
      refine ⟨true, h', l, by simp [hrun], hI', fun b hb x hx => ?_, fun _ => ?_⟩
      · exact (hq' b hb x hx).trans (hq₁ b hb x hx)
      · obtain ⟨r, hr, hle⟩ := hI'.spaced.contains (r := (old, growSize need))
          (by dsimp only; omega) fun x hx => by
            rw [hcover, cover_one, if_pos hx]
            omega
        exact ⟨r, hr, hneed.trans hle⟩

/-- **`large_alloc`** takes a block that is large enough, or fails when `sbrk` does. -/
theorem largeAlloc {sbrk : Nat → Nat → Option Nat} (hI : Inv h P []) (hlarge : SMALL_MAX < need)
    (hmod : need % 16 = 0) (hfit : need ≤ 2 ^ 41)
    (hf : ∀ i n old, sbrk i n = some old → Supplied ((old, n) :: h.obtained)) :
    ∃ b h' l, h.largeAlloc sbrk need 2 = some (b, h') ∧ Quiet P.live h h' ∧
      (b = 0 ∧ Inv h' { P with large := l } [] ∨
        ∃ s, need ≤ s ∧ Large (b, s) ∧ h'.size b = s ∧ Inv h' { P with large := l } [(b, s)]) := by
  have hpos : ∀ {l : List Span}, (∀ r ∈ l, Large r) → ∀ r ∈ l, r.1 ≠ 0 := fun hg r hr =>
    Nat.ne_of_gt (hg r hr).pos
  have hfind : ∀ {h : Heap} {P : Parts} {i : Nat}, Inv h P [] → (∃ r ∈ P.large, need ≤ r.2) →
      ∃ b h' l s, h.largeAlloc sbrk need (i + 1) = some (b, h') ∧ Quiet P.live h h' ∧ need ≤ s ∧
        Large (b, s) ∧ h'.size b = s ∧ Inv h' { P with large := l } [(b, s)] := by
    intro h P i hI hr
    rcases search_spec need hI.list (hpos hI.large) FUEL 0
      (hI.spaced.loose.short hI.large) with ⟨pre, ⟨b, s⟩, suf, hl, hle, hrun⟩ | ⟨hsmall, -⟩
    · obtain ⟨s', l, hs', hb, hsize, hI', hq⟩ := hI.take hl hle hlarge hmod
      have hb0 : b ≠ 0 := Nat.ne_of_gt hb.pos
      exact ⟨b, _, l, s', by simp [Heap.largeAlloc, hrun, hb0], hq, hs', hb, hsize, hI'⟩
    · obtain ⟨r, hr, hle⟩ := hr
      exact absurd (hsmall r hr) (Nat.not_lt.mpr hle)
  by_cases hr : ∃ r ∈ P.large, need ≤ r.2
  · obtain ⟨b, h', l, s, hrun, hq, hrest⟩ := hfind (i := 1) hI hr
    exact ⟨b, h', l, hrun, hq, .inr ⟨s, hrest⟩⟩
  · rcases search_spec need hI.list (hpos hI.large) FUEL 0
      (hI.spaced.loose.short hI.large) with ⟨pre, r, suf, hl, hle, -⟩ | ⟨-, hrun⟩
    · exact absurd ⟨r, by simp [hl], hle⟩ hr
    · obtain ⟨ok, h₁, l₁, hgrow, hI₁, hq₁, hok⟩ := hI.grow hmod hfit (hf 1)
      cases ok with
      | false => exact ⟨0, h₁, l₁, by simp [Heap.largeAlloc, hrun, hgrow], hq₁, .inl ⟨rfl, hI₁⟩⟩
      | true =>
          obtain ⟨b, h', l, s, hrun', hq', hrest⟩ := hfind (i := 0) hI₁ (hok rfl)
          refine ⟨b, h', l, ?_, fun c hc x hx => (hq' c hc x hx).trans (hq₁ c hc x hx),
            .inr ⟨s, hrest⟩⟩
          rw [Heap.largeAlloc, hrun]
          simpa [hgrow] using hrun'

/-! ### Small blocks, the arena and blocks in use -/

/-- A bin that is not empty leads to its first block. -/
theorem first {a : Nat} {l : List Nat} (hI : Inv h P held) (hk : P.bins k = a :: l) :
    h.bins k = a ∧ a ≠ 0 ∧ h.size a = 16 * k ∧ a % 16 = 0 := by
  obtain ⟨hk2, hkn⟩ := hI.classes k (by simp [hk])
  have hseg := hI.bins k
  have hmem : (a, 16 * k) ∈ P.all := by
    have : (a, 16 * k) ∈ smalls P.bins :=
      (mem_smalls hI.classes).mpr ⟨k, List.mem_map.mpr ⟨a, by simp [hk], rfl⟩⟩
    simp [Parts.all, this]
  have hpos := (hI.inside (List.mem_append_right held hmem) (by dsimp only; omega)).1
  rw [binned, hk] at hseg
  exact ⟨hseg.1, Nat.ne_of_gt hpos, hseg.2.1, (hI.aligned _ hmem).1⟩

/-- A bin that is empty leads nowhere. -/
theorem none (hI : Inv h P held) (hk : P.bins k = []) : h.bins k = 0 := by
  have hseg := hI.bins k
  rw [binned, hk] at hseg
  exact hseg

theorem pop {a : Nat} {l : List Nat} (hI : Inv h P []) (hk : P.bins k = a :: l) :
    Inv { h with bins := Function.update h.bins k (h.next a) }
      { P with bins := Function.update P.bins k l } [(a, 16 * k)] := by
  obtain ⟨hk2, hkn⟩ := hI.classes k (by simp [hk])
  refine { hI with
    list := hI.list.congr fun _ _ _ _ => rfl
    bins := fun j => ?_
    classes := fun j hj => ?_
    cover := fun x => ?_
    aligned := fun r hr => hI.aligned r ?_ }
  · by_cases he : j = k
    · subst he
      have hseg := hI.bins j
      rw [binned, hk] at hseg
      simp only [Function.update_self, binned]
      exact Seg.congr (h := h) hseg.2.2 fun _ _ _ _ => rfl
    · simp only [Function.update_of_ne he, binned]
      exact Seg.congr (h := h) (hI.bins j) fun _ _ _ _ => rfl
  · have := hI.cover x
    have := cover_all P x
    have hup := cover_smalls_update P.bins hkn l x
    have hone : Cover.cover (binned P.bins k) x =
        Cover.cover [(a, 16 * k)] x + Cover.cover (l.map fun a => (a, 16 * k)) x := by
      rw [binned, hk]
      exact cover_cons
    have hnil : Cover.cover [] x = 0 := cover_nil
    rw [cover_all]
    dsimp only
    omega
  · by_cases he : j = k
    · exact he ▸ ⟨hk2, hkn⟩
    · exact hI.classes j (by simpa [he] using hj)
  · have hsub : r ∈ smalls (Function.update P.bins k l) → r ∈ smalls P.bins := fun hr => by
      obtain ⟨j, hj, hr⟩ := List.mem_flatMap.mp hr
      refine List.mem_flatMap.mpr ⟨j, hj, ?_⟩
      by_cases he : j = k
      · subst he
        rw [binned, Function.update_self] at hr
        rw [binned, hk]
        exact List.mem_cons_of_mem _ hr
      · rwa [binned, Function.update_of_ne he] at hr
    rcases mem_all.mp hr with hr | hr | hr | hr
    · exact mem_all.mpr (.inl hr)
    · exact mem_all.mpr (.inr (.inl hr))
    · exact mem_all.mpr (.inr (.inr (.inl (hsub hr))))
    · exact mem_all.mpr (.inr (.inr (.inr hr)))

theorem push {a : Nat} (hI : Inv h P [(a, 16 * k)]) (hk2 : 2 ≤ k) (hkn : k ≤ NCLASS)
    (hs : h.size a = 16 * k) (ha : a % 16 = 0) :
    Inv (h.push a k) { P with bins := Function.update P.bins k (a :: P.bins k) } [] ∧
      Quiet P.live h (h.push a k) := by
  have hw : Within [(a, 16)] h (h.setNext a (h.bins k)) := setNext_within
  have hin := hI.inside (r := (a, 16 * k)) (by simp) (by dsimp only; omega)
  have hlt : h.bins k < 2 ^ 64 := by
    cases hb : P.bins k with
    | nil =>
        rw [hI.none hb]
        decide
    | cons c l =>
        have hmem : (c, 16 * k) ∈ P.all := by
          have : (c, 16 * k) ∈ smalls P.bins :=
            (mem_smalls hI.classes).mpr ⟨k, List.mem_map.mpr ⟨c, by simp [hb], rfl⟩⟩
          simp [Parts.all, this]
        have := (hI.inside (List.mem_append_right _ hmem) (by dsimp only; omega)).2
        rw [(hI.first hb).1]
        dsimp only at this
        omega
  obtain ⟨hI', hq⟩ := hI.frame (hw.mono fun x hx =>
    cover_header (r := (a, 16 * k)) (by simp) (by dsimp only; omega) hx) rfl
  refine ⟨{ hI' with
    list := hI'.list.congr fun _ _ _ _ => rfl
    bins := fun j => ?_
    classes := fun j hj => ?_
    cover := fun x => ?_
    aligned := fun r hr => ?_ }, hq⟩
  · by_cases he : j = k
    · subst he
      have hbin : binned (Function.update P.bins j (a :: P.bins j)) j =
          (a, 16 * j) :: binned P.bins j := by
        simp [binned]
      have hhead : (h.push a j).bins j = a := Function.update_self ..
      rw [hbin, hhead]
      refine ⟨rfl, size_setNext.trans hs, ?_⟩
      have hnext : (h.push a j).next a = h.bins j := next_setNext hlt
      rw [hnext]
      exact Seg.congr (h := h.setNext a (h.bins j)) (hI'.bins j) fun _ _ _ _ => rfl
    · simp only [Heap.push, Function.update_of_ne he, binned]
      exact (hI'.bins j).congr fun _ _ _ _ => rfl
  · have := hI'.cover x
    have := cover_all P x
    have hup := cover_smalls_update P.bins hkn (a :: P.bins k) x
    have hone : Cover.cover ((a :: P.bins k).map fun a => (a, 16 * k)) x =
        Cover.cover [(a, 16 * k)] x + Cover.cover (binned P.bins k) x := cover_cons
    rw [cover_all, cover_nil]
    dsimp only [Heap.push]
    omega
  · by_cases he : j = k
    · exact he ▸ ⟨hk2, hkn⟩
    · exact hI.classes j (by simpa [he] using hj)
  · have hcase : r ∈ smalls (Function.update P.bins k (a :: P.bins k)) →
        r = (a, 16 * k) ∨ r ∈ smalls P.bins := fun hr => by
      obtain ⟨j, hj, hr⟩ := List.mem_flatMap.mp hr
      by_cases he : j = k
      · subst he
        rw [binned, Function.update_self] at hr
        exact (List.mem_cons.mp hr).imp_right fun hr => List.mem_flatMap.mpr ⟨j, hj, hr⟩
      · rw [binned, Function.update_of_ne he] at hr
        exact .inr (List.mem_flatMap.mpr ⟨j, hj, hr⟩)
    rcases mem_all.mp hr with hr | hr | hr | hr
    · exact hI.aligned r (mem_all.mpr (.inl hr))
    · exact hI.aligned r (mem_all.mpr (.inr (.inl hr)))
    · rcases hcase hr with rfl | hr
      · exact ⟨ha, by dsimp only; omega⟩
      · exact hI.aligned r (mem_all.mpr (.inr (.inr (.inl hr))))
    · exact hI.aligned r (mem_all.mpr (.inr (.inr (.inr hr))))

/-- The first bytes of the arena are taken. -/
theorem cut (hI : Inv h P []) (hn : n ≤ P.arena.2) (hmod : n % 16 = 0) :
    Inv { h with arenaCur := h.arenaCur + n } { P with arena := (P.arena.1 + n, P.arena.2 - n) }
      [(P.arena.1, n)] := by
  have ha := hI.aligned P.arena (mem_all.mpr (.inr (.inr (.inr (.inl rfl)))))
  refine { hI with
    list := hI.list.congr fun _ _ _ _ => rfl
    bins := fun k => (hI.bins k).congr fun _ _ _ _ => rfl
    arena := ⟨by rw [hI.arena.1], by rw [hI.arena.2]; dsimp only; omega⟩
    cover := fun x => ?_
    aligned := fun r hr => ?_ }
  · have := hI.cover x
    have := cover_all P x
    have hnil : Cover.cover [] x = 0 := cover_nil
    have hjoin := cover_join (a := P.arena.1) (s := n) (t := P.arena.2 - n) (x := x)
    rw [Nat.add_sub_cancel' hn, Prod.mk.eta] at hjoin
    rw [cover_all]
    dsimp only
    omega
  · rcases mem_all.mp hr with hr | hr | hr | rfl | hr
    · exact hI.aligned r (mem_all.mpr (.inl hr))
    · exact hI.aligned r (mem_all.mpr (.inr (.inl hr)))
    · exact hI.aligned r (mem_all.mpr (.inr (.inr (.inl hr))))
    · dsimp only
      omega
    · exact hI.aligned r (mem_all.mpr (.inr (.inr (.inr (.inr hr)))))

/-- A block is the new arena, and what is left of the old one is given up. -/
theorem arena_of {a s : Nat} (hI : Inv h P [(a, s)]) (hs : P.arena.2 < 32) (ha : a % 16 = 0)
    (hs' : s % 16 = 0) : Inv { h with arenaCur := a, arenaEnd := a + s }
      { P with arena := (a, s), tails := P.arena :: P.tails } [] := by
  refine { hI with
    list := hI.list.congr fun _ _ _ _ => rfl
    bins := fun k => (hI.bins k).congr fun _ _ _ _ => rfl
    arena := ⟨rfl, rfl⟩
    cover := fun x => ?_
    aligned := fun r hr => ?_
    short := fun r hr => ?_ }
  · have := hI.cover x
    have := cover_all P x
    have htail : Cover.cover (P.arena :: P.tails) x =
        Cover.cover [P.arena] x + Cover.cover P.tails x := cover_cons
    rw [cover_all, cover_nil]
    dsimp only
    omega
  · rcases mem_all.mp hr with hr | hr | hr | rfl | hr
    · exact hI.aligned r (mem_all.mpr (.inl hr))
    · exact hI.aligned r (mem_all.mpr (.inr (.inl hr)))
    · exact hI.aligned r (mem_all.mpr (.inr (.inr (.inl hr))))
    · exact ⟨ha, hs'⟩
    · rcases List.mem_cons.mp hr with rfl | hr
      · exact hI.aligned _ (mem_all.mpr (.inr (.inr (.inr (.inl rfl)))))
      · exact hI.aligned r (mem_all.mpr (.inr (.inr (.inr (.inr hr)))))
  · rcases List.mem_cons.mp hr with rfl | hr
    · exact hs
    · exact hI.short r hr

theorem claim {c : Live} (hI : Inv h P [c.span]) (hs : h.size c.addr = c.size)
    (hroom : 32 ≤ c.size ∧ HDR + c.req ≤ c.size) (ha : c.addr % 16 = 0 ∧ c.size % 16 = 0) :
    Inv h { P with live := c :: P.live } [] := by
  refine { hI with
    live := fun b hb => ?_
    cover := fun x => ?_
    aligned := fun r hr => ?_
    room := fun b hb => ?_ }
  · rcases List.mem_cons.mp hb with rfl | hb
    · exact hs
    · exact hI.live b hb
  · have := hI.cover x
    have := cover_all P x
    have hlive : Cover.cover ((c :: P.live).map Live.span) x =
        Cover.cover [c.span] x + Cover.cover (P.live.map Live.span) x := cover_cons
    rw [cover_all, cover_nil]
    dsimp only
    omega
  · rcases mem_all.mp hr with hr | hr
    · rcases List.mem_cons.mp hr with rfl | hr
      · exact ha
      · exact hI.aligned r (mem_all.mpr (.inl hr))
    · exact hI.aligned r (mem_all.mpr (.inr hr))
  · rcases List.mem_cons.mp hb with rfl | hb
    · exact hroom
    · exact hI.room b hb

theorem release {c : Live} {ls ms : List Live} (hI : Inv h P []) (hl : P.live = ls ++ c :: ms) :
    Inv h { P with live := ls ++ ms } [c.span] := by
  have hsub : ∀ {b}, b ∈ ls ++ ms → b ∈ P.live := fun hb => by
    rw [hl]
    rcases List.mem_append.mp hb with hb | hb <;> simp [hb]
  refine { hI with
    live := fun b hb => hI.live b (hsub hb)
    cover := fun x => ?_
    aligned := fun r hr => ?_
    room := fun b hb => hI.room b (hsub hb) }
  · have hcov := hI.cover x
    have hcons : Cover.cover (c.span :: ms.map Live.span) x =
        Cover.cover [c.span] x + Cover.cover (ms.map Live.span) x := cover_cons
    rw [cover_all, hl, List.map_append, List.map_cons, cover_append, hcons, cover_nil] at hcov
    rw [cover_all, List.map_append, cover_append]
    dsimp only
    omega
  · rcases mem_all.mp hr with hr | hr
    · obtain ⟨b, hb, rfl⟩ := List.mem_map.mp hr
      exact hI.aligned _ (mem_all.mpr (.inl (List.mem_map_of_mem (hsub hb))))
    · exact hI.aligned r (mem_all.mpr (.inr hr))

end Inv

end Pulsar.Libc

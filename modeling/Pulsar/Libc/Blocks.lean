import Mathlib.Data.Finset.Card
import Pulsar.Libc.Malloc

/-!
# Lists of blocks

`Seg h p l q`: from `p` on, headers lead through the blocks `l` to `q`.  The list of large blocks is
`Spaced`: its blocks are in the order of their addresses, and no two of them touch.

* `insertFree_spec`: a block goes into the list, and is joined with those it touches.
* `take_spec`: a block, or its first part, leaves the list.
-/

namespace Pulsar.Libc

open Cover

variable {h h' : Heap} {b c n p q s t need : Nat} {l m pre suf : List Span} {r : Span}

/-! ### Headers -/

namespace Heap

/-- Memory is changed in the spans `rs` only, and no variable but the list of large blocks. -/
structure Within (rs : List Span) (h h' : Heap) : Prop where
  mem : ∀ x, cover rs x = 0 → h'.mem x = h.mem x
  bins : h'.bins = h.bins
  cur : h'.arenaCur = h.arenaCur
  last : h'.arenaEnd = h.arenaEnd
  obtained : h'.obtained = h.obtained

theorem Within.refl (rs : List Span) (h : Heap) : Within rs h h :=
  ⟨fun _ _ => rfl, rfl, rfl, rfl, rfl⟩

theorem Within.trans {h'' : Heap} {rs : List Span} (h₁ : Within rs h h') (h₂ : Within rs h' h'') :
    Within rs h h'' :=
  ⟨fun x hx => (h₂.mem x hx).trans (h₁.mem x hx), h₂.bins.trans h₁.bins, h₂.cur.trans h₁.cur,
    h₂.last.trans h₁.last, h₂.obtained.trans h₁.obtained⟩

theorem Within.mono {rs ss : List Span} (hw : Within rs h h')
    (hs : ∀ x, cover ss x = 0 → cover rs x = 0) : Within ss h h' :=
  ⟨fun x hx => hw.mem x (hs x hx), hw.bins, hw.cur, hw.last, hw.obtained⟩

theorem setSize_within : Within [(b, 16)] h (h.setSize b n) := by
  refine ⟨fun x hx => lePut_outside ?_, rfl, rfl, rfl, rfl⟩
  rw [cover_one] at hx
  have : ¬ Has (b, 16) x := fun hh => by simp [hh] at hx
  unfold Has at this
  omega

theorem setNext_within : Within [(b, 16)] h (h.setNext b n) := by
  refine ⟨fun x hx => lePut_outside ?_, rfl, rfl, rfl, rfl⟩
  rw [cover_one] at hx
  have : ¬ Has (b, 16) x := fun hh => by simp [hh] at hx
  unfold Has at this
  omega

/-- The bytes of a header are the same. -/
def SameAt (b : Nat) (h h' : Heap) : Prop := ∀ x, Has (b, 16) x → h'.mem x = h.mem x

theorem SameAt.size (hs : SameAt b h h') : h'.size b = h.size b :=
  leGet_congr fun k hk => hs _ (by unfold Has; omega)

theorem SameAt.next (hs : SameAt b h h') : h'.next b = h.next b :=
  leGet_congr fun k hk => hs _ (by unfold Has; omega)

/-- A header apart from what changes. -/
theorem Within.sameAt {rs : List Span} (hw : Within rs h h')
    (hd : ∀ r ∈ rs, r.1 + r.2 ≤ b ∨ b + 16 ≤ r.1) : SameAt b h h' := fun x hx => by
  refine hw.mem x (Nat.eq_zero_of_not_pos fun hpos => ?_)
  obtain ⟨r, hr, hrx⟩ := exists_of_cover hpos
  have := hd r hr
  unfold Has at hx hrx
  omega

theorem size_setSize (hn : n < 2 ^ 64) : (h.setSize b n).size b = n := by
  rw [size, setSize, leGet_lePut, Nat.mod_eq_of_lt (by omega)]

theorem next_setNext (hn : n < 2 ^ 64) : (h.setNext b n).next b = n := by
  rw [next, setNext, leGet_lePut, Nat.mod_eq_of_lt (by omega)]

@[simp] theorem size_setNext : (h.setNext b n).size b = h.size b :=
  leGet_lePut_of_disjoint (.inl (Nat.le_refl _))

theorem next_lt : h.next b < 2 ^ 64 := leGet_lt h.mem 8 (b + 8)

end Heap

open Heap

/-! ### Segments -/

/-- From `p` on, headers lead through the blocks of a list to `q`. -/
def Seg (h : Heap) : Nat → List Span → Nat → Prop
  | p, [], q => p = q
  | p, r :: l, q => p = r.1 ∧ h.size r.1 = r.2 ∧ Seg h (h.next r.1) l q

/-- The address of the last block, or `d`. -/
def lastOr (l : List Span) (d : Nat) : Nat := (l.getLast?.map Prod.fst).getD d

/-- The address of the first block, or `d`. -/
def firstOr (l : List Span) (d : Nat) : Nat := (l.head?.map Prod.fst).getD d

@[simp] theorem lastOr_concat {d : Nat} : lastOr (l ++ [r]) d = r.1 := by simp [lastOr]

@[simp] theorem lastOr_nil {d : Nat} : lastOr [] d = d := rfl

@[simp] theorem firstOr_nil {d : Nat} : firstOr [] d = d := rfl

@[simp] theorem firstOr_cons {d : Nat} : firstOr (r :: l) d = r.1 := rfl

theorem lastOr_cons {d : Nat} : lastOr (r :: l) d = lastOr l r.1 := by
  cases l with
  | nil => rfl
  | cons r' l =>
      simp only [lastOr, List.getLast?_cons_cons]
      rw [List.getLast?_eq_some_getLast (List.cons_ne_nil r' l)]
      rfl

theorem Seg.first (hs : Seg h p l q) : p = firstOr l q := by
  cases l with
  | nil => exact hs
  | cons r l => exact hs.1

/-- Only the headers of its blocks matter. -/
theorem Seg.congr (hs : Seg h p l q) (hm : ∀ r ∈ l, SameAt r.1 h h') : Seg h' p l q := by
  induction l generalizing p with
  | nil => exact hs
  | cons r l ih =>
      have hr := hm r List.mem_cons_self
      refine ⟨hs.1, hr.size.trans hs.2.1, ?_⟩
      rw [hr.next]
      exact ih hs.2.2 fun r' hr' => hm r' (List.mem_cons_of_mem _ hr')

theorem seg_append : Seg h p (l ++ m) q ↔ ∃ u, Seg h p l u ∧ Seg h u m q := by
  induction l generalizing p with
  | nil => exact ⟨fun hs => ⟨p, rfl, hs⟩, fun ⟨u, hu, hs⟩ => (show p = u from hu) ▸ hs⟩
  | cons r l ih =>
      simp only [List.cons_append, Seg, ih]
      exact ⟨fun ⟨h₁, h₂, u, h₃, h₄⟩ => ⟨u, ⟨h₁, h₂, h₃⟩, h₄⟩,
        fun ⟨u, ⟨h₁, h₂, h₃⟩, h₄⟩ => ⟨h₁, h₂, u, h₃, h₄⟩⟩

/-! ### Walks -/

/-- The loop of `insert_free` stops at the place of `b`. -/
theorem seek_spec (hs : Seg h c l 0) (h0 : ∀ r ∈ l, r.1 ≠ 0) (fuel prev : Nat)
    (hf : l.length < fuel) : ∃ pre suf, l = pre ++ suf ∧ (∀ r ∈ pre, r.1 < b) ∧
      (∀ r ∈ suf.head?, b ≤ r.1) ∧
      h.seek b fuel prev c = some (lastOr pre prev, firstOr suf 0) := by
  induction l generalizing c prev fuel with
  | nil =>
      obtain rfl : c = 0 := hs
      obtain ⟨fuel, rfl⟩ := Nat.exists_eq_succ_of_ne_zero (Nat.ne_of_gt (Nat.zero_lt_of_lt hf))
      exact ⟨[], [], rfl, nofun, nofun, by simp [seek]⟩
  | cons r l ih =>
      obtain ⟨rfl, -, hs⟩ := hs
      obtain ⟨fuel, rfl⟩ := Nat.exists_eq_succ_of_ne_zero (Nat.ne_of_gt (Nat.zero_lt_of_lt hf))
      have hr := h0 r List.mem_cons_self
      by_cases hb : r.1 < b
      · obtain ⟨pre, suf, rfl, hpre, hsuf, hseek⟩ :=
          ih hs (fun r' hr' => h0 r' (List.mem_cons_of_mem _ hr')) fuel r.1
            (Nat.lt_of_succ_lt_succ hf)
        refine ⟨r :: pre, suf, rfl, ?_, hsuf, ?_⟩
        · rintro r' (_ | ⟨_, hr'⟩)
          · exact hb
          · exact hpre r' hr'
        · rw [seek, if_pos ⟨hr, hb⟩, hseek, lastOr_cons]
      · refine ⟨[], r :: l, rfl, nofun, fun r' hr' => ?_, ?_⟩
        · obtain rfl := Option.some.inj hr'
          exact Nat.le_of_not_lt hb
        · rw [seek, if_neg fun hc => hb hc.2]
          rfl

/-- The search of `large_alloc` stops at the first block that is large enough. -/
theorem search_spec (need : Nat) (hs : Seg h c l 0) (h0 : ∀ r ∈ l, r.1 ≠ 0) (fuel prev : Nat)
    (hf : l.length < fuel) :
    (∃ pre r suf, l = pre ++ r :: suf ∧ need ≤ r.2 ∧
      h.search need fuel prev c = some (lastOr pre prev, r.1)) ∨
    ((∀ r ∈ l, r.2 < need) ∧ h.search need fuel prev c = some (lastOr l prev, 0)) := by
  induction l generalizing c prev fuel with
  | nil =>
      obtain rfl : c = 0 := hs
      obtain ⟨fuel, rfl⟩ := Nat.exists_eq_succ_of_ne_zero (Nat.ne_of_gt (Nat.zero_lt_of_lt hf))
      exact .inr ⟨nofun, rfl⟩
  | cons r l ih =>
      obtain ⟨rfl, hsize, hs⟩ := hs
      obtain ⟨fuel, rfl⟩ := Nat.exists_eq_succ_of_ne_zero (Nat.ne_of_gt (Nat.zero_lt_of_lt hf))
      have hr := h0 r List.mem_cons_self
      by_cases hb : r.2 < need
      · have hsearch : h.search need (fuel + 1) prev r.1 = h.search need fuel r.1 (h.next r.1) := by
          rw [search, if_neg hr, if_pos (hsize.symm ▸ hb)]
        rw [hsearch]
        rcases ih hs (fun r' hr' => h0 r' (List.mem_cons_of_mem _ hr')) fuel r.1
          (Nat.lt_of_succ_lt_succ hf) with ⟨pre, r', suf, rfl, hneed, hfind⟩ | ⟨hsmall, hfind⟩
        · exact .inl ⟨r :: pre, r', suf, rfl, hneed, by rw [hfind, lastOr_cons]⟩
        · refine .inr ⟨?_, by rw [hfind, lastOr_cons]⟩
          rintro r' (_ | ⟨_, hr'⟩)
          · exact hb
          · exact hsmall r' hr'
      · exact .inl ⟨[], r, l, rfl, Nat.le_of_not_lt hb, by
          rw [search, if_neg hr, if_neg (hsize.symm ▸ hb)]; rfl⟩

/-! ### The order of a list -/

/-- In the order of their addresses, and apart. -/
def Loose (l : List Span) : Prop := l.Pairwise fun r r' => r.1 + r.2 ≤ r'.1

/-- In the order of their addresses, and no two of them touch. -/
def Spaced (l : List Span) : Prop := l.Pairwise fun r r' => r.1 + r.2 < r'.1

theorem Spaced.loose (hl : Spaced l) : Loose l := hl.imp fun hr => Nat.le_of_lt hr

/-- One of two blocks is below the other. -/
theorem Spaced.cmp (hl : Spaced l) {r' : Span} (hr : r ∈ l) (hr' : r' ∈ l) :
    r = r' ∨ r.1 + r.2 < r'.1 ∨ r'.1 + r'.2 < r.1 := by
  refine List.Pairwise.forall_of_forall_of_flip
    (R := fun r r' => r = r' ∨ r.1 + r.2 < r'.1 ∨ r'.1 + r'.2 < r.1) (fun _ _ => .inl rfl)
    (hl.imp fun h => .inr (.inl h)) (hl.imp fun h => .inr (.inr h)) hr hr'

/-- Of blocks that do not touch, one has all of a span that they cover. -/
theorem Spaced.contains (hl : Spaced l) (hr : 0 < r.2) (hc : ∀ x, Has r x → 0 < cover l x) :
    ∃ r' ∈ l, r.2 ≤ r'.2 := by
  obtain ⟨r', hr', hlo, hhi⟩ := exists_of_cover (hc r.1 ⟨Nat.le_refl _, by omega⟩)
  refine ⟨r', hr', ?_⟩
  by_contra hlt
  obtain ⟨r'', hr'', hlo', hhi'⟩ := exists_of_cover (hc (r'.1 + r'.2) ⟨by omega, by omega⟩)
  have hcmp := hl.cmp hr' hr''
  rcases hcmp with rfl | hc | hc <;> omega

/-- A large block: aligned, larger than any small one, and in user memory. -/
structure Large (r : Span) : Prop where
  start : r.1 % 16 = 0
  length : r.2 % 16 = 0
  large : SMALL_MAX < r.2
  pos : 0 < r.1
  fits : r.1 + r.2 ≤ 2 ^ 63

theorem Large.header (hr : Large r) : 16 ≤ r.2 := by
  have := hr.large
  simp only [SMALL_MAX] at this
  omega

/-- Two blocks that touch make a block. -/
theorem Large.join {r' : Span} (hr : Large r) (hr' : Large r') (ht : r.1 + r.2 = r'.1) :
    Large (r.1, r.2 + r'.2) where
  start := hr.start
  length := by
    have := hr.length
    have := hr'.length
    dsimp only
    omega
  large := Nat.lt_of_lt_of_le hr.large (Nat.le_add_right _ _)
  pos := hr.pos
  fits := by
    have := hr'.fits
    dsimp only
    omega

/-- Blocks apart in the lower half of the address space are fewer than `FUEL`. -/
theorem Loose.short (hl : Loose l) (hg : ∀ r ∈ l, Large r) : l.length < FUEL := by
  have hnodup : (l.map Prod.fst).Nodup := by
    refine List.pairwise_map.mpr (hl.imp_of_mem fun hr _ hle => ?_)
    have := (hg _ hr).large
    omega
  have hsub : (l.map Prod.fst).toFinset ⊆ Finset.range (2 ^ 63) := fun x hx => by
    obtain ⟨r, hr, rfl⟩ := List.mem_map.mp (List.mem_toFinset.mp hx)
    have := (hg r hr).fits
    have := (hg r hr).large
    exact Finset.mem_range.mpr (by omega)
  have hcard := Finset.card_le_card hsub
  rw [List.toFinset_card_of_nodup hnodup, List.length_map, Finset.card_range] at hcard
  exact Nat.lt_of_le_of_lt hcard (by decide)

theorem cover_header (hr : r ∈ l) (hs : 16 ≤ r.2) {x : Nat} (hx : cover l x = 0) :
    cover [(r.1, 16)] x = 0 := by
  rw [cover_one, if_neg]
  intro hh
  have := cover_pos hr (x := x) ⟨hh.1, Nat.lt_of_lt_of_le hh.2 (Nat.add_le_add_left hs _)⟩
  omega

/-! ### Links -/

/-- The last of some blocks leads elsewhere. -/
theorem link_spec (hs : Seg h h.freeList pre p) (hl : Loose pre) (hg : ∀ r ∈ pre, Large r)
    (hq : q < 2 ^ 64) : Seg (h.link (lastOr pre 0) q) (h.link (lastOr pre 0) q).freeList pre q ∧
      Within pre h (h.link (lastOr pre 0) q) := by
  rcases List.eq_nil_or_concat pre with rfl | ⟨pre, r, rfl⟩
  · exact ⟨rfl, fun _ _ => rfl, rfl, rfl, rfl, rfl⟩
  · rw [List.concat_eq_append] at *
    have hr := hg r (by simp)
    have hlink : h.link (lastOr (pre ++ [r]) 0) q = h.setNext r.1 q := by
      rw [lastOr_concat, Heap.link, if_pos (Nat.ne_of_gt hr.pos)]
    have hw : Within [(r.1, 16)] h (h.setNext r.1 q) := setNext_within
    rw [hlink]
    refine ⟨?_, hw.mono fun x hx => cover_header (by simp) hr.header hx⟩
    obtain ⟨u, hpre, rfl, hsize, -⟩ := seg_append.mp hs
    refine seg_append.mpr ⟨r.1, hpre.congr fun r' hr' => hw.sameAt fun r'' hr'' => ?_, rfl, ?_, ?_⟩
    · obtain rfl := List.mem_singleton.mp hr''
      have := (List.pairwise_append.mp hl).2.2 r' hr' r (by simp)
      have := (hg r' (by simp [hr'])).header
      omega
    · rw [size_setNext, hsize]
    · exact next_setNext hq

/-- **A block takes in the next one**, which it touches. -/
theorem absorb_spec {b s c t : Nat} (hs : Seg h p (pre ++ (b, s) :: (c, t) :: suf) q)
    (hl : Loose (pre ++ (b, s) :: (c, t) :: suf))
    (hg : ∀ r ∈ pre ++ (b, s) :: (c, t) :: suf, Large r) :
    Seg (h.absorb b c) p (pre ++ (b, s + t) :: suf) q ∧ Within [(b, s)] h (h.absorb b c) := by
  obtain ⟨u, hpre, hu, hsize, hnext, hsize', hsuf⟩ := seg_append.mp hs
  obtain ⟨-, hrest, hcross⟩ := List.pairwise_append.mp hl
  obtain ⟨hb, hrest⟩ := List.pairwise_cons.mp hrest
  have hgb := hg (b, s) (by simp)
  have hgc := hg (c, t) (by simp)
  have hbc : b + s ≤ c := hb (c, t) (by simp)
  have h16 : 16 ≤ s := hgb.header
  dsimp only at hu hsize hnext hsize' hsuf
  rw [hu] at hpre
  have hsum : h.size b + h.size c = s + t := by rw [hsize, hsize']
  have hlt : h.size b + h.size c < 2 ^ 64 := by
    have := hgc.fits
    dsimp only at this
    omega
  have hw : Within [(b, 16)] h (h.absorb b c) := setSize_within.trans setNext_within
  have hsame : ∀ r : Span, r.1 + r.2 ≤ b ∧ 16 ≤ r.2 ∨ b + s ≤ r.1 →
      SameAt r.1 h (h.absorb b c) := fun r hr => hw.sameAt fun r' hr' => by
    obtain rfl := List.mem_singleton.mp hr'
    dsimp only
    omega
  refine ⟨seg_append.mpr ⟨b, hpre.congr fun r hr => hsame r (.inl ⟨?_, ?_⟩), rfl, ?_, ?_⟩,
    hw.mono fun x hx => cover_header (r := (b, s)) (by simp) h16 hx⟩
  · exact hcross r hr (b, s) (by simp)
  · exact (hg r (by simp [hr])).header
  · exact size_setNext.trans ((size_setSize hlt).trans hsum)
  · have hc : SameAt c h (h.setSize b (h.size b + h.size c)) :=
      setSize_within.sameAt fun r hr => by
        obtain rfl := List.mem_singleton.mp hr
        exact .inl (by dsimp only; omega)
    have hnext' : (h.absorb b c).next b = h.next c := (next_setNext next_lt).trans hc.next
    rw [hnext']
    exact hsuf.congr fun r hr => hsame r (.inr (hb r (by simp [hr])))

/-- What is kept of a list when a block takes in its successor, if they touch. -/
structure Joined (h h' : Heap) (p : Nat) (pre : List Span) (b s s' : Nat) (suf suf' : List Span) :
    Prop where
  seg : Seg h' p (pre ++ (b, s') :: suf') 0
  within : Within [(b, s)] h h'
  head : h'.freeList = h.freeList
  large : ∀ r ∈ pre ++ (b, s') :: suf', Large r
  loose : Loose (pre ++ (b, s') :: suf')
  spaced : Spaced ((b, s') :: suf')
  cover : ∀ x, cover ((b, s') :: suf') x = cover ((b, s) :: suf) x

theorem join_spec {b s : Nat} (hs : Seg h p (pre ++ (b, s) :: suf) 0)
    (hl : Loose (pre ++ (b, s) :: suf)) (hg : ∀ r ∈ pre ++ (b, s) :: suf, Large r)
    (hsp : Spaced suf) : ∃ s' suf', Joined h
      (if b + h.size b = firstOr suf 0 then h.absorb b (firstOr suf 0) else h) p pre b s s' suf
      suf' := by
  obtain ⟨u, -, -, hsize, -⟩ := seg_append.mp hs
  dsimp only at hsize
  obtain ⟨hpre, hrest, hcross⟩ := List.pairwise_append.mp hl
  obtain ⟨hb, hsuf⟩ := List.pairwise_cons.mp hrest
  have hgb := hg (b, s) (by simp)
  rw [hsize]
  split_ifs with htouch
  · cases suf with
    | nil =>
        have := hgb.pos
        rw [firstOr_nil] at htouch
        omega
    | cons r suf =>
        obtain ⟨c, t⟩ := r
        obtain rfl : b + s = c := htouch
        obtain ⟨hseg, hw⟩ := absorb_spec hs hl hg
        obtain ⟨hc, hsp⟩ := List.pairwise_cons.mp hsp
        have hc : ∀ r ∈ suf, b + (s + t) < r.1 := fun r hr => by
          have := hc r hr
          dsimp only at this
          omega
        refine ⟨s + t, suf, hseg, hw, rfl, fun r hr => ?_, ?_, List.pairwise_cons.mpr ⟨hc, hsp⟩,
          fun x => ?_⟩
        · rcases List.mem_append.mp hr with hr | hr
          · exact hg r (by simp [hr])
          · rcases List.mem_cons.mp hr with rfl | hr
            · exact hgb.join (hg (b + s, t) (by simp)) rfl
            · exact hg r (by simp [hr])
        · refine List.pairwise_append.mpr ⟨hpre, List.pairwise_cons.mpr
            ⟨fun r hr => Nat.le_of_lt (hc r hr), Spaced.loose hsp⟩, fun r hr r' hr' => ?_⟩
          rcases List.mem_cons.mp hr' with rfl | hr'
          · exact hcross r hr (b, s) (by simp)
          · exact hcross r hr r' (by simp [hr'])
        · refine cover_cons.trans ?_
          rw [cover_join, Nat.add_assoc, ← cover_cons]
          exact cover_cons.symm
  · refine ⟨s, suf, hs, .refl _ _, rfl, hg, hl, List.pairwise_cons.mpr ⟨fun r hr => ?_, hsp⟩,
      fun _ => rfl⟩
    have hle := hb r hr
    refine Nat.lt_of_le_of_ne hle fun he => ?_
    cases suf with
    | nil => cases hr
    | cons r' suf =>
        rw [firstOr_cons] at htouch
        rcases List.mem_cons.mp hr with rfl | hr
        · exact htouch he
        · have := hb r' (by simp)
          have := (List.pairwise_cons.mp hsp).1 r hr
          dsimp only at *
          omega

/-! ### Blocks that are put in the list -/

/-- **A block goes into the list**: it leads from the blocks before to those behind it. -/
theorem insert_spec {b s : Nat} (hs : Seg h h.freeList (pre ++ suf) 0) (hl : Loose (pre ++ suf))
    (hg : ∀ r ∈ pre ++ suf, Large r) (hb : Large (b, s)) (hsize : h.size b = s)
    (hpre : ∀ r ∈ pre, r.1 + r.2 ≤ b) (hsuf : ∀ r ∈ suf, b + s ≤ r.1) :
    ∃ h', h' = (h.setNext b (firstOr suf 0)).link (lastOr pre 0) b ∧
      Seg h' h'.freeList (pre ++ (b, s) :: suf) 0 ∧
      Within ((b, s) :: (pre ++ suf)) h h' := by
  obtain ⟨u, hseg, hseg'⟩ := seg_append.mp hs
  obtain rfl := hseg'.first
  have h16 : 16 ≤ s := hb.header
  have hw₀ : Within [(b, 16)] h (h.setNext b (firstOr suf 0)) := setNext_within
  have hbefore : ∀ r ∈ pre, SameAt r.1 h (h.setNext b (firstOr suf 0)) := fun r hr =>
    hw₀.sameAt fun r' hr' => by
      obtain rfl := List.mem_singleton.mp hr'
      have := hpre r hr
      have := (hg r (by simp [hr])).header
      dsimp only
      omega
  obtain ⟨hlink, hw₁⟩ := link_spec (h := h.setNext b (firstOr suf 0)) (q := b)
    (hseg.congr hbefore) (List.pairwise_append.mp hl).1 (fun r hr => hg r (by simp [hr]))
    (Nat.lt_of_le_of_lt (Nat.le_of_add_right_le hb.fits) (by decide))
  have hsameb : SameAt b (h.setNext b (firstOr suf 0))
      ((h.setNext b (firstOr suf 0)).link (lastOr pre 0) b) :=
    hw₁.sameAt fun r hr => .inl (hpre r hr)
  have hfirst : firstOr suf 0 < 2 ^ 64 := by
    cases suf with
    | nil => decide
    | cons r suf =>
        have := (hg r (by simp)).fits
        rw [firstOr_cons]
        omega
  refine ⟨_, rfl, seg_append.mpr ⟨b, hlink, rfl, ?_, ?_⟩, ?_⟩
  · exact hsameb.size.trans (size_setNext.trans hsize)
  · rw [hsameb.next, next_setNext hfirst]
    refine (hseg'.congr fun r hr => hw₀.sameAt fun r' hr' => ?_).congr fun r hr =>
      hw₁.sameAt fun r' hr' => ?_
    · obtain rfl := List.mem_singleton.mp hr'
      have := hsuf r hr
      dsimp only
      omega
    · have := hpre r' hr'
      have := hsuf r hr
      omega
  · refine (hw₀.mono fun x hx => ?_).trans (hw₁.mono fun x hx => ?_)
    · exact cover_header (r := (b, s)) (by simp) h16 hx
    · rw [cover_cons, cover_append] at hx
      omega

/-- **`insert_free`** puts a block in its place, and joins it with the blocks that it touches. -/
theorem insertFree_spec {b s : Nat} (hs : Seg h h.freeList l 0) (hl : Spaced l)
    (hg : ∀ r ∈ l, Large r) (hb : Large (b, s)) (hsize : h.size b = s)
    (hd : ∀ r ∈ l, r.1 + r.2 ≤ b ∨ b + s ≤ r.1) :
    ∃ h' l', h.insertFree b = some h' ∧ Seg h' h'.freeList l' 0 ∧ Spaced l' ∧
      (∀ r ∈ l', Large r) ∧ Within ((b, s) :: l) h h' ∧
      ∀ x, cover l' x = cover [(b, s)] x + cover l x := by
  obtain ⟨pre, suf, rfl, hpre, hsuf, hseek⟩ := seek_spec (b := b) hs
    (fun r hr => Nat.ne_of_gt (hg r hr).pos) FUEL 0 (hl.loose.short hg)
  obtain ⟨hspre, hssuf, hcross⟩ := List.pairwise_append.mp hl
  have hbpos := hb.pos
  have hpre : ∀ r ∈ pre, r.1 + r.2 ≤ b := fun r hr => by
    have := hpre r hr
    rcases hd r (by simp [hr]) with h | h <;> omega
  have hsuf : ∀ r ∈ suf, b + s ≤ r.1 := fun r hr => by
    have hle : b ≤ r.1 := by
      cases suf with
      | nil => cases hr
      | cons r' suf =>
          have := hsuf r' rfl
          rcases List.mem_cons.mp hr with rfl | hr
          · exact this
          · have := (List.pairwise_cons.mp hssuf).1 r hr
            omega
    have := (hg r (by simp [hr])).header
    rcases hd r (by simp [hr]) with h | h <;> omega
  obtain ⟨h₁, hh₁, hs₁, hw₁⟩ := insert_spec hs hl.loose hg hb hsize hpre hsuf
  have hl₁ : Loose (pre ++ (b, s) :: suf) := List.pairwise_append.mpr
    ⟨Spaced.loose hspre, List.pairwise_cons.mpr ⟨hsuf, Spaced.loose hssuf⟩, fun r hr r' hr' => by
      rcases List.mem_cons.mp hr' with rfl | hr'
      · exact hpre r hr
      · exact Nat.le_of_lt (hcross r hr r' hr')⟩
  have hg₁ : ∀ r ∈ pre ++ (b, s) :: suf, Large r := fun r hr => by
    rcases List.mem_append.mp hr with hr | hr
    · exact hg r (by simp [hr])
    · rcases List.mem_cons.mp hr with rfl | hr
      · exact hb
      · exact hg r (by simp [hr])
  obtain ⟨s', suf', hj⟩ := join_spec hs₁ hl₁ hg₁ hssuf
  have hright : (if firstOr suf 0 ≠ 0 ∧ b + h₁.size b = firstOr suf 0 then
      h₁.absorb b (firstOr suf 0) else h₁) =
      if b + h₁.size b = firstOr suf 0 then h₁.absorb b (firstOr suf 0) else h₁ :=
    if_congr (and_iff_right_of_imp fun he => by omega) rfl rfl
  generalize hh₂ : (if b + h₁.size b = firstOr suf 0 then h₁.absorb b (firstOr suf 0) else h₁) = h₂
    at hj hright
  have hrun : h.insertFree b = some
      (if lastOr pre 0 ≠ 0 ∧ lastOr pre 0 + h₂.size (lastOr pre 0) = b then
        h₂.absorb (lastOr pre 0) b else h₂) := by
    rw [insertFree, hseek]
    simp only [Option.bind_eq_bind, Option.bind_some]
    rw [← hh₁, hright]
  have hw₂ : Within ((b, s) :: (pre ++ suf)) h h₂ := hw₁.trans (hj.within.mono fun x hx => by
    rw [cover_cons] at hx
    omega)
  have hcover : ∀ x, cover (pre ++ (b, s') :: suf') x =
      cover [(b, s)] x + cover (pre ++ suf) x := fun x => by
    rw [cover_append, hj.cover, cover_cons, cover_append]
    omega
  rcases List.eq_nil_or_concat pre with rfl | ⟨pre, ⟨a, t⟩, rfl⟩
  · refine ⟨h₂, (b, s') :: suf', hrun, ?_, hj.spaced, hj.large, hw₂, hcover⟩
    rw [hj.head]
    exact hj.seg
  · rw [List.concat_eq_append] at *
    have ha := hg (a, t) (by simp)
    have hlist : (pre ++ [(a, t)]) ++ (b, s') :: suf' = pre ++ (a, t) :: (b, s') :: suf' := by
      simp
    obtain ⟨t', rest, hj'⟩ := join_spec (hlist ▸ hj.seg) (hlist ▸ hj.loose) (hlist ▸ hj.large)
      hj.spaced
    rw [firstOr_cons] at hj'
    rw [lastOr_concat, if_congr (and_iff_right (Nat.ne_of_gt ha.pos)) rfl rfl] at hrun
    refine ⟨_, pre ++ (a, t') :: rest, hrun, ?_, ?_, hj'.large, hw₂.trans (hj'.within.mono ?_), ?_⟩
    · rw [hj'.head, hj.head]
      exact hj'.seg
    · obtain ⟨hspre, -, hlast⟩ := List.pairwise_append.mp hspre
      refine List.pairwise_append.mpr ⟨hspre, hj'.spaced, fun r hr r' hr' => ?_⟩
      have hra : r.1 + r.2 < a := hlast r hr (a, t) (by simp)
      rcases List.mem_cons.mp hr' with rfl | hr'
      · exact hra
      · exact hra.trans (Nat.lt_of_le_of_lt (Nat.le_add_right a t')
          ((List.pairwise_cons.mp hj'.spaced).1 r' hr'))
    · intro x hx
      refine Nat.eq_zero_of_not_pos fun hpos => ?_
      obtain ⟨r, hr, hrx⟩ := exists_of_cover hpos
      obtain rfl := List.mem_singleton.mp hr
      have hmem : (a, t) ∈ (b, s) :: (pre ++ [(a, t)] ++ suf) := by simp
      have := cover_pos hmem hrx
      omega
    · intro x
      rw [← hcover x, hlist, cover_append, hj'.cover, cover_append]

/-! ### Blocks that leave the list -/

/-- The first part of a block leaves, and the rest stays in its place. -/
theorem split_spec {b s : Nat} (hs : Seg h h.freeList (pre ++ (b, s) :: suf) 0)
    (hl : Spaced (pre ++ (b, s) :: suf)) (hg : ∀ r ∈ pre ++ (b, s) :: suf, Large r)
    (hneed : 16 ≤ need) (hrest : HDR + SMALL_MAX ≤ s - need) :
    (h.take (lastOr pre 0) b need).size b = need ∧
    Seg (h.take (lastOr pre 0) b need) (h.take (lastOr pre 0) b need).freeList
      (pre ++ (b + need, s - need) :: suf) 0 ∧
    Within (pre ++ (b, s) :: suf) h (h.take (lastOr pre 0) b need) := by
  obtain ⟨u, hseg, hu, hsize, hseg'⟩ := seg_append.mp hs
  obtain ⟨hspre, hssuf, hcross⟩ := List.pairwise_append.mp hl
  have hb := hg (b, s) (by simp)
  have hfits := hb.fits
  dsimp only [HDR, SMALL_MAX] at hu hsize hseg' hrest hfits
  rw [hu] at hseg
  have hpre : ∀ r ∈ pre, r.1 + r.2 < b := fun r hr => hcross r hr (b, s) (by simp)
  have hsuf : ∀ r ∈ suf, b + s < r.1 := (List.pairwise_cons.mp hssuf).1
  -- the header of the rest is written first, then the link to it, then the size of the block
  generalize hh₁ : h.setSize (b + need) (h.size b - need) = h₁
  generalize hh₂ : h₁.setNext (b + need) (h₁.next b) = h₂
  have htake : h.take (lastOr pre 0) b need = (h₂.link (lastOr pre 0) (b + need)).setSize b need := by
    rw [Heap.take, if_pos (by simp only [HDR, SMALL_MAX]; omega)]
    rw [← hh₂, ← hh₁]
  have hw₁ : Within [(b + need, 16)] h h₁ := hh₁ ▸ setSize_within
  have hw₂ : Within [(b + need, 16)] h h₂ := hw₁.trans (hh₂ ▸ setNext_within)
  have hrest₂ : h₂.size (b + need) = s - need := by
    rw [← hh₂, size_setNext, ← hh₁, size_setSize (by omega), hsize]
  have hnext₂ : h₂.next (b + need) = h.next b := by
    rw [← hh₂, next_setNext next_lt]
    refine Heap.SameAt.next (hw₁.sameAt fun r hr => ?_)
    obtain rfl := List.mem_singleton.mp hr
    exact .inr (Nat.add_le_add_left hneed b)
  have hsame₂ : ∀ r ∈ pre, SameAt r.1 h h₂ := fun r hr => hw₂.sameAt fun r' hr' => by
    obtain rfl := List.mem_singleton.mp hr'
    have := hpre r hr
    have := (hg r (by simp [hr])).header
    dsimp only
    omega
  have hfree₂ : h₂.freeList = h.freeList := by rw [← hh₂, ← hh₁]; rfl
  obtain ⟨hlink, hw₃⟩ := link_spec (h := h₂) (q := b + need)
    (hfree₂ ▸ hseg.congr hsame₂) (Spaced.loose hspre) (fun r hr => hg r (by simp [hr])) (by omega)
  have hw₄ : Within [(b, 16)] (h₂.link (lastOr pre 0) (b + need))
      ((h₂.link (lastOr pre 0) (b + need)).setSize b need) := setSize_within
  have hsame₃ : ∀ c, b ≤ c → SameAt c h₂ (h₂.link (lastOr pre 0) (b + need)) := fun c hc =>
    hw₃.sameAt fun r hr => .inl (by have := hpre r hr; omega)
  have hsame₄ : ∀ c, c + 16 ≤ b ∨ b + 16 ≤ c → SameAt c (h₂.link (lastOr pre 0) (b + need))
      ((h₂.link (lastOr pre 0) (b + need)).setSize b need) := fun c hc =>
    hw₄.sameAt fun r hr => by
      obtain rfl := List.mem_singleton.mp hr
      dsimp only
      omega
  rw [htake]
  refine ⟨size_setSize (by omega), seg_append.mpr ⟨b + need, hlink.congr fun r hr =>
    hsame₄ r.1 (.inl ?_), rfl, ?_, ?_⟩, ?_⟩
  · have := hpre r hr
    have := (hg r (by simp [hr])).header
    omega
  · rw [(hsame₄ (b + need) (.inr (Nat.add_le_add_left hneed b))).size,
      (hsame₃ (b + need) (Nat.le_add_right b need)).size, hrest₂]
  · rw [(hsame₄ (b + need) (.inr (Nat.add_le_add_left hneed b))).next,
      (hsame₃ (b + need) (Nat.le_add_right b need)).next, hnext₂]
    refine ((hseg'.congr fun r hr => hw₂.sameAt fun r' hr' => ?_).congr fun r hr =>
      hsame₃ r.1 ?_).congr fun r hr => hsame₄ r.1 (.inr ?_)
    · obtain rfl := List.mem_singleton.mp hr'
      have := hsuf r hr
      dsimp only
      omega
    all_goals
      have := hsuf r hr
      omega
  · refine (hw₂.mono fun x hx => ?_).trans ((hw₃.mono fun x hx => ?_).trans
      (hw₄.mono fun x hx => ?_))
    · rw [cover_one, if_neg]
      intro hhas
      have hmem : (b, s) ∈ pre ++ (b, s) :: suf := by simp
      have := cover_pos hmem (x := x)
        ⟨by have := hhas.1; omega, by have := hhas.2; dsimp only at *; omega⟩
      omega
    · rw [cover_append] at hx
      omega
    · exact cover_header (r := (b, s)) (by simp) (by dsimp only; omega) hx

theorem unlink_spec {b s : Nat} (hs : Seg h h.freeList (pre ++ (b, s) :: suf) 0)
    (hl : Spaced (pre ++ (b, s) :: suf)) (hg : ∀ r ∈ pre ++ (b, s) :: suf, Large r) :
    (h.link (lastOr pre 0) (h.next b)).size b = s ∧
    Seg (h.link (lastOr pre 0) (h.next b)) (h.link (lastOr pre 0) (h.next b)).freeList
      (pre ++ suf) 0 ∧
    Within pre h (h.link (lastOr pre 0) (h.next b)) := by
  obtain ⟨u, hseg, hu, hsize, hseg'⟩ := seg_append.mp hs
  obtain ⟨hspre, hssuf, hcross⟩ := List.pairwise_append.mp hl
  dsimp only at hu hsize hseg'
  rw [hu] at hseg
  have hpre : ∀ r ∈ pre, r.1 + r.2 < b := fun r hr => hcross r hr (b, s) (by simp)
  have hsuf : ∀ r ∈ suf, b + s < r.1 := (List.pairwise_cons.mp hssuf).1
  obtain ⟨hlink, hw⟩ := link_spec (q := h.next b) hseg (Spaced.loose hspre)
    (fun r hr => hg r (by simp [hr])) next_lt
  have hsame : ∀ c, b ≤ c → SameAt c h (h.link (lastOr pre 0) (h.next b)) := fun c hc =>
    hw.sameAt fun r hr => .inl (by have := hpre r hr; omega)
  refine ⟨(hsame b (Nat.le_refl b)).size.trans hsize, seg_append.mpr ⟨h.next b, hlink,
    hseg'.congr fun r hr => hsame r.1 ?_⟩, hw⟩
  have := hsuf r hr
  omega

/-- **A block of at least `need` bytes leaves the list**, and what it can spare stays. -/
theorem take_spec {b s : Nat} (hs : Seg h h.freeList (pre ++ (b, s) :: suf) 0)
    (hl : Spaced (pre ++ (b, s) :: suf)) (hg : ∀ r ∈ pre ++ (b, s) :: suf, Large r)
    (hneed : need ≤ s) (hlarge : SMALL_MAX < need) (hmod : need % 16 = 0) :
    ∃ s' l', need ≤ s' ∧ Large (b, s') ∧ (h.take (lastOr pre 0) b need).size b = s' ∧
      Seg (h.take (lastOr pre 0) b need) (h.take (lastOr pre 0) b need).freeList l' 0 ∧
      Spaced l' ∧ (∀ r ∈ l', Large r) ∧
      Within (pre ++ (b, s) :: suf) h (h.take (lastOr pre 0) b need) ∧
      ∀ x, cover (pre ++ (b, s) :: suf) x = cover [(b, s')] x + cover l' x := by
  obtain ⟨hspre, hssuf, hcross⟩ := List.pairwise_append.mp hl
  obtain ⟨hsuf, hssuf⟩ := List.pairwise_cons.mp hssuf
  have hb := hg (b, s) (by simp)
  obtain ⟨hstart, hlength, -, hpos, hfits⟩ := hb
  have hsize : h.size b = s := by
    obtain ⟨u, -, -, hsize, -⟩ := seg_append.mp hs
    exact hsize
  by_cases hrest : HDR + SMALL_MAX ≤ s - need
  · obtain ⟨hsize', hseg, hw⟩ := split_spec hs hl hg
      (by simp only [SMALL_MAX] at hlarge; omega) hrest
    dsimp only [HDR, SMALL_MAX] at *
    refine ⟨need, pre ++ (b + need, s - need) :: suf, Nat.le_refl _,
      ⟨hstart, hmod, hlarge, hpos, by dsimp only; omega⟩, hsize', hseg, ?_, fun r hr => ?_, hw,
      fun x => ?_⟩
    · refine List.pairwise_append.mpr ⟨hspre, List.pairwise_cons.mpr ⟨fun r hr => ?_, hssuf⟩,
        fun r hr r' hr' => ?_⟩
      · have := hsuf r hr
        dsimp only
        omega
      · rcases List.mem_cons.mp hr' with rfl | hr'
        · have := hcross r hr (b, s) (by simp)
          dsimp only at *
          omega
        · exact hcross r hr r' (by simp [hr'])
    · rcases List.mem_append.mp hr with hr | hr
      · exact hg r (by simp [hr])
      · rcases List.mem_cons.mp hr with rfl | hr
        · refine ⟨?_, ?_, ?_, ?_, ?_⟩ <;> simp only [SMALL_MAX] <;> omega
        · exact hg r (by simp [hr])
    · have hjoin := cover_join (a := b) (s := need) (t := s - need) (x := x)
      rw [Nat.add_sub_cancel' hneed] at hjoin
      have htail : cover ((b + need, s - need) :: suf) x =
          cover [(b + need, s - need)] x + cover suf x := cover_cons
      rw [cover_append, cover_append, cover_cons, hjoin, htail]
      omega
  · have htake : h.take (lastOr pre 0) b need = h.link (lastOr pre 0) (h.next b) := by
      rw [Heap.take, hsize, if_neg hrest]
    obtain ⟨hsize', hseg, hw⟩ := unlink_spec hs hl hg
    rw [htake]
    refine ⟨s, pre ++ suf, hneed, hg (b, s) (by simp), hsize', hseg, ?_, fun r hr => ?_,
      hw.mono fun x hx => ?_, fun x => ?_⟩
    · exact List.pairwise_append.mpr ⟨hspre, hssuf, fun r hr r' hr' =>
        hcross r hr r' (by simp [hr'])⟩
    · rcases List.mem_append.mp hr with hr | hr <;> exact hg r (by simp [hr])
    · rw [cover_append] at hx
      omega
    · rw [cover_append, cover_append, cover_cons]
      omega

end Pulsar.Libc

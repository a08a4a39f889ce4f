import Pulsar.Lib.Runs
import Pulsar.Libc.Partition

/-!
# The functions of the allocator

A program calls `malloc`, `free`, `calloc` and `realloc` in any order, with any sizes and any answers
of `sbrk`, and writes to the blocks that it has.

* `heap_sound`: the calls return, the blocks in use are apart and large enough, and every byte
  obtained from `sbrk` is in one part.
-/

namespace Pulsar.Libc

open Cover Heap Runs

variable {h h' : Heap} {P : Parts} {sbrk : Nat → Nat → Option Nat} {n p need : Nat}

theorem Quiet.trans {live : List Live} {h'' : Heap} (h₁ : Quiet live h h') (h₂ : Quiet live h' h'') :
    Quiet live h h'' := fun b hb x hx => (h₂ b hb x hx).trans (h₁ b hb x hx)

theorem Quiet.refl (live : List Live) (h : Heap) : Quiet live h h := fun _ _ _ _ => rfl

/-- Answers of `sbrk` to a heap: ranges apart from those before. -/
def Fresh (sbrk : Nat → Nat → Option Nat) (h : Heap) : Prop :=
  ∀ i n old, sbrk i n = some old → Supplied ((old, n) :: h.obtained)

/-- The result of `malloc`: null, or a new block in use. -/
def Gives (n p : Nat) (live live' : List Live) : Prop :=
  p = 0 ∧ live' = live ∨ ∃ b : Live, b.user = (p, n) ∧ p ≠ 0 ∧ live' = b :: live

namespace Inv

/-! ### Small blocks -/

/-- **What is left of the arena** goes to the bins. -/
theorem rebin (fuel : Nat) (hI : Inv h P []) (hf : P.arena.2 < fuel) :
    ∃ h' bins arena, h.rebin fuel = some h' ∧
      Inv h' { P with bins := bins, arena := arena } [] ∧ Quiet P.live h h' ∧
      h'.obtained = h.obtained ∧ arena.2 < 32 := by
  induction fuel generalizing h P with
  | zero => exact absurd hf (Nat.not_lt_zero _)
  | succ fuel ih =>
      have hlen : h.arenaEnd - h.arenaCur = P.arena.2 := by
        rw [hI.arena.1, hI.arena.2, Nat.add_sub_cancel_left]
      rw [Heap.rebin, hlen]
      split_ifs with h32
      · have ha := hI.aligned P.arena (mem_all.mpr (.inr (.inr (.inr (.inl rfl)))))
        obtain ⟨k, hk⟩ : ∃ k, min P.arena.2 SMALL_MAX / 16 = k := ⟨_, rfl⟩
        have hk2 : 2 ≤ k ∧ k ≤ NCLASS ∧ k * 16 ≤ P.arena.2 := by
          simp only [SMALL_MAX, NCLASS] at *
          omega
        rw [hk, hI.arena.1]
        dsimp only
        rw [Nat.mul_div_cancel k (by decide), Nat.mul_comm k 16]
        have hcut := hI.cut (n := 16 * k) (by omega) (by omega)
        have hin := hcut.inside (r := (P.arena.1, 16 * k)) (by simp) (by dsimp only; omega)
        dsimp only at hin
        have hw : Within [(P.arena.1, 16 * k)] { h with arenaCur := h.arenaCur + 16 * k }
            (setSize P.arena.1 (16 * k) { h with arenaCur := h.arenaCur + 16 * k }) :=
          setSize_within.mono fun x hx =>
            cover_header (r := (P.arena.1, 16 * k)) (by simp) (by dsimp only; omega) hx
        obtain ⟨hI₁, hq₁⟩ := hcut.frame hw rfl
        obtain ⟨hI₂, hq₂⟩ := hI₁.push hk2.1 hk2.2.1 (size_setSize (by omega)) ha.1
        obtain ⟨h', bins, arena, hrun, hI', hq', ho', hshort⟩ :=
          ih hI₂ (by dsimp only; omega)
        refine ⟨h', bins, arena, ?_, hI', (Quiet.trans hq₁ hq₂).trans hq', ho', hshort⟩
        rw [← hrun, ← hI.arena.1]
        rfl
      · exact ⟨h, P.bins, P.arena, rfl, hI, .refl _ _, rfl, Nat.lt_of_not_le h32⟩

theorem carve (hI : Inv h P []) (hn : need ≤ P.arena.2) (hmod : need % 16 = 0) (h32 : 32 ≤ need)
    (hreq : HDR + n ≤ need) : ∃ h', h.carve need = (P.arena.1 + HDR, h') ∧ Inv h' { P with
      live := ⟨P.arena.1, need, n⟩ :: P.live
      arena := (P.arena.1 + need, P.arena.2 - need) } [] ∧ Quiet P.live h h' := by
  have ha := hI.aligned P.arena (mem_all.mpr (.inr (.inr (.inr (.inl rfl)))))
  have hcut := hI.cut hn hmod
  have hin := hcut.inside (r := (P.arena.1, need)) (by simp) (by dsimp only; omega)
  dsimp only at hin
  have hw : Within [(P.arena.1, need)] { h with arenaCur := h.arenaCur + need }
      (setSize P.arena.1 need { h with arenaCur := h.arenaCur + need }) :=
    setSize_within.mono fun x hx =>
      cover_header (r := (P.arena.1, need)) (by simp) (by dsimp only; omega) hx
  obtain ⟨hI₁, hq₁⟩ := hcut.frame hw rfl
  have hsize : (Heap.setSize P.arena.1 need { h with arenaCur := h.arenaCur + need }).size
      P.arena.1 = need := size_setSize (by omega)
  have hI₂ := hI₁.claim (c := ⟨P.arena.1, need, n⟩) hsize ⟨h32, hreq⟩ ⟨ha.1, hmod⟩
  have hcarve : h.carve need = (P.arena.1 + HDR,
      Heap.setSize P.arena.1 need { h with arenaCur := h.arenaCur + need }) := by
    rw [Heap.carve, hI.arena.1]
  exact ⟨_, hcarve, hI₂, hq₁⟩

/-! ### `malloc` and `free` -/

theorem mallocArena (hI : Inv h P []) (hf : Fresh sbrk h) (hmod : need % 16 = 0)
    (h32 : 32 ≤ need) (hreq : HDR + n ≤ need) (hsmall : need ≤ SMALL_MAX) :
    ∃ p h' P', (if h.arenaEnd < h.arenaCur + need then do
        let h ← h.rebin FUEL
        let (a, h) ← h.largeAlloc sbrk ARENA 2
        some (if a = 0 then (0, h)
          else Heap.carve need { h with arenaCur := a, arenaEnd := a + h.size a })
      else some (h.carve need)) = some (p, h') ∧
      Inv h' P' [] ∧ Quiet P.live h h' ∧ Gives n p P.live P'.live := by
  have hgive : ∀ {Q : Parts}, Gives n (Q.arena.1 + HDR) Q.live
      (⟨Q.arena.1, need, n⟩ :: Q.live) := fun {Q} =>
    .inr ⟨⟨Q.arena.1, need, n⟩, rfl, Nat.ne_of_gt (Nat.lt_of_lt_of_le (by decide)
      (Nat.le_add_left HDR Q.arena.1)), rfl⟩
  split_ifs with hroom
  · have hlen : P.arena.2 < FUEL := by
      rw [hI.arena.1, hI.arena.2] at hroom
      simp only [SMALL_MAX, FUEL] at *
      omega
    obtain ⟨h₁, bins, arena, hrun₁, hI₁, hq₁, ho₁, hshort⟩ := hI.rebin FUEL hlen
    have harena : SMALL_MAX < ARENA := by decide
    obtain ⟨a, h₂, l, hrun₂, hq₂, hend⟩ := hI₁.largeAlloc harena (by decide) (by decide)
      fun i n old hs => ho₁ ▸ hf i n old hs
    have hq := hq₁.trans hq₂
    rw [hrun₁]
    simp only [Option.bind_eq_bind, Option.bind_some, hrun₂]
    rcases hend with ⟨rfl, hI₂⟩ | ⟨s, hs, hL, hsize, hI₂⟩
    · exact ⟨0, h₂, _, rfl, hI₂, hq, .inl ⟨rfl, rfl⟩⟩
    · rw [if_neg (Nat.ne_of_gt hL.pos), hsize]
      have hI₃ := hI₂.arena_of hshort hL.start hL.length
      have hle : need ≤ s := by
        simp only [ARENA, SMALL_MAX] at *
        omega
      obtain ⟨h', hrun, hI₄, hq₄⟩ := hI₃.carve (n := n) hle hmod h32 hreq
      rw [hrun]
      exact ⟨_, h', _, rfl, hI₄, hq.trans hq₄, hgive⟩
  · have hle : need ≤ P.arena.2 := by
      rw [hI.arena.1, hI.arena.2] at hroom
      omega
    obtain ⟨h', hrun, hI', hq⟩ := hI.carve (n := n) hle hmod h32 hreq
    rw [hrun]
    exact ⟨_, h', _, rfl, hI', hq, hgive⟩

/-- **`malloc`** returns null, or a block of the bytes asked for. -/
theorem malloc (hI : Inv h P []) (hf : Fresh sbrk h) (n : Nat) :
    ∃ p h' P', h.malloc sbrk n = some (p, h') ∧ Inv h' P' [] ∧ Quiet P.live h h' ∧
      Gives n p P.live P'.live := by
  obtain ⟨m, hm⟩ : ∃ m, (if n = 0 then 1 else n) = m := ⟨_, rfl⟩
  have hnm : n ≤ m ∧ 1 ≤ m := by
    split_ifs at hm <;> omega
  rw [Heap.malloc, hm]
  by_cases hbig : 2 ^ 40 < m
  · exact ⟨0, h, P, if_pos hbig, hI, .refl _ _, .inl ⟨rfl, rfl⟩⟩
  obtain ⟨need, hneed⟩ : ∃ need, align16 m + HDR = need := ⟨_, rfl⟩
  have halign : (m + 15) / 16 * 16 + 16 = need := by
    rw [← hneed, align16, Nat.mod_eq_of_lt (by omega), HDR]
  have hmod : need % 16 = 0 := by omega
  have h32 : 32 ≤ need := by omega
  have hreq : HDR + n ≤ need := by
    simp only [HDR]
    omega
  rw [if_neg hbig, hneed]
  dsimp only
  by_cases hsmall : need ≤ SMALL_MAX
  · rw [if_pos hsmall]
    cases hk : P.bins (need / 16) with
    | nil =>
        rw [if_neg (not_not.mpr (hI.none hk))]
        exact hI.mallocArena hf hmod h32 hreq hsmall
    | cons a l =>
        obtain ⟨hhead, ha, hsize, hamod⟩ := hI.first hk
        have hI' := (hI.pop hk).claim (c := ⟨a, 16 * (need / 16), n⟩) hsize
          ⟨by dsimp only; omega, by dsimp only; omega⟩ ⟨hamod, by dsimp only; omega⟩
        rw [hhead, if_pos ha]
        refine ⟨a + HDR, _, _, rfl, hI', fun _ _ _ _ => rfl, .inr ⟨_, rfl, ?_, rfl⟩⟩
        exact Nat.ne_of_gt (Nat.add_pos_right a (by decide))
  · rw [if_neg hsmall]
    obtain ⟨b, h', l, hrun, hq, hend⟩ := hI.largeAlloc (Nat.lt_of_not_le hsmall) hmod
      (by omega) hf
    rw [hrun]
    simp only [Option.bind_eq_bind, Option.bind_some]
    rcases hend with ⟨rfl, hI'⟩ | ⟨s, hs, hL, hsize, hI'⟩
    · exact ⟨0, h', _, rfl, hI', hq, .inl ⟨rfl, rfl⟩⟩
    · have hI'' := hI'.claim (c := ⟨b, s, n⟩) hsize ⟨h32.trans hs, hreq.trans hs⟩
        ⟨hL.start, hL.length⟩
      rw [if_pos (Nat.ne_of_gt hL.pos)]
      refine ⟨_, _, _, rfl, hI'', hq, .inr ⟨_, rfl, ?_, rfl⟩⟩
      exact Nat.ne_of_gt (Nat.add_pos_right b (by decide))

/-- **`free`** takes a block back. -/
theorem free {c : Live} {ls ms : List Live} (hI : Inv h P []) (hl : P.live = ls ++ c :: ms) :
    ∃ h' P', h.free (c.addr + HDR) = some h' ∧ Inv h' P' [] ∧ Quiet (ls ++ ms) h h' ∧
      P'.live = ls ++ ms := by
  have hc : c ∈ P.live := by simp [hl]
  have hroom := (hI.room c hc).1
  have hal := hI.aligned c.span (mem_all.mpr (.inl (List.mem_map_of_mem hc)))
  have hI₁ := hI.release hl
  have hin := hI₁.inside (r := c.span) (by simp) (by simp only [Live.span]; omega)
  have hsize : h.size c.addr = c.size := hI.live c hc
  simp only [Live.span] at hal hin
  rw [Heap.free, if_neg (Nat.ne_of_gt (Nat.add_pos_right c.addr (by decide))),
    Nat.add_sub_cancel]
  dsimp only
  rw [hsize]
  split_ifs with hsmall
  · obtain ⟨k, hk⟩ : ∃ k, c.size / 16 = k := ⟨_, rfl⟩
    have h16 : c.size = 16 * k := by omega
    have hI₂ : Inv h { P with live := ls ++ ms } [(c.addr, 16 * k)] := by
      rw [← h16]
      exact hI₁
    obtain ⟨hI', hq⟩ := hI₂.push (by omega) (by simp only [NCLASS, SMALL_MAX] at *; omega)
      (hsize.trans h16) hal.1
    rw [hk]
    exact ⟨_, _, rfl, hI', hq, rfl⟩
  · obtain ⟨h', l, hrun, hI', hq, -⟩ := hI₁.insert
      ⟨hal.1, hal.2, Nat.lt_of_not_le hsmall, hin.1, hin.2⟩ hsize
    exact ⟨h', _, hrun, hI', hq, rfl⟩

/-! ### Blocks in use -/

theorem pairwise (hI : Inv h P held) : (P.live.map Live.span).Pairwise Apart := by
  have hcover : ∀ x, Cover.cover (P.live.map Live.span) x ≤ 1 := fun x => by
    have := hI.once x
    have := cover_all P x
    omega
  refine pairwise_of_cover hcover fun r hr => ?_
  obtain ⟨b, hb, rfl⟩ := List.mem_map.mp hr
  exact Nat.lt_of_lt_of_le (by decide) (hI.room b hb).1

theorem apart {b c : Live} (hI : Inv h P held) (hb : b ∈ P.live) (hc : c ∈ P.live) (hne : b ≠ c) :
    Apart b.span c.span :=
  have : Std.Symm fun b c : Live => Apart b.span c.span := ⟨fun _ _ => Or.symm⟩
  (List.pairwise_map.mp hI.pairwise).forall hb hc hne

/-- **Memory changes inside the blocks in use**, or where no block is. -/
theorem scribble {m : Nat → UInt8} (hI : Inv h P []) (hm : ∀ x, m x ≠ h.mem x →
    Cover.cover h.obtained x = 0 ∨ ∃ c ∈ P.live, Has (c.addr + HDR, c.size - HDR) x) :
    Inv { h with mem := m } P [] := by
  have hfree : ∀ r ∈ P.large ++ smalls P.bins, 16 ≤ r.2 → SameAt r.1 h { h with mem := m } := by
    intro r hr h16 x hx
    by_contra hne
    have hrx : Has r x := ⟨hx.1, Nat.lt_of_lt_of_le hx.2 (Nat.add_le_add_left h16 _)⟩
    have hpos := cover_pos hr hrx
    have hone := hI.once x
    have hall := cover_all P x
    rw [cover_append] at hpos
    rcases hm x hne with h0 | ⟨c, hc, hcx⟩
    · have := hI.cover x
      omega
    · have := cover_pos (List.mem_map_of_mem (f := Live.span) hc)
        (x := x) ⟨by unfold Has at hcx; simp only [Live.span]; omega,
          by unfold Has at hcx; simp only [Live.span]; omega⟩
      omega
  have hlive : ∀ b ∈ P.live, SameAt b.addr h { h with mem := m } := by
    intro b hb x hx
    by_contra hne
    have hroom := hI.room b hb
    have hbx : Has b.span x := ⟨hx.1, by unfold Has at hx; simp only [Live.span]; omega⟩
    rcases hm x hne with h0 | ⟨c, hc, hcx⟩
    · have := hI.cover x
      have := cover_pos (List.mem_map_of_mem (f := Live.span) hb) hbx
      have := cover_all P x
      omega
    · by_cases hcb : c = b
      · subst hcb
        exact absurd hcx.1 (Nat.not_le.mpr hx.2)
      · have hap := hI.apart hc hb hcb
        unfold Apart at hap
        unfold Has at hx hcx
        simp only [Live.span] at hap
        omega
  exact { hI with
    list := hI.list.congr fun r hr =>
      hfree r (List.mem_append_left _ hr) (hI.large r hr).header
    bins := fun k => (hI.bins k).congr fun r hr =>
      hfree r (List.mem_append_right _ ((mem_smalls hI.classes).mpr ⟨k, hr⟩))
        (Nat.le_trans (by decide) (hI.binned_header hr))
    live := fun b hb => (hlive b hb).size.trans (hI.live b hb) }

/-! ### `calloc` and `realloc` -/

theorem given {live : List Live} {b : Live} (hI : Inv h P held) (hl : P.live = b :: live) :
    ∀ c ∈ live, Apart b.span c.span := fun c hc => by
  have hp := hI.pairwise
  rw [hl, List.map_cons] at hp
  exact List.rel_of_pairwise_cons hp (List.mem_map_of_mem hc)

/-- **A new block is filled.** -/
theorem fill {live : List Live} {b : Live} {m : Nat → UInt8} (hI : Inv h P [])
    (hl : P.live = b :: live) (hm : ∀ x, m x ≠ h.mem x → Has (b.addr + HDR, b.size - HDR) x) :
    Inv { h with mem := m } P [] ∧ Quiet live h { h with mem := m } := by
  have hmem : b ∈ P.live := hl ▸ List.mem_cons_self
  refine ⟨hI.scribble fun x hne => .inr ⟨b, hmem, hm x hne⟩, fun c hc x hx => ?_⟩
  by_contra hne
  have hap := hI.given hl c hc
  have hbx := hm x hne
  unfold Apart at hap
  unfold Has at hx hbx
  simp only [Live.span] at hap hx
  omega

/-- **`calloc`** returns null, or a block of zeros. -/
theorem calloc (hI : Inv h P []) (hf : Fresh sbrk h) (n sz : Nat) :
    ∃ p h' P', h.calloc sbrk n sz = some (p, h') ∧ Inv h' P' [] ∧ Quiet P.live h h' ∧
      Gives (n * sz) p P.live P'.live ∧
      (p ≠ 0 → n * sz < 2 ^ 64 ∧ ∀ i < n * sz, h'.mem (p + i) = 0) := by
  rw [Heap.calloc]
  split_ifs with hwrap
  · exact ⟨0, h, P, rfl, hI, .refl _ _, .inl ⟨rfl, rfl⟩, fun hp => absurd rfl hp⟩
  have hfit : n * sz < 2 ^ 64 := by
    rcases Nat.eq_zero_or_pos sz with rfl | hsz
    · exact Nat.two_pow_pos 64
    · have hle : n ≤ SIZE_MAX / sz := Nat.le_of_not_lt fun h => hwrap ⟨Nat.ne_of_gt hsz, h⟩
      have := (Nat.le_div_iff_mul_le hsz).mp hle
      simp only [SIZE_MAX] at this
      omega
  obtain ⟨p, h₁, P', hrun, hI₁, hq, hg⟩ := hI.malloc hf (n * sz)
  rw [Nat.mod_eq_of_lt hfit]
  dsimp only
  rw [hrun]
  simp only [Option.bind_eq_bind, Option.bind_some]
  rcases hg with ⟨rfl, hl⟩ | ⟨b, hb, hp, hl⟩
  · exact ⟨0, h₁, P', rfl, hI₁, hq, .inl ⟨rfl, hl⟩, fun hp => absurd rfl hp⟩
  · have hroom := (hI₁.room b (hl ▸ List.mem_cons_self)).2
    have hreq : b.req = n * sz := congrArg Prod.snd hb
    obtain rfl : b.addr + HDR = p := congrArg Prod.fst hb
    obtain ⟨hI₂, hq₂⟩ := hI₁.fill (m := (h₁.clear (b.addr + HDR) (n * sz)).mem) hl fun x hne => by
      have : b.addr + HDR ≤ x ∧ x < b.addr + HDR + n * sz := by
        by_contra hx
        exact hne (if_neg hx)
      unfold Has
      omega
    rw [if_pos hp]
    exact ⟨_, _, P', rfl, hI₂, hq.trans hq₂, .inr ⟨b, hb, hp, hl⟩,
      fun _ => ⟨hfit, fun i hi => if_pos ⟨Nat.le_add_right _ _, Nat.add_lt_add_left hi _⟩⟩⟩

/-- **`realloc`** returns null, or a block with the first bytes of the old one. -/
theorem realloc {c : Live} {ls ms : List Live} (hI : Inv h P []) (hf : Fresh sbrk h)
    (hl : P.live = ls ++ c :: ms) (n : Nat) :
    ∃ q h' P', h.realloc sbrk (c.addr + HDR) n = some (q, h') ∧ Inv h' P' [] ∧
      Quiet (ls ++ ms) h h' ∧
      (q = 0 ∧ n ≠ 0 → P'.live = P.live ∧ Quiet P.live h h') ∧
      (¬ (q = 0 ∧ n ≠ 0) → Gives n q (ls ++ ms) P'.live) ∧
      (q ≠ 0 → ∀ i < min c.req n, h'.mem (q + i) = h.mem (c.addr + HDR + i)) := by
  have hc : c ∈ P.live := by simp [hl]
  have hp : c.addr + HDR ≠ 0 := Nat.ne_of_gt (Nat.add_pos_right _ (by decide))
  have hroom := hI.room c hc
  have hal := hI.aligned c.span (mem_all.mpr (.inl (List.mem_map_of_mem hc)))
  have hsub : ∀ {b}, b ∈ ls ++ ms → b ∈ P.live := fun hb => by
    rw [hl]
    rcases List.mem_append.mp hb with hb | hb <;> simp [hb]
  rw [Heap.realloc, if_neg hp]
  split_ifs with hn
  · obtain ⟨h', P', hrun, hI', hq, hl'⟩ := hI.free hl
    rw [hrun]
    exact ⟨0, h', P', rfl, hI', hq, fun h => absurd hn h.2, fun _ => .inl ⟨rfl, hl'⟩,
      fun h => absurd rfl h⟩
  have husable : h.usableSize (c.addr + HDR) = c.size - HDR := by
    rw [usableSize, if_pos hp, Nat.add_sub_cancel, hI.live c hc]
  rw [husable]
  dsimp only
  split_ifs with hfits
  · have hI' := (hI.release hl).claim (c := ⟨c.addr, c.size, n⟩) (hI.live c hc)
      ⟨hroom.1, by dsimp only; omega⟩ hal
    exact ⟨_, h, _, rfl, hI', .refl _ _, fun h => absurd h.1 hp,
      fun _ => .inr ⟨⟨c.addr, c.size, n⟩, rfl, hp, rfl⟩, fun _ _ _ => rfl⟩
  · obtain ⟨q, h₁, P₁, hrun, hI₁, hq, hg⟩ := hI.malloc hf n
    rw [hrun]
    simp only [Option.bind_eq_bind, Option.bind_some]
    rcases hg with ⟨rfl, hl₁⟩ | ⟨b, hb, hq0, hl₁⟩
    · exact ⟨0, h₁, P₁, rfl, hI₁, fun b hb => hq b (hsub hb), fun _ => ⟨hl₁, hq⟩,
        fun h => absurd ⟨rfl, hn⟩ h, fun h => absurd rfl h⟩
    · rw [if_neg hq0]
      have hmem : b ∈ P₁.live := by simp [hl₁]
      have hroom' := (hI₁.room b hmem).2
      have hreq : b.req = n := congrArg Prod.snd hb
      obtain rfl : b.addr + HDR = q := congrArg Prod.fst hb
      obtain ⟨hI₂, hq₂⟩ := hI₁.fill
        (m := (h₁.copy (b.addr + HDR) (c.addr + HDR) (c.size - HDR)).mem) hl₁ fun x hne => by
          have : b.addr + HDR ≤ x ∧ x < b.addr + HDR + (c.size - HDR) := by
            by_contra hx
            exact hne (if_neg hx)
          unfold Has
          omega
      have hlive : P₁.live = (b :: ls) ++ c :: ms := by rw [hl₁, hl, List.cons_append]
      obtain ⟨h', P', hrun', hI', hq', hl'⟩ := hI₂.free hlive
      have hrun'' : (h₁.copy (b.addr + HDR) (c.addr + HDR) (c.size - HDR)).free (c.addr + HDR) =
          some h' := hrun'
      rw [hrun'']
      refine ⟨_, h', P', rfl, hI', fun d hd x hx => ?_, fun h => absurd h.1 hq0,
        fun _ => .inr ⟨b, by rw [← hreq]; rfl, hq0, hl'⟩, fun _ i hi => ?_⟩
      · refine (hq' d (List.mem_cons_of_mem _ hd) x hx).trans ?_
        exact (hq₂ d (hsub hd) x hx).trans (hq d (hsub hd) x hx)
      · have hi' : i < c.size - HDR := by omega
        have hbx : Has b.span (b.addr + HDR + i) := by
          unfold Has
          simp only [Live.span]
          omega
        have hcx : Has c.span (c.addr + HDR + i) := by
          unfold Has
          simp only [Live.span]
          omega
        rw [hq' b List.mem_cons_self _ hbx, ← hq c hc _ hcx]
        refine (if_pos ⟨Nat.le_add_right _ _, Nat.add_lt_add_left hi' _⟩).trans ?_
        rw [Nat.add_sub_cancel_left]

end Inv

/-! ## Calls in any order -/

/-- What the program does: it calls a function, or its memory becomes `m`. -/
inductive HeapCall where
  | malloc (sbrk : Nat → Nat → Option Nat) (n : Nat)
  | free (p : Nat)
  | calloc (sbrk : Nat → Nat → Option Nat) (n sz : Nat)
  | realloc (sbrk : Nat → Nat → Option Nat) (p n : Nat)
  | write (m : Nat → UInt8)

/-- The result of a call. -/
def Heap.call (h : Heap) : HeapCall → Option (Nat × Heap)
  | .malloc sbrk n => h.malloc sbrk n
  | .free p => (h.free p).map fun h => (0, h)
  | .calloc sbrk n sz => h.calloc sbrk n sz
  | .realloc sbrk p n => h.realloc sbrk p n
  | .write m => some (0, { h with mem := m })

/-- A result that is not null is a new block. -/
def grant (p n : Nat) (L : List (Nat × Nat)) : List (Nat × Nat) := if p = 0 then L else (p, n) :: L

/-- The blocks without the one at `p`. -/
def drop (p : Nat) (L : List (Nat × Nat)) : List (Nat × Nat) := L.eraseP fun b => b.1 = p

/-- The blocks in use after a call with the result `p`; a `realloc` that fails frees none. -/
def after (call : HeapCall) (p : Nat) (L : List (Nat × Nat)) : List (Nat × Nat) :=
  match call with
  | .malloc _ n => grant p n L
  | .free p' => drop p' L
  | .calloc _ n sz => grant p (n * sz) L
  | .realloc _ p' n => if p = 0 ∧ n ≠ 0 then L else grant p n (drop p' L)
  | .write _ => L

/-- A heap, and the pointers and sizes of the blocks in use. -/
abbrev Owned := Heap × List (Nat × Nat)

def stepCall (s : Owned) (call : HeapCall) : Option Owned :=
  (s.1.call call).map fun r => (r.2, after call r.1 s.2)

/-- No call has been made. -/
def unused (s : Owned) : Prop :=
  ∃ mem, s = (⟨mem, 0, fun _ => 0, 0, 0, []⟩, [])

/-- Null, or a block in use. -/
def Usable (L : List (Nat × Nat)) (p : Nat) : Prop := p = 0 ∨ p ∈ L.map Prod.fst

/-- What a program may do: it frees blocks in use only, and writes to the usable bytes of these, or
to memory that is not of the heap. -/
def Proper (s : Owned) : HeapCall → Prop
  | .malloc sbrk _ => Fresh sbrk s.1
  | .free p => Usable s.2 p
  | .calloc sbrk _ _ => Fresh sbrk s.1
  | .realloc sbrk p _ => Fresh sbrk s.1 ∧ Usable s.2 p
  | .write m => ∀ x, m x ≠ s.1.mem x → cover s.1.obtained x = 0 ∨
      ∃ b ∈ s.2, Has (b.1, s.1.usableSize b.1) x

/-- The bytes asked for are the same. -/
def Keeps (L : List (Nat × Nat)) (h h' : Heap) : Prop :=
  ∀ b ∈ L, ∀ i < b.2, h'.mem (b.1 + i) = h.mem (b.1 + i)

/-- What a call does to the bytes of the blocks. -/
def Does (call : HeapCall) (h : Heap) (L : List (Nat × Nat)) (p : Nat) (h' : Heap) : Prop :=
  match call with
  | .malloc _ _ => Keeps L h h'
  | .free p' => Keeps (drop p' L) h h'
  | .calloc _ n sz => Keeps L h h' ∧ (p ≠ 0 → n * sz < 2 ^ 64 ∧ ∀ i < n * sz, h'.mem (p + i) = 0)
  | .realloc _ p' n => Keeps (drop p' L) h h' ∧ (p = 0 ∧ n ≠ 0 → Keeps L h h') ∧
      ∀ b ∈ L, b.1 = p' → p ≠ 0 → ∀ i < min b.2 n, h'.mem (p + i) = h.mem (p' + i)
  | .write m => h'.mem = m

variable {L : List (Nat × Nat)} {live live' : List Live} {call : HeapCall}

theorem Gives.users (hg : Gives n p live live') :
    live'.map Live.user = grant p n (live.map Live.user) := by
  rcases hg with ⟨rfl, rfl⟩ | ⟨b, hb, hp, rfl⟩
  · rfl
  · rw [grant, if_neg hp, List.map_cons, hb]

theorem Quiet.keeps (hq : Quiet live h h') (hroom : ∀ b ∈ live, HDR + b.req ≤ b.size) :
    Keeps (live.map Live.user) h h' := by
  intro b hb i hi
  obtain ⟨c, hc, rfl⟩ := List.mem_map.mp hb
  have := hroom c hc
  refine hq c hc _ ?_
  unfold Has
  simp only [Live.user, Live.span] at *
  omega

theorem Parts.split (hL : P.live.map Live.user = L) (hp : p ∈ L.map Prod.fst) :
    ∃ ls c ms, P.live = ls ++ c :: ms ∧ c.addr + HDR = p ∧
      drop p L = (ls ++ ms).map Live.user := by
  subst hL
  rw [List.map_map] at hp
  obtain ⟨c, hc, hcp⟩ := List.mem_map.mp hp
  obtain ⟨c, ls, ms, -, hcp, hl, he⟩ := List.exists_of_eraseP
    (p := fun c : Live => decide (c.addr + HDR = p)) hc (decide_eq_true hcp)
  exact ⟨ls, c, ms, hl, of_decide_eq_true hcp, by rw [drop, List.eraseP_map, ← he]; rfl⟩

theorem Parts.drop_zero (hL : P.live.map Live.user = L) : drop 0 L = L := by
  refine List.eraseP_of_forall_not fun b hb => ?_
  subst hL
  obtain ⟨c, -, rfl⟩ := List.mem_map.mp hb
  exact fun h => Nat.succ_ne_zero _ (of_decide_eq_true h)

namespace Inv

theorem does (hI : Inv h P []) (hL : P.live.map Live.user = L) (hc : Proper (h, L) call) :
    ∃ p h' P', h.call call = some (p, h') ∧ Inv h' P' [] ∧
      P'.live.map Live.user = after call p L ∧ Does call h L p h' := by
  have hroom : ∀ b ∈ P.live, HDR + b.req ≤ b.size := fun b hb => (hI.room b hb).2
  cases call with
  | malloc sbrk n =>
      obtain ⟨p, h', P', hrun, hI', hq, hg⟩ := hI.malloc hc n
      exact ⟨p, h', P', hrun, hI', hL ▸ hg.users, hL ▸ hq.keeps hroom⟩
  | calloc sbrk n sz =>
      obtain ⟨p, h', P', hrun, hI', hq, hg, hz⟩ := hI.calloc hc n sz
      exact ⟨p, h', P', hrun, hI', hL ▸ hg.users, hL ▸ hq.keeps hroom, hz⟩
  | write m =>
      refine ⟨0, _, P, rfl, hI.scribble fun x hx => (hc x hx).imp_right ?_, hL, rfl⟩
      rintro ⟨b, hb, hbx⟩
      obtain ⟨c, hc, rfl⟩ := List.mem_map.mp (hL ▸ hb)
      have hp : c.addr + HDR ≠ 0 := Nat.ne_of_gt (Nat.add_pos_right _ (by decide))
      simp only [Live.user] at hbx
      rw [usableSize, if_pos hp, Nat.add_sub_cancel, hI.live c hc] at hbx
      exact ⟨c, hc, hbx⟩
  | free p =>
      rcases hc with rfl | hp
      · have hL' : P.live.map Live.user = drop 0 L := (Parts.drop_zero hL).symm ▸ hL
        exact ⟨0, h, P, rfl, hI, hL', fun _ _ _ _ => rfl⟩
      · obtain ⟨ls, c, ms, hl, rfl, hdrop⟩ := Parts.split hL hp
        obtain ⟨h', P', hrun, hI', hq, hl'⟩ := hI.free hl
        refine ⟨0, h', P', by rw [Heap.call, hrun]; rfl, hI', by rw [hl', after, hdrop], ?_⟩
        rw [Does, hdrop]
        refine hq.keeps fun b hb => hroom b ?_
        rw [hl]
        rcases List.mem_append.mp hb with hb | hb <;> simp [hb]
  | realloc sbrk p n =>
      rcases hc.2 with rfl | hp
      · obtain ⟨q, h', P', hrun, hI', hq, hg⟩ := hI.malloc hc.1 n
        have hk : Keeps L h h' := hL ▸ hq.keeps hroom
        refine ⟨q, h', P', hrun, hI', ?_, ?_, fun _ => hk, fun b hb hb0 => ?_⟩
        · rw [hg.users, hL, after, Parts.drop_zero hL]
          split_ifs with h0
          · exact if_pos h0.1
          · rfl
        · rwa [Parts.drop_zero hL]
        · subst hL
          obtain ⟨c, -, rfl⟩ := List.mem_map.mp hb
          exact absurd hb0 (Nat.succ_ne_zero _)
      · obtain ⟨ls, c, ms, hl, rfl, hdrop⟩ := Parts.split hL hp
        have hsub : ∀ b ∈ ls ++ ms, HDR + b.req ≤ b.size := fun b hb => hroom b (by
          rw [hl]
          rcases List.mem_append.mp hb with hb | hb <;> simp [hb])
        obtain ⟨q, h', P', hrun, hI', hq, hfail, hg, hcopy⟩ := hI.realloc hc.1 hl n
        refine ⟨q, h', P', hrun, hI', ?_, ?_, fun h0 => ?_, fun b hb hbp => ?_⟩
        · rw [after]
          split_ifs with h0
          · rw [(hfail h0).1, hL]
          · rw [(hg h0).users, hdrop]
        · rw [hdrop]
          exact hq.keeps hsub
        · exact hL ▸ (hfail h0).2.keeps hroom
        · obtain ⟨d, hd, rfl⟩ := List.mem_map.mp (hL ▸ hb)
          have hdc : d = c := by
            by_contra hne
            have hap := hI.apart hd (hl ▸ by simp) hne
            have := hI.room d hd
            have := hI.room c (hl ▸ by simp)
            unfold Apart at hap
            simp only [Live.user, Live.span] at *
            omega
          exact hdc ▸ hcopy

theorem start (mem : Nat → UInt8) :
    Inv ⟨mem, 0, fun _ => 0, 0, 0, []⟩ ⟨[], [], fun _ => [], (0, 0), []⟩ [] where
  list := rfl
  bins := fun _ => rfl
  live := nofun
  arena := ⟨rfl, rfl⟩
  cover := fun x => by
    have hs : Cover.cover (smalls fun _ => []) x = 0 := by
      rw [cover_smalls]
      exact Finset.sum_eq_zero fun _ _ => rfl
    rw [cover_all, hs, cover_empty]
    rfl
  supplied := ⟨nofun, fun _ => Nat.zero_le _⟩
  spaced := .nil
  large := nofun
  classes := fun _ h => absurd rfl h
  aligned := fun r hr => by
    have hs : r ∉ smalls fun _ => [] := fun hr => by
      obtain ⟨k, -, hr⟩ := List.mem_flatMap.mp hr
      exact List.not_mem_nil hr
    rcases mem_all.mp hr with hr | hr | hr | rfl | hr
    · exact absurd hr List.not_mem_nil
    · exact absurd hr List.not_mem_nil
    · exact absurd hr hs
    · exact ⟨rfl, rfl⟩
    · exact absurd hr List.not_mem_nil
  room := nofun
  short := nofun

end Inv

theorem reached_inv {s : Owned} (hr : Reached stepCall unused Proper s) :
    ∃ P : Parts, P.live.map Live.user = s.2 ∧ Inv s.1 P [] := by
  refine hr.invariant (I := fun s => ∃ P : Parts, P.live.map Live.user = s.2 ∧ Inv s.1 P []) ?_ ?_
  · rintro s ⟨mem, rfl⟩
    exact ⟨_, rfl, Inv.start mem⟩
  · rintro s call t ⟨P, hL, hI⟩ hc hs
    obtain ⟨p, h', P', hrun, hI', hL', -⟩ := hI.does hL hc
    rw [stepCall, hrun] at hs
    obtain rfl := Option.some.inj hs
    exact ⟨P', hL', hI'⟩

/-- **The allocator is sound**: in every state reached, the memory obtained is shared out among
parts that are apart, among them the blocks in use, which are aligned, large enough and apart; and
every call returns and does what it is for. -/
theorem heap_sound (hr : Reached stepCall unused Proper (h, L)) :
    (∃ P : Parts, P.live.map Live.user = L ∧ Inv h P [] ∧ (P.live.map Live.span).Pairwise Apart ∧
      (∀ b ∈ P.live, b.addr % 16 = 0 ∧ b.req ≤ h.usableSize (b.addr + HDR) ∧
        ∀ x, Has b.span x → 0 < cover h.obtained x) ∧
      ∀ x, cover P.all x = cover h.obtained x ∧ cover h.obtained x ≤ 1) ∧
    ∀ call, Proper (h, L) call →
      ∃ p h', h.call call = some (p, h') ∧ Does call h L p h' := by
  obtain ⟨P, hL, hI⟩ := reached_inv hr
  have hcover : ∀ x, cover P.all x = cover h.obtained x := fun x => by
    rw [← hI.cover x, cover_nil, Nat.zero_add]
  refine ⟨⟨P, hL, hI, hI.pairwise, fun b hb => ?_, fun x => ⟨hcover x, hI.supplied.2 x⟩⟩,
    fun call hc => ?_⟩
  · have hmem : b.span ∈ P.all := mem_all.mpr (.inl (List.mem_map_of_mem hb))
    refine ⟨(hI.aligned _ hmem).1, ?_, fun x hx => hcover x ▸ cover_pos hmem hx⟩
    rw [usableSize, if_pos (Nat.ne_of_gt (Nat.add_pos_right _ (by decide))), Nat.add_sub_cancel,
      hI.live b hb]
    exact Nat.le_sub_of_add_le (Nat.add_comm _ _ ▸ (hI.room b hb).2)
  · obtain ⟨p, h', -, hrun, -, -, hdoes⟩ := hI.does hL hc
    exact ⟨p, h', hrun, hdoes⟩

/-- A program that has one block, from a heap that `sbrk` made. -/
theorem heap_sound_one : ∃ h, Reached stepCall unused Proper (h, [(2 ^ 36 + 16, 100)]) ∧
    (∃ P : Parts, P.live.map Live.user = [(2 ^ 36 + 16, 100)] ∧ Inv h P []) ∧
    ∃ p h', h.call (.realloc (fun _ _ => none) (2 ^ 36 + 16) 5000) = some (p, h') ∧
      Does (.realloc (fun _ _ => none) (2 ^ 36 + 16) 5000) h [(2 ^ 36 + 16, 100)] p h' := by
  let sbrk : Nat → Nat → Option Nat := fun _ n => if n = MIN_GROW then some (2 ^ 36) else none
  let h₀ : Heap := ⟨fun _ => 0, 0, fun _ => 0, 0, 0, []⟩
  have hfresh : Fresh sbrk h₀ := by
    intro i n old hs
    obtain ⟨rfl, hold⟩ := (Option.ite_none_right_eq_some ..).mp hs
    obtain rfl := Option.some.inj hold
    refine ⟨by decide, fun x => ?_⟩
    rw [cover_one]
    split_ifs <;> decide
  have hres : (h₀.malloc sbrk 100).map Prod.fst = some (2 ^ 36 + 16) := by decide +kernel
  obtain ⟨⟨p, h⟩, hrun, rfl⟩ := Option.map_eq_some_iff.mp hres
  have hreach : Reached stepCall unused Proper (h, [(2 ^ 36 + 16, 100)]) := by
    refine Reached.step (s := (h₀, [])) (.init ⟨_, rfl⟩) (e := .malloc sbrk 100) hfresh ?_
    rw [stepCall, Heap.call, hrun]
    rfl
  obtain ⟨⟨P, hL, hI, -⟩, hcall⟩ := heap_sound hreach
  refine ⟨h, hreach, ⟨P, hL, hI⟩, hcall (.realloc (fun _ _ => none) _ 5000) ⟨nofun, ?_⟩⟩
  exact .inr List.mem_cons_self

end Pulsar.Libc

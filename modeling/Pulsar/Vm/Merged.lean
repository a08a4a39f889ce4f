import Pulsar.Vm.Elf

/-!
# Pages that segments share (`exec.rs`)

A page of which several segments have bytes is mapped for the first of them.  The others are copied
into it, and each sets its protection from its own permissions, with reading and writing added.

* `grants_eq`, `lays_eq`: the protection and the bytes of a page after the segments that touch it.
* **`fillElf_merged`**: they are the union of the permissions and the bytes of the file exactly
  where segments that share a page agree on it (`Agreeing`).
* `fillElf_code_lost`: a page of code that a segment of data shares.
-/

namespace Pulsar.Vm

variable {file : File} {s t : Filling} {q : Piece} {T qs : List Piece} {p x dynBase : Nat}
  {segs : List Seg}

/-! ### What is meant -/

/-- The segments that have a byte of the page, in their order. -/
def touching (qs : List Piece) (p : Nat) : List Piece := qs.filter fun q => decide (q.Covers p)

/-- The permissions of segments together. -/
def unionProt (T : List Piece) : Nat := T.foldl (fun a q => a ||| q.prot) 0

/-- The byte of the file for an address: of the last segment that has one, or zero. -/
def fileByte (file : File) (T : List Piece) (x : Nat) : UInt8 :=
  T.foldl (fun b q => if q.Data x then q.byte file x else b) 0

/-- Each page has the permissions of all segments that touch it, and the bytes of the file. -/
structure Merged (file : File) (qs : List Piece) (t : Filling) : Prop where
  flags : ∀ p, t.flags p =
    if touching qs p = [] then none else some (.userProt (unionProt (touching qs p)))
  bytes : ∀ x, touching qs (x / PAGE) ≠ [] → t.mem x = fileByte file qs x

/-- A segment that has the byte, with only ones that permit nothing before it, which permits nothing
either, and is followed by one that has it not: the page was mapped again. -/
structure Lost (x : Nat) (T pre : List Piece) (q r : Piece) (post : List Piece) : Prop where
  split : T = pre ++ q :: r :: post
  closed : ∀ u ∈ pre ++ [q], ¬ u.Readable
  data : q.Data x
  last : ∀ u ∈ r :: post, ¬ u.Data x

/-- The segments that touch a page agree on it.  Where one before the last permits anything, one of
them permits writing; the last permits execution if one before does.  A segment that is followed by
another, and has before it only ones that permit nothing, as it does, has only zeros there for which
no later one has a byte. -/
structure Agreeing (file : File) (T : List Piece) (p : Nat) : Prop where
  write : ∀ pre q, T = pre ++ [q] → (∃ r ∈ pre, r.Readable) → ∃ r ∈ T, r.prot.testBit 1 = true
  exec : ∀ pre q, T = pre ++ [q] → (∃ r ∈ pre, r.prot.testBit 2 = true) → q.prot.testBit 2 = true
  zero : ∀ x, x / PAGE = p → ∀ pre q r post, Lost x T pre q r post → q.byte file x = 0

/-- The segments of the file agree on each page. -/
def File.Agreeing (file : File) (dynBase : Nat) : Prop :=
  ∀ p, Vm.Agreeing file (touching (file.loads dynBase) p) p

/-! ### The protection of a page -/

theorem readable_iff : q.Readable ↔
    q.prot.testBit 0 = true ∨ q.prot.testBit 1 = true ∨ q.prot.testBit 2 = true := by
  simp only [Piece.Readable, PageFlags.userProt, Bool.or_eq_true, or_assoc]

theorem testBit_unionProt (T : List Piece) (i : Nat) :
    (unionProt T).testBit i = true ↔ ∃ r ∈ T, r.prot.testBit i = true := by
  induction T using List.reverseRecOn with
  | nil => simp [unionProt]
  | append_singleton T q ih =>
      have hstep : unionProt (T ++ [q]) = unionProt T ||| q.prot := List.foldl_concat ..
      rw [hstep, Nat.testBit_or, Bool.or_eq_true, ih]
      simp only [List.mem_append, List.mem_singleton, or_and_right, exists_or, exists_eq_left]

/-- The flags of a page after the segments that touch it. -/
def grants (T : List Piece) : Option PageFlags := T.foldl (fun f q => some (q.flags f)) none

theorem grants_append (T : List Piece) (q : Piece) :
    grants (T ++ [q]) = some (q.flags (grants T)) := List.foldl_concat ..

theorem flags_userProt {f : PageFlags} (hs : f.isShared = false) (q : Piece) :
    q.flags (some f) =
      .userProt (if f.user = true then q.prot ||| 1 ||| 2 else q.prot) := by
  cases hu : f.user with
  | true => simp [Piece.flags, PageFlags.userProt, hu, hs]
  | false => simp [Piece.flags, hu]

theorem user_userProt (prot : Nat) (c : Prop) [Decidable c] :
    (PageFlags.userProt (if c then prot ||| 1 ||| 2 else prot)).user = true ↔
      c ∨ (PageFlags.userProt prot).user = true := by
  split_ifs with hc
  · simp [PageFlags.userProt, Nat.testBit_or, hc]
  · simp [hc]

theorem grants_user (T : List Piece) : ∀ f ∈ grants T,
    f.isShared = false ∧ (f.user = true ↔ ∃ r ∈ T, r.Readable) := by
  induction T using List.reverseRecOn with
  | nil => exact fun f hf => absurd hf (Option.not_mem_none f)
  | append_singleton T q ih =>
      intro f hf
      rw [grants_append] at hf
      obtain rfl := Option.some.inj hf
      simp only [List.mem_append, List.mem_singleton, or_and_right, exists_or, exists_eq_left]
      rcases hg : grants T with - | g
      · have hT : T = [] := by
          cases T using List.reverseRecOn with
          | nil => rfl
          | append_singleton T r => rw [grants_append] at hg; cases hg
        subst hT
        simp [Piece.flags, Piece.Readable, PageFlags.userProt]
      · obtain ⟨hs, hu⟩ := ih g hg
        rw [flags_userProt hs]
        refine ⟨rfl, (user_userProt q.prot _).trans (or_congr_left hu)⟩

/-- **The protection** of a page is that of the last segment that touches it, with reading and
writing if the page could be used before. -/
theorem grants_eq (T : List Piece) (q : Piece) [Decidable (∃ r ∈ T, r.Readable)] :
    grants (T ++ [q]) =
      some (.userProt (if ∃ r ∈ T, r.Readable then q.prot ||| 1 ||| 2 else q.prot)) := by
  rw [grants_append]
  rcases hg : grants T with - | g
  · have hT : ¬ ∃ r ∈ T, r.Readable := by
      cases T using List.reverseRecOn with
      | nil => simp
      | append_singleton T r => rw [grants_append] at hg; cases hg
    rw [if_neg hT]
    rfl
  · obtain ⟨hs, hu⟩ := grants_user T g hg
    rw [flags_userProt hs]
    exact congrArg (fun prot => some (PageFlags.userProt prot)) (if_congr hu rfl rfl)

theorem userProt_congr {a b : Nat} (h₀ : a.testBit 0 = b.testBit 0)
    (h₁ : a.testBit 1 = b.testBit 1) (h₂ : a.testBit 2 = b.testBit 2) :
    PageFlags.userProt a = .userProt b := by
  simp only [PageFlags.userProt, h₀, h₁, h₂]

theorem userProt_written {a b : Nat} (hb : (PageFlags.userProt b).user = true) :
    PageFlags.userProt (a ||| 1 ||| 2) = .userProt b ↔
      b.testBit 1 = true ∧ a.testBit 2 = b.testBit 2 := by
  simp only [PageFlags.userProt, Bool.or_eq_true] at hb
  simp only [PageFlags.userProt, PageFlags.mk.injEq, Nat.testBit_or,
    show Nat.testBit 1 2 = false from rfl, show Nat.testBit 2 0 = false from rfl,
    show Nat.testBit 2 1 = true from rfl, show Nat.testBit 2 2 = false from rfl]
  cases h₀ : b.testBit 0 <;> cases h₁ : b.testBit 1 <;> cases h₂ : b.testBit 2 <;> simp_all

theorem grants_union (T : List Piece) (q : Piece) :
    grants (T ++ [q]) = some (.userProt (unionProt (T ++ [q]))) ↔
      ((∃ r ∈ T, r.Readable) → ∃ r ∈ T ++ [q], r.prot.testBit 1 = true) ∧
        ((∃ r ∈ T, r.prot.testBit 2 = true) → q.prot.testBit 2 = true) := by
  classical
  have hbit (i : Nat) := testBit_unionProt (T ++ [q]) i
  have hlast (i : Nat) : (unionProt (T ++ [q])).testBit i = true ↔
      (∃ r ∈ T, r.prot.testBit i = true) ∨ q.prot.testBit i = true := by
    rw [hbit]
    simp only [List.mem_append, List.mem_singleton, or_and_right, exists_or, exists_eq_left]
  rw [grants_eq, Option.some_inj]
  by_cases hr : ∃ r ∈ T, r.Readable
  · have hb : (PageFlags.userProt (unionProt (T ++ [q]))).user = true := by
      obtain ⟨r, hT, hread⟩ := hr
      simp only [PageFlags.userProt, Bool.or_eq_true, hbit]
      have hmem : r ∈ T ++ [q] := List.mem_append_left _ hT
      obtain h | h | h := readable_iff.mp hread
      · exact .inl (.inl ⟨r, hmem, h⟩)
      · exact .inl (.inr ⟨r, hmem, h⟩)
      · exact .inr ⟨r, hmem, h⟩
    rw [if_pos hr, userProt_written hb, forall_prop_of_true hr, hbit, Bool.eq_iff_iff, hlast]
    exact and_congr_right fun _ => ⟨fun h h' => h.mpr (.inl h'), fun h => ⟨.inr, (·.elim h id)⟩⟩
  · have hno {i : Nat} (hi : i = 0 ∨ i = 1 ∨ i = 2) : ¬ ∃ r ∈ T, r.prot.testBit i = true := by
      rintro ⟨r, hT, h⟩
      refine hr ⟨r, hT, readable_iff.mpr ?_⟩
      obtain rfl | rfl | rfl := hi
      · exact .inl h
      · exact .inr (.inl h)
      · exact .inr (.inr h)
    have heq {i : Nat} (hi : i = 0 ∨ i = 1 ∨ i = 2) :
        q.prot.testBit i = (unionProt (T ++ [q])).testBit i := by
      rw [Bool.eq_iff_iff, hlast]
      exact (or_iff_right (hno hi)).symm
    rw [if_neg hr]
    exact iff_of_true (userProt_congr (heq (by simp)) (heq (by simp)) (heq (by simp)))
      ⟨fun h => absurd h hr, fun h => absurd h (hno (by simp))⟩

/-! ### The bytes of a page -/

/-- The bytes after the segments that touch the page, where nobody has used the page before. -/
def lays (file : File) (x : Nat) (b : UInt8) (T : List Piece) : Bool × UInt8 :=
  T.foldl (fun c q => (c.1 || decide q.Readable,
    if q.Data x then q.byte file x else if c.1 then c.2 else 0)) (false, b)

theorem lays_append (b : UInt8) (T : List Piece) (q : Piece) :
    lays file x b (T ++ [q]) = ((lays file x b T).1 || decide q.Readable,
      if q.Data x then q.byte file x
      else if (lays file x b T).1 then (lays file x b T).2 else 0) := List.foldl_concat ..

theorem lays_fst (b : UInt8) (T : List Piece) :
    (lays file x b T).1 = true ↔ ∃ r ∈ T, r.Readable := by
  induction T using List.reverseRecOn with
  | nil => simp [lays]
  | append_singleton T q ih =>
      rw [lays_append, Bool.or_eq_true, ih, decide_eq_true_eq]
      simp only [List.mem_append, List.mem_singleton, or_and_right, exists_or, exists_eq_left]

theorem fileByte_append (T : List Piece) (q : Piece) :
    fileByte file (T ++ [q]) x = if q.Data x then q.byte file x else fileByte file T x :=
  List.foldl_concat ..

theorem fileByte_skip (T : List Piece) {post : List Piece} (h : ∀ u ∈ post, ¬ u.Data x) :
    fileByte file (T ++ post) x = fileByte file T x := by
  induction post using List.reverseRecOn with
  | nil => rw [List.append_nil]
  | append_singleton post u ih =>
      rw [← List.append_assoc, fileByte_append, if_neg (h u (List.mem_append_right _ (by simp)))]
      exact ih fun v hv => h v (List.mem_append_left _ hv)

theorem lays_skip {b : UInt8} {T post : List Piece} (hT : (lays file x b T).2 = 0)
    (h : ∀ u ∈ post, ¬ u.Data x) : (lays file x b (T ++ post)).2 = 0 := by
  induction post using List.reverseRecOn with
  | nil => rwa [List.append_nil]
  | append_singleton post u ih =>
      have hprev := ih fun v hv => h v (List.mem_append_left _ hv)
      rw [← List.append_assoc, lays_append, if_neg (h u (List.mem_append_right _ (by simp))),
        hprev]
      exact ite_self 0

theorem fileByte_last (T : List Piece) :
    (∀ u ∈ T, ¬ u.Data x) ∨ ∃ pre q post, T = pre ++ q :: post ∧ q.Data x ∧
      ∀ u ∈ post, ¬ u.Data x := by
  induction T using List.reverseRecOn with
  | nil => exact .inl fun u hu => absurd hu List.not_mem_nil
  | append_singleton T q ih =>
      by_cases hq : q.Data x
      · exact .inr ⟨T, q, [], rfl, hq, fun u hu => absurd hu List.not_mem_nil⟩
      have hmore {post : List Piece} (h : ∀ u ∈ post, ¬ u.Data x) :
          ∀ u ∈ post ++ [q], ¬ u.Data x := fun u hu =>
        (List.mem_append.mp hu).elim (h u) fun hu => List.mem_singleton.mp hu ▸ hq
      obtain h | ⟨pre, r, post, rfl, hr, h⟩ := ih
      · exact .inl (hmore h)
      · exact .inr ⟨pre, r, post ++ [q], by simp, hr, hmore h⟩

theorem Lost.append {pre post : List Piece} {r u : Piece} (h : Lost x T pre q r post)
    (hu : ¬ u.Data x) : Lost x (T ++ [u]) pre q r (post ++ [u]) where
  split := by rw [h.split]; simp
  closed := h.closed
  data := h.data
  last v hv := by
    obtain hv | hv := List.mem_append.mp (show v ∈ (r :: post) ++ [u] from hv)
    · exact h.last v hv
    · exact List.mem_singleton.mp hv ▸ hu

theorem Lost.bytes {pre post : List Piece} {r : Piece} (h : Lost x T pre q r post) (b : UInt8) :
    (lays file x b T).2 = 0 ∧ fileByte file T x = q.byte file x := by
  have hsplit : T = (pre ++ [q]) ++ r :: post := by rw [h.split]; simp
  constructor
  · have hshut : ¬ (lays file x b (pre ++ [q])).1 = true := fun hc => by
      obtain ⟨u, hu, hread⟩ := (lays_fst b _).mp hc
      exact h.closed u hu hread
    have hone : (lays file x b ((pre ++ [q]) ++ [r])).2 = 0 := by
      rw [lays_append, if_neg (h.last r (List.mem_cons_self ..)), if_neg hshut]
    rw [hsplit, show (pre ++ [q]) ++ r :: post = ((pre ++ [q]) ++ [r]) ++ post by simp]
    exact lays_skip hone fun u hu => h.last u (List.mem_cons_of_mem _ hu)
  · rw [hsplit, fileByte_skip _ h.last, fileByte_append, if_pos h.data]

/-- **The byte** is that of the file, or it is lost. -/
theorem lays_snd (b : UInt8) (T : List Piece) (hT : T ≠ []) :
    (lays file x b T).2 = fileByte file T x ∨ ∃ pre q r post, Lost x T pre q r post := by
  induction T using List.reverseRecOn with
  | nil => exact absurd rfl hT
  | append_singleton T u ih =>
      rw [lays_append, fileByte_append]
      by_cases hu : u.Data x
      · rw [if_pos hu, if_pos hu]
        exact .inl rfl
      rw [if_neg hu, if_neg hu]
      by_cases hshut : (lays file x b T).1 = true
      · have hne : T ≠ [] := by
          rintro rfl
          exact Bool.noConfusion hshut
        rw [if_pos hshut]
        exact (ih hne).imp_right fun ⟨pre, q, r, post, h⟩ => ⟨pre, q, r, _, h.append hu⟩
      · rw [if_neg hshut]
        obtain h | ⟨pre, q, post, rfl, hq, h⟩ := fileByte_last T (x := x)
        · have hnone := @fileByte_skip file x [] _ h
          rw [List.nil_append] at hnone
          exact .inl hnone.symm
        · right
          have hclosed : ∀ v ∈ pre ++ [q], ¬ v.Readable := fun v hv hread =>
            hshut ((lays_fst b _).mpr ⟨v, by simp at hv ⊢; tauto, hread⟩)
          cases post with
          | nil =>
              refine ⟨pre, q, u, [], by simp, hclosed, hq, fun v hv => ?_⟩
              exact List.mem_singleton.mp hv ▸ hu
          | cons r post => exact ⟨pre, q, r, post ++ [u], Lost.append ⟨rfl, hclosed, hq, h⟩ hu⟩

theorem lays_eq (b : UInt8) (T : List Piece) (hT : T ≠ []) :
    (lays file x b T).2 = fileByte file T x ↔
      ∀ pre q r post, Lost x T pre q r post → q.byte file x = 0 := by
  refine ⟨fun h pre q r post hl => ?_, fun h => ?_⟩
  · obtain ⟨hz, hf⟩ := @Lost.bytes file q T x pre post r hl b
    rw [← hf, ← h, hz]
  · obtain h' | ⟨pre, q, r, post, hl⟩ := @lays_snd file x b T hT
    · exact h'
    · obtain ⟨hz, hf⟩ := @Lost.bytes file q T x pre post r hl b
      rw [hz, hf, h _ _ _ _ hl]

/-! ### A file -/

theorem touching_append (qs : List Piece) (q : Piece) (p : Nat) :
    touching (qs ++ [q]) p = if q.Covers p then touching qs p ++ [q] else touching qs p := by
  rw [touching, List.filter_append]
  split_ifs with hc <;> simp [hc, touching]

theorem fileByte_touching (h : ∀ q ∈ qs, ¬ q.Bad file) (x : Nat) :
    fileByte file qs x = fileByte file (touching qs (x / PAGE)) x := by
  induction qs using List.reverseRecOn with
  | nil => rfl
  | append_singleton qs q ih =>
      have hgood := h q (List.mem_append_right _ (List.mem_singleton_self q))
      have hprev := ih fun r hr => h r (List.mem_append_left _ hr)
      simp only [Piece.Bad, not_or, not_lt, not_le] at hgood
      rw [fileByte_append, touching_append]
      by_cases hc : q.Covers (x / PAGE)
      · rw [if_pos hc, fileByte_append]
        exact if_congr Iff.rfl rfl hprev
      · have hd : ¬ q.Data x := fun hd => hc <| by
          simp only [Piece.Data] at hd
          simp only [Piece.Covers, PAGE]
          omega
        rwa [if_neg hc, if_neg hd]

theorem fillSegments_panics {base phoff n : Nat} (hsize : file.size < 2 ^ 63) (hn : n < 2 ^ 16)
    (hp : phoff < 2 ^ 64) (hfit : 2 ^ 64 ≤ phoff + n * 56) (a : Scan) (s : Filling) :
    ∃ t, fillSegments file base phoff (List.range n) a s = .error .panic t := by
  obtain ⟨k, rfl⟩ : ∃ k, n = k + 1 := ⟨n - 1, by omega⟩
  rw [List.range_succ_eq_map, fillSegments]
  refine ⟨(s.sum phoff (0 * 56)).sum phoff ((0 + 1) * 56), ?_⟩
  have hout : wrap (phoff + (0 + 1) * 56) < wrap (phoff + 0 * 56) ∨
      file.size < wrap (phoff + (0 + 1) * 56) := by
    unfold wrap
    omega
  change (if wrap (phoff + (0 + 1) * 56) < wrap (phoff + 0 * 56) ∨
      file.size < wrap (phoff + (0 + 1) * 56) then _ else _ : Filler Scan) _ = _
  rw [if_pos hout]
  rfl

theorem fillElf_laid (hsize : file.size < 2 ^ 63) (s : Filling) :
    wp (fillElf file dynBase segs)
      (fun _ t => ∃ a u, Laid file (file.loads dynBase) s a u ∧ t.load = u.load ∧ t.mem = u.mem)
      (fun _ _ => True) s := by
  by_cases hacc : file.Accepted
  swap
  · rw [fillElf_refused hacc]
    trivial
  rw [fillElf_accepted hacc]
  have hphoff : rd64 file 32 < 2 ^ 64 := leGet_lt _ 8 _
  have hphnum : rd16 file 56 < 2 ^ 16 := leGet_lt _ 2 _
  refine (wp_bind _ _).mpr ((wp_addFields _ _).mpr ?_)
  refine wp_ite.mpr ⟨fun _ => trivial, fun hin => (wp_bind _ _).mpr ?_⟩
  by_cases hfit : rd64 file 32 + rd16 file 56 * 56 < 2 ^ 64
  · rw [show wrap (rd64 file 32 + rd16 file 56 * 56) = _ from Nat.mod_eq_of_lt hfit] at hin
    have hlow : Scan.Low ⟨0, none, none, segs⟩ := fun _ hx => absurd hx (Option.not_mem_none _)
    have hheads : ∀ i ∈ List.range (rd16 file 56), rd64 file 32 + (i + 1) * 56 ≤ file.size :=
      fun i hi => by
        have hi' := List.mem_range.mp hi
        omega
    rw [sum_eq hfit]
    refine wp_mono (fillSegments_done (by omega) hheads hlow) (fun a u hu => ?_)
      fun _ _ _ => trivial
    obtain ⟨v, hv⟩ := findPhdr_ok hu.2.low (by omega : rd64 file 32 < 2 ^ 63) u
    refine (wp_bind _ _).mpr ((wp_ok hv).mpr ((wp_bind _ _).mpr ((wp_addFields _ _).mpr ?_)))
    exact ⟨a, u, hu.2, rfl, rfl⟩
  · obtain ⟨t, ht⟩ := @fillSegments_panics file (file.loadBase dynBase) _ _ hsize hphnum hphoff
      (Nat.not_lt.mp hfit) ⟨0, none, none, segs⟩
      (s.sum (rd64 file 32) (rd16 file 56 * 56))
    exact (wp_error ht).mpr trivial

theorem grants_touching (qs : List Piece) (p : Nat) :
    qs.foldl (Piece.grant p) none = grants (touching qs p) := by
  induction qs using List.reverseRecOn with
  | nil => rfl
  | append_singleton qs q ih =>
      rw [List.foldl_concat, ih, touching_append, Piece.grant]
      split_ifs
      · rw [grants_append]
      · rfl

theorem lays_touching (qs : List Piece) (x : Nat) (b : UInt8) :
    qs.foldl (Piece.lay file x) (false, b) = lays file x b (touching qs (x / PAGE)) := by
  induction qs using List.reverseRecOn with
  | nil => rfl
  | append_singleton qs q ih =>
      rw [List.foldl_concat, ih, touching_append, Piece.lay]
      by_cases hc : q.Covers (x / PAGE)
      · rw [if_pos hc, if_pos hc, lays_append]
      · rw [if_neg hc, if_neg hc]

theorem Laid.pages {a : Scan} (h : Laid file qs s a t)
    (hs : ∀ p : Nat, s.load.pt.leaf[p]? = .none) :
    (∀ p, t.flags p = grants (touching qs p)) ∧
      ∀ x, touching qs (x / PAGE) ≠ [] →
        t.mem x = (lays file x (s.mem x) (touching qs (x / PAGE))).2 := by
  refine ⟨fun p => ?_, fun x hx => ?_⟩
  · rw [h.flags, Filling.flags, hs]
    exact grants_touching qs p
  · obtain ⟨q, hq⟩ := List.exists_mem_of_ne_nil _ hx
    obtain ⟨hmem, hc⟩ := List.mem_filter.mp hq
    have hhi := ((Piece.covers_iff (h.good q hmem) (x / PAGE)).2.2 (of_decide_eq_true hc)).2
    have hx' : x < 2 ^ 48 := by
      simp only [PAGE, USER_HI] at hhi
      omega
    have hshut : ¬ s.Shown (x / PAGE) := fun hc => by
      have hpage : x / PAGE < 2 ^ 36 := by
        simp only [PAGE]
        omega
      obtain ⟨e, he, -⟩ := (shown_iff hpage).mp hc
      rw [hs] at he
      exact Option.not_mem_none e he
    have hbytes := congrArg Prod.snd (h.bytes x hx')
    rwa [Filling.at_, Filling.at_, decide_eq_false hshut, lays_touching] at hbytes

/-- **The pages of an executable** have the permissions of all segments that touch them and the
bytes of the file exactly where the segments that share a page agree on it. -/
theorem fillElf_merged {elf : Elf} (hsize : file.size < 2 ^ 63)
    (hs : ∀ p : Nat, s.load.pt.leaf[p]? = none) (h : fillElf file dynBase segs s = .ok elf t) :
    Merged file (file.loads dynBase) t ↔ file.Agreeing dynBase := by
  obtain ⟨a, u, hlaid, hload, hmem⟩ := (wp_ok h).mp (fillElf_laid hsize s)
  obtain ⟨hflags, hbytes⟩ := hlaid.pages hs
  have hflags' (p : Nat) : t.flags p = grants (touching (file.loads dynBase) p) := by
    rw [Filling.flags, hload]
    exact hflags p
  rw [← hmem] at hbytes
  have hfile := fileByte_touching hlaid.good
  refine ⟨fun hm p => ?_, fun ha => ⟨fun p => ?_, fun x hx => ?_⟩⟩
  · have hunion {pre : List Piece} {q : Piece} (hT : touching (file.loads dynBase) p = pre ++ [q]) :
        grants (pre ++ [q]) = some (.userProt (unionProt (pre ++ [q]))) := by
      have hf := hm.flags p
      rwa [hflags', hT, if_neg (List.append_ne_nil_of_right_ne_nil _ (List.cons_ne_nil _ _))] at hf
    refine ⟨fun pre q hT hr => ?_, fun pre q hT => ((grants_union pre q).mp (hunion hT)).2,
      fun x hx pre q r post hl => ?_⟩
    · rw [hT]
      exact ((grants_union pre q).mp (hunion hT)).1 hr
    · subst hx
      have hne : touching (file.loads dynBase) (x / PAGE) ≠ [] := by
        rw [hl.split]
        simp
      have hb := (hbytes x hne).symm.trans ((hm.bytes x hne).trans (hfile x))
      exact (lays_eq _ _ hne).mp hb pre q r post hl
  · rw [hflags']
    obtain hT | ⟨pre, q, hT⟩ := List.eq_nil_or_concat' (touching (file.loads dynBase) p)
    · rw [hT]
      rfl
    · rw [hT, if_neg (List.append_ne_nil_of_right_ne_nil _ (List.cons_ne_nil _ _)), grants_union]
      refine ⟨fun hr => ?_, (ha p).exec pre q hT⟩
      exact hT ▸ (ha p).write pre q hT hr
  · rw [hbytes x hx, hfile]
    exact (lays_eq _ _ hx).mpr fun pre q r post => (ha (x / PAGE)).zero x rfl pre q r post

theorem bareSpace_leaf (p : Nat) : bareSpace.load.pt.leaf[p]? = none := by
  have hleaf : bareSpace.load.pt.leaf = ∅ := by with_unfolding_all rfl
  rw [hleaf]
  exact Std.ExtTreeMap.getElem?_empty

/-- A segment at `0x10000` and one at `0x10100`, with these flags. -/
def onePage (flags flags' : UInt8) : File := fileOf 176 (elfHeader ++
  [(32, 64), (56, 2), (64, 1), (68, flags), (82, 1), (96, 100), (104, 100),
    (120, 1), (124, flags'), (137, 1), (138, 1), (152, 50), (160, 50)])

/-- Both are data. -/
theorem fillElf_merged_data : ∃ elf t, fillElf (onePage 6 6) PIE_BASE [] bareSpace = .ok elf t ∧
    (touching ((onePage 6 6).loads PIE_BASE) 16).length = 2 ∧
    Merged (onePage 6 6) ((onePage 6 6).loads PIE_BASE) t := by
  have hrun : wp (fillElf (onePage 6 6) PIE_BASE []) (fun _ _ => True) (fun _ _ => False)
      bareSpace := by decide +kernel
  have hprot : ∀ q ∈ (onePage 6 6).loads PIE_BASE, q.prot = 3 := by decide +kernel
  have hin (p : Nat) : ∀ q ∈ touching ((onePage 6 6).loads PIE_BASE) p, q.prot = 3 :=
    fun q hq => hprot q (List.mem_of_mem_filter hq)
  obtain ⟨elf, t, hr, -⟩ := hrun.returns
  refine ⟨elf, t, hr, by decide +kernel, (fillElf_merged (by decide) bareSpace_leaf hr).mpr
    fun p => ⟨fun pre q hT _ => ⟨q, by simp [hT], ?_⟩, ?_, ?_⟩⟩
  · rw [hin p q (by simp [hT])]
    decide
  · rintro pre q hT ⟨r, hr, hx⟩
    rw [hin p r (by simp [hT, hr])] at hx
    exact absurd hx (by decide)
  · intro x _ pre q r post hl
    refine absurd ?_ (hl.closed q (by simp))
    rw [readable_iff, hin p q (by simp [hl.split])]
    decide

/-- A segment of code, and one that is only read. -/
def codeAndData : File := onePage 5 4

/-- **Code can no longer be executed**: the page is written and read after the second segment. -/
theorem fillElf_code_lost : ∃ elf t, fillElf codeAndData PIE_BASE [] bareSpace = .ok elf t ∧
    (touching (codeAndData.loads PIE_BASE) 16).map (·.prot) = [5, 1] ∧
    t.flags 16 = some (.userProt 3) ∧
    ¬ Merged codeAndData (codeAndData.loads PIE_BASE) t := by
  have hrun : wp (fillElf codeAndData PIE_BASE []) (fun _ t => t.flags 16 = some (.userProt 3))
      (fun _ _ => False) bareSpace := by decide +kernel
  have htouch : (touching (codeAndData.loads PIE_BASE) 16).map (·.prot) = [5, 1] := by
    decide +kernel
  obtain ⟨elf, t, hr, hflags⟩ := hrun.returns
  refine ⟨elf, t, hr, htouch, hflags, fun hm => ?_⟩
  have hall : t.flags 16 = some (.userProt 5) := (hm.flags 16).trans (by decide +kernel)
  rw [hflags] at hall
  exact absurd hall (by decide)

end Pulsar.Vm

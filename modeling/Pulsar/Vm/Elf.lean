import Pulsar.Vm.Filling

/-!
# Executables are contained (`exec.rs`)

`map_elf` reads the headers of a file that nobody has checked, maps the pages of its segments and
fills them.

* `fillElf_contained`: no sum goes over 64 bits, each page is in the range for programs, what a
  segment lacks of the file is zero, and a load that fails gives back what it took, exactly where
  the sums of the headers fit, no byte of a segment is left in the rest of another, and no page that
  nobody may read is mapped again before the load fails (`File.Sound`).
* `fillElf_panics`: a table of headers that ends behind the end of the addresses.
-/

namespace Pulsar.Vm

open Pulsar.Tree

variable {s t u : Filling} {file : File} {q : Piece} {a : Scan} {n p x : Nat}

/-! ### What is said of a load -/

/-- The pages that are mapped anew are in the range for programs, and bytes that change are zero or
of the file. -/
structure Inside (file : File) (s t : Filling) : Prop where
  pages : ∀ p, t.load.pt.leaf[p]? ≠ s.load.pt.leaf[p]? →
    USER_LO ≤ p * PAGE ∧ p * PAGE < USER_HI
  bytes : ∀ x, t.mem x = s.mem x ∨ t.mem x = 0 ∨ ∃ o < file.size, t.mem x = file.bytes o

theorem Inside.refl (file : File) (s : Filling) : Inside file s s :=
  ⟨fun _ h => absurd rfl h, fun _ => .inl rfl⟩

theorem Inside.trans (h : Inside file s t) (h' : Inside file t u) : Inside file s u where
  pages p hp := by
    by_cases hu : u.load.pt.leaf[p]? = t.load.pt.leaf[p]?
    · exact h.pages p fun hc => hp (hu.trans hc)
    · exact h'.pages p hu
  bytes x := (h'.bytes x).elim (fun e => by rw [e]; exact h.bytes x) .inr

/-- A page of the program that nobody may read: it is taken for one that is not there. -/
def Filling.Hidden (s : Filling) (p : Nat) : Prop :=
  ∃ e ∈ s.load.pt.leaf[p]?, e.flags.user = false ∧ e.flags.isShared = false ∧
    s.load.fr.Owned e.frame

/-- The page has a byte of the segment. -/
def Piece.Covers (q : Piece) (p : Nat) : Prop := q.va / PAGE ≤ p ∧ p * PAGE < q.va + q.memsz

instance (q : Piece) (p : Nat) : Decidable (q.Covers p) := by unfold Piece.Covers; infer_instance

/-- The user may read the pages of the segment. -/
def Piece.Readable (q : Piece) : Prop := (PageFlags.userProt q.prot).user = true

instance (q : Piece) : Decidable q.Readable := by unfold Piece.Readable; infer_instance

/-- What a segment makes of the byte at `x`, of a page that is there or not. -/
def Piece.lay (file : File) (x : Nat) (c : Bool × UInt8) (q : Piece) : Bool × UInt8 :=
  if q.Covers (x / PAGE) then
    (c.1 || decide q.Readable, if q.Data x then q.byte file x else if c.1 then c.2 else 0)
  else c

/-- The flags of a page that is mapped. -/
def Filling.flags (s : Filling) (p : Nat) : Option PageFlags := s.load.pt.leaf[p]?.map (·.flags)

/-- What a segment makes of the flags of a page that it has a byte of. -/
def Piece.flags (q : Piece) : Option PageFlags → PageFlags
  | some f =>
    if f.user then { PageFlags.userProt (q.prot ||| 1 ||| 2) with isShared := f.isShared }
    else .userProt q.prot
  | none => .userProt q.prot

/-- What a segment makes of the flags of a page. -/
def Piece.grant (p : Nat) (f : Option PageFlags) (q : Piece) : Option PageFlags :=
  if q.Covers p then some (q.flags f) else f

/-- The byte at `x`, and whether its page is there. -/
def Filling.at_ (s : Filling) (x : Nat) : Bool × UInt8 := (decide (s.Shown (x / PAGE)), s.mem x)

/-! ### One page -/

theorem shown_iff (hp : p < 2 ^ 36) :
    s.Shown p ↔ ∃ e ∈ s.load.pt.leaf[p]?, e.flags.user = true := by
  have hvpn : vpn (p * PAGE) = p := by
    rw [vpn, Nat.mul_div_cancel _ (by decide), Nat.mod_eq_of_lt hp]
  rw [Filling.Shown, Pt.translateUser, hvpn]
  cases s.load.pt.leaf[p]? with
  | none => simp
  | some e => cases he : e.flags.user <;> simp [he]

/-- What is left of a page of the loop of `copy_into`. -/
structure PageDone (file : File) (q : Piece) (p : Nat) (s : Filling) (r : Bool × Filling) :
    Prop where
  wrapped : r.2.wrapped = s.wrapped
  leaf : ∀ i : Nat, i ≠ p → r.2.load.pt.leaf[i]? = s.load.pt.leaf[i]?
  slips : r.2.load.slips = [] ↔ s.load.slips = [] ∧ (r.1 = true → ¬ s.Hidden p)
  shown : r.1 = true → ∀ i < 2 ^ 36, r.2.Shown i ↔ s.Shown i ∨ i = p ∧ q.Readable
  mem : ∀ x, r.2.mem x = if r.1 = true ∧ x / PAGE = p then
    (if q.Data x then q.byte file x else if s.Shown p then s.mem x else 0) else s.mem x
  flags : r.1 = true → r.2.flags p = some (q.flags (s.flags p))
  fail : r.1 = false → ∀ i : Nat, r.2.load.pt.leaf[i]? = s.load.pt.leaf[i]?

theorem put_mem (page : Nat) (hx : x / PAGE * PAGE = page) :
    (s.put file q page).mem x = if q.Data x then q.byte file x else s.mem x := by
  have h₁ : page ≤ x := hx ▸ Nat.div_mul_le_self x PAGE
  have h₂ : x < page + PAGE := by
    rw [← hx]
    exact Nat.lt_div_mul_add (by decide)
  simp only [Filling.put, Piece.Data]
  exact if_congr (by omega) rfl rfl

theorem put_mem_ne (page : Nat) (hp : PAGE ∣ page) (hx : x / PAGE * PAGE ≠ page) :
    (s.put file q page).mem x = s.mem x := by
  obtain ⟨k, rfl⟩ := hp
  refine if_neg fun hc => hx ?_
  simp only [PAGE] at *
  omega

theorem vpn_page (hp : p < 2 ^ 36) : vpn (p * PAGE) = p := by
  rw [vpn, Nat.mul_div_cancel _ (by decide), Nat.mod_eq_of_lt hp]

/-- The frame of a page that is there would be lost. -/
def Load.Taken (l : Load) (p : Nat) : Prop :=
  ∃ e ∈ l.pt.leaf[p]?, e.flags.isShared = false ∧ l.fr.Owned e.frame

theorem mapAt_cases (p : Nat) (e : Pte) (l : Load) :
    ((l.mapAt p e).1 = false ∧ (l.mapAt p e).2.slips = l.slips ∧
      (l.mapAt p e).2.pt.leaf = l.pt.leaf) ∨
    ((l.mapAt p e).1 = true ∧ (l.mapAt p e).2.pt.leaf = l.pt.leaf.insert p e ∧
      ((l.mapAt p e).2.slips = [] ↔ l.slips = [] ∧ ¬ l.Taken p)) := by
  simp only [Load.mapAt, Load.Taken]
  obtain ⟨hok, hleaf⟩ | ⟨hno, hleaf⟩ := mapPage_leaf p e (l.pt, l.fr)
  · rw [hok]
    refine .inr ⟨rfl, hleaf, ?_⟩
    simp only [if_true, List.append_eq_nil_iff]
    cases l.pt.leaf[p]? with
    | none => simp
    | some e' =>
        simp only [Option.elim_some]
        by_cases hc : e'.flags.isShared = false ∧ l.fr.Owned e'.frame
        · rw [if_pos hc]
          exact iff_of_false (fun h => List.cons_ne_nil _ _ h.1) fun h => h.2 ⟨e', rfl, hc⟩
        · rw [if_neg hc]
          refine and_comm.trans (and_congr_right fun _ => iff_of_true rfl ?_)
          rintro ⟨e₁, he, hc'⟩
          obtain rfl := Option.some.inj he
          exact hc hc'
  · rw [hno]
    exact .inl ⟨rfl, rfl, hleaf⟩

theorem taken_setFrames {l : Load} {fr : Frames} (hl : l.fr.Like fr) :
    Load.Taken { l with fr := fr } p ↔ l.Taken p :=
  exists_congr fun _ => and_congr_right fun _ => and_congr_right fun _ => hl.owned

theorem newPage_done (va : Nat) (flags : PageFlags) (l : Load) :
    ((l.newPage va flags).1 = false ∧ (l.newPage va flags).2.slips = l.slips ∧
      (l.newPage va flags).2.pt.leaf = l.pt.leaf) ∨
    ∃ f, (l.newPage va flags).1 = true ∧
      (l.newPage va flags).2.pt.leaf = l.pt.leaf.insert (vpn va) ⟨f, flags⟩ ∧
      ((l.newPage va flags).2.slips = [] ↔ l.slips = [] ∧ ¬ l.Taken (vpn va)) := by
  unfold Load.newPage
  have hlike := l.fr.like_allocFrame
  rcases ha : l.fr.allocFrame with ⟨- | f, fr⟩ <;> rw [ha] at hlike
  · exact .inl ⟨rfl, rfl, rfl⟩
  · have hcases := mapAt_cases (vpn va) ⟨f, flags⟩ { l with fr := fr }
    rw [taken_setFrames hlike] at hcases
    simp only
    rcases hm : Load.mapAt (vpn va) ⟨f, flags⟩ { l with fr := fr } with ⟨- | -, t⟩ <;>
      rw [hm] at hcases
    · exact .inl ⟨rfl, (hcases.resolve_right fun h => Bool.noConfusion h.1).2⟩
    · exact .inr ⟨f, rfl, (hcases.resolve_left fun h => Bool.noConfusion h.1).2⟩

theorem newPage_cases (hp : p < 2 ^ 36) (flags : PageFlags) (l : Load) :
    ((l.newPage (p * PAGE) flags).1 = false ∧ (l.newPage (p * PAGE) flags).2.slips = l.slips ∧
      (l.newPage (p * PAGE) flags).2.pt.leaf = l.pt.leaf) ∨
    ∃ f, (l.newPage (p * PAGE) flags).1 = true ∧
      (l.newPage (p * PAGE) flags).2.pt.leaf = l.pt.leaf.insert p ⟨f, flags⟩ ∧
      ((l.newPage (p * PAGE) flags).2.slips = [] ↔ l.slips = [] ∧ ¬ l.Taken p) := by
  have hdone := newPage_done (p * PAGE) flags l
  rwa [vpn_page hp] at hdone

theorem walked_page (i : Nat) : Pt.walked (p * PAGE) (p * PAGE + PAGE) i = true ↔ i = p := by
  rw [Pt.walked, decide_eq_true_eq]
  simp only [PAGE]
  omega

theorem fillPage_done (hp : p < 2 ^ 36) :
    PageDone file q p s (fillPage file q (p * PAGE) s) := by
  have hdiv : ∀ x, x / PAGE * PAGE = p * PAGE ↔ x / PAGE = p := fun x =>
    Nat.mul_left_inj (by decide)
  unfold fillPage
  rcases htr : s.load.pt.translateUser (p * PAGE) false with - | f
  · have hnot : ¬ s.Shown p := by rw [Filling.Shown, htr]; simp
    have huser : ∀ e ∈ s.load.pt.leaf[p]?, e.flags.user = false := fun e he =>
      Bool.eq_false_of_not_eq_true fun hc => hnot ((shown_iff hp).mpr ⟨e, he, hc⟩)
    simp only
    obtain ⟨hno, hslips, hleaf⟩ | ⟨f, hok, hleaf, hslips⟩ :=
      newPage_cases hp (.userProt q.prot) s.load
    · rcases hn : s.load.newPage (p * PAGE) (.userProt q.prot) with ⟨b, l⟩
      rw [hn] at hno hslips hleaf
      obtain rfl : b = false := hno
      have hsame : ∀ i : Nat, l.pt.leaf[i]? = s.load.pt.leaf[i]? := fun i => by rw [hleaf]
      exact ⟨rfl, fun i _ => hsame i, hslips ▸ (and_iff_left fun hc => absurd hc nofun).symm,
        fun hc => absurd hc nofun, fun x => (if_neg fun hc => absurd hc.1 nofun).symm,
        fun hc => absurd hc nofun, fun _ => hsame⟩
    · rcases hn : s.load.newPage (p * PAGE) (.userProt q.prot) with ⟨b, l⟩
      rw [hn] at hok hslips hleaf
      obtain rfl : b = true := hok
      have hget : ∀ i : Nat, l.pt.leaf[i]? = if i = p then some ⟨f, .userProt q.prot⟩
          else s.load.pt.leaf[i]? := fun i => by
        rw [hleaf, get_insert]
      refine ⟨rfl, fun i hi => (hget i).trans (if_neg hi), ?_, fun _ i hi => ?_, fun x => ?_,
        fun _ => ?_, fun hc => absurd hc nofun⟩
      · refine hslips.trans (and_congr_right fun _ => ?_)
        refine ⟨fun h _ ⟨e, he, hc⟩ => h ⟨e, he, hc.2⟩, fun h ⟨e, he, hc⟩ => ?_⟩
        exact h rfl ⟨e, he, huser e he, hc⟩
      · rw [shown_iff hi, shown_iff hi]
        change (∃ e ∈ l.pt.leaf[i]?, _) ↔ _
        rw [hget]
        by_cases hip : i = p
        · rw [if_pos hip, hip]
          refine ⟨fun ⟨e, he, hu⟩ => .inr ⟨rfl, ?_⟩, fun h => ⟨_, rfl, ?_⟩⟩
          · obtain rfl := Option.some.inj he
            exact hu
          · exact h.elim (fun ⟨e, he, hu⟩ => Bool.noConfusion (hu.symm.trans (huser e he))) (·.2)
        · rw [if_neg hip]
          exact (or_iff_left fun h => hip h.1).symm
      · by_cases hx : x / PAGE = p
        · rw [if_pos ⟨rfl, hx⟩, put_mem _ ((hdiv x).mpr hx), if_neg hnot]
          refine if_congr Iff.rfl rfl (if_pos ?_)
          subst hx
          exact ⟨Nat.div_mul_le_self x PAGE, Nat.lt_div_mul_add (by decide)⟩
        · rw [if_neg fun hc => hx hc.2, put_mem_ne _ (Dvd.intro_left p rfl) (mt (hdiv x).mp hx)]
          refine if_neg fun hc => hx ?_
          simp only [PAGE] at *
          omega
      · change l.pt.leaf[p]?.map (·.flags) = _
        rw [hget, if_pos rfl, Filling.flags]
        rcases hp' : s.load.pt.leaf[p]? with - | e
        · rfl
        · have hno := huser e hp'
          simp only [Option.map_some, Piece.flags, hno, Bool.false_eq_true, if_false]
  · have hshown : s.Shown p := by rw [Filling.Shown, htr]; rfl
    have hget : ∀ i : Nat, (protectRange (p * PAGE) (p * PAGE + PAGE)
        (.userProt (q.prot ||| 1 ||| 2)) s.load.pt).leaf[i]? =
        if i = p then s.load.pt.leaf[i]?.map (Pte.reflag (.userProt (q.prot ||| 1 ||| 2)))
        else s.load.pt.leaf[i]? := fun i =>
      (get_protectRange ..).trans (if_congr (walked_page i) rfl rfl)
    refine ⟨rfl, fun i hi => (hget i).trans (if_neg hi), ?_, fun _ i hi => ?_, fun x => ?_,
      fun _ => ?_, fun hc => absurd hc nofun⟩
    · refine (and_iff_left fun _ ⟨e, he, hu, _⟩ => ?_).symm
      obtain ⟨e', he', hu'⟩ := (shown_iff hp).mp hshown
      rw [Option.mem_unique he he'] at hu
      exact Bool.noConfusion (hu.symm.trans hu')
    · rw [shown_iff hi, shown_iff hi]
      change (∃ e ∈ (protectRange _ _ _ _).leaf[i]?, _) ↔ _
      rw [hget]
      by_cases hip : i = p
      · rw [if_pos hip]
        subst hip
        obtain ⟨e, he, hu⟩ := (shown_iff hp).mp hshown
        refine iff_of_true ⟨_, Option.mem_map_of_mem _ he, ?_⟩ (.inl ⟨e, he, hu⟩)
        simp [Pte.reflag, PageFlags.userProt, Nat.testBit_or]
      · rw [if_neg hip]
        exact (or_iff_left fun h => hip h.1).symm
    · by_cases hx : x / PAGE = p
      · rw [if_pos ⟨rfl, hx⟩, put_mem _ ((hdiv x).mpr hx), if_pos hshown]
        rfl
      · rw [if_neg fun hc => hx hc.2, put_mem_ne _ (Dvd.intro_left p rfl) (mt (hdiv x).mp hx)]
        rfl
    · obtain ⟨e, he, hu⟩ := (shown_iff hp).mp hshown
      change (protectRange _ _ _ _).leaf[p]?.map (·.flags) = _
      rw [hget, if_pos rfl, Filling.flags, Option.mem_def.mp he]
      simp only [Option.map_some, Piece.flags, hu, if_true, Pte.reflag, PageFlags.userProt,
        Bool.false_or]

/-! ### A segment -/

/-- No page is mapped where one is that nobody may read, as far as the loop comes. -/
def BarePages (file : File) (q : Piece) : Nat → Nat → Filling → Prop
  | _, 0, _ => True
  | p, n + 1, s => (fillPage file q (p * PAGE) s).1 = true →
    ¬ s.Hidden p ∧ BarePages file q (p + 1) n (fillPage file q (p * PAGE) s).2

/-- What is left of the loop of `copy_into`. -/
structure PagesDone (file : File) (q : Piece) (p n : Nat) (s : Filling) (r : Bool × Filling) :
    Prop where
  wrapped : r.2.wrapped = s.wrapped
  leaf : ∀ i : Nat, ¬ (p ≤ i ∧ i < p + n) → r.2.load.pt.leaf[i]? = s.load.pt.leaf[i]?
  slips : r.2.load.slips = [] ↔ s.load.slips = [] ∧ BarePages file q p n s
  shown : r.1 = true → ∀ i < 2 ^ 36, r.2.Shown i ↔ s.Shown i ∨ (p ≤ i ∧ i < p + n) ∧ q.Readable
  mem : r.1 = true → ∀ x, r.2.mem x = if p ≤ x / PAGE ∧ x / PAGE < p + n then
    (if q.Data x then q.byte file x else if s.Shown (x / PAGE) then s.mem x else 0) else s.mem x
  bytes : ∀ x, r.2.mem x = s.mem x ∨ r.2.mem x = 0 ∨ q.Data x ∧ r.2.mem x = q.byte file x
  flags : r.1 = true → ∀ i, p ≤ i ∧ i < p + n → r.2.flags i = some (q.flags (s.flags i))

theorem PageDone.bytes {r : Bool × Filling} (h : PageDone file q p s r) (x : Nat) :
    r.2.mem x = s.mem x ∨ r.2.mem x = 0 ∨ q.Data x ∧ r.2.mem x = q.byte file x := by
  have hmem := h.mem x
  split_ifs at hmem with h₁ h₂ h₃
  · exact .inr (.inr ⟨h₂, hmem⟩)
  · exact .inl hmem
  · exact .inr (.inl hmem)
  · exact .inl hmem

theorem fillPages_done : ∀ {n p : Nat} {s : Filling}, p + n ≤ 2 ^ 36 →
    PagesDone file q p n s (fillPages file q (p * PAGE) n s) := by
  intro n
  induction n with
  | zero =>
      intro p s _
      refine ⟨rfl, fun _ _ => rfl, (and_iff_left trivial).symm, fun _ i _ => ?_, fun _ x => ?_,
        fun x => .inl rfl, fun _ i hi => absurd hi (by omega)⟩
      · exact (or_iff_left fun hc => absurd hc.1 (by omega)).symm
      · exact (if_neg (by omega)).symm
  | succ n ih =>
      intro p s hn
      have hpage := @fillPage_done s file q p (by omega)
      rw [fillPages]
      rcases hr : fillPage file q (p * PAGE) s with ⟨- | -, t⟩ <;> rw [hr] at hpage
      · have hno : ¬ false = true := Bool.false_ne_true
        have hbare : BarePages file q p (n + 1) s := by
          rw [BarePages, hr]
          exact fun hc => absurd hc hno
        have hslips := hpage.slips
        exact ⟨hpage.wrapped, fun i _ => hpage.fail rfl i,
          hslips.trans (and_congr_right fun _ => iff_of_true (fun hc => absurd hc hno) hbare),
          fun hc => absurd hc hno, fun hc => absurd hc hno, hpage.bytes, fun hc => absurd hc hno⟩
      · have hrest := ih (p := p + 1) (s := t) (by omega)
        have hnext : p * PAGE + PAGE = (p + 1) * PAGE := (Nat.succ_mul p PAGE).symm
        simp only
        rw [hnext]
        refine ⟨hrest.wrapped.trans hpage.wrapped, fun i hi => ?_, ?_, fun hok i hi => ?_,
          fun hok x => ?_, fun x => ?_, fun hok i hi => ?_⟩
        · exact (hrest.leaf i (by omega)).trans (hpage.leaf i (by omega))
        · rw [hrest.slips, hpage.slips, BarePages, hr, and_assoc]
          exact and_congr_right fun _ => ⟨fun h _ => ⟨h.1 rfl, h.2⟩,
            fun h => ⟨fun _ => (h rfl).1, (h rfl).2⟩⟩
        · rw [hrest.shown hok i hi, hpage.shown rfl i hi, or_assoc]
          refine or_congr_right ⟨?_, ?_⟩
          · rintro (⟨rfl, hread⟩ | ⟨hrange, hread⟩)
            · exact ⟨by omega, hread⟩
            · exact ⟨by omega, hread⟩
          · rintro ⟨hrange, hread⟩
            by_cases hip : i = p
            · exact .inl ⟨hip, hread⟩
            · exact .inr ⟨by omega, hread⟩
        · rw [hrest.mem hok x]
          have hone := hpage.mem x
          by_cases hx : x / PAGE = p
          · have hout : ¬ (p + 1 ≤ x / PAGE ∧ x / PAGE < p + 1 + n) := by omega
            have hin : p ≤ x / PAGE ∧ x / PAGE < p + (n + 1) := by omega
            rw [if_neg hout, hone, if_pos ⟨rfl, hx⟩, if_pos hin, hx]
          · rw [if_neg fun hc => hx hc.2] at hone
            rw [hone]
            by_cases hin : p + 1 ≤ x / PAGE ∧ x / PAGE < p + 1 + n
            · have hsame : t.Shown (x / PAGE) ↔ s.Shown (x / PAGE) :=
                (hpage.shown rfl _ (by omega)).trans (or_iff_left fun hc => hx hc.1)
              rw [if_pos hin, if_pos (by omega : p ≤ x / PAGE ∧ x / PAGE < p + (n + 1))]
              exact if_congr Iff.rfl rfl (if_congr hsame rfl rfl)
            · rw [if_neg hin, if_neg (by omega)]
        · obtain he | he | he := hrest.bytes x
          · exact he ▸ hpage.bytes x
          · exact .inr (.inl he)
          · exact .inr (.inr he)
        · have hflags {u v : Filling} (h : u.load.pt.leaf[i]? = v.load.pt.leaf[i]?) :
              u.flags i = v.flags i := congrArg (Option.map _) h
          by_cases hip : i = p
          · subst hip
            rw [hflags (hrest.leaf i (by omega)), hpage.flags rfl]
          · rw [hrest.flags hok i (by omega), hflags (hpage.leaf i hip)]

theorem Piece.covers_iff (hbad : ¬ q.Bad file) (i : Nat) :
    (q.va / PAGE ≤ i ∧ i < q.va / PAGE + q.pages ↔ q.Covers i) ∧
    q.va / PAGE + q.pages ≤ 2 ^ 36 ∧
    (q.Covers i → USER_LO ≤ i * PAGE ∧ i * PAGE < USER_HI) := by
  simp only [Piece.Bad, not_or, not_lt, not_le, USER_LO, USER_HI] at hbad
  obtain ⟨hlo, -, hhi, -⟩ := hbad
  simp only [Piece.Covers, Piece.pages, Piece.page, pageOf, PAGE, USER_LO, USER_HI]
  refine ⟨?_, ?_, ?_⟩ <;> omega

/-- The segment that a header loads. -/
def Header.load? (base : Nat) (h : Header) : Option Piece :=
  if h.ptype = PT_LOAD ∧ h.memsz ≠ 0 then some (h.piece (wrap (h.vaddr + base))) else none

/-- The sums of a header fit into 64 bits. -/
def Header.Fits (base : Nat) (h : Header) : Prop :=
  h.ptype = PT_PHDR ∨ h.ptype = PT_LOAD → h.vaddr + base < 2 ^ 64

/-- The segment of a header is mapped over no page that nobody may read. -/
def Header.Bare (file : File) (base : Nat) (h : Header) (s : Filling) : Prop :=
  ∀ q ∈ h.load? base, ¬ q.Bad file → BarePages file q (q.va / PAGE) q.pages s

/-- What is left of a header, or of a segment. -/
structure Stepped (file : File) (fits bare : Prop) (s t : Filling) : Prop where
  wrapped : t.wrapped = false ↔ s.wrapped = false ∧ fits
  inside : Inside file s t
  slips : t.load.slips = [] ↔ s.load.slips = [] ∧ bare

theorem Stepped.refl (file : File) (s : Filling) {fits bare : Prop} (hf : fits) (hb : bare) :
    Stepped file fits bare s s :=
  ⟨(and_iff_left hf).symm, .refl file s, (and_iff_left hb).symm⟩

/-- What was found of the first segment is in the range for programs. -/
def Scan.Low (a : Scan) : Prop := ∀ x ∈ a.firstLoad, x.1 < USER_HI

/-- What segments have made of the bytes, and what was found. -/
structure Laid (file : File) (qs : List Piece) (s : Filling) (a : Scan) (t : Filling) : Prop where
  bytes : ∀ x < 2 ^ 48, t.at_ x = qs.foldl (Piece.lay file x) (s.at_ x)
  flags : ∀ p, t.flags p = qs.foldl (Piece.grant p) (s.flags p)
  good : ∀ q ∈ qs, ¬ q.Bad file
  low : a.Low

theorem Laid.none (ha : a.Low) (h : ∀ x, t.at_ x = s.at_ x) (hf : ∀ p, t.flags p = s.flags p) :
    Laid file [] s a t :=
  ⟨fun x _ => h x, hf, fun _ hq => absurd hq List.not_mem_nil, ha⟩

theorem Laid.append {qs qs' : List Piece} {a' : Scan} (h : Laid file qs s a t)
    (h' : Laid file qs' t a' u) : Laid file (qs ++ qs') s a' u where
  bytes x hx := by rw [h'.bytes x hx, h.bytes x hx, List.foldl_append]
  flags p := by rw [h'.flags p, h.flags p, List.foldl_append]
  good q hq := (List.mem_append.mp hq).elim (h.good q) (h'.good q)
  low := h'.low

theorem loadPiece_done (hsize : q.memsz ≠ 0) (ha : a.Low) (s : Filling) :
    wp (loadPiece file q a)
      (fun a' t => Stepped file True (¬ q.Bad file → BarePages file q (q.va / PAGE) q.pages s) s t ∧
        Laid file [q] s a' t)
      (fun e t => Stepped file True (¬ q.Bad file → BarePages file q (q.va / PAGE) q.pages s) s t ∧
        e ≠ .panic) s := by
  unfold loadPiece
  rw [if_neg hsize]
  refine wp_ite.mpr ⟨fun hbad => ⟨.refl file s trivial fun hc => absurd hbad hc, nofun⟩,
    fun hbad => ?_⟩
  obtain ⟨-, hfit, -⟩ := Piece.covers_iff hbad 0
  have hdone := @fillPages_done file q _ _ s hfit
  have hstep : Stepped file True (¬ q.Bad file → BarePages file q (q.va / PAGE) q.pages s) s
      (fillPages file q q.page q.pages s).2 := by
    have hover : (fillPages file q q.page q.pages s).2.wrapped = s.wrapped := hdone.wrapped
    refine ⟨by rw [and_true, hover], ⟨fun i hi => ?_, fun x => ?_⟩,
      hdone.slips.trans (and_congr_right fun _ => ⟨fun h _ => h, fun h => h hbad⟩)⟩
    · obtain ⟨hcov, -, hrange⟩ := Piece.covers_iff hbad i
      exact hrange (hcov.mp (by_contra fun hc => hi (hdone.leaf i hc)))
    · obtain he | he | ⟨hdata, he⟩ := hdone.bytes x
      · exact .inl he
      · exact .inr (.inl he)
      · refine .inr (.inr ⟨q.off + (x - q.va), ?_, he⟩)
        simp only [Piece.Bad, not_or, not_lt, not_le] at hbad
        simp only [Piece.Data] at hdata
        omega
  refine (wp_bind _ _).mpr ?_
  change wp _ _ _ (fillPages file q q.page q.pages s).2
  split_ifs with hok
  · refine ⟨hstep, fun x hx => ?_, fun p => ?_, fun q' hq' => List.mem_singleton.mp hq' ▸ hbad,
      fun y hy => ?_⟩
    · have hcov := (Piece.covers_iff hbad (x / PAGE)).1
      have hpage : x / PAGE < 2 ^ 36 := by
        simp only [PAGE]
        omega
      have hmem := hdone.mem hok x
      have hshown := hdone.shown hok _ hpage
      rw [List.foldl_cons, List.foldl_nil, Piece.lay]
      by_cases hc : q.Covers (x / PAGE)
      · rw [if_pos (hcov.mpr hc)] at hmem
        rw [if_pos hc]
        rw [and_iff_right (hcov.mpr hc)] at hshown
        refine Prod.ext ((decide_eq_decide.mpr hshown).trans (Bool.decide_or _ _)) ?_
        exact hmem.trans (if_congr Iff.rfl rfl (if_congr decide_eq_true_iff.symm rfl rfl))
      · rw [if_neg (mt hcov.mp hc)] at hmem
        rw [if_neg hc]
        refine Prod.ext (decide_eq_decide.mpr (hshown.trans (or_iff_left fun h => ?_))) hmem
        exact hc (hcov.mp h.1)
    · have hcov := (Piece.covers_iff hbad p).1
      rw [List.foldl_cons, List.foldl_nil, Piece.grant]
      by_cases hc : q.Covers p
      · rw [if_pos hc]
        exact hdone.flags hok p (hcov.mpr hc)
      · rw [if_neg hc]
        exact congrArg (Option.map _) (hdone.leaf p (mt hcov.mp hc))
    · cases hf : a.firstLoad with
      | none =>
          simp only [hf] at hy
          obtain rfl := Option.some.inj hy
          simp only [Piece.Bad, not_or, not_lt, not_le] at hbad
          omega
      | some z =>
          simp only [hf] at hy
          obtain rfl := Option.some.inj hy
          exact ha _ hf
  · exact ⟨hstep, nofun⟩

/-! ### A header -/

variable {base phoff : Nat} {h : Header}

/-- The state after a sum. -/
def Filling.sum (x y : Nat) (s : Filling) : Filling :=
  { s with wrapped := s.wrapped || decide (2 ^ 64 ≤ x + y) }

theorem sum_over (x y : Nat) (s : Filling) :
    (s.sum x y).wrapped = false ↔ s.wrapped = false ∧ x + y < 2 ^ 64 := by
  simp [Filling.sum]

theorem sum_eq {x y : Nat} (hfit : x + y < 2 ^ 64) : s.sum x y = s := by
  rw [Filling.sum, decide_eq_false (Nat.not_le.mpr hfit), Bool.or_false]

theorem wp_addFields {Q : Nat → Filling → Prop} {E : Fail → Filling → Prop} (x y : Nat) :
    wp (addFields x y) Q E s ↔ Q (wrap (x + y)) (s.sum x y) := Iff.rfl

theorem sum_load (x y : Nat) : (s.sum x y).load = s.load := rfl

theorem fillPage_sum (x y page : Nat) : fillPage file q page (s.sum x y) =
    ((fillPage file q page s).1, (fillPage file q page s).2.sum x y) := by
  rw [fillPage, fillPage, sum_load]
  cases s.load.pt.translateUser page false with
  | some _ => rfl
  | none =>
      cases s.load.newPage page (.userProt q.prot) with
      | mk ok l => cases ok <;> rfl

theorem barePages_sum (x y : Nat) : ∀ {n p : Nat} {s : Filling},
    BarePages file q p n (s.sum x y) ↔ BarePages file q p n s := by
  intro n
  induction n with
  | zero => exact Iff.rfl
  | succ n ih =>
      intro p s
      rw [BarePages, BarePages, fillPage_sum]
      exact imp_congr_right fun _ => and_congr_right fun _ => ih

theorem Header.load?_none (hl : h.ptype ≠ PT_LOAD) : h.load? base = none := if_neg fun hc => hl hc.1

/-- **A header** is read: a sum may go over, and a segment is loaded in the range for programs. -/
theorem fillSegment_done (file : File) (base : Nat) (h : Header) (ha : a.Low) (s : Filling) :
    wp (fillSegment file base h a)
      (fun a' t => Stepped file (h.Fits base) (h.Bare file base s) s t ∧
        Laid file (h.load? base).toList s a' t)
      (fun e t => Stepped file (h.Fits base) (h.Bare file base s) s t ∧ e ≠ .panic) s := by
  unfold fillSegment
  by_cases hload : h.ptype = PT_LOAD
  · have hno : h.ptype ≠ PT_INTERP ∧ h.ptype ≠ PT_PHDR := by
      rw [hload]
      decide
    have hfits : h.Fits base ↔ h.vaddr + base < 2 ^ 64 := forall_prop_of_true (.inr hload)
    rw [readInterp, if_neg hno.1, pure_bind, readPhdr, if_neg hno.2, pure_bind, readLoad,
      if_neg (not_not.mpr hload)]
    refine (wp_bind _ _).mpr ((wp_addFields _ _).mpr ?_)
    have hover := sum_over h.vaddr base s
    rw [← hfits] at hover
    by_cases hsize : h.memsz = 0
    · have hnone : h.load? base = none := if_neg fun hc => hc.2 hsize
      rw [hnone, loadPiece, if_pos (show (h.piece (wrap (h.vaddr + base))).memsz = 0 from hsize)]
      refine ⟨⟨hover, ⟨fun _ hc => absurd rfl hc, fun _ => .inl rfl⟩,
        (and_iff_left fun q hq => ?_).symm⟩, .none ha (fun _ => rfl) fun _ => rfl⟩
      rw [hnone] at hq
      exact absurd hq (Option.not_mem_none q)
    · have hsome : h.load? base = some (h.piece (wrap (h.vaddr + base))) := if_pos ⟨hload, hsize⟩
      have hbare : ∀ t, Stepped file True (¬ (h.piece (wrap (h.vaddr + base))).Bad file →
          BarePages file (h.piece (wrap (h.vaddr + base)))
            ((h.piece (wrap (h.vaddr + base))).va / PAGE)
            (h.piece (wrap (h.vaddr + base))).pages (s.sum h.vaddr base)) (s.sum h.vaddr base) t →
          Stepped file (h.Fits base) (h.Bare file base s) s t := fun t ht => by
        refine ⟨(ht.wrapped.trans (and_iff_left trivial)).trans hover,
          ⟨ht.inside.pages, ht.inside.bytes⟩, ht.slips.trans (and_congr_right fun _ => ?_)⟩
        rw [barePages_sum, Header.Bare, hsome]
        exact ⟨fun hb q hq => Option.some.inj hq ▸ hb, fun hb => hb _ rfl⟩
      rw [hsome]
      exact wp_mono (loadPiece_done hsize ha (s.sum h.vaddr base))
        (fun a' t ht => ⟨hbare t ht.1, ⟨ht.2.bytes, ht.2.flags, ht.2.good, ht.2.low⟩⟩)
        fun e t ht => ⟨hbare t ht.1, ht.2⟩
  · have hbare : h.Bare file base s := fun q hq => by
      rw [Header.load?_none hload] at hq
      exact absurd hq (Option.not_mem_none q)
    rw [Header.load?_none hload]
    have hrest : ∀ a' : Scan, a'.Low → wp (readPhdr base h a' >>= fun a => readLoad file base h a)
        (fun a' t => Stepped file (h.Fits base) (h.Bare file base s) s t ∧
          Laid file [] s a' t)
        (fun e t => Stepped file (h.Fits base) (h.Bare file base s) s t ∧ e ≠ .panic) s := by
      intro a' ha'
      simp only [readLoad, if_pos hload, bind_pure]
      unfold readPhdr
      split_ifs with hphdr
      · refine (wp_bind _ _).mpr ((wp_addFields _ _).mpr
          ⟨⟨?_, ⟨fun _ hc => absurd rfl hc, fun _ => .inl rfl⟩, ?_⟩,
            .none ha' (fun _ => rfl) fun _ => rfl⟩)
        · rw [sum_over]
          have hfits : h.Fits base ↔ h.vaddr + base < 2 ^ 64 := forall_prop_of_true (.inl hphdr)
          rw [hfits]
        · exact (and_iff_left hbare).symm
      · refine ⟨.refl file s (fun hc => ?_) hbare, .none ha' (fun _ => rfl) fun _ => rfl⟩
        exact absurd hc (not_or.mpr ⟨hphdr, hload⟩)
    unfold readInterp
    split_ifs with hinterp
    · have hfits : h.Fits base := fun hc => by
        rw [hinterp] at hc
        exact absurd hc (by decide)
      exact ⟨.refl file s hfits hbare, nofun⟩
    · exact hrest _ ha
    · exact hrest _ ha

/-! ### The loop over headers -/

/-- What holds of each header that the loop comes to, with the space as it is there. -/
def Along (P : Header → Filling → Prop) (file : File) (base phoff : Nat) :
    List Nat → Scan → Filling → Prop
  | [], _, _ => True
  | i :: is, a, s => P (header file (phoff + i * 56)) s ∧
      ∀ a' t, fillSegment file base (header file (phoff + i * 56)) a s = .ok a' t →
        Along P file base phoff is a' t

/-- The segments that headers load. -/
def loads (file : File) (base phoff : Nat) (is : List Nat) : List Piece :=
  is.flatMap fun i => ((header file (phoff + i * 56)).load? base).toList

theorem Stepped.trans {f f' b b' : Prop} (h : Stepped file f b s t) (h' : Stepped file f' b' t u) :
    Stepped file (f ∧ f') (b ∧ b') s u where
  wrapped := by rw [h'.wrapped, h.wrapped, and_assoc]
  inside := h.inside.trans h'.inside
  slips := by rw [h'.slips, h.slips, and_assoc]

theorem Stepped.congr {f f' b b' : Prop} (h : Stepped file f b s t) (hf : f ↔ f') (hb : b ↔ b') :
    Stepped file f' b' s t := by
  rwa [hf, hb] at h

/-- **The loop over headers** that are all in the file. -/
theorem fillSegments_done (hsize : file.size < 2 ^ 64) : ∀ {is : List Nat} {a : Scan} {s : Filling},
    (∀ i ∈ is, phoff + (i + 1) * 56 ≤ file.size) → a.Low →
    wp (fillSegments file base phoff is a)
      (fun a' t => Stepped file (Along (fun h _ => h.Fits base) file base phoff is a s)
        (Along (fun h => h.Bare file base) file base phoff is a s) s t ∧
        Laid file (loads file base phoff is) s a' t)
      (fun e t => Stepped file (Along (fun h _ => h.Fits base) file base phoff is a s)
        (Along (fun h => h.Bare file base) file base phoff is a s) s t ∧ e ≠ .panic) s := by
  intro is
  induction is with
  | nil => exact fun _ ha => ⟨.refl file _ trivial trivial, .none ha (fun _ => rfl) fun _ => rfl⟩
  | cons i is ih =>
      intro a s hin ha
      have hlast := hin i (List.mem_cons_self ..)
      have hfst : s.sum phoff (i * 56) = s := sum_eq (by omega)
      have hsnd : s.sum phoff ((i + 1) * 56) = s := sum_eq (by omega)
      have ho : wrap (phoff + i * 56) = phoff + i * 56 := Nat.mod_eq_of_lt (by omega)
      have he : wrap (phoff + (i + 1) * 56) = phoff + (i + 1) * 56 := Nat.mod_eq_of_lt (by omega)
      rw [fillSegments]
      refine (wp_bind _ _).mpr ((wp_addFields _ _).mpr ?_)
      rw [hfst]
      refine (wp_bind _ _).mpr ((wp_addFields _ _).mpr ?_)
      rw [hsnd, ho, he]
      refine wp_ite.mpr ⟨fun hc => absurd hc (by omega), fun _ => (wp_bind _ _).mpr ?_⟩
      have hone := fillSegment_done file base (header file (phoff + i * 56)) ha s
      unfold wp at hone
      simp only [Along]
      rcases hr : fillSegment file base (header file (phoff + i * 56)) a s with ⟨a', t⟩ | ⟨e, t⟩ <;>
        rw [hr] at hone
      · have hin' := fun j hj => hin j (List.mem_cons_of_mem i hj)
        refine (wp_ok hr).mpr (wp_mono (ih hin' hone.2.low)
          (fun a'' u hu => ⟨(hone.1.trans hu.1).congr ?_ ?_, hone.2.append hu.2⟩)
          fun e u hu => ⟨(hone.1.trans hu.1).congr ?_ ?_, hu.2⟩)
        all_goals
          refine and_congr_right fun _ => ⟨fun h _ _ hc => ?_, fun h => h _ _ rfl⟩
          obtain ⟨rfl, rfl⟩ := EStateM.Result.ok.inj hc
          exact h
      · refine (wp_error hr).mpr ⟨hone.1.congr ?_ ?_, hone.2⟩
        all_goals exact (and_iff_left fun _ _ hc => absurd hc nofun).symm

/-! ### A file -/

variable {N L : Multiset Nat} {fr₀ : Frames} {root dynBase : Nat} {segs : List Seg}

/-- The file says that it is an executable for this machine. -/
def File.Accepted (file : File) : Prop :=
  64 ≤ file.size ∧ isElf file = true ∧ file.bytes 4 = 2 ∧ file.bytes 5 = 1 ∧
    rd16 file 18 = EM_MACHINE ∧ (rd16 file 16 = 2 ∨ rd16 file 16 = 3) ∧ rd16 file 54 = 56

/-- What is added to the addresses of the file. -/
def File.loadBase (file : File) (dynBase : Nat) : Nat := if rd16 file 16 = 3 then dynBase else 0

/-- The loop over the headers of the file. -/
def File.loop (file : File) (dynBase : Nat) (segs : List Seg) : Filler Scan :=
  fillSegments file (file.loadBase dynBase) (rd64 file 32) (List.range (rd16 file 56))
    ⟨0, none, none, segs⟩

/-- What holds of each header of the file that the loop comes to. -/
def File.Each (P : Header → Filling → Prop) (file : File) (dynBase : Nat) (segs : List Seg)
    (s : Filling) : Prop :=
  Along P file (file.loadBase dynBase) (rd64 file 32) (List.range (rd16 file 56))
    ⟨0, none, none, segs⟩ s

/-- The segments that the file loads. -/
def File.loads (file : File) (dynBase : Nat) : List Piece :=
  Vm.loads file (file.loadBase dynBase) (rd64 file 32) (List.range (rd16 file 56))

/-- A load that returns has mapped the file where programs are, with zeros in the rest of each
segment; one that fails has, once its space is freed, no frame.  No sum went over 64 bits. -/
def Contained (N L : Multiset Nat) (root : Nat) (file : File) (dynBase : Nat) (segs : List Seg)
    (s : Filling) : Prop :=
  wp (fillElf file dynBase segs)
    (fun _ t => t.wrapped = false ∧ Inside file s t ∧
      ∀ q ∈ file.loads dynBase, ∀ x, q.Rest x → t.mem x = 0)
    (fun e t => e ≠ .panic ∧ t.wrapped = false ∧ Inside file s t ∧
      Accounted N L (t.load.freeSpace root).fr) s

/-- The sums of the headers fit, no byte of a segment is left in the rest of another, and no page
that nobody may read is mapped again before the load fails. -/
def File.Sound (file : File) (dynBase : Nat) (segs : List Seg) (s : Filling) : Prop :=
  file.Accepted → rd64 file 32 + rd16 file 56 * 56 < 2 ^ 64 ∧
    (rd64 file 32 + rd16 file 56 * 56 ≤ file.size →
      file.Each (fun h _ => h.Fits (file.loadBase dynBase)) dynBase segs s ∧
      wp (file.loop dynBase segs)
        (fun _ _ => rd64 file 24 + file.loadBase dynBase < 2 ^ 64 ∧
          ∀ q ∈ file.loads dynBase, ∀ x, q.Rest x →
            ((file.loads dynBase).foldl (Piece.lay file x) (s.at_ x)).2 = 0)
        (fun _ _ => file.Each (fun h => h.Bare file (file.loadBase dynBase)) dynBase segs s) s)

theorem fillElf_refused (h : ¬ file.Accepted) :
    fillElf file dynBase segs = throw (.errno ENOEXEC) := by
  unfold fillElf
  refine ite_eq_left_iff.mpr fun h₁ => ite_eq_left_iff.mpr fun h₂ => ite_eq_left_iff.mpr fun h₃ =>
    ?_
  simp only [not_or, not_and, not_not, not_lt, Bool.not_eq_false] at h₁ h₂ h₃
  refine absurd ⟨h₁.1, h₁.2.1, h₁.2.2.1, h₁.2.2.2, h₂.1, ?_, h₃⟩ h
  exact or_iff_not_imp_left.mpr h₂.2

theorem fillElf_accepted (h : file.Accepted) : fillElf file dynBase segs = (do
    let stop ← addFields (rd64 file 32) (rd16 file 56 * 56)
    if file.size < stop then throw (.errno ENOEXEC)
    else
      let a ← file.loop dynBase segs
      let phdr ← findPhdr (rd64 file 32) a
      let entry ← addFields (rd64 file 24) (file.loadBase dynBase)
      pure ⟨entry, phdr, rd16 file 56, a.interp, a.segs⟩) := by
  obtain ⟨hsize, helf, hclass, hdata, hmachine, htype, hent⟩ := h
  unfold fillElf
  rw [if_neg (by simp [hsize, helf, hclass, hdata])]
  rw [if_neg (show ¬ (rd16 file 18 ≠ EM_MACHINE ∨ rd16 file 16 ≠ 2 ∧ rd16 file 16 ≠ 3) by tauto)]
  rw [if_neg (not_not.mpr hent), hent]
  rfl

theorem fillElf_accounted (hl : Loading (root ::ₘ N) L fr₀ s.load) {e : Fail}
    (h : fillElf file dynBase segs s = .error e t) :
    Accounted N L (t.load.freeSpace root).fr ↔ t.load.slips = [] := by
  have herase := (erases_fillElf file dynBase segs).error h
  have hkept := (keeps_mapElf file dynBase segs s.load hl).error herase
  exact Dropped.leaves_all ⟨hkept.freeSpace, rfl⟩

theorem findPhdr_ok (ha : a.Low) (hphoff : phoff < 2 ^ 63) (s : Filling) :
    ∃ v, findPhdr phoff a s = .ok v s := by
  unfold findPhdr
  split
  · rcases hfirst : a.firstLoad with - | ⟨va, off⟩
    · exact ⟨0, rfl⟩
    · have hva : va < USER_HI := ha _ hfirst
      simp only [USER_HI] at hva
      simp only
      split
      · refine ⟨wrap (va + (phoff - off)), ?_⟩
        have hsum : s.sum va (phoff - off) = s := sum_eq (by omega)
        exact congrArg (EStateM.Result.ok _) hsum
      · exact ⟨0, rfl⟩
  · exact ⟨a.phdrVa, rfl⟩

theorem fillSegments_over {is : List Nat} : ∀ {a : Scan} {s : Filling}, a.Low → s.wrapped = true →
    wp (fillSegments file base phoff is a) (fun a' t => a'.Low ∧ t.wrapped = true)
      (fun _ t => t.wrapped = true) s := by
  induction is with
  | nil => exact fun ha hs => ⟨ha, hs⟩
  | cons i is ih =>
      intro a s ha hs
      rw [fillSegments]
      refine (wp_bind _ _).mpr ((wp_addFields _ _).mpr ((wp_bind _ _).mpr ((wp_addFields _ _).mpr
        (wp_ite.mpr ⟨fun _ => ?_, fun _ => (wp_bind _ _).mpr ?_⟩))))
      · simp [Filling.sum, hs]
      · have hover : ∀ {f b : Prop} {t : Filling}, Stepped file f b
            ((s.sum phoff (i * 56)).sum phoff ((i + 1) * 56)) t → t.wrapped = true := fun h => by
          refine Bool.eq_true_of_not_eq_false fun hc => ?_
          have hold := (h.wrapped.mp hc).1
          simp [Filling.sum, hs] at hold
        exact wp_mono (fillSegment_done file base _ ha _)
          (fun a' t ht => ih ht.2.low (hover ht.1)) fun e t ht => hover ht.1

theorem addFields_over (x y : Nat) (hs : s.wrapped = true) : (s.sum x y).wrapped = true := by
  simp only [Filling.sum, hs, Bool.true_or]

theorem findPhdr_over (phoff : Nat) (a : Scan) (hs : s.wrapped = true) :
    wp (findPhdr phoff a) (fun _ t => t.wrapped = true) (fun _ t => t.wrapped = true) s := by
  unfold findPhdr
  split_ifs
  · rcases a.firstLoad with - | ⟨va, off⟩
    · exact hs
    · exact wp_ite.mpr ⟨fun _ => (wp_addFields _ _).mpr (addFields_over _ _ hs), fun _ => hs⟩
  · exact hs

theorem fillElf_over (hacc : file.Accepted) (hfit : 2 ^ 64 ≤ rd64 file 32 + rd16 file 56 * 56)
    (s : Filling) : wp (fillElf file dynBase segs) (fun _ t => t.wrapped = true)
      (fun _ t => t.wrapped = true) s := by
  rw [fillElf_accepted hacc]
  refine (wp_bind _ _).mpr ((wp_addFields _ _).mpr ?_)
  have ho : (s.sum (rd64 file 32) (rd16 file 56 * 56)).wrapped = true := by
    simp only [Filling.sum, hfit, decide_true, Bool.or_true]
  have hlow : Scan.Low ⟨0, none, none, segs⟩ := fun _ hx => absurd hx (Option.not_mem_none _)
  refine wp_ite.mpr ⟨fun _ => ho, fun _ => (wp_bind _ _).mpr ?_⟩
  refine wp_mono (fillSegments_over hlow ho) (fun a t ht => ?_) fun _ _ ht => ht
  refine (wp_bind _ _).mpr (wp_mono (findPhdr_over _ a ht.2) (fun v u hu => ?_) fun _ _ hu => hu)
  refine (wp_bind _ _).mpr ((wp_addFields _ _).mpr ?_)
  exact addFields_over _ _ hu

theorem contained_iff (hl : Loading (root ::ₘ N) L fr₀ s.load) {x : Filler Elf}
    (hx : fillElf file dynBase segs = x) : Contained N L root file dynBase segs s ↔ wp x
      (fun _ t => t.wrapped = false ∧ Inside file s t ∧
        ∀ q ∈ file.loads dynBase, ∀ x, q.Rest x → t.mem x = 0)
      (fun e t => e ≠ .panic ∧ t.wrapped = false ∧ Inside file s t ∧ t.load.slips = []) s := by
  subst hx
  unfold Contained
  rcases hr : fillElf file dynBase segs s with ⟨r, t⟩ | ⟨e, t⟩
  · rw [wp_ok hr, wp_ok hr]
  · rw [wp_error hr, wp_error hr, fillElf_accounted hl hr]

theorem Laid.rest {a : Scan} (h : Laid file (file.loads dynBase) s a t) :
    ∀ q ∈ file.loads dynBase, ∀ x, q.Rest x →
      t.mem x = ((file.loads dynBase).foldl (Piece.lay file x) (s.at_ x)).2 := fun q hq x hx => by
  have hgood := h.good q hq
  simp only [Piece.Bad, not_or, not_lt, not_le, USER_HI] at hgood
  simp only [Piece.Rest] at hx
  exact congrArg Prod.snd (h.bytes x (by omega))

theorem contained_within (hsize : file.size < 2 ^ 63) (hover : s.wrapped = false)
    (hslips : s.load.slips = []) (hin : rd64 file 32 + rd16 file 56 * 56 ≤ file.size) :
    wp (do
        let a ← file.loop dynBase segs
        let phdr ← findPhdr (rd64 file 32) a
        let entry ← addFields (rd64 file 24) (file.loadBase dynBase)
        pure (Elf.mk entry phdr (rd16 file 56) a.interp a.segs))
      (fun _ t => t.wrapped = false ∧ Inside file s t ∧
        ∀ q ∈ file.loads dynBase, ∀ x, q.Rest x → t.mem x = 0)
      (fun e t => e ≠ .panic ∧ t.wrapped = false ∧ Inside file s t ∧ t.load.slips = []) s ↔
    file.Each (fun h _ => h.Fits (file.loadBase dynBase)) dynBase segs s ∧
      wp (file.loop dynBase segs)
        (fun _ _ => rd64 file 24 + file.loadBase dynBase < 2 ^ 64 ∧
          ∀ q ∈ file.loads dynBase, ∀ x, q.Rest x →
            ((file.loads dynBase).foldl (Piece.lay file x) (s.at_ x)).2 = 0)
        (fun _ _ => file.Each (fun h => h.Bare file (file.loadBase dynBase)) dynBase segs s) s := by
  have hlow : Scan.Low ⟨0, none, none, segs⟩ := fun _ hx => absurd hx (Option.not_mem_none _)
  have hheads : ∀ i ∈ List.range (rd16 file 56), rd64 file 32 + (i + 1) * 56 ≤ file.size :=
    fun i hi => by
      have hi' := List.mem_range.mp hi
      omega
  have hloop := @fillSegments_done file (file.loadBase dynBase) _ (by omega) _ _ s hheads hlow
  refine (wp_bind _ _).trans ?_
  unfold wp at hloop
  rcases hr : fillSegments file (file.loadBase dynBase) (rd64 file 32) (List.range (rd16 file 56))
      ⟨0, none, none, segs⟩ s with ⟨a, t⟩ | ⟨e, t⟩ <;> rw [hr] at hloop
  · obtain ⟨hstep, hlaid⟩ := hloop
    refine (wp_ok hr).trans (Iff.trans ?_ (and_congr_right fun _ => (wp_ok hr).symm))
    obtain ⟨v, hv⟩ := findPhdr_ok hlaid.low (by omega : rd64 file 32 < 2 ^ 63) t
    refine (wp_bind _ _).trans ((wp_ok hv).trans ((wp_bind _ _).trans ?_))
    have hentry := sum_over (rd64 file 24) (file.loadBase dynBase) t
    refine ⟨fun ⟨ho, _, hz⟩ => ?_, fun ⟨hfits, hsum, hz⟩ => ?_⟩
    · obtain ⟨ht, hsum⟩ := hentry.mp ho
      refine ⟨(hstep.wrapped.mp ht).2, hsum, fun q hq x hx => ?_⟩
      exact (hlaid.rest q hq x hx).symm.trans (hz q hq x hx)
    · refine ⟨hentry.mpr ⟨hstep.wrapped.mpr ⟨hover, hfits⟩, hsum⟩,
        ⟨hstep.inside.pages, hstep.inside.bytes⟩, fun q hq x hx => ?_⟩
      exact (hlaid.rest q hq x hx).trans (hz q hq x hx)
  · obtain ⟨hstep, hpanic⟩ := hloop
    refine (wp_error hr).trans (Iff.trans ?_ (and_congr_right fun _ => (wp_error hr).symm))
    refine ⟨fun h => ⟨(hstep.wrapped.mp h.2.1).2, (hstep.slips.mp h.2.2.2).2⟩, fun h => ?_⟩
    exact ⟨hpanic, hstep.wrapped.mpr ⟨hover, h.1⟩, hstep.inside, hstep.slips.mpr ⟨hslips, h.2⟩⟩

/-- **A load is contained** exactly if its headers are sound. -/
theorem fillElf_contained (hsize : file.size < 2 ^ 63) (hover : s.wrapped = false)
    (hslips : s.load.slips = []) (hl : Loading (root ::ₘ N) L fr₀ s.load) :
    Contained N L root file dynBase segs s ↔ file.Sound dynBase segs s := by
  unfold File.Sound
  by_cases hacc : file.Accepted
  · rw [forall_prop_of_true hacc]
    by_cases hfit : rd64 file 32 + rd16 file 56 * 56 < 2 ^ 64
    · refine (contained_iff hl (fillElf_accepted hacc)).trans ?_
      rw [and_iff_right hfit]
      refine (wp_bind _ _).trans ((wp_addFields _ _).trans ?_)
      rw [sum_eq hfit, show wrap (rd64 file 32 + rd16 file 56 * 56) = _ from Nat.mod_eq_of_lt hfit]
      by_cases hin : rd64 file 32 + rd16 file 56 * 56 ≤ file.size
      · rw [if_neg (Nat.not_lt.mpr hin), forall_prop_of_true hin]
        exact contained_within hsize hover hslips hin
      · rw [if_pos (Nat.lt_of_not_le hin)]
        exact iff_of_true ⟨nofun, hover, .refl file s, hslips⟩ fun hc => absurd hc hin
    · refine iff_of_false (fun hc => ?_) fun hc => hfit hc.1
      have hboth := wp_and hc (fillElf_over hacc (Nat.not_lt.mp hfit) s)
      have hnone : wp (fillElf file dynBase segs) (fun _ _ => False) (fun _ _ => False) s :=
        wp_mono hboth (fun _ _ h => Bool.noConfusion (h.2.symm.trans h.1.1))
          fun _ _ h => Bool.noConfusion (h.2.symm.trans h.1.2.1)
      obtain ⟨_, _, _, hfalse⟩ := hnone.returns
      exact hfalse
  · refine (contained_iff hl (fillElf_refused hacc)).trans ?_
    exact iff_of_true ⟨nofun, hover, .refl file s, hslips⟩ fun hc => absurd hc hacc

/-- A space that was just made, on a machine of 16 frames. -/
def bareSpace : Filling where
  load := match createSpace ENOSPC ⟨.empty, .boot 16 fun _ => false, []⟩ with
    | .ok _ l => l
    | .error _ l => l
  mem _ := 0
  wrapped := false

theorem loading_bareSpace : Loading (0 ::ₘ 0) 0 (.boot 16 fun _ => false) bareSpace.load := by
  have hstart := Loading.start (Accounted.boot 16 fun _ => false)
  have hmade : createSpace ENOSPC ⟨.empty, .boot 16 fun _ => false, []⟩ = .ok 0 bareSpace.load := by
    with_unfolding_all rfl
  exact (createSpace_loading ENOSPC hstart rfl).ok hmade

/-- A file whose fields of these bytes are given, and the others zero. -/
def fileOf (size : Nat) (fields : List (Nat × UInt8)) : File where
  size := size
  bytes o := ((fields.find? (·.1 = o)).map (·.2)).getD 0

/-- The header of an executable. -/
def elfHeader : List (Nat × UInt8) :=
  [(0, 0x7f), (1, 0x45), (2, 0x4c), (3, 0x46), (4, 2), (5, 1), (16, 2), (18, 183), (54, 56)]

/-- One segment of 5000 bytes at `0x10000`, of which the file has 120. -/
def oneSegment : File := fileOf 120 (elfHeader ++
  [(32, 64), (56, 1), (64, 1), (68, 4), (82, 1), (96, 120), (104, 0x88), (105, 0x13)])

/-- Two headers, of which the second ends behind the last address. -/
def longTable : File := fileOf 64 (elfHeader ++
  [(32, 200), (33, 255), (34, 255), (35, 255), (36, 255), (37, 255), (38, 255), (39, 255), (56, 2)])

/-- A segment that is loaded. -/
theorem fillElf_contained_one :
    (match fillElf oneSegment PIE_BASE [] bareSpace with
      | .ok elf t => decide (elf.segs.map (·.stop) = [0x12000] ∧ t.mem 0x10001 = 0x45)
      | .error _ _ => false) = true ∧
    (Contained 0 0 0 oneSegment PIE_BASE [] bareSpace ↔
      oneSegment.Sound PIE_BASE [] bareSpace) := by
  refine ⟨by decide +kernel, fillElf_contained (by decide) rfl rfl loading_bareSpace⟩

/-- **The headers are read out of range**: the end of the table wraps to 56. -/
theorem fillElf_panics :
    (match fillElf longTable PIE_BASE [] bareSpace with
      | .ok _ _ => False
      | .error e t => e = .panic ∧ t.wrapped = true) ∧
    bareSpace.wrapped = false ∧ bareSpace.load.slips = [] ∧
    Loading (0 ::ₘ 0) 0 (.boot 16 fun _ => false) bareSpace.load ∧
    ¬ Contained 0 0 0 longTable PIE_BASE [] bareSpace := by
  have hrun : wp (fillElf longTable PIE_BASE []) (fun _ _ => False)
      (fun e t => e = .panic ∧ t.wrapped = true) bareSpace := by
    with_unfolding_all exact ⟨rfl, rfl⟩
  refine ⟨hrun, rfl, rfl, loading_bareSpace, fun hc => ?_⟩
  have hnone : wp (fillElf longTable PIE_BASE []) (fun _ _ => False) (fun _ _ => False) bareSpace :=
    wp_mono (wp_and hrun hc) (fun _ _ h => h.1) fun _ _ h => h.2.1 h.1.1
  obtain ⟨_, _, _, hfalse⟩ := hnone.returns
  exact hfalse

end Pulsar.Vm

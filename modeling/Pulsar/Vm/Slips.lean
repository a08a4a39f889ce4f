import Pulsar.Vm.Pulse

/-!
# The frames that a load loses (`exec.rs`, `loader.rs`)

A load loses a frame where a page is mapped over another, where a space is begun for which there are
not enough frames, and where a page of the stack of `load_pulse` gets no table.  What is asked of a
file, so that none of these is met, is put together as the loader is: each page, each header, each
image.

* **`loadFrom_bare`**: no frame slips from a load exactly if it is bare.
-/

namespace Pulsar.Vm

open Prog (KeepsIff)

/-- Every frame is named. -/
def Load.Whole (l : Load) : Prop := l.slips = []

/-! ### What is asked -/

/-- No page of a copy is mapped over one that is there, as far as the loop comes. -/
def BareCopy (prot : Nat) : Nat → Nat → Load → Prop
  | _, 0, _ => True
  | page, n + 1, l =>
    match l.pt.translateUser page false with
    | some _ =>
      BareCopy prot (page + PAGE) n { l with
        pt := protectRange page (page + PAGE) (.userProt (prot ||| 1 ||| 2)) l.pt }
    | none => (l.newPage page (.userProt prot)).1 = true →
      ¬ l.Taken (vpn page) ∧ BareCopy prot (page + PAGE) n (l.newPage page (.userProt prot)).2

/-- No page of the range is mapped over one that is there. -/
def BareRange (va prot memLen : Nat) : Load → Prop :=
  BareCopy prot (pageOf va) ((va + memLen - pageOf va + (PAGE - 1)) / PAGE)

/-- The segment of a header, if it passes the checks, is mapped over no page. -/
def BareHeader (file : File) (base o : Nat) (l : Load) : Prop :=
  ∀ q ∈ (header file o).load? base, ¬ q.Bad file → BareRange q.va q.prot q.memsz l

/-- So are those of the headers that the loop comes to. -/
def BareHeaders (file : File) (base phoff : Nat) : List Nat → Scan → Load → Prop
  | [], _, _ => True
  | i :: is, a, l =>
    ¬ (wrap (phoff + (i + 1) * 56) < wrap (phoff + i * 56) ∨
        file.size < wrap (phoff + (i + 1) * 56)) →
      BareHeader file base (wrap (phoff + i * 56)) l ∧
        wp (loadSegment file base (wrap (phoff + i * 56)) a) (BareHeaders file base phoff is)
          (fun _ _ => True) l

/-- So are those of an executable. -/
def File.BareElf (file : File) (dynBase : Nat) (segs : List Seg) (l : Load) : Prop :=
  file.Accepted → ¬ file.size < wrap (rd64 file 32 + rd16 file 56 * 56) →
    BareHeaders file (file.loadBase dynBase) (rd64 file 32) (List.range (rd16 file 56))
      ⟨0, none, none, segs⟩ l

/-- There are frames for a new space or for none of it, and a program and its interpreter are mapped
over no page. -/
def BareProgram (disk : Disk) (file : File) (l : Load) : Prop :=
  shortFrames l.fr = [] ∧ wp (createSpace ENOSPC) (fun _ l => file.BareElf PIE_BASE [] l ∧
    wp (mapElf file PIE_BASE []) (fun elf l => ∀ p ∈ elf.interp,
      wp (readWhole disk ROOT_INO (file.slice p.1 p.2) MAX_IMAGE)
        (fun r l => r.2.2.BareElf INTERP_BASE elf.segs l) (fun _ _ => True) l)
      (fun _ _ => True) l) (fun _ _ => True) l

/-- The checks of the header of `load_pulse_linux`. -/
def File.LinuxRefused (file : File) : Prop :=
  (file.size < 48 ∨ rd32 file 0 ≠ PULSE_MAGIC ∨ rd16 file 4 ≠ 3) ∨
    (archMatches (rd32 file 20) = false ∨ rd64 file 24 ≠ 0 ∨ rd16 file 42 ≠ 1) ∨
      file.size < rd32 file 16 + rd16 file 6 * 24

/-- The segments that `load_pulse_linux` comes to are mapped over no page. -/
def BareLinuxSegs (file : File) (table : Nat) : List Nat → Load → Prop
  | [] => fun _ => True
  | i :: is => fun l =>
    let q := pulseSeg file (table + i * 24)
    ¬ (q.va < USER_LO ∨ USER_HI < min (q.va + q.memsz) (2 ^ 64 - 1) ∨
        file.size < q.off + q.filesz ∨ q.memsz < q.filesz) →
      BareRange q.va (q.prot % 8) q.memsz l ∧ wp (copyInto q.va (q.prot % 8) q.memsz)
        (fun ok l => ok = true → BareLinuxSegs file table is l) (fun _ _ => True) l

/-- `BareProgram`, for `load_pulse_linux`. -/
def File.BareLinux (file : File) (l : Load) : Prop :=
  ¬ file.LinuxRefused → shortFrames l.fr = [] ∧ wp (createSpace ENOSPC)
    (fun _ => BareLinuxSegs file (rd32 file 16) (List.range (rd16 file 6))) (fun _ _ => True) l

/-- `BareProgram`, for `load_pulse`. -/
def File.BareNative (file : File) (l : Load) : Prop :=
  ¬ file.PulseRefused → shortFrames l.fr = [] ∧
    wp (createSpace ENOEXEC) (fun _ => file.PulseBare) (fun _ _ => True) l

/-- The first page of the stack of a program. -/
def firstPage (path : List UInt8) (args : Args) : Nat :=
  let top := ARG_MAX - 8 - 1 - path.length - 16 - blockLen args.envp - blockLen args.argv
  let words := 1 + args.argv.length + 1 + args.envp.length + 1 + 2 * (16 + 1)
  pageOf (STACK_TOP - ARG_MAX + (top / 16 * 16 - words * 8) / 16 * 16)

/-- The stack, if there are not too many arguments for it, is mapped over no page. -/
def BareStackCopy (path : List UInt8) (args : Args) (l : Load) : Prop :=
  ¬ ARG_MAX < path.length + 1 + blockLen args.argv + blockLen args.envp + 16 +
      (args.argv.length + args.envp.length + 3 + 2 * 20) * 8 + 64 →
    wp (allocContig (ARG_MAX / PAGE) ENOSPC)
      (fun _ l => ¬ (512 < args.argv.length ∨ 512 < args.envp.length) →
        BareRange (firstPage path args) 3 (STACK_TOP - firstPage path args) l)
      (fun _ _ => True) l

/-- The page of signals and the stack are mapped over no page. -/
def BareStart (path : List UInt8) (args : Args) (l : Load) : Prop :=
  ((l.mapAt (vpn SIGPAGE_VA) ⟨l.fr.n, .userProt 5⟩).1 = true → ¬ l.Taken (vpn SIGPAGE_VA)) ∧
    wp mapSigpage (fun _ => BareStackCopy path args) (fun _ _ => True) l

/-- An image of any kind is loaded without losing a frame. -/
def BareImage (disk : Disk) (file : File) (path : List UInt8) (args : Args) (l : Load) : Prop :=
  if 4 ≤ file.size ∧ isElf file then
    BareProgram disk file l ∧
      wp (loadElf disk file) (fun _ => BareStart path args) (fun _ _ => True) l
  else if 6 ≤ file.size ∧ rd16 file 4 = 3 then
    file.BareLinux l ∧ wp (loadPulseLinux file) (fun _ => BareStart path args) (fun _ _ => True) l
  else file.BareNative l

/-- The file of the path, if it can be read, is. -/
def BareLoad (disk : Disk) (at_ : Nat) (path : List UInt8) (args : Args) (l : Load) : Prop :=
  wp (readWhole disk at_ path MAX_IMAGE) (fun r => BareImage disk r.2.2 path args)
    (fun _ _ => True) l

/-! ### Pages -/

variable {α : Type} {x : Loader α} {C : Load → Prop} {file : File} {l : Load}

theorem copyPages_bare (prot : Nat) : ∀ {n page : Nat} {l : Load},
    (copyPages prot page n l).2.Whole ↔ l.Whole ∧ BareCopy prot page n l := by
  intro n
  induction n with
  | zero => exact (and_iff_left trivial).symm
  | succ n ih =>
      intro page l
      rw [copyPages, BareCopy]
      cases l.pt.translateUser page false with
      | some _ => exact ih
      | none =>
          have hpage := newPage_done page (.userProt prot) l
          simp only
          rcases hn : l.newPage page (.userProt prot) with ⟨- | -, t⟩ <;> rw [hn] at hpage
          · obtain ⟨-, hslips, -⟩ | ⟨_, hc, -⟩ := hpage
            swap
            · exact absurd hc Bool.false_ne_true
            rw [and_iff_left fun hc => absurd hc Bool.false_ne_true]
            exact (congrArg (· = []) hslips).to_iff
          · obtain ⟨_, -, -, hslips⟩ := hpage.resolve_left fun h => Bool.noConfusion h.1
            rw [forall_prop_of_true rfl, ← and_assoc]
            exact ih.trans (and_congr_left fun _ => hslips)

theorem copyInto_bare (va prot memLen : Nat) :
    KeepsIff Load.Whole (copyInto va prot memLen) (BareRange va prot memLen) :=
  fun _ => copyPages_bare prot

theorem onFail_bare (root : Nat) (h : KeepsIff Load.Whole x C) :
    KeepsIff Load.Whole (onFail (Load.freeSpace root) x) C := fun l => (wp_onFail _).mpr (h l)

theorem andThen_bare (b k : Nat) (h : KeepsIff Load.Whole x C) :
    KeepsIff Load.Whole (andThen (Load.freeContig b k) x) C := fun l => (wp_andThen _).mpr (h l)

theorem allocContig_whole (k e : Nat) (l : Load) : wp (allocContig k e)
    (fun _ t => t.Whole ↔ l.Whole) (fun _ t => t.Whole ↔ l.Whole) l := by
  unfold wp allocContig
  rcases l.fr.allocContig k with ⟨- | b, fr⟩
  · exact Iff.rfl
  · exact Iff.rfl

theorem readWhole_whole (disk : Disk) (at_ : Nat) (path : List UInt8) (max : Nat) (l : Load) :
    wp (readWhole disk at_ path max) (fun _ t => t.Whole ↔ l.Whole)
      (fun _ t => t.Whole ↔ l.Whole) l := by
  unfold readWhole
  cases disk.find at_ path with
  | error e => exact Iff.rfl
  | ok size =>
      refine wp_ite.mpr ⟨fun _ => Iff.rfl, fun _ => (wp_bind _ _).mpr ?_⟩
      refine wp_mono (allocContig_whole _ _ l) (fun b t ht => ?_) fun _ _ ht => ht
      cases disk.read at_ path with
      | error e => exact ht
      | ok bytes => exact ht

theorem shortFrames_made {e root : Nat} {t : Load} (h : createSpace e l = .ok root t) :
    shortFrames l.fr = [] := by
  unfold createSpace createUserSpace at h
  unfold shortFrames
  rcases h₁ : l.fr.allocFrame with ⟨- | _, fr₁⟩
  · rfl
  rcases h₂ : fr₁.allocFrame with ⟨- | _, fr₂⟩
  · simp [h₁, h₂] at h
  rcases h₃ : fr₂.allocFrame with ⟨- | _, fr₃⟩
  · simp [h₁, h₂, h₃] at h
  · simp only [h₂, h₃]

theorem createSpace_whole (e : Nat) :
    KeepsIff Load.Whole (createSpace e) fun l => shortFrames l.fr = [] := fun l => by
  have hbare := createSpace_bare e l
  rcases hc : createSpace e l with ⟨root, t⟩ | ⟨_, t⟩
  · refine (wp_ok hc).mpr ?_
    have hslips : t.slips = l.slips := (hbare.ok hc).2
    rw [and_iff_left (shortFrames_made hc)]
    exact (congrArg (· = []) hslips).to_iff
  · refine (wp_error hc).mpr ?_
    have hslips := hbare.error hc
    rw [Load.Whole, hslips, List.append_eq_nil_iff, List.map_eq_nil_iff]
    exact and_comm

/-! ### An executable -/

theorem loadSegment_bare (file : File) (base o : Nat) (a : Scan) :
    KeepsIff Load.Whole (loadSegment file base o a) (BareHeader file base o) := by
  unfold loadSegment BareHeader header
  generalize rd32 file o = ptype, rd64 file (o + 8) = off, rd64 file (o + 16) = vaddr,
    rd64 file (o + 32) = filesz, rd64 file (o + 40) = memsz, rd32 file (o + 4) = flags
  extract_lets _ _ _ va _ _ prot rest
  obtain ⟨C, hC⟩ : ∃ C : Load → Prop, C = fun l =>
      ∀ q ∈ (Header.mk ptype flags off vaddr filesz memsz).load? base,
        ¬ q.Bad file → BareRange q.va q.prot q.memsz l := ⟨_, rfl⟩
  rw [← hC]
  -- a header that loads nothing
  have hnone : ¬ (ptype = PT_LOAD ∧ memsz ≠ 0) → ∀ l, C l := fun hp l => by
    rw [hC]
    intro q hq
    rw [Header.load?, if_neg hp] at hq
    exact absurd hq (Option.not_mem_none q)
  have hrest : ∀ a, KeepsIff Load.Whole (rest a) C := fun a => by
    simp only [rest]
    refine .ite (fun hp => .pure _ (hnone fun hc => hp hc.1)) fun hp =>
      .ite (fun hm => .pure _ (hnone fun hc => hc.2 hm)) fun hm => ?_
    have hsome : C = fun l => ¬ (Piece.mk va off filesz memsz prot).Bad file →
        BareRange va prot memsz l := by
      rw [hC, Header.load?, if_pos ⟨not_not.mp hp, hm⟩]
      funext l
      exact propext ⟨fun h => h _ rfl, fun h q hq => Option.some.inj hq ▸ h⟩
    rw [hsome]
    exact .guard _ fun _ => (copyInto_bare va prot memsz).before fun ok =>
      .ite (fun _ => .pure _ fun _ => trivial) fun _ => .throw _ fun _ => trivial
  clear_value rest
  split_ifs with hi hbad
  · exact .throw _ (hnone fun hc => absurd (hi.symm.trans hc.1) (by decide))
  · exact hrest _
  · exact hrest _

theorem loadSegments_bare (file : File) (base phoff : Nat) : ∀ (is : List Nat) (a : Scan),
    KeepsIff Load.Whole (loadSegments file base phoff is a) (BareHeaders file base phoff is a) := by
  intro is
  induction is with
  | nil => exact fun a => .pure a fun _ => trivial
  | cons i is ih => exact fun a => .guard _ fun _ => (loadSegment_bare _ _ _ a).bind ih

theorem mapElf_bare (file : File) (dynBase : Nat) (segs : List Seg) :
    KeepsIff Load.Whole (mapElf file dynBase segs) (file.BareElf dynBase segs) := by
  unfold mapElf
  refine KeepsIff.congr (.guard _ fun _ => .guard _ fun _ => .guard _ fun _ =>
    (loadSegments_bare file (file.loadBase dynBase) _ _ _).before fun a =>
      .pure _ fun _ => trivial) fun l => ?_
  unfold File.BareElf File.Accepted
  generalize BareHeaders file _ _ _ _ l = P
  by_cases hent : rd16 file 54 = 56
  · rw [hent]
    simp only [not_or, not_not, not_and_or, not_lt, Bool.not_eq_false, ne_eq, not_true_eq_false]
    tauto
  · exact iff_of_true (fun _ _ h => absurd (.inl hent) h)
      fun h => absurd h.2.2.2.2.2.2 hent

theorem loadElf_bare (disk : Disk) (file : File) :
    KeepsIff Load.Whole (loadElf disk file) (BareProgram disk file) := by
  refine (createSpace_whole _).bind fun root => onFail_bare root
    ((mapElf_bare file _ _).bind fun elf => ?_)
  cases elf.interp with
  | none => exact .pure _ fun _ _ hp => absurd hp (Option.not_mem_none _)
  | some p =>
      refine KeepsIff.congr (.after (readWhole_whole disk _ _ _) fun r =>
        .before (andThen_bare _ _ (mapElf_bare r.2.2 _ _)) fun r => ?_) fun l =>
          ⟨fun h q hq => Option.some.inj hq ▸ h, fun h => h p rfl⟩
      cases r.interp with
      | none => exact .pure _ fun _ => trivial
      | some _ => exact .throw _ fun _ => trivial

/-! ### The other images -/

theorem pulseLinuxSegs_bare (file : File) (table : Nat) : ∀ (is : List Nat) (segs : List Seg),
    KeepsIff Load.Whole (pulseLinuxSegs file table is segs) (BareLinuxSegs file table is) := by
  intro is
  induction is with
  | nil => exact fun segs => .pure segs fun _ => trivial
  | cons i is ih =>
      intro segs
      unfold pulseLinuxSegs BareLinuxSegs pulseSeg
      dsimp only
      generalize rd32 file (table + i * 24) = off, rd32 file (table + i * 24 + 4) = filesz,
        rd64 file (table + i * 24 + 8) = va, rd32 file (table + i * 24 + 16) = memsz,
        rd32 file (table + i * 24 + 20) = prot
      refine .guard _ fun _ => (copyInto_bare va (prot % 8) memsz).bind fun ok => ?_
      exact .ite (fun hok => (ih _).congr fun _ => ⟨fun h _ => h, fun h => h hok⟩) fun hno =>
        .throw _ fun _ hok => absurd hok hno

theorem loadPulseLinux_bare (file : File) :
    KeepsIff Load.Whole (loadPulseLinux file) file.BareLinux := by
  unfold loadPulseLinux
  dsimp only
  refine KeepsIff.congr (.guard _ fun _ => .guard _ fun _ => .guard _ fun _ =>
    (createSpace_whole _).bind fun root => .before (onFail_bare root
      (pulseLinuxSegs_bare file _ _ _)) fun segs => .pure _ fun _ => trivial) fun l => ?_
  exact ⟨fun h hn => h (fun hc => hn (.inl hc)) (fun hc => hn (.inr (.inl hc)))
    fun hc => hn (.inr (.inr hc)), fun h h₁ h₂ h₃ => h fun hc => hc.elim h₁ fun hc => hc.elim h₂ h₃⟩

theorem loadPulse_bare (file : File) : KeepsIff Load.Whole (loadPulse file) file.BareNative := by
  refine .guard _ fun _ => (createSpace_whole _).bind fun root => onFail_bare root ?_
  have hload : KeepsIff Load.Whole (modifyGet (pulseLoad file) : Loader Bool)
      file.PulseBare := fun l => by
    have hslips := fillLoad_slips file ⟨l, fun _ => 0, false⟩
    have hsnd := congrArg Prod.snd (load_fillLoad file ⟨l, fun _ => 0, false⟩)
    change (pulseLoad file l).2.slips = [] ↔ _
    rw [show (pulseLoad file l).2 = _ from hsnd]
    exact hslips
  exact hload.before fun ok => .ite (fun _ => .pure _ fun _ => trivial) fun _ =>
    .throw _ fun _ => trivial

theorem mapSigpage_bare : KeepsIff Load.Whole mapSigpage fun l =>
    (l.mapAt (vpn SIGPAGE_VA) ⟨l.fr.n, .userProt 5⟩).1 = true → ¬ l.Taken (vpn SIGPAGE_VA) :=
  fun l => by
    change (l.mapAt _ _).2.Whole ↔ l.Whole ∧ ((l.mapAt _ _).1 = true → _)
    obtain ⟨hno, hslips, -⟩ | ⟨hok, -, hslips⟩ := mapAt_cases (vpn SIGPAGE_VA)
      ⟨l.fr.n, .userProt 5⟩ l
    · rw [hno, and_iff_left fun hc => absurd hc Bool.false_ne_true]
      exact (congrArg (· = []) hslips).to_iff
    · rw [hok, forall_prop_of_true rfl]
      exact hslips

theorem buildStack_bare (path : List UInt8) (args : Args) :
    KeepsIff Load.Whole (buildStack path args) (BareStackCopy path args) := by
  refine .guard _ fun _ => .after (allocContig_whole _ _) fun b => .ite (fun hmany => ?_) fun hfew => ?_
  · exact .before (.always (fun _ => Iff.rfl) fun _ hc => absurd hmany hc) fun _ =>
      .throw _ fun _ => trivial
  · refine .before ((andThen_bare b _ (copyInto_bare _ _ _)).congr fun l =>
      ⟨fun h _ => h, fun h => h hfew⟩) fun ok => ?_
    exact .ite (fun _ => .pure _ fun _ => trivial) fun _ => .throw _ fun _ => trivial

theorem withStack_bare (path : List UInt8) (args : Args) (img : Image) :
    KeepsIff Load.Whole (withStack path args img) (BareStart path args) :=
  mapSigpage_bare.bind fun _ => .before (onFail_bare img.root (buildStack_bare path args)) fun _ =>
    .pure _ fun _ => trivial

/-! ### Any image -/

theorem loadImage_bare (disk : Disk) (file : File) (path : List UInt8) (args : Args) :
    KeepsIff Load.Whole (loadImage disk file path args) (BareImage disk file path args) := by
  unfold loadImage BareImage
  split_ifs
  · exact (loadElf_bare disk file).bind fun img => withStack_bare path args img
  · exact (loadPulseLinux_bare file).bind fun img => withStack_bare path args img
  · exact (loadPulse_bare file).before fun _ => .pure _ fun _ => trivial

/-- **No frame slips from a load** exactly if it is bare. -/
theorem loadFrom_bare (disk : Disk) (at_ : Nat) (path : List UInt8) (args : Args) :
    KeepsIff Load.Whole (loadFrom disk at_ path args) (BareLoad disk at_ path args) :=
  .after (readWhole_whole disk at_ path MAX_IMAGE) fun r =>
    andThen_bare r.1 r.2.1 (loadImage_bare disk r.2.2 path args)

end Pulsar.Vm

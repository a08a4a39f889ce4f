import Pulsar.Vm.Elf

/-!
# What a `.pulse` fills its pages with (`loader.rs`)

`load_pulse` again, with the bytes of the pages and the sums of header fields.  A segment is copied
frame by frame, each from its start, and a page that is mapped twice has the later frame.

* `erases_fillPulse`: what it does to the space is what `loadPulse` does.
* **`fillPulse_contained`**: a load is contained exactly if the file is sound.
* `fillPulse_covers`: two segments on one page, and no frame for the stack.
-/

namespace Pulsar.Vm

open Pulsar.Tree
open Prog (Erases)

def MIN_VADDR : Nat := 0x100000

/-- The segment at `o`. -/
def pulseSeg (file : File) (o : Nat) : Piece :=
  ⟨rd64 file (o + 8), rd32 file o, rd32 file (o + 4), rd32 file (o + 16), rd32 file (o + 20)⟩

/-- The segments of the table. -/
def File.pulseTable (file : File) : List Piece :=
  (List.range (rd16 file 6)).map fun i => pulseSeg file (rd32 file 16 + i * 24)

/-- Where the pages of the stack begin. -/
def File.stackBase (file : File) : Nat := wrap (2 ^ 64 + rd64 file 24 - STACK_PAGES * PAGE)

/-- A page that is mapped, and the bytes of its frame. -/
structure Place where
  page : Nat
  flags : PageFlags
  bytes : Nat → UInt8

namespace Piece

/-- W^X: a segment that is executed is not written. -/
def pulseFlags (q : Piece) : PageFlags := if q.prot.testBit 2 then .userCode else .userData

def frames (q : Piece) : Nat := (q.memsz + (PAGE - 1)) / PAGE

/-- The frame at offset `off` of the segment. -/
def place (file : File) (q : Piece) (off : Nat) : Place where
  page := vpn (wrap (q.va + off))
  flags := q.pulseFlags
  bytes x := if off + x % PAGE < q.filesz then file.bytes (q.off + off + x % PAGE) else 0

/-- The checks of a segment. -/
def Refused (q : Piece) (file : File) : Prop :=
  q.va < MIN_VADDR ∨ USER_HI < wrap (q.va + q.memsz) ∨ file.size < q.off + q.filesz ∨
    q.memsz < q.filesz

instance (q : Piece) (file : File) : Decidable (q.Refused file) :=
  inferInstanceAs (Decidable (q.va < MIN_VADDR ∨ USER_HI < wrap (q.va + q.memsz) ∨
    file.size < q.off + q.filesz ∨ q.memsz < q.filesz))

end Piece

/-- The page of the stack at `va`. -/
def stackPlace (va : Nat) : Place := ⟨vpn va, .userData, fun _ => 0⟩

/-- The frame is mapped. -/
def Filling.lay (w : Place) (l : Load) (s : Filling) : Filling :=
  { s with load := l, mem := fun x => if x / PAGE = w.page then w.bytes x else s.mem x }

/-- A sum of header fields that may go over. -/
def Filling.checked (c : Prop) [Decidable c] (s : Filling) : Filling :=
  { s with wrapped := s.wrapped || decide c }

/-- The loop over the frames of a segment. -/
def fillFrames (file : File) (q : Piece) : Nat → Nat → Filling → Bool × Filling
  | _, 0, s => (true, s)
  | off, n + 1, s =>
    match s.load.newPage (wrap (q.va + off)) q.pulseFlags with
    | (true, l) => fillFrames file q (off + PAGE) n (s.lay (q.place file off) l)
    | (false, l) => (false, s.setLoad l)

/-- The loop over the segments. -/
def fillTable (file : File) : List Piece → Filling → Bool × Filling
  | [], s => (true, s)
  | q :: qs, s =>
    let s := s.checked (2 ^ 64 ≤ q.va + q.memsz)
    if q.Refused file then (false, s)
    else
      match fillFrames file q 0 q.frames s with
      | (true, s) => fillTable file qs s
      | (false, s) => (false, s)

/-- A page of the stack is mapped, or not: its frame is lost. -/
def Load.maps (va : Nat) (l : Load) : Bool :=
  match l.fr.allocFrame with
  | (none, _) => false
  | (some f, fr) => (Load.mapAt (vpn va) ⟨f, .userData⟩ { l with fr := fr }).1

/-- The loop over the pages of the stack. -/
def fillStackPages : Nat → Nat → Filling → Bool × Filling
  | _, 0, s => (true, s)
  | va, n + 1, s =>
    match s.load.stackPage va with
    | (true, l) =>
      fillStackPages (wrap (va + PAGE)) n
        (if s.load.maps va then s.lay (stackPlace va) l else s.setLoad l)
    | (false, l) => (false, s.setLoad l)

/-- The segments, and then the stack: whether all was loaded. -/
def fillLoad (file : File) (s : Filling) : Bool × Filling :=
  match fillTable file file.pulseTable s with
  | (true, s) =>
    fillStackPages file.stackBase STACK_PAGES (s.checked (rd64 file 24 < STACK_PAGES * PAGE))
  | (false, s) => (false, s)

/-- The checks of the header. -/
def File.PulseRefused (file : File) : Prop :=
  file.size < 32 ∨ rd32 file 0 ≠ PULSE_MAGIC ∨ rd16 file 4 < 2 ∨ rd64 file 24 = 0 ∨
    archMatches (rd32 file 20) = false ∨ file.size < rd32 file 16 + rd16 file 6 * 24

instance (file : File) : Decidable file.PulseRefused :=
  inferInstanceAs (Decidable (file.size < 32 ∨ rd32 file 0 ≠ PULSE_MAGIC ∨ rd16 file 4 < 2 ∨
    rd64 file 24 = 0 ∨ archMatches (rd32 file 20) = false ∨
    file.size < rd32 file 16 + rd16 file 6 * 24))

/-- `load_pulse(file)`. -/
def fillPulse (file : File) : Filler (Nat × Nat × Nat) :=
  if file.PulseRefused then throw (.errno ENOEXEC)
  else do
    let root ← Prog.zoom Filling.load Filling.setLoad (createSpace ENOEXEC)
    fun s =>
      match fillLoad file s with
      | (true, s) => .ok (root, rd64 file 8, rd64 file 24) s
      | (false, s) => .error (.errno ENOEXEC) (s.setLoad (s.load.freeSpace root))

/-! ### Without the bytes -/

variable {s t : Filling} {l l' : Load} {file : File} {q : Piece} {qs : List Piece}
  {ws : List Place} {off n va p x : Nat}

theorem load_fillFrames (file : File) (q : Piece) (n off : Nat) (s : Filling) :
    pulsePages (fun va => Load.newPage va q.pulseFlags) (wrap (q.va + off)) n s.load =
      ((fillFrames file q off n s).1, (fillFrames file q off n s).2.load) := by
  induction n generalizing off s with
  | zero => rfl
  | succ n ih =>
      have hnext : wrap (wrap (q.va + off) + PAGE) = wrap (q.va + (off + PAGE)) := by
        simp only [wrap, Nat.mod_add_mod, Nat.add_assoc]
      rw [pulsePages, fillFrames, hnext]
      rcases s.load.newPage (wrap (q.va + off)) q.pulseFlags with ⟨- | -, l⟩
      · rfl
      · exact ih _ (s.lay (q.place file off) l)

theorem load_fillTable (file : File) (table : Nat) (is : List Nat) (s : Filling) :
    pulseSegs file table is s.load =
      ((fillTable file (is.map fun i => pulseSeg file (table + i * 24)) s).1,
        (fillTable file (is.map fun i => pulseSeg file (table + i * 24)) s).2.load) := by
  induction is generalizing s with
  | nil => rfl
  | cons i is ih =>
      have hlt : (pulseSeg file (table + i * 24)).va < 2 ^ 64 := leGet_lt ..
      have hpages := load_fillFrames file (pulseSeg file (table + i * 24))
        (pulseSeg file (table + i * 24)).frames 0
        (s.checked (2 ^ 64 ≤ (pulseSeg file (table + i * 24)).va +
          (pulseSeg file (table + i * 24)).memsz))
      rw [wrap, Nat.add_zero, Nat.mod_eq_of_lt hlt] at hpages
      rw [List.map_cons, pulseSegs, fillTable]
      by_cases hbad : (pulseSeg file (table + i * 24)).Refused file
      · rw [if_pos hbad]
        exact if_pos hbad
      · rw [if_neg hbad]
        refine (if_neg hbad).trans ?_
        simp only
        rw [show pulsePages (fun va => Load.newPage va
            (if (rd32 file (table + i * 24 + 20)).testBit 2 then .userCode else .userData))
            (rd64 file (table + i * 24 + 8)) ((rd32 file (table + i * 24 + 16) + (PAGE - 1)) / PAGE)
            s.load = _ from hpages]
        generalize fillFrames file _ 0 _ _ = r
        obtain ⟨- | -, u⟩ := r
        · rfl
        · exact ih u

theorem load_fillStackPages (n va : Nat) (s : Filling) :
    pulsePages Load.stackPage va n s.load =
      ((fillStackPages va n s).1, (fillStackPages va n s).2.load) := by
  induction n generalizing va s with
  | zero => rfl
  | succ n ih =>
      rw [pulsePages, fillStackPages]
      rcases s.load.stackPage va with ⟨- | -, l⟩
      · rfl
      · simp only
        split
        · exact ih _ (s.lay (stackPlace va) l)
        · exact ih _ (s.setLoad l)

theorem load_fillLoad (file : File) (s : Filling) :
    pulseLoad file s.load = ((fillLoad file s).1, (fillLoad file s).2.load) := by
  rw [pulseLoad, fillLoad, load_fillTable, ← File.pulseTable]
  rcases fillTable file file.pulseTable s with ⟨- | -, t⟩
  · rfl
  · exact load_fillStackPages _ _ (t.checked (rd64 file 24 < STACK_PAGES * PAGE))

/-- What `loadPulse` does when the space was made. -/
theorem onFail_pulseLoad {b : Bool} (h : pulseLoad file l = (b, l')) (root : Nat) :
    onFail (Load.freeSpace root) (do
      if ← modifyGet (pulseLoad file) then pure (root, rd64 file 8, rd64 file 24)
      else throw (.errno ENOEXEC)) l =
    if b then EStateM.Result.ok (root, rd64 file 8, rd64 file 24) l'
    else .error (.errno ENOEXEC) (l'.freeSpace root) := by
  have hfst : (pulseLoad file l).1 = b := congrArg Prod.fst h
  have hsnd : (pulseLoad file l).2 = l' := congrArg Prod.snd h
  subst hfst hsnd
  show onFail _ (fun t => (if (pulseLoad file t).1 then pure (root, rd64 file 8, rd64 file 24)
    else throw (.errno ENOEXEC) : Loader _) (pulseLoad file t).2) l = _
  unfold onFail
  beta_reduce
  cases (pulseLoad file l).1 <;> rfl

/-- **The bytes and the sums** change nothing of what is done to the space. -/
theorem erases_fillPulse (file : File) :
    Erases Filling.load (fillPulse file) (loadPulse file) := by
  unfold fillPulse loadPulse
  refine .ite (fun _ => .throw _) fun _ => Erases.bind (fun s => ?_) fun root s => ?_
  · refine (wp_zoom ..).mpr ?_
    rcases hc : createSpace ENOEXEC s.load with ⟨r, l⟩ | ⟨e, l⟩
    · exact (wp_ok hc).mpr rfl
    · exact (wp_error hc).mpr rfl
  · have hload := onFail_pulseLoad (load_fillLoad file s) root
    unfold wp
    beta_reduce
    rcases hfill : fillLoad file s with ⟨- | -, t⟩ <;> rw [hfill] at hload
    · exact hload
    · exact hload

/-! ### What is mapped -/

/-- The pages are those of the list, the latest first, and have its bytes. -/
structure Filled (ws : List Place) (s : Filling) : Prop where
  flags : ∀ p, s.flags p = (ws.find? (·.page = p)).map (·.flags)
  bytes : ∀ x, ∀ w ∈ ws.find? (·.page = x / PAGE), s.mem x = w.bytes x

theorem Filled.lay {w : Place} {f : Nat} (h : Filled ws s)
    (hleaf : l.pt.leaf = s.load.pt.leaf.insert w.page ⟨f, w.flags⟩) :
    Filled (w :: ws) (s.lay w l) where
  flags p := by
    change l.pt.leaf[p]?.map (·.flags) = _
    rw [hleaf, get_insert, List.find?_cons]
    by_cases hp : p = w.page
    · rw [if_pos hp, decide_eq_true hp.symm]
      rfl
    · rw [if_neg hp, decide_eq_false (Ne.symm hp)]
      exact h.flags p
  bytes x v hv := by
    rw [List.find?_cons] at hv
    change (if x / PAGE = w.page then w.bytes x else s.mem x) = _
    by_cases hx : x / PAGE = w.page
    · rw [decide_eq_true hx.symm] at hv
      rw [if_pos hx, Option.some.inj hv]
    · rw [decide_eq_false (Ne.symm hx)] at hv
      rw [if_neg hx]
      exact h.bytes x v hv

theorem Filled.found (h : Filled ws s) (hp : s.flags p ≠ none) :
    ∃ w ∈ ws, w.page = p ∧ ws.find? (·.page = p) = some w := by
  rw [h.flags, ne_eq, Option.map_eq_none_iff] at hp
  obtain ⟨w, hw⟩ := Option.ne_none_iff_exists'.mp hp
  exact ⟨w, List.mem_of_find?_eq_some hw, by simpa using List.find?_some hw, hw⟩

theorem Filled.mapped {w : Place} (h : Filled ws s) (hw : w ∈ ws) : s.flags w.page ≠ none := by
  rw [h.flags, ne_eq, Option.map_eq_none_iff, List.find?_eq_none]
  exact fun hc => hc w hw (decide_eq_true rfl)

theorem Filled.setLoad (h : Filled ws s) (hleaf : l.pt.leaf = s.load.pt.leaf) :
    Filled ws (s.setLoad l) where
  flags p := by
    change l.pt.leaf[p]?.map (·.flags) = _
    rw [hleaf]
    exact h.flags p
  bytes := h.bytes

theorem stackPage_done (va : Nat) (l : Load) :
    ((l.stackPage va).1 = false ∧ (l.stackPage va).2.slips = l.slips) ∨
    ((l.stackPage va).1 = true ∧ l.maps va = false ∧ (l.stackPage va).2.pt.leaf = l.pt.leaf ∧
      (l.stackPage va).2.slips ≠ []) ∨
    ∃ f, (l.stackPage va).1 = true ∧ l.maps va = true ∧
      (l.stackPage va).2.pt.leaf = l.pt.leaf.insert (vpn va) ⟨f, .userData⟩ ∧
      ((l.stackPage va).2.slips = [] ↔ l.slips = [] ∧ ¬ l.Taken (vpn va)) := by
  unfold Load.stackPage Load.maps
  have hlike := l.fr.like_allocFrame
  rcases ha : l.fr.allocFrame with ⟨- | f, fr⟩ <;> rw [ha] at hlike
  · exact .inl ⟨rfl, rfl⟩
  · have hcases := mapAt_cases (vpn va) ⟨f, .userData⟩ { l with fr := fr }
    rw [taken_setFrames hlike] at hcases
    simp only
    rcases hm : Load.mapAt (vpn va) ⟨f, .userData⟩ { l with fr := fr } with ⟨- | -, t⟩ <;>
      rw [hm] at hcases
    · obtain ⟨-, -, hleaf⟩ := hcases.resolve_right fun h => Bool.noConfusion h.1
      exact .inr (.inl ⟨rfl, rfl, hleaf, List.cons_ne_nil _ _⟩)
    · exact .inr (.inr ⟨f, rfl, rfl, (hcases.resolve_left fun h => Bool.noConfusion h.1).2⟩)

/-! ### The segments -/

/-- What the frames of a segment add to the places. -/
def Piece.lays (file : File) (q : Piece) : Nat → Nat → List Place → List Place
  | _, 0, ws => ws
  | off, n + 1, ws => q.lays file (off + PAGE) n (q.place file off :: ws)

/-- The places of the segments, the latest first. -/
def placesOf (file : File) (qs : List Piece) (ws : List Place) : List Place :=
  qs.foldl (fun ws q => q.lays file 0 q.frames ws) ws

/-- No frame is mapped where one is, as far as the loop comes. -/
def BareFrames (q : Piece) : Nat → Nat → Load → Prop
  | _, 0, _ => True
  | off, n + 1, l => (l.newPage (wrap (q.va + off)) q.pulseFlags).1 = true →
    ¬ l.Taken (vpn (wrap (q.va + off))) ∧
      BareFrames q (off + PAGE) n (l.newPage (wrap (q.va + off)) q.pulseFlags).2

/-- What is left of the loop over frames. -/
structure FramesDone (file : File) (q : Piece) (off n : Nat) (s : Filling) (r : Bool × Filling) :
    Prop where
  wrapped : r.2.wrapped = s.wrapped
  slips : r.2.load.slips = [] ↔ s.load.slips = [] ∧ BareFrames q off n s.load
  filled : ∀ ws, r.1 = true → Filled ws s → Filled (q.lays file off n ws) r.2

theorem fillFrames_done : ∀ {n off : Nat} {s : Filling},
    FramesDone file q off n s (fillFrames file q off n s) := by
  intro n
  induction n with
  | zero => exact fun {off s} => ⟨rfl, (and_iff_left trivial).symm, fun ws _ h => h⟩
  | succ n ih =>
      intro off s
      have hpage := newPage_done (wrap (q.va + off)) q.pulseFlags s.load
      rw [fillFrames]
      have hbare : BareFrames q off (n + 1) s.load ↔
          ((s.load.newPage (wrap (q.va + off)) q.pulseFlags).1 = true →
            ¬ s.load.Taken (vpn (wrap (q.va + off))) ∧ BareFrames q (off + PAGE) n
              (s.load.newPage (wrap (q.va + off)) q.pulseFlags).2) := Iff.rfl
      rcases hn : s.load.newPage (wrap (q.va + off)) q.pulseFlags with ⟨- | -, l⟩ <;>
        rw [hn] at hpage hbare
      · obtain ⟨-, hslips, -⟩ := hpage.resolve_right fun ⟨_, h, _⟩ => Bool.false_ne_true h
        refine ⟨rfl, ?_, fun ws hc => absurd hc Bool.false_ne_true⟩
        change l.slips = [] ↔ _
        rw [show l.slips = s.load.slips from hslips, hbare]
        exact (and_iff_left fun hc => absurd hc Bool.false_ne_true).symm
      · obtain ⟨f, -, hleaf, hslips⟩ := hpage.resolve_left fun h => Bool.noConfusion h.1
        have hrest := @ih (off + PAGE) (s.lay (q.place file off) l)
        refine ⟨hrest.wrapped, ?_, fun ws hok h => hrest.filled _ hok (h.lay hleaf)⟩
        rw [hbare, forall_prop_of_true rfl, ← and_assoc]
        exact hrest.slips.trans (and_congr_left fun _ => hslips)

/-- The pages of a segment. -/
def Piece.load (q : Piece) (l : Load) : Bool × Load :=
  pulsePages (fun va => Load.newPage va q.pulseFlags) (wrap q.va) q.frames l

/-- No frame is mapped where one is, as far as the segments are loaded. -/
def BareTable (file : File) : List Piece → Load → Prop
  | [], _ => True
  | q :: qs, l => ¬ q.Refused file → BareFrames q 0 q.frames l ∧
    ((q.load l).1 = true → BareTable file qs (q.load l).2)

/-- What is left of the loop over segments. -/
structure TableDone (file : File) (qs : List Piece) (s : Filling) (r : Bool × Filling) :
    Prop where
  wrapped : r.1 = true → (r.2.wrapped = false ↔ s.wrapped = false ∧
    ∀ q ∈ qs, q.va + q.memsz < 2 ^ 64)
  slips : r.2.load.slips = [] ↔ s.load.slips = [] ∧ BareTable file qs s.load
  filled : ∀ ws, r.1 = true → Filled ws s → Filled (placesOf file qs ws) r.2
  good : r.1 = true → ∀ q ∈ qs, ¬ q.Refused file

theorem fillTable_done : ∀ {s : Filling}, TableDone file qs s (fillTable file qs s) := by
  induction qs with
  | nil =>
      exact fun {s} => ⟨fun _ => (and_iff_left fun _ hq => absurd hq List.not_mem_nil).symm,
        (and_iff_left trivial).symm, fun _ _ h => h, fun _ _ hq => absurd hq List.not_mem_nil⟩
  | cons q qs ih =>
      intro s
      have hframes := @fillFrames_done file q q.frames 0 (s.checked (2 ^ 64 ≤ q.va + q.memsz))
      have hsum : (s.checked (2 ^ 64 ≤ q.va + q.memsz)).wrapped = false ↔
          s.wrapped = false ∧ q.va + q.memsz < 2 ^ 64 := by
        simp [Filling.checked]
      rw [fillTable]
      by_cases hbad : q.Refused file
      · rw [if_pos hbad]
        exact ⟨fun hc => absurd hc Bool.false_ne_true,
          (and_iff_left fun hc => absurd hbad hc).symm, fun _ hc => absurd hc Bool.false_ne_true,
          fun hc => absurd hc Bool.false_ne_true⟩
      · rw [if_neg hbad]
        have hload : q.load s.load = _ :=
          load_fillFrames file q q.frames 0 (s.checked (2 ^ 64 ≤ q.va + q.memsz))
        have hbare : BareTable file (q :: qs) s.load ↔ BareFrames q 0 q.frames s.load ∧
            ((q.load s.load).1 = true → BareTable file qs (q.load s.load).2) :=
          forall_prop_of_true hbad
        rw [hload] at hbare
        rcases hr : fillFrames file q 0 q.frames (s.checked (2 ^ 64 ≤ q.va + q.memsz)) with
          ⟨- | -, t⟩ <;> rw [hr] at hframes hbare
        · refine ⟨fun hc => absurd hc Bool.false_ne_true, ?_,
            fun _ hc => absurd hc Bool.false_ne_true, fun hc => absurd hc Bool.false_ne_true⟩
          rw [hbare, and_iff_left fun hc => absurd hc Bool.false_ne_true]
          exact hframes.slips
        · have hrest := @ih t
          refine ⟨fun hok => ?_, ?_, fun ws hok h => ?_, fun hok q' hq' => ?_⟩
          · rw [List.forall_mem_cons, ← and_assoc, ← hsum, ← hframes.wrapped]
            exact hrest.wrapped hok
          · rw [hbare, forall_prop_of_true rfl, ← and_assoc]
            exact hrest.slips.trans (and_congr_left fun _ => hframes.slips)
          · exact hrest.filled _ hok (hframes.filled ws rfl ⟨h.flags, h.bytes⟩)
          · obtain rfl | hq' := List.mem_cons.mp hq'
            · exact hbad
            · exact hrest.good hok q' hq'

/-! ### The stack -/

/-- The places of the stack that get a table, the latest first. -/
def stackPlaces : Nat → Nat → Load → List Place
  | _, 0, _ => []
  | va, n + 1, l => stackPlaces (wrap (va + PAGE)) n (l.stackPage va).2 ++
    if l.maps va then [stackPlace va] else []

/-- No frame of the stack is mapped where one is, or nowhere, as far as the loop comes. -/
def BareStack : Nat → Nat → Load → Prop
  | _, 0, _ => True
  | va, n + 1, l => (l.stackPage va).1 = true →
    (l.maps va = true ∧ ¬ l.Taken (vpn va)) ∧ BareStack (wrap (va + PAGE)) n (l.stackPage va).2

/-- What is left of the loop over the pages of the stack. -/
structure StackDone (va n : Nat) (s : Filling) (r : Bool × Filling) : Prop where
  wrapped : r.2.wrapped = s.wrapped
  slips : r.2.load.slips = [] ↔ s.load.slips = [] ∧ BareStack va n s.load
  filled : ∀ ws, r.1 = true → Filled ws s → Filled (stackPlaces va n s.load ++ ws) r.2

theorem fillStackPages_done : ∀ {n va : Nat} {s : Filling},
    StackDone va n s (fillStackPages va n s) := by
  intro n
  induction n with
  | zero => exact fun {va s} => ⟨rfl, (and_iff_left trivial).symm, fun ws _ h => h⟩
  | succ n ih =>
      intro va s
      have hpage := stackPage_done va s.load
      have hbare : BareStack va (n + 1) s.load ↔ ((s.load.stackPage va).1 = true →
          (s.load.maps va = true ∧ ¬ s.load.Taken (vpn va)) ∧
            BareStack (wrap (va + PAGE)) n (s.load.stackPage va).2) := Iff.rfl
      have hplaces : stackPlaces va (n + 1) s.load =
          stackPlaces (wrap (va + PAGE)) n (s.load.stackPage va).2 ++
            if s.load.maps va then [stackPlace va] else [] := rfl
      rw [fillStackPages]
      rcases hn : s.load.stackPage va with ⟨- | -, l⟩ <;> rw [hn] at hpage hbare hplaces
      · obtain ⟨-, hslips⟩ | ⟨hno, -⟩ | ⟨_, hno, -⟩ := hpage
        · refine ⟨rfl, ?_, fun ws hc => absurd hc Bool.false_ne_true⟩
          rw [hbare, and_iff_left fun hc => absurd hc Bool.false_ne_true]
          exact (congrArg (· = []) hslips).to_iff
        · exact absurd hno Bool.false_ne_true
        · exact absurd hno Bool.false_ne_true
      · obtain ⟨hno, -⟩ | ⟨-, hmaps, hleaf, hslips⟩ | ⟨f, -, hmaps, hleaf, hslips⟩ := hpage
        · exact absurd hno.symm Bool.false_ne_true
        · have hrest := @ih (wrap (va + PAGE)) (s.setLoad l)
          simp only
          rw [hmaps] at hbare hplaces ⊢
          refine ⟨hrest.wrapped, ?_, fun ws hok h => ?_⟩
          · rw [hbare]
            exact iff_of_false (fun hc => hslips (hrest.slips.mp hc).1)
              fun hc => Bool.false_ne_true (hc.2 rfl).1.1
          · rw [hplaces, if_neg Bool.false_ne_true, List.append_nil]
            exact hrest.filled ws hok (h.setLoad hleaf)
        · have hrest := @ih (wrap (va + PAGE)) (s.lay (stackPlace va) l)
          simp only
          rw [hmaps] at hbare hplaces ⊢
          refine ⟨hrest.wrapped, ?_, fun ws hok h => ?_⟩
          · rw [hbare, forall_prop_of_true rfl, and_iff_right rfl, ← and_assoc]
            exact hrest.slips.trans (and_congr_left fun _ => hslips)
          · rw [hplaces, if_pos rfl, List.append_assoc]
            exact hrest.filled _ hok (h.lay hleaf)

/-! ### A load -/

variable {N L : Multiset Nat} {fr₀ : Frames}

/-- The byte of a segment at an address of it. -/
def Piece.fileByte (q : Piece) (file : File) (x : Nat) : UInt8 :=
  if q.Data x then q.byte file x else 0

/-- What the loop over segments has mapped before the stack. -/
def File.pulseTables (file : File) (l : Load) : Load :=
  (pulseSegs file (rd32 file 16) (List.range (rd16 file 6)) l).2

/-- The places of an image that was loaded, the latest first. -/
def File.places (file : File) (l : Load) : List Place :=
  stackPlaces file.stackBase STACK_PAGES (file.pulseTables l) ++ placesOf file file.pulseTable []

/-- **An image that is accepted** is in the range for programs, each page is written or executed,
the segments are at their addresses with zeros behind their data, and no sum went over; one that is
refused leaves no frame. -/
def PulseContained (N L : Multiset Nat) (file : File) (s : Filling) : Prop :=
  wp (fillPulse file)
    (fun _ t => t.wrapped = false ∧
      (∀ p, t.flags p ≠ none → MIN_VADDR ≤ p * PAGE ∧ p * PAGE < USER_HI) ∧
      (∀ p, ∀ f ∈ t.flags p, f.ro = true ∨ f.exec = false) ∧
      ∀ q ∈ file.pulseTable, ∀ x, q.va ≤ x → x < q.va + q.memsz →
        t.flags (x / PAGE) ≠ none ∧ t.mem x = q.fileByte file x)
    (fun _ t => Accounted N L t.load.fr) s

/-- No sum goes over, the pages of the stack are in the range for programs, and where a segment has
a byte, the place of it that was mapped last has the same. -/
structure File.PulseFits (file : File) (l : Load) : Prop where
  sums : ∀ q ∈ file.pulseTable, q.va + q.memsz < 2 ^ 64
  stack : STACK_PAGES * PAGE ≤ rd64 file 24
  range : ∀ w ∈ stackPlaces file.stackBase STACK_PAGES (file.pulseTables l),
    MIN_VADDR ≤ w.page * PAGE ∧ w.page * PAGE < USER_HI
  agree : ∀ q ∈ file.pulseTable, ∀ x, q.va ≤ x → x < q.va + q.memsz →
    ∃ w ∈ (file.places l).find? (·.page = x / PAGE), w.bytes x = q.fileByte file x

/-- No frame is mapped where one is, or nowhere, as far as the load comes. -/
def File.PulseBare (file : File) (l : Load) : Prop :=
  BareTable file file.pulseTable l ∧
    ((pulseSegs file (rd32 file 16) (List.range (rd16 file 6)) l).1 = true →
      BareStack file.stackBase STACK_PAGES (file.pulseTables l))

/-- What is asked of a file, and of the space that is made for it. -/
def File.PulseSound (file : File) (l : Load) : Prop :=
  ¬ file.PulseRefused → wp (createSpace ENOEXEC)
    (fun _ l => ((pulseLoad file l).1 = true → file.PulseFits l) ∧
      ((pulseLoad file l).1 = false → file.PulseBare l))
    (fun _ _ => shortFrames l.fr = []) l

theorem lays_place {w : Place} : ∀ {n off : Nat} {ws : List Place}, w ∈ q.lays file off n ws →
    w ∈ ws ∨ ∃ k < n, w = q.place file (off + k * PAGE) := by
  intro n
  induction n with
  | zero => exact fun h => .inl h
  | succ n ih =>
      intro off ws h
      obtain h | ⟨k, hk, rfl⟩ := ih h
      · obtain rfl | h := List.mem_cons.mp h
        · exact .inr ⟨0, n.succ_pos, by rw [Nat.zero_mul, Nat.add_zero]⟩
        · exact .inl h
      · refine .inr ⟨k + 1, Nat.succ_lt_succ hk, ?_⟩
        rw [Nat.succ_mul, Nat.add_assoc, Nat.add_comm PAGE]

theorem placesOf_place {w : Place} : ∀ {qs : List Piece} {ws : List Place},
    w ∈ placesOf file qs ws → w ∈ ws ∨ ∃ q ∈ qs, ∃ k < q.frames, w = q.place file (k * PAGE) := by
  intro qs
  induction qs with
  | nil => exact fun h => .inl h
  | cons q qs ih =>
      intro ws h
      obtain h | ⟨q', hq', k, hk, rfl⟩ := ih h
      · obtain h | ⟨k, hk, rfl⟩ := lays_place h
        · exact .inl h
        · exact .inr ⟨q, List.mem_cons_self, k, hk, by rw [Nat.zero_add]⟩
      · exact .inr ⟨q', List.mem_cons_of_mem q hq', k, hk, rfl⟩

theorem Piece.place_range (hsum : q.va + q.memsz < 2 ^ 64) (hgood : ¬ q.Refused file)
    (hk : n < q.frames) : MIN_VADDR ≤ (q.place file (n * PAGE)).page * PAGE ∧
      (q.place file (n * PAGE)).page * PAGE < USER_HI := by
  simp only [Piece.Refused, not_or, not_lt, wrap, Nat.mod_eq_of_lt hsum] at hgood
  obtain ⟨hlo, hhi, -⟩ := hgood
  simp only [Piece.frames, PAGE] at hk
  simp only [Piece.place, vpn, wrap, PAGE, MIN_VADDR, USER_HI] at *
  omega

theorem stackPlaces_flags {w : Place} : ∀ {n va : Nat} {l : Load}, w ∈ stackPlaces va n l →
    w.flags = .userData := by
  intro n
  induction n with
  | zero => exact fun h => absurd h List.not_mem_nil
  | succ n ih =>
      intro va l h
      obtain h | h := List.mem_append.mp h
      · exact ih h
      · split_ifs at h
        · exact congrArg Place.flags (List.mem_singleton.mp h)
        · exact absurd h List.not_mem_nil

theorem place_flags {w : Place} (hw : w ∈ file.places l) :
    w.flags.ro = true ∨ w.flags.exec = false := by
  obtain hw | hw := List.mem_append.mp hw
  · rw [stackPlaces_flags hw]
    exact .inr rfl
  · obtain hw | ⟨q, -, k, -, rfl⟩ := placesOf_place hw
    · exact absurd hw List.not_mem_nil
    · change q.pulseFlags.ro = true ∨ q.pulseFlags.exec = false
      unfold Piece.pulseFlags
      split_ifs
      · exact .inl rfl
      · exact .inr rfl

theorem createSpace_bare (e : Nat) (l : Load) : wp (createSpace e)
    (fun _ t => (∀ p : Nat, t.pt.leaf[p]? = none) ∧ t.slips = l.slips)
    (fun _ t => t.slips = (shortFrames l.fr).map (fun f => (Slip.short, f)) ++ l.slips) l := by
  have hbare : ∀ {root : Nat} {pt : Pt}, (createUserSpace l.fr).1 = some (root, pt) →
      pt.leaf = ∅ := by
    intro root pt h
    unfold createUserSpace at h
    split at h
    · cases h
    · split at h
      · cases h
      · split at h
        · cases h
        · obtain ⟨-, rfl⟩ := Prod.mk.inj (Option.some.inj h)
          rfl
  rcases hc : createUserSpace l.fr with ⟨- | ⟨root, pt⟩, fr⟩
  · have hrun : createSpace e l = .error (.errno e) { l with
        fr := fr, slips := (shortFrames l.fr).map (fun f => (Slip.short, f)) ++ l.slips } := by
      rw [createSpace, hc]
    exact (wp_error hrun).mpr rfl
  · have hrun : createSpace e l = .ok root { l with pt := pt, fr := fr } := by
      rw [createSpace, hc]
    refine (wp_ok hrun).mpr ⟨fun p => ?_, rfl⟩
    change pt.leaf[p]? = none
    rw [hbare (by rw [hc])]
    exact Std.ExtTreeMap.getElem?_empty

theorem fillTable_load (file : File) (s : Filling) :
    pulseSegs file (rd32 file 16) (List.range (rd16 file 6)) s.load =
      ((fillTable file file.pulseTable s).1, (fillTable file file.pulseTable s).2.load) :=
  load_fillTable file (rd32 file 16) (List.range (rd16 file 6)) s

theorem fillLoad_true (hr : fillLoad file s = (true, t))
    (hs : ∀ p : Nat, s.load.pt.leaf[p]? = none) :
    (t.wrapped = false ↔ (s.wrapped = false ∧ ∀ q ∈ file.pulseTable, q.va + q.memsz < 2 ^ 64) ∧
      STACK_PAGES * PAGE ≤ rd64 file 24) ∧
    Filled (file.places s.load) t ∧ ∀ q ∈ file.pulseTable, ¬ q.Refused file := by
  have htable := @fillTable_done file file.pulseTable s
  have hload := fillTable_load file s
  rw [fillLoad] at hr
  rcases hu : fillTable file file.pulseTable s with ⟨- | -, u⟩ <;> rw [hu] at htable hload hr
  · exact absurd (congrArg Prod.fst hr) Bool.false_ne_true
  · have hstack := @fillStackPages_done STACK_PAGES file.stackBase
      (u.checked (rd64 file 24 < STACK_PAGES * PAGE))
    have hr' : fillStackPages file.stackBase STACK_PAGES
        (u.checked (rd64 file 24 < STACK_PAGES * PAGE)) = (true, t) := hr
    rw [hr'] at hstack
    have hempty : Filled [] s := ⟨fun p => congrArg (Option.map _) (hs p),
      fun x w hw => absurd hw (Option.not_mem_none w)⟩
    have hmid := htable.filled [] rfl hempty
    refine ⟨?_, ?_, htable.good rfl⟩
    · rw [← htable.wrapped rfl, hstack.wrapped, Filling.checked, Bool.or_eq_false_iff,
        decide_eq_false_iff_not, not_lt]
    · have hall := hstack.filled _ rfl ⟨hmid.flags, hmid.bytes⟩
      rw [File.places, File.pulseTables, hload]
      exact hall

theorem fillLoad_slips (file : File) (s : Filling) :
    (fillLoad file s).2.load.slips = [] ↔ s.load.slips = [] ∧ file.PulseBare s.load := by
  have htable := @fillTable_done file file.pulseTable s
  have hload := fillTable_load file s
  rw [fillLoad, File.PulseBare, File.pulseTables, hload]
  rcases hu : fillTable file file.pulseTable s with ⟨- | -, u⟩ <;> rw [hu] at htable
  · rw [and_iff_left fun hc => absurd hc Bool.false_ne_true]
    exact htable.slips
  · have hstack := @fillStackPages_done STACK_PAGES file.stackBase
      (u.checked (rd64 file 24 < STACK_PAGES * PAGE))
    rw [forall_prop_of_true rfl, ← and_assoc]
    exact hstack.slips.trans (and_congr_left fun _ => htable.slips)

theorem accepted_iff (hover : s.wrapped = false) (hs : ∀ p : Nat, s.load.pt.leaf[p]? = none)
    (hr : fillLoad file s = (true, t)) :
    (t.wrapped = false ∧
      (∀ p, t.flags p ≠ none → MIN_VADDR ≤ p * PAGE ∧ p * PAGE < USER_HI) ∧
      (∀ p, ∀ f ∈ t.flags p, f.ro = true ∨ f.exec = false) ∧
      ∀ q ∈ file.pulseTable, ∀ x, q.va ≤ x → x < q.va + q.memsz →
        t.flags (x / PAGE) ≠ none ∧ t.mem x = q.fileByte file x) ↔ file.PulseFits s.load := by
  obtain ⟨hsums, hfilled, hgood⟩ := fillLoad_true hr hs
  rw [and_iff_right hover] at hsums
  refine ⟨fun ⟨hw, hrange, _, hbytes⟩ => ?_, fun h => ⟨hsums.mpr ⟨h.sums, h.stack⟩, ?_, ?_, ?_⟩⟩
  · obtain ⟨hfit, hstack⟩ := hsums.mp hw
    refine ⟨hfit, hstack, fun w hw => hrange _ (hfilled.mapped (List.mem_append_left _ hw)), ?_⟩
    intro q hq x hlo hhi
    obtain ⟨hp, hmem⟩ := hbytes q hq x hlo hhi
    obtain ⟨w, -, -, hfind⟩ := hfilled.found hp
    exact ⟨w, hfind, (hfilled.bytes x w hfind).symm.trans hmem⟩
  · intro p hp
    obtain ⟨w, hw, rfl, -⟩ := hfilled.found hp
    obtain hw | hw := List.mem_append.mp hw
    · exact h.range w hw
    · obtain hw | ⟨q, hq, k, hk, rfl⟩ := placesOf_place hw
      · exact absurd hw List.not_mem_nil
      · exact Piece.place_range (h.sums q hq) (hgood q hq) hk
  · intro p f hf
    obtain ⟨w, hw, -, hfind⟩ := hfilled.found fun hc => Option.not_mem_none f (hc ▸ hf)
    have hw' := hfilled.flags p
    rw [hfind, Option.map_some, Option.mem_def.mp hf] at hw'
    exact Option.some.inj hw' ▸ place_flags hw
  · intro q hq x hlo hhi
    obtain ⟨w, hfind, hbyte⟩ := h.agree q hq x hlo hhi
    refine ⟨?_, (hfilled.bytes x w hfind).trans hbyte⟩
    rw [hfilled.flags, Option.mem_def.mp hfind]
    exact Option.some_ne_none _

/-- **A load is contained** exactly if the file is sound. -/
theorem fillPulse_contained (hover : s.wrapped = false) (hslips : s.load.slips = [])
    (hl : Dropped N L fr₀ s.load) : PulseContained N L file s ↔ file.PulseSound s.load := by
  unfold PulseContained fillPulse File.PulseSound
  by_cases hacc : file.PulseRefused
  · rw [if_pos hacc]
    exact iff_of_true (hl.leaves_all.mpr hslips) fun hc => absurd hacc hc
  · rw [if_neg hacc, forall_prop_of_true hacc]
    refine (wp_bind _ _).trans ((wp_zoom ..).trans ?_)
    have hmade := createSpace_loading ENOEXEC hl.1 hl.2
    have hbare := createSpace_bare ENOEXEC s.load
    rcases hc : createSpace ENOEXEC s.load with ⟨root, l⟩ | ⟨e, l⟩
    · refine (wp_ok hc).trans (Iff.trans ?_ (wp_ok hc).symm)
      obtain ⟨hleaf, hsame⟩ := hbare.ok hc
      have hload := load_fillLoad file (s.setLoad l)
      change pulseLoad file l = _ at hload
      have hkept := (hmade.ok hc).pulseLoad file
      have hlost := fillLoad_slips file (s.setLoad l)
      rcases hr : fillLoad file (s.setLoad l) with ⟨- | -, t⟩ <;> rw [hr] at hload hlost <;>
        simp only [wp, hr]
      · rw [hload] at hkept
        rw [hload, and_iff_right fun hc => absurd hc Bool.false_ne_true, forall_prop_of_true rfl]
        refine (Dropped.leaves_all ⟨hkept.freeSpace, rfl⟩).trans (hlost.trans ?_)
        exact and_iff_right (hsame.trans hslips)
      · rw [hload]
        refine (accepted_iff (s := s.setLoad l) hover hleaf hr).trans ?_
        exact ⟨fun h => ⟨fun _ => h, fun hc => absurd hc.symm Bool.false_ne_true⟩,
          fun h => h.1 rfl⟩
    · refine (wp_error hc).trans (Iff.trans ?_ (wp_error hc).symm)
      refine (Dropped.leaves_all (hmade.error hc)).trans ?_
      rw [hbare.error hc, hslips, List.append_nil, List.map_eq_nil_iff]

theorem fillPulse_accounted (hl : Dropped N L fr₀ s.load) {e : Fail}
    (h : fillPulse file s = .error e t) : Accounted N L t.load.fr ↔ t.load.slips = [] :=
  ((loadPulse_loading file hl).error ((erases_fillPulse file).error h)).leaves_all

/-- The header of an image with a stack at `0x400000` and its table at 32. -/
def pulseHeader : List (Nat × UInt8) :=
  [(0, 0x50), (1, 0x55), (2, 0x4c), (3, 0x53), (4, 2), (16, 32), (20, 1), (26, 0x40)]

/-- Two segments at `0x100000`. -/
def twoSegments : File := fileOf 80 (pulseHeader ++
  [(6, 2), (36, 16), (42, 0x10), (48, 16), (60, 16), (66, 0x10), (72, 16)])

def someFrames : Filling := ⟨⟨.empty, .boot 16 fun _ => false, []⟩, fun _ => 0, false⟩

theorem dropped_someFrames : Dropped 0 0 (.boot 16 fun _ => false) someFrames.load :=
  ⟨.start (.boot 16 fun _ => false), rfl⟩

theorem fillPulse_contained_two :
    PulseContained 0 0 twoSegments someFrames ↔ twoSegments.PulseSound someFrames.load :=
  fillPulse_contained rfl rfl dropped_someFrames

/-- **A frame is lost**: the second segment is mapped over the first, and the frames do not last for
the stack. -/
theorem fillPulse_covers :
    wp (fillPulse twoSegments) (fun _ _ => False)
      (fun e t => e = .errno ENOEXEC ∧ t.load.slips.map (·.1) = [.covered]) someFrames ∧
    ¬ PulseContained 0 0 twoSegments someFrames := by
  have hrun : wp (fillPulse twoSegments) (fun _ _ => False)
      (fun e t => e = .errno ENOEXEC ∧ t.load.slips.map (·.1) = [.covered]) someFrames := by
    decide +kernel
  refine ⟨hrun, fun hc => ?_⟩
  rcases hr : fillPulse twoSegments someFrames with ⟨a, t⟩ | ⟨e, t⟩
  · exact (wp_ok hr).mp hrun
  · have hnone := (fillPulse_accounted dropped_someFrames hr).mp ((wp_error hr).mp hc)
    have hslips := ((wp_error hr).mp hrun).2
    rw [hnone] at hslips
    exact List.cons_ne_nil _ _ hslips.symm

end Pulsar.Vm

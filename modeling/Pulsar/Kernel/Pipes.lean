import Pulsar.Kernel.Traffic

/-!
# What passes through a pipe (`file.rs`)

Processes read and write a pipe, copy and close its descriptors, in any order, while the rest of
the kernel goes on (`pipeStep`).  `PipeNote` is a note of what was written and what was read.

* `drain_eq`, `fill_eq`: the loops that copy in pieces, round the end of the ring.
* `pipe_in_order`: the bytes that were read are the first of those that were written, and what each
  read and write answers.
-/

namespace Pulsar.Kernel

open Runs

variable {V : Type} {k k' : K V} {i : Nat}

/-! ### The loops of the copies -/

/-- The loop of `pipe_read`: `dst` after the bytes from `done` to `n` were copied. -/
def drain (ring : Nat → UInt8) (head n : Nat) (dst : Nat → UInt8) (done : Nat) : Nat → UInt8 :=
  if done < n then
    let at' := (head + done) % PIPE_CAP
    let chunk := min (n - done) (PIPE_CAP - at')
    drain ring head n (blit dst done chunk fun j => ring (at' + j)) (done + chunk)
  else dst
termination_by n - done
decreasing_by
  have := Nat.mod_lt (head + done) (show 0 < PIPE_CAP by decide)
  omega

/-- The loop of `pipe_write`: the ring after the bytes from `done` to `n` were copied. -/
def fill (ring : Nat → UInt8) (start n : Nat) (src : Nat → UInt8) (done : Nat) : Nat → UInt8 :=
  if done < n then
    let at' := (start + done) % PIPE_CAP
    let chunk := min (n - done) (PIPE_CAP - at')
    fill (blit ring at' chunk fun j => src (done + j)) start n src (done + chunk)
  else ring
termination_by n - done
decreasing_by
  have := Nat.mod_lt (start + done) (show 0 < PIPE_CAP by decide)
  omega

theorem cell_add {cap a j : Nat} (h : a % cap + j < cap) : (a + j) % cap = a % cap + j := by
  rw [Nat.add_mod, Nat.mod_eq_of_lt (a := j) (by omega), Nat.mod_eq_of_lt h]

theorem drain_at (ring : Nat → UInt8) (head n : Nat) (dst : Nat → UInt8) (done x : Nat) :
    drain ring head n dst done x =
      if done ≤ x ∧ x < n then ring ((head + x) % PIPE_CAP) else dst x := by
  fun_induction drain ring head n dst done with
  | case1 dst done hlt at' chunk ih =>
      have hat : at' < PIPE_CAP := Nat.mod_lt _ (by decide)
      have hchunk : 0 < chunk ∧ done + chunk ≤ n ∧ at' + chunk ≤ PIPE_CAP := by omega
      rw [ih]
      by_cases hx : done ≤ x ∧ x < done + chunk
      · obtain ⟨j, rfl⟩ := Nat.exists_eq_add_of_le hx.1
        have hcell : (head + (done + j)) % PIPE_CAP = at' + j := by
          rw [← Nat.add_assoc]
          exact cell_add (by omega)
        rw [if_neg (by omega), blit_inside (by omega), if_pos (by omega), hcell]
      · rw [blit_outside (by omega)]
        by_cases hin : done + chunk ≤ x ∧ x < n
        · rw [if_pos hin, if_pos (by omega)]
        · rw [if_neg hin, if_neg (by omega)]
  | case2 dst done hge => rw [if_neg (by omega)]

/-- **The copies of a read** are what the ring holds from the head on. -/
theorem drain_eq (ring : Nat → UInt8) (head n : Nat) (dst : Nat → UInt8) :
    drain ring head n dst 0 = blit dst 0 n (ringGet ring PIPE_CAP head n) := by
  funext x
  rw [drain_at, blit]
  simp only [Nat.zero_le, true_and, Nat.zero_add, Nat.sub_zero]
  split
  next h => rw [ringGet, if_pos h]
  next => rfl

theorem fill_at {start n j : Nat} (hn : n ≤ PIPE_CAP) (hj : j < PIPE_CAP) (ring src : Nat → UInt8)
    (done : Nat) : fill ring start n src done ((start + j) % PIPE_CAP) =
      if done ≤ j ∧ j < n then src j else ring ((start + j) % PIPE_CAP) := by
  fun_induction fill ring start n src done with
  | case1 ring done hlt at' chunk ih =>
      have hat : at' < PIPE_CAP := Nat.mod_lt _ (by decide)
      have hchunk : 0 < chunk ∧ done + chunk ≤ n ∧ at' + chunk ≤ PIPE_CAP := by omega
      rw [ih]
      by_cases hx : done ≤ j ∧ j < done + chunk
      · obtain ⟨t, rfl⟩ := Nat.exists_eq_add_of_le hx.1
        have hcell : (start + (done + t)) % PIPE_CAP = at' + t := by
          rw [← Nat.add_assoc]
          exact cell_add (by omega)
        rw [if_neg (by omega), hcell, blit_inside (by omega), if_pos (by omega)]
      · have hout : (start + j) % PIPE_CAP < at' ∨ at' + chunk ≤ (start + j) % PIPE_CAP := by
          by_contra hin
          obtain ⟨t, ht⟩ := Nat.exists_eq_add_of_le (show at' ≤ (start + j) % PIPE_CAP by omega)
          have hcell : (start + (done + t)) % PIPE_CAP = at' + t := by
            rw [← Nat.add_assoc]
            exact cell_add (by omega)
          have heq := ht.trans hcell.symm
          rcases Nat.lt_trichotomy j (done + t) with h | h | h
          · exact Ring.cell_ne h (by omega) heq
          · omega
          · exact Ring.cell_ne h (by omega) heq.symm
        rw [blit_outside hout]
        by_cases hin : done + chunk ≤ j ∧ j < n
        · rw [if_pos hin, if_pos (by omega)]
        · rw [if_neg hin, if_neg (by omega)]
  | case2 ring done hge => rw [if_neg (by omega)]

theorem fill_outside {start n x : Nat} (hx : PIPE_CAP ≤ x) (ring src : Nat → UInt8) (done : Nat) :
    fill ring start n src done x = ring x := by
  fun_induction fill ring start n src done with
  | case1 ring done hlt at' chunk ih =>
      have hat : at' < PIPE_CAP := Nat.mod_lt _ (by decide)
      rw [ih, blit_outside (by omega)]
  | case2 => rfl

/-- **The copies of a write** put its bytes one after the other, round the end of the ring. -/
theorem fill_eq {start n : Nat} (hn : n ≤ PIPE_CAP) (ring src : Nat → UInt8) :
    fill ring start n src 0 = ringPut ring PIPE_CAP start n src := by
  funext x
  by_cases hx : x < PIPE_CAP
  · obtain ⟨j, hj, rfl⟩ : ∃ j < PIPE_CAP, x = (start + j) % PIPE_CAP := by
      have hs := Nat.mod_lt start (show 0 < PIPE_CAP by decide)
      refine ⟨(x + PIPE_CAP - start % PIPE_CAP) % PIPE_CAP, Nat.mod_lt _ (by decide), ?_⟩
      rw [Nat.add_mod_mod, ← Nat.mod_add_mod,
        show start % PIPE_CAP + (x + PIPE_CAP - start % PIPE_CAP) = x + PIPE_CAP by omega,
        Nat.add_mod_right, Nat.mod_eq_of_lt hx]
    rw [fill_at hn hj, ringPut_at hj]
    simp only [Nat.zero_le, true_and]
  · rw [fill_outside (Nat.le_of_not_lt hx)]
    simp [ringPut, hx]

/-! ### Acts -/

/-- What the holders of descriptors do with a pipe, and what goes on beside it.  A descriptor is of
the reading side or of the writing side (`r`). -/
inductive PipeAct (V : Type) where
  | read (flags : UInt32) (len : Nat)
  | write (flags : UInt32) (src : Nat → UInt8) (len : Nat)
  | addRef (r : Bool)
  | dropRef (r : Bool)
  | other (f : K V → K V)

/-- A descriptor of a side of a pipe. -/
def pipeSide (i : Nat) (r : Bool) : OpenFile := openOn (if r then .pipeR else .pipeW) i 0 false

def Pipe.refs (p : Pipe) (r : Bool) : Nat := if r then p.readers else p.writers

/-- The side whose descriptor an act goes through. -/
def PipeAct.side : PipeAct V → Option Bool
  | .read .. => some true
  | .write .. => some false
  | .addRef r | .dropRef r => some r
  | .other _ => none

def PipeAct.after (i : Nat) (k : K V) : PipeAct V → K V
  | .read flags len => (pipeRead flags i len).after k
  | .write flags src len => (pipeWrite flags i src len).after k
  | .addRef r => Kernel.addRef (pipeSide i r) k
  | .dropRef r => dropPipe (pipeSide i r) k
  | .other f => (f k).setPipe i (k.pipes i)

/-- A side acts as long as there is a descriptor of it. -/
def pipeStep (i : Nat) (k : K V) (a : PipeAct V) : Option (K V) :=
  if ∀ r, a.side = some r → 0 < (k.pipes i).refs r then some (a.after i k) else none

/-- What the writes of a pipe accepted, and what its reads returned, in order. -/
structure PipeNote where
  sent : List UInt8
  got : List UInt8

def PipeNote.none : PipeNote := ⟨[], []⟩

/-- The bytes that a read returned. -/
def Got.bytes (r : Got) : List UInt8 := (List.range r.n).map r.data

def PipeNote.note (i : Nat) (k : K V) (a : PipeAct V) (_ : K V) (t : PipeNote) : PipeNote :=
  match a with
  | .read flags len =>
    match pipeRead flags i len k with
    | .ok r _ => { t with got := t.got ++ r.bytes }
    | .error .. => t
  | .write flags src len =>
    match pipeWrite flags i src len k with
    | .ok n _ => { t with sent := t.sent ++ (List.range n).map src }
    | .error .. => t
  | _ => t

/-! ### What the operations do -/

/-- What a pipe holds. -/
def Pipe.bytes (p : Pipe) : List UInt8 := Ring.slice p.ring PIPE_CAP p.head p.len

/-- A pipe with a descriptor holds what was written and not read; one that has none is gone. -/
def Pipe.Tracks (p : Pipe) (t : PipeNote) : Prop :=
  p.len ≤ PIPE_CAP ∧ (t.sent = t.got ++ p.bytes ∨
    p.readers = 0 ∧ p.writers = 0 ∧ p.len = 0 ∧ t.got <+: t.sent)

theorem Pipe.Tracks.live {p : Pipe} {t : PipeNote} (h : p.Tracks t) {r : Bool} (hr : 0 < p.refs r) :
    t.sent = t.got ++ p.bytes := by
  rcases h.2 with h | ⟨hr0, hw0, -⟩
  · exact h
  · cases r <;> simp [refs, hr0, hw0] at hr

theorem setPipe_pipes (p : Pipe) : (k.setPipe i p).pipes i = p := by simp [K.setPipe]

/-- A read of a pipe: nothing happens when it fails or waits, and then the pipe is empty and has
a writer; the end is reported when it has none. -/
theorem pipeRead_spec {flags : UInt32} {len : Nat} :
    wp (pipeRead flags i len)
      (fun r k' => (k.pipes i).len = 0 ∧ (k.pipes i).writers = 0 ∧ r = .none 0 ∧ k' = k ∨
        (k.pipes i).len ≠ 0 ∧ r = ⟨min len (k.pipes i).len,
          ringGet (k.pipes i).ring PIPE_CAP (k.pipes i).head (min len (k.pipes i).len)⟩ ∧
        k'.pipes i = { k.pipes i with
          head := ((k.pipes i).head + min len (k.pipes i).len) % PIPE_CAP
          len := (k.pipes i).len - min len (k.pipes i).len })
      (fun _ k' => k'.pipes = k.pipes ∧ (k.pipes i).len = 0 ∧ (k.pipes i).writers ≠ 0) k := by
  simp only [pipeRead, wp_bind, wp_get, wp_set, wp_ite, wp_pure, wp_throw, wp_wouldBlock]
  refine ⟨fun hz => ⟨fun hw => .inl ⟨hz, hw, trivial, trivial⟩, fun hw =>
    ⟨fun _ => ⟨trivial, hz, hw⟩, fun _ => ⟨trivial, hz, hw⟩⟩⟩, fun hz => .inr ⟨hz, trivial, ?_⟩⟩
  rw [pushWake_pipes, setPipe_pipes]

/-- A write to a pipe: nothing happens when it fails or waits; it fails with `EPIPE` when there is
no reader, and waits when the pipe is full. -/
theorem pipeWrite_spec {flags : UInt32} {src : Nat → UInt8} {len : Nat} :
    wp (pipeWrite flags i src len)
      (fun n k' => (k.pipes i).readers ≠ 0 ∧ PIPE_CAP - (k.pipes i).len ≠ 0 ∧
        n = min len (PIPE_CAP - (k.pipes i).len) ∧
        k'.pipes i = { k.pipes i with
          ring := ringPut (k.pipes i).ring PIPE_CAP ((k.pipes i).head + (k.pipes i).len) n src
          len := (k.pipes i).len + n })
      (fun e k' => k'.pipes = k.pipes ∧ (e = EPIPE ↔ (k.pipes i).readers = 0) ∧
        ((k.pipes i).readers ≠ 0 → PIPE_CAP - (k.pipes i).len = 0)) k := by
  simp only [pipeWrite, wp_bind, wp_get, wp_set, wp_ite, wp_pure, wp_throw, wp_wouldBlock]
  have hagain : EAGAIN ≠ EPIPE := by decide
  have hblock : EBLOCK ≠ EPIPE := by decide
  refine ⟨fun hr => ⟨trivial, iff_of_true trivial hr, fun h => absurd hr h⟩, fun hr =>
    ⟨fun hfull => ⟨fun _ => ⟨trivial, iff_of_false hagain hr, fun _ => hfull⟩,
      fun _ => ⟨trivial, iff_of_false hblock hr, fun _ => hfull⟩⟩,
    fun hroom => ⟨hr, hroom, trivial, ?_⟩⟩⟩
  rw [pushWake_pipes, setPipe_pipes]

theorem dropPipe_pipe (r : Bool) : (dropPipe (pipeSide i r) k).pipes i =
    (if r then { k.pipes i with readers := (k.pipes i).readers - 1 }
      else { k.pipes i with writers := (k.pipes i).writers - 1 }).settle := by
  rw [dropPipe_eq]
  cases r <;> simp [pipeSide, openOn, setPipe_pipes]

theorem addRef_pipe (r : Bool) : (addRef (pipeSide i r) k).pipes i =
    if r then { k.pipes i with readers := (k.pipes i).readers + 1 }
    else { k.pipes i with writers := (k.pipes i).writers + 1 } := by
  cases r <;> simp [addRef, pipeSide, openOn, setPipe_pipes]

/-! ### Whole runs -/

namespace Pipe.Tracks

variable {p : Pipe} {t : PipeNote}

theorem read (h : p.len ≤ PIPE_CAP) (hs : t.sent = t.got ++ p.bytes) {n : Nat} (hn : n ≤ p.len) :
    ({ p with head := (p.head + n) % PIPE_CAP, len := p.len - n } : Pipe).Tracks
      { t with got := t.got ++ Got.bytes ⟨n, ringGet p.ring PIPE_CAP p.head n⟩ } := by
  refine ⟨(Nat.sub_le ..).trans h, .inl ?_⟩
  obtain ⟨m, hm⟩ := Nat.exists_eq_add_of_le hn
  have hrest : p.len - n = m := by omega
  simp only [Got.bytes, map_ringGet, bytes, hrest, Ring.slice_mod, hs]
  rw [hm, Ring.slice_add, List.append_assoc]

theorem write (hs : t.sent = t.got ++ p.bytes) {n : Nat} (hn : p.len + n ≤ PIPE_CAP)
    (src : Nat → UInt8) :
    ({ p with ring := ringPut p.ring PIPE_CAP (p.head + p.len) n src, len := p.len + n } :
      Pipe).Tracks { t with sent := t.sent ++ (List.range n).map src } := by
  refine ⟨hn, .inl ?_⟩
  simp only [bytes, slice_ringPut hn, hs, List.append_assoc]

end Pipe.Tracks

/-- **Each act** keeps the account of a pipe. -/
theorem Pipe.Tracks.step {t : PipeNote} {a : PipeAct V} (h : (k.pipes i).Tracks t)
    (hs : pipeStep i k a = some k') : (k'.pipes i).Tracks (t.note i k a k') := by
  obtain ⟨hact, hk⟩ := (Option.ite_none_right_eq_some ..).mp hs
  obtain rfl := Option.some.inj hk
  cases a with
  | read flags len =>
      have hsent := h.live (hact true rfl)
      simp only [PipeAct.after, Prog.after, PipeNote.note]
      cases hx : pipeRead flags i len k with
      | error e k' =>
          have hsame := (pipeRead_spec.error hx).1
          simp only [hsame]
          exact h
      | ok r k' =>
          dsimp only
          rcases pipeRead_spec.ok hx with ⟨hz, -, rfl, rfl⟩ | ⟨hz, rfl, hp⟩
          · simpa [Got.bytes, Got.none] using h
          · rw [hp]
            exact Tracks.read h.1 hsent (Nat.min_le_right ..)
  | write flags src len =>
      have hsent := h.live (hact false rfl)
      simp only [PipeAct.after, Prog.after, PipeNote.note]
      cases hx : pipeWrite flags i src len k with
      | error e k' =>
          have hsame := (pipeWrite_spec.error hx).1
          simp only [hsame]
          exact h
      | ok n k' =>
          dsimp only
          obtain ⟨-, -, rfl, hp⟩ := pipeWrite_spec.ok hx
          have hfit := h.1
          rw [hp]
          exact Tracks.write hsent (by omega) src
  | addRef r =>
      have hsent := h.live (hact r rfl)
      simp only [PipeAct.after, PipeNote.note, addRef_pipe]
      cases r <;> exact ⟨h.1, .inl hsent⟩
  | dropRef r =>
      have hsent := h.live (hact r rfl)
      have hsettle : ∀ p : Pipe, p.len = (k.pipes i).len → p.bytes = (k.pipes i).bytes →
          p.settle.Tracks t := by
        intro p hlen hbytes
        unfold settle
        split
        · exact ⟨Nat.zero_le _, .inr ⟨rfl, rfl, rfl, _, hsent.symm⟩⟩
        · exact ⟨hlen ▸ h.1, .inl (hbytes ▸ hsent)⟩
      simp only [PipeAct.after, PipeNote.note, dropPipe_pipe]
      cases r <;> exact hsettle _ rfl rfl
  | other f =>
      simp only [PipeAct.after, PipeNote.note, setPipe_pipes]
      exact h

/-- A pipe as `pipe` makes it. -/
structure Pipe.New (p : Pipe) : Prop where
  empty : p.head = 0 ∧ p.len = 0
  sides : p.readers = 1 ∧ p.writers = 1

/-- What `pipe` makes, in a slot that was free. -/
theorem pipe_new {env : Env V} {l : Nat} {flags : UInt32} : wp (pipe env l flags)
    (fun _ k' => ∃ i < MAX_PIPES, (k.pipes i).buf = 0 ∧ (k'.pipes i).New) (fun _ _ => True) k := by
  simp only [pipe, wp_bind, wp_get]
  refine wp_position (fun i hi hfree => ?_) trivial
  rw [wp_bind]
  refine wp_allocContig ?_ trivial
  simp only [wp_bind, wp_modify, wp_onError]
  refine wp_install (fun r _ _ => ?_) trivial
  simp only [wp_bind, wp_onError]
  refine wp_install (fun w _ _ => ?_) trivial
  refine ⟨i, hi, of_decide_eq_true hfree, ?_⟩
  simp only [K.setFd, setPipe_pipes]
  exact ⟨⟨rfl, rfl⟩, rfl, rfl⟩

/-- The runs of a pipe from its beginning, with the note of what went through it. -/
abbrev Piping (i : Nat) : K V × PipeNote → Prop :=
  Noted (pipeStep i) (PipeNote.note i) (fun k => (k.pipes i).New) .none fun _ _ => True

theorem Piping.tracks {t : PipeNote} (h : Piping i (k, t)) : (k.pipes i).Tracks t := by
  refine Noted.invariant (I := fun k t => (k.pipes i).Tracks t) (fun k hk => ?_) ?_ h
  · refine ⟨hk.empty.2 ▸ Nat.zero_le _, .inl ?_⟩
    rw [Pipe.bytes, hk.empty.2]
    rfl
  · exact fun k a k' t h _ hs => h.step hs

/-- What a read answers in a state: its bytes come from the loop over the ring, it returns nothing
for a nonzero length only at the end, and a read that fails transfers nothing. -/
structure ReadAnswers (i : Nat) (k : K V) (flags : UInt32) (len : Nat) : Prop where
  ok : ∀ r k', pipeRead flags i len k = .ok r k' →
    (∀ dst, drain (k.pipes i).ring (k.pipes i).head r.n dst 0 = blit dst 0 r.n r.data) ∧
    (0 < len → r.n = 0 → (k.pipes i).len = 0 ∧ (k.pipes i).writers = 0)
  error : ∀ e k', pipeRead flags i len k = .error e k' → k'.pipes = k.pipes

/-- What a write answers: the bytes accepted go to the ring by the loop, it fails with `EPIPE`
exactly without readers, and a write that fails transfers nothing. -/
structure WriteAnswers (i : Nat) (k : K V) (flags : UInt32) (src : Nat → UInt8) (len : Nat) :
    Prop where
  ok : ∀ n k', pipeWrite flags i src len k = .ok n k' → (k.pipes i).readers ≠ 0 ∧ n ≤ len ∧
    (k'.pipes i).ring = fill (k.pipes i).ring ((k.pipes i).head + (k.pipes i).len) n src 0
  error : ∀ e k', pipeWrite flags i src len k = .error e k' → k'.pipes = k.pipes
  epipe : (∃ k', pipeWrite flags i src len k = .error EPIPE k') ↔ (k.pipes i).readers = 0

theorem readAnswers (i : Nat) (k : K V) (flags : UInt32) (len : Nat) :
    ReadAnswers i k flags len where
  ok r k' hx := by
    refine ⟨fun dst => ?_, fun hlen hn => ?_⟩
    · rcases pipeRead_spec.ok hx with ⟨-, -, rfl, -⟩ | ⟨-, rfl, -⟩
      · rw [drain_eq]
        exact blit_congr fun j hj => absurd hj (Nat.not_lt_zero j)
      · exact drain_eq ..
    · rcases pipeRead_spec.ok hx with ⟨hz, hw, -, -⟩ | ⟨hz, rfl, -⟩
      · exact ⟨hz, hw⟩
      · have hn : min len (k.pipes i).len = 0 := hn
        omega
  error e k' hx := (pipeRead_spec.error hx).1

theorem writeAnswers (i : Nat) (k : K V) (flags : UInt32) (src : Nat → UInt8) (len : Nat) :
    WriteAnswers i k flags src len where
  ok n k' hx := by
    obtain ⟨hr, -, rfl, hp⟩ := pipeWrite_spec.ok hx
    refine ⟨hr, Nat.min_le_left .., ?_⟩
    rw [hp, fill_eq ((Nat.min_le_right ..).trans (Nat.sub_le ..))]
  error e k' hx := (pipeWrite_spec.error hx).1
  epipe := by
    constructor
    · rintro ⟨k', hx⟩
      exact (pipeWrite_spec.error hx).2.1.mp rfl
    · intro hr
      cases hx : pipeWrite flags i src len k with
      | ok n k' => exact absurd hr (pipeWrite_spec.ok hx).1
      | error e k' =>
          obtain rfl := (pipeWrite_spec.error hx).2.1.mpr hr
          exact ⟨k', rfl⟩

theorem Bal.ends {s : Bool} (h : Bal s k []) :
    (k.pipes i).readers = k.held (.pipeR i) ∧ (k.pipes i).writers = k.held (.pipeW i) :=
  ⟨by simpa [K.refs] using h.count (.pipeR i) trivial,
    by simpa [K.refs] using h.count (.pipeW i) trivial⟩

/-- **A pipe**, after any run of reads, writes, copies and closes.  The bytes that were read are the
first of those that writes accepted; it holds no more than its capacity, and a whole ring of bytes
while a side is open; and so reads and writes answer, by the sides that are open.  Where the
references balance these are the sides that a descriptor names.  A run begins where `pipe` leaves
the slot. -/
theorem pipe_in_order {t : PipeNote} (h : Piping i (k, t)) :
    t.got <+: t.sent ∧ (k.pipes i).len ≤ PIPE_CAP ∧
    ((k.pipes i).readers ≠ 0 ∨ (k.pipes i).writers ≠ 0 → t.sent = t.got ++ (k.pipes i).bytes) ∧
    (∀ flags len, ReadAnswers i k flags len) ∧
    (∀ flags src len, WriteAnswers i k flags src len) ∧
    (∀ s, Bal s k [] →
      (k.pipes i).readers = k.held (.pipeR i) ∧ (k.pipes i).writers = k.held (.pipeW i)) ∧
    ∀ (env : Env V) l flags, wp (pipe env l flags)
      (fun _ k' => ∃ i < MAX_PIPES, (k.pipes i).buf = 0 ∧ (k'.pipes i).New) (fun _ _ => True) k := by
  have htracks := h.tracks
  refine ⟨?_, htracks.1, fun hopen => ?_, readAnswers i k, writeAnswers i k, fun _ h => h.ends,
    fun _ _ _ => pipe_new⟩
  · rcases htracks.2 with hs | ⟨-, -, -, hp⟩
    · exact ⟨_, hs.symm⟩
    · exact hp
  · rcases htracks.2 with hs | ⟨hr, hw, -⟩
    · exact hs
    · exact absurd (hopen.resolve_left (· hr)) (· hw)

/-- The first pipe, with one descriptor of each side. -/
def onePipe : K Unit := (K.boot () fun _ => true).setPipe 0 ⟨4096, fun _ => 0, 0, 0, 1, 1⟩

/-- What a process reads that wrote three bytes and reads two. -/
theorem onePipe_in_order : ∃ x : K Unit × PipeNote, x.2.got = [7, 7] ∧ x.2.got <+: x.2.sent := by
  have hnew : (onePipe.pipes 0).New := ⟨⟨rfl, rfl⟩, rfl, rfl⟩
  have hrun : (Runs.run (noted (pipeStep 0) (PipeNote.note 0)) (fun _ _ => True)
      [.write 0 (fun _ => 7) 3, .read 0 2] (onePipe, .none)).any
      (fun x => decide (x.2.got = [7, 7])) = true := by
    decide +kernel
  obtain ⟨x, hx, hgot⟩ := Reached.run_any (Noted.start hnew : Piping 0 (onePipe, .none)) hrun
  exact ⟨x, hgot, (pipe_in_order hx).1⟩

end Pulsar.Kernel

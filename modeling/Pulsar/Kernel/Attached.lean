import Pulsar.Kernel.Traffic

/-!
# Descriptors attached to what is sent (`unix.rs`)

Descriptors travel beside the bytes of a queue, each bundle with the position of the byte it was
sent with.  `Journal` is a note of one direction: the bundles that were sent, and those that were
taken, each at its place, the number of a byte of the stream or of a message.

* `Queue.Bears`: the bundles in a queue are those sent and not taken, at places still to come.
* `Bears.send`, `Bears.receive`: a send with descriptors, and a receive, keep it so.
-/

namespace Pulsar.Kernel

variable {packet : Bool} {q : Queue} {n len p : Nat} {src : Nat → UInt8} {files : List OpenFile}

/-! ### The note -/

/-- What a receive tells its caller: nothing but the bytes, an error, or the flags of a message. -/
inductive Report where
  | plain
  | fault
  | flags (f : UInt32)
  deriving DecidableEq

/-- A receive that descriptors came with: how many bytes or messages came before, how many it
received, the files that came, the descriptors it installed, and what those are open on. -/
structure Taking where
  place : Nat
  units : Nat
  files : List OpenFile
  fds : List Nat
  kept : List OpenFile
  report : Report

/-- Files are attached at a place, if there are any. -/
def attach (atts : List Att) (p : Nat) (files : List OpenFile) : List Att :=
  if files = [] then atts else atts ++ [⟨p, files⟩]

/-- The bundle that was taken, at the place where it came. -/
def Taking.att (t : Taking) : Att := ⟨t.place, t.files⟩

/-- Of one direction: the bundles sent, at their places, and the receives they came with; how many
bytes or messages were sent, and how many received. -/
structure Journal where
  sent : List Att
  taken : List Taking
  put : Nat
  got : Nat

namespace Journal

def none : Journal := ⟨[], [], 0, 0⟩

/-- Bytes count in a stream, messages otherwise. -/
def units (packet : Bool) (n : Nat) : Nat := if packet then 1 else n

/-- A send of `n` bytes with the descriptors `files`. -/
def sends (j : Journal) (packet : Bool) (n : Nat) (files : List OpenFile) : Journal :=
  { j with
    sent := attach j.sent j.put files
    put := j.put + units packet n }

/-- A receive of `n` bytes that the files `files` came with. -/
def takes (j : Journal) (packet : Bool) (n : Nat) (files : List OpenFile) (fds : List Nat)
    (kept : List OpenFile) (report : Report) : Journal :=
  { j with
    taken := if files = [] then j.taken
      else j.taken ++ [⟨j.got, units packet n, files, fds, kept, report⟩]
    got := j.got + units packet n }

end Journal

/-! ### Messages and their descriptors -/

/-- The bundles that come with messages, each at the place where its message begins; a message of
`n` bytes reaches `w n` places. -/
def attsAt (w : Nat → Nat) : Nat → List (Nat × List OpenFile) → List Att
  | _, [] => []
  | p, m :: ms => (if m.2 = [] then [] else [⟨p, m.2⟩]) ++ attsAt w (p + w m.1) ms

/-- How many messages of no bytes are the last ones. -/
def trailing : List Nat → Nat
  | [] => 0
  | n :: ns => if (n :: ns).sum = 0 then (n :: ns).length else trailing ns

/-- No bundle is at the position of a message without one. -/
def Paired : Nat → List (Nat × List OpenFile) → Prop
  | _, [] => True
  | p, m :: ms => (m.2 = [] → ∀ a ∈ attsAt id (p + m.1) ms, p < a.pos) ∧ Paired (p + m.1) ms

/-- Descriptors may come with what is sent next: of the messages of no bytes that are last in the
queue, each has its own; in a stream there are none at this position. -/
def Queue.Matched (q : Queue) (packet : Bool) : Prop :=
  q.atts.countP (fun a => decide (a.pos = q.wpos)) = if packet then trailing q.sizes else 0

instance Queue.decidableMatched : Decidable (q.Matched packet) := by
  unfold Queue.Matched
  infer_instance

variable {w : Nat → Nat} {ms : List (Nat × List OpenFile)}

theorem attach_append (as bs : List Att) (p : Nat) (files : List OpenFile) :
    attach (as ++ bs) p files = as ++ attach bs p files := by
  unfold attach
  split
  · rfl
  · rw [List.append_assoc]

theorem mem_attach {atts : List Att} {a : Att} :
    a ∈ attach atts p files ↔ a ∈ atts ∨ files ≠ [] ∧ a = ⟨p, files⟩ := by
  unfold attach
  split <;> simp_all

theorem attsAt_append (m : Nat × List OpenFile) : ∀ (ms : List (Nat × List OpenFile)) (p : Nat),
    attsAt w p (ms ++ [m]) = attach (attsAt w p ms) (p + (ms.map fun x => w x.1).sum) m.2 := by
  intro ms
  induction ms with
  | nil =>
      intro p
      simp only [List.nil_append, attsAt, List.append_nil, attach, List.map_nil, List.sum_nil,
        Nat.add_zero]
  | cons x ms ih =>
      intro p
      simp only [List.cons_append, attsAt, ih, attach_append, List.map_cons, List.sum_cons,
        Nat.add_assoc]

theorem attsAt_files {w' : Nat → Nat} : ∀ (ms : List (Nat × List OpenFile)) (p p' : Nat),
    (attsAt w p ms).map Att.files = (attsAt w' p' ms).map Att.files := by
  intro ms
  induction ms with
  | nil => intro p p'; rfl
  | cons m ms ih =>
      intro p p'
      simp only [attsAt, List.map_append, ih (p + w m.1) (p' + w' m.1)]
      split <;> rfl

theorem attsAt_ge : ∀ (ms : List (Nat × List OpenFile)) {p : Nat} {a : Att},
    a ∈ attsAt w p ms → p ≤ a.pos := by
  intro ms
  induction ms with
  | nil => intro p a h; cases h
  | cons m ms ih =>
      intro p a h
      rcases List.mem_append.mp h with h | h
      · split at h
        · cases h
        · rw [List.mem_singleton.mp h]
      · exact (Nat.le_add_right ..).trans (ih h)

theorem trailing_cons (n : Nat) (ns : List Nat) :
    trailing (n :: ns) = if (n :: ns).sum = 0 then trailing ns + 1 else trailing ns := by
  rw [trailing]
  split
  · rename_i hz
    rw [List.sum_cons, Nat.add_eq_zero_iff] at hz
    cases ns with
    | nil => rfl
    | cons m ns => rw [trailing, if_pos hz.2, List.length_cons]
  · rfl

/-- How many bundles are where the next message will begin. -/
def ends (p : Nat) (ms : List (Nat × List OpenFile)) : Nat :=
  (attsAt id p ms).countP fun a => decide (a.pos = p + (ms.map Prod.fst).sum)

theorem ends_cons (p : Nat) (x : Nat × List OpenFile) (ms : List (Nat × List OpenFile)) :
    ends p (x :: ms) =
      (if x.2 ≠ [] ∧ ((x :: ms).map Prod.fst).sum = 0 then 1 else 0) + ends (p + x.1) ms := by
  simp only [ends, attsAt, List.countP_append, List.map_cons, List.sum_cons, Nat.add_assoc, id]
  congr 1
  by_cases hf : x.2 = []
  · simp [hf]
  · simp [hf, List.countP_cons]

theorem ends_le : ∀ (ms : List (Nat × List OpenFile)) (p : Nat),
    ends p ms ≤ trailing (ms.map Prod.fst) := by
  intro ms
  induction ms with
  | nil => exact fun _ => Nat.le_refl _
  | cons x ms ih =>
      intro p
      have hle := ih (p + x.1)
      rw [ends_cons, List.map_cons, trailing_cons]
      by_cases hz : (x.1 :: ms.map Prod.fst).sum = 0
      · rw [if_pos hz]
        split <;> omega
      · rw [if_neg hz, if_neg fun hc => hz hc.2]
        omega

theorem Paired.append {m : Nat × List OpenFile} : ∀ (ms : List (Nat × List OpenFile)) {p : Nat},
    Paired p ms → (m.2 ≠ [] → ends p ms = trailing (ms.map Prod.fst)) → Paired p (ms ++ [m]) := by
  intro ms
  induction ms with
  | nil =>
      intro p _ _
      exact ⟨fun _ a ha => absurd ha List.not_mem_nil, trivial⟩
  | cons x ms ih =>
      intro p h hm
      obtain ⟨hx, hms⟩ := h
      have hle := ends_le ms (p + x.1)
      rw [ends_cons, List.map_cons, trailing_cons, ← List.map_cons] at hm
      have hrest : Paired (p + x.1) (ms ++ [m]) := ih hms fun hne => by
        have := hm hne
        split at this <;> split at this <;> omega
      refine ⟨fun hf a ha => ?_, hrest⟩
      replace ha : a ∈ attsAt id (p + x.1) (ms ++ [m]) := ha
      rw [attsAt_append, mem_attach] at ha
      rcases ha with ha | ⟨hne, rfl⟩
      · exact hx hf a ha
      · -- a message of no bytes and no bundle would be one too many
        have hpos : ((x :: ms).map Prod.fst).sum ≠ 0 := fun hz => by
          have := hm hne
          rw [if_pos hz, if_neg (fun hc => hc.1 hf)] at this
          omega
        simp only [List.map_cons, List.sum_cons] at hpos
        show p < p + x.1 + (ms.map Prod.fst).sum
        omega

/-! ### What a queue bears -/

/-- The bundles in a queue are those sent and not taken, at places still to come. -/
structure Queue.Bears (q : Queue) (packet : Bool) (j : Journal) : Prop where
  pos : q.wpos = q.rpos + q.len
  stream : packet = false → j.put = q.wpos ∧ j.got = q.rpos ∧
    j.sent = j.taken.map Taking.att ++ q.atts ∧ q.atts.Pairwise (fun a b => a.pos < b.pos) ∧
    ∀ a ∈ q.atts, q.rpos ≤ a.pos ∧ a.pos ≤ q.wpos ∧ a.files ≠ []
  packets : packet = true → q.mhead < MSGQ ∧ q.mcount ≤ MSGQ ∧ ∃ ms, ms.map Prod.fst = q.sizes ∧
    q.sizes.sum = q.len ∧ q.atts = attsAt id q.rpos ms ∧ j.put = j.got + ms.length ∧
    j.sent = j.taken.map Taking.att ++ attsAt (fun _ => 1) j.got ms ∧ Paired q.rpos ms

namespace Queue.Bears

variable {j : Journal}

theorem rest (h : q.Bears packet j) : ∃ rest, j.sent = j.taken.map Taking.att ++ rest ∧
    rest.map Att.files = q.atts.map Att.files ∧ ∀ a ∈ rest, j.got ≤ a.pos := by
  cases packet with
  | false =>
      obtain ⟨-, hgot, hsent, -, hatts⟩ := h.stream rfl
      exact ⟨q.atts, hsent, rfl, fun a ha => hgot ▸ (hatts a ha).1⟩
  | true =>
      obtain ⟨-, -, ms, -, -, hatts, -, hsent, -⟩ := h.packets rfl
      exact ⟨_, hsent, by rw [hatts, attsAt_files], fun a ha => attsAt_ge ms ha⟩

/-- **A send** attaches its descriptors to its first byte, or to its message. -/
theorem send (h : q.Bears packet j) (hfull : ¬ q.full packet len)
    (hn : n = if packet then len else min len (CAP - q.len))
    (hm : files ≠ [] → q.Matched packet) :
    (q.send packet n src files).Bears packet (j.sends packet n files) := by
  refine ⟨?_, fun hp => ?_, fun hp => ?_⟩
  · show q.wpos + n = q.rpos + (q.len + n)
    rw [h.pos, Nat.add_assoc]
  · subst hp
    obtain ⟨hput, hgot, hsent, hsorted, hatts⟩ := h.stream rfl
    refine ⟨?_, hgot, ?_, ?_, ?_⟩
    · show j.put + n = q.wpos + n
      rw [hput]
    · show attach j.sent j.put files = _ ++ attach q.atts q.wpos files
      rw [hsent, hput, attach_append]
      rfl
    · show (attach q.atts q.wpos files).Pairwise _
      unfold attach
      split
      · exact hsorted
      · rename_i hne
        have hnone := List.countP_eq_zero.mp (hm hne)
        refine List.pairwise_append.mpr ⟨hsorted, List.pairwise_singleton .., fun a ha b hb => ?_⟩
        rw [List.mem_singleton.mp hb]
        exact Nat.lt_of_le_of_ne (hatts a ha).2.1 fun he => hnone a ha (decide_eq_true he)
    · intro a ha
      replace ha : a ∈ attach q.atts q.wpos files := ha
      rcases mem_attach.mp ha with ha | ⟨hne, rfl⟩
      · obtain ⟨hr, hw, hne⟩ := hatts a ha
        exact ⟨hr, hw.trans (Nat.le_add_right ..), hne⟩
      · exact ⟨h.pos ▸ Nat.le_add_right .., Nat.le_add_right .., hne⟩
  · subst hp
    obtain ⟨hhead, hmc, ms, hsizes, hsum, hatts, hput, hsent, hpair⟩ := h.packets rfl
    have hroom : q.mcount + 1 ≤ MSGQ := by
      simp only [Queue.full, reduceIte] at hfull
      omega
    have hend : q.rpos + (ms.map fun x => id x.1).sum = q.wpos := by
      rw [h.pos, ← hsum, ← hsizes]
      rfl
    have hcount : j.got + (ms.map fun _ => 1).sum = j.put := by
      rw [hput, List.map_const', List.sum_replicate, Nat.nsmul_eq_mul, Nat.mul_one]
    refine ⟨hhead, hroom, ms ++ [(n, files)], ?_, ?_, ?_, ?_, ?_, ?_⟩
    · rw [send_sizes hroom, List.map_append, hsizes]
      rfl
    · rw [send_sizes hroom, List.sum_append, hsum, List.sum_singleton]
      rfl
    · show attach q.atts q.wpos files = attsAt id q.rpos (ms ++ [(n, files)])
      rw [attsAt_append, ← hatts, hend]
    · show j.put + 1 = j.got + (ms ++ [(n, files)]).length
      rw [hput, List.length_append, List.length_singleton, Nat.add_assoc]
    · show attach j.sent j.put files = _ ++ attsAt (fun _ => 1) j.got (ms ++ [(n, files)])
      rw [attsAt_append, hcount, hsent, attach_append]
      rfl
    · refine Paired.append ms hpair fun hne => ?_
      have hmatch := hm hne
      rw [Queue.Matched, if_pos rfl, hatts, h.pos, ← hsum, ← hsizes] at hmatch
      exact hmatch

end Queue.Bears

/-! ### What a receive takes -/

/-- The bundle that is in front, if it is at the position of the reader. -/
def front (p : Nat) (fs : List OpenFile) : List Att := if fs = [] then [] else [⟨p, fs⟩]

theorem Journal.takes_atts (j : Journal) (fs : List OpenFile) (fds : List Nat)
    (kept : List OpenFile) (report : Report) :
    (j.takes packet n fs fds kept report).taken.map Taking.att =
      j.taken.map Taking.att ++ front j.got fs := by
  unfold Journal.takes front
  dsimp only
  split
  · rw [List.append_nil]
  · rw [List.map_append]
    rfl

namespace Queue

variable {fs : List OpenFile} {as : List Att}

theorem takeAtt_front (h : q.atts = front q.rpos fs ++ as)
    (has : fs = [] → ∀ a ∈ as, q.rpos < a.pos) : q.takeAtt = (fs, { q with atts := as }) := by
  unfold takeAtt
  by_cases hf : fs = []
  · subst hf
    have hq : q.atts = as := h
    have hsame : ({ q with atts := as } : Queue) = q := by rw [← hq]
    rw [hsame]
    cases as with
    | nil => rw [hq]
    | cons a as =>
        rw [hq]
        exact if_neg (has rfl a List.mem_cons_self).ne'
  · rw [h, front, if_neg hf]
    exact if_pos rfl

theorem receive_takes (q : Queue) (packet : Bool) (len : Nat) :
    (q.receive packet len).1.files = q.takeAtt.1 := by
  cases packet <;> rfl

theorem exists_front (hsorted : q.atts.Pairwise fun a b => a.pos < b.pos)
    (hatts : ∀ a ∈ q.atts, q.rpos ≤ a.pos ∧ a.pos ≤ q.wpos ∧ a.files ≠ []) :
    ∃ fs as, q.atts = front q.rpos fs ++ as ∧ ∀ a ∈ as, q.rpos < a.pos := by
  cases hq : q.atts with
  | nil => exact ⟨[], [], rfl, fun a ha => absurd ha List.not_mem_nil⟩
  | cons a as =>
      rw [hq] at hsorted hatts
      obtain ⟨hle, -, hne⟩ := hatts a List.mem_cons_self
      have hlater := (List.pairwise_cons.mp hsorted).1
      by_cases hpos : a.pos = q.rpos
      · refine ⟨a.files, as, ?_, fun b hb => hpos ▸ hlater b hb⟩
        rw [front, if_neg hne, ← hpos]
        rfl
      · refine ⟨[], a :: as, rfl, fun b hb => ?_⟩
        have hlt : q.rpos < a.pos := Nat.lt_of_le_of_ne hle (Ne.symm hpos)
        rcases List.mem_cons.mp hb with rfl | hb
        · exact hlt
        · exact hlt.trans (hlater b hb)

theorem streamLen_before (hsorted : q.atts.Pairwise fun a b => a.pos < b.pos)
    (hatts : ∀ a ∈ q.atts, q.rpos < a.pos) :
    ∀ a ∈ q.atts, q.rpos + q.streamLen len ≤ a.pos := by
  intro b hb
  unfold streamLen
  cases hq : q.atts with
  | nil =>
      rw [hq] at hb
      cases hb
  | cons a as =>
      rw [hq] at hsorted hatts hb
      have hlt := hatts a List.mem_cons_self
      simp only [hlt, reduceIte]
      have hle : a.pos ≤ b.pos := by
        rcases List.mem_cons.mp hb with rfl | hb
        · exact Nat.le_refl _
        · exact ((List.pairwise_cons.mp hsorted).1 b hb).le
      omega

namespace Bears

variable {j : Journal} (fds : List Nat) (kept : List OpenFile) (report : Report)

theorem receive_stream (h : q.Bears false j) (hq : q.len ≠ 0)
    (hl : len = 0 → q.takeAtt.1 = []) :
    (q.receive false len).2.Bears false
      (j.takes false (q.receive false len).1.n (q.receive false len).1.files fds kept report) ∧
    ((q.receive false len).1.files ≠ [] → 0 < (q.receive false len).1.n) := by
  obtain ⟨hput, hgot, hsent, hsorted, hatts⟩ := h.stream rfl
  obtain ⟨fs, as, hfront, hlater⟩ := exists_front hsorted hatts
  have htake := takeAtt_front hfront fun _ => hlater
  set q' : Queue := { q with atts := as } with hq'
  have hn : q'.streamLen len ≤ q.len := q'.streamLen_le len
  have hr : q.receive false len =
      (⟨q'.streamLen len, false, ringGet q.ring CAP q.head (q'.streamLen len), fs⟩,
        q'.advance (q'.streamLen len)) := by
    rw [receive, htake]
    rfl
  rw [hr]
  rw [hfront] at hsent hsorted hatts
  have hsorted' : as.Pairwise fun a b => a.pos < b.pos := (List.pairwise_append.mp hsorted).2.1
  refine ⟨⟨?_, fun _ => ⟨hput, ?_, ?_, hsorted', fun a ha => ?_⟩,
    fun hp => absurd hp Bool.false_ne_true⟩, fun hf => ?_⟩
  · have := h.pos
    show q.wpos = q.rpos + q'.streamLen len + (q.len - q'.streamLen len)
    omega
  · show j.got + q'.streamLen len = q.rpos + q'.streamLen len
    rw [hgot]
  · rw [Journal.takes_atts, hgot, List.append_assoc]
    exact hsent
  · obtain ⟨-, hw, hne⟩ := hatts a (List.mem_append_right _ ha)
    exact ⟨streamLen_before (q := q') hsorted' hlater a ha, hw, hne⟩
  · refine streamLen_pos (q := q') (Nat.pos_of_ne_zero fun hz => hf ?_) hq
    have := hl hz
    rwa [htake] at this

theorem receive_packet (h : q.Bears true j) (hq : q.len ≠ 0) :
    (q.receive true len).2.Bears true
      (j.takes true (q.receive true len).1.n (q.receive true len).1.files fds kept report) := by
  obtain ⟨hhead, hmc, ms, hsizes, hsum, hatts, hput, hsent, hpair⟩ := h.packets rfl
  cases ms with
  | nil =>
      rw [← hsizes] at hsum
      exact absurd hsum.symm hq
  | cons m ms =>
      obtain ⟨hfirst, hpair⟩ := hpair
      have hcount : q.mcount = 1 + ms.length := by
        have hlen := congrArg List.length hsizes
        rw [sizes, Ring.slice_length, List.length_map, List.length_cons] at hlen
        omega
      have hhd : Ring.slice q.msgs MSGQ q.mhead 1 = [q.msgs q.mhead] := by
        simp only [Ring.slice, List.range_one, List.map_singleton, Nat.add_zero,
          Nat.mod_eq_of_lt hhead]
      rw [sizes, hcount, Ring.slice_add, hhd, List.singleton_append] at hsum hsizes
      rw [List.map_cons] at hsizes
      obtain ⟨hm, hsizes⟩ := List.cons.inj hsizes
      have htake : q.takeAtt = (m.2, { q with atts := attsAt id (q.rpos + m.1) ms }) :=
        takeAtt_front hatts hfirst
      have hr : q.receive true len = (⟨min len m.1, decide (len < m.1),
          ringGet q.ring CAP q.head (min len m.1), m.2⟩,
          ({ q with
            atts := attsAt id (q.rpos + m.1) ms, mhead := (q.mhead + 1) % MSGQ
            mcount := q.mcount - 1 } : Queue).advance m.1) := by
        rw [receive, htake, hm]
        rfl
      have hrest : ({ q with
            atts := attsAt id (q.rpos + m.1) ms, mhead := (q.mhead + 1) % MSGQ
            mcount := q.mcount - 1 } : Queue).sizes = ms.map Prod.fst := by
        rw [hsizes, sizes, hcount, Nat.add_sub_cancel_left]
        exact Ring.slice_mod ..
      rw [← hsizes, ← hm, List.sum_cons] at hsum
      rw [hr]
      refine ⟨?_, fun hp => absurd hp.symm Bool.false_ne_true, fun _ => ⟨Nat.mod_lt _ (by decide),
        (Nat.sub_le ..).trans hmc, ms,
        hrest.symm, ?_, rfl, ?_, ?_, hpair⟩⟩
      · have := h.pos
        show q.wpos = q.rpos + m.1 + (q.len - m.1)
        omega
      · refine (congrArg List.sum hrest).trans ?_
        show _ = q.len - m.1
        omega
      · show j.put = j.got + 1 + ms.length
        rw [hput, List.length_cons]
        omega
      · rw [Journal.takes_atts, List.append_assoc]
        exact hsent

/-- **A receive** takes the bundle of its first byte, or of its message. -/
theorem receive (h : q.Bears packet j) (hq : q.len ≠ 0)
    (hl : packet = false → len = 0 → q.takeAtt.1 = []) :
    (q.receive packet len).2.Bears packet
      (j.takes packet (q.receive packet len).1.n (q.receive packet len).1.files fds kept report) ∧
    ((q.receive packet len).1.files ≠ [] →
      0 < Journal.units packet (q.receive packet len).1.n) := by
  cases packet with
  | false => exact h.receive_stream fds kept report hq (hl rfl)
  | true => exact ⟨h.receive_packet fds kept report hq, fun _ => Nat.one_pos⟩

theorem eof (h : q.Bears packet j) (b : Bool) : ({ q with eof := b } : Queue).Bears packet j :=
  ⟨h.pos, h.stream, h.packets⟩

end Bears

end Queue

end Pulsar.Kernel

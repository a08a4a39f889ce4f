import Pulsar.Kernel.UnixBalance
import Pulsar.Lib.Ring
import Pulsar.Lib.Runs

/-!
# What passes through a connection (`unix.rs`)

The ends of a connection write, read, shut down, and are closed, in any order, while the rest of
the kernel goes on (`unixStep`).  `Traffic` is a note of one direction: what was sent and what was
received.

* `Queue.Carries`: what a queue holds is what was sent and not received.
* `unix_in_order`: bytes of a stream arrive in order, messages one for each read; the end is
  reported when everything has arrived and nothing more can, and is final.
-/

namespace Pulsar.Kernel

open Runs

variable {V : Type} {packet : Bool} {k : K V} {c e : Nat}

/-! ### Rings -/

/-- What `ringPut` leaves at a place of the ring, counted from where it put. -/
theorem ringPut_at {ring src : Nat → UInt8} {cap a n j : Nat} (hj : j < cap) :
    ringPut ring cap a n src ((a + j) % cap) = if j < n then src j else ring ((a + j) % cap) := by
  have hcap : 0 < cap := by omega
  have hback : ((a + j) % cap + cap - a % cap) % cap = j := by
    have ha := Nat.mod_lt a hcap
    rw [Nat.add_mod, Nat.mod_eq_of_lt hj]
    by_cases hw : a % cap + j < cap
    · rw [Nat.mod_eq_of_lt hw, show a % cap + j + cap - a % cap = j + cap by omega,
        Nat.add_mod_right, Nat.mod_eq_of_lt hj]
    · have hround : (a % cap + j) % cap = a % cap + j - cap := by
        rw [Nat.mod_eq_sub_mod (Nat.le_of_not_lt hw), Nat.mod_eq_of_lt (by omega)]
      rw [hround, show a % cap + j - cap + cap - a % cap = j by omega, Nat.mod_eq_of_lt hj]
  simp only [ringPut, hback, Nat.mod_lt _ hcap, true_and]

theorem slice_ringPut {ring src : Nat → UInt8} {cap head len n : Nat} (hfit : len + n ≤ cap) :
    Ring.slice (ringPut ring cap (head + len) n src) cap head (len + n) =
      Ring.slice ring cap head len ++ (List.range n).map src := by
  rw [Ring.slice_add]
  congr 1
  · refine Ring.slice_congr fun i hi => ?_
    have hcell : (head + i) % cap = (head + len + (cap - (len - i))) % cap := by
      rw [show head + len + (cap - (len - i)) = head + i + cap by omega, Nat.add_mod_right]
    rw [hcell, ringPut_at (by omega), if_neg (by omega)]
  · refine List.map_congr_left fun i hi => ?_
    have hi := List.mem_range.mp hi
    rw [ringPut_at (by omega), if_pos hi]

/-- The bytes that were received. -/
def Received.bytes (r : Received) : List UInt8 := (List.range r.n).map r.data

theorem map_ringGet (ring : Nat → UInt8) (cap head n : Nat) :
    (List.range n).map (ringGet ring cap head n) = Ring.slice ring cap head n :=
  List.map_congr_left fun _ hi => if_pos (List.mem_range.mp hi)

/-! ### Acts -/

/-- What the ends of a connection do, and what goes on beside them. -/
inductive UnixAct (V : Type) where
  | write (e : Nat) (src : Nat → UInt8) (len : Nat) (nonblock : Bool) (files : List OpenFile)
  | read (e len : Nat) (nonblock : Bool)
  | shutdown (e how : Nat)
  | addRef (e : Nat)
  | dropRef (e : Nat)
  | other (f : K V → K V)

/-- The end that acts. -/
def UnixAct.actor : UnixAct V → Option Nat
  | .write e .. | .read e .. | .shutdown e _ | .addRef e | .dropRef e => some e
  | .other _ => none

/-- The state after an act at connection `c`; what goes on beside it may set its ports. -/
def UnixAct.after (c : Nat) (k : K V) : UnixAct V → K V
  | .write e src len nonblock files => (unixWrite c e src len nonblock files).after k
  | .read e len nonblock => (unixRead c e len nonblock).after k
  | .shutdown e how => unixShutdown c e how k
  | .addRef e => Kernel.addRef (unixEnd c e) k
  | .dropRef e => (dropEnd c e k).2
  | .other f => (f k).setConn c { k.conns c with port := ((f k).conns c).port }

/-- An end acts as long as there is a descriptor of it. -/
def unixStep (c : Nat) (k : K V) (a : UnixAct V) : Option (K V) :=
  if ∀ e, a.actor = some e → e < 2 ∧ 0 < (k.conns c).refs e then some (a.after c k) else none

/-! ### The note -/

/-- A read that delivered: the room of its caller, what it got, and whether a message was cut. -/
structure Taken where
  room : Nat
  data : List UInt8
  trunc : Bool

/-- The read is of the message `m`. -/
def Taken.Of (r : Taken) (m : List UInt8) : Prop :=
  r.data = m.take r.room ∧ r.trunc = decide (r.room < m.length)

/-- The read reports the end of file: nothing came where something could. -/
def Received.IsEnd (r : Received) (packet : Bool) (room : Nat) : Prop :=
  r.n = 0 ∧ r.trunc = false ∧ (packet = true ∨ 0 < room)

instance (r : Received) (packet : Bool) (room : Nat) : Decidable (r.IsEnd packet room) := by
  unfold Received.IsEnd; infer_instance

/-- Of one direction: what each write queued, and each read that delivered; whether a read reported
the end; whether the sender shut it down for writing, and the receiver for reading; and whether
something was sent after that, or an empty message was sent. -/
structure Traffic where
  sent : List (List UInt8)
  got : List Taken
  ended : Bool
  shutW : Bool
  shutR : Bool
  late : Bool
  blank : Bool

namespace Traffic

def none : Traffic := ⟨[], [], false, false, false, false, false⟩

/-- The bytes received. -/
def bytes (t : Traffic) : List UInt8 := (t.got.map Taken.data).flatten

/-- A write has queued some bytes. -/
def sends (t : Traffic) (bytes : List UInt8) : Traffic :=
  { t with
    sent := t.sent ++ [bytes]
    late := t.late || t.shutW || t.shutR
    blank := t.blank || bytes.isEmpty }

/-- A read with room for `room` bytes has returned. -/
def reads (t : Traffic) (packet : Bool) (room : Nat) (r : Received) : Traffic :=
  if r.IsEnd packet room then { t with ended := true }
  else { t with got := t.got ++ [⟨room, r.bytes, r.trunc⟩] }

/-- End `d` was shut down; the direction is that to end `e`. -/
def shuts (t : Traffic) (e d how : Nat) : Traffic :=
  { t with
    shutW := t.shutW || decide (d = 1 - e ∧ how ≠ 0)
    shutR := t.shutR || decide (d = e ∧ how ≠ 1) }

/-- The note of the direction to end `e` after an act. -/
def note (c e : Nat) (k : K V) (a : UnixAct V) (_ : K V) (t : Traffic) : Traffic :=
  match a with
  | .write d src len nonblock files =>
    match unixWrite c d src len nonblock files k with
    | .ok n _ => if d = 1 - e then t.sends ((List.range n).map src) else t
    | .error .. => t
  | .read d len nonblock =>
    match unixRead c d len nonblock k with
    | .ok r _ => if d = e then t.reads (k.conns c).packet len r else t
    | .error .. => t
  | .shutdown d how => t.shuts e d how
  | _ => t

end Traffic

/-! ### What a queue holds -/

/-- The sizes of the messages in a queue. -/
def Queue.sizes (q : Queue) : List Nat := Ring.slice q.msgs MSGQ q.mhead q.mcount

/-- The bytes in a queue. -/
def Queue.bytes (q : Queue) : List UInt8 := Ring.slice q.ring CAP q.head q.len

theorem Queue.send_sizes {q : Queue} {n : Nat} {src : Nat → UInt8} {files : List OpenFile}
    (hroom : q.mcount + 1 ≤ MSGQ) : (q.send true n src files).sizes = q.sizes ++ [n] := by
  have hstore : Ring.slice (Ring.store MSGQ q.msgs (q.mhead + q.mcount) [n]) MSGQ q.mhead
      (q.mcount + 1) = q.sizes ++ [n] := Ring.slice_store hroom
  exact hstore

/-- What a queue holds is what was sent and not received. -/
structure Queue.Carries (q : Queue) (packet : Bool) (t : Traffic) : Prop where
  fit : q.len ≤ CAP
  pos : q.wpos = q.rpos + q.len
  eof : q.eof = (t.shutW || t.shutR)
  stream : packet = false → t.sent.flatten = t.bytes ++ q.bytes
  packets : packet = true → q.mhead < MSGQ ∧ q.mcount ≤ MSGQ ∧ ∃ taken rest,
    t.sent = taken ++ rest ∧ rest.map List.length = q.sizes ∧ rest.flatten = q.bytes ∧
    (t.blank = false → List.Forall₂ Taken.Of t.got taken ∧ ∀ m ∈ rest, m ≠ [])

namespace Queue.Carries

variable {q : Queue} {t : Traffic} {len n : Nat} {src : Nat → UInt8} {files : List OpenFile}

theorem map_length (n : Nat) (src : Nat → UInt8) : ((List.range n).map src).length = n := by simp

theorem sum_sizes (h : q.Carries true t) : q.sizes.sum = q.len := by
  obtain ⟨-, -, taken, rest, -, hsizes, hrest, -⟩ := h.packets rfl
  rw [← hsizes, ← List.length_flatten, hrest, Queue.bytes, Ring.slice_length]

/-- **A write** that has not to wait queues all of a message, or what fits. -/
theorem send (h : q.Carries packet t) (hfull : ¬ q.full packet len)
    (hn : n = if packet then len else min len (CAP - q.len)) :
    (q.send packet n src files).Carries packet (t.sends ((List.range n).map src)) := by
  have hfit : q.len + n ≤ CAP := by
    have := h.fit
    unfold Queue.full at hfull
    cases packet <;> simp only [reduceIte, Bool.false_eq_true] at hn hfull <;> omega
  have hbytes : (q.send packet n src files).bytes = q.bytes ++ (List.range n).map src :=
    slice_ringPut hfit
  refine ⟨hfit, ?_, h.eof, fun hp => ?_, fun hp => ?_⟩
  · show q.wpos + n = q.rpos + (q.len + n)
    rw [h.pos, Nat.add_assoc]
  · rw [hbytes, Traffic.sends, List.flatten_append, h.stream hp]
    simp [Traffic.bytes]
  · subst hp
    obtain ⟨hhead, hm, taken, rest, hsent, hsizes, hrest, hgot⟩ := h.packets rfl
    have hroom : q.mcount + 1 ≤ MSGQ := by
      simp only [Queue.full, reduceIte] at hfull
      omega
    refine ⟨hhead, hroom, taken, rest ++ [(List.range n).map src], ?_, ?_, ?_, fun hb => ?_⟩
    · simp only [Traffic.sends, hsent, List.append_assoc]
    · rw [List.map_append, hsizes, List.map_singleton, map_length, send_sizes hroom]
    · rw [hbytes, List.flatten_append, hrest]
      simp
    · simp only [Traffic.sends, Bool.or_eq_false_iff] at hb
      obtain ⟨hgot, hne⟩ := hgot hb.1
      refine ⟨hgot, fun m hmem => ?_⟩
      rcases List.mem_append.mp hmem with hmem | hmem
      · exact hne m hmem
      · rw [List.mem_singleton.mp hmem]
        exact fun hnil => by simp [hnil] at hb

end Queue.Carries

/-! ### What a read takes -/

namespace Queue

variable {q : Queue} {t : Traffic} {len : Nat}

theorem streamLen_pos (hlen : 0 < len) (hq : q.len ≠ 0) : 0 < q.streamLen len := by
  unfold streamLen
  split
  · split <;> omega
  · omega

theorem streamLen_le (q : Queue) (len : Nat) : q.streamLen len ≤ q.len := by
  unfold streamLen
  split
  · split <;> omega
  · omega

theorem takeAtt_beside (q : Queue) :
    ∃ files atts, q.takeAtt = (files, { q with atts := atts }) := by
  unfold takeAtt
  split
  · split <;> exact ⟨_, _, rfl⟩
  · exact ⟨_, _, rfl⟩

theorem receive_stream (q : Queue) (len : Nat) : ∃ n files atts, n ≤ q.len ∧
    (q.len ≠ 0 → 0 < len → 0 < n) ∧ q.receive false len =
      (⟨n, false, ringGet q.ring CAP q.head n, files⟩, { q with atts := atts }.advance n) := by
  obtain ⟨files, atts, htake⟩ := q.takeAtt_beside
  refine ⟨({ q with atts := atts } : Queue).streamLen len, files, atts, streamLen_le .., ?_, ?_⟩
  · exact fun hq hlen => streamLen_pos hlen hq
  · rw [receive, htake]
    rfl

theorem receive_packet (q : Queue) (len : Nat) : ∃ files atts, q.receive true len =
    (⟨min len (q.msgs q.mhead), decide (len < q.msgs q.mhead),
        ringGet q.ring CAP q.head (min len (q.msgs q.mhead)), files⟩,
      ({ q with
          atts := atts, mhead := (q.mhead + 1) % MSGQ, mcount := q.mcount - 1 } : Queue).advance
        (q.msgs q.mhead)) := by
  obtain ⟨files, atts, htake⟩ := q.takeAtt_beside
  refine ⟨files, atts, ?_⟩
  rw [receive, htake]
  rfl

/-- What leaves with `consume` bytes, and what stays. -/
theorem bytes_split {consume : Nat} (h : consume ≤ q.len) :
    q.bytes = Ring.slice q.ring CAP q.head consume ++ (q.advance consume).bytes := by
  obtain ⟨m, hm⟩ := Nat.exists_eq_add_of_le h
  have hrest : q.len - consume = m := by omega
  rw [bytes, bytes, advance, hrest, hm, Ring.slice_add, Ring.slice_mod]

theorem advance_carries {n : Nat} {data : List UInt8} {trunc : Bool} {room : Nat}
    (h : q.Carries false t) (hn : n ≤ q.len) (hdata : data = Ring.slice q.ring CAP q.head n) :
    (q.advance n).Carries false { t with got := t.got ++ [⟨room, data, trunc⟩] } := by
  refine ⟨?_, ?_, h.eof, fun hp => ?_, nofun⟩
  · exact (Nat.sub_le ..).trans h.fit
  · have := h.pos
    show q.wpos = q.rpos + n + (q.len - n)
    omega
  · rw [h.stream hp, bytes_split hn, hdata]
    simp [Traffic.bytes]

theorem Carries.atts (h : q.Carries packet t) (atts : List Att) :
    ({ q with atts := atts } : Queue).Carries packet t :=
  ⟨h.fit, h.pos, h.eof, h.stream, h.packets⟩

theorem Carries.ended (h : q.Carries packet t) (b : Bool) :
    q.Carries packet { t with ended := b } :=
  ⟨h.fit, h.pos, h.eof, h.stream, h.packets⟩

theorem Carries.first (h : q.Carries true t) (hq : q.len ≠ 0) : ∃ taken m rest,
    t.sent = taken ++ m :: rest ∧ q.msgs q.mhead = m.length ∧ m.length ≤ q.len ∧
    m = Ring.slice q.ring CAP q.head m.length ∧
    rest.map List.length = Ring.slice q.msgs MSGQ (q.mhead + 1) (q.mcount - 1) ∧
    rest.flatten = (q.advance m.length).bytes ∧
    (t.blank = false → List.Forall₂ Taken.Of t.got taken ∧ ∀ x ∈ m :: rest, x ≠ []) := by
  obtain ⟨hhead, -, taken, rest, hsent, hsizes, hrest, hgot⟩ := h.packets rfl
  cases rest with
  | nil =>
      have hlen := congrArg List.length hrest
      rw [Queue.bytes, Ring.slice_length] at hlen
      exact absurd hlen.symm hq
  | cons m rest =>
      have hcount : q.mcount = 1 + rest.length := by
        have hlen := congrArg List.length hsizes
        rw [sizes, Ring.slice_length, List.length_map, List.length_cons] at hlen
        omega
      have hfirst : Ring.slice q.msgs MSGQ q.mhead 1 = [q.msgs q.mhead] := by
        simp only [Ring.slice, List.range_one, List.map_singleton, Nat.add_zero,
          Nat.mod_eq_of_lt hhead]
      rw [sizes, hcount, Ring.slice_add, hfirst, List.map_cons, List.singleton_append] at hsizes
      obtain ⟨hm, hsizes⟩ := List.cons.inj hsizes
      have hle : m.length ≤ q.len := by
        have hlen := congrArg List.length hrest
        rw [Queue.bytes, Ring.slice_length, List.flatten_cons, List.length_append] at hlen
        omega
      rw [bytes_split hle, List.flatten_cons] at hrest
      obtain ⟨hbytes, hrest⟩ := List.append_inj hrest (Ring.slice_length ..).symm
      refine ⟨taken, m, rest, hsent, hm.symm, hle, hbytes, ?_, hrest, hgot⟩
      rw [hsizes, hcount, Nat.add_sub_cancel_left]

theorem Carries.delivers (h : q.Carries packet t) (hq : q.len ≠ 0)
    (hb : packet = true → t.blank = false) (len : Nat) :
    ¬ (q.receive packet len).1.IsEnd packet len := by
  rintro ⟨hzero, htrunc, hp⟩
  cases packet with
  | false =>
      obtain ⟨n, files, atts, -, hpos, hr⟩ := q.receive_stream len
      rw [hr] at hzero
      exact (hpos hq (hp.resolve_left nofun)).ne' hzero
  | true =>
      obtain ⟨taken, m, rest, -, hm, -, -, -, -, hgot⟩ := h.first hq
      obtain ⟨files, atts, hr⟩ := q.receive_packet len
      rw [hr, hm] at hzero htrunc
      have hnone : min len m.length = 0 := hzero
      have hall : ¬ len < m.length := of_decide_eq_false htrunc
      exact (hgot (hb rfl)).2 m List.mem_cons_self (List.length_eq_zero_iff.mp (by omega))

/-- **A read** of a queue that has bytes takes the first message, or bytes of the stream. -/
theorem Carries.receive (h : q.Carries packet t) (hq : q.len ≠ 0) (len : Nat) :
    (q.receive packet len).2.Carries packet (t.reads packet len (q.receive packet len).1) := by
  have hdel := fun hb => h.delivers hq hb len
  cases packet with
  | false =>
      rw [Traffic.reads, if_neg (hdel nofun)]
      obtain ⟨n, files, atts, hn, -, hr⟩ := q.receive_stream len
      rw [hr]
      exact advance_carries (h.atts atts) hn (map_ringGet q.ring CAP q.head n)
  | true =>
      obtain ⟨taken, m, rest, hsent, hm, hle, hbytes, hsizes, hrest, hgot⟩ := h.first hq
      obtain ⟨files, atts, hr⟩ := q.receive_packet len
      rw [hr, hm] at hdel ⊢
      have hsame : ∀ r, (t.reads true len r).sent = t.sent ∧ (t.reads true len r).blank = t.blank ∧
          (t.reads true len r).shutW = t.shutW ∧ (t.reads true len r).shutR = t.shutR := fun r => by
        rw [Traffic.reads]
        split <;> exact ⟨rfl, rfl, rfl, rfl⟩
      refine ⟨(Nat.sub_le ..).trans h.fit, ?_, ?_, nofun, fun _ => ?_⟩
      · have := h.pos
        show q.wpos = q.rpos + m.length + (q.len - m.length)
        omega
      · rw [(hsame _).2.2.1, (hsame _).2.2.2]
        exact h.eof
      · obtain ⟨-, hm, -⟩ := h.packets rfl
        rw [(hsame _).1, (hsame _).2.1]
        refine ⟨Nat.mod_lt _ (by decide), (Nat.sub_le ..).trans hm, taken ++ [m], rest, ?_, ?_,
          hrest, fun hb => ?_⟩
        · rw [List.append_assoc, List.singleton_append, ← hsent]
        · rw [hsizes]
          exact (Ring.slice_mod ..).symm
        · obtain ⟨hgot, hne⟩ := hgot hb
          rw [Traffic.reads, if_neg (hdel fun _ => hb)]
          refine ⟨List.rel_append hgot (.cons ⟨?_, rfl⟩ .nil), fun x hx => hne x (.tail _ hx)⟩
          show (List.range _).map _ = _
          rw [map_ringGet, Ring.slice_take (Nat.min_le_right ..), ← hbytes, ← List.take_eq_take_min]

theorem Carries.nothing (h : q.Carries packet t) (len : Nat) (files : List OpenFile) :
    q.Carries packet (t.reads packet len ⟨0, false, fun _ => 0, files⟩) := by
  rw [Traffic.reads]
  split
  · exact h.ended true
  · rename_i hend
    refine ⟨h.fit, h.pos, h.eof, fun hp => ?_, fun hp => absurd ⟨rfl, rfl, .inl hp⟩ hend⟩
    rw [h.stream hp]
    simp [Traffic.bytes, Received.bytes]

theorem Carries.shuts (h : q.Carries packet t) {d how : Nat} {b : Bool}
    (hb : b = decide (d = 1 - e ∧ how ≠ 0 ∨ d = e ∧ how ≠ 1)) :
    ({ q with eof := q.eof || b } : Queue).Carries packet (t.shuts e d how) := by
  refine ⟨h.fit, h.pos, ?_, h.stream, h.packets⟩
  rw [h.eof, hb, Bool.decide_or]
  simp only [Traffic.shuts, Bool.or_assoc, Bool.or_left_comm]

end Queue

/-! ### What the operations do to the connection -/

/-- The connection with another queue for one of its ends. -/
def Conn.setQ (x : Conn) (e : Nat) (q : Queue) : Conn := { x with q := Function.update x.q e q }

theorem setQueue_conns (q : Queue) : (k.setQueue c e q).conns c = (k.conns c).setQ e q := by
  simp [K.setQueue, K.setConn, Conn.setQ]

theorem unixWrite_conn {d len : Nat} {src : Nat → UInt8} {nonblock : Bool} {files : List OpenFile} :
    wp (unixWrite c d src len nonblock files)
      (fun n k' => ¬ ((k.conns c).q (1 - d)).full (k.conns c).packet len ∧
        n = (if (k.conns c).packet then len else min len (CAP - ((k.conns c).q (1 - d)).len)) ∧
        k'.conns = (k.setQueue c (1 - d)
          (((k.conns c).q (1 - d)).send (k.conns c).packet n src files)).conns)
      (fun _ k' => k'.conns = k.conns) k := by
  simp only [unixWrite, wp_bind, wp_get, wp_set, wp_ite, wp_pure, wp_throw, wp_wouldBlock]
  refine ⟨fun _ => trivial, fun _ => ⟨fun _ => trivial, fun _ => ⟨fun _ => ⟨fun _ => trivial,
    fun _ => trivial⟩, fun hfull => ⟨fun _ => trivial, fun _ => ⟨hfull, trivial, ?_⟩⟩⟩⟩⟩
  rw [pushWake_conns]

theorem unixRead_conn {d len : Nat} {nonblock : Bool} :
    wp (unixRead c d len nonblock)
      (fun r k' => ((k.conns c).q d).len = 0 ∧
          ((k.conns c).refs (1 - d) = 0 ∨ ((k.conns c).q d).eof = true) ∧
          r = ⟨0, false, fun _ => 0, []⟩ ∧ k' = k ∨
        ((k.conns c).q d).len ≠ 0 ∧ r = (((k.conns c).q d).receive (k.conns c).packet len).1 ∧
          k'.conns =
            (k.setQueue c d (((k.conns c).q d).receive (k.conns c).packet len).2).conns)
      (fun _ k' => k'.conns = k.conns) k := by
  simp only [unixRead, wp_bind, wp_get, wp_set, wp_ite, wp_pure, wp_throw, wp_wouldBlock]
  refine ⟨fun hz => ⟨fun hend => .inl ⟨hz, hend, trivial, trivial⟩,
    fun _ => ⟨fun _ => trivial, fun _ => trivial⟩⟩, fun hz => .inr ⟨hz, trivial, ?_⟩⟩
  rw [pushWake_conns]

theorem unixShutdown_conn {d how : Nat} (hd : d < 2) :
    ∃ q, (unixShutdown c d how k).conns c = { k.conns c with q := q } ∧ ∀ e < 2,
      q e = { (k.conns c).q e with
        eof := ((k.conns c).q e).eof || decide (d = 1 - e ∧ how ≠ 0 ∨ d = e ∧ how ≠ 1) } := by
  have hne : 1 - d ≠ d := by omega
  have hback : 1 - (1 - d) = d := by omega
  unfold unixShutdown
  dsimp only
  split <;> split <;> rename_i hw hr <;>
    try simp only [pushWake_conns, setQueue_conns, Conn.setQ]
  all_goals
    refine ⟨_, rfl, fun e he => ?_⟩
    obtain rfl | rfl : e = d ∨ e = 1 - d := by omega
    all_goals simp [hne, hne.symm, hback, hw, hr]

theorem dropEnd_conn {d : Nat} : ((dropEnd c d k).2.conns c) =
    let x := { k.conns c with
      refs := Function.update (k.conns c).refs d ((k.conns c).refs d - 1) }
    if x.refs 0 = 0 ∧ x.refs 1 = 0 then CEMPTY else x := by
  simp only [dropEnd]
  split <;> split <;> simp [K.setConn]

/-! ### Whole runs -/

/-- What arrived is the first part of what was sent, byte by byte or message by message. -/
def Traffic.InOrder (t : Traffic) (packet : Bool) : Prop :=
  (packet = false → t.bytes <+: t.sent.flatten) ∧
  (packet = true → t.blank = false → ∃ taken, taken <+: t.sent ∧ List.Forall₂ Taken.Of t.got taken)

/-- A connection that has descriptors; once the end was reported, nothing more comes. -/
structure Conn.Live (x : Conn) (packet : Bool) (e : Nat) (t : Traffic) : Prop where
  kind : x.packet = packet
  carries : (x.q e).Carries packet t
  final : t.ended = true → t.late = false → (packet = true → t.blank = false) →
    (x.q e).len = 0 ∧ (x.refs (1 - e) = 0 ∨ (x.q e).eof = true)

/-- A connection that has descriptors, or is gone. -/
def Conn.Tracks (x : Conn) (packet : Bool) (e : Nat) (t : Traffic) : Prop :=
  x.Live packet e t ∨
    (∀ d < 2, x.refs d = 0) ∧ x.packet = false ∧ x.q e = QEMPTY ∧ t.InOrder packet

theorem Queue.Carries.inOrder {q : Queue} {t : Traffic} (h : q.Carries packet t) :
    t.InOrder packet := by
  refine ⟨fun hp => ⟨q.bytes, (h.stream hp).symm⟩, fun hp hb => ?_⟩
  obtain ⟨-, -, taken, rest, hsent, -, -, hgot⟩ := h.packets hp
  exact ⟨taken, ⟨rest, hsent.symm⟩, (hgot hb).1⟩

namespace Conn

variable {x : Conn} {t : Traffic} {d len n how : Nat} {src : Nat → UInt8} {files : List OpenFile}

theorem Tracks.inOrder (h : x.Tracks packet e t) : t.InOrder packet := by
  rcases h with h | ⟨-, -, -, h⟩
  · exact h.carries.inOrder
  · exact h

theorem Tracks.live (h : x.Tracks packet e t) (hd : d < 2) (hr : 0 < x.refs d) :
    x.Live packet e t := by
  rcases h with h | ⟨hgone, -⟩
  · exact h
  · exact absurd (hgone d hd) hr.ne'

theorem Live.send (h : x.Live packet e t) (hr : 0 < x.refs (1 - e))
    (hfull : ¬ (x.q e).full x.packet len)
    (hn : n = if x.packet then len else min len (CAP - (x.q e).len)) :
    (x.setQ e ((x.q e).send x.packet n src files)).Live packet e
      (t.sends ((List.range n).map src)) := by
  obtain ⟨rfl, hc, hf⟩ := h
  refine ⟨rfl, ?_, fun hend hl hb => ?_⟩
  · simpa [setQ] using hc.send hfull hn
  · simp only [Traffic.sends, Bool.or_eq_false_iff] at hl hb
    obtain ⟨-, hgone | heof⟩ := hf hend hl.1.1 fun hp => (hb hp).1
    · exact absurd hgone hr.ne'
    · rw [hc.eof, hl.1.2, hl.2] at heof
      cases heof

theorem Live.receive (h : x.Live packet e t) (hq : (x.q e).len ≠ 0) (len : Nat) :
    (x.setQ e ((x.q e).receive x.packet len).2).Live packet e
      (t.reads x.packet len ((x.q e).receive x.packet len).1) := by
  obtain ⟨rfl, hc, hf⟩ := h
  refine ⟨rfl, ?_, fun hend hl hb => ?_⟩
  · simpa [setQ] using hc.receive hq len
  · rw [Traffic.reads] at hend hl hb
    split at hend <;> rename_i hi
    · rw [if_pos hi] at hb
      exact absurd hi (hc.delivers hq hb len)
    · rw [if_neg hi] at hl hb
      exact absurd (hf hend hl hb).1 hq

theorem Live.nothing (h : x.Live packet e t) (hq : (x.q e).len = 0)
    (hend : x.refs (1 - e) = 0 ∨ (x.q e).eof = true) (len : Nat) :
    x.Live packet e (t.reads packet len ⟨0, false, fun _ => 0, []⟩) :=
  ⟨h.kind, h.carries.nothing len [], fun _ _ _ => ⟨hq, hend⟩⟩

theorem Live.beside (h : x.Live packet e t) {q : Queue} (hd : d ≠ e) :
    (x.setQ d q).Live packet e t := by
  refine ⟨h.kind, ?_, ?_⟩
  · simpa [setQ, Function.update_of_ne hd.symm] using h.carries
  · simpa [setQ, Function.update_of_ne hd.symm] using h.final

theorem Live.shuts (h : x.Live packet e t) {q : Nat → Queue}
    (hq : q e = { x.q e with
      eof := (x.q e).eof || decide (d = 1 - e ∧ how ≠ 0 ∨ d = e ∧ how ≠ 1) }) :
    ({ x with q := q } : Conn).Live packet e (t.shuts e d how) := by
  refine ⟨h.kind, ?_, fun hend hl hb => ?_⟩
  · show (q e).Carries ..
    rw [hq]
    exact h.carries.shuts rfl
  · obtain ⟨hzero, hgone⟩ := h.final hend hl hb
    show (q e).len = 0 ∧ (_ ∨ (q e).eof = true)
    rw [hq]
    exact ⟨hzero, hgone.imp id fun heof => by rw [heof, Bool.true_or]⟩

theorem Live.refs (h : x.Live packet e t) {refs : Nat → Nat}
    (hr : x.refs (1 - e) = 0 → refs (1 - e) = 0) :
    ({ x with refs := refs } : Conn).Live packet e t :=
  ⟨h.kind, h.carries, fun hend hl hb => (h.final hend hl hb).imp id (Or.imp hr id)⟩

end Conn

/-- **Each act** keeps the account of a direction. -/
theorem Conn.Tracks.step {t : Traffic} {a : UnixAct V} {k' : K V} (he : e < 2)
    (h : (k.conns c).Tracks packet e t) (hs : unixStep c k a = some k') :
    (k'.conns c).Tracks packet e (t.note c e k a k') := by
  obtain ⟨hact, hk⟩ := (Option.ite_none_right_eq_some ..).mp hs
  obtain rfl := Option.some.inj hk
  cases a with
  | write d src len nonblock files =>
      obtain ⟨hd, hr⟩ := hact d rfl
      have hlive := h.live hd hr
      simp only [UnixAct.after, Prog.after, Traffic.note]
      cases hx : unixWrite c d src len nonblock files k with
      | error x k' =>
          have hsame := unixWrite_conn.error hx
          simp only [hsame]
          exact .inl hlive
      | ok n k' =>
          obtain ⟨hfull, hn, hconn⟩ := unixWrite_conn.ok hx
          simp only [hconn, setQueue_conns]
          split
          · rename_i hde
            have hed : 1 - d = e := by omega
            rw [hed] at hfull hn ⊢
            exact .inl (hlive.send (hde ▸ hr) hfull hn)
          · exact .inl (hlive.beside (by omega))
  | read d len nonblock =>
      obtain ⟨hd, hr⟩ := hact d rfl
      have hlive := h.live hd hr
      simp only [UnixAct.after, Prog.after, Traffic.note]
      cases hx : unixRead c d len nonblock k with
      | error x k' =>
          have hsame := unixRead_conn.error hx
          simp only [hsame]
          exact .inl hlive
      | ok r k' =>
          dsimp only
          rcases unixRead_conn.ok hx with ⟨hq, hend, rfl, rfl⟩ | ⟨hq, rfl, hconn⟩
          · split
            · rename_i hde
              subst hde
              rw [hlive.kind]
              exact .inl (hlive.nothing hq hend len)
            · exact .inl hlive
          · simp only [hconn, setQueue_conns]
            split
            · rename_i hde
              subst hde
              exact .inl (hlive.receive hq len)
            · rename_i hde
              exact .inl (hlive.beside hde)
  | shutdown d how =>
      obtain ⟨hd, hr⟩ := hact d rfl
      obtain ⟨q, hconn, hq⟩ := @unixShutdown_conn _ k c d how hd
      simp only [UnixAct.after, Traffic.note, hconn]
      exact .inl ((h.live hd hr).shuts (hq e he))
  | addRef d =>
      obtain ⟨hd, hr⟩ := hact d rfl
      have hc : (unixEnd c d).ino / 2 = c := by simp only [unixEnd]; omega
      have hm : (unixEnd c d).ino % 2 = d := by simp only [unixEnd]; omega
      have hconn : ((addRef (unixEnd c d) k).conns c) = { k.conns c with
          refs := Function.update (k.conns c).refs d ((k.conns c).refs d + 1) } := by
        simp only [addRef, show (unixEnd c d).kind = .unix from rfl, hc, hm, K.setConn,
          Function.update_self]
      simp only [UnixAct.after, Traffic.note, hconn]
      refine .inl ((h.live hd hr).refs fun hz => ?_)
      by_cases hde : 1 - e = d
      · exact absurd (hde ▸ hz) hr.ne'
      · rwa [Function.update_of_ne hde]
  | dropRef d =>
      obtain ⟨hd, hr⟩ := hact d rfl
      have hlive := h.live hd hr
      simp only [UnixAct.after, Traffic.note, dropEnd_conn]
      split
      · exact .inr ⟨fun _ _ => rfl, rfl, rfl, hlive.carries.inOrder⟩
      · refine .inl (hlive.refs fun hz => ?_)
        by_cases hde : 1 - e = d
        · subst hde
          rw [Function.update_self, hz]
        · rwa [Function.update_of_ne hde]
  | other f =>
      have hconn : (((f k).setConn c { k.conns c with port := ((f k).conns c).port }).conns c) =
          { k.conns c with port := ((f k).conns c).port } := by
        simp only [K.setConn, Function.update_self]
      simp only [UnixAct.after, Traffic.note, hconn]
      exact h.imp (fun h => ⟨h.kind, h.carries, h.final⟩) id

theorem connNew_conn : wp (connNew packet) (fun c k' => ∃ a b, k'.conns c = { CEMPTY with
    used := true, packet := packet
    q := fun e => { QEMPTY with buf := if e = 0 then a else b }, refs := fun _ => 1 })
    (fun _ _ => True) k := by
  simp only [connNew, wp_bind, wp_get]
  refine wp_position (fun c hc hfree => ?_) trivial
  rw [wp_bind]
  refine wp_allocContig ?_ trivial
  rw [wp_bind]
  refine wp_allocContig ?_ trivial
  simp only [wp_bind, wp_modify, wp_pure]
  exact ⟨_, _, Function.update_self ..⟩

/-- The runs of a connection from its beginning, with the note of the direction to end `e`. -/
abbrev Passing (packet : Bool) (c e : Nat) : K V × Traffic → Prop :=
  Noted (unixStep c) (Traffic.note c e) (fun k => ∃ k₀, connNew packet k₀ = .ok c k) .none
    fun _ _ => True

theorem Passing.tracks {t : Traffic} (he : e < 2) (h : Passing packet c e (k, t)) :
    (k.conns c).Tracks packet e t := by
  refine Noted.invariant (I := fun k t => (k.conns c).Tracks packet e t) ?_ ?_ h
  · rintro k ⟨k₀, hk⟩
    obtain ⟨a, b, hconn⟩ := connNew_conn.ok hk
    rw [hconn]
    refine .inl ⟨rfl, ⟨Nat.zero_le _, rfl, rfl, fun _ => rfl, fun _ => ?_⟩, nofun⟩
    exact ⟨Nat.zero_lt_succ _, Nat.zero_le _, [], [], rfl, rfl, rfl, fun _ => ⟨.nil, nofun⟩⟩
  · exact fun k a k' t h _ hs => h.step he hs

/-- Everything that was sent has arrived. -/
def Traffic.Drained (t : Traffic) (packet : Bool) : Prop :=
  (packet = false → t.bytes = t.sent.flatten) ∧ (packet = true → t.got.length = t.sent.length)

theorem Queue.Carries.drained {q : Queue} {t : Traffic} (h : q.Carries packet t) (hq : q.len = 0)
    (hb : packet = true → t.blank = false) : t.Drained packet := by
  have hnone : q.bytes = [] := by rw [Queue.bytes, hq, Ring.slice_zero]
  refine ⟨fun hp => ?_, fun hp => ?_⟩
  · rw [h.stream hp, hnone, List.append_nil]
  · obtain ⟨-, -, taken, rest, hsent, -, hrest, hgot⟩ := h.packets hp
    obtain ⟨hgot, hne⟩ := hgot (hb hp)
    have hrest : rest = [] := by
      cases rest with
      | nil => rfl
      | cons m rest =>
          rw [hnone, List.flatten_cons] at hrest
          exact absurd (List.append_eq_nil_iff.mp hrest).1 (hne m List.mem_cons_self)
    rw [hsent, hrest, List.append_nil, hgot.length_eq]

theorem unixRead_end {len : Nat} {nonblock : Bool} (hq : ((k.conns c).q e).len = 0)
    (hend : (k.conns c).refs (1 - e) = 0 ∨ ((k.conns c).q e).eof = true) :
    unixRead c e len nonblock k = .ok ⟨0, false, fun _ => 0, []⟩ k := by
  have hspec : wp (unixRead c e len nonblock) (fun r k' => r = ⟨0, false, fun _ => 0, []⟩ ∧ k' = k)
      (fun _ _ => False) k := by
    simp only [unixRead, wp_bind, wp_get, hq, hend, reduceIte, wp_pure, true_and]
  obtain ⟨r, k', hx, rfl, rfl⟩ := hspec.returns
  exact hx

/-- The positions of a queue are within its capacity, and the messages in it add up. -/
def Queue.Within (q : Queue) (packet : Bool) : Prop :=
  q.rpos ≤ q.wpos ∧ q.wpos - q.rpos ≤ CAP ∧ (packet = true → q.sizes.sum = q.wpos - q.rpos)

/-- **A direction of a connection**, after any run.  What arrived is the first part of what was
sent, byte by byte or message by message.  A read reports the end only when everything has arrived
and nothing more can, and then each read does, as long as nothing is sent after a shutdown.  The
queue keeps within its capacity. -/
theorem unix_in_order {t : Traffic} (he : e < 2) (h : Passing packet c e (k, t)) :
    t.InOrder packet ∧
    (0 < (k.conns c).refs e → (packet = true → t.blank = false) → ∀ len nonblock r k',
      unixRead c e len nonblock k = .ok r k' → r.IsEnd packet len →
      (t.shutW = true ∨ t.shutR = true ∨ (k.conns c).refs (1 - e) = 0) ∧ t.Drained packet) ∧
    (t.ended = true → t.late = false → (packet = true → t.blank = false) → ∀ len nonblock,
      ∃ r, unixRead c e len nonblock k = .ok r k ∧ r.n = 0 ∧ r.trunc = false) ∧
    ((k.conns c).q e).Within (k.conns c).packet := by
  have htracks := h.tracks he
  refine ⟨htracks.inOrder, fun hr hb len nonblock r k' hx hend => ?_,
    fun hend hl hb len nonblock => ?_, ?_⟩
  · have hlive := htracks.live he hr
    rcases unixRead_conn.ok hx with ⟨hq, hgone, -, -⟩ | ⟨hq, rfl, -⟩
    · refine ⟨?_, hlive.carries.drained hq hb⟩
      rcases hgone with hgone | heof
      · exact .inr (.inr hgone)
      · rw [hlive.carries.eof, Bool.or_eq_true] at heof
        exact heof.imp id .inl
    · rw [hlive.kind] at hend
      exact absurd hend (hlive.carries.delivers hq hb len)
  · have hzero : ((k.conns c).q e).len = 0 ∧
        ((k.conns c).refs (1 - e) = 0 ∨ ((k.conns c).q e).eof = true) := by
      rcases htracks with hlive | ⟨hgone, -, hq, -⟩
      · exact hlive.final hend hl hb
      · exact ⟨by rw [hq]; rfl, .inl (hgone _ (by omega))⟩
    exact ⟨_, unixRead_end hzero.1 hzero.2, rfl, rfl⟩
  · rcases htracks with hlive | ⟨-, hp, hq, -⟩
    · have hpos := hlive.carries.pos
      refine ⟨by omega, ?_, fun hp => ?_⟩
      · have := hlive.carries.fit
        omega
      · have hc := hlive.carries
        rw [← hlive.kind, hp] at hc
        rw [hc.sum_sizes]
        omega
    · rw [hq, hp]
      exact ⟨Nat.le_refl _, Nat.zero_le _, nofun⟩

/-! ### Runs of the first connection -/

/-- The first connection of all, and its direction to end 0 after the acts of a run. -/
def firstRun (packet : Bool) (acts : List (UnixAct Unit)) : Option (K Unit × Traffic) :=
  Runs.run (Runs.noted (unixStep 0) (Traffic.note 0 0)) (fun _ _ => True) acts
    ((connNew packet).after (K.boot () fun _ => true), .none)

theorem firstRun_passing {acts : List (UnixAct Unit)} {x : K Unit × Traffic}
    (h : firstRun packet acts = some x) : Passing packet 0 0 x := by
  have hfree : (List.range MAX_CONNS).find? (fun c => !((K.boot () fun _ => true).conns c).used) =
      some 0 := by
    decide +kernel
  have hnew : wp (connNew packet) (fun c _ => c = 0) (fun _ _ => False)
      (K.boot () fun _ => true) := by
    simp only [connNew, wp_bind, wp_get, position, hfree, wp_pure, allocContig, wp_set, wp_ite,
      wp_modify]
    simp [K.boot]
  obtain ⟨c, k, hx, rfl⟩ := hnew.returns
  have hstart : Passing packet 0 0 ((connNew packet).after (K.boot () fun _ => true), .none) :=
    by
    rw [Prog.after, hx]
    exact Noted.start ⟨_, hx⟩
  exact Reached.run hstart h

/-- An end that was shut down for reading reports the end to itself. -/
theorem shut_for_reading : ¬ ∀ (k : K Unit) (t : Traffic), Passing false 0 0 (k, t) →
    t.ended = true → t.shutW = true ∨ (k.conns 0).refs 1 = 0 := by
  intro hall
  have hrun : (firstRun false [.shutdown 0 0, .read 0 10 false]).any (fun x =>
      decide (x.2.ended = true ∧ x.2.shutW = false ∧ (x.1.conns 0).refs 1 = 1)) = true := by
    decide +kernel
  obtain ⟨x, hx, hc⟩ := (Option.any_eq_true _ _).mp hrun
  obtain ⟨hended, hshut, hrefs⟩ := of_decide_eq_true hc
  rcases hall x.1 x.2 (firstRun_passing hx) hended with h | h
  · exact absurd (h.symm.trans hshut) nofun
  · exact absurd (hrefs.symm.trans h) (by decide)

/-- Three bytes are sent, two are read, the sender shuts down, the rest is read, and the end. -/
theorem unix_in_order_run : ∃ (k : K Unit) (t : Traffic), t.sent = [[1, 2, 3]] ∧
    t.bytes = [1, 2, 3] ∧ t.InOrder false ∧ ∀ len nonblock,
      ∃ r, unixRead 0 0 len nonblock k = .ok r k ∧ r.n = 0 ∧ r.trunc = false := by
  have hrun : (firstRun false [.write 1 (fun i => UInt8.ofNat (i + 1)) 3 false [],
      .read 0 2 false, .shutdown 1 1, .read 0 10 false, .read 0 10 false]).any (fun x =>
      decide (x.2.sent = [[1, 2, 3]] ∧ x.2.bytes = [1, 2, 3] ∧ x.2.ended = true ∧
        x.2.late = false)) = true := by
    decide +kernel
  obtain ⟨x, hx, hc⟩ := (Option.any_eq_true _ _).mp hrun
  obtain ⟨hsent, hbytes, hended, hlate⟩ := of_decide_eq_true hc
  obtain ⟨horder, -, hfinal, -⟩ := unix_in_order (by decide) (firstRun_passing hx)
  exact ⟨x.1, x.2, hsent, hbytes, horder, hfinal hended hlate nofun⟩

end Pulsar.Kernel

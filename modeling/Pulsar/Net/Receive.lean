import Pulsar.Net.Link

/-!
# What TCP receives (`net.rs`)

The peer of a connection sends a stream, cut into segments as it likes; they arrive in any order,
any number of times.  The numbers of a segment, which are modulo `2 ^ 32`, tell where it lies
(`Near`) unless it is `2 ^ 32` bytes late or early.  A FIN whose data is all old is not
taken, though all the data before it is in (`Fresh` excludes it).

* `received_in_order`: what `tcp_recv` returns is the stream, as far as it goes, and the FIN is
  taken when all of it is in.
* `fin_taken_iff`: the FIN is taken then exactly if its own data is not all old.
* `fin_lost`: a FIN that is not.
-/

namespace Pulsar.Net

/-- What a peer sends: the number of its SYN, and its bytes. -/
structure Peer where
  isn : UInt32
  stream : List UInt8

/-- A segment is cut from the stream at `p`; the FIN comes at its end. -/
structure Peer.Cut (P : Peer) (p : Nat) (s : Segment) : Prop where
  seq : s.seq = Seq.nth P.isn (1 + p)
  data : s.data <+: P.stream.drop p
  fin : has s.flags FIN = true → p + s.data.length = P.stream.length

theorem Peer.cut_iff {P : Peer} {p : Nat} {s : Segment} : P.Cut p s ↔
    s.seq = Seq.nth P.isn (1 + p) ∧ s.data <+: P.stream.drop p ∧
      (has s.flags FIN = true → p + s.data.length = P.stream.length) :=
  ⟨fun h => ⟨h.seq, h.data, h.fin⟩, fun ⟨h₁, h₂, h₃⟩ => ⟨h₁, h₂, h₃⟩⟩

/-- A segment of a peer: a RST, one without data, which may be the SYN, or one cut from the stream at
a place with `C`. -/
def Peer.Sends (P : Peer) (C : Nat → Prop) (s : Segment) : Prop :=
  has s.flags RST = true ∨
  (s.data = [] ∧ has s.flags FIN = false ∧ (has s.flags SYN = true → s.seq = P.isn)) ∨
  (has s.flags SYN = false ∧ ∃ p ≤ P.stream.length, P.Cut p s ∧ C p)

/-- The numbers of a segment, where the next one expected is among them, tell where it lies. -/
def Near (t : Tcp) (L : Link) (s : Segment) (p : Nat) : Prop :=
  t.state ≠ .synSent → (t.rcvNxt - s.seq).toNat < s.data.length + (has s.flags FIN).toNat →
    L.up = true ∧ L.taken t = p + (t.rcvNxt - s.seq).toNat

/-- A FIN does not come with old data only. -/
def Fresh (t : Tcp) (L : Link) (s : Segment) (p : Nat) : Prop :=
  t.state = .established → has s.flags FIN = true → s.data ≠ [] → L.taken t ≠ p + s.data.length

/-- A segment lies where its numbers say, and its FIN does not come with old data only. -/
def Plain (t : Tcp) (L : Link) (s : Segment) (p : Nat) : Prop := Near t L s p ∧ Fresh t L s p

/-- Each segment that arrives is one of the peer of its connection, at a place with `C`. -/
def Conveys (C : Tcp → Link → Segment → Nat → Prop) (peer : Nat → Peer) (x : Stack × Log)
    (e : Event) : Prop :=
  ∀ h now s, x.1.actAt h e = some (.input now s) →
    (peer (x.2.link h).id).Sends (C (x.1.tcps h) (x.2.link h) s) s

/-- What came in is the stream as far as it was taken, and the next number expected says how far. -/
structure InOrder (P : Peer) (t : Tcp) (L : Link) : Prop where
  bytes : L.returned ++ Ring.slice t.rx RXCAP t.rxHead t.rxLen = P.stream.take (L.taken t)
  le : L.taken t ≤ P.stream.length
  fits : t.rxLen ≤ RXCAP
  number : L.up = true → t.rcvNxt = Seq.nth P.isn (1 + L.taken t + L.fin.toNat)
  whole : L.fin = true → L.taken t = P.stream.length
  empty : L.up = false → L.taken t = 0 ∧ L.fin = false
  syn : t.state = .synSent → L.up = false
  open' : t.state = .established → L.up = true ∧ L.fin = false
  over' : t.state = .peerClosed → L.up = true ∧ L.fin = true

variable {P : Peer} {t u : Tcp} {L M : Link} {s : Segment} {p now : Nat}

/-- Two connections have received the same. -/
def SameIn (t u : Tcp) : Prop :=
  u.rcvNxt = t.rcvNxt ∧ u.rx = t.rx ∧ u.rxHead = t.rxHead ∧ u.rxLen = t.rxLen

theorem Tcp.Beside.sameIn (h : t.Beside u) : SameIn t u := by
  rw [Beside] at h
  rw [h]
  exact ⟨rfl, rfl, rfl, rfl⟩

theorem InOrder.congr (h : InOrder P t L) (hs : SameIn t u)
    (hst : u.state = t.state ∨ u.state = .error ∨ u.state = .free)
    (hr : M.returned = L.returned) (hu : M.up = L.up) (hf : M.fin = L.fin) : InOrder P u M := by
  obtain ⟨h₁, h₂, h₃, h₄⟩ := hs
  have ht : M.taken u = L.taken t := by rw [Link.taken, Link.taken, hr, h₄]
  constructor
  · rw [hr, h₂, h₃, h₄, ht]
    exact h.bytes
  · rw [ht]
    exact h.le
  · rw [h₄]
    exact h.fits
  · rw [hu, hf, h₁, ht]
    exact h.number
  · rw [hf, ht]
    exact h.whole
  · rw [hu, hf, ht]
    exact h.empty
  · rcases hst with e | e | e <;> rw [e, hu]
    · exact h.syn
    all_goals exact fun e => absurd e (by decide)
  · rcases hst with e | e | e <;> rw [e, hu, hf]
    · exact h.open'
    all_goals exact fun e => absurd e (by decide)
  · rcases hst with e | e | e <;> rw [e, hu, hf]
    · exact h.over'
    all_goals exact fun e => absurd e (by decide)

theorem InOrder.up_eq (h : InOrder P t L)
    (hst : u.state = t.state ∨ u.state = .error ∨ u.state = .free) :
    (L.up || decide (u.state = .established)) = L.up ∧
      (L.fin || decide (u.state = .peerClosed)) = L.fin := by
  rcases hst with e | e | e <;> rw [e]
  · constructor
    · by_cases e' : t.state = .established
      · simp [(h.open' e').1]
      · simp [e']
    · by_cases e' : t.state = .peerClosed
      · simp [(h.over' e').2]
      · simp [e']
  all_goals simp

/-! ### One act -/

theorem InOrder.quiet {a : Act} (h : InOrder P t L) (hs : SameIn t (t.act a).1)
    (hst : (t.act a).1.state = t.state ∨ (t.act a).1.state = .error ∨ (t.act a).1.state = .free)
    (hr : Link.returns t a = []) : InOrder P (t.act a).1 (L.next t a) := by
  refine h.congr hs hst ?_ (h.up_eq hst).1 (h.up_eq hst).2
  rw [Link.next_returned, hr, List.append_nil]

theorem ackIn_same (t : Tcp) (now : Nat) (s : Segment) :
    SameIn t (t.ackIn now s) ∧ (t.ackIn now s).state = t.state := by
  simp only [Tcp.ackIn]
  split
  · split <;> exact ⟨⟨rfl, rfl, rfl, rfl⟩, rfl⟩
  · exact ⟨⟨rfl, rfl, rfl, rfl⟩, rfl⟩

/-- How many bytes of `d` have room. -/
def room (t : Tcp) (d : List UInt8) : Nat := min d.length (RXCAP - t.rxLen)

theorem InOrder.accept {d : List UInt8} (h : InOrder P t L) (hup : L.up = true)
    (hd : d <+: P.stream.drop (L.taken t)) (hf : L.fin = true → d = []) :
    InOrder P (t.accept d) L ∧ L.taken (t.accept d) = L.taken t + room t d := by
  have hlen := hd.length_le
  rw [List.length_drop] at hlen
  have hroom : room t d ≤ d.length ∧ room t d ≤ RXCAP - t.rxLen :=
    ⟨Nat.min_le_left .., Nat.min_le_right ..⟩
  have htake : (d.take (room t d)).length = room t d := List.length_take_of_le hroom.1
  have htaken : L.taken (t.accept d) = L.taken t + room t d := (Nat.add_assoc ..).symm
  have hfit := h.fits
  have hle := h.le
  have hnone : L.fin = true → room t d = 0 := fun e => by
    rw [hf e, List.length_nil] at hlen hroom
    exact Nat.le_zero.mp (hf e ▸ hroom.1)
  refine ⟨?_, htaken⟩
  constructor
  · have hnext : d.take (room t d) = (P.stream.drop (L.taken t)).take (room t d) := by
      obtain ⟨rest, hrest⟩ := hd
      rw [← hrest, List.take_append_of_le_length hroom.1]
    have hslice : Ring.slice (Ring.store RXCAP t.rx (t.rxHead + t.rxLen) (d.take (room t d))) RXCAP
        t.rxHead (t.rxLen + (d.take (room t d)).length) = _ := Ring.slice_store (by omega)
    rw [htake] at hslice
    rw [htaken, List.take_add, ← hnext, ← h.bytes, List.append_assoc]
    exact congrArg _ hslice
  · rw [htaken]
    omega
  · exact Nat.add_le_of_le_sub' hfit hroom.2
  · intro _
    rw [htaken, show (t.accept d).rcvNxt = t.rcvNxt + UInt32.ofNat (room t d) from rfl,
      h.number hup, ← Seq.nth_add]
    congr 1
    omega
  · intro e
    rw [htaken, hnone e]
    exact h.whole e
  · exact fun e => absurd (hup.symm.trans e) (by decide)
  · exact h.syn
  · exact h.open'
  · exact h.over'

theorem behind_some {n : Nat} {seq : UInt32} {data : List UInt8}
    (h : t.behind seq data = some n) : n = (t.rcvNxt - seq).toNat ∧ n < data.length := by
  obtain ⟨hn, e⟩ := (Option.ite_none_right_eq_some ..).mp h
  cases e
  exact ⟨rfl, hn.1⟩

theorem dataIn_none {seq : UInt32} {data : List UInt8} (hd : data ≠ [])
    (h : t.behind seq data = none) : t.dataIn seq data = (t, false) := by
  have hne : seq ≠ t.rcvNxt := fun e => by
    rw [Tcp.behind, e, UInt32.sub_self] at h
    simp [List.length_pos_iff.mpr hd] at h
  rw [Tcp.dataIn, if_neg hd, h]
  exact if_neg hne

theorem dataIn_some {n : Nat} {seq : UInt32} {data : List UInt8} (hd : data ≠ [])
    (h : t.behind seq data = some n) : t.dataIn seq data =
      (t.accept (data.drop n), decide (data.length - n ≤ RXCAP - t.rxLen)) := by
  rw [Tcp.dataIn, if_neg hd, h]

theorem InOrder.fin_false (h : InOrder P t L) (hc : P.Cut p s) (hup : L.up = true)
    (ht : L.taken t = p + (t.rcvNxt - s.seq).toNat) : L.fin = false := by
  by_contra e
  rw [Bool.not_eq_false] at e
  have hnum := h.number hup
  rw [e, ht, ← Nat.add_assoc, Nat.add_assoc (1 + p)] at hnum
  have hsub := Seq.nth_sub P.isn (1 + p) ((t.rcvNxt - s.seq).toNat + 1)
  rw [Bool.toNat_true] at hnum
  rw [← hnum, ← hc.seq] at hsub
  have hlt := (t.rcvNxt - s.seq).toNat_lt
  omega

theorem Peer.Cut.next {n r : Nat} (hc : P.Cut p s) (hr : r = p + n) :
    s.data.drop n <+: P.stream.drop r := by
  rw [hr, ← List.drop_drop]
  exact hc.data.drop n

/-- **The data of a segment** keeps the order. -/
theorem dataIn_inOrder (h : InOrder P t L) (hst : t.state ≠ .synSent) (hc : P.Cut p s)
    (hn : Near t L s p) : InOrder P (t.dataIn s.seq s.data).1 L := by
  by_cases hd : s.data = []
  · rwa [Tcp.dataIn, if_pos hd]
  cases hb : t.behind s.seq s.data with
  | none => rwa [dataIn_none hd hb]
  | some n =>
      obtain ⟨rfl, hlt⟩ := behind_some hb
      obtain ⟨hup, ht⟩ := hn hst (Nat.lt_add_right _ hlt)
      rw [dataIn_some hd hb]
      refine (h.accept hup (hc.next ht) fun e => ?_).1
      rw [h.fin_false hc hup ht] at e
      exact absurd e (by decide)

/-- **The FIN is taken** when all the data before it is in, unless its own data is all old. -/
theorem fin_taken_iff (h : InOrder P t L) (hst : t.state = .established) (hc : P.Cut p s)
    (hn : Near t L s p) (hf : has s.flags FIN = true) :
    (t.dataIn s.seq s.data).1.TakesFin s (t.dataIn s.seq s.data).2 ↔
      L.taken (t.dataIn s.seq s.data).1 = P.stream.length ∧
        (s.data ≠ [] → L.taken t ≠ p + s.data.length) := by
  obtain ⟨hup, hfin⟩ := h.open' hst
  have hnum := h.number hup
  rw [hfin, Bool.toNat_false, Nat.add_zero] at hnum
  have hne : t.state ≠ .synSent := by
    rw [hst]
    decide
  have hN := hc.fin hf
  by_cases hd : s.data = []
  · rw [hd, List.length_nil, Nat.add_zero] at hN
    have hdata : t.dataIn s.seq s.data = (t, true) := by rw [Tcp.dataIn, if_pos hd]
    rw [hdata, Tcp.TakesFin, hd, List.length_nil]
    constructor
    · rintro ⟨-, -, hseq, -⟩
      have hz : (t.rcvNxt - s.seq).toNat = 0 := by
        rw [← hseq]
        simp
      obtain ⟨-, ht⟩ := hn hne (by rw [hz, hd, hf]; decide)
      exact ⟨by rw [ht, hz]; exact hN, fun e => absurd rfl e⟩
    · rintro ⟨ht, -⟩
      refine ⟨hf, rfl, ?_, hst⟩
      rw [hnum, ht, ← hN, hc.seq]
      simp
  cases hb : t.behind s.seq s.data with
  | none =>
      rw [dataIn_none hd hb]
      refine iff_of_false (fun e => Bool.false_ne_true e.2.1) fun e => ?_
      exact e.2 hd (e.1.trans hN.symm)
  | some n =>
      obtain ⟨rfl, hlt⟩ := behind_some hb
      obtain ⟨-, ht⟩ := hn hne (Nat.lt_add_right _ hlt)
      obtain ⟨hin, htaken⟩ := h.accept hup (hc.next ht) fun e => by
        rw [hfin] at e
        exact absurd e (by decide)
      have hnum' := hin.number hup
      rw [hfin, Bool.toNat_false, Nat.add_zero] at hnum'
      have hseq : s.seq + UInt32.ofNat s.data.length = Seq.nth P.isn (1 + p + s.data.length) := by
        rw [hc.seq, ← Seq.nth_add]
      rw [dataIn_some hd hb, Tcp.TakesFin, hnum', htaken, room, List.length_drop, hseq]
      constructor
      · rintro ⟨-, hall, -⟩
        rw [Nat.min_eq_left (of_decide_eq_true hall), ht]
        exact ⟨by omega, fun _ => by omega⟩
      · rintro ⟨hwhole, -⟩
        have hroom : s.data.length - (t.rcvNxt - s.seq).toNat ≤ RXCAP - t.rxLen := by omega
        refine ⟨hf, decide_eq_true hroom, ?_, hst⟩
        congr 1
        omega

theorem InOrder.finish (h : InOrder P t L) (hst : t.state = .established)
    (ht : L.taken t = P.stream.length) (hr : M.returned = L.returned) (hu : M.up = L.up)
    (hf : M.fin = true) :
    InOrder P { t with rcvNxt := t.rcvNxt + 1, state := .peerClosed } M := by
  obtain ⟨hup, hfin⟩ := h.open' hst
  have hnum := h.number hup
  have htaken : M.taken { t with rcvNxt := t.rcvNxt + 1, state := .peerClosed } = L.taken t := by
    rw [Link.taken, Link.taken, hr]
  constructor
  · rw [hr, htaken]
    exact h.bytes
  · rw [htaken]
    exact h.le
  · exact h.fits
  · intro _
    rw [htaken, hf, Bool.toNat_true, Seq.nth_add, hnum, hfin]
    rfl
  · intro _
    rw [htaken, ht]
  · rw [hu, hup]
    exact fun e => absurd e (by decide)
  · exact fun e => absurd e (by simp)
  · exact fun e => absurd e (by simp)
  · exact fun _ => ⟨hu.trans hup, hf⟩

theorem InOrder.establish (h : InOrder P t L) (hst : t.state = .synSent) (hseq : s.seq = P.isn)
    (hr : M.returned = L.returned) (hu : M.up = true) (hf : M.fin = L.fin) :
    InOrder P (t.establish s) M := by
  obtain ⟨hnone, hfin⟩ := h.empty (h.syn hst)
  have htaken : M.taken (t.establish s) = L.taken t := by
    rw [Link.taken, Link.taken, hr]
    rfl
  constructor
  · rw [hr, htaken]
    exact h.bytes
  · rw [htaken]
    exact h.le
  · exact h.fits
  · intro _
    rw [htaken, hnone, hf, hfin]
    exact congrArg (· + 1) hseq
  · rw [hf, hfin]
    exact fun e => absurd e (by decide)
  · rw [hu]
    exact fun e => absurd e (by decide)
  · exact fun e => absurd e (by simp [Tcp.establish])
  · exact fun _ => ⟨hu, hf.trans hfin⟩
  · exact fun e => absurd e (by simp [Tcp.establish])

theorem dataIn_state (t : Tcp) (seq : UInt32) (data : List UInt8) :
    (t.dataIn seq data).1.state = t.state := by
  by_cases hd : data = []
  · rw [Tcp.dataIn, if_pos hd]
  cases hb : t.behind seq data with
  | none => rw [dataIn_none hd hb]
  | some n =>
      rw [dataIn_some hd hb]
      rfl

theorem near_ackIn : Near (t.ackIn now s) L s p ↔ Near t L s p := by
  obtain ⟨⟨h₁, -, -, h₄⟩, hst⟩ := ackIn_same t now s
  rw [Near, Near, hst, h₁, Link.taken, Link.taken, h₄]

theorem has_syn_of_opens (h : t.opens s) : has s.flags SYN = true := by
  have hflags := h.1
  rw [has, bne_iff_ne]
  intro e
  have hsyn : s.flags &&& (SYN ||| ACK) &&& SYN = s.flags &&& SYN := by
    rw [UInt8.and_assoc]
    rfl
  rw [hflags, e] at hsyn
  exact absurd hsyn (by decide)

/-- **A segment of the peer** keeps the order. -/
theorem InOrder.input (h : InOrder P t L) (hs : P.Sends (Near t L s) s) :
    InOrder P (t.input now s).1 (L.next t (.input now s)) := by
  by_cases hrst : has s.flags RST = true
  · have hin : t.input now s = ({ t with state := .error }, []) := by rw [Tcp.input, if_pos hrst]
    refine h.quiet (a := .input now s) ?_ ?_ rfl <;> rw [Tcp.act, hin]
    · exact ⟨rfl, rfl, rfl, rfl⟩
    · exact .inr (.inl rfl)
  by_cases hsyn : t.state = .synSent
  · by_cases ho : t.opens s
    · have hin : t.input now s = (t.establish s).respond now true := by
        rw [Tcp.input, if_neg hrst, if_pos hsyn, if_pos ho]
      have hseq : s.seq = P.isn := by
        rcases hs with hs | ⟨-, -, hs⟩ | ⟨hs, -⟩
        · exact absurd hs hrst
        · exact hs (has_syn_of_opens ho)
        · exact absurd (has_syn_of_opens ho) (by rw [hs]; decide)
      have hb := Tcp.respond_beside (t.establish s) now true
      rw [← hin] at hb
      refine (h.establish (M := L.next t (.input now s)) hsyn hseq (List.append_nil _) ?_ ?_).congr
        hb.sameIn (.inl hb.state) rfl rfl rfl
      · rw [Link.next_up, Tcp.act, hb.state]
        exact Bool.or_true _
      · rw [Link.next_fin, Tcp.act, hb.state]
        exact Bool.or_false _
    · have hin : t.input now s = (t, []) := by
        rw [Tcp.input, if_neg hrst, if_pos hsyn, if_neg ho]
      refine h.quiet (a := .input now s) ?_ ?_ rfl <;> rw [Tcp.act, hin]
      · exact ⟨rfl, rfl, rfl, rfl⟩
      · exact .inl rfl
  obtain ⟨hsame, hst⟩ := ackIn_same t now s
  have hack := h.congr hsame (.inl hst) (M := L) rfl rfl rfl
  set d := (t.ackIn now s).dataIn s.seq s.data with hd
  have hin : t.input now s = (d.1.finIn s d.2).1.respond now (d.1.finIn s d.2).2 := by
    rw [Tcp.input, if_neg hrst, if_neg hsyn]
  have hdst : d.1.state = t.state := (dataIn_state ..).trans hst
  have hb := Tcp.respond_beside (d.1.finIn s d.2).1 now (d.1.finIn s d.2).2
  rw [← hin] at hb
  have hdata : InOrder P d.1 L ∧ (d.1.TakesFin s d.2 → L.taken d.1 = P.stream.length) := by
    rcases hs with hs | ⟨hnone, hfin, -⟩ | ⟨-, p, -, hc, hn⟩
    · exact absurd hs hrst
    · rw [hd, Tcp.dataIn, if_pos hnone]
      exact ⟨hack, fun e => absurd e.1 (by rw [hfin]; decide)⟩
    · have hn' : Near (t.ackIn now s) L s p := near_ackIn.mpr hn
      refine ⟨dataIn_inOrder hack (by rwa [hst]) hc hn', fun e => ?_⟩
      have hest := e.2.2.2
      rw [hdst, ← hst] at hest
      exact ((fin_taken_iff hack hest hc hn' e.1).mp e).1
  by_cases htk : d.1.TakesFin s d.2
  · have hfin : (d.1.finIn s d.2).1 = { d.1 with rcvNxt := d.1.rcvNxt + 1, state := .peerClosed } := by
      rw [Tcp.finIn, if_pos htk]
    rw [hfin] at hb
    refine (hdata.1.finish (M := L.next t (.input now s)) htk.2.2.2 (hdata.2 htk)
      (List.append_nil _) ?_ ?_).congr hb.sameIn (.inl hb.state) rfl rfl rfl
    · rw [Link.next_up, Tcp.act, hb.state]
      exact Bool.or_false _
    · rw [Link.next_fin, Tcp.act, hb.state]
      exact Bool.or_true _
  · have hfin : (d.1.finIn s d.2).1 = d.1 := by rw [Tcp.finIn, if_neg htk]
    rw [hfin] at hb
    have hstate : (t.input now s).1.state = t.state := hb.state.trans hdst
    obtain ⟨hup, hfin'⟩ := h.up_eq (.inl hstate)
    exact hdata.1.congr hb.sameIn (.inl hb.state) (List.append_nil _) hup hfin'

theorem timer_same (t : Tcp) (now : Nat) : SameIn t (t.timer now).1 ∧
    ((t.timer now).1.state = t.state ∨ (t.timer now).1.state = .error) := by
  simp only [Tcp.timer]
  split
  · split
    · exact ⟨⟨rfl, rfl, rfl, rfl⟩, .inr rfl⟩
    · split
      · exact ⟨⟨rfl, rfl, rfl, rfl⟩, .inl rfl⟩
      · have hb := Tcp.output_beside (t.retry now).goBack now
        exact ⟨hb.sameIn, .inl hb.state⟩
  · exact ⟨⟨rfl, rfl, rfl, rfl⟩, .inl rfl⟩

theorem send_same (t : Tcp) (now : Nat) (data : List UInt8) :
    SameIn t (t.send now data).1 ∧ (t.send now data).1.state = t.state := by
  simp only [Tcp.send]
  split
  · exact ⟨⟨rfl, rfl, rfl, rfl⟩, rfl⟩
  · have hb := Tcp.output_beside (t.enqueue data) now
    exact ⟨hb.sameIn, hb.state⟩
  · exact ⟨⟨rfl, rfl, rfl, rfl⟩, rfl⟩

theorem close_same (t : Tcp) : SameIn t t.close.1 ∧ t.close.1.state = .free := by
  rw [Tcp.close]
  cases t.state <;> exact ⟨⟨rfl, rfl, rfl, rfl⟩, rfl⟩

/-- What `tcp_recv` does to the ring: the first bytes leave it. -/
theorem recv_spec (t : Tcp) (len : Nat) : ∃ n, n = min len t.rxLen ∧
    (t.recv len).2.2.1 = Ring.slice t.rx RXCAP t.rxHead n ∧
    ((t.recv len).1.rcvNxt = t.rcvNxt ∧ (t.recv len).1.rx = t.rx ∧
      (t.recv len).1.rxHead = (if t.rxLen = 0 then t.rxHead else (t.rxHead + n) % RXCAP) ∧
      (t.recv len).1.rxLen = t.rxLen - n) ∧ (t.recv len).1.state = t.state := by
  refine ⟨_, rfl, ?_⟩
  simp only [Tcp.recv]
  split
  · rename_i h
    refine ⟨?_, ⟨rfl, rfl, rfl, ?_⟩, rfl⟩
    · rw [h, Nat.min_zero]
      rfl
    · rw [h, Nat.zero_sub]
  · split <;> exact ⟨rfl, ⟨rfl, rfl, rfl, rfl⟩, rfl⟩

/-- **Bytes are returned**: they leave the ring in order. -/
theorem InOrder.recv (h : InOrder P t L) (len : Nat) :
    InOrder P (t.recv len).1 (L.next t (.recv len)) := by
  obtain ⟨n, hn, hdata, ⟨h₁, h₂, h₃, h₄⟩, hst⟩ := recv_spec t len
  obtain ⟨hup, hfin⟩ := h.up_eq (.inl hst)
  have hle : n ≤ t.rxLen := hn ▸ Nat.min_le_right ..
  have hr : (L.next t (.recv len)).returned = L.returned ++ Ring.slice t.rx RXCAP t.rxHead n :=
    congrArg _ hdata
  have hu : (L.next t (.recv len)).up = L.up := hup
  have hf : (L.next t (.recv len)).fin = L.fin := hfin
  have ht : (L.next t (.recv len)).taken (t.recv len).1 = L.taken t := by
    rw [Link.taken, Link.taken, hr, h₄, List.length_append, Ring.slice_length]
    omega
  have hring : Ring.slice t.rx RXCAP (t.recv len).1.rxHead (t.rxLen - n) =
      Ring.slice t.rx RXCAP (t.rxHead + n) (t.rxLen - n) := by
    rw [h₃]
    split
    · rename_i h
      rw [h, Nat.zero_sub]
      rfl
    · exact Ring.slice_mod ..
  constructor
  · rw [hr, h₂, h₄, hring, ht, ← h.bytes, List.append_assoc, ← Ring.slice_add,
      Nat.add_sub_cancel' hle]
  · rw [ht]
    exact h.le
  · rw [h₄]
    exact (Nat.sub_le ..).trans h.fits
  · rw [hu, hf, h₁, ht]
    exact h.number
  · rw [hf, ht]
    exact h.whole
  · rw [hu, hf, ht]
    exact h.empty
  · rw [hst, hu]
    exact h.syn
  · rw [hst, hu, hf]
    exact h.open'
  · rw [hst, hu, hf]
    exact h.over'

/-- **Each act** keeps the order. -/
theorem InOrder.act {a : Act} (h : InOrder P t L)
    (hs : ∀ now s, a = .input now s → P.Sends (Near t L s) s) :
    InOrder P (t.act a).1 (L.next t a) := by
  cases a with
  | input now s => exact h.input (hs now s rfl)
  | timer now =>
      obtain ⟨hsame, hst⟩ := timer_same t now
      exact h.quiet (a := .timer now) hsame (hst.imp_right .inl) rfl
  | send now data =>
      obtain ⟨hsame, hst⟩ := send_same t now data
      exact h.quiet (a := .send now data) hsame (.inl hst) rfl
  | recv len => exact h.recv len
  | close =>
      obtain ⟨hsame, hst⟩ := close_same t
      exact h.quiet (a := .close) hsame (.inr (.inr hst)) rfl

/-! ### Runs -/

theorem Peer.Sends.mono {C D : Nat → Prop} (hCD : ∀ p, C p → D p) (h : P.Sends C s) :
    P.Sends D s := by
  rcases h with h | h | ⟨h, p, hp, hc, hC⟩
  · exact .inl h
  · exact .inr (.inl h)
  · exact .inr (.inr ⟨h, p, hp, hc, hCD p hC⟩)

variable {C : Tcp → Link → Segment → Nat → Prop} {peer : Nat → Peer} {x : Stack × Log}

theorem inOrder (hC : ∀ t L s p, C t L s p → Near t L s p) (hx : Going (Conveys C peer) x)
    (h : Nat) : InOrder (peer (x.2.link h).id) (x.1.tcps h) (x.2.link h) := by
  refine hx.invariant (I := fun t L => InOrder (peer L.id) t L) ?_ (fun t now lport ip port isn id =>
    ?_) (fun x e h a he ha hi => ?_) h
  · exact ⟨rfl, Nat.zero_le _, Nat.zero_le _, by simp [Link.none], by simp [Link.none],
      fun _ => ⟨rfl, rfl⟩, fun _ => rfl, by simp [TCP_INIT], by simp [TCP_INIT]⟩
  · exact ⟨rfl, Nat.zero_le _, Nat.zero_le _, by simp [Link.none], by simp [Link.none],
      fun _ => ⟨rfl, rfl⟩, fun _ => rfl, by simp [Tcp.connect, Tcp.segment],
      by simp [Tcp.connect, Tcp.segment]⟩
  · refine hi.act fun now s e => ?_
    subst e
    exact (he h now s ha).mono fun p hp => hC _ _ _ p hp

/-- A FIN that arrives on an established connection is taken exactly if all of the stream is in. -/
def FinTaken (P : Peer) (t : Tcp) (L : Link) (now : Nat) (s : Segment) : Prop :=
  has s.flags RST = false → t.state = .established → has s.flags FIN = true →
    ((t.input now s).1.state = .peerClosed ↔
      (L.next t (.input now s)).taken (t.input now s).1 = P.stream.length)

/-- `tcp_recv` reports the end of the stream exactly if all of it was returned and the FIN taken. -/
def EndReported (P : Peer) (t : Tcp) (L : Link) : Prop :=
  ∀ len, 0 < len → ((t.recv len).2.1 = 0 ↔ t.state = .peerClosed ∧ L.returned = P.stream)

theorem finTaken (h : InOrder P t L) (hs : P.Sends (Plain t L s) s) : FinTaken P t L now s := by
  intro hrst hst hf
  have hrst' : ¬ has s.flags RST = true := fun e => absurd (e.symm.trans hrst) (by decide)
  rcases hs with hs | ⟨-, hs, -⟩ | ⟨-, p, -, hc, hn, hfresh⟩
  · exact absurd hs hrst'
  · exact absurd (hf.symm.trans hs) (by decide)
  obtain ⟨hsame, hst'⟩ := ackIn_same t now s
  have hack := h.congr hsame (.inl hst') (M := L) rfl rfl rfl
  have hrx : L.taken (t.ackIn now s) = L.taken t := by rw [Link.taken, Link.taken, hsame.2.2.2]
  set d := (t.ackIn now s).dataIn s.seq s.data with hd
  have hin : t.input now s = (d.1.finIn s d.2).1.respond now (d.1.finIn s d.2).2 := by
    rw [Tcp.input, if_neg hrst', if_neg (by rw [hst]; decide)]
  have hb := Tcp.respond_beside (d.1.finIn s d.2).1 now (d.1.finIn s d.2).2
  rw [← hin] at hb
  have hfin : (d.1.finIn s d.2).1.rxLen = d.1.rxLen ∧
      ((d.1.finIn s d.2).1.state = .peerClosed ↔ d.1.TakesFin s d.2) := by
    have hdst : d.1.state = .established := (dataIn_state ..).trans (hst'.trans hst)
    rw [Tcp.finIn]
    split
    · rename_i htk
      exact ⟨rfl, iff_of_true rfl htk⟩
    · rename_i htk
      exact ⟨rfl, iff_of_false (by rw [hdst]; decide) htk⟩
  have htaken : (L.next t (.input now s)).taken (t.input now s).1 = L.taken d.1 := by
    have hret : (L.next t (.input now s)).returned = L.returned := List.append_nil _
    rw [Link.taken, Link.taken, hb.sameIn.2.2.2, hfin.1, hret]
  rw [hb.state, hfin.2, htaken,
    fin_taken_iff hack (hst'.trans hst) hc (near_ackIn.mpr hn) hf, and_iff_left_iff_imp]
  intro _ hdata
  rw [hrx]
  exact hfresh hst hf hdata

theorem endReported (h : InOrder P t L) : EndReported P t L := by
  intro len hlen
  have hbytes := h.bytes
  simp only [Tcp.recv]
  split
  · rename_i hz
    have htaken : L.taken t = L.returned.length := by rw [Link.taken, hz, Nat.add_zero]
    rw [hz, Ring.slice_zero, List.append_nil, htaken] at hbytes
    cases hst : t.state with
    | peerClosed =>
        refine iff_of_true rfl ⟨rfl, ?_⟩
        have hwhole := h.whole (h.over' hst).2
        rw [htaken] at hwhole
        rw [hbytes, hwhole, List.take_length]
    | _ => simp
  · rename_i hz
    have hn : (min len t.rxLen : Nat) ≠ 0 := by omega
    refine iff_of_false ?_ fun e => ?_
    · split <;> exact fun e => hn (Int.ofNat_eq_zero.mp e)
    · have hle := h.le
      rw [Link.taken, e.2] at hle
      omega

/-- **What TCP receives** is the stream of the peer: what was returned and what waits is the stream
as far as it was taken, the end is reported after all of it, and the FIN is taken when all of it is
in. -/
theorem received_in_order (hx : Going (Conveys Plain peer) x) (h : Nat) :
    InOrder (peer (x.2.link h).id) (x.1.tcps h) (x.2.link h) ∧
    EndReported (peer (x.2.link h).id) (x.1.tcps h) (x.2.link h) ∧
    ∀ e now s, Conveys Plain peer x e → x.1.actAt h e = some (.input now s) →
      FinTaken (peer (x.2.link h).id) (x.1.tcps h) (x.2.link h) now s := by
  have hin := inOrder (fun _ _ _ _ hp => hp.1) hx h
  exact ⟨hin, endReported hin, fun e now s he ha => finTaken hin (he h now s ha)⟩

/-! ### Examples of runs -/

instance : Decidable (Plain t L s p) := by
  unfold Plain Near Fresh
  infer_instance

instance : Decidable (P.Cut p s) := decidable_of_iff _ Peer.cut_iff.symm

instance {D : Nat → Prop} [DecidablePred D] : Decidable (P.Sends D s) := by
  unfold Peer.Sends
  infer_instance

instance [∀ t L s p, Decidable (C t L s p)] (e : Event) : Decidable (Conveys C peer x e) :=
  decidable_of_iff (∀ y ∈ x.1.inputAt e, (peer (x.2.link y.1).id).Sends
    (C (x.1.tcps y.1) (x.2.link y.1) y.2.2) y.2.2)
    ⟨fun h i n s ha => h (i, n, s) (Stack.actAt_input.mp ha),
      fun h y hy => h y.1 y.2.1 y.2.2 (Stack.actAt_input.mpr hy)⟩

/-- A peer that says hello. -/
def hello : Peer := ⟨7, [104, 101, 108, 108, 111]⟩

/-- The stream arrives from its middle, from its start, and whole, with the FIN. -/
def arrivals : List Event :=
  opening 4096 ++ [fromPeer 10 1 ACK 4096 [108, 108], fromPeer 8 1 ACK 4096 [104, 101], .recv 0 1,
    fromPeer 8 1 (ACK ||| FIN) 4096 [104, 101, 108, 108, 111], .recv 0 9]

theorem received_in_order_run : ∃ x, (Going (Conveys Plain fun _ => hello) x ∧
    (x.2.link 0).returned = hello.stream) ∧
    InOrder hello (x.1.tcps 0) (x.2.link 0) ∧ EndReported hello (x.1.tcps 0) (x.2.link 0) ∧
    ∀ e now s, Conveys Plain (fun _ => hello) x e → x.1.actAt 0 e = some (.input now s) →
      FinTaken hello (x.1.tcps 0) (x.2.link 0) now s := by
  have hboot : Going (Conveys Plain fun _ => hello) (.boot, .none) := .init ⟨rfl, rfl⟩
  have hrun : (Runs.run (Runs.noted Stack.step Log.note) (Conveys Plain fun _ => hello) arrivals
      (.boot, .none)).any (fun x => decide ((x.2.link 0).returned = hello.stream)) = true := by
    decide +kernel
  obtain ⟨x, hx, hw⟩ := hboot.run_any hrun
  exact ⟨x, ⟨hx, hw⟩, received_in_order hx 0⟩

/-- The stream has arrived, without the FIN. -/
def noFin : List Event := opening 4096 ++ [fromPeer 8 1 ACK 4096 [104, 101, 108, 108, 111]]

/-- **A FIN is lost** when it comes with data that is all old, though all of the stream is in. -/
theorem fin_lost : ¬ ∀ peer x h, Going (Conveys (fun _ _ _ _ => True) peer) x →
    ∀ e now s, Conveys (fun _ _ _ _ => True) peer x e → x.1.actAt h e = some (.input now s) →
      FinTaken (peer (x.2.link h).id) (x.1.tcps h) (x.2.link h) now s := by
  intro h
  have hboot : Going (Conveys (fun _ _ _ _ => True) fun _ => hello) (.boot, .none) :=
    .init ⟨rfl, rfl⟩
  have hrun : (Runs.run (Runs.noted Stack.step Log.note)
      (Conveys (fun _ _ _ _ => True) fun _ => hello) noFin (.boot, .none)).any (fun x =>
        decide (Conveys (fun _ _ _ _ => True) (fun _ => hello) x
            (fromPeer 8 1 (ACK ||| FIN) 4096 [104, 101, 108, 108, 111]) ∧
          (x.1.inputAt (fromPeer 8 1 (ACK ||| FIN) 4096 [104, 101, 108, 108, 111])).any (fun y =>
            decide (y.1 = 0 ∧ has y.2.2.flags RST = false ∧ (x.1.tcps 0).state = .established ∧
              has y.2.2.flags FIN = true ∧
              ((x.1.tcps 0).input y.2.1 y.2.2).1.state ≠ .peerClosed ∧
              ((x.2.link 0).next (x.1.tcps 0) (.input y.2.1 y.2.2)).taken
                ((x.1.tcps 0).input y.2.1 y.2.2).1 = 5)) = true)) = true := by
    decide +kernel
  obtain ⟨x, hx, he, hy⟩ := hboot.run_any hrun
  obtain ⟨⟨i, now, s⟩, hy, hd⟩ := (Option.any_eq_true _ _).mp hy
  obtain ⟨rfl, h₁, h₂, h₃, h₄, h₅⟩ := of_decide_eq_true hd
  exact h₄ ((h _ x 0 hx _ now s he (Stack.actAt_input.mpr hy) h₁ h₂ h₃).mpr h₅)

end Pulsar.Net

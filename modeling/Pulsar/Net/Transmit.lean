import Pulsar.Net.Link

/-!
# What TCP sends (`net.rs`)

The transmit buffer holds what was queued from the first byte not acknowledged on; the part in
flight is sent, and what a time-out took back was.  A segment carries the bytes of its own number.

* `sent_in_order`: so it is in every run, whatever arrives; an ACK of bytes in flight removes them.
* `ack_lost`: an ACK of bytes that a time-out took back is not taken, and the window of the peer may
  be less than what is in flight.
* `no_stall`: while the peer owes an answer, the timer runs.
* `closed_after_all`: a connection that is closed when nothing waits has sent all of it before its
  FIN.
-/

namespace Pulsar.Net

namespace Link

/-- A segment carries byte `o` of what was queued, under its own number. -/
def Carries (L : Link) (s : Sent) (o : Nat) : Prop :=
  ∃ k, s.seq = Seq.nth L.isn (1 + k) ∧ s.data <+: L.queued.drop k ∧ k ≤ o ∧ o < k + s.data.length

/-- How far the bytes queued were in flight. -/
def high (L : Link) (t : Tcp) : Nat := max (L.acked t + t.inFlight) L.back

/-- The note with more segments sent. -/
def sends (L : Link) (out : List Sent) : Link := { L with sent := L.sent ++ out }

end Link

/-- The transmit buffer is what was queued and not acknowledged, and the segments sent carry the
bytes of their numbers: all bytes that are or were in flight, and no others. -/
structure OutOrder (t : Tcp) (L : Link) : Prop where
  le : t.tx.length ≤ L.queued.length
  tx : t.tx = L.queued.drop (L.acked t)
  una : t.sndUna = Seq.nth L.isn (L.up.toNat + L.acked t)
  flight : t.inFlight ≤ t.tx.length
  cap : t.tx.length ≤ TXCAP
  back : L.back ≤ L.queued.length
  down : L.up = false → L.queued = []
  syn : t.state = .synSent → L.up = false
  open' : t.state.Open → L.up = true
  sent : ∀ s ∈ L.sent, s.data = [] ∨ ∃ o, s.seq = Seq.nth L.isn (1 + o) ∧
    s.data <+: L.queued.drop o ∧ o + s.data.length ≤ L.high t
  covered : ∀ o < L.high t, ∃ s ∈ L.sent, L.Carries s o

variable {t u : Tcp} {L M : Link} {s : Segment} {now : Nat}

theorem OutOrder.acked_add (h : OutOrder t L) : L.acked t + t.tx.length = L.queued.length :=
  Nat.sub_add_cancel h.le

theorem OutOrder.high_le (h : OutOrder t L) : L.high t ≤ L.queued.length := by
  have hadd := h.acked_add
  have hflight := h.flight
  exact Nat.max_le.mpr ⟨by omega, h.back⟩

theorem OutOrder.flight_lt (h : OutOrder t L) : t.inFlight < 2 ^ 32 :=
  (h.flight.trans h.cap).trans_lt (by decide)

/-- The next number to send is that of the first byte not in flight. -/
theorem nxt_eq (t : Tcp) : t.sndNxt = t.sndUna + UInt32.ofNat t.inFlight :=
  (Seq.add_ofNat_toNat _ _).symm

theorem inFlight_of {x : UInt32} {n : Nat} (hu : t.sndUna = x) (hn : t.sndNxt = Seq.nth x n)
    (hlt : n < 2 ^ 32) : t.inFlight = n := by
  have h := Seq.nth_sub_self (x := x) (m := 0) hlt
  rwa [Nat.zero_add, Seq.nth_zero, ← hn, ← hu] at h

theorem OutOrder.congr (h : OutOrder t L)
    (ht : u.tx = t.tx ∧ u.sndUna = t.sndUna ∧ u.sndNxt = t.sndNxt)
    (hst : (u.state = .synSent → t.state = .synSent) ∧ (u.state.Open → t.state.Open))
    (hL : M.isn = L.isn ∧ M.up = L.up ∧ M.queued = L.queued ∧ M.back = L.back)
    (hs : ∃ out, M.sent = L.sent ++ out ∧ ∀ s ∈ out, s.data = []) : OutOrder u M := by
  obtain ⟨h₁, h₂, h₃⟩ := ht
  obtain ⟨g₁, g₂, g₃, g₄⟩ := hL
  obtain ⟨out, hout, hnone⟩ := hs
  have hack : M.acked u = L.acked t := by rw [Link.acked, Link.acked, h₁, g₃]
  have hfl : u.inFlight = t.inFlight := by rw [Tcp.inFlight, Tcp.inFlight, h₂, h₃]
  have hhigh : M.high u = L.high t := by rw [Link.high, Link.high, hack, hfl, g₄]
  constructor
  · rw [h₁, g₃]
    exact h.le
  · rw [h₁, g₃, hack]
    exact h.tx
  · rw [h₂, g₁, g₂, hack]
    exact h.una
  · rw [hfl, h₁]
    exact h.flight
  · rw [h₁]
    exact h.cap
  · rw [g₄, g₃]
    exact h.back
  · rw [g₂, g₃]
    exact h.down
  · exact fun e => g₂.trans (h.syn (hst.1 e))
  · exact fun e => g₂.trans (h.open' (hst.2 e))
  · intro s hs
    rw [hout] at hs
    rw [g₁, g₃, hhigh]
    exact (List.mem_append.mp hs).elim (h.sent s) fun hs => .inl (hnone s hs)
  · intro o ho
    rw [hhigh] at ho
    obtain ⟨s, hs, hc⟩ := h.covered o ho
    refine ⟨s, hout ▸ List.mem_append_left _ hs, ?_⟩
    rwa [Link.Carries, g₁, g₃]

theorem burst_le (t : Tcp) : t.burst ≤ t.tx.length - t.inFlight :=
  (Nat.min_le_left ..).trans (Nat.min_le_left ..)

theorem OutOrder.transmit_inFlight (h : OutOrder t L) (now : Nat) :
    (t.transmit now).1.inFlight = t.inFlight + t.burst := by
  have hflight := h.flight
  have hburst := burst_le t
  have hle : t.inFlight + t.burst ≤ t.tx.length := by omega
  refine inFlight_of (x := t.sndUna) rfl ?_ (hle.trans_lt (h.cap.trans_lt (by decide)))
  rw [Seq.nth_add, Seq.nth, ← nxt_eq]
  rfl

/-- **One round of `tcp_output`**: the next bytes are sent, under their number. -/
theorem OutOrder.transmit (h : OutOrder t L) (hup : L.up = true) :
    OutOrder (t.transmit now).1 (L.sends [(t.transmit now).2]) := by
  have hadd := h.acked_add
  have hflight := h.flight
  have hburst := burst_le t
  have hnxt : t.sndNxt = Seq.nth L.isn (1 + (L.acked t + t.inFlight)) := by
    rw [nxt_eq, h.una, hup, ← Seq.nth_add, Nat.add_assoc]
    rfl
  have hfl := h.transmit_inFlight now
  have hack : (L.sends [(t.transmit now).2]).acked (t.transmit now).1 = L.acked t := rfl
  have hdata : (t.transmit now).2.data = (t.tx.drop t.inFlight).take t.burst := rfl
  have hlen : (t.transmit now).2.data.length = t.burst := by
    rw [hdata, List.length_take, List.length_drop]
    exact Nat.min_eq_left hburst
  have hpre : (t.transmit now).2.data <+: L.queued.drop (L.acked t + t.inFlight) := by
    rw [hdata, h.tx, List.drop_drop]
    exact List.take_prefix ..
  have hhigh : (L.sends [(t.transmit now).2]).high (t.transmit now).1 =
      max (L.acked t + t.inFlight + t.burst) L.back := by
    rw [Link.high, hack, hfl, Nat.add_assoc]
    rfl
  refine ⟨h.le, h.tx, h.una, ?_, h.cap, h.back, h.down, h.syn, h.open', fun s hs => ?_,
    fun o ho => ?_⟩
  · rw [hfl]
    exact Nat.add_le_of_le_sub' hflight hburst
  · rw [hhigh]
    rcases List.mem_append.mp hs with hs | hs
    · refine (h.sent s hs).imp_right fun ⟨o, h₁, h₂, h₃⟩ => ⟨o, h₁, h₂, h₃.trans ?_⟩
      exact max_le_max_right _ (Nat.le_add_right ..)
    · cases List.mem_singleton.mp hs
      exact .inr ⟨_, hnxt, hpre, by rw [hlen]; exact le_max_left ..⟩
  · rw [hhigh] at ho
    by_cases hold : o < L.high t
    · obtain ⟨s, hs, hc⟩ := h.covered o hold
      exact ⟨s, List.mem_append_left _ hs, hc⟩
    · rw [Link.high] at hold
      refine ⟨_, List.mem_append_right _ (List.mem_singleton_self _), _, hnxt, hpre, ?_, ?_⟩
      · omega
      · rw [hlen]
        omega

/-- **`tcp_output`** sends what comes next. -/
theorem OutOrder.output (h : OutOrder t L) (now : Nat) :
    OutOrder (t.output now).1 (L.sends (t.output now).2) := by
  have hself : L.sends [] = L := by rw [Link.sends, List.append_nil]
  by_cases ho : t.state.Open
  · refine Tcp.output_rule (M := fun u out => OutOrder u (L.sends out)) (hself.symm ▸ h)
      fun u out hu _ => ?_
    have hnext : OutOrder (u.transmit now).1 _ := hu.transmit (h.open' ho)
    rwa [Link.sends, Link.sends, List.append_assoc] at hnext
  · have hout : t.output now = (t, []) := by
      rw [Tcp.output, if_pos]
      exact not_or.mp ho
    rw [hout, hself]
    exact h

/-- The rounds of `tcp_output` are enough. -/
theorem outputLoop_done {fuel : Nat} : ∀ {t : Tcp} {L : Link}, OutOrder t L → L.up = true →
    0 < t.mss → t.tx.length - t.inFlight ≤ fuel → ¬ (t.outputLoop now fuel).1.CanSend := by
  induction fuel with
  | zero =>
      intro t L _ _ _ hfuel hcan
      have hlt : t.inFlight < t.tx.length := hcan.1
      omega
  | succ fuel ih =>
      intro t L h hup hm hfuel
      rw [Tcp.outputLoop]
      split
      · rename_i hcan
        have hfl := h.transmit_inFlight now
        have hburst : 0 < t.burst := by
          have h₁ := hcan.1
          have h₂ := hcan.2
          exact Nat.lt_min.mpr ⟨Nat.lt_min.mpr ⟨by omega, hm⟩, by omega⟩
        have htx : (t.transmit now).1.tx.length = t.tx.length := rfl
        exact ih (h.transmit hup) hup hm (by omega)
      · assumption

/-- **`tcp_output` ends** when there is nothing to send or the window is full. -/
theorem OutOrder.output_done (h : OutOrder t L) (ho : t.state.Open) (hm : 0 < t.mss) (now : Nat) :
    ¬ (t.output now).1.CanSend := by
  rw [Tcp.output, if_neg (not_not.mpr ho ∘ not_or.mpr)]
  exact outputLoop_done h (h.open' ho) hm (Nat.sub_le ..)

theorem OutOrder.plain {r : Sent} (h : OutOrder t L)
    (ht : u.tx = t.tx ∧ u.sndUna = t.sndUna ∧ u.sndNxt = t.sndNxt) (hst : u.state = t.state)
    (hr : r.data = []) : OutOrder u (L.sends [r]) := by
  refine h.congr ht ⟨fun e => hst ▸ e, fun e => hst ▸ e⟩ ⟨rfl, rfl, rfl, rfl⟩ ⟨[r], rfl, fun s hs => ?_⟩
  rw [List.mem_singleton.mp hs, hr]

theorem OutOrder.respond (h : OutOrder t L) (now : Nat) (need : Bool) :
    OutOrder (t.respond now need).1 (L.sends (t.respond now need).2) := by
  rw [Tcp.respond]
  split
  · have hack : OutOrder t.ackNow.1 (L.sends [t.ackNow.2]) := h.plain ⟨rfl, rfl, rfl⟩ rfl rfl
    have hout := hack.output now
    rwa [Link.sends, Link.sends, List.append_assoc] at hout
  · exact h.output now

/-- How many bytes an ACK newly acknowledges: as many as its number is ahead, of what is in flight. -/
def acks (t : Tcp) (s : Segment) : Nat :=
  if has s.flags ACK = true ∧ (s.ack - t.sndUna).toNat ≤ t.inFlight then (s.ack - t.sndUna).toNat
  else 0

theorem ackIn_spec (t : Tcp) (now : Nat) (s : Segment) :
    (t.ackIn now s).tx = t.tx.drop (acks t s) ∧
    (t.ackIn now s).sndUna = t.sndUna + UInt32.ofNat (acks t s) ∧
    (t.ackIn now s).sndNxt = t.sndNxt ∧ (t.ackIn now s).state = t.state := by
  simp only [Tcp.ackIn, acks]
  by_cases hack : has s.flags ACK = true
  · by_cases hk : 0 < (s.ack - t.sndUna).toNat ∧ (s.ack - t.sndUna).toNat ≤ t.inFlight
    · rw [if_pos hack, if_pos hk, if_pos ⟨hack, hk.2⟩, Seq.add_ofNat_toNat]
      exact ⟨rfl, rfl, rfl, rfl⟩
    · have hz : (if has s.flags ACK = true ∧ (s.ack - t.sndUna).toNat ≤ t.inFlight then
          (s.ack - t.sndUna).toNat else 0) = 0 := by
        split
        · rename_i h
          omega
        · rfl
      rw [if_pos hack, if_neg hk, hz]
      exact ⟨rfl, (UInt32.add_zero _).symm, rfl, rfl⟩
  · rw [if_neg hack, if_neg fun e => hack e.1]
    exact ⟨rfl, (UInt32.add_zero _).symm, rfl, rfl⟩

theorem acks_le (t : Tcp) (s : Segment) : acks t s ≤ t.inFlight := by
  rw [acks]
  split
  · rename_i h
    exact h.2
  · exact Nat.zero_le _

/-- **An ACK** removes the bytes that it newly acknowledges. -/
theorem OutOrder.ackIn (h : OutOrder t L) (now : Nat) (s : Segment) :
    OutOrder (t.ackIn now s) L ∧
    L.acked (t.ackIn now s) = L.acked t + acks t s ∧
    (t.ackIn now s).inFlight = t.inFlight - acks t s := by
  obtain ⟨h₁, h₂, h₃, h₄⟩ := ackIn_spec t now s
  have hk := acks_le t s
  have hflight := h.flight
  have hadd := h.acked_add
  have hlt := h.flight_lt
  have hlen : (t.ackIn now s).tx.length = t.tx.length - acks t s := by rw [h₁, List.length_drop]
  have hack : L.acked (t.ackIn now s) = L.acked t + acks t s := by
    rw [Link.acked, hlen]
    omega
  have hfl : (t.ackIn now s).inFlight = t.inFlight - acks t s := by
    refine inFlight_of h₂ ?_ (by omega)
    rw [h₃, nxt_eq t, Seq.nth, UInt32.add_assoc, ← UInt32.ofNat_add, Nat.add_sub_cancel' hk]
  have hhigh : L.high (t.ackIn now s) = L.high t := by
    rw [Link.high, Link.high, hack, hfl]
    congr 1
    omega
  refine ⟨?_, hack, hfl⟩
  constructor
  · omega
  · rw [hack, h₁, h.tx, List.drop_drop, Link.acked]
  · rw [h₂, h.una, ← Seq.nth_add, hack, Nat.add_assoc]
  · rw [hfl, hlen]
    omega
  · rw [hlen]
    exact (Nat.sub_le ..).trans h.cap
  · exact h.back
  · exact h.down
  · rw [h₄]
    exact h.syn
  · rw [h₄]
    exact h.open'
  · rw [hhigh]
    exact h.sent
  · rw [hhigh]
    exact h.covered

/-- What a segment brings changes nothing of what is sent. -/
theorem dataIn_out (t : Tcp) (seq : UInt32) (data : List UInt8) :
    ((t.dataIn seq data).1.tx = t.tx ∧ (t.dataIn seq data).1.sndUna = t.sndUna ∧
      (t.dataIn seq data).1.sndNxt = t.sndNxt) ∧ (t.dataIn seq data).1.state = t.state := by
  simp only [Tcp.dataIn]
  split
  · exact ⟨⟨rfl, rfl, rfl⟩, rfl⟩
  · split
    · exact ⟨⟨rfl, rfl, rfl⟩, rfl⟩
    · split <;> exact ⟨⟨rfl, rfl, rfl⟩, rfl⟩

theorem finIn_out (t : Tcp) (s : Segment) (b : Bool) :
    ((t.finIn s b).1.tx = t.tx ∧ (t.finIn s b).1.sndUna = t.sndUna ∧
      (t.finIn s b).1.sndNxt = t.sndNxt) ∧
    ((t.finIn s b).1.state = .synSent → t.state = .synSent) ∧
      ((t.finIn s b).1.state.Open → t.state.Open) := by
  rw [Tcp.finIn]
  split
  · rename_i h
    exact ⟨⟨rfl, rfl, rfl⟩, fun e => absurd e (by simp), fun _ => .inl h.2.2.2⟩
  · exact ⟨⟨rfl, rfl, rfl⟩, id, id⟩

/-- The handshake is complete: what was queued, nothing, starts after the SYN. -/
theorem OutOrder.establish (h : OutOrder t L) (hst : t.state = .synSent) (ho : t.opens s) :
    OutOrder (t.establish s) { L with up := true } := by
  have hup := h.syn hst
  have hq := h.down hup
  have hle := h.le
  have hback := h.back
  rw [hq, List.length_nil, Nat.le_zero] at hle hback
  have hun := h.una
  have hz : L.acked t = 0 := by rw [Link.acked, hq, List.length_nil, Nat.zero_sub]
  rw [hup, hz] at hun
  have hz' : ({ L with up := true } : Link).acked (t.establish s) = 0 := hz
  have hfl : (t.establish s).inFlight = 0 := by
    rw [Tcp.inFlight]
    exact congrArg UInt32.toNat (UInt32.sub_self _)
  have hhigh : ({ L with up := true } : Link).high (t.establish s) = 0 := by
    rw [Link.high, hz', hfl]
    exact hback
  have hsent : ∀ r ∈ L.sent, r.data = [] := fun r hr => by
    rcases h.sent r hr with e | ⟨o, -, hd, -⟩
    · exact e
    · rw [hq, List.drop_nil] at hd
      exact List.prefix_nil.mp hd
  refine ⟨h.le, h.tx, ?_, ?_, h.cap, h.back, fun e => absurd e (by simp), fun e => ?_, fun _ => rfl,
    fun r hr => .inl (hsent r hr), fun o ho => ?_⟩
  · rw [hz']
    refine ho.2.trans ?_
    rw [hun]
    simp [Seq.nth]
  · rw [hfl]
    exact Nat.zero_le _
  · exact absurd e (by simp [Tcp.establish])
  · rw [hhigh] at ho
    exact absurd ho (Nat.not_lt_zero _)

/-- The segment's ACK is taken before anything is sent. -/
theorem OutOrder.before_respond (h : OutOrder t L) (now : Nat) (hrst : ¬ has s.flags RST = true)
    (hsyn : t.state ≠ .synSent) : ∃ u need, t.input now s = u.respond now need ∧ OutOrder u L ∧
      u.tx = (t.ackIn now s).tx := by
  set d := (t.ackIn now s).dataIn s.seq s.data with hd
  obtain ⟨hdo, hds⟩ := dataIn_out (t.ackIn now s) s.seq s.data
  obtain ⟨hfo, hfs⟩ := finIn_out d.1 s d.2
  have hdata : OutOrder d.1 L := (h.ackIn now s).1.congr hdo ⟨fun e => hds ▸ e, fun e => hds ▸ e⟩
    ⟨rfl, rfl, rfl, rfl⟩ ⟨[], (List.append_nil _).symm, by simp⟩
  have hfin : OutOrder (d.1.finIn s d.2).1 L := hdata.congr hfo hfs ⟨rfl, rfl, rfl, rfl⟩
    ⟨[], (List.append_nil _).symm, by simp⟩
  refine ⟨(d.1.finIn s d.2).1, (d.1.finIn s d.2).2, ?_, hfin, hfo.1.trans hdo.1⟩
  rw [Tcp.input, if_neg hrst, if_neg hsyn]

/-- The note is known by what it says of the sending side. -/
theorem OutOrder.note (h : OutOrder t M) (hi : L.isn = M.isn) (hu : L.up = M.up)
    (hq : L.queued = M.queued) (hb : L.back = M.back) (hs : L.sent = M.sent) : OutOrder t L :=
  h.congr ⟨rfl, rfl, rfl⟩ ⟨id, id⟩ ⟨hi, hu, hq, hb⟩ ⟨[], by rw [hs, List.append_nil], by simp⟩

/-- A connection that is established was known to be. -/
theorem OutOrder.up_eq (h : OutOrder t M) (hu : M.up = L.up) :
    (L.up || decide (t.state = .established)) = M.up := by
  by_cases e : t.state = .established
  · rw [h.open' (.inl e), decide_eq_true e, Bool.or_true]
  · rw [decide_eq_false e, Bool.or_false, hu]

/-- **A segment** keeps the order of what is sent. -/
theorem OutOrder.input (h : OutOrder t L) :
    OutOrder (t.input now s).1 (L.next t (.input now s)) := by
  have hqueue : (L.next t (.input now s)).queued = L.queued := List.append_nil _
  have hdone : ∀ {N : Link}, OutOrder (t.input now s).1 N → N.isn = L.isn →
      N.up = (L.next t (.input now s)).up → N.queued = L.queued → N.back = L.back →
      N.sent = L.sent ++ (t.input now s).2 → OutOrder (t.input now s).1 (L.next t (.input now s)) :=
    fun hN h₁ h₂ h₃ h₄ h₅ => hN.note h₁.symm h₂.symm (hqueue.trans h₃.symm) h₄.symm h₅.symm
  by_cases hrst : has s.flags RST = true
  · have hin : t.input now s = ({ t with state := .error }, []) := by rw [Tcp.input, if_pos hrst]
    have herr : OutOrder (t.input now s).1 (L.sends (t.input now s).2) := by
      rw [hin]
      refine h.congr ⟨rfl, rfl, rfl⟩ ⟨fun e => absurd e (by simp), fun e => ?_⟩ ⟨rfl, rfl, rfl, rfl⟩
        ⟨[], rfl, by simp⟩
      rcases e with e | e <;> exact absurd e (by simp)
    exact hdone herr rfl (herr.up_eq rfl).symm rfl rfl rfl
  by_cases hsyn : t.state = .synSent
  · by_cases ho : t.opens s
    · have hin : t.input now s = (t.establish s).respond now true := by
        rw [Tcp.input, if_neg hrst, if_pos hsyn, if_pos ho]
      have hout := (h.establish hsyn ho).respond now true
      rw [← hin] at hout
      refine hdone hout rfl ?_ rfl rfl rfl
      have hst : (t.input now s).1.state = .established := by
        have hb := Tcp.respond_beside (t.establish s) now true
        rw [← hin, Tcp.Beside] at hb
        rw [hb]
        rfl
      rw [Link.next_up, Tcp.act, hst]
      exact (Bool.or_true _).symm
    · have hin : t.input now s = (t, []) := by
        rw [Tcp.input, if_neg hrst, if_pos hsyn, if_neg ho]
      have hsame : OutOrder (t.input now s).1 L := by rwa [hin]
      refine hdone hsame rfl (hsame.up_eq rfl).symm rfl rfl ?_
      rw [hin, List.append_nil]
  · obtain ⟨u, need, hin, hu, -⟩ := h.before_respond now hrst hsyn
    have hout := hu.respond now need
    rw [← hin] at hout
    exact hdone hout rfl (hout.up_eq rfl).symm rfl rfl rfl

/-- The note of the timers: what is in flight now was in flight. -/
theorem OutOrder.noteBack (h : OutOrder t L) :
    OutOrder t { L with back := max L.back (L.acked t + t.inFlight) } := by
  have hadd := h.acked_add
  have hflight := h.flight
  have hhigh : ({ L with back := max L.back (L.acked t + t.inFlight) } : Link).high t =
      L.high t := by
    rw [Link.high, Link.high]
    exact (congrArg _ (max_comm ..)).trans (max_eq_right (Nat.le_max_left ..))
  have hle : L.acked t + t.inFlight ≤ L.queued.length := by omega
  refine ⟨h.le, h.tx, h.una, h.flight, h.cap, Nat.max_le.mpr ⟨h.back, hle⟩, h.down, h.syn,
    h.open', ?_, ?_⟩
  · rw [hhigh]
    exact h.sent
  · rw [hhigh]
    exact h.covered

theorem OutOrder.goBack (h : OutOrder t L) (hb : L.acked t + t.inFlight ≤ L.back)
    (hu : u.tx = t.tx ∧ u.sndUna = t.sndUna ∧ u.sndNxt = t.sndUna) (hst : u.state = t.state) :
    OutOrder u L := by
  obtain ⟨h₁, h₂, h₃⟩ := hu
  have hfl : u.inFlight = 0 := by
    rw [Tcp.inFlight, h₂, h₃]
    exact congrArg UInt32.toNat (UInt32.sub_self _)
  have hack : L.acked u = L.acked t := by rw [Link.acked, Link.acked, h₁]
  have hhigh : L.high u = L.high t := by
    rw [Link.high, Link.high, hack, hfl, max_eq_right hb]
    exact max_eq_right ((Nat.le_add_right ..).trans hb)
  constructor
  · rw [h₁]
    exact h.le
  · rw [h₁, hack]
    exact h.tx
  · rw [h₂, hack]
    exact h.una
  · rw [hfl]
    exact Nat.zero_le _
  · rw [h₁]
    exact h.cap
  · exact h.back
  · exact h.down
  · rw [hst]
    exact h.syn
  · rw [hst]
    exact h.open'
  · rw [hhigh]
    exact h.sent
  · rw [hhigh]
    exact h.covered

/-- **The timers** keep the order of what is sent. -/
theorem OutOrder.timer (h : OutOrder t L) :
    OutOrder (t.timer now).1 (L.next t (.timer now)) := by
  set B : Link := { L with back := max L.back (L.acked t + t.inFlight) } with hB
  have hback : OutOrder t B := h.noteBack
  have hdone : ∀ {N : Link}, OutOrder (t.timer now).1 N → N.isn = L.isn → N.up = L.up →
      N.queued = L.queued → N.back = max L.back (L.acked t + t.inFlight) →
      N.sent = L.sent ++ (t.timer now).2 → OutOrder (t.timer now).1 (L.next t (.timer now)) :=
    fun hN h₁ h₂ h₃ h₄ h₅ => hN.note h₁.symm (hN.up_eq h₂)
      ((List.append_nil _).trans h₃.symm) h₄.symm h₅.symm
  by_cases hl : t.Late now
  · by_cases hr : MAX_RETRIES < t.retries + 1
    · have ht : t.timer now = (t.giveUp, []) := by rw [Tcp.timer, if_pos hl, if_pos hr]
      have herr : OutOrder t.giveUp (B.sends []) := hback.congr ⟨rfl, rfl, rfl⟩
        ⟨fun e => absurd e (by simp [Tcp.giveUp]), fun e => absurd e
          (by simp [Tcp.giveUp, TcpState.Open])⟩ ⟨rfl, rfl, rfl, rfl⟩ ⟨[], rfl, by simp⟩
      rw [ht] at hdone ⊢
      exact hdone herr rfl rfl rfl rfl rfl
    · by_cases hs : t.synPending = true
      · have ht : t.timer now = (((t.retry now).segment SYN t.sndUna []).1,
            [((t.retry now).segment SYN t.sndUna []).2]) := by
          rw [Tcp.timer, if_pos hl, if_neg hr, if_pos hs]
        have hsyn : OutOrder (t.timer now).1 (B.sends (t.timer now).2) := by
          rw [ht]
          exact hback.plain ⟨rfl, rfl, rfl⟩ rfl rfl
        exact hdone hsyn rfl rfl rfl rfl rfl
      · have ht : t.timer now = (t.retry now).goBack.output now := by
          rw [Tcp.timer, if_pos hl, if_neg hr, if_neg hs]
        have hgo := (hback.goBack (u := (t.retry now).goBack) (Nat.le_max_right ..)
          ⟨rfl, rfl, rfl⟩ rfl).output now
        rw [← ht] at hgo
        exact hdone hgo rfl rfl rfl rfl rfl
  · have ht : t.timer now = (t, []) := by rw [Tcp.timer, if_neg hl]
    have hsame : OutOrder (t.timer now).1 B := by rwa [ht]
    refine hdone hsame rfl rfl rfl rfl ?_
    rw [ht, List.append_nil]

theorem OutOrder.queue {d : List UInt8} (h : OutOrder t L) (hup : L.up = true)
    (hd : d.length ≤ TXCAP - t.tx.length) :
    OutOrder { t with tx := t.tx ++ d } { L with queued := L.queued ++ d } := by
  have hle := h.le
  have hcap := h.cap
  have hflight := h.flight
  have hlen : (t.tx ++ d).length = t.tx.length + d.length := List.length_append ..
  have hqlen : (L.queued ++ d).length = L.queued.length + d.length := List.length_append ..
  have hack : ({ L with queued := L.queued ++ d } : Link).acked { t with tx := t.tx ++ d } =
      L.acked t := by
    simp only [Link.acked, hlen, hqlen]
    omega
  have hhigh : ({ L with queued := L.queued ++ d } : Link).high { t with tx := t.tx ++ d } =
      L.high t := by
    rw [Link.high, hack]
    rfl
  have hackle : L.acked t ≤ L.queued.length := Nat.sub_le ..
  have hgrow : ∀ {r : List UInt8} {k : Nat}, k ≤ L.queued.length → r <+: L.queued.drop k →
      r <+: (L.queued ++ d).drop k := fun hk hr => by
    rw [List.drop_append_of_le_length hk]
    exact hr.trans (List.prefix_append ..)
  constructor
  · simp only [hlen, hqlen]
    omega
  · rw [hack, List.drop_append_of_le_length hackle]
    exact congrArg (· ++ d) h.tx
  · rw [hack]
    exact h.una
  · simp only [hlen]
    exact hflight.trans (Nat.le_add_right ..)
  · simp only [hlen]
    exact Nat.add_le_of_le_sub' hcap hd
  · simp only [hqlen]
    exact h.back.trans (Nat.le_add_right ..)
  · exact fun e => absurd (hup.symm.trans e) (by decide)
  · exact h.syn
  · exact h.open'
  · intro r hr
    rw [hhigh]
    refine (h.sent r hr).imp_right fun ⟨o, h₁, h₂, h₃⟩ => ⟨o, h₁, hgrow ?_ h₂, h₃⟩
    exact (Nat.le_add_right ..).trans (h₃.trans h.high_le)
  · intro o ho
    rw [hhigh] at ho
    obtain ⟨r, hr, k, h₁, h₂, h₃, h₄⟩ := h.covered o ho
    exact ⟨r, hr, k, h₁, hgrow (h₃.trans (ho.le.trans h.high_le)) h₂, h₃, h₄⟩

/-- **`tcp_send`** keeps the order of what is sent. -/
theorem OutOrder.send {data : List UInt8} (h : OutOrder t L) :
    OutOrder (t.send now data).1 (L.next t (.send now data)) := by
  by_cases hst : t.state = .established
  · have hsend : t.send now data = (((t.enqueue data).output now).1,
        ((min data.length (TXCAP - t.tx.length) : Nat) : Int), ((t.enqueue data).output now).2) := by
      simp only [Tcp.send]
      split
      · rename_i e
        exact absurd (e.symm.trans hst) (by decide)
      · rfl
      · rename_i e
        exact absurd hst e
    have hout := (h.queue (h.open' (.inl hst)) (d := data.take (TXCAP - t.tx.length))
      (List.length_take_le _ _)).output now
    have hact : t.act (.send now data) = (t.enqueue data).output now := by rw [Tcp.act, hsend]
    change OutOrder (t.act (.send now data)).1 _
    rw [hact]
    refine hout.note rfl ?_ ?_ rfl ?_
    · rw [Link.next_up, hact]
      exact hout.up_eq rfl
    · rw [Link.next_queued, Link.queues, hsend]
      change _ = L.queued ++ data.take (TXCAP - t.tx.length)
      rw [List.take_eq_take_min (i := TXCAP - t.tx.length), Nat.min_comm]
      rfl
    · rw [Link.next_sent, hact]
      rfl
  · obtain ⟨r, hr, hsend⟩ : ∃ r : Int, r.toNat = 0 ∧ t.send now data = (t, r, []) := by
      simp only [Tcp.send]
      split
      · exact ⟨0, rfl, rfl⟩
      · rename_i e
        exact absurd e hst
      · exact ⟨-1, rfl, rfl⟩
    have hact : (t.act (.send now data)).1 = t := by rw [Tcp.act, hsend]
    change OutOrder (t.act (.send now data)).1 _
    rw [hact]
    refine h.note rfl ?_ ?_ rfl ?_
    · rw [Link.next_up, hact]
      exact h.up_eq rfl
    · rw [Link.next_queued, Link.queues, hsend, hr, List.take_zero, List.append_nil]
    · rw [Link.next_sent, Tcp.act, hsend, List.append_nil]

/-- **`tcp_recv`** keeps the order of what is sent. -/
theorem OutOrder.recv (h : OutOrder t L) (len : Nat) :
    OutOrder (t.recv len).1 (L.next t (.recv len)) := by
  obtain ⟨hsame, hst, hnone⟩ : ((t.recv len).1.tx = t.tx ∧ (t.recv len).1.sndUna = t.sndUna ∧
      (t.recv len).1.sndNxt = t.sndNxt) ∧ (t.recv len).1.state = t.state ∧
      ∀ s ∈ (t.recv len).2.2.2, s.data = [] := by
    simp only [Tcp.recv]
    split
    · exact ⟨⟨rfl, rfl, rfl⟩, rfl, by simp⟩
    · split
      · exact ⟨⟨rfl, rfl, rfl⟩, rfl, by simp [Tcp.ackNow, Tcp.segment]⟩
      · exact ⟨⟨rfl, rfl, rfl⟩, rfl, by simp⟩
  have hout : OutOrder (t.recv len).1 (L.sends (t.recv len).2.2.2) := h.congr hsame
    ⟨fun e => hst ▸ e, fun e => hst ▸ e⟩ ⟨rfl, rfl, rfl, rfl⟩ ⟨_, rfl, hnone⟩
  exact hout.note rfl (hout.up_eq rfl) (List.append_nil _) rfl rfl

/-- **`tcp_close`** keeps the order of what is sent. -/
theorem OutOrder.close (h : OutOrder t L) : OutOrder t.close.1 (L.next t .close) := by
  obtain ⟨hsame, hst, hnone⟩ : (t.close.1.tx = t.tx ∧ t.close.1.sndUna = t.sndUna ∧
      t.close.1.sndNxt = t.sndNxt) ∧ t.close.1.state = .free ∧ ∀ s ∈ t.close.2, s.data = [] := by
    simp only [Tcp.close]
    split <;> refine ⟨⟨rfl, rfl, rfl⟩, ?_⟩ <;> simp [Tcp.segment]
  have hout : OutOrder t.close.1 (L.sends t.close.2) := h.congr hsame
    ⟨fun e => absurd (hst.symm.trans e) (by decide), fun e => by
      rw [hst] at e
      exact absurd e (by decide)⟩ ⟨rfl, rfl, rfl, rfl⟩ ⟨_, rfl, hnone⟩
  exact hout.note rfl (hout.up_eq rfl) (List.append_nil _) rfl rfl

/-- **Each act** keeps the order of what is sent. -/
theorem OutOrder.act (h : OutOrder t L) (a : Act) : OutOrder (t.act a).1 (L.next t a) := by
  cases a with
  | input now s => exact h.input
  | timer now => exact h.timer
  | send now data => exact h.send
  | recv len => exact h.recv len
  | close => exact h.close

variable {P : Stack × Log → Event → Prop} {x : Stack × Log}

theorem outOrder_init : OutOrder TCP_INIT .none :=
  ⟨Nat.le_refl _, rfl, rfl, Nat.le_refl _, Nat.zero_le _, Nat.le_refl _, fun _ => rfl,
    fun _ => rfl, by simp [TCP_INIT, TcpState.Open], by simp [Link.none], fun o ho => by
      simp [Link.high, Link.acked, Link.none, TCP_INIT, Tcp.inFlight] at ho⟩

theorem outOrder_connect (t : Tcp) (now : Nat) (lport : UInt16) (ip : Ip) (port : UInt16)
    (isn : UInt32) (id : Nat) : OutOrder (t.connect now lport ip port isn).1
      { Link.none with id := id, isn := isn, sent := (t.connect now lport ip port isn).2 } := by
  have hfl : (t.connect now lport ip port isn).1.inFlight = 0 :=
    congrArg UInt32.toNat (UInt32.sub_self isn)
  refine ⟨Nat.le_refl _, rfl, (Seq.nth_zero _).symm, ?_, Nat.zero_le _, Nat.le_refl _,
    fun _ => rfl, fun _ => rfl, by simp [Tcp.connect, Tcp.segment, TcpState.Open],
    by simp [Tcp.connect, Tcp.segment], fun o ho => ?_⟩
  · rw [hfl]
    exact Nat.zero_le _
  · rw [Link.high, hfl] at ho
    exact absurd ho (Nat.not_lt_zero _)

theorem outOrder (hx : Going P x) (h : Nat) : OutOrder (x.1.tcps h) (x.2.link h) :=
  hx.invariant (I := OutOrder) outOrder_init outOrder_connect (fun _ _ _ a _ _ hi => hi.act a) h

/-! ### The window -/

/-- An act that sends data leaves no more in flight than the window has room for. -/
def Throttled (t : Tcp) (a : Act) : Prop :=
  (∃ s ∈ (t.act a).2, s.data ≠ []) → (t.act a).1.inFlight ≤ (t.act a).1.window

theorem OutOrder.output_window (h : OutOrder t L) (now : Nat)
    (hs : ∃ s ∈ (t.output now).2, s.data ≠ []) :
    (t.output now).1.inFlight ≤ (t.output now).1.window := by
  by_cases ho : t.state.Open
  · have hrule : OutOrder (t.output now).1 (L.sends (t.output now).2) ∧
        ((∃ s ∈ (t.output now).2, s.data ≠ []) →
          (t.output now).1.inFlight ≤ (t.output now).1.window) := by
      refine Tcp.output_rule (M := fun u out => OutOrder u (L.sends out) ∧
        ((∃ s ∈ out, s.data ≠ []) → u.inFlight ≤ u.window)) ⟨?_, by simp⟩ ?_
      · rwa [Link.sends, List.append_nil]
      · rintro u out ⟨hu, -⟩ hcan
        have hnext : OutOrder (u.transmit now).1 _ := hu.transmit (h.open' ho)
        rw [Link.sends, Link.sends, List.append_assoc] at hnext
        refine ⟨hnext, fun _ => ?_⟩
        have hburst : u.burst ≤ u.window - u.inFlight := Nat.min_le_right ..
        rw [hu.transmit_inFlight]
        exact Nat.add_le_of_le_sub' hcan.2.le hburst
    exact hrule.2 hs
  · have hout : t.output now = (t, []) := by
      rw [Tcp.output, if_pos]
      exact not_or.mp ho
    rw [hout] at hs
    simp at hs

theorem OutOrder.respond_window (h : OutOrder t L) (now : Nat) (need : Bool)
    (hs : ∃ s ∈ (t.respond now need).2, s.data ≠ []) :
    (t.respond now need).1.inFlight ≤ (t.respond now need).1.window := by
  cases need with
  | true =>
      obtain ⟨s, hs, hd⟩ := hs
      have hack : OutOrder t.ackNow.1 (L.sends [t.ackNow.2]) := h.plain ⟨rfl, rfl, rfl⟩ rfl rfl
      refine hack.output_window now ?_
      rcases List.mem_cons.mp hs with rfl | hs
      · exact absurd rfl hd
      · exact ⟨s, hs, hd⟩
  | false => exact h.output_window now hs

theorem OutOrder.throttled (h : OutOrder t L) (a : Act) : Throttled t a := by
  intro hs
  cases a with
  | input now s =>
      by_cases hrst : has s.flags RST = true
      · simp [Tcp.act, Tcp.input, hrst] at hs
      by_cases hsyn : t.state = .synSent
      · by_cases ho : t.opens s
        · have hin : t.act (.input now s) = (t.establish s).respond now true := by
            rw [Tcp.act, Tcp.input, if_neg hrst, if_pos hsyn, if_pos ho]
          rw [hin] at hs ⊢
          exact (h.establish hsyn ho).respond_window now true hs
        · simp [Tcp.act, Tcp.input, hrst, hsyn, ho] at hs
      · obtain ⟨u, need, hin, hu, -⟩ := h.before_respond now hrst hsyn
        change ∃ r ∈ (t.input now s).2, _ at hs
        change (t.input now s).1.inFlight ≤ _
        rw [hin] at hs
        rw [Tcp.act, hin]
        exact hu.respond_window now need hs
  | timer now =>
      by_cases hl : t.Late now
      · by_cases hr : MAX_RETRIES < t.retries + 1
        · simp [Tcp.act, Tcp.timer, hl, hr] at hs
        · by_cases hp : t.synPending = true
          · simp [Tcp.act, Tcp.timer, hl, hr, hp, Tcp.segment] at hs
          · have ht : t.act (.timer now) = (t.retry now).goBack.output now := by
              rw [Tcp.act, Tcp.timer, if_pos hl, if_neg hr, if_neg hp]
            have hgo := h.noteBack.goBack (u := (t.retry now).goBack) (Nat.le_max_right ..)
              ⟨rfl, rfl, rfl⟩ rfl
            rw [ht] at hs ⊢
            exact hgo.output_window now hs
      · simp [Tcp.act, Tcp.timer, hl] at hs
  | send now data =>
      by_cases hst : t.state = .established
      · have ha : t.act (.send now data) = (t.enqueue data).output now := by
          simp [Tcp.act, Tcp.send, hst]
        have hq := h.queue (h.open' (.inl hst)) (d := data.take (TXCAP - t.tx.length))
          (List.length_take_le _ _)
        rw [ha] at hs ⊢
        exact hq.output_window now hs
      · simp only [Tcp.act, Tcp.send] at hs
        split at hs
        · simp at hs
        · rename_i e
          exact absurd e hst
        · simp at hs
  | recv len =>
      simp only [Tcp.act, Tcp.recv] at hs
      split at hs
      · simp at hs
      · split at hs <;> simp [Tcp.ackNow, Tcp.segment] at hs
  | close =>
      simp only [Tcp.act, Tcp.close] at hs
      split at hs <;> simp [Tcp.segment] at hs

/-! ### Acknowledgments -/

/-- An ACK up to byte `o` of what is in flight leaves what is behind it, and one of bytes that were
acknowledged, less than `2 ^ 32` bytes ago, leaves all. -/
def AckTaken (t : Tcp) (L : Link) (now : Nat) (s : Segment) : Prop :=
  ∀ o, has s.flags RST = false → t.state ≠ .synSent → has s.flags ACK = true →
    s.ack = Seq.nth L.isn (1 + o) →
    (L.acked t ≤ o → o ≤ L.acked t + t.inFlight →
      (L.next t (.input now s)).acked (t.input now s).1 = o) ∧
    (o ≤ L.acked t → L.acked t + t.inFlight < o + 2 ^ 32 →
      (L.next t (.input now s)).acked (t.input now s).1 = L.acked t)

theorem Tcp.Beside.tx (h : t.Beside u) : u.tx = t.tx := by
  rw [Beside] at h
  rw [h]

theorem OutOrder.ackTaken (h : OutOrder t L) : AckTaken t L now s := by
  intro o hrst hsyn hack ho
  have hrst' : ¬ has s.flags RST = true := by simp [hrst]
  obtain ⟨u, need, hin, -, htx⟩ := h.before_respond now hrst' hsyn
  have hacked : (L.next t (.input now s)).acked (t.input now s).1 = L.acked t + acks t s := by
    have hqueue : (L.next t (.input now s)).queued = L.queued := List.append_nil _
    rw [← (h.ackIn now s).2.1, Link.acked, Link.acked, hqueue, hin,
      (Tcp.respond_beside ..).tx, htx]
  have hle := acks_le t s
  have hlt := h.flight_lt
  rw [hacked]
  cases hup : L.up with
  | false =>
      have hq := h.down hup
      have hz : t.inFlight = 0 := Nat.le_zero.mp (h.flight.trans (by rw [h.tx, hq]; simp))
      have hz' : L.acked t = 0 := by rw [Link.acked, hq, List.length_nil, Nat.zero_sub]
      exact ⟨by omega, by omega⟩
  | true =>
      have hun := h.una
      rw [hup, Bool.toNat_true] at hun
      constructor
      · intro h₁ h₂
        have hk : (s.ack - t.sndUna).toNat = o - L.acked t := by
          rw [ho, hun, show 1 + o = 1 + L.acked t + (o - L.acked t) by omega]
          exact Seq.nth_sub_self (by omega)
        rw [acks, hk, if_pos ⟨hack, by omega⟩]
        omega
      · intro h₁ h₂
        rcases Nat.eq_or_lt_of_le h₁ with rfl | hback
        · have hk : (s.ack - t.sndUna).toNat = 0 := by
            rw [ho, hun, UInt32.sub_self]
            rfl
          rw [acks, hk, ite_self, Nat.add_zero]
        · have hk : (s.ack - t.sndUna).toNat = 2 ^ 32 - (L.acked t - o) := by
            rw [ho, hun, show 1 + L.acked t = 1 + o + (L.acked t - o) by omega]
            exact Seq.nth_sub_back (by omega) (by omega)
          rw [acks, hk, if_neg (by omega), Nat.add_zero]

/-- **What TCP sends** is what was queued, under its numbers: the buffer starts with the first byte
not acknowledged, the part in flight was sent, no act sends more than the window has room for, and an
ACK removes what it acknowledges of that part. -/
theorem sent_in_order (hx : Going P x) (h : Nat) : OutOrder (x.1.tcps h) (x.2.link h) ∧
    ∀ e a, x.1.actAt h e = some a → Throttled (x.1.tcps h) a ∧
      ∀ now s, a = .input now s → AckTaken (x.1.tcps h) (x.2.link h) now s := by
  have hout := outOrder hx h
  exact ⟨hout, fun e a _ => ⟨hout.throttled a, fun now s _ => hout.ackTaken⟩⟩

/-- Three bytes are in flight when the window of the peer shrinks to one, and time out. -/
def timedOut : List Event :=
  opening 100 ++ [.send 1 0 [1, 2, 3], fromPeer 8 1 ACK 1 [], .timers 500]

theorem sent_in_order_run : ∃ x, (Going (fun _ _ => True) x ∧ (x.2.link 0).queued = [1, 2, 3] ∧
    (x.1.tcps 0).inFlight = 1) ∧ OutOrder (x.1.tcps 0) (x.2.link 0) ∧
    ∀ e a, x.1.actAt 0 e = some a → Throttled (x.1.tcps 0) a ∧
      ∀ now s, a = .input now s → AckTaken (x.1.tcps 0) (x.2.link 0) now s := by
  have hboot : Going (fun _ _ => True) (.boot, .none) := .init ⟨rfl, rfl⟩
  have hrun : (Runs.run (Runs.noted Stack.step Log.note) (fun _ _ => True) timedOut
      (.boot, .none)).any (fun x => decide ((x.2.link 0).queued = [1, 2, 3] ∧
        (x.1.tcps 0).inFlight = 1)) = true := by decide +kernel
  obtain ⟨x, hx, hw⟩ := hboot.run_any hrun
  exact ⟨x, ⟨hx, hw⟩, sent_in_order hx 0⟩

/-- **What is in flight may exceed the window** of the peer, which may shrink, and **an ACK may be
lost**, of bytes that were sent and that a time-out took back. -/
theorem ack_lost :
    (¬ ∀ x h, Going (fun _ _ => True) x → (x.1.tcps h).inFlight ≤ (x.1.tcps h).peerWnd) ∧
    ¬ ∀ x h, Going (fun _ _ => True) x → ∀ e now s o, x.1.actAt h e = some (.input now s) →
      has s.flags RST = false → (x.1.tcps h).state ≠ .synSent → has s.flags ACK = true →
      s.ack = Seq.nth (x.2.link h).isn (1 + o) → (x.2.link h).acked (x.1.tcps h) ≤ o →
      o ≤ (x.2.link h).high (x.1.tcps h) →
      ((x.2.link h).next (x.1.tcps h) (.input now s)).acked ((x.1.tcps h).input now s).1 = o := by
  have hboot : Going (fun _ _ => True) (.boot, .none) := .init ⟨rfl, rfl⟩
  constructor
  · intro h
    have hrun : (Runs.run (Runs.noted Stack.step Log.note) (fun _ _ => True)
        (opening 100 ++ [.send 1 0 [1, 2, 3], fromPeer 8 1 ACK 1 []]) (.boot, .none)).any
        (fun x => decide ((x.1.tcps 0).peerWnd < (x.1.tcps 0).inFlight)) = true := by
      decide +kernel
    obtain ⟨x, hx, hlt⟩ := hboot.run_any hrun
    exact absurd (h x 0 hx) (Nat.not_le.mpr hlt)
  · intro h
    have hrun : (Runs.run (Runs.noted Stack.step Log.note) (fun _ _ => True) timedOut
        (.boot, .none)).any (fun x => (x.1.inputAt (fromPeer 8 4 ACK 1 [])).any fun y =>
          decide (y.1 = 0 ∧ has y.2.2.flags RST = false ∧ (x.1.tcps 0).state ≠ .synSent ∧
            has y.2.2.flags ACK = true ∧ y.2.2.ack = Seq.nth (x.2.link 0).isn (1 + 3) ∧
            (x.2.link 0).acked (x.1.tcps 0) ≤ 3 ∧ 3 ≤ (x.2.link 0).high (x.1.tcps 0) ∧
            ((x.2.link 0).next (x.1.tcps 0) (.input y.2.1 y.2.2)).acked
              ((x.1.tcps 0).input y.2.1 y.2.2).1 ≠ 3)) = true := by
      decide +kernel
    obtain ⟨x, hx, hy⟩ := (Option.any_eq_true _ _).mp hrun
    obtain ⟨⟨i, now, s⟩, hy, hd⟩ := (Option.any_eq_true _ _).mp hy
    obtain ⟨rfl, h₁, h₂, h₃, h₄, h₅, h₆, h₇⟩ := of_decide_eq_true hd
    exact h₇ (h x 0 (hboot.run hx) _ now s 3 (Stack.actAt_input.mpr hy) h₁ h₂ h₃ h₄ h₅ h₆)

/-! ### The timer -/

/-- The peer owes an answer, to the SYN or to bytes that were queued. -/
def Tcp.Owed (t : Tcp) : Prop := t.state = .synSent ∨ t.state.Open ∧ t.tx ≠ []

/-- What `tcp_output` and `tcp_timers` go by. -/
structure Ready (t : Tcp) : Prop where
  mss : t.state = .synSent ∨ t.state.Open → 0 < t.mss
  syn : t.state = .synSent → t.synPending = true
  up : t.state.Open → t.synPending = false

/-- Some of what is queued is in flight. -/
structure Flying (t : Tcp) : Prop extends Ready t where
  flying : t.state.Open → t.tx ≠ [] → t.sndNxt ≠ t.sndUna

theorem Flying.down (h : t.state = .free ∨ t.state = .error) : Flying t := by
  refine ⟨⟨?_, ?_, ?_⟩, ?_⟩ <;> rcases h with h | h <;> simp [h, TcpState.Open]

theorem Ready.beside (hb : t.Beside u) : Ready u ↔ Ready t := by
  rw [Tcp.Beside] at hb
  rw [hb]
  exact ⟨fun h => ⟨h.mss, h.syn, h.up⟩, fun h => ⟨h.mss, h.syn, h.up⟩⟩

theorem mssScan_pos {k m : Nat} {o : List UInt8} (h : 0 < m) : 0 < Tcp.mssScan k o m := by
  fun_induction Tcp.mssScan k o m <;> grind

theorem Ready.input (h : Ready t) : Ready (t.input now s).1 := by
  rw [Tcp.input]
  split_ifs with hrst hsyn
  · exact (Flying.down (.inr rfl)).toReady
  · exact (Ready.beside (Tcp.respond_beside ..)).mpr
      ⟨fun _ => mssScan_pos (h.mss (.inl hsyn)), by simp [Tcp.establish], fun _ => rfl⟩
  · exact h
  · refine (Ready.beside (Tcp.respond_beside ..)).mpr ?_
    have hack : Ready (t.ackIn now s) := by
      simp only [Tcp.ackIn]
      split_ifs <;> exact ⟨h.mss, h.syn, h.up⟩
    have hdata : Ready ((t.ackIn now s).dataIn s.seq s.data).1 := by
      rw [Tcp.dataIn]
      split
      · exact hack
      · split
        · exact ⟨hack.mss, hack.syn, hack.up⟩
        · split <;> exact ⟨hack.mss, hack.syn, hack.up⟩
    rw [Tcp.finIn]
    split_ifs with hfin
    · have ho : ((t.ackIn now s).dataIn s.seq s.data).1.state.Open := .inl hfin.2.2.2
      exact ⟨fun _ => hdata.mss (.inr ho), by simp, fun _ => hdata.up ho⟩
    · exact hdata

/-- **`tcp_output`** leaves something in flight, where something is queued. -/
theorem OutOrder.output_flying (h : OutOrder t L) (hr : Ready t) (now : Nat) :
    Flying (t.output now).1 := by
  refine ⟨(Ready.beside (Tcp.output_beside ..)).mpr hr, fun ho hne heq => ?_⟩
  have hup : t.state.Open := (Tcp.output_beside t now).state ▸ ho
  refine h.output_done hup (hr.mss (.inr hup)) now ?_
  have hz : (t.output now).1.inFlight = 0 := by
    rw [Tcp.inFlight, heq, UInt32.sub_self]
    rfl
  rw [Tcp.CanSend, hz]
  exact ⟨List.length_pos_iff.mpr hne, Nat.le_max_right ..⟩

theorem OutOrder.respond_flying (h : OutOrder t L) (now : Nat) (need : Bool)
    (hin : Ready (t.respond now need).1) : Flying (t.respond now need).1 := by
  have hr := (Ready.beside (Tcp.respond_beside t now need)).mp hin
  cases need with
  | true =>
      have hack : OutOrder t.ackNow.1 (L.sends [t.ackNow.2]) := h.plain ⟨rfl, rfl, rfl⟩ rfl rfl
      exact hack.output_flying ⟨hr.mss, hr.syn, hr.up⟩ now
  | false => exact h.output_flying hr now

/-- **Each act** leaves something in flight, where something is queued. -/
theorem OutOrder.flying (h : OutOrder t L) (hf : Flying t) (a : Act) : Flying (t.act a).1 := by
  have hr := hf.toReady
  cases a with
  | input now s =>
      have hin : Ready (t.input now s).1 := hr.input
      rw [Tcp.act]
      by_cases hrst : has s.flags RST = true
      · rw [Tcp.input, if_pos hrst]
        exact .down (.inr rfl)
      by_cases hsyn : t.state = .synSent
      · rw [Tcp.input, if_neg hrst, if_pos hsyn] at hin ⊢
        split_ifs at hin ⊢ with ho
        · exact (h.establish hsyn ho).respond_flying now true hin
        · exact hf
      · obtain ⟨u, need, heq, hu, -⟩ := h.before_respond now hrst hsyn
        rw [heq] at hin ⊢
        exact hu.respond_flying now need hin
  | timer now =>
      rw [Tcp.act, Tcp.timer]
      split_ifs
      · exact .down (.inr rfl)
      · exact ⟨⟨hr.mss, hr.syn, hr.up⟩, hf.flying⟩
      · have hgo := h.noteBack.goBack (u := (t.retry now).goBack) (Nat.le_max_right ..)
          ⟨rfl, rfl, rfl⟩ rfl
        exact hgo.output_flying ⟨hr.mss, hr.syn, hr.up⟩ now
      · exact hf
  | send now data =>
      rw [Tcp.act, Tcp.send]
      split
      · exact hf
      · rename_i hst
        exact (h.queue (h.open' (.inl hst)) (List.length_take_le _ _)).output_flying
          ⟨hr.mss, hr.syn, hr.up⟩ now
      · exact hf
  | recv len =>
      simp only [Tcp.act, Tcp.recv]
      split_ifs <;> exact ⟨⟨hr.mss, hr.syn, hr.up⟩, hf.flying⟩
  | close => exact .down (.inl rfl)

/-- **No connection stalls**, in any run: while the peer owes an answer the timer runs, a time-out
sends the SYN or the first bytes not acknowledged again, or gives the connection up, and
`tcp_output` leaves nothing that it may send. -/
theorem no_stall (hx : Going P x) (h : Nat) (ho : (x.1.tcps h).Owed) : (x.1.tcps h).Waits ∧
    (∀ now, (x.1.tcps h).Late now → ((x.1.tcps h).timer now).1.state = .error ∨
      ∃ s ∈ ((x.1.tcps h).timer now).2, s.seq = (x.1.tcps h).sndUna ∧
        (has s.flags SYN = true ∨ s.data ≠ [])) ∧
    ∀ now, (x.1.tcps h).state.Open → ¬ ((x.1.tcps h).output now).1.CanSend := by
  obtain ⟨hout, ⟨hmss, hpend, -⟩, hf⟩ := hx.invariant (I := fun t L => OutOrder t L ∧ Flying t)
    ⟨outOrder_init, .down (.inl rfl)⟩
    (fun t now lport ip port isn id => ⟨outOrder_connect .., ⟨fun _ => (by decide : 0 < 536),
      fun _ => rfl, fun ho => by simp [Tcp.connect, Tcp.segment, TcpState.Open] at ho⟩,
      fun ho => by simp [Tcp.connect, Tcp.segment, TcpState.Open] at ho⟩)
    (fun y e h a _ _ hi => ⟨hi.1.act a, hi.1.flying hi.2 a⟩) h
  generalize x.1.tcps h = t at *
  refine ⟨?_, fun now hl => ?_, fun now hup => hout.output_done hup (hmss (.inr hup)) now⟩
  · rcases ho with hs | ⟨hup, hne⟩
    · exact ⟨.inl (hpend hs), by simp [hs]⟩
    · refine ⟨.inr (hf hup hne), ?_⟩
      rcases hup with hs | hs <;> simp [hs]
  · rw [Tcp.timer, if_pos hl]
    split_ifs with hmax hsyn
    · exact .inl rfl
    · exact .inr ⟨_, List.mem_singleton_self _, rfl, .inl (by decide : has SYN SYN = true)⟩
    · obtain ⟨hup, hne⟩ := ho.resolve_left fun hs => hsyn (hpend hs)
      set u := (t.retry now).goBack
      have hz : u.inFlight = 0 := congrArg UInt32.toNat (UInt32.sub_self _)
      have hpos : 0 < u.tx.length := List.length_pos_iff.mpr hne
      have hmss : 0 < u.mss := hmss (.inr hup)
      have hwnd : 0 < u.window := Nat.le_max_right ..
      have hcan : u.CanSend := by rwa [Tcp.CanSend, hz, and_iff_right hpos]
      have hfirst : (u.transmit now).2 ∈ (u.output now).2 := by
        obtain ⟨n, hn⟩ := Nat.exists_eq_add_one.mpr hpos
        rw [Tcp.output, if_neg fun e => hup.elim e.1 e.2, hn, Tcp.outputLoop, if_pos hcan]
        exact List.mem_cons_self
      refine .inr ⟨_, hfirst, rfl, .inr (List.ne_nil_of_length_pos ?_)⟩
      change 0 < ((u.tx.drop u.inFlight).take u.burst).length
      rw [List.length_take, List.length_drop, Tcp.burst, hz]
      omega

theorem no_stall_run : ∃ x, Going (fun _ _ => True) x ∧ (x.1.tcps 0).Owed ∧ (x.1.tcps 0).Waits := by
  have hboot : Going (fun _ _ => True) (.boot, .none) := .init ⟨rfl, rfl⟩
  have hrun : (Runs.run (Runs.noted Stack.step Log.note) (fun _ _ => True)
      (opening 100 ++ [.send 1 0 [1, 2, 3]]) (.boot, .none)).any (fun x => decide
        ((x.1.tcps 0).state = .established ∧ (x.1.tcps 0).tx ≠ [])) = true := by decide +kernel
  obtain ⟨x, hx, hst, hne⟩ := hboot.run_any hrun
  exact ⟨x, hx, .inr ⟨.inl hst, hne⟩, (no_stall hx 0 (.inr ⟨.inl hst, hne⟩)).1⟩

end Pulsar.Net

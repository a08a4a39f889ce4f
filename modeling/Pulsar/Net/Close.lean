import Pulsar.Net.Transmit

/-!
# Closing a TCP connection (`net.rs`)

`tcp_close` sends a FIN at once and gives the slot back; what the window had no room for is lost.

* `closed_after_all`: in every run where nothing waits to be sent when an open connection is closed,
  each byte queued was sent before the FIN.
* `closed_early`: a connection that is closed before it could send.
-/

namespace Pulsar.Net

variable {t u : Tcp} {L : Link} {a : Act} {now : Nat}

/-! ### Segments with a FIN -/

/-- None of the segments has a FIN. -/
def NoFin (out : List Sent) : Prop := ∀ s ∈ out, has s.flags FIN = false

theorem noFin_singleton {s : Sent} (h : has s.flags FIN = false) : NoFin [s] := fun _ hs => by
  rwa [List.mem_singleton.mp hs]

theorem NoFin.append {out out' : List Sent} (h : NoFin out) (h' : NoFin out') :
    NoFin (out ++ out') := fun s hs => (List.mem_append.mp hs).elim (h s) (h' s)

theorem has_fin : has (ACK ||| PSH) FIN = false ∧ has ACK FIN = false ∧ has SYN FIN = false ∧
    has RST FIN = false ∧ has (FIN ||| ACK) FIN = true := by
  decide

theorem output_noFin (t : Tcp) (now : Nat) : NoFin (t.output now).2 := by
  refine Tcp.output_rule (M := fun _ out => NoFin out) (by simp [NoFin]) fun u out h _ => ?_
  exact h.append (noFin_singleton has_fin.1)

theorem respond_noFin (t : Tcp) (now : Nat) (need : Bool) : NoFin (t.respond now need).2 := by
  cases need with
  | true => exact (noFin_singleton (s := t.ackNow.2) has_fin.2.1).append (output_noFin _ _)
  | false => exact output_noFin t now

/-- Only `tcp_close` sends a FIN. -/
theorem act_noFin (h : a ≠ .close) : NoFin (t.act a).2 := by
  have hnil : NoFin [] := by simp [NoFin]
  cases a with
  | input now s =>
      simp only [Tcp.act, Tcp.input]
      split
      · exact hnil
      · split
        · split
          · exact respond_noFin _ _ _
          · exact hnil
        · exact respond_noFin _ _ _
  | timer now =>
      simp only [Tcp.act, Tcp.timer]
      split
      · split
        · exact hnil
        · split
          · exact noFin_singleton has_fin.2.2.1
          · exact output_noFin _ _
      · exact hnil
  | send now data =>
      simp only [Tcp.act, Tcp.send]
      split
      · exact hnil
      · exact output_noFin _ _
      · exact hnil
  | recv len =>
      simp only [Tcp.act, Tcp.recv]
      split
      · exact hnil
      · split
        · exact noFin_singleton has_fin.2.1
        · exact hnil
  | close => exact absurd rfl h

/-! ### Closing -/

/-- Nothing waits to be sent: the buffer is in flight, or all of it was when the timers ran. -/
def NothingWaits (t : Tcp) (L : Link) : Prop :=
  t.tx.length ≤ t.inFlight ∨ L.queued.length ≤ L.back

instance : Decidable (NothingWaits t L) := by
  unfold NothingWaits
  infer_instance

/-- Each open connection that is closed has nothing that waits. -/
def Drained (x : Stack × Log) (e : Event) : Prop :=
  ∀ h, x.1.actAt h e = some .close → (x.1.tcps h).state.Open →
    NothingWaits (x.1.tcps h) (x.2.link h)

/-- Each byte queued is carried by a segment. -/
def Link.AllSent (L : Link) (out : List Sent) : Prop :=
  ∀ o < L.queued.length, ∃ s ∈ out, L.Carries s o

/-- Until a connection is closed it sends no FIN; it has sent all before the FIN; and a slot is given
back by a connection that was closed so, that had failed, or that had nothing to send. -/
structure Sealed (t : Tcp) (L : Link) : Prop where
  fin : L.closed = true → t.state = .free ∧ ∃ pre fin, L.sent = pre ++ [fin] ∧
    has fin.flags FIN = true ∧ NoFin pre ∧ L.AllSent pre
  none : L.closed = false → NoFin L.sent
  error : t.state = .error → L.failed = true
  free : t.state = .free → L.closed = true ∨ L.failed = true ∨ L.queued = []

/-- **All is sent** if nothing waits. -/
theorem OutOrder.allSent (h : OutOrder t L) (hw : NothingWaits t L) : L.AllSent L.sent := by
  intro o ho
  refine h.covered o (ho.trans_le ?_)
  have hadd := h.acked_add
  rcases hw with hw | hw
  · exact (show L.queued.length ≤ L.acked t + t.inFlight by omega).trans (Nat.le_max_left ..)
  · exact hw.trans (Nat.le_max_right ..)

/-! ### Runs -/

theorem Sealed.act (h : Sealed t L) (hne : a ≠ .close)
    (hfree : t.state = .free → (t.act a) = (t, []) ∧ Link.queues t a = [])
    (hst : (t.act a).1.state = .free → t.state = .free) : Sealed (t.act a).1 (L.next t a) := by
  have hclosed : (L.next t a).closed = L.closed := by
    cases a with
    | close => exact absurd rfl hne
    | _ => exact Bool.or_false _
  constructor
  · intro e
    rw [hclosed] at e
    obtain ⟨hf, pre, fin, hpre, hfin, hno, hall⟩ := h.fin e
    obtain ⟨hact, hq⟩ := hfree hf
    refine ⟨by rw [hact]; exact hf, pre, fin, ?_, hfin, hno, fun o hlt => ?_⟩
    · rw [Link.next_sent, hact, List.append_nil, hpre]
    · rw [Link.next_queued, hq, List.append_nil] at hlt
      obtain ⟨s, hs, k, hc⟩ := hall o hlt
      refine ⟨s, hs, k, ?_⟩
      rwa [Link.next_queued, hq, List.append_nil]
  · intro e s hs
    rw [hclosed] at e
    rcases List.mem_append.mp hs with hs | hs
    · exact h.none e s hs
    · exact act_noFin hne s hs
  · intro e
    rw [Link.next_failed, e]
    exact Bool.or_true _
  · intro e
    have hf := hst e
    rw [hclosed, Link.next_failed, Link.next_queued, (hfree hf).2, List.append_nil]
    refine (h.free hf).imp_right (Or.imp_left fun e => ?_)
    rw [e, Bool.true_or]

theorem close_free (t : Tcp) : t.close.1.state = .free := rfl

theorem close_sent (t : Tcp) :
    (t.state.Open → ∃ fin, t.close.2 = [fin] ∧ has fin.flags FIN = true) ∧
    (¬ t.state.Open → NoFin t.close.2) := by
  simp only [Tcp.close]
  split
  · rename_i e
    exact ⟨fun _ => ⟨_, rfl, has_fin.2.2.2.2⟩, fun h => absurd (.inl e) h⟩
  · rename_i e
    exact ⟨fun _ => ⟨_, rfl, has_fin.2.2.2.2⟩, fun h => absurd (.inr e) h⟩
  · rename_i e
    refine ⟨fun h => ?_, fun _ => noFin_singleton has_fin.2.2.2.1⟩
    rw [e] at h
    exact absurd h (by decide)
  · rename_i h₁ h₂ _
    exact ⟨fun h => h.elim (fun e => absurd e h₁) fun e => absurd e h₂, fun _ => by simp [NoFin]⟩

/-- **A connection is closed.** -/
theorem Sealed.close (h : Sealed t L) (ho : OutOrder t L) (hused : t.state ≠ .free)
    (hw : t.state.Open → NothingWaits t L) : Sealed t.close.1 (L.next t .close) := by
  obtain ⟨hopen, hshut⟩ := close_sent t
  have hfree := close_free t
  have hlive : L.closed = false := by
    by_contra e
    exact hused (h.fin (Bool.not_eq_false _ ▸ e)).1
  have hq : (L.next t .close).queued = L.queued := List.append_nil _
  have hclosed : (L.next t .close).closed = decide t.state.Open := by
    change (L.closed || decide t.state.Open) = _
    rw [hlive, Bool.false_or]
  constructor
  · intro e
    rw [hclosed] at e
    have hst := of_decide_eq_true e
    obtain ⟨fin, hout, hfin⟩ := hopen hst
    refine ⟨hfree, L.sent, fin, ?_, hfin, h.none hlive, fun o hlt => ?_⟩
    · rw [Link.next_sent, Tcp.act, hout]
    · rw [hq] at hlt
      obtain ⟨s, hs, k, hc⟩ := ho.allSent (hw hst) o hlt
      refine ⟨s, hs, k, ?_⟩
      rwa [hq]
  · intro e s hs
    rw [hclosed] at e
    rcases List.mem_append.mp hs with hs | hs
    · exact h.none hlive s hs
    · exact hshut (of_decide_eq_false e) s hs
  · intro e
    exact absurd (hfree.symm.trans e) (by decide)
  · intro _
    rw [hclosed, Link.next_failed, hq]
    by_cases hst : t.state.Open
    · exact .inl (decide_eq_true hst)
    · refine .inr ?_
      cases e : t.state with
      | free => exact absurd e hused
      | synSent => exact .inr (ho.down (ho.syn e))
      | error => exact .inl (by rw [h.error e, Bool.true_or])
      | established => exact absurd (.inl e) hst
      | peerClosed => exact absurd (.inr e) hst

theorem act_free {σ : Stack} {e : Event} {h : Nat} (ha : σ.actAt h e = some a)
    (hf : (σ.tcps h).state = .free) :
    (σ.tcps h).act a = (σ.tcps h, []) ∧ Link.queues (σ.tcps h) a = [] ∧ a ≠ .close := by
  have hunused : ¬ σ.InUse h := fun hu => hu.2 hf
  cases e with
  | timers now =>
      obtain ⟨-, e⟩ := (Option.ite_none_right_eq_some ..).mp ha
      cases e
      refine ⟨?_, rfl, by simp⟩
      rw [Tcp.act, Tcp.timer, if_neg fun hl => hl.1.2.1 hf]
  | frame now f =>
      simp only [Stack.actAt] at ha
      cases hp : packet f with
      | tcp src s =>
          rw [hp] at ha
          obtain ⟨ht, -⟩ := (Option.ite_none_right_eq_some ..).mp ha
          exact absurd hf (Stack.target_some ht).2.1
      | _ => simp [hp] at ha
  | send now h' data => exact absurd ((Option.ite_none_right_eq_some ..).mp ha).1.2 hunused
  | recv h' len => exact absurd ((Option.ite_none_right_eq_some ..).mp ha).1.2 hunused
  | close h' => exact absurd ((Option.ite_none_right_eq_some ..).mp ha).1.2 hunused
  | _ => cases ha

/-- Only `tcp_close` gives a slot back. -/
theorem act_state (hne : a ≠ .close) (h : (t.act a).1.state = .free) : t.state = .free := by
  cases a with
  | input now s =>
      simp only [Tcp.act, Tcp.input] at h
      split at h
      · simp at h
      · rename_i hrst
        split at h
        · rename_i hsyn
          split at h
          · rw [(Tcp.respond_beside ..).state] at h
            simp [Tcp.establish] at h
          · exact h
        · rw [(Tcp.respond_beside ..).state, Tcp.finIn] at h
          split at h
          · simp at h
          · rwa [(dataIn_out ..).2, (ackIn_spec ..).2.2.2] at h
  | timer now =>
      simp only [Tcp.act, Tcp.timer] at h
      split at h
      · split at h
        · simp [Tcp.giveUp] at h
        · split at h
          · exact h
          · rwa [(Tcp.output_beside ..).state] at h
      · exact h
  | send now data =>
      simp only [Tcp.act, Tcp.send] at h
      split at h
      · exact h
      · rwa [(Tcp.output_beside ..).state] at h
      · exact h
  | recv len =>
      simp only [Tcp.act, Tcp.recv] at h
      split at h
      · exact h
      · split at h <;> exact h
  | close => exact absurd rfl hne

variable {x : Stack × Log}

/-- **No byte is dropped by closing** a connection, in the runs where nothing waits to be sent when
one that is open is closed. -/
theorem closed_after_all (hx : Going Drained x) (h : Nat) : Sealed (x.1.tcps h) (x.2.link h) := by
  refine (hx.invariant (I := fun t L => OutOrder t L ∧ Sealed t L) ?_ ?_ ?_ h).2
  · refine ⟨outOrder_init, by simp [Link.none], by simp [Link.none, NoFin], by simp [TCP_INIT],
      fun _ => .inr (.inr rfl)⟩
  · intro t now lport ip port isn id
    refine ⟨outOrder_connect .., by simp [Link.none], fun _ => noFin_singleton has_fin.2.2.1, ?_, ?_⟩
      <;> simp [Tcp.connect, Tcp.segment]
  · rintro x e h a he ha ⟨ho, hs⟩
    refine ⟨ho.act a, ?_⟩
    by_cases hc : a = .close
    · subst hc
      exact hs.close ho (fun hf => (act_free ha hf).2.2 rfl) (he h ha)
    · exact hs.act hc (fun hf => ⟨(act_free ha hf).1, (act_free ha hf).2.1⟩) (act_state hc)

/-! ### Examples of runs -/

instance (e : Event) : Decidable (Drained x e) :=
  decidable_of_iff (∀ h < MAX_TCP, x.1.actAt h e = some .close → (x.1.tcps h).state.Open →
      NothingWaits (x.1.tcps h) (x.2.link h))
    ⟨fun hd h ha => hd h (Stack.actAt_lt ha) ha, fun hd h _ ha => hd h ha⟩

/-- A connection sends three bytes, is closed, and sends its FIN. -/
def sentAndClosed : List Event := opening 100 ++ [.send 1 0 [1, 2, 3], .close 0]

theorem closed_after_all_run : ∃ x, (Going Drained x ∧ (x.2.link 0).closed = true ∧
    (x.2.link 0).queued = [1, 2, 3]) ∧ Sealed (x.1.tcps 0) (x.2.link 0) := by
  have hboot : Going Drained (.boot, .none) := .init ⟨rfl, rfl⟩
  have hrun : (Runs.run (Runs.noted Stack.step Log.note) Drained sentAndClosed
      (.boot, .none)).any (fun x => decide ((x.2.link 0).closed = true ∧
        (x.2.link 0).queued = [1, 2, 3])) = true := by decide +kernel
  obtain ⟨x, hx, hw⟩ := hboot.run_any hrun
  exact ⟨x, ⟨hx, hw⟩, closed_after_all hx 0⟩

/-- **Bytes are dropped** by closing a connection whose peer has room for one of them only. -/
theorem closed_early : ¬ ∀ x h, Going (fun _ _ => True) x → Sealed (x.1.tcps h) (x.2.link h) := by
  intro h
  have hboot : Going (fun _ _ => True) (.boot, .none) := .init ⟨rfl, rfl⟩
  have hrun : (Runs.run (Runs.noted Stack.step Log.note) (fun _ _ => True)
      (opening 1 ++ [.send 1 0 [1, 2, 3], .close 0]) (.boot, .none)).any (fun x => decide
        ((x.2.link 0).closed = true ∧ (x.2.link 0).queued.length = 3 ∧ (x.2.link 0).isn = 0 ∧
          ∀ s ∈ (x.2.link 0).sent, s.seq.toNat + s.data.length ≤ 2)) = true := by
    decide +kernel
  obtain ⟨x, hx, hclosed, hq, hisn, hshort⟩ := hboot.run_any hrun
  obtain ⟨-, pre, fin, hsent, -, -, hall⟩ := (h x 0 hx).fin hclosed
  obtain ⟨s, hs, k, hseq, hpre, hk, hlt⟩ := hall 2 (by rw [hq]; decide)
  have hlen := hshort s (hsent ▸ List.mem_append_left _ hs)
  have hnum : s.seq.toNat = 1 + k := by
    rw [hseq, hisn, Seq.nth, UInt32.zero_add, UInt32.toNat_ofNat']
    exact Nat.mod_eq_of_lt (by omega)
  omega

end Pulsar.Net

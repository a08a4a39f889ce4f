import Pulsar.Net.Close

/-!
# Which connection a segment is for (`net.rs`)

A segment is for the first connection with its addresses.  Local ports are given out in turn and
start again after the last one, whether or not a connection still has the next one.

* `connections_apart`: as long as no connection is opened with the addresses of one in use, each
  segment is for the only connection with its addresses; and no longer.
* `ports_again`: two connections with the same addresses.
-/

namespace Pulsar.Net

/-- The addresses of a connection: its local port, and the address and port of the peer. -/
def Tcp.addr (t : Tcp) : UInt16 × Ip × UInt16 := (t.lport, t.rip, t.rport)

variable {σ : Stack} {e : Event} {t u : Tcp} {a : Act} {h now : Nat}

/-! ### Addresses stay -/

theorem Tcp.Beside.addr (h : t.Beside u) : u.addr = t.addr := by
  rw [Beside] at h
  rw [h]
  rfl

theorem ackIn_addr (t : Tcp) (now : Nat) (s : Segment) : (t.ackIn now s).addr = t.addr := by
  simp only [Tcp.ackIn]
  split
  · split <;> rfl
  · rfl

theorem dataIn_addr (t : Tcp) (seq : UInt32) (data : List UInt8) :
    (t.dataIn seq data).1.addr = t.addr := by
  simp only [Tcp.dataIn]
  split
  · rfl
  · split
    · rfl
    · split <;> rfl

theorem finIn_addr (t : Tcp) (s : Segment) (b : Bool) : (t.finIn s b).1.addr = t.addr := by
  rw [Tcp.finIn]
  split <;> rfl

/-- **An act** leaves the addresses of its connection. -/
theorem act_addr (t : Tcp) (a : Act) : (t.act a).1.addr = t.addr := by
  cases a with
  | input now s =>
      simp only [Tcp.act, Tcp.input]
      split
      · rfl
      · split
        · split
          · exact (Tcp.respond_beside ..).addr
          · rfl
        · rw [(Tcp.respond_beside ..).addr, finIn_addr, dataIn_addr, ackIn_addr]
  | timer now =>
      simp only [Tcp.act, Tcp.timer]
      split
      · split
        · rfl
        · split
          · rfl
          · exact (Tcp.output_beside ..).addr
      · rfl
  | send now data =>
      simp only [Tcp.act, Tcp.send]
      split
      · rfl
      · exact (Tcp.output_beside ..).addr
      · rfl
  | recv len =>
      simp only [Tcp.act, Tcp.recv]
      split
      · rfl
      · split <;> rfl
  | close =>
      simp only [Tcp.act, Tcp.close]
      split <;> rfl

namespace Stack

/-- No two connections in use have the same addresses. -/
def Apart (σ : Stack) : Prop :=
  ∀ i j, σ.InUse i → σ.InUse j → (σ.tcps i).addr = (σ.tcps j).addr → i = j

/-- A connection that is opened has addresses that none in use has. -/
def Vacant (σ : Stack) (e : Event) : Prop :=
  ∀ h, σ.opened e = some h → ∀ i, σ.InUse i → (σ.tcps i).addr ≠ (σ.opening h e).1.addr

theorem opened_some (ho : σ.opened e = some h) : h < MAX_TCP ∧ (σ.tcps h).state = .free ∧
    (σ.opening h e).1.state = .synSent ∧ ∀ i, σ.actAt i e = none := by
  cases e with
  | connect now cycles ip port =>
      obtain ⟨-, hf⟩ := (Option.ite_none_right_eq_some ..).mp ho
      rw [freeSlot] at hf
      exact ⟨List.mem_range.mp (List.mem_of_find?_eq_some hf),
        of_decide_eq_true (List.find?_some hf : _), rfl, fun _ => rfl⟩
  | _ => cases ho

theorem stays (hne : σ.opened e ≠ some h) :
    ((σ.after e).tcps h).addr = (σ.tcps h).addr ∧ ((σ.after e).InUse h → σ.InUse h) := by
  rw [InUse, InUse, after_tcps, if_neg hne]
  cases ha : σ.actAt h e with
  | none => exact ⟨rfl, id⟩
  | some a =>
      refine ⟨act_addr .., fun hu => ⟨hu.1, fun hf => hu.2 ?_⟩⟩
      rw [Option.map_some, Option.getD_some, (act_free ha hf).1]
      exact hf

/-- **A step keeps connections apart** exactly if what it opens has addresses of its own. -/
theorem after_apart (h : σ.Apart) : (σ.after e).Apart ↔ σ.Vacant e := by
  constructor
  · intro hap i ho k hk haddr
    obtain ⟨hi, hfree, hsyn, hno⟩ := opened_some ho
    have hki : k ≠ i := fun e => hk.2 (e ▸ hfree)
    have hk' : (σ.after e).tcps k = σ.tcps k := by
      rw [after_tcps, if_neg fun e => hki (Option.some.inj (ho.symm.trans e)).symm, hno]
      rfl
    have hi' : (σ.after e).tcps i = (σ.opening i e).1 := by rw [after_tcps, if_pos ho]
    refine hki (hap k i ⟨hk.1, ?_⟩ ⟨hi, ?_⟩ ?_)
    · rw [hk']
      exact hk.2
    · rw [hi', hsyn]
      decide
    · rw [hk', hi', haddr]
  · intro hv i j hi hj haddr
    have hnew : ∀ {i j}, σ.opened e = some i → i ≠ j → (σ.after e).InUse j →
        ((σ.after e).tcps j).addr ≠ ((σ.after e).tcps i).addr := fun {i j} ho hij hj => by
      have hne : σ.opened e ≠ some j := fun e => hij (Option.some.inj (ho.symm.trans e))
      obtain ⟨haddr, huse⟩ := stays hne
      rw [haddr, after_tcps σ e i, if_pos ho]
      exact hv i ho j (huse hj)
    by_contra hij
    by_cases ho : σ.opened e = some i
    · exact hnew ho hij hj haddr.symm
    by_cases ho' : σ.opened e = some j
    · exact hnew ho' (Ne.symm hij) hi haddr
    obtain ⟨h₁, h₂⟩ := stays ho
    obtain ⟨h₃, h₄⟩ := stays ho'
    rw [h₁, h₃] at haddr
    exact hij (h i j (h₂ hi) (h₄ hj) haddr)

/-- What an event does to the connections is for the only one with the addresses of its segment, and
the others stay. -/
def Directed (σ : Stack) (e : Event) : Prop :=
  (∀ i now s, σ.actAt i e = some (.input now s) → ∃ src f, e = .frame now f ∧
    packet f = .tcp src s ∧ ∀ j < MAX_TCP, Matches src s (σ.tcps j) ↔ j = i) ∧
  ∀ i, σ.actAt i e = none → σ.opened e ≠ some i → (σ.after e).tcps i = σ.tcps i

theorem Apart.directed (h : σ.Apart) (e : Event) : σ.Directed e := by
  refine ⟨fun i now s ha => ?_, fun i ha ho => ?_⟩
  · cases e with
    | frame n f =>
        simp only [actAt] at ha
        cases hp : packet f with
        | tcp src s' =>
            rw [hp] at ha
            obtain ⟨ht, e⟩ := (Option.ite_none_right_eq_some ..).mp ha
            cases e
            obtain ⟨hi, hm⟩ := target_some ht
            refine ⟨src, f, rfl, hp, fun j hj => ⟨fun hm' => ?_, fun e => e ▸ hm⟩⟩
            refine h j i ⟨hj, hm'.1⟩ ⟨hi, hm.1⟩ ?_
            rw [Tcp.addr, Tcp.addr, hm.2.1, hm.2.2.1, hm.2.2.2, hm'.2.1, hm'.2.2.1, hm'.2.2.2]
        | _ => simp [hp] at ha
    | timers now => cases ((Option.ite_none_right_eq_some ..).mp ha).2
    | send now h' data => cases ((Option.ite_none_right_eq_some ..).mp ha).2
    | recv h' len => cases ((Option.ite_none_right_eq_some ..).mp ha).2
    | close h' => cases ((Option.ite_none_right_eq_some ..).mp ha).2
    | _ => cases ha
  · rw [after_tcps, if_neg ho, ha]
    rfl

/-- **Connections are apart** in every run that opens none with the addresses of one in use; each
event is directed at the connection that it is for; and the next step goes wrong exactly if it opens
one with such addresses. -/
theorem connections_apart (h : Runs.Reached step (· = boot) Vacant σ) : σ.Apart ∧ ∀ e, σ.Directed e ∧
    ((σ.after e).Apart ↔ σ.Vacant e) := by
  have hap : σ.Apart := by
    refine h.invariant (I := Apart) ?_ fun σ e τ hσ he hs => ?_
    · rintro _ rfl i j hi
      exact absurd rfl hi.2
    · rw [← Option.some.inj hs]
      exact (after_apart hσ).mpr he
  exact ⟨hap, fun e => ⟨hap.directed e, after_apart hap⟩⟩

/-! ### Examples of runs -/

instance : DecidablePred σ.Vacant := fun e =>
  decidable_of_iff (∀ h ∈ σ.opened e, ∀ i < MAX_TCP, (σ.tcps i).state ≠ .free →
      (σ.tcps i).addr ≠ (σ.opening h e).1.addr)
    ⟨fun hv h ho i hi => hv h ho i hi.1 hi.2, fun hv h ho i hi hu => hv h ho i ⟨hi, hu⟩⟩

/-- Two connections to one peer. -/
def twoConnections : List Event :=
  [.frame 0 gatewayFrame, .connect 0 0 peerIp 80, .connect 0 0 peerIp 80]

theorem connections_apart_run : ∃ σ, (Runs.Reached step (· = boot) Vacant σ ∧ σ.InUse 0 ∧ σ.InUse 1) ∧
    σ.Apart ∧ ∀ e, σ.Directed e ∧ ((σ.after e).Apart ↔ σ.Vacant e) := by
  have hboot : Runs.Reached step (· = boot) Vacant boot := .init rfl
  have hrun : (Runs.run step Vacant twoConnections boot).any
      (fun σ => decide (σ.InUse 0 ∧ σ.InUse 1)) = true := by decide +kernel
  obtain ⟨σ, hσ, hw⟩ := hboot.run_any hrun
  exact ⟨σ, ⟨hσ, hw⟩, connections_apart hσ⟩

theorem ports_given {n : Nat} : ∀ {σ : Stack}, Runs.Reached step (· = boot) (fun _ _ => True) σ →
    σ.nextPort.toNat + n ≤ LAST_PORT.toNat → ∃ τ,
      Runs.Reached step (· = boot) (fun _ _ => True) τ ∧ τ.tcps = σ.tcps ∧ τ.gateway = σ.gateway ∧
        τ.nextPort.toNat = σ.nextPort.toNat + n := by
  induction n with
  | zero => exact fun h _ => ⟨_, h, rfl, rfl, rfl⟩
  | succ n ih =>
      intro σ h hle
      have hlt : ¬ LAST_PORT ≤ σ.nextPort := by
        rw [UInt16.le_iff_toNat_le]
        omega
      have hnext : (portAfter σ.nextPort).toNat = σ.nextPort.toNat + 1 := by
        rw [portAfter, if_neg hlt, UInt16.toNat_add]
        have hlast : LAST_PORT.toNat < 2 ^ 16 := by decide
        exact Nat.mod_eq_of_lt (by
          change σ.nextPort.toNat + 1 < 2 ^ 16
          omega)
      have hstep : Runs.Reached step (· = boot) (fun _ _ => True) σ.udpAllocPort :=
        h.step (e := .udpAllocPort) trivial rfl
      obtain ⟨τ, hτ, htcps, hgate, hport⟩ := ih hstep (by
        change (portAfter σ.nextPort).toNat + n ≤ _
        omega)
      refine ⟨τ, hτ, htcps, hgate, hport.trans ?_⟩
      change (portAfter σ.nextPort).toNat + n = _
      omega

/-- **Two connections have the same addresses** when the ports start again. -/
theorem ports_again : ¬ ∀ σ, Runs.Reached step (· = boot) (fun _ _ => True) σ → σ.Apart := by
  intro h
  have hboot : Runs.Reached step (· = boot) (fun _ _ => True) boot := .init rfl
  have hrun : (Runs.run step (fun _ _ => True) [.frame 0 gatewayFrame, .connect 0 0 peerIp 80]
      boot).any (fun σ => decide (σ.gateway = true ∧ σ.nextPort = 49153 ∧ σ.InUse 0 ∧
        (σ.tcps 0).addr = (FIRST_PORT, peerIp, 80) ∧ σ.freeSlot = some 1)) = true := by
    decide +kernel
  obtain ⟨σ, hσ, hgate, hport, huse, haddr, hfree⟩ := hboot.run_any hrun
  obtain ⟨τ, hτ, htcps, hgate', hlast⟩ := ports_given (n := 11846) hσ (by rw [hport]; decide)
  have hlast' : τ.nextPort = LAST_PORT := by
    rw [← UInt16.toNat_inj, hlast, hport]
    decide
  have hnext : Runs.Reached step (· = boot) (fun _ _ => True) τ.udpAllocPort :=
    hτ.step (e := .udpAllocPort) trivial rfl
  have hfirst : τ.udpAllocPort.nextPort = FIRST_PORT := by
    change portAfter τ.nextPort = _
    rw [hlast']
    decide
  have hopened : τ.udpAllocPort.opened (.connect 0 0 peerIp 80) = some 1 := by
    have hslot : τ.udpAllocPort.freeSlot = σ.freeSlot := by
      rw [freeSlot, freeSlot]
      exact congrArg (fun f : Nat → Tcp => (List.range MAX_TCP).find?
        fun h => decide ((f h).state = .free)) htcps
    rw [opened, hslot, hfree]
    exact if_pos (hgate'.trans hgate)
  have hvacant := (after_apart (h _ hnext)).mp
    (h _ (hnext.step (e := .connect 0 0 peerIp 80) trivial rfl)) 1 hopened 0
  change τ.InUse 0 → (τ.tcps 0).addr ≠ (τ.udpAllocPort.nextPort, peerIp, 80) at hvacant
  rw [hfirst, InUse, htcps] at hvacant
  exact hvacant huse haddr

end Stack

end Pulsar.Net

import Pulsar.Proc.Deeds

/-!
# The rendezvous of messages (`process.rs`)

A process that sends waits until its message is taken and answered, or until the destination ends.
The partner is a slot, which may hold another process by then.  A note (`Mail`) numbers the messages
sent, and lists which were taken, by whom, and what came back to each sender.

* `Rendezvous`, `Answers`: what the calls promise, of a state and of a step.
* `messages_answered`: so it is in every run.
* `reply_out_of_turn`: an answer need not go to the sender whose message was taken last.
-/

namespace Pulsar.Proc

/-- How many messages were sent; by slot, the number of the last; by number, the pids of sender and
destination, and the message; which were taken, by which pid, and as what; and what each send
returned, with the answer. -/
structure Mail where
  sent : Nat
  number : Nat → Nat
  sender : Nat → Nat
  dest : Nat → Nat
  text : Nat → Message
  delivered : List (Nat × Nat × Message)
  outcomes : List (Nat × Nat × Message)

namespace Mail

def none : Mail := ⟨0, fun _ => 0, fun _ => 0, fun _ => 0, fun _ => .zero, [], []⟩

/-- Slot `s` with pid `p` sends to pid `q`. -/
def post (s p q : Nat) (m : Message) (H : Mail) : Mail :=
  { H with sent := H.sent + 1
           number := Function.update H.number s H.sent
           sender := Function.update H.sender H.sent p
           dest := Function.update H.dest H.sent q
           text := Function.update H.text H.sent m }

/-- The message of slot `s` is taken by pid `p`. -/
def take (s p : Nat) (m : Message) (H : Mail) : Mail :=
  { H with delivered := H.delivered ++ [(H.number s, p, m)] }

/-- A deed that led from `ps` to `qs`; a message can be taken as it is sent. -/
def deed (ps qs : Procs) (H : Mail) : Deed → Mail
  | .sends s d m => H.post s (ps s).pid (ps d).pid m
  | .delivers s r m =>
    (if (ps s).state = .sendBlocked then H else H.post s (ps s).pid (ps r).pid m).take s (qs r).pid
      (qs r).inbox
  | _ => H

/-- What came back to those that waited in `ps` and go on in `qs`. -/
def observe (ps qs : Procs) (H : Mail) : List (Nat × Nat × Message) :=
  (List.range MAX_PROCS).filterMap fun i =>
    if (ps i).state.Sends ∧ (qs i).Live ∧ ¬ (qs i).state.Sends then
      some (H.number i, (qs i).ret, (qs i).reply)
    else .none

/-- The note with what came back. -/
def hear (ps qs : Procs) (H H' : Mail) : Mail :=
  { H' with outcomes := H.outcomes ++ H.observe ps qs }

/-- The note of an event. -/
def note (σ : Machine) (e : Machine.Event) (τ : Machine) (H : Mail) : Mail :=
  H.hear σ.procs τ.procs ((σ.deeds e).foldl (·.deed σ.procs τ.procs) H)

/-- The message was taken. -/
def Taken (H : Mail) (n : Nat) : Prop := n ∈ H.delivered.map Prod.fst

/-- Its sender went on. -/
def Over (H : Mail) (n : Nat) : Prop := n ∈ H.outcomes.map Prod.fst

instance (H : Mail) (n : Nat) : Decidable (H.Over n) := by unfold Over; infer_instance

variable {ps qs : Procs} {H : Mail}

theorem mem_observe {x : Nat × Nat × Message} : x ∈ H.observe ps qs ↔ ∃ i < MAX_PROCS,
    ((ps i).state.Sends ∧ (qs i).Live ∧ ¬ (qs i).state.Sends) ∧
      x = (H.number i, (qs i).ret, (qs i).reply) := by
  rw [observe, List.mem_filterMap]
  refine exists_congr fun i => ?_
  rw [List.mem_range, Option.ite_none_right_eq_some, Option.some.injEq, eq_comm (b := x)]

end Mail

namespace Procs

variable {ps ps' qs rs : Procs} {s r t i : Nat} {m : Message} {H : Mail}

/-- Each sender that waits has a message that is not over, for a live process; what was taken and
what came back were so once, for the right processes. -/
structure Told (ps : Procs) (H : Mail) : Prop where
  number : ∀ i, (ps i).state.Sends → H.number i < H.sent ∧ H.sender (H.number i) = (ps i).pid ∧
    ¬ H.Over (H.number i)
  awaits : ∀ i t, (ps i).AwaitsSlot t → (ps t).Live ∧ (ps t).pid = H.dest (H.number i)
  held : ∀ i, (ps i).state = .sendBlocked →
    (ps i).inbox = H.text (H.number i) ∧ ¬ H.Taken (H.number i)
  taken : ∀ i, (ps i).state = .replyBlocked → H.Taken (H.number i)
  delivered : ∀ x ∈ H.delivered, x.1 < H.sent ∧ x.2.1 = H.dest x.1 ∧ x.2.2 = H.text x.1
  once : (H.delivered.map Prod.fst).Nodup
  outcomes : ∀ x ∈ H.outcomes, x.1 < H.sent ∧ (x.2.1 = 0 ∧ H.Taken x.1 ∨
    x.2.1 = 2 ^ 64 - 1 ∧ x.2.2 = .zero ∧ ∀ i, (ps i).Live → (ps i).pid ≠ H.dest x.1)
  single : (H.outcomes.map Prod.fst).Nodup
  each : ∀ n < H.sent, H.Over n ∨ (∃ i, (ps i).state.Sends ∧ H.number i = n) ∨
    ∀ i, (ps i).Live → (ps i).pid ≠ H.sender n
  past : ∀ n < H.sent, ps.Past (H.sender n) ∧ ps.Past (H.dest n)

theorem told_empty : Told (fun _ => Process.empty) .none where
  number _ h := absurd h (by decide)
  awaits _ _ h := absurd rfl h.live.1
  held _ h := absurd h (by simp [Process.empty])
  taken _ h := absurd h (by simp [Process.empty])
  delivered _ h := absurd h List.not_mem_nil
  once := List.nodup_nil
  outcomes _ h := absurd h List.not_mem_nil
  single := List.nodup_nil
  each _ h := absurd h (Nat.not_lt_zero _)
  past _ h := absurd h (Nat.not_lt_zero _)

theorem sends_live {p : Process} (h : p.state.Sends) : p.Live := by
  rcases h with h | h <;> exact State.live_of_eq h (by decide) (by decide)

/-! ### No message is sent or taken -/

/-- No message is sent or taken: what waits, waited as it does, for a slot that is still alive; and
what goes on was answered, or its partner ended. -/
structure Mute (ps qs : Procs) : Prop where
  waits : ∀ i, (qs i).state.Sends → (qs i).state = (ps i).state ∧ (qs i).peer = (ps i).peer ∧
    (qs i).sendTo = (ps i).sendTo ∧ (qs i).inbox = (ps i).inbox
  partner : ∀ i t, (qs i).AwaitsSlot t → (ps t).Live → (qs t).Live
  leaves : ∀ i, (ps i).state.Sends → (qs i).Live → ¬ (qs i).state.Sends →
    (qs i).state = .ready ∧ ((ps i).state = .replyBlocked ∧ (qs i).ret = 0 ∨
      (qs i).ret = 2 ^ 64 - 1 ∧ (qs i).reply = .zero ∧ ∃ t, (ps i).AwaitsSlot t ∧ ¬ (qs t).Live)

theorem Mute.awaits (h : Mute ps qs) (hi : (qs i).AwaitsSlot t) : (ps i).AwaitsSlot t := by
  have hs : (qs i).state.Sends := hi.elim (fun e => .inr e.1) fun e => .inl e.1
  obtain ⟨h₁, h₂, h₃, -⟩ := h.waits i hs
  rwa [Process.AwaitsSlot, h₁, h₂, h₃] at hi

theorem Mute.sends (h : Mute ps qs) (hi : (qs i).state.Sends) : (ps i).state.Sends :=
  (h.waits i hi).1 ▸ hi

theorem Told.inj (h : Told ps H) (hf : Fine ps) (hn : ps.Named) {j : Nat} (hi : (ps i).state.Sends)
    (hj : (ps j).state.Sends) (e : H.number i = H.number j) : i = j := by
  refine hn.slot_inj hf (sends_live hi) (sends_live hj) ?_
  rw [← (h.number i hi).2.1, e, (h.number j hj).2.1]

theorem Told.observed (h : Told ps H) {x : Nat × Nat × Message} (hx : x ∈ H.observe ps qs) :
    x.1 < H.sent ∧ ¬ H.Over x.1 := by
  obtain ⟨i, -, ⟨hs, -, -⟩, rfl⟩ := Mail.mem_observe.mp hx
  exact ⟨(h.number i hs).1, (h.number i hs).2.2⟩

theorem Told.observe_nodup (h : Told ps H) (hf : Fine ps) (hn : ps.Named) :
    ((H.observe ps qs).map Prod.fst).Nodup := by
  rw [Mail.observe, List.map_filterMap]
  refine (List.nodup_range).filterMap fun i j n hi hj => ?_
  obtain ⟨x, hx, rfl⟩ := Option.map_eq_some_iff.mp hi
  obtain ⟨y, hy, e⟩ := Option.map_eq_some_iff.mp hj
  obtain ⟨⟨hs, -⟩, hx⟩ := (Option.ite_none_right_eq_some ..).mp hx
  obtain ⟨⟨hs', -⟩, hy⟩ := (Option.ite_none_right_eq_some ..).mp hy
  obtain rfl := Option.some.inj hx
  obtain rfl := Option.some.inj hy
  exact h.inj hf hn hs hs' e.symm

/-- **What comes back** is noted, where no message is sent or taken. -/
theorem Told.mute (h : Told ps H) (hf : Fine ps) (hn : ps.Named) (hm : Mute ps qs)
    (hc : Comes ps qs) : Told qs (H.hear ps qs H) := by
  have hover : ∀ {n}, (H.hear ps qs H).Over n ↔
      H.Over n ∨ ∃ x ∈ H.observe ps qs, x.1 = n := fun {n} => by
    simp only [Mail.Over, Mail.hear, List.map_append, List.mem_append, List.mem_map]
  have hpid : ∀ i, (ps i).Live → (qs i).Live → (qs i).pid = (ps i).pid := fun i hi hi' => by
    rcases hc.origin i hi' with ⟨-, e⟩ | ⟨e, -⟩
    · exact e
    · exact absurd e hi.1
  have hgone : ∀ i, (ps i).Live → ¬ (qs i).Live → ∀ j, (qs j).Live → (qs j).pid ≠ (ps i).pid := by
    intro i hi hi' j hj e
    rcases hc.origin j hj with ⟨hl, e'⟩ | ⟨-, hnew⟩
    · exact hi' (hn.slot_inj hf hl hi (e'.symm.trans e) ▸ hj)
    · exact hnew (e ▸ hn.past hi (hf.slots i hi.1))
  refine ⟨fun i hi => ?_, fun i t ht => ?_, fun i hi => ?_, fun i hi => ?_, h.delivered, h.once,
    fun x hx => ?_, ?_, fun n hn' => ?_, fun n hn' => ?_⟩
  · obtain ⟨h₁, h₂, h₃⟩ := h.number i (hm.sends hi)
    refine ⟨h₁, h₂.trans (hpid i (sends_live (hm.sends hi)) (sends_live hi)).symm, ?_⟩
    rw [hover]
    rintro (ho | ⟨x, hx, e⟩)
    · exact h₃ ho
    · obtain ⟨j, -, ⟨hj, -, hj'⟩, rfl⟩ := Mail.mem_observe.mp hx
      exact hj' (h.inj hf hn hj (hm.sends hi) e ▸ hi)
  · obtain ⟨h₁, h₂⟩ := h.awaits i t (hm.awaits ht)
    have hl := hm.partner i t ht h₁
    exact ⟨hl, (hpid t h₁ hl).trans h₂⟩
  · obtain ⟨h₁, -, -, h₄⟩ := hm.waits i (.inl hi)
    rw [h₄]
    exact h.held i (h₁.symm.trans hi)
  · exact h.taken i ((hm.waits i (.inr hi)).1.symm.trans hi)
  · rcases List.mem_append.mp hx with hx | hx
    · obtain ⟨h₁, h₂⟩ := h.outcomes x hx
      refine ⟨h₁, h₂.imp_right fun ⟨h₃, h₄, h₅⟩ => ⟨h₃, h₄, ?_⟩⟩
      exact hc.past (h.past x.1 h₁).2 h₅
    · have hlt := (h.observed hx).1
      obtain ⟨i, -, ⟨hi, hl, hns⟩, rfl⟩ := Mail.mem_observe.mp hx
      refine ⟨hlt, ?_⟩
      rcases (hm.leaves i hi hl hns).2 with ⟨h₁, h₂⟩ | ⟨h₁, h₂, t, ht, hd⟩
      · exact .inl ⟨h₂, h.taken i h₁⟩
      · obtain ⟨hlt', e⟩ := h.awaits i t ht
        exact .inr ⟨h₁, h₂, fun j hj => e ▸ hgone t hlt' hd j hj⟩
  · rw [Mail.hear, List.map_append]
    refine List.nodup_append.mpr ⟨h.single, h.observe_nodup hf hn, fun n hn' n' hn'' e => ?_⟩
    obtain ⟨x, hx, rfl⟩ := List.mem_map.mp hn''
    exact (h.observed hx).2 (e ▸ hn')
  · rw [hover]
    rcases h.each n hn' with h₁ | ⟨i, hi, rfl⟩ | h₁
    · exact .inl (.inl h₁)
    · by_cases hl : (qs i).Live
      · by_cases hs : (qs i).state.Sends
        · exact .inr (.inl ⟨i, hs, rfl⟩)
        · refine .inl (.inr ⟨_, Mail.mem_observe.mpr ⟨i, ?_, ⟨hi, hl, hs⟩, rfl⟩, rfl⟩)
          exact hf.slots i (sends_live hi).1
      · exact .inr (.inr fun j hj e =>
          hgone i (sends_live hi) hl j hj (e.trans (h.number i hi).2.1))
    · exact .inr (.inr (hc.past (h.past n hn').1 h₁))
  · exact ⟨(h.past n hn').1.comes hc, (h.past n hn').2.comes hc⟩

/-- No message is sent, taken or answered, and nothing begins or runs that did not. -/
structure Silent (ps qs : Procs) : Prop where
  live : ∀ i, (qs i).Live → (ps i).Live
  waits : ∀ i, (qs i).state.Sends → (qs i).state = (ps i).state ∧ (qs i).peer = (ps i).peer ∧
    (qs i).sendTo = (ps i).sendTo ∧ (qs i).inbox = (ps i).inbox
  partner : ∀ i t, (qs i).AwaitsSlot t → (ps t).Live → (qs t).Live
  fails : ∀ i, (ps i).state.Sends → (qs i).Live → ¬ (qs i).state.Sends →
    (qs i).state = .ready ∧ (qs i).ret = 2 ^ 64 - 1 ∧ (qs i).reply = .zero ∧
      ∃ t, (ps i).AwaitsSlot t ∧ ¬ (qs t).Live
  ready : ∀ i, (ps i).state = .ready → (qs i).Live →
    (qs i).state = .ready ∧ (qs i).ret = (ps i).ret ∧ (qs i).reply = (ps i).reply

theorem Silent.mute (h : Silent ps qs) : Mute ps qs where
  waits := h.waits
  partner := h.partner
  leaves i hi hl hs := by
    obtain ⟨h₁, h₂, h₃, h₄⟩ := h.fails i hi hl hs
    exact ⟨h₁, .inr ⟨h₂, h₃, h₄⟩⟩

theorem Silent.trans (h : Silent ps qs) (h' : Silent qs rs) : Silent ps rs where
  live i hi := h.live i (h'.live i hi)
  waits i hi := by
    obtain ⟨h₁, h₂, h₃, h₄⟩ := h'.waits i hi
    obtain ⟨h₅, h₆, h₇, h₈⟩ := h.waits i (h₁ ▸ hi)
    exact ⟨h₁.trans h₅, h₂.trans h₆, h₃.trans h₇, h₄.trans h₈⟩
  partner i t ht hl := h'.partner i t ht (h.partner i t (h'.mute.awaits ht) hl)
  fails i hi hl hs := by
    by_cases hm : (qs i).state.Sends
    · obtain ⟨h₁, h₂, h₃, t, ht, hd⟩ := h'.fails i hm hl hs
      exact ⟨h₁, h₂, h₃, t, h.mute.awaits ht, hd⟩
    · obtain ⟨h₁, h₂, h₃, t, ht, hd⟩ := h.fails i hi (h'.live i hl) hm
      obtain ⟨h₄, h₅, h₆⟩ := h'.ready i h₁ hl
      exact ⟨h₄, h₅.trans h₂, h₆.trans h₃, t, ht, mt (h'.live t) hd⟩
  ready i hi hl := by
    obtain ⟨h₁, h₂, h₃⟩ := h.ready i hi (h'.live i hl)
    obtain ⟨h₄, h₅, h₆⟩ := h'.ready i h₁ hl
    exact ⟨h₄, h₅.trans h₂, h₆.trans h₃⟩

theorem Fates.silent (h : Fates s ps qs) (hf : Fine ps) : Silent ps qs where
  live i := h.live
  waits i hi := by
    have hr : (qs i).state ≠ .ready := fun e => by
      rw [e] at hi
      exact absurd hi (by decide)
    exact ⟨h.state_back (sends_live hi) hr, (h.fixed i).peer, (h.fixed i).sendTo,
      (h.fixed i).inbox⟩
  partner i t ht hl := by
    by_contra hd
    have hi := h.awaits_back ht
    exact h.partner t hl hd i (hf.slots i hi.live.1) ht
  fails i hi hl hs := by
    cases h.fate i with
    | stays state => exact absurd (state ▸ hi) hs
    | ends live dead => exact absurd hl dead
    | rests dead => exact absurd (sends_live hi) dead
    | fails t awaits live dead state ret reply => exact ⟨state, ret, reply, t, awaits, dead⟩
    | resumes t waits =>
        rw [waits] at hi
        exact absurd hi (by decide)
    | collects waits =>
        rw [waits] at hi
        exact absurd hi (by decide)
  ready i hi hl := by
    rcases h.ready hi with ⟨h₁, h₂, h₃, -⟩ | ⟨hd, -⟩
    · exact ⟨h₁, h₂, h₃⟩
    · exact absurd hl hd

theorem Go.sends (h : Go ps qs) : (qs i).state.Sends ↔ (ps i).state.Sends :=
  or_congr ((h i).stuck .sendBlocked (by decide)) ((h i).stuck .replyBlocked (by decide))

theorem Go.silent (h : Go ps qs) (hr : SameRunning ps qs) (hs : Settles ps qs) : Silent ps qs where
  live i := (h i).same.live.mp
  waits i hi := by
    have hi' := h.sends.mp hi
    have hst := (h i).state.resolve_right fun e => hi'.not_loose e.1
    exact ⟨hst, (h i).peer, (h i).sendTo, (h i).inbox⟩
  partner i t _ := (h t).same.live.mpr
  fails i hi _ hs := absurd (h.sends.mpr hi) hs
  ready i hi _ := by
    obtain ⟨h₁, h₂, h₃⟩ := hs i hi
    refine ⟨h₁.resolve_right fun e => ?_, h₂, h₃⟩
    exact absurd (hi.symm.trans ((hr i).mp e)) (by decide)

theorem Go.mute (h : Go ps qs) : Mute ps qs where
  waits i hi := by
    have hi' := h.sends.mp hi
    have hst := (h i).state.resolve_right fun e => hi'.not_loose e.1
    exact ⟨hst, (h i).peer, (h i).sendTo, (h i).inbox⟩
  partner i t _ := (h t).same.live.mpr
  leaves i hi _ hs := absurd (h.sends.mpr hi) hs

/-- Slot `s` gets a new image. -/
theorem Execs.silent (h : Execs s ps qs) (hs : (ps s).state = .running) : Silent ps qs := by
  have hself : (qs s).state = .running := by rw [h.self, hs]
  have hother : ∀ i, i ≠ s → (qs i).Live → qs i = { ps i with members := (qs i).members } ∨
      (ps i).state = .vforkWait ∧ (qs i).state = .ready := fun i hi hl => by
    cases h.others i hi with
    | stays eq => exact .inl eq
    | resumes child waits eq => exact .inr ⟨waits, by rw [eq]⟩
    | goes fixed zombie unused => exact absurd unused hl.1
  refine ⟨fun i => h.live, fun i hi => ?_, fun i t _ hl => ?_, fun i hi hl hns => ?_,
    fun i hi hl => ?_⟩
  · have his : i ≠ s := fun e => by
      rw [e, hself] at hi
      exact absurd hi (by decide)
    rcases hother i his (sends_live hi) with eq | ⟨-, e⟩
    · rw [eq]
      exact ⟨rfl, rfl, rfl, rfl⟩
    · rw [e] at hi
      exact absurd hi (by decide)
  · by_cases e : t = s
    · exact e ▸ Process.live_of_running hself
    · cases h.others t e with
      | stays eq =>
          rw [eq]
          exact hl
      | resumes child waits eq =>
          rw [eq]
          exact ⟨by simp, by simp⟩
      | goes fixed zombie => exact absurd zombie hl.2
  · have his : i ≠ s := fun e => by
      rw [e, hs] at hi
      exact absurd hi (by decide)
    rcases hother i his hl with eq | ⟨e, -⟩
    · rw [eq] at hns
      exact absurd hi hns
    · rw [e] at hi
      exact absurd hi (by decide)
  · have his : i ≠ s := fun e => by
      rw [e, hs] at hi
      exact absurd hi (by decide)
    rcases hother i his hl with eq | ⟨e, -⟩
    · rw [eq]
      exact ⟨hi, rfl, rfl⟩
    · exact absurd (hi.symm.trans e) (by decide)

theorem Born.mute (h : Born ps i qs) : Mute ps qs := by
  have hne : ∀ j, (qs j).state.Sends → j ≠ i := fun j hj e => by
    rw [e, h.state] at hj
    exact absurd hj (by decide)
  refine ⟨fun j hj => ?_, fun j t _ hl => ?_, fun j hj _ hs => ?_⟩
  · rw [h.others j (hne j hj)]
    exact ⟨rfl, rfl, rfl, rfl⟩
  · rw [h.others t (h.ne hl)]
    exact hl
  · rw [h.others j (h.ne (sends_live hj))] at hs
    exact absurd hj hs

/-- Where nothing that waits goes on, and then no message is sent or taken. -/
theorem Mute.trans (h : Mute ps qs) (hw : ∀ i, (ps i).state.Sends → (qs i).state.Sends)
    (h' : Mute qs rs) : Mute ps rs where
  waits i hi := by
    obtain ⟨h₁, h₂, h₃, h₄⟩ := h'.waits i hi
    obtain ⟨h₅, h₆, h₇, h₈⟩ := h.waits i (h₁ ▸ hi)
    exact ⟨h₁.trans h₅, h₂.trans h₆, h₃.trans h₇, h₄.trans h₈⟩
  partner i t ht hl := h'.partner i t ht (h.partner i t (h'.awaits ht) hl)
  leaves i hi hl hs := by
    obtain ⟨h₁, h₂⟩ := h'.leaves i (hw i hi) hl hs
    refine ⟨h₁, h₂.imp (fun e => ⟨?_, e.2⟩) fun ⟨h₃, h₄, t, ht, hd⟩ => ⟨h₃, h₄, t, h.awaits ht, hd⟩⟩
    exact (h.waits i (hw i hi)).1.symm.trans e.1

theorem vfork_mute (hs : (ps s).state = .running) : Mute ps (ps.setState s .vforkWait) := by
  have hne : ∀ j, (ps.setState s .vforkWait j).state.Sends → j ≠ s := fun j hj e => by
    rw [e, setState, edit_self] at hj
    exact absurd hj (by simp [State.Sends])
  refine ⟨fun j hj => ?_, fun j t _ hl => ?_, fun j hj _ hns => ?_⟩
  · rw [setState, edit_of_ne (hne j hj)]
    exact ⟨rfl, rfl, rfl, rfl⟩
  · by_cases e : t = s
    · rw [e, setState, edit_self]
      exact ⟨by simp, by simp⟩
    · rwa [setState, edit_of_ne e]
  · have hjs : j ≠ s := fun e => by
      rw [e, hs] at hj
      exact absurd hj (by decide)
    rw [setState, edit_of_ne hjs] at hns
    exact absurd hj hns

theorem reply_mute (ht : (ps t).state = .replyBlocked) (m : Message) :
    Mute ps (ps.edit t fun p => { p with reply := m, ret := 0, state := .ready }) := by
  refine ⟨fun j hj => ?_, fun j x _ hl => ?_, fun j hj _ hns => ?_⟩
  · have hjt : j ≠ t := fun e => by
      rw [e, edit_self] at hj
      exact absurd hj (by simp [State.Sends])
    rw [edit_of_ne hjt]
    exact ⟨rfl, rfl, rfl, rfl⟩
  · by_cases e : x = t
    · rw [e, edit_self]
      exact ⟨by simp, by simp⟩
    · rwa [edit_of_ne e]
  · by_cases e : j = t
    · subst e
      rw [edit_self]
      exact ⟨rfl, .inl ⟨ht, rfl⟩⟩
    · rw [edit_of_ne e] at hns
      exact absurd hj hns

/-! ### A message is sent or taken -/

theorem observe_of_waits (h : ∀ i, (ps i).state.Sends → (qs i).Live → (qs i).state.Sends) :
    H.observe ps qs = [] := by
  refine List.filterMap_eq_nil_iff.mpr fun i _ => if_neg ?_
  rintro ⟨hi, hl, hns⟩
  exact hns (h i hi hl)

theorem post_old {p q n : Nat} (hn : n < H.sent) :
    (H.post s p q m).sender n = H.sender n ∧ (H.post s p q m).dest n = H.dest n ∧
      (H.post s p q m).text n = H.text n :=
  ⟨Function.update_of_ne hn.ne .., Function.update_of_ne hn.ne .., Function.update_of_ne hn.ne ..⟩

theorem post_new (p q : Nat) : (H.post s p q m).sender H.sent = p ∧
    (H.post s p q m).dest H.sent = q ∧ (H.post s p q m).text H.sent = m :=
  ⟨Function.update_self .., Function.update_self .., Function.update_self ..⟩

theorem Told.taken_lt (h : Told ps H) {n : Nat} (hn : H.Taken n) : n < H.sent := by
  obtain ⟨x, hx, rfl⟩ := List.mem_map.mp hn
  exact (h.delivered x hx).1

theorem Told.over_lt (h : Told ps H) {n : Nat} (hn : H.Over n) : n < H.sent := by
  obtain ⟨x, hx, rfl⟩ := List.mem_map.mp hn
  exact (h.outcomes x hx).1

theorem awaits_sends (h : (ps i).AwaitsSlot t) : (ps i).state.Sends :=
  h.elim (fun e => .inr e.1) fun e => .inl e.1

/-- **A message is sent.** -/
theorem Told.post {d : Nat} (h : Told ps H) (hf : Fine ps) (hn : ps.Named)
    (hs : (ps s).state = .running) (hd : (ps d).Live)
    (hself : (qs s).state = .sendBlocked ∧ (qs s).sendTo = d ∧ (qs s).inbox = m)
    (hothers : ∀ i, i ≠ s → qs i = ps i) (ha : ∀ i, (ps i).Alike (qs i))
    (hl : ∀ i, (qs i).Live ↔ (ps i).Live) : Told qs (H.post s (ps s).pid (ps d).pid m) := by
  have hlive := Process.live_of_running hs
  have hns : ∀ {i}, (ps i).state.Sends → i ≠ s := fun hi e => by
    rw [e, hs] at hi
    exact absurd hi (by decide)
  have hnum : ∀ {i}, i ≠ s → (H.post s (ps s).pid (ps d).pid m).number i = H.number i := fun hi =>
    Function.update_of_ne hi ..
  have hnew : (H.post s (ps s).pid (ps d).pid m).number s = H.sent := Function.update_self ..
  obtain ⟨hsender, hdest, htext⟩ := post_new (H := H) (s := s) (m := m) (ps s).pid (ps d).pid
  have hno : ∀ {p : Nat}, (∀ i, (ps i).Live → (ps i).pid ≠ p) →
      ∀ i, (qs i).Live → (qs i).pid ≠ p := fun hp i hi => by
    rw [(ha i).pid]
    exact hp i ((hl i).mp hi)
  have hgen : ∀ {p}, ps.Past p → qs.Past p := fun {p} hp => by rwa [Past, (ha _).generation]
  refine ⟨fun i hi => ?_, fun i t ht => ?_, fun i hi => ?_, fun i hi => ?_, fun x hx => ?_, h.once,
    fun x hx => ?_, h.single, fun n hn' => ?_, fun n hn' => ?_⟩
  · by_cases e : i = s
    · subst e
      rw [hnew, (ha i).pid]
      exact ⟨Nat.lt_succ_self _, hsender, fun ho => (h.over_lt ho).ne rfl⟩
    · rw [hothers i e] at hi ⊢
      obtain ⟨h₁, h₂, h₃⟩ := h.number i hi
      rw [hnum e, (post_old h₁).1]
      exact ⟨h₁.trans (Nat.lt_succ_self _), h₂, h₃⟩
  · rw [(ha t).pid, hl t]
    by_cases e : i = s
    · subst e
      rw [Process.AwaitsSlot, hself.1, hself.2.1] at ht
      obtain rfl : d = t := (ht.resolve_left fun e => absurd e.1 (by decide)).2
      rw [hnew, hdest]
      exact ⟨hd, rfl⟩
    · rw [hothers i e] at ht
      rw [hnum e, (post_old (h.number i (awaits_sends ht)).1).2.1]
      exact h.awaits i t ht
  · by_cases e : i = s
    · subst e
      rw [hnew, htext]
      exact ⟨hself.2.2, fun ht => (h.taken_lt ht).ne rfl⟩
    · rw [hothers i e] at hi ⊢
      rw [hnum e, (post_old (h.number i (.inl hi)).1).2.2]
      exact h.held i hi
  · have e : i ≠ s := fun e => by
      rw [e, hself.1] at hi
      exact absurd hi (by decide)
    rw [hothers i e] at hi
    rw [hnum e]
    exact h.taken i hi
  · obtain ⟨h₁, h₂, h₃⟩ := h.delivered x hx
    rw [(post_old h₁).2.1, (post_old h₁).2.2]
    exact ⟨h₁.trans (Nat.lt_succ_self _), h₂, h₃⟩
  · obtain ⟨h₁, h₂⟩ := h.outcomes x hx
    rw [(post_old h₁).2.1]
    refine ⟨h₁.trans (Nat.lt_succ_self _), h₂.imp_right fun hfail => ?_⟩
    exact ⟨hfail.1, hfail.2.1, hno hfail.2.2⟩
  · rcases Nat.lt_succ_iff_lt_or_eq.mp hn' with hlt | rfl
    · rw [(post_old hlt).1]
      rcases h.each n hlt with h₁ | ⟨i, hi, rfl⟩ | h₁
      · exact .inl h₁
      · exact .inr (.inl ⟨i, by rwa [hothers i (hns hi)], hnum (hns hi)⟩)
      · exact .inr (.inr (hno h₁))
    · exact .inr (.inl ⟨s, .inl hself.1, hnew⟩)
  · rcases Nat.lt_succ_iff_lt_or_eq.mp hn' with hlt | rfl
    · rw [(post_old hlt).1, (post_old hlt).2.1]
      exact ⟨hgen (h.past n hlt).1, hgen (h.past n hlt).2⟩
    · rw [hsender, hdest]
      exact ⟨hgen (hn.past hlive (hf.slots s hlive.1)), hgen (hn.past hd (hf.slots d hd.1))⟩

/-- **A message is taken** that waited. -/
theorem Told.take (h : Told ps H) (hs : (ps s).state = .sendBlocked) (hto : (ps s).sendTo = r)
    (hsender : (qs s).state = .replyBlocked ∧ (qs s).peer = r)
    (hr : ¬ (ps r).state.Sends ∧ ¬ (qs r).state.Sends)
    (hbox : (qs r).inbox = (ps s).inbox) (hothers : ∀ i, i ≠ s → i ≠ r → qs i = ps i)
    (hf : Fine ps) (hn : ps.Named) (ha : ∀ i, (ps i).Alike (qs i))
    (hl : ∀ i, (qs i).Live ↔ (ps i).Live) : Told qs (H.take s (qs r).pid (qs r).inbox) := by
  have hsends : ∀ {i}, (qs i).state.Sends → (ps i).state.Sends ∧ (i ≠ s → qs i = ps i) :=
    fun {i} hi => by
      have hir : i ≠ r := fun e => hr.2 (e ▸ hi)
      by_cases e : i = s
      · exact ⟨e ▸ .inl hs, fun hne => absurd e hne⟩
      · exact ⟨by rwa [← hothers i e hir], fun _ => hothers i e hir⟩
  have hno : ∀ {p : Nat}, (∀ i, (ps i).Live → (ps i).pid ≠ p) →
      ∀ i, (qs i).Live → (qs i).pid ≠ p := fun hp i hi => by
    rw [(ha i).pid]
    exact hp i ((hl i).mp hi)
  have hgen : ∀ {p}, ps.Past p → qs.Past p := fun {p} hp => by rwa [Past, (ha _).generation]
  have htaken : ∀ {n}, (H.take s (qs r).pid (qs r).inbox).Taken n ↔ H.Taken n ∨ n = H.number s :=
    fun {n} => by simp [Mail.Taken, Mail.take]
  obtain ⟨hlive, hdest⟩ := h.awaits s r (.inr ⟨hs, hto⟩)
  obtain ⟨htext, hfirst⟩ := h.held s hs
  refine ⟨fun i hi => ?_, fun i t ht => ?_, fun i hi => ?_, fun i hi => ?_, fun x hx => ?_, ?_,
    fun x hx => ?_, h.single, fun n hn' => ?_, fun n hn' => ?_⟩
  · rw [(ha i).pid]
    exact h.number i (hsends hi).1
  · rw [(ha t).pid, hl t]
    by_cases e : i = s
    · subst e
      rw [Process.AwaitsSlot, hsender.1, hsender.2] at ht
      obtain rfl : r = t := (ht.resolve_right fun e => absurd e.1 (by decide)).2
      exact ⟨hlive, hdest⟩
    · rw [(hsends (awaits_sends ht)).2 e] at ht
      exact h.awaits i t ht
  · have e : i ≠ s := fun e => by
      rw [e, hsender.1] at hi
      exact absurd hi (by decide)
    have heq := (hsends (.inl hi)).2 e
    rw [heq] at hi ⊢
    obtain ⟨h₁, h₂⟩ := h.held i hi
    refine ⟨h₁, fun ht => ?_⟩
    rcases htaken.mp ht with ht | ht
    · exact h₂ ht
    · exact e (h.inj hf hn (.inl hi) (.inl hs) ht)
  · by_cases e : i = s
    · exact htaken.mpr (.inr (by rw [e]; rfl))
    · rw [(hsends (.inr hi)).2 e] at hi
      exact htaken.mpr (.inl (h.taken i hi))
  · rcases List.mem_append.mp hx with hx | hx
    · exact h.delivered x hx
    · cases List.mem_singleton.mp hx
      exact ⟨(h.number s (.inl hs)).1, (ha r).pid.trans hdest, hbox.trans htext⟩
  · simp only [Mail.take, List.map_append, List.map_cons, List.map_nil]
    refine List.nodup_append.mpr ⟨h.once, List.nodup_singleton _, fun n hn' n' hn'' e => ?_⟩
    rw [e, List.mem_singleton.mp hn''] at hn'
    exact hfirst hn'
  · obtain ⟨h₁, h₂⟩ := h.outcomes x hx
    refine ⟨h₁, h₂.imp (fun hok => ⟨hok.1, htaken.mpr (.inl hok.2)⟩) fun hfail => ?_⟩
    exact ⟨hfail.1, hfail.2.1, hno hfail.2.2⟩
  · rcases h.each n hn' with h₁ | ⟨i, hi, rfl⟩ | h₁
    · exact .inl h₁
    · refine .inr (.inl ⟨i, ?_, rfl⟩)
      by_cases e : i = s
      · exact e ▸ .inr hsender.1
      · rwa [hothers i e fun e' => hr.1 (e' ▸ hi)]
    · exact .inr (.inr (hno h₁))
  · exact ⟨hgen (h.past n hn').1, hgen (h.past n hn').2⟩

/-- A message is taken, by one that waits for it or does not. -/
theorem Told.delivers (h : Told ps H) (hf : Fine ps) (hn : ps.Named)
    (hd : Delivers s r m ps qs) :
    Told qs (H.hear ps qs (H.deed ps qs (.delivers s r m))) := by
  have ha : ∀ i, (ps i).Alike (qs i) := fun i => (hd.kept i).1
  have hl : ∀ i, (qs i).Live ↔ (ps i).Live := fun i => (hd.same i).live
  have hr : ¬ (ps r).state.Sends ∧ ¬ (qs r).state.Sends := by
    rcases hd.state with ⟨h₁, h₂⟩ | ⟨h₁, h₂⟩ <;> rw [h₁, h₂] <;> decide
  have hbox : (qs r).inbox = m := by rw [hd.receiver]
  have hpeer : (qs s).peer = r := by rw [hd.sender]
  have hnone : H.observe ps qs = [] := observe_of_waits fun i hi hli => by
    by_cases e : i = s
    · rw [e, hd.sender_state]
      decide
    · by_cases e' : i = r
      · exact absurd (e' ▸ hi) hr.1
      · rwa [hd.others i e e']
  rw [Mail.hear, hnone, List.append_nil]
  rcases hd.sent with hs | ⟨hs, hto, hm⟩
  · -- It is sent first, and taken then.
    have hlive : (ps r).Live := by
      rcases hd.state with ⟨e, -⟩ | ⟨e, -⟩ <;> exact State.live_of_eq e (by decide) (by decide)
    have hsl := Process.live_of_running hs
    obtain ⟨hsame, halike⟩ := edit_stays ps s
      (f := fun p => { p with state := .sendBlocked, sendTo := r, inbox := m }) ⟨rfl, rfl, rfl, rfl⟩
      (same_of_live hsl ⟨by simp, by simp⟩ ⟨rfl, rfl, rfl, rfl, rfl⟩)
    have hpost := h.post (m := m) hf hn hs hlive (by rw [edit_self]; exact ⟨rfl, rfl, rfl⟩)
      (fun i e => edit_of_ne e _) halike fun i => (hsame i).live
    have hns : ¬ (ps s).state = .sendBlocked := by rw [hs]; decide
    rw [Mail.deed, if_neg hns]
    refine hpost.take (r := r) (by rw [edit_self]) (by rw [edit_self]) ⟨hd.sender_state, hpeer⟩ ?_ ?_
      (fun i e e' => ?_) (hf.congr hsame) (hn.same halike hsame) (fun i => ?_) fun i => ?_
    · rw [edit_of_ne (Ne.symm hd.ne)]
      exact hr
    · rw [edit_self, hbox]
    · rw [edit_of_ne e]
      exact hd.others i e e'
    · refine ⟨?_, ?_, ?_, ?_⟩
      · exact (ha i).pid.trans (halike i).pid.symm
      · exact (ha i).generation.trans (halike i).generation.symm
      · exact (ha i).leader.trans (halike i).leader.symm
      · exact (ha i).parent.trans (halike i).parent.symm
    · exact (hl i).trans (hsame i).live.symm
  · rw [Mail.deed, if_pos hs]
    refine h.take hs hto ⟨hd.sender_state, hpeer⟩ hr (hbox.trans hm.symm) hd.others hf hn ha hl

theorem hear_self (hnone : H.observe ps qs = []) : H.hear ps qs H = H := by
  rw [Mail.hear, hnone, List.append_nil]

theorem Told.silent (h : Told ps H) (hf : Fine ps) (hn : ps.Named) (hm : Mute ps qs)
    (hc : Comes ps qs) (hw : ∀ i, (ps i).state.Sends → (qs i).Live → (qs i).state.Sends) :
    Told qs H := by
  have := h.mute hf hn hm hc
  rwa [hear_self (observe_of_waits hw)] at this

theorem Told.go (h : Told ps H) (hf : Fine ps) (hn : ps.Named) (hgo : Go ps qs) : Told qs H :=
  h.silent hf hn hgo.mute hgo.comes fun _ hi _ => hgo.sends.mpr hi

theorem Takes.silent {d : Deed} {es : List Effect} (ht : Takes ps d qs es) (hf : Fine ps)
    (hd : (∃ t, d = .marks t) ∨ (∃ t, d = .ends t) ∨ (∃ s, d = .dismisses s) ∨
      ∃ s, d = .execs s) : Silent ps qs := by
  cases ht with
  | marks run => exact (markKilled_fates run).silent (s := 0) hf
  | ends live fates => exact fates.silent hf
  | dismisses run fates => exact fates.silent hf
  | execs run fates run' dismissed only image => exact (fates.silent hf).trans (image.silent run')
  | _ => simp at hd

/-- A slot that waits goes on waiting when a message is sent or taken, or a process begins. -/
theorem Takes.waits {d : Deed} {es : List Effect} (ht : Takes ps d qs es)
    (hd : (∀ s t m, d ≠ .replies s t m) ∧ (∀ t, d ≠ .marks t) ∧ (∀ t, d ≠ .ends t) ∧
      (∀ s, d ≠ .dismisses s) ∧ ∀ s, d ≠ .execs s) (hi : (ps i).state.Sends) :
    (qs i).state.Sends := by
  have hborn : ∀ {j rs}, Born ps j rs → (rs i).state.Sends := fun born => by
    rw [born.others i (born.ne (sends_live hi))]
    exact hi
  have hne : ∀ {s}, (ps s).state = .running → i ≠ s := fun run e => by
    rw [e, run] at hi
    exact absurd hi (by decide)
  cases ht with
  | sends msgPtr run => rwa [edit_of_ne (hne run)]
  | delivers takes =>
      rename_i s r m _
      by_cases e : i = s
      · rw [e, takes.sender_state]
        decide
      · have e' : i ≠ r := fun e' => by
          rcases takes.state with ⟨h, -⟩ | ⟨h, -⟩ <;> rw [e', h] at hi <;> exact absurd hi (by decide)
        rwa [takes.others i e e']
  | creates born => exact hborn born
  | threads run born => exact hborn born
  | vforks run born =>
      rw [setState, edit_of_ne (hne run)]
      exact hborn born
  | _ => simp at hd

theorem Takes.mute {d : Deed} {es : List Effect} (ht : Takes ps d qs es) (hf : Fine ps)
    (hd : (∀ s t m, d ≠ .sends s t m) ∧ ∀ s r m, d ≠ .delivers s r m) : Mute ps qs := by
  have hsilent := ht.silent hf
  cases ht with
  | sends => exact (hd.1 _ _ _ rfl).elim
  | delivers => exact (hd.2 _ _ _ rfl).elim
  | replies run state => exact reply_mute state _
  | creates born => exact born.mute
  | threads run born => exact born.mute
  | vforks run born space join leader vfork child =>
      rename_i s i rs
      have hwaits : ∀ j, (ps j).state.Sends → (rs j).state.Sends := fun j hj => by
        rw [born.others j (born.ne (sends_live hj))]
        exact hj
      refine born.mute.trans hwaits (vfork_mute ?_)
      rw [born.others s (born.ne (Process.live_of_running run))]
      exact run
  | _ => exact (hsilent (by simp)).mute

/-- What goes on is ready: it was answered, or has lost its partner. -/
theorem Takes.leaves {d : Deed} {es : List Effect} (ht : Takes ps d qs es) (hf : Fine ps)
    (hi : (ps i).state.Sends) (hl : (qs i).Live) (hs : ¬ (qs i).state.Sends) :
    (qs i).state = .ready ∧ ((∀ s t m, d ≠ .replies s t m) → (qs i).ret = 2 ^ 64 - 1) := by
  have hsilent := ht.silent hf
  have hwaits := fun hd => ht.waits hd hi
  cases ht with
  | replies run state =>
      exact ⟨((reply_mute state _).leaves i hi hl hs).1, fun hd => (hd _ _ _ rfl).elim⟩
  | sends => exact absurd (hwaits (by simp)) hs
  | delivers => exact absurd (hwaits (by simp)) hs
  | creates => exact absurd (hwaits (by simp)) hs
  | threads => exact absurd (hwaits (by simp)) hs
  | vforks => exact absurd (hwaits (by simp)) hs
  | _ =>
      obtain ⟨h₁, h₂, -⟩ := (hsilent (by simp)).fails i hi hl hs
      exact ⟨h₁, fun _ => h₂⟩

/-- **One deed** and what it brings back. -/
theorem Takes.told {d : Deed} {es : List Effect} (ht : Takes ps d qs es) (hf : Fine ps)
    (hn : ps.Named) (h : Told ps H) : Told qs (H.hear ps qs (H.deed ps qs d)) := by
  have hc := ht.comes
  have hstays := ht.stays
  have hmute := ht.mute hf
  have hwaits := fun i hi hd => ht.waits (i := i) hd hi
  cases ht with
  | sends msgPtr run live =>
      obtain ⟨hs, ha, -⟩ := hstays (by simp)
      rw [Mail.hear, observe_of_waits fun i hi _ => hwaits i hi (by simp), List.append_nil]
      exact h.post hf hn run live (by rw [edit_self]; exact ⟨rfl, rfl, rfl⟩)
        (fun i e => edit_of_ne e _) ha fun i => (hs i).live
  | delivers takes => exact h.delivers hf hn takes
  | _ => exact h.mute hf hn (hmute (by simp)) hc

/-- What comes back in an event is what its deeds bring back. -/
theorem observe_congr (hgo : Go ps ps') (hnext : Go qs rs) (hs : Settles qs rs)
    (hr : ∀ i, (ps' i).state.Sends → (qs i).Live → ¬ (qs i).state.Sends → (qs i).state = .ready) :
    H.observe ps rs = H.observe ps' qs := by
  refine List.filterMap_congr fun i _ => ?_
  have hiff : ((ps i).state.Sends ∧ (rs i).Live ∧ ¬ (rs i).state.Sends) ↔
      ((ps' i).state.Sends ∧ (qs i).Live ∧ ¬ (qs i).state.Sends) := by
    rw [hgo.sends, hnext.sends, (hnext i).same.live]
  by_cases e : (ps' i).state.Sends ∧ (qs i).Live ∧ ¬ (qs i).state.Sends
  · obtain ⟨-, h₂, h₃⟩ := hs i (hr i e.1 e.2.1 e.2.2)
    rw [if_pos e, if_pos (hiff.mpr e), h₂, h₃]
  · rw [if_neg e, if_neg (mt hiff.mp e)]

theorem mail_deed_congr (hgo : Go ps ps') (hnext : Go qs rs) (d : Deed) :
    H.deed ps rs d = H.deed ps' qs d := by
  cases d with
  | sends s d m => simp only [Mail.deed, (hgo s).alike.pid, (hgo d).alike.pid]
  | delivers s r m =>
      have hst := (hgo s).stuck .sendBlocked (by decide)
      simp only [Mail.deed, (hgo s).alike.pid, (hgo r).alike.pid, (hnext r).alike.pid,
        (hnext r).inbox, hst]
  | _ => rfl

theorem group_silent {d : Deed} {l : Nat} {ts ts' : Procs} {es es' : List Effect} (hf : Fine ps)
    (hn : ps.Named) (kill : d = .marks l ∨ d = .ends l) (first : Takes ps d ts es) (go : Go ts ts')
    (same : SameRunning ts ts') (between : Settles ts ts') (takes : Takes ts' (.ends s) qs es') :
    Silent ps qs ∧ (∀ i, (ps i).Alike (qs i)) ∧ Fine qs ∧ qs.Named := by
  obtain ⟨hfates, hf₁, hn₁, -⟩ := first.killed kill hf hn
  obtain ⟨hf₂, hn₂⟩ := go.orderly hf₁ hn₁
  have horderly := takes.orderly hf₂ hn₂
  cases takes with
  | ends live fates =>
      refine ⟨((hfates.silent hf).trans (go.silent same between)).trans (fates.silent hf₂),
        fun i => ?_, horderly⟩
      exact ((hfates.fixed i).toAlike.trans (go i).alike).trans (fates.fixed i).toAlike

/-- **The deeds of an event** and what they bring back. -/
theorem Course.told {ds : List Deed} {fs : List (Nat × Option Nat)} (hc : Course ds ps fs qs)
    (hf : Fine ps) (hn : ps.Named) (h : Told ps H) :
    Told qs (H.hear ps qs (ds.foldl (·.deed ps qs) H)) := by
  cases hc with
  | rest go =>
      rw [List.foldl_nil, hear_self (observe_of_waits fun _ hi _ => go.sends.mpr hi)]
      exact h.go hf hn go
  | last go same takes next settles =>
      obtain ⟨hf', hn'⟩ := go.orderly hf hn
      have htold := takes.told hf' hn' (h.go hf hn go)
      obtain ⟨hf'', hn''⟩ := takes.orderly hf' hn'
      have hobserve : H.observe ps qs = H.observe _ _ :=
        observe_congr go next settles fun i hi hl hs => (takes.leaves hf' hi hl hs).1
      rw [List.foldl_cons, List.foldl_nil, mail_deed_congr go next, Mail.hear, hobserve]
      exact htold.go hf'' hn'' next
  | group kill first go same between takes next settles =>
      rename_i d l s ts ts' qs' es es'
      obtain ⟨hsilent, halike, hf', hn'⟩ := group_silent hf hn kill first go same between takes
      have htold := h.mute hf hn hsilent.mute (comes_of_alike halike hsilent.live)
      have hobserve : H.observe ps qs = H.observe ps qs' :=
        observe_congr (Calm.refl ps).go next settles fun i hi hl hs =>
          (hsilent.fails i hi hl hs).1
      have hkept : [d, .ends s].foldl (·.deed ps qs) H = H := by
        rcases kill with rfl | rfl <;> rfl
      rw [hkept, Mail.hear, hobserve]
      exact htold.go hf' hn' next

theorem Course.idle {fs : List (Nat × Option Nat)} (hc : Course [] ps fs qs) : Go ps qs := by
  cases hc with
  | rest go => exact go

theorem Course.fails {ds : List Deed} {fs : List (Nat × Option Nat)} (hc : Course ds ps fs qs)
    (hf : Fine ps) (hn : ps.Named) (hd : ∀ s t m, .replies s t m ∉ ds) {x : Nat × Nat × Message}
    (hx : x ∈ H.observe ps qs) : x.2.1 = 2 ^ 64 - 1 := by
  obtain ⟨i, -, ⟨hi, hl, hs⟩, rfl⟩ := Mail.mem_observe.mp hx
  cases hc with
  | rest go => exact absurd (go.sends.mpr hi) hs
  | last go same takes next settles =>
      rw [← go.sends] at hi
      rw [(next i).same.live] at hl
      rw [next.sends] at hs
      obtain ⟨h₁, h₂⟩ := takes.leaves (go.orderly hf hn).1 hi hl hs
      refine (settles i h₁).2.1.trans (h₂ fun s t m e => hd s t m ?_)
      exact e ▸ List.mem_cons_self
  | group kill first go same between takes next settles =>
      obtain ⟨hsilent, -⟩ := group_silent hf hn kill first go same between takes
      rw [(next i).same.live] at hl
      rw [next.sends] at hs
      obtain ⟨h₁, h₂, -⟩ := hsilent.fails i hi hl hs
      exact (settles i h₁).2.1.trans h₂

theorem Course.answers {fs : List (Nat × Option Nat)}
    (hc : Course [.replies s t m] ps fs qs) (hf : Fine ps) (hn : ps.Named)
    {x : Nat × Nat × Message} : x ∈ H.observe ps qs ↔ x = (H.number t, 0, m) := by
  cases hc with
  | last go same takes next settles =>
      have hf' := (go.orderly hf hn).1
      rw [observe_congr go next settles fun i hi hl hs => (takes.leaves hf' hi hl hs).1]
      cases takes with
      | replies run state =>
          rw [Mail.mem_observe]
          constructor
          · rintro ⟨i, -, ⟨hi, -, hs⟩, rfl⟩
            by_cases e : i = t
            · subst e
              rw [edit_self]
            · rw [edit_of_ne e] at hs
              exact absurd hi hs
          · rintro rfl
            have hl := State.live_of_eq state (by decide) (by decide)
            refine ⟨t, hf'.slots t hl.1, ⟨.inr state, ?_⟩, ?_⟩ <;> rw [edit_self]
            exact ⟨⟨by simp, by simp⟩, by simp [State.Sends]⟩

end Procs

namespace Machine

variable {σ τ : Machine} {c s : Nat} {H : Mail}

/-- What was sent is taken once at most, by its destination; its sender waits for the destination,
which is alive, or got an answer, once, or learnt that the destination had ended, or has ended. -/
structure Rendezvous (σ : Machine) (H : Mail) : Prop where
  once : (H.delivered.map Prod.fst).Nodup
  delivered : ∀ x ∈ H.delivered, x.1 < H.sent ∧ x.2.1 = H.dest x.1 ∧ x.2.2 = H.text x.1
  single : (H.outcomes.map Prod.fst).Nodup
  outcomes : ∀ x ∈ H.outcomes, x.1 < H.sent ∧ (x.2.1 = 0 ∧ H.Taken x.1 ∨ x.2.1 = 2 ^ 64 - 1 ∧
    x.2.2 = .zero ∧ ∀ i, (σ.procs i).Live → (σ.procs i).pid ≠ H.dest x.1)
  each : ∀ n < H.sent, H.Over n ∨
    (∃ i, (σ.procs i).state.Sends ∧ (σ.procs i).pid = H.sender n ∧ H.number i = n) ∨
    ∀ i, (σ.procs i).Live → (σ.procs i).pid ≠ H.sender n
  waits : ∀ i, (σ.procs i).state.Sends → ¬ H.Over (H.number i)
  partner : ∀ i t, (σ.procs i).AwaitsSlot t →
    (σ.procs t).Live ∧ (σ.procs t).pid = H.dest (H.number i)

/-- The process `p` has taken the message, its sender is alive, and nothing came back yet. -/
def Owes (σ : Machine) (H : Mail) (p n : Nat) : Prop :=
  H.Taken n ∧ H.dest n = p ∧ ¬ H.Over n ∧ ∃ i, (σ.procs i).Live ∧ (σ.procs i).pid = H.sender n

/-- An answer reaches the sender that it names, if its message was taken, and nobody else. -/
structure Answers (σ : Machine) (H : Mail) (e : Event) (τ : Machine) : Prop where
  reply : ∀ c s toPid m ws, e = .call c (.ipcReply toPid m) ws → σ.current c = some s → ∀ x,
    x ∈ H.observe σ.procs τ.procs ↔
      ∃ n, x = (n, 0, m) ∧ σ.Owes H (σ.procs s).pid n ∧ H.sender n = toPid
  other : (∀ c toPid m ws, e ≠ .call c (.ipcReply toPid m) ws) →
    ∀ x ∈ H.observe σ.procs τ.procs, x.2.1 ≠ 0

/-- The runs with the note of the messages. -/
abbrev Posting : Machine × Mail → Prop :=
  Runs.Noted step Mail.note (· = boot) .none fun _ _ => True

theorem Posting.told {x : Machine × Mail} (h : Posting x) : x.1.Sound ∧ x.1.procs.Told x.2 := by
  refine h.invariant (I := fun (σ : Machine) H => σ.Sound ∧ σ.procs.Told H) (fun σ hσ => ?_)
    fun σ e τ H hσ _ hs => ?_
  · rw [hσ]
    exact ⟨sound_boot, Procs.told_empty⟩
  · exact ⟨hσ.1.step hs, (hσ.1.course hs).told hσ.1.fine hσ.1.named hσ.2⟩

theorem rendezvous (h : σ.procs.Told H) : Rendezvous σ H where
  once := h.once
  delivered := h.delivered
  single := h.single
  outcomes := h.outcomes
  each n hn := (h.each n hn).imp_right fun hn => hn.imp_left fun ⟨i, hi, e⟩ =>
    ⟨i, hi, by rw [← e, (h.number i hi).2.1], e⟩
  waits i hi := (h.number i hi).2.2
  partner := h.awaits

/-- Only `ipc_reply` answers. -/
theorem replies_not_mem {e : Event} (he : ∀ c toPid m ws, e ≠ .call c (.ipcReply toPid m) ws)
    (s t : Nat) (m : Message) : .replies s t m ∉ σ.deeds e := by
  cases e with
  | killSig c pid sig mapped ws =>
      cases hs : σ.procs.slotOf pid with
      | none => simp [deeds, hs]
      | some t =>
          simp only [deeds, hs, kill, Option.map_some, Option.toList_some]
          split_ifs <;> simp
  | call c k ws =>
      cases hc : σ.current c with
      | none => simp [deeds, hc]
      | some s =>
          simp only [deeds, hc, Option.elim_some]
          cases k with
          | ipcReply toPid m => exact absurd rfl (he c toPid m ws)
          | execReplace root asid ctx =>
              simp only [callDeeds]
              split_ifs <;> simp
          | ipcSend dstPid msg msgPtr =>
              simp only [callDeeds, Option.mem_toList, Option.bind_eq_some_iff]
              rintro ⟨d, -, hd⟩
              split_ifs at hd <;> simp at hd
          | exitIfKilled mapped =>
              simp only [callDeeds]
              split_ifs <;> simp
          | exitGroup mapped =>
              simp only [callDeeds, kill]
              split_ifs <;> simp
          | _ => simp [callDeeds]
  | _ => simp [deeds]

/-- A sender that waits for an answer of slot `s` is owed one. -/
theorem owes_of_waits (h : σ.procs.Told H) {t : Nat} (ht : (σ.procs t).state = .replyBlocked)
    (hp : (σ.procs t).peer = s) : σ.Owes H (σ.procs s).pid (H.number t) ∧
      H.sender (H.number t) = (σ.procs t).pid := by
  obtain ⟨-, hsender, hover⟩ := h.number t (.inr ht)
  obtain ⟨-, hdest⟩ := h.awaits t s (.inl ⟨ht, hp⟩)
  exact ⟨⟨h.taken t ht, hdest.symm, hover, t, State.live_of_eq ht (by decide) (by decide),
    hsender.symm⟩, hsender⟩

theorem Owes.waits {n : Nat} (ho : σ.Owes H (σ.procs s).pid n) (hs : σ.Sound)
    (h : σ.procs.Told H) (hl : (σ.procs s).Live) : ∃ t, σ.procs.slotOf (H.sender n) = some t ∧
      (σ.procs t).state = .replyBlocked ∧ (σ.procs t).peer = s ∧ H.number t = n := by
  obtain ⟨htaken, hdest, hover, i, hi, hpid⟩ := ho
  rcases h.each n (h.taken_lt htaken) with hov | ⟨t, ht, rfl⟩ | hno
  · exact absurd hov hover
  · have hlive := Procs.sends_live ht
    have hst : (σ.procs t).state = .replyBlocked :=
      ht.resolve_left fun e => (h.held t e).2 htaken
    obtain ⟨hpl, hpeer⟩ := h.awaits t _ (.inl ⟨hst, rfl⟩)
    refine ⟨t, ?_, hst, hs.named.slot_inj hs.fine hpl hl (hpeer.trans hdest), rfl⟩
    have hslot := hs.named.slot hlive (hs.fine.slots t hlive.1)
    rw [(h.number t ht).2.1, Procs.slotOf, hslot, if_pos ⟨hlive, rfl⟩]
  · exact absurd hpid (hno i hi)

/-- What `ipc_reply` brings back. -/
theorem observe_reply (hs : σ.Sound) (h : σ.procs.Told H) (hc : σ.current c = some s)
    {toPid : Nat} {m : Message} {ws : Wakes}
    (he : σ.step (.call c (.ipcReply toPid m) ws) = some τ) (x : Nat × Nat × Message) :
    x ∈ H.observe σ.procs τ.procs ↔
      ∃ n, x = (n, 0, m) ∧ σ.Owes H (σ.procs s).pid n ∧ H.sender n = toPid := by
  have hcourse := hs.course he
  have hlive := Process.live_of_running (hs.running hc)
  by_cases hp : ∃ t, σ.procs.slotOf toPid = some t ∧ (σ.procs t).state = .replyBlocked ∧
      (σ.procs t).peer = s
  · obtain ⟨t, hslot, hst, hpeer⟩ := hp
    have hds : σ.deeds (.call c (.ipcReply toPid m) ws) = [.replies s t m] := by
      simp only [deeds, hc, Option.elim_some, callDeeds, hslot, Option.bind_some,
        if_pos (And.intro hst hpeer), Option.toList_some]
    obtain ⟨howes, hsender⟩ := owes_of_waits h hst hpeer
    rw [hds] at hcourse
    rw [hcourse.answers hs.fine hs.named]
    refine ⟨fun e => ⟨_, e, howes, hsender.trans (Procs.slotOf_some hslot).2.1⟩, ?_⟩
    rintro ⟨n, rfl, ho, rfl⟩
    obtain ⟨t', hslot', -, -, rfl⟩ := ho.waits hs h hlive
    rw [Option.some.inj (hslot.symm.trans hslot')]
  · have hds : σ.deeds (.call c (.ipcReply toPid m) ws) = [] := by
      simp only [deeds, hc, Option.elim_some, callDeeds]
      cases hslot : σ.procs.slotOf toPid with
      | none => rfl
      | some t => simp only [Option.bind_some, if_neg fun e => hp ⟨t, hslot, e⟩, Option.toList_none]
    rw [hds] at hcourse
    refine iff_of_false (fun hx => ?_) ?_
    · obtain ⟨i, -, ⟨hi, -, hns⟩, -⟩ := Mail.mem_observe.mp hx
      exact hns (hcourse.idle.sends.mpr hi)
    · rintro ⟨n, -, ho, hn⟩
      obtain ⟨t, h₁, h₂, h₃, -⟩ := ho.waits hs h hlive
      exact hp ⟨t, hn ▸ h₁, h₂, h₃⟩

/-- **Messages are answered**: in every run each message is taken once at most, by its destination,
each sender gets one answer or learns that its partner has ended, and an answer reaches the sender
that it names. -/
theorem messages_answered {x : Machine × Mail} (h : Posting x) : Rendezvous x.1 x.2 ∧
    ∀ e τ, x.1.step e = some τ → Answers x.1 x.2 e τ := by
  obtain ⟨hs, ht⟩ := h.told
  refine ⟨rendezvous ht, fun e τ he => ⟨?_, fun hne x hx => ?_⟩⟩
  · rintro c s toPid m ws rfl hc
    exact observe_reply hs ht hc he
  · rw [(hs.course he).fails hs.fine hs.named (replies_not_mem hne) hx]
    decide

/-- Two processes send to a third, which takes both messages. -/
def twoSenders : List Event :=
  [.createEx 0 7 0 0, .createEx 0 9 1 0, .createEx 0 11 2 0, .enterScheduler 0 [],
   .enterScheduler 1 [], .enterScheduler 2 [], .call 1 (.ipcSend 0 ⟨1, Vector.replicate 6 0⟩ 0) [],
   .call 2 (.ipcSend 0 ⟨2, Vector.replicate 6 0⟩ 0) [], .call 0 (.ipcRecv 0) [],
   .call 0 (.ipcRecv 0) []]

theorem messages_answered_run : ∃ x, (Posting x ∧ x.2.sent = 2 ∧ x.2.delivered.length = 2) ∧
    Rendezvous x.1 x.2 := by
  have hboot : Posting (boot, .none) := .start rfl
  have hrun : (Runs.run (Runs.noted step Mail.note) (fun _ _ => True) twoSenders (boot, .none)).any
      (fun x => decide (x.2.sent = 2 ∧ x.2.delivered.length = 2)) = true := by decide +kernel
  obtain ⟨x, hx, hw⟩ := hboot.run_any hrun
  exact ⟨x, ⟨hx, hw⟩, (messages_answered hx).1⟩

/-- The message that process `p` took last, of those that it still has to answer. -/
def lastTaken (H : Mail) (p : Nat) : Option Nat :=
  ((H.delivered.filter fun x => decide (x.2.1 = p ∧ ¬ H.Over x.1)).map Prod.fst).getLast?

/-- **An answer out of turn** goes to the sender that it names, and not to the one whose message was
taken last. -/
theorem reply_out_of_turn : ¬ ∀ x, Posting x → ∀ c s toPid m ws τ, x.1.current c = some s →
    x.1.step (.call c (.ipcReply toPid m) ws) = some τ → ∀ y ∈ x.2.observe x.1.procs τ.procs,
      lastTaken x.2 (x.1.procs s).pid = some y.1 := by
  intro h
  have hboot : Posting (boot, .none) := .start rfl
  have hrun : (Runs.run (Runs.noted step Mail.note) (fun _ _ => True) twoSenders (boot, .none)).any
      (fun x => decide (x.1.current 0 = some 0 ∧
        (x.1.step (.call 0 (.ipcReply 1 .zero) [])).any (fun τ => decide
          ((0, 0, .zero) ∈ x.2.observe x.1.procs τ.procs)) = true ∧
        lastTaken x.2 (x.1.procs 0).pid ≠ some 0)) = true := by decide +kernel
  obtain ⟨x, hx, hc, hτ, hlast⟩ := hboot.run_any hrun
  obtain ⟨τ, hs, hy⟩ := (Option.any_eq_true _ _).mp hτ
  exact hlast (h x hx 0 0 1 .zero [] τ hc hs _ (of_decide_eq_true hy))

end Machine

end Pulsar.Proc

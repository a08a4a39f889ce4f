import Pulsar.Lib.Runs
import Pulsar.Virtio.Queue

/-!
# Events of a keyboard and a tablet (`input.rs`)

The driver gives the device 64 buffers and polls. The device writes an event into a buffer that it
took, at any time, and gives the buffers back in any order; the driver reads the event and gives the
buffer to the device again.

* `Kept`: each buffer is in one place, in a ring, with the device or with the driver.
* **`events_in_order`**: the driver reads each event once, as it was written and in the order of the
  device, and `drain` gives those that are complete and no `EV_SYN`.
-/

namespace Pulsar.Virtio

open Runs

structure InputEvent where
  ev_type : UInt16
  code : UInt16
  value : UInt32
  deriving DecidableEq

def EV_SYN : UInt16 := 0

def NBUF : Nat := 64

/-- `size_of::<InputEvent>()`. -/
def EVENT_SIZE : Nat := 8

/-- Where the driver is: it has buffers left to post at first, is out of `drain`, was told of a
buffer, or has read it. -/
inductive Phase where
  | setup (i : Nat)
  | idle
  | told (idx : UInt16) (len : UInt32)
  | read (idx : UInt16) (len : UInt32) (ev : InputEvent)
  | panic
  deriving DecidableEq

/-- A device, its queue and the driver: the event at each address, the address of the buffers, up to
where the device has read `avail`, and the chains that it holds. -/
structure Input where
  queue : VirtQueue
  mem : Nat → InputEvent
  bufs : Nat
  phase : Phase
  place : UInt16
  held : List UInt16

/-- A step of the driver, or of the device. -/
inductive InputAct where
  | post
  | poll
  | fetch
  | take
  | write (id : UInt16) (ev : InputEvent)
  | complete (id : UInt16) (len : UInt32)
  deriving DecidableEq

namespace Input

/-- The address of a buffer. -/
def buf (s : Input) (idx : UInt16) : Nat := s.bufs + EVENT_SIZE * idx.toNat

/-- A buffer is posted, and the driver goes on. -/
def posts (s : Input) (idx : UInt16) (next : Phase) : Input :=
  match s.queue.post_recv idx (s.buf idx) (UInt32.ofNat EVENT_SIZE) with
  | some queue => { s with queue := queue, phase := next }
  | none => { s with phase := .panic }

def step (s : Input) : InputAct → Option Input
  -- the loop of `setup_dev`, and the end of a turn of `drain`
  | .post =>
    match s.phase with
    | .setup i => some (s.posts (UInt16.ofNat i) (if i + 1 < NBUF then .setup (i + 1) else .idle))
    | .read idx _ _ => some (s.posts idx .idle)
    | _ => none
  | .poll =>
    match s.phase with
    | .idle =>
      some (match s.queue.poll_used with
        | (some (idx, len), queue) => { s with queue := queue, phase := .told idx len }
        | (none, queue) => { s with queue := queue })
    | _ => none
  | .fetch =>
    match s.phase with
    | .told idx len => some { s with phase := .read idx len (s.mem (s.buf idx)) }
    | _ => none
  -- the device
  | .take =>
    if s.queue.mem.avail_idx = s.place then none
    else some { s with
      held := s.held ++ [s.queue.mem.avail (s.place.toNat % QSIZE)]
      place := s.place + 1 }
  | .write id ev =>
    if id ∈ s.held then
      some { s with mem := Function.update s.mem (s.queue.mem.desc id.toNat).addr ev }
    else none
  | .complete id len =>
    if id ∈ s.held then
      some { s with held := s.held.erase id, queue := s.queue.complete id len }
    else none

end Input

/-- What was done: the events that the device gave, with how many bytes it says, those that the
driver has read, and those that `drain` returned. -/
structure Log where
  sent : List (InputEvent × UInt32)
  got : List (InputEvent × UInt32)
  out : List InputEvent

/-- `drain` returns the event. -/
def wanted (x : InputEvent × UInt32) : Bool := EVENT_SIZE ≤ x.2.toNat ∧ x.1.ev_type ≠ EV_SYN

/-- What `drain` returns of what was read. -/
def returned (l : List (InputEvent × UInt32)) : List InputEvent := (l.filter wanted).map Prod.fst

def note (s : Input) (a : InputAct) (_ : Input) (h : Log) : Log :=
  match a with
  | .complete id len =>
    { h with sent := h.sent ++ [(s.mem (s.queue.mem.desc id.toNat).addr, len)] }
  | .fetch =>
    match s.phase with
    | .told idx len => { h with got := h.got ++ [(s.mem (s.buf idx), len)] }
    | _ => h
  | .post =>
    match s.phase with
    | .read _ len ev => { h with out := h.out ++ returned [(ev, len)] }
    | _ => h
  | _ => h

/-- A queue that was just set up, and its device. -/
def Input.Fresh (s : Input) : Prop :=
  s.queue = .setup ∧ s.phase = .setup 0 ∧ s.place = 0 ∧ s.held = []

/-! ### Where the buffers are -/

/-- The buffers. -/
def ids : List UInt16 := (List.range QSIZE).map UInt16.ofNat

theorem toNat_ofNat {i : Nat} (h : i < QSIZE) : (UInt16.ofNat i).toNat = i :=
  UInt16.toNat_ofNat_of_lt (Nat.lt_trans h (by decide))

theorem mem_ids {id : UInt16} : id ∈ ids ↔ id.toNat < QSIZE := by
  constructor
  · intro h
    obtain ⟨i, hi, rfl⟩ := List.mem_map.mp h
    have hlt := List.mem_range.mp hi
    rwa [toNat_ofNat hlt]
  · exact fun h => List.mem_map.mpr ⟨id.toNat, List.mem_range.mpr h, UInt16.ofNat_toNat⟩

theorem ids_nodup : ids.Nodup := by
  refine List.Nodup.map_on (fun i hi j hj h => ?_) List.nodup_range
  rw [← toNat_ofNat (List.mem_range.mp hi), ← toNat_ofNat (List.mem_range.mp hj), h]

theorem ids_length : ids.length = QSIZE := by
  rw [ids, List.length_map, List.length_range]

theorem ids_drop {i : Nat} (h : i < QSIZE) : ids.drop i = UInt16.ofNat i :: ids.drop (i + 1) := by
  rw [List.drop_eq_getElem_cons (ids_length.symm ▸ h)]
  simp [ids]

namespace Phase

/-- The buffers that the driver has. -/
def own : Phase → List UInt16
  | .setup i => ids.drop i
  | .idle | .panic => []
  | .told idx _ | .read idx _ _ => [idx]

/-- How many descriptors were set. -/
def posted : Phase → Nat
  | .setup i => i
  | _ => QSIZE

/-- What the driver was told of and has not read. -/
def telling : Phase → List (UInt16 × UInt32)
  | .told idx len => [(idx, len)]
  | _ => []

/-- What was read and not returned. -/
def unsent : Phase → List (InputEvent × UInt32)
  | .read _ len ev => [(ev, len)]
  | _ => []

end Phase

namespace Input

/-- The buffers that come back, in their order. -/
def back (s : Input) : List UsedElem :=
  pending s.queue.mem.used s.queue.last_used s.queue.mem.used_idx

/-- The buffers that the device has not taken. -/
def offered (s : Input) : List UInt16 := pending s.queue.mem.avail s.place s.queue.mem.avail_idx

/-- The events that the driver has not read. -/
def flight (s : Input) : List (InputEvent × UInt32) :=
  (s.phase.telling ++ s.back.map fun e => (e.id.toUInt16, e.len)).map fun x =>
    (s.mem (s.buf x.1), x.2)

end Input

/-- **Each buffer is in one place**, its descriptor has its address, and what the device gave and
the driver has not read is in the buffers that come back. -/
structure Kept (s : Input) (h : Log) : Prop where
  places : (s.offered ++ s.held ++ s.back.map (·.id.toUInt16) ++ s.phase.own).Perm ids
  addr : ∀ id ∈ ids, id.toNat < s.phase.posted → (s.queue.mem.desc id.toNat).addr = s.buf id
  safe : s.phase ≠ .panic
  setup : ∀ i, s.phase = .setup i → i < QSIZE
  events : h.sent = h.got ++ s.flight
  out : h.out ++ returned s.phase.unsent = returned h.got

section

variable {s t : Input} {h : Log} {id : UInt16}

theorem Kept.start (hs : s.Fresh) : Kept s ⟨[], [], []⟩ := by
  obtain ⟨queue, mem, bufs, phase, place, held⟩ := s
  obtain ⟨rfl, rfl, rfl, rfl⟩ : queue = .setup ∧ phase = .setup 0 ∧ place = 0 ∧ held = [] := hs
  refine ⟨?_, fun _ _ hlt => absurd hlt (Nat.not_lt_zero _), nofun, fun i hi => ?_, ?_, rfl⟩
  · simp [Input.offered, Input.back, VirtQueue.setup, QueueMem.zeroed, Phase.own]
  · exact Phase.setup.inj hi ▸ (by decide)
  · simp [Input.flight, Input.back, VirtQueue.setup, QueueMem.zeroed, Phase.telling]

theorem Kept.places_length (hk : Kept s h) :
    s.offered.length + s.held.length + s.back.length + s.phase.own.length = QSIZE := by
  have hlen := hk.places.length_eq
  simpa [ids_length, Nat.add_assoc] using hlen

theorem Kept.nodup (hk : Kept s h) :
    (s.offered ++ s.held ++ s.back.map (·.id.toUInt16) ++ s.phase.own).Nodup :=
  hk.places.nodup_iff.mpr ids_nodup

theorem Kept.mem_lt (hk : Kept s h)
    (hm : id ∈ s.offered ++ s.held ++ s.back.map (·.id.toUInt16) ++ s.phase.own) :
    id.toNat < QSIZE :=
  mem_ids.mp (hk.places.mem_iff.mp hm)

theorem Kept.addr_of (hk : Kept s h)
    (hm : id ∈ s.offered ++ s.held ++ s.back.map (·.id.toUInt16)) :
    (s.queue.mem.desc id.toNat).addr = s.buf id := by
  have hlt := hk.mem_lt (List.mem_append_left _ hm)
  refine hk.addr id (mem_ids.mpr hlt) ?_
  cases hp : s.phase with
  | setup i =>
      have hnot : id ∉ ids.drop i := by
        intro hc
        have hnd := hk.nodup
        rw [hp] at hnd
        exact (List.nodup_append.mp hnd).2.2 id hm id hc rfl
      by_contra hge
      refine hnot ?_
      have hi : ids.drop i = (List.range' i (QSIZE - i)).map UInt16.ofNat := by
        rw [ids, ← List.map_drop, List.range_eq_range', List.drop_range']
        simp
      rw [hi]
      refine List.mem_map.mpr ⟨id.toNat, List.mem_range'_1.mpr ?_, UInt16.ofNat_toNat⟩
      exact ⟨Nat.le_of_not_lt hge, by omega⟩
  | idle | told | read | panic => exact hlt

/-! ### One step -/

theorem buf_inj {i j : UInt16} (h : s.buf i = s.buf j) : i = j := by
  simp only [Input.buf, EVENT_SIZE] at h
  exact UInt16.toNat_inj.mp (by omega)

theorem Phase.telling_of_ne {p : Phase} (h : ∀ idx len, p ≠ .told idx len) : p.telling = [] := by
  cases p with
  | told idx len => exact absurd rfl (h idx len)
  | setup | idle | read | panic => rfl

/-- **A buffer is posted** that the driver has. -/
theorem Kept.posts (hk : Kept s h) {idx : UInt16} {next : Phase} {h' : Log}
    (hown : s.phase.own = idx :: next.own) (hnow : ∀ i len, s.phase ≠ .told i len)
    (hnext : next = .idle ∨ ∃ j < QSIZE, next = .setup j)
    (hposted : ∀ i ∈ ids, i.toNat < next.posted → i = idx ∨ i.toNat < s.phase.posted)
    (hsent : h'.sent = h.sent) (hgot : h'.got = h.got) (hout : h'.out = returned h.got) :
    Kept (s.posts idx next) h' := by
  have hlt : idx.toNat < QSIZE := hk.mem_lt (List.mem_append_right _ (by rw [hown]; simp))
  have hroom : s.offered.length < QSIZE := by
    have hlen := hk.places_length
    rw [hown, List.length_cons] at hlen
    omega
  have hpost : s.posts idx next = { s with
      queue := s.queue.offer (Function.update s.queue.mem.desc idx.toNat
        ⟨s.buf idx, UInt32.ofNat EVENT_SIZE, DESC_F_WRITE, 0⟩) idx
      phase := next } := by
    unfold Input.posts VirtQueue.post_recv
    rw [if_pos hlt]
  have hoffered : (s.posts idx next).offered = s.offered ++ [idx] := by
    rw [hpost]
    exact pending_push hroom idx
  have hback : (s.posts idx next).back = s.back := by
    rw [hpost]
    rfl
  have hphase : (s.posts idx next).phase = next := by rw [hpost]
  have hheld : (s.posts idx next).held = s.held := by rw [hpost]
  refine ⟨?_, ?_, ?_, ?_, ?_, ?_⟩
  · rw [hoffered, hback, hphase, hheld]
    refine List.perm_iff_count.mpr fun x => ?_
    have hcount := List.perm_iff_count.mp hk.places x
    rw [hown] at hcount
    simp only [List.count_append, List.count_cons, List.count_nil] at hcount ⊢
    omega
  · rw [hphase]
    intro i hi hlast
    rw [hpost]
    change (Function.update s.queue.mem.desc idx.toNat _ i.toNat).addr = s.buf i
    by_cases heq : i = idx
    · rw [heq, Function.update_self]
    · have hne : i.toNat ≠ idx.toNat := fun hc => heq (UInt16.toNat_inj.mp hc)
      rw [Function.update_of_ne hne]
      exact hk.addr i hi ((hposted i hi hlast).resolve_left heq)
  · rw [hphase]
    rcases hnext with rfl | ⟨j, -, rfl⟩ <;> nofun
  · rw [hphase]
    intro i hi
    rcases hnext with rfl | ⟨j, hj, rfl⟩
    · cases hi
    · exact Phase.setup.inj hi ▸ hj
  · have htelling : next.telling = s.phase.telling := by
      rw [Phase.telling_of_ne hnow]
      rcases hnext with rfl | ⟨j, -, rfl⟩ <;> rfl
    have hflight : (s.posts idx next).flight = s.flight := by
      rw [Input.flight, hphase, hback, htelling, hpost]
      rfl
    rw [hsent, hgot, hflight, hk.events]
  · rw [hphase, hout, hgot]
    rcases hnext with rfl | ⟨j, -, rfl⟩ <;> exact List.append_nil _

theorem Kept.post (hk : Kept s h) (hs : s.step .post = some t) : Kept t (note s .post t h) := by
  cases hp : s.phase with
  | setup i =>
      have hi := hk.setup i hp
      have hlt : (UInt16.ofNat i).toNat = i := toNat_ofNat hi
      simp only [Input.step, hp] at hs
      obtain rfl := Option.some.inj hs
      have hout : h.out = returned h.got := by
        have hall := hk.out
        rw [hp] at hall
        exact (List.append_nil _).symm.trans hall
      have hnote (u : Input) : note s .post u h = h := by
        unfold note
        rw [hp]
      have hposted (j : UInt16) (hj : j.toNat < i + 1) :
          j = UInt16.ofNat i ∨ j.toNat < s.phase.posted := by
        rw [hp]
        rcases Nat.lt_succ_iff_lt_or_eq.mp hj with hj | hj
        · exact .inr hj
        · exact .inl (UInt16.toNat_inj.mp (hj.trans hlt.symm))
      have hnow (k : UInt16) (len : UInt32) : s.phase ≠ .told k len := by
        rw [hp]
        nofun
      rw [hnote]
      split_ifs with hlast
      · refine hk.posts ?_ hnow (.inr ⟨i + 1, hlast, rfl⟩) (fun j _ => hposted j) rfl rfl hout
        rw [hp]
        exact ids_drop hi
      · have hend : i + 1 = QSIZE := Nat.le_antisymm hi (Nat.le_of_not_lt hlast)
        refine hk.posts ?_ hnow (.inl rfl) (fun j hj _ => ?_) rfl rfl hout
        · rw [hp]
          refine (ids_drop hi).trans (congrArg _ ?_)
          rw [hend]
          exact List.drop_eq_nil_of_le (Nat.le_of_eq ids_length)
        · exact hposted j (hend ▸ mem_ids.mp hj)
  | read idx len ev =>
      simp only [Input.step, hp] at hs
      obtain rfl := Option.some.inj hs
      have hnote (u : Input) :
          note s .post u h = { h with out := h.out ++ returned [(ev, len)] } := by
        unfold note
        rw [hp]
      rw [hnote]
      refine hk.posts ?_ ?_ (.inl rfl) ?_ rfl rfl ?_
      · rw [hp]
        rfl
      · rw [hp]
        nofun
      · intro j hj hlt
        rw [hp]
        exact .inr hlt
      · have hall := hk.out
        rw [hp] at hall
        exact hall
  | idle | told | panic => simp [Input.step, hp] at hs

theorem Input.step_poll (hp : s.phase = .idle) : s.step .poll = some
    (if s.queue.mem.used_idx = s.queue.last_used then s else
      let elem := s.queue.mem.used (s.queue.last_used.toNat % QSIZE)
      { s with
        queue := { s.queue with last_used := s.queue.last_used + 1 }
        phase := .told elem.id.toUInt16 elem.len }) := by
  obtain ⟨queue, mem, bufs, phase, place, held⟩ := s
  obtain rfl : phase = .idle := hp
  unfold Input.step VirtQueue.poll_used
  dsimp only
  split_ifs <;> rfl

theorem Kept.poll (hk : Kept s h) (hs : s.step .poll = some t) : Kept t h := by
  cases hp : s.phase with
  | idle =>
      rw [Input.step_poll hp] at hs
      split_ifs at hs with hidx
      · exact Option.some.inj hs ▸ hk
      · obtain rfl := Option.some.inj hs
        have hback : s.back = _ := @pending_pop _ s.queue.mem.used _ _ hidx
        have hplaces := hk.places
        have haddr := hk.addr
        have hevents := hk.events
        have hout := hk.out
        rw [hp] at hplaces haddr hout
        rw [Input.flight, hp, hback] at hevents
        rw [hback] at hplaces
        refine ⟨?_, haddr, nofun, nofun, hevents, hout⟩
        change (s.offered ++ s.held ++ (pending s.queue.mem.used (s.queue.last_used + 1)
          s.queue.mem.used_idx).map (fun e : UsedElem => e.id.toUInt16) ++ [_]).Perm ids
        refine List.perm_iff_count.mpr fun x => ?_
        have hcount := List.perm_iff_count.mp hplaces x
        simp only [Phase.own, List.map_cons, List.count_append, List.count_cons,
          List.count_nil] at hcount ⊢
        omega
  | setup | told | read | panic => simp [Input.step, hp] at hs

theorem Kept.fetch (hk : Kept s h) (hs : s.step .fetch = some t) : Kept t (note s .fetch t h) := by
  cases hp : s.phase with
  | told idx len =>
      simp only [Input.step, hp] at hs
      obtain rfl := Option.some.inj hs
      have hout : h.out = returned h.got := by
        have hall := hk.out
        rw [hp] at hall
        exact (List.append_nil _).symm.trans hall
      have hplaces := hk.places
      have haddr := hk.addr
      have hevents := hk.events
      rw [hp] at hplaces haddr
      rw [Input.flight, hp] at hevents
      unfold note
      rw [hp]
      refine ⟨hplaces, haddr, nofun, nofun, ?_, ?_⟩
      · rw [hevents, List.append_assoc]
        rfl
      · rw [hout]
        simp [returned, Phase.unsent]
  | setup | idle | read | panic => simp [Input.step, hp] at hs

theorem Kept.take (hk : Kept s h) (hs : s.step .take = some t) : Kept t h := by
  obtain ⟨hidx, hs⟩ := (Option.ite_none_left_eq_some ..).mp hs
  obtain rfl := Option.some.inj hs
  have hoffered : s.offered = _ := @pending_pop _ s.queue.mem.avail _ _ hidx
  have hplaces := hk.places
  rw [hoffered] at hplaces
  refine ⟨?_, hk.addr, hk.safe, hk.setup, hk.events, hk.out⟩
  change (pending s.queue.mem.avail (s.place + 1) s.queue.mem.avail_idx ++
    (s.held ++ [s.queue.mem.avail (s.place.toNat % QSIZE)]) ++ s.back.map (·.id.toUInt16) ++
      s.phase.own).Perm ids
  refine List.perm_iff_count.mpr fun x => ?_
  have hcount := List.perm_iff_count.mp hplaces x
  simp only [List.count_append, List.count_cons, List.count_nil] at hcount ⊢
  omega

theorem Kept.held_ne (hk : Kept s h) (hid : id ∈ s.held) :
    (∀ e ∈ s.back, e.id.toUInt16 ≠ id) ∧ ∀ i ∈ s.phase.own, i ≠ id := by
  have hnd := hk.nodup
  rw [List.append_assoc, List.append_assoc, List.nodup_append, List.nodup_append] at hnd
  obtain ⟨-, ⟨-, -, hne⟩, -⟩ := hnd
  refine ⟨fun e he hc => ?_, fun i hi hc => ?_⟩
  · exact hne id hid id (List.mem_append_left _ (List.mem_map.mpr ⟨e, he, hc⟩)) rfl
  · exact hne id hid id (List.mem_append_right _ (hc ▸ hi)) rfl

theorem Kept.addr_held (hk : Kept s h) (hid : id ∈ s.held) :
    (s.queue.mem.desc id.toNat).addr = s.buf id :=
  hk.addr_of (List.mem_append_left _ (List.mem_append_right _ hid))

theorem Kept.write (hk : Kept s h) {ev : InputEvent} (hs : s.step (.write id ev) = some t) :
    Kept t h := by
  obtain ⟨hid, hs⟩ := (Option.ite_none_right_eq_some ..).mp hs
  obtain rfl := Option.some.inj hs
  obtain ⟨hback, hown⟩ := hk.held_ne hid
  refine ⟨hk.places, hk.addr, hk.safe, hk.setup, ?_, hk.out⟩
  have hmem (i : UInt16) (hi : i ≠ id) : Function.update s.mem (s.queue.mem.desc id.toNat).addr ev
      (s.buf i) = s.mem (s.buf i) := by
    rw [hk.addr_held hid]
    exact Function.update_of_ne (fun hc => hi (buf_inj hc)) ..
  refine hk.events.trans (congrArg _ (List.map_congr_left fun x hx => ?_))
  refine Prod.ext (hmem x.1 ?_).symm rfl
  rcases List.mem_append.mp hx with hx | hx
  · cases hp : s.phase with
    | told idx len =>
        rw [hp] at hx hown
        rw [List.mem_singleton.mp hx]
        exact hown idx (List.mem_singleton_self _)
    | setup | idle | read | panic =>
        rw [hp] at hx
        cases hx
  · obtain ⟨e, he, rfl⟩ := List.mem_map.mp hx
    exact hback e he

theorem Kept.complete (hk : Kept s h) {len : UInt32} (hs : s.step (.complete id len) = some t) :
    Kept t (note s (.complete id len) t h) := by
  obtain ⟨hid, hs⟩ := (Option.ite_none_right_eq_some ..).mp hs
  have ht := (Option.some.inj hs).symm
  have hroom : s.back.length < QSIZE := by
    have hlen := hk.places_length
    have hpos := List.length_pos_of_mem hid
    omega
  have hback : t.back = s.back ++ [⟨id.toUInt32, len⟩] := by
    rw [ht]
    exact pending_push hroom _
  have hoffered : t.offered = s.offered := by rw [ht]; rfl
  have hheld : t.held = s.held.erase id := by rw [ht]
  have hphase : t.phase = s.phase := by rw [ht]
  have hread (i : UInt16) : t.mem (t.buf i) = s.mem (s.buf i) := by rw [ht]; rfl
  refine ⟨?_, ?_, hphase ▸ hk.safe, hphase ▸ hk.setup, ?_, hphase ▸ hk.out⟩
  · rw [hoffered, hheld, hback, hphase]
    refine List.perm_iff_count.mpr fun x => ?_
    have hcount := List.perm_iff_count.mp hk.places x
    have herase := List.perm_iff_count.mp (List.perm_cons_erase hid) x
    simp only [List.map_append, List.map_cons, List.map_nil, List.count_append, List.count_cons,
      List.count_nil, UInt16.toUInt16_toUInt32] at hcount herase ⊢
    omega
  · rw [ht]
    exact hk.addr
  · have hflight : t.flight = s.flight ++ [(s.mem (s.buf id), len)] := by
      simp only [Input.flight, hphase, hback, hread, List.map_append, List.map_cons, List.map_nil,
        UInt16.toUInt16_toUInt32, List.append_assoc]
    change h.sent ++ [(s.mem (s.queue.mem.desc id.toNat).addr, len)] = h.got ++ t.flight
    rw [hflight, hk.addr_held hid, hk.events, List.append_assoc]

theorem Kept.step (hk : Kept s h) {a : InputAct} (hs : s.step a = some t) :
    Kept t (note s a t h) := by
  cases a with
  | post => exact hk.post hs
  | poll => exact hk.poll hs
  | fetch => exact hk.fetch hs
  | take => exact hk.take hs
  | write => exact hk.write hs
  | complete => exact hk.complete hs

end

/-! ### Runs -/

/-- The runs of a device that was just set up and its driver, with what was done. -/
abbrev Listening : Input × Log → Prop :=
  Noted Input.step note Input.Fresh ⟨[], [], []⟩ fun _ _ => True

/-- **Each event once, and in order**, whatever steps the device and the driver take between each
other's: what the driver has read is a first part of what the device gave, the rest is in at most 64
buffers, and `drain` returned what it is to return of it. When `drain` finds nothing, there is no
rest. No descriptor is out of range. -/
theorem events_in_order {x : Input × Log} (h : Listening x) :
    x.1.phase ≠ .panic ∧ (∃ rest, x.2.sent = x.2.got ++ rest ∧ rest.length ≤ QSIZE ∧
      (x.1.phase = .idle → x.1.queue.poll_used.1 = none → rest = [])) ∧
    x.2.out ++ returned x.1.phase.unsent = returned x.2.got := by
  have hk : Kept x.1 x.2 := by
    refine Noted.invariant (I := Kept) (fun s hs => .start hs) (fun s a t h hk _ hs => ?_) h
    exact hk.step hs
  refine ⟨hk.safe, ⟨x.1.flight, hk.events, ?_, fun hidle hnone => ?_⟩, hk.out⟩
  · have hlen := hk.places_length
    rw [Input.flight, List.length_map, List.length_append, List.length_map]
    have hown : x.1.phase.telling.length ≤ x.1.phase.own.length := by
      cases x.1.phase <;> simp [Phase.telling, Phase.own]
    omega
  · have hback : x.1.back = [] := by
      unfold VirtQueue.poll_used at hnone
      split_ifs at hnone with hidx
      rw [Input.back, hidx]
      exact pending_self
    rw [Input.flight, hback, hidle]
    rfl

/-- A keyboard whose buffers lie at 4096. -/
def keyboard : Input := ⟨.setup, fun _ => ⟨0, 0, 0⟩, 4096, .setup 0, 0, []⟩

/-- All buffers are posted, a key goes down, and `drain` returns the event. -/
theorem events_in_order_key : ∃ x : Input × Log, Listening x ∧ x.2.out = [⟨1, 30, 1⟩] ∧
    x.1.phase ≠ .panic := by
  have hstart : Listening (keyboard, ⟨[], [], []⟩) := Noted.start ⟨rfl, rfl, rfl, rfl⟩
  have hrun : (Runs.run (noted Input.step note) (fun _ _ => True) (List.replicate 64 .post ++
      [.take, .write 0 ⟨1, 30, 1⟩, .complete 0 8, .poll, .fetch, .post])
      (keyboard, ⟨[], [], []⟩)).any (fun x => decide (x.2.out = [⟨1, 30, 1⟩])) = true := by
    decide +kernel
  obtain ⟨x, hx, hout⟩ := hstart.run_any hrun
  exact ⟨x, hx, hout, (events_in_order hx).1⟩

end Pulsar.Virtio

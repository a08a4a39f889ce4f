import Pulsar.Kernel.Sockets

/-!
# The backlog of a listener (`unix.rs`)

A connection that is made waits in the backlog of its listener, which alone names its server's end.
`Visits` is a note of the connections made: which came to each listener, which were taken out of
the backlog, and how the wait of each ended.

* `Sockets.Unnamed`: an end that nothing but a backlog names stays so.
* `backlog_settled`: connections are taken in the order they came, and the wait of each ends at
  most once.
-/

namespace Pulsar.Kernel

open Runs

variable {V : Type} {k k' : K V} {env : Env V} {s t : Sockets V} {a : SockAct} {ex : List OpenFile}
  {c e i j : Nat}

-- states are compared by what closes files, never by counting up what is in transit
attribute [local irreducible] inTransit

/-! ### Names outside the backlogs -/

/-- No descriptor names `X`, and none that travels in a queue. -/
structure Sockets.Unnamed (s : Sockets V) (X : Obj) : Prop where
  rows : ∀ l < MAX_PROCS, countOf X (s.k.row l) = 0
  queues : ∀ c, countOf X (s.k.conns c).files = 0
  hand : countOf X s.hand = 0

/-- The connections that wait to be accepted. -/
def queued (k : K V) : List Nat := (List.range MAX_LISTEN).flatMap fun i => (k.listeners i).backlog

theorem count_backlog (b : List Nat) (c : Nat) :
    countOf (.unix c 1) (b.map (unixEnd · 1)) = b.count c := by
  induction b with
  | nil => rfl
  | cons d b ih =>
      rw [List.map_cons, countOf_cons, ih, unixEnd_obj d (by decide), List.count_cons]
      simp

/-- **A server's end that waits** has as many references as it waits in backlogs. -/
theorem Sockets.Unnamed.refs (h : s.Unnamed (.unix c 1)) (hb : Bal false s.k s.hand) :
    (s.k.conns c).refs 1 = (queued s.k).count c := by
  have hcount := hb.count (.unix c 1) trivial
  have hback : ∑ i ∈ Finset.range MAX_LISTEN, countOf (.unix c 1) (s.k.listeners i).files =
      (queued s.k).count c := by
    rw [queued, List.count_flatMap, ← sum_map_range]
    exact congrArg List.sum (List.map_congr_left fun i _ => count_backlog ..)
  have hrefs : s.k.refs (.unix c 1) = (s.k.conns c).refs 1 := rfl
  rw [hrefs, h.hand, K.held, hback,
    Finset.sum_eq_zero fun l hl => h.rows l (Finset.mem_range.mp hl),
    Finset.sum_eq_zero fun c _ => h.queues c] at hcount
  omega

/-- Nothing names the ends of a free slot. -/
theorem Bal.free_unnamed (hb : Bal false s.k s.hand) (hfree : (s.k.conns c).used = false) :
    s.Unnamed (.unix c 1) := by
  have hcount := hb.count (.unix c 1) trivial
  have hrefs : s.k.refs (.unix c 1) = 0 := by
    by_contra hne
    rw [hb.tidy.conn_used (Nat.pos_of_ne_zero hne)] at hfree
    cases hfree
  rw [hrefs, eq_comm, Nat.add_eq_zero_iff, K.held, Nat.add_eq_zero_iff, Nat.add_eq_zero_iff,
    Finset.sum_eq_zero_iff, Finset.sum_eq_zero_iff] at hcount
  obtain ⟨⟨⟨hrows, hqueues⟩, -⟩, hhand⟩ := hcount
  refine ⟨fun l hl => hrows l (Finset.mem_range.mpr hl), fun d => ?_, hhand⟩
  by_cases hd : (s.k.conns d).used = true
  · exact hqueues d (Finset.mem_range.mpr (hb.tidy.connLt d hd))
  · rw [hb.tidy.connFree d (by simpa using hd)]
    rfl

/-! ### What the operations do -/

theorem unixListen_spec {key : SockKey} {packet : Bool} :
    wp (unixListen key packet) (fun i k' => findListener k key = none ∧ i < MAX_LISTEN ∧
        (k.listeners i).used = false ∧ k' = k.setListener i ⟨true, 1, packet, key, []⟩)
      (fun _ k' => k' = k) k := by
  simp only [unixListen, wp_bind, wp_get, wp_ite, wp_throw]
  refine ⟨fun _ => trivial, fun hnone => wp_position (fun i hi hfree => ?_) rfl⟩
  exact ⟨by simpa using hnone, hi, by simpa using hfree, rfl⟩

theorem connNew_spec {packet : Bool} :
    wp (connNew packet) (fun c k' => (k.conns c).used = false ∧ k'.fds = k.fds ∧
        k'.listeners = k.listeners ∧ ∃ x : Conn, k'.conns = Function.update k.conns c x ∧
          x.files = [])
      (fun _ k' => k'.fds = k.fds ∧ k'.listeners = k.listeners ∧ k'.conns = k.conns) k := by
  simp only [connNew, wp_bind, wp_get]
  refine wp_position (fun c hc hfree => ?_) ⟨rfl, rfl, rfl⟩
  rw [wp_bind]
  refine wp_allocContig ?_ ⟨rfl, rfl, rfl⟩
  rw [wp_bind]
  refine wp_allocContig ?_ ⟨rfl, rfl, rfl⟩
  simp only [wp_bind, wp_modify, wp_pure]
  exact ⟨by simpa using hfree, rfl, rfl, _, rfl, rfl⟩

theorem unixConnect_spec {key : SockKey} {packet : Bool} :
    wp (unixConnect key packet) (fun c k' => ∃ i, findListener k key = some i ∧
        (k.listeners i).backlog.length ≠ BACKLOG ∧ (k.conns c).used = false ∧ k'.fds = k.fds ∧
        k'.listeners = (k.setListener i
          { k.listeners i with backlog := (k.listeners i).backlog ++ [c] }).listeners ∧
        ∃ x : Conn, k'.conns = Function.update k.conns c x ∧ x.files = [])
      (fun _ k' => k'.fds = k.fds ∧ k'.listeners = k.listeners ∧ k'.conns = k.conns) k := by
  simp only [unixConnect, wp_bind, wp_get]
  split
  · exact ⟨rfl, rfl, rfl⟩
  · rename_i i hi
    simp only [wp_ite, wp_bind, wp_throw]
    refine ⟨fun _ => ⟨trivial, trivial, trivial⟩, fun _ => ⟨fun _ => ⟨trivial, trivial, trivial⟩,
      fun hroom => wp_mono connNew_spec (fun c k' hc => ?_) fun _ _ h => h⟩⟩
    obtain ⟨hfree, hfds, hlist, x, hconns, hfiles⟩ := hc
    refine ⟨i, hi, hroom, hfree, ?_, ?_, x, ?_, hfiles⟩
    · rw [pushWake_fds]
      exact hfds
    · rw [pushWake_listeners]
      simp only [K.setListener, hlist]
    · rw [pushWake_conns]
      exact hconns

theorem unixAccept_spec {nonblock : Bool} :
    wp (unixAccept i nonblock) (fun c k' => ∃ cs, (k.listeners i).backlog = c :: cs ∧
        k' = k.setListener i { k.listeners i with backlog := cs })
      (fun _ k' => k'.fds = k.fds ∧ k'.listeners = k.listeners ∧ k'.conns = k.conns) k := by
  simp only [unixAccept, wp_bind, wp_get]
  split
  · simp only [wp_ite, wp_throw, wp_wouldBlock]
    exact ⟨fun _ => ⟨trivial, trivial, trivial⟩, fun _ => ⟨trivial, trivial, trivial⟩⟩
  · rename_i c cs hb
    exact ⟨cs, hb, rfl⟩

theorem unixRead_spec {len : Nat} {nonblock : Bool} :
    wp (unixRead c e len nonblock) (fun r k' => k'.fds = k.fds ∧ k'.listeners = k.listeners ∧
        ∃ q, k'.conns = (k.setQueue c e q).conns ∧
          ∀ X, countOf X q.files + countOf X r.files = countOf X ((k.conns c).q e).files)
      (fun _ k' => k'.fds = k.fds ∧ k'.listeners = k.listeners ∧ k'.conns = k.conns) k := by
  simp only [unixRead, wp_bind, wp_get, wp_set, wp_ite, wp_pure, wp_throw, wp_wouldBlock,
    pushWake_fds, pushWake_listeners, pushWake_conns]
  refine ⟨fun _ => ⟨fun _ => ⟨trivial, trivial, (k.conns c).q e, ?_, fun _ => rfl⟩,
    fun _ => ⟨fun _ => ⟨trivial, trivial, trivial⟩, fun _ => ⟨trivial, trivial, trivial⟩⟩⟩,
    fun _ => ⟨rfl, rfl, _, rfl, Queue.receive_files _ _ _⟩⟩
  simp only [K.setQueue, K.setConn, Function.update_eq_self]

theorem unixWrite_spec {src : Nat → UInt8} {len : Nat} {nonblock : Bool} {fs : List OpenFile} :
    wp (unixWrite c e src len nonblock fs) (fun _ k' => k'.fds = k.fds ∧
        k'.listeners = k.listeners ∧ ∃ q, k'.conns = (k.setQueue c (1 - e) q).conns ∧
          ∀ X, countOf X q.files = countOf X ((k.conns c).q (1 - e)).files + countOf X fs)
      (fun _ k' => k'.fds = k.fds ∧ k'.listeners = k.listeners ∧ k'.conns = k.conns) k := by
  simp only [unixWrite, wp_bind, wp_get, wp_set, wp_ite, wp_pure, wp_throw, wp_wouldBlock,
    pushWake_fds, pushWake_listeners, pushWake_conns]
  refine ⟨fun _ => ⟨trivial, trivial, trivial⟩, fun _ => ⟨fun _ => ⟨trivial, trivial, trivial⟩,
    fun _ => ⟨fun _ => ⟨fun _ => ⟨trivial, trivial, trivial⟩, fun _ => ⟨trivial, trivial, trivial⟩⟩,
    fun _ => ⟨fun _ => ⟨trivial, trivial, trivial⟩, fun _ => ⟨rfl, rfl, _, rfl, ?_⟩⟩⟩⟩⟩
  exact Queue.send_files _ _ _ _ _

/-! ### What an act leaves alone -/

/-- The listener, but for its references. -/
def Listener.face (x : Listener) : Listener := { x with refs := 0 }

/-- Listeners stay, or go away; connections go away; nothing comes. -/
structure Calm (k k' : K V) : Prop where
  listener : ∀ i, (k'.listeners i).face = (k.listeners i).face ∨ (k'.listeners i).face = LEMPTY
  used : ∀ c, (k'.conns c).used = true → (k.conns c).used = true

namespace Calm

variable {k'' : K V}

theorem trans (h : Calm k k') (h' : Calm k' k'') : Calm k k'' where
  listener := fun i => by
    rcases h'.listener i with h' | h'
    · rw [h']
      exact h.listener i
    · exact .inr h'
  used := fun c hc => h.used c (h'.used c hc)

theorem shrinks (h : Shrinks k k') : Calm k k' where
  listener := fun i => by
    rcases h.listener i with h | ⟨r, h, -⟩
    · exact .inr (by rw [h]; rfl)
    · exact .inl (by rw [h]; rfl)
  used := fun c hc => by
    rcases h.conn c with h | ⟨r, h, -⟩
    · rw [h] at hc
      cases hc
    · rwa [h] at hc

/-- Listeners stay as they are, and the slots of connections in use. -/
theorem same (hl : k'.listeners = k.listeners) (hc : ∀ c, (k'.conns c).used = (k.conns c).used) :
    Calm k k' :=
  ⟨fun i => .inl (by rw [hl]), fun c h => by rwa [hc] at h⟩

theorem setQueue (c e : Nat) (q : Queue) : Calm k (k.setQueue c e q) :=
  same rfl fun d => by
    by_cases hd : d = c
    · subst hd
      simp [K.setQueue, K.setConn]
    · simp [K.setQueue, K.setConn, Function.update_of_ne hd]

theorem addRef (f : OpenFile) (k : K V) : Calm k (addRef f k) := by
  obtain ⟨kind, i, flags, cloexec, off⟩ := f
  cases kind with
  | unix =>
      refine same rfl fun d => ?_
      by_cases hd : d = i / 2
      · subst hd
        simp [Kernel.addRef, K.setConn]
      · simp [Kernel.addRef, K.setConn, Function.update_of_ne hd]
  | listen =>
      refine ⟨fun j => .inl ?_, fun _ h => h⟩
      by_cases hj : j = i
      · subst hj
        simp [Kernel.addRef, K.setListener, Listener.face]
      · simp [Kernel.addRef, K.setListener, Function.update_of_ne hj]
  | shm =>
      refine same ?_ fun d => ?_ <;> simp only [Kernel.addRef, shmFdRef_one] <;> split <;> rfl
  | _ => exact same rfl fun _ => rfl

theorem addRefs (fs : List OpenFile) (k : K V) :
    Calm k (fs.foldl (fun k f => Kernel.addRef f k) k) := by
  induction fs generalizing k with
  | nil => exact same rfl fun _ => rfl
  | cons f fs ih => exact (addRef f k).trans (ih _)

theorem shutdown (c e how : Nat) (k : K V) : Calm k (unixShutdown c e how k) := by
  have stop : ∀ (k : K V) (d : Nat) (q : Queue) (key : Nat),
      Calm k (pushWake key (k.setQueue c d q)) := fun k d q key =>
    (setQueue c d q).trans (same (pushWake_listeners key) fun _ => by rw [pushWake_conns])
  unfold unixShutdown
  dsimp only
  split <;> split
  · exact (stop ..).trans (stop ..)
  · exact stop ..
  · exact stop ..
  · exact same rfl fun _ => rfl

end Calm

/-! ### A server's end that waits stays unnamed -/

namespace Sockets.Unnamed

variable {X : Obj}

/-- Queues change, and what is in hand. -/
theorem change (h : s.Unnamed X) (hf : k.fds = s.k.fds)
    (hq : ∀ c, countOf X (k.conns c).files = 0) (hh : countOf X ex = 0) :
    (⟨k, ex⟩ : Sockets V).Unnamed X :=
  ⟨fun l hl => by simpa only [K.row, hf] using h.rows l hl, hq, hh⟩

theorem shrinks (h : (⟨k, ex⟩ : Sockets V).Unnamed X) (hk : Shrinks k k') :
    (⟨k', ex⟩ : Sockets V).Unnamed X := by
  refine h.change hk.fds (fun c => ?_) h.hand
  rcases hk.conn c with hc | ⟨r, hc, -⟩
  · rw [hc]
    rfl
  · rw [hc]
    exact h.queues c

theorem not_mem (h : countOf X ex = 0) {f : OpenFile} (hf : f ∈ ex) : f.obj ≠ some X := by
  have := List.countP_eq_zero.mp h f hf
  simpa using this

theorem sublist {fs : List OpenFile} (h : countOf X ex = 0) (hs : ∀ f ∈ fs, f ∈ ex) :
    countOf X fs = 0 :=
  List.countP_eq_zero.mpr fun f hf => by simpa using not_mem h (hs f hf)

/-- A queue of a connection changes. -/
theorem setQueue {q : Queue} (h : ∀ d, countOf X (k.conns d).files = 0)
    (hq : countOf X q.files = 0) (d : Nat) : countOf X ((k.setQueue c e q).conns d).files = 0 := by
  by_cases hd : d = c
  · subst hd
    have hboth := h d
    simp only [Conn.files, countOf_append, Nat.add_eq_zero_iff] at hboth
    simp only [K.setQueue, K.setConn, Function.update_self, Conn.files, countOf_append,
      Function.update_apply]
    split <;> split <;> simp [hq, hboth]
  · simpa only [K.setQueue, K.setConn, Function.update_of_ne hd] using h d

theorem queue (h : ∀ d, countOf X (k.conns d).files = 0) (he : e < 2) :
    countOf X ((k.conns c).q e).files = 0 := by
  have hboth := h c
  simp only [Conn.files, countOf_append, Nat.add_eq_zero_iff] at hboth
  obtain rfl | rfl : e = 0 ∨ e = 1 := by omega
  · exact hboth.1
  · exact hboth.2

end Sockets.Unnamed

theorem addRef_files (f : OpenFile) (k : K V) (d : Nat) :
    ((addRef f k).conns d).files = (k.conns d).files := by
  obtain ⟨kind, i, flags, cloexec, off⟩ := f
  cases kind with
  | unix =>
      by_cases hd : d = i / 2
      · subst hd
        simp [addRef, K.setConn, Conn.files]
      · simp [addRef, K.setConn, Function.update_of_ne hd]
  | shm =>
      simp only [addRef, shmFdRef_one]
      split <;> rfl
  | _ => rfl

theorem addRefs_files (fs : List OpenFile) (k : K V) (d : Nat) :
    ((fs.foldl (fun k f => addRef f k) k).conns d).files = (k.conns d).files := by
  induction fs generalizing k with
  | nil => rfl
  | cons f fs ih => rw [List.foldl_cons, ih, addRef_files]

/-- The act may bring a descriptor of the server's end of connection `c`: an accept that takes it,
or a `socketpair` that makes it. -/
def SockAct.Names (s : Sockets V) (c : Nat) : SockAct → Prop
  | .accept i nonblock room => room = true ∧ ∃ k, unixAccept i nonblock s.k = .ok c k
  | .pair _ => (s.k.conns c).used = false
  | _ => False

section

open Sockets.Unnamed

theorem SockAct.unnamed_listen {key : SockKey} {packet : Bool} (h : s.Unnamed (.unix c 1)) :
    ((SockAct.listen key packet).after env s).Unnamed (.unix c 1) := by
  simp only [after]
  cases hx : unixListen key packet s.k with
  | ok i k =>
      obtain ⟨-, -, -, rfl⟩ := unixListen_spec.ok hx
      refine h.change rfl h.queues ?_
      rw [countOf_cons_of_ne (by simp [listenFile, OpenFile.obj])]
      exact h.hand
  | error x k =>
      obtain rfl := unixListen_spec.error hx
      exact h

/-- What `connect` brings is the client's end. -/
theorem SockAct.unnamed_connect {key : SockKey} {packet : Bool} (h : s.Unnamed (.unix c 1)) :
    ((SockAct.connect key packet).after env s).Unnamed (.unix c 1) := by
  simp only [after]
  cases hx : unixConnect key packet s.k with
  | ok d k =>
      obtain ⟨i, -, -, hfree, hfds, -, x, hconns, hfiles⟩ := unixConnect_spec.ok hx
      refine h.change hfds (fun d' => ?_) ?_
      · rw [hconns]
        by_cases hd : d' = d
        · subst hd
          rw [Function.update_self, hfiles]
          rfl
        · rw [Function.update_of_ne hd]
          exact h.queues d'
      · rw [countOf_cons_of_ne (by rw [unixEnd_obj d (by decide)]; simp)]
        exact h.hand
  | error x k =>
      obtain ⟨hfds, -, hconns⟩ := unixConnect_spec.error hx
      exact h.change hfds (fun d => by rw [hconns]; exact h.queues d) h.hand

/-- An `accept` that takes another connection, or that closes what it takes. -/
theorem SockAct.unnamed_accept {i : Nat} {nonblock room : Bool} (h : s.Unnamed (.unix c 1))
    (hne : ¬ (SockAct.accept i nonblock room).Names s c) :
    ((SockAct.accept i nonblock room).after env s).Unnamed (.unix c 1) := by
  simp only [after]
  cases hx : unixAccept i nonblock s.k with
  | ok d k =>
      obtain ⟨cs, -, rfl⟩ := unixAccept_spec.ok hx
      dsimp only
      split
      · rename_i hroom
        subst hroom
        refine h.change rfl h.queues ?_
        rw [countOf_cons_of_ne, h.hand]
        rw [unixEnd_obj d (by decide)]
        rintro hd
        cases hd
        exact hne ⟨rfl, _, hx⟩
      · exact shrinks (k := s.k.setListener i _) (h.change rfl h.queues h.hand)
          (Shrinks.dropRefs env _ _)
  | error x k =>
      obtain ⟨hfds, -, hconns⟩ := unixAccept_spec.error hx
      exact h.change hfds (fun d => by rw [hconns]; exact h.queues d) h.hand

theorem SockAct.unnamed_pair {packet : Bool} (h : s.Unnamed (.unix c 1))
    (hne : ¬ (SockAct.pair packet).Names s c) :
    ((SockAct.pair packet).after env s).Unnamed (.unix c 1) := by
  simp only [after]
  cases hx : connNew packet s.k with
  | ok d k =>
      obtain ⟨hfree, hfds, -, x, hconns, hfiles⟩ := connNew_spec.ok hx
      have hdc : d ≠ c := fun e => hne (e ▸ hfree)
      refine h.change hfds (fun d' => ?_) ?_
      · rw [hconns]
        by_cases hd : d' = d
        · subst hd
          rw [Function.update_self, hfiles]
          rfl
        · rw [Function.update_of_ne hd]
          exact h.queues d'
      · rw [countOf_cons_of_ne (by rw [unixEnd_obj d (by decide)]; simp),
          countOf_cons_of_ne (by rw [unixEnd_obj d (by decide)]; simp [hdc])]
        exact h.hand
  | error x k =>
      obtain ⟨hfds, -, hconns⟩ := connNew_spec.error hx
      exact h.change hfds (fun d => by rw [hconns]; exact h.queues d) h.hand

theorem SockAct.unnamed_send {d e len : Nat} {src : Nat → UInt8} {nonblock : Bool}
    {files : List OpenFile} (h : s.Unnamed (.unix c 1))
    (ha : (SockAct.send d e src len nonblock files).Able s) :
    ((SockAct.send d e src len nonblock files).after env s).Unnamed (.unix c 1) := by
  obtain ⟨-, hfiles⟩ := ha
  set k₁ := files.foldl (fun k f => addRef f k) s.k with hk₁
  have hadd : ∀ d, countOf (.unix c 1) (k₁.conns d).files = 0 := fun d => by
    rw [hk₁, addRefs_files]
    exact h.queues d
  have hcount := sublist h.hand hfiles
  have hfds : k₁.fds = s.k.fds := addRefs_fds files s.k
  simp only [after]
  cases hx : unixWrite d e src len nonblock files k₁ with
  | ok n k =>
      obtain ⟨hf, -, q, hconns, hq⟩ := unixWrite_spec.ok hx
      refine h.change (hf.trans hfds) (fun d' => ?_) h.hand
      rw [hconns]
      refine setQueue hadd ?_ d'
      rw [hq, queue hadd (by omega), hcount]
  | error x k =>
      obtain ⟨hf, -, hconns⟩ := unixWrite_spec.error hx
      refine shrinks (k := k) (h.change (hf.trans hfds) (fun d' => ?_) h.hand)
        (Shrinks.dropRefs env _ _)
      rw [hconns]
      exact hadd d'

/-- What is received was in a queue. -/
theorem SockAct.unnamed_recv {d e len room : Nat} {nonblock : Bool} (hb : Bal false s.k s.hand)
    (h : s.Unnamed (.unix c 1))
    (ha : (SockAct.recv d e len nonblock room).Able s) :
    ((SockAct.recv d e len nonblock room).after env s).Unnamed (.unix c 1) := by
  obtain ⟨f, hf, hX⟩ := ha
  simp only [after]
  cases hx : unixRead d e len nonblock s.k with
  | ok r k =>
      obtain ⟨hf', -, q, hconns, hq⟩ := unixRead_spec.ok hx
      have hsplit := hq (.unix c 1)
      rw [queue h.queues (hb.end_used hf hX).2, Nat.add_eq_zero_iff] at hsplit
      refine shrinks (k := k) (h.change hf' (fun d' => ?_) ?_) (Shrinks.dropRefs env _ _)
      · rw [hconns]
        exact setQueue h.queues hsplit.1 d'
      · rw [countOf_append, h.hand, Nat.add_zero]
        exact sublist hsplit.2 fun g hg => List.mem_of_mem_take hg
  | error x k =>
      obtain ⟨hf', -, hconns⟩ := unixRead_spec.error hx
      exact h.change hf' (fun d' => by rw [hconns]; exact h.queues d') h.hand

theorem SockAct.unnamed_shutdown {d e how : Nat} (hb : Bal false s.k s.hand)
    (h : s.Unnamed (.unix c 1))
    (ha : (SockAct.shutdown d e how).Able s) :
    ((SockAct.shutdown d e how).after env s).Unnamed (.unix c 1) := by
  obtain ⟨f, hf, hX⟩ := ha
  have he := (hb.end_used hf hX).2
  have stop : ∀ (k : K V) (d e key : Nat), (∀ d, countOf (.unix c 1) (k.conns d).files = 0) →
      e < 2 → ∀ d', countOf (.unix c 1) ((pushWake key
        (k.setQueue d e { (k.conns d).q e with eof := true })).conns d').files = 0 :=
    fun k d e key hk he d' => by
      rw [pushWake_conns]
      have hq : countOf (.unix c 1) ((k.conns d).q e).files = 0 := queue hk he
      exact setQueue (q := { (k.conns d).q e with eof := true }) hk hq d'
  refine h.change ?_ ?_ h.hand
  · exact unixShutdown_fds d e how s.k
  · unfold unixShutdown
    dsimp only
    split <;> split
    · exact stop _ _ _ _ (stop _ _ _ _ h.queues (by omega)) he
    · exact stop _ _ _ _ h.queues he
    · exact stop _ _ _ _ h.queues (by omega)
    · exact h.queues

/-- **Nothing else names** the server's end of a connection. -/
theorem SockAct.unnamed (hb : Bal false s.k s.hand) (ha : a.Able s) (h : s.Unnamed (.unix c 1))
    (hne : ¬ a.Names s c) : (a.after env s).Unnamed (.unix c 1) := by
  cases a with
  | listen key packet =>
      exact unnamed_listen h
  | connect key packet =>
      exact unnamed_connect h
  | accept i nonblock room =>
      exact unnamed_accept h hne
  | pair packet =>
      exact unnamed_pair h hne
  | dup f =>
      refine h.change (addRef_fds f s.k) (fun d => ?_) ?_
      · rw [addRef_files]
        exact h.queues d
      · rw [countOf_cons_of_ne (not_mem h.hand ha)]
        exact h.hand
  | close f =>
      refine shrinks (k := s.k) (h.change rfl h.queues ?_) (Shrinks.dropRefs env _ _)
      exact sublist h.hand fun g hg => List.mem_of_mem_erase hg
  | send d e src len nonblock files =>
      exact unnamed_send h ha
  | recv d e len nonblock room =>
      exact unnamed_recv hb h ha
  | shutdown d e how =>
      exact unnamed_shutdown hb h ha

end

/-! ### The note -/

/-- How the wait of a connection ends: an accept returns it, an accept that has no descriptor for
it closes the server's end, or its listener goes away and closes it. -/
inductive End where
  | accepted | refused | closed
  deriving DecidableEq

/-- The connections that came to a listener, and those that left its backlog by an accept. -/
structure Door where
  came : List Nat
  left : List Nat

/-- How many connections were made; which of them is in each slot; those that came to a listener;
the door of each listener; and how the wait of each connection ended. -/
structure Visits where
  made : Nat
  name : Nat → Nat
  visited : List Nat
  door : Nat → Door
  ends : Nat → List End

namespace Visits

def none : Visits := ⟨0, fun _ => 0, [], fun _ => ⟨[], []⟩, fun _ => []⟩

/-- A connection is made in slot `c`. -/
def makes (H : Visits) (c : Nat) : Visits :=
  { H with made := H.made + 1, name := Function.update H.name c H.made }

/-- The connection made in slot `c` comes to listener `i`. -/
def comes (H : Visits) (c i : Nat) : Visits :=
  { H.makes c with
    visited := H.visited ++ [H.made]
    door := Function.update H.door i { H.door i with came := (H.door i).came ++ [H.made] } }

/-- The connection of slot `c` leaves the backlog of listener `i`. -/
def leaves (H : Visits) (c i : Nat) (x : End) : Visits :=
  { H with
    door := Function.update H.door i { H.door i with left := (H.door i).left ++ [H.name c] }
    ends := Function.update H.ends (H.name c) (H.ends (H.name c) ++ [x]) }

/-- The connections that wait for the listeners `is`. -/
def waits (H : Visits) (k : K V) (is : List Nat) : List Nat :=
  (is.flatMap fun i => (k.listeners i).backlog).map H.name

/-- The listeners `is` go away. -/
def closes (H : Visits) (k : K V) (is : List Nat) : Visits :=
  { H with
    door := fun i => if i ∈ is then ⟨[], []⟩ else H.door i
    ends := fun v => H.ends v ++ List.replicate ((H.waits k is).count v) .closed }

end Visits

/-- The listeners that are there no more. -/
def gone (k k' : K V) : List Nat :=
  (List.range MAX_LISTEN).filter fun i => (k.listeners i).used && !(k'.listeners i).used

/-- The note after an act. -/
def Visits.note (s : Sockets V) (a : SockAct) (t : Sockets V) (H : Visits) : Visits :=
  match a with
  | .listen key packet =>
    match unixListen key packet s.k with
    | .ok i _ => { H with door := Function.update H.door i ⟨[], []⟩ }
    | .error .. => H
  | .connect key packet =>
    match unixConnect key packet s.k, findListener s.k key with
    | .ok c _, some i => H.comes c i
    | _, _ => H
  | .accept i nonblock room =>
    match unixAccept i nonblock s.k with
    | .ok c k =>
      if room then H.leaves c i .accepted else (H.leaves c i .refused).closes k (gone k t.k)
    | .error .. => H
  | .pair packet =>
    match connNew packet s.k with
    | .ok c _ => H.makes c
    | .error .. => H
  | _ => H.closes s.k (gone s.k t.k)

/-- What holds of the sockets and the note. -/
structure Settled (s : Sockets V) (H : Visits) : Prop where
  bal : Bal false s.k s.hand
  bound : ∀ i, (s.k.listeners i).backlog.length ≤ BACKLOG
  once : (queued s.k).Nodup
  unnamed : ∀ c ∈ queued s.k, s.Unnamed (.unix c 1)
  keys : ∀ i j, (s.k.listeners i).used = true → (s.k.listeners j).used = true →
    (s.k.listeners i).key = (s.k.listeners j).key → i = j
  fifo : ∀ i, (H.door i).came = (H.door i).left ++ (s.k.listeners i).backlog.map H.name
  known : ∀ c, (s.k.conns c).used = true → H.name c < H.made
  apart : ∀ c d, (s.k.conns c).used = true → (s.k.conns d).used = true →
    H.name c = H.name d → c = d
  visited : ∀ v ∈ H.visited, v < H.made
  others : ∀ v, v ∉ H.visited → H.ends v = []
  waiting : ∀ c ∈ queued s.k, H.name c ∈ H.visited ∧ H.ends (H.name c) = []
  fates : ∀ v ∈ H.visited, (H.ends v = [] ∧ ∃ c ∈ queued s.k, H.name c = v) ∨
    ∃ x, H.ends v = [x] ∧ (x ≠ .accepted → ∀ c, (s.k.conns c).used = true → H.name c = v →
      s.Unnamed (.unix c 1) ∧ c ∉ queued s.k)

/-! ### Backlogs -/

theorem mem_queued (ht : Tidy k) : c ∈ queued k ↔ ∃ i, c ∈ (k.listeners i).backlog := by
  rw [queued, List.mem_flatMap]
  constructor
  · rintro ⟨i, -, hc⟩
    exact ⟨i, hc⟩
  · rintro ⟨i, hc⟩
    refine ⟨i, List.mem_range.mpr (ht.listenLt i ?_), hc⟩
    by_contra hn
    rw [ht.listenFree i (by simpa using hn)] at hc
    cases hc

/-- A connection waits for one listener. -/
theorem queued_one (ht : Tidy k) (hone : (queued k).Nodup) (hi : c ∈ (k.listeners i).backlog)
    (hj : c ∈ (k.listeners j).backlog) : i = j := by
  have hlt : ∀ i, c ∈ (k.listeners i).backlog → i ∈ List.range MAX_LISTEN := fun i hc => by
    refine List.mem_range.mpr (ht.listenLt i ?_)
    by_contra hn
    rw [ht.listenFree i (by simpa using hn)] at hc
    cases hc
  by_contra hij
  have hsymm : Std.Symm (Function.onFun List.Disjoint fun i => (k.listeners i).backlog) :=
    ⟨fun _ _ h => h.symm⟩
  exact (List.nodup_flatMap.mp hone).2.forall (hlt i hi) (hlt j hj) hij hi hj

theorem backlog_nodup (ht : Tidy k) (hone : (queued k).Nodup) (i : Nat) :
    (k.listeners i).backlog.Nodup := by
  by_cases hu : (k.listeners i).used = true
  · exact (List.nodup_flatMap.mp hone).1 i (List.mem_range.mpr (ht.listenLt i hu))
  · rw [ht.listenFree i (by simpa using hu)]
    exact .nil

theorem queued_nodup (hone : ∀ i, (k.listeners i).backlog.Nodup)
    (hapart : ∀ i j c, c ∈ (k.listeners i).backlog → c ∈ (k.listeners j).backlog → i = j) :
    (queued k).Nodup := by
  refine List.nodup_flatMap.mpr ⟨fun i _ => hone i, List.nodup_range.imp fun hij c hi hj => ?_⟩
  exact hij (hapart _ _ c hi hj)

theorem mem_gone (ht : Tidy k) : i ∈ gone k k' ↔
    (k.listeners i).used = true ∧ (k'.listeners i).used = false := by
  rw [gone, List.mem_filter, List.mem_range, Bool.and_eq_true, Bool.not_eq_true']
  exact ⟨And.right, fun h => ⟨ht.listenLt i h.1, h⟩⟩

theorem Calm.backlog (h : Calm k k') (ht : Tidy k) (i : Nat) :
    (k'.listeners i).backlog = if i ∈ gone k k' then [] else (k.listeners i).backlog := by
  rcases h.listener i with hi | hi
  · have hu : (k'.listeners i).used = (k.listeners i).used := (congrArg Listener.used hi :)
    rw [if_neg]
    · exact (congrArg Listener.backlog hi :)
    · rw [mem_gone ht, hu]
      rintro ⟨h₁, h₂⟩
      rw [h₁] at h₂
      cases h₂
  · have hb : (k'.listeners i).backlog = [] := (congrArg Listener.backlog hi :)
    have hu : (k'.listeners i).used = false := (congrArg Listener.used hi :)
    rw [hb]
    split
    · rfl
    · rename_i hn
      refine (ht.listenFree i ?_).symm
      by_contra hused
      exact hn ((mem_gone ht).mpr ⟨by simpa using hused, hu⟩)

/-- A listener that is still there has the key it had. -/
theorem Calm.kept (h : Calm k k') (hu : (k'.listeners i).used = true) :
    (k.listeners i).used = true ∧ (k'.listeners i).key = (k.listeners i).key := by
  rcases h.listener i with hi | hi
  · have hused : (k'.listeners i).used = (k.listeners i).used := (congrArg Listener.used hi :)
    exact ⟨hused ▸ hu, (congrArg Listener.key hi :)⟩
  · have hused : (k'.listeners i).used = false := (congrArg Listener.used hi :)
    rw [hu] at hused
    cases hused

theorem Calm.queued (h : Calm k k') (ht : Tidy k) : (queued k').Sublist (queued k) := by
  refine List.Sublist.flatMap_right _ fun i _ => ?_
  rw [h.backlog ht]
  split
  · exact List.nil_sublist _
  · exact .refl _

namespace Settled

variable {H : Visits}

theorem queued_used (h : Settled s H) (hc : c ∈ queued s.k) : (s.k.conns c).used = true := by
  refine h.bal.tidy.conn_used (e := 1) ?_
  show 0 < (s.k.conns c).refs 1
  rw [(h.unnamed c hc).refs h.bal]
  exact List.count_pos_iff.mpr hc

/-- The connections that wait for some listeners are apart. -/
theorem waits_nodup (h : Settled s H) {is : List Nat} (his : is.Sublist (List.range MAX_LISTEN)) :
    (H.waits s.k is).Nodup := by
  have hsub : (is.flatMap fun i => (s.k.listeners i).backlog).Sublist (queued s.k) :=
    his.flatMap _
  refine (h.once.sublist hsub).map_on fun c hc d hd he => ?_
  exact h.apart c d (h.queued_used (hsub.subset hc)) (h.queued_used (hsub.subset hd)) he

/-- Listeners go away, and connections. -/
theorem quiet (h : Settled s H) (hc : Calm s.k t.k) (hb : Bal false t.k t.hand)
    (hu : ∀ c, (s.k.conns c).used = true → s.Unnamed (.unix c 1) → t.Unnamed (.unix c 1)) :
    Settled t (H.closes s.k (gone s.k t.k)) := by
  have ht := h.bal.tidy
  have hsub := hc.queued ht
  have hback : ∀ c ∈ queued s.k, c ∉ queued t.k ↔
      c ∈ (gone s.k t.k).flatMap fun i => (s.k.listeners i).backlog := fun c hcq => by
    obtain ⟨i, hi⟩ := (mem_queued ht).mp hcq
    rw [mem_queued hb.tidy, List.mem_flatMap]
    constructor
    · intro hno
      refine ⟨i, ?_, hi⟩
      by_contra hn
      exact hno ⟨i, by rwa [hc.backlog ht, if_neg hn]⟩
    · rintro ⟨j, hj, hcj⟩ ⟨l, hl⟩
      rw [hc.backlog ht] at hl
      split at hl
      · cases hl
      · rename_i hn
        exact hn (queued_one ht h.once hl hcj ▸ hj)
  have hstill : ∀ c ∈ queued t.k, H.name c ∉ H.waits s.k (gone s.k t.k) := fun c hcq hv => by
    obtain ⟨d, hd, he⟩ := List.mem_map.mp hv
    obtain ⟨i, -, hi⟩ := List.mem_flatMap.mp hd
    have hdq := (mem_queued ht).mpr ⟨i, hi⟩
    have hdc := h.apart d c (h.queued_used hdq) (h.queued_used (hsub.subset hcq)) he
    exact (hback d hdq).mpr hd (hdc ▸ hcq)
  have hends : ∀ v, v ∉ H.waits s.k (gone s.k t.k) →
      (H.closes s.k (gone s.k t.k)).ends v = H.ends v := fun v hv => by
    show H.ends v ++ _ = _
    rw [List.count_eq_zero.mpr hv, List.replicate_zero, List.append_nil]
  refine ⟨hb, fun i => ?_, h.once.sublist hsub, fun c hcq => ?_, fun i j hi hj he => ?_,
    fun i => ?_, fun c hcu => h.known c (hc.used c hcu), fun c d hcu hdu => ?_, h.visited,
    fun v hv => ?_, fun c hcq => ?_, fun v hv => ?_⟩
  · rw [hc.backlog ht]
    split
    · exact Nat.zero_le _
    · exact h.bound i
  · exact hu c (h.queued_used (hsub.subset hcq)) (h.unnamed c (hsub.subset hcq))
  · obtain ⟨hui, hki⟩ := hc.kept hi
    obtain ⟨huj, hkj⟩ := hc.kept hj
    exact h.keys i j hui huj (by rw [← hki, ← hkj, he])
  · rw [hc.backlog ht]
    simp only [Visits.closes]
    split
    · rfl
    · exact h.fifo i
  · exact h.apart c d (hc.used c hcu) (hc.used d hdu)
  · rw [hends v fun hw => ?_]
    · exact h.others v hv
    · obtain ⟨d, hd, rfl⟩ := List.mem_map.mp hw
      obtain ⟨i, -, hi⟩ := List.mem_flatMap.mp hd
      exact hv (h.waiting d ((mem_queued ht).mpr ⟨i, hi⟩)).1
  · obtain ⟨hvis, hnone⟩ := h.waiting c (hsub.subset hcq)
    exact ⟨hvis, (hends _ (hstill c hcq)).trans hnone⟩
  · rcases h.fates v hv with ⟨hnone, c, hcq, rfl⟩ | ⟨x, hx, hclosed⟩
    · by_cases hct : c ∈ queued t.k
      · exact .inl ⟨(hends _ (hstill c hct)).trans hnone, c, hct, rfl⟩
      · refine .inr ⟨.closed, ?_, fun _ d hd he => ?_⟩
        · have hmem : H.name c ∈ H.waits s.k (gone s.k t.k) :=
            List.mem_map_of_mem ((hback c hcq).mp hct)
          have hcount : (H.waits s.k (gone s.k t.k)).count (H.name c) = 1 :=
            List.count_eq_one_of_mem (h.waits_nodup List.filter_sublist) hmem
          simp only [Visits.closes, hnone, hcount, List.replicate_one, List.nil_append]
        · obtain rfl := h.apart d c (hc.used d hd) (h.queued_used hcq) he
          exact ⟨hu d (hc.used d hd) (h.unnamed d hcq), hct⟩
    · refine .inr ⟨x, ?_, fun hne c hcu he => ?_⟩
      · rw [hends v fun hw => ?_]
        · exact hx
        · obtain ⟨d, hd, rfl⟩ := List.mem_map.mp hw
          obtain ⟨i, -, hi⟩ := List.mem_flatMap.mp hd
          rw [(h.waiting d ((mem_queued ht).mpr ⟨i, hi⟩)).2] at hx
          cases hx
      · obtain ⟨hun, hnq⟩ := hclosed hne c (hc.used c hcu) he
        exact ⟨hu c (hc.used c hcu) hun, fun hq => hnq (hsub.subset hq)⟩

/-- Nothing happens to listeners, and no connection comes. -/
theorem stay (h : Settled s H) (hl : t.k.listeners = s.k.listeners)
    (hc : ∀ c, (t.k.conns c).used = true → (s.k.conns c).used = true)
    (hb : Bal false t.k t.hand)
    (hu : ∀ c, (s.k.conns c).used = true → s.Unnamed (.unix c 1) → t.Unnamed (.unix c 1)) :
    Settled t H := by
  have hq : queued t.k = queued s.k := by rw [queued, queued, hl]
  refine ⟨hb, by rw [hl]; exact h.bound, hq ▸ h.once, fun c hcq => ?_, by rw [hl]; exact h.keys,
    by rw [hl]; exact h.fifo, fun c hcu => h.known c (hc c hcu),
    fun c d hcu hdu => h.apart c d (hc c hcu) (hc d hdu), h.visited, h.others, hq ▸ h.waiting,
    fun v hv => ?_⟩
  · rw [hq] at hcq
    exact hu c (h.queued_used hcq) (h.unnamed c hcq)
  · refine (h.fates v hv).imp (hq ▸ id) ?_
    rintro ⟨x, hx, hclosed⟩
    refine ⟨x, hx, fun hne c hcu he => ?_⟩
    obtain ⟨hun, hnq⟩ := hclosed hne c (hc c hcu) he
    exact ⟨hu c (hc c hcu) hun, hq ▸ hnq⟩

section

variable (hfree : (s.k.conns c).used = false)
  (hc : ∀ d, d ≠ c → (t.k.conns d).used = true → (s.k.conns d).used = true)
include hfree

theorem makes_of_used {d : Nat} (hd : (s.k.conns d).used = true) :
    (H.makes c).name d = H.name d := by
  refine Function.update_of_ne (fun e => ?_) ..
  rw [e, hfree] at hd
  cases hd

theorem makes_backlog (h : Settled s H) (i : Nat) : (s.k.listeners i).backlog.map (H.makes c).name =
    (s.k.listeners i).backlog.map H.name :=
  List.map_congr_left fun _ hd =>
    makes_of_used hfree (h.queued_used ((mem_queued h.bal.tidy).mpr ⟨i, hd⟩))

include hc

/-- The connection made has a name of its own. -/
theorem makes_known {d : Nat} (hd : (t.k.conns d).used = true) :
    (d = c ∧ (H.makes c).name d = H.made) ∨
      (s.k.conns d).used = true ∧ (H.makes c).name d = H.name d := by
  by_cases hdc : d = c
  · exact .inl ⟨hdc, hdc ▸ Function.update_self ..⟩
  · exact .inr ⟨hc d hdc hd, makes_of_used hfree (hc d hdc hd)⟩

theorem makes_lt (h : Settled s H) {d : Nat} (hd : (t.k.conns d).used = true) :
    (H.makes c).name d < H.made + 1 := by
  rcases makes_known (H := H) hfree hc hd with ⟨-, hn⟩ | ⟨hu, hn⟩
  · rw [hn]
    exact Nat.lt_succ_self _
  · rw [hn]
    exact Nat.lt_succ_of_lt (h.known d hu)

theorem makes_apart (h : Settled s H) {d d' : Nat} (hd : (t.k.conns d).used = true)
    (hd' : (t.k.conns d').used = true) (he : (H.makes c).name d = (H.makes c).name d') :
    d = d' := by
  rcases makes_known (H := H) hfree hc hd with ⟨rfl, hn⟩ | ⟨hu, hn⟩ <;>
    rcases makes_known (H := H) hfree hc hd' with ⟨hdc, hn'⟩ | ⟨hu', hn'⟩ <;> rw [hn, hn'] at he
  · exact hdc.symm
  · exact absurd (h.known d' hu') (he ▸ Nat.lt_irrefl _)
  · exact absurd (h.known d hu) (he ▸ Nat.lt_irrefl _)
  · exact h.apart d d' hu hu' he

end

/-- A connection is made in a free slot. -/
theorem makes (h : Settled s H) (hl : t.k.listeners = s.k.listeners)
    (hfree : (s.k.conns c).used = false)
    (hc : ∀ d, d ≠ c → (t.k.conns d).used = true → (s.k.conns d).used = true)
    (hb : Bal false t.k t.hand)
    (hu : ∀ c, (s.k.conns c).used = true → s.Unnamed (.unix c 1) → t.Unnamed (.unix c 1)) :
    Settled t (H.makes c) := by
  have hq : queued t.k = queued s.k := by rw [queued, queued, hl]
  refine ⟨hb, by rw [hl]; exact h.bound, hq ▸ h.once, fun c hcq => ?_, by rw [hl]; exact h.keys,
    fun i => ?_, fun d => makes_lt hfree hc h, fun d d' => makes_apart hfree hc h, fun v hv => ?_,
    h.others, fun d hd => ?_, fun v hv => ?_⟩
  · rw [hq] at hcq
    exact hu c (h.queued_used hcq) (h.unnamed c hcq)
  · rw [hl, makes_backlog hfree h]
    exact h.fifo i
  · exact Nat.lt_succ_of_lt (h.visited v hv)
  · rw [hq] at hd
    rw [makes_of_used hfree (h.queued_used hd)]
    exact h.waiting d hd
  · rcases h.fates v hv with ⟨hnone, d, hd, rfl⟩ | ⟨x, hx, hclosed⟩
    · exact .inl ⟨hnone, d, hq ▸ hd, makes_of_used hfree (h.queued_used hd)⟩
    · refine .inr ⟨x, hx, fun hne d hd he => ?_⟩
      rcases makes_known (H := H) hfree hc hd with ⟨-, hn⟩ | ⟨hdu, hn⟩ <;> rw [hn] at he
      · exact absurd (h.visited v hv) (he ▸ Nat.lt_irrefl _)
      · obtain ⟨hun, hnq⟩ := hclosed hne d hdu he
        exact ⟨hu d hdu hun, hq ▸ hnq⟩

/-- A listener is made in a free slot. -/
theorem listens (h : Settled s H) {key : SockKey} {packet : Bool}
    (hfree : (s.k.listeners i).used = false) (hkey : findListener s.k key = none)
    (ht : t.k = s.k.setListener i ⟨true, 1, packet, key, []⟩)
    (hb : Bal false t.k t.hand)
    (hu : ∀ c, (s.k.conns c).used = true → s.Unnamed (.unix c 1) → t.Unnamed (.unix c 1)) :
    Settled t { H with door := Function.update H.door i ⟨[], []⟩ } := by
  have hback : ∀ j, (t.k.listeners j).backlog = (s.k.listeners j).backlog := fun j => by
    rw [ht]
    by_cases hj : j = i
    · subst hj
      simp only [K.setListener, Function.update_self, h.bal.tidy.listenFree j hfree]
    · simp only [K.setListener, Function.update_of_ne hj]
  have hq : queued t.k = queued s.k := by simp only [queued, hback]
  have hconns : t.k.conns = s.k.conns := by rw [ht]; rfl
  have hnone : ∀ j, (s.k.listeners j).used = true → (s.k.listeners j).key ≠ key := fun j hj he => by
    rw [findListener, List.find?_eq_none] at hkey
    have hno := hkey j (List.mem_range.mpr (h.bal.tidy.listenLt j hj))
    simp [hj, he] at hno
  refine ⟨hb, fun j => ?_, hq ▸ h.once, fun c hcq => ?_, fun j j' hj hj' he => ?_, fun j => ?_,
    by rw [hconns]; exact h.known, by rw [hconns]; exact h.apart, h.visited, h.others,
    hq ▸ h.waiting, fun v hv => ?_⟩
  · rw [hback]
    exact h.bound j
  · rw [hq] at hcq
    exact hu c (h.queued_used hcq) (h.unnamed c hcq)
  · rw [ht] at hj hj' he
    simp only [K.setListener, Function.update_apply] at hj hj' he
    split at hj <;> split at hj' <;> rename_i h₁ h₂
    · rw [h₁, h₂]
    · rw [if_pos h₁, if_neg h₂] at he
      exact absurd he.symm (hnone j' hj')
    · rw [if_neg h₁, if_pos h₂] at he
      exact absurd he (hnone j hj)
    · rw [if_neg h₁, if_neg h₂] at he
      exact h.keys j j' hj hj' he
  · rw [hback]
    by_cases hj : j = i
    · subst hj
      simp only [Function.update_self, h.bal.tidy.listenFree j hfree]
      rfl
    · simp only [Function.update_of_ne hj]
      exact h.fifo j
  · refine (h.fates v hv).imp (hq ▸ id) ?_
    rintro ⟨x, hx, hclosed⟩
    refine ⟨x, hx, fun hne c hcu he => ?_⟩
    rw [hconns] at hcu
    obtain ⟨hun, hnq⟩ := hclosed hne c hcu he
    exact ⟨hu c hcu hun, hq ▸ hnq⟩

/-- A listener keeps its name when its backlog changes. -/
theorem keys_setBacklog (h : Settled s H) {b : List Nat} {j j' : Nat}
    (hl : t.k.listeners =
      (s.k.setListener i { s.k.listeners i with backlog := b }).listeners)
    (hj : (t.k.listeners j).used = true) (hj' : (t.k.listeners j').used = true)
    (he : (t.k.listeners j).key = (t.k.listeners j').key) : j = j' := by
  have hface : ∀ j, (t.k.listeners j).used = (s.k.listeners j).used ∧
      (t.k.listeners j).key = (s.k.listeners j).key := fun j => by
    by_cases hj : j = i
    · rw [hl, hj, setListener_self]
      exact ⟨rfl, rfl⟩
    · rw [hl, setListener_of_ne hj]
      exact ⟨rfl, rfl⟩
  rw [(hface _).1] at hj hj'
  rw [(hface _).2, (hface _).2] at he
  exact h.keys j j' hj hj' he

/-- A connection comes to a listener. -/
theorem comes (h : Settled s H) (hfree : (s.k.conns c).used = false)
    (hi : (s.k.listeners i).used = true) (hroom : (s.k.listeners i).backlog.length ≠ BACKLOG)
    (hl : t.k.listeners = (s.k.setListener i
      { s.k.listeners i with backlog := (s.k.listeners i).backlog ++ [c] }).listeners)
    (hc : ∀ d, d ≠ c → (t.k.conns d).used = true → (s.k.conns d).used = true)
    (hb : Bal false t.k t.hand) (hnew : t.Unnamed (.unix c 1))
    (hu : ∀ c, (s.k.conns c).used = true → s.Unnamed (.unix c 1) → t.Unnamed (.unix c 1)) :
    Settled t (H.comes c i) := by
  have hself : t.k.listeners i =
      { s.k.listeners i with backlog := (s.k.listeners i).backlog ++ [c] } := by
    rw [hl, setListener_self]
  have hother : ∀ j, j ≠ i → t.k.listeners j = s.k.listeners j := fun j hj => by
    rw [hl, setListener_of_ne hj]
  have hname : (H.makes c).name c = H.made := Function.update_self ..
  have hcq : c ∉ queued s.k := fun hcq => by
    have := h.queued_used hcq
    rw [hfree] at this
    cases this
  have hback : ∀ j d, d ∈ (t.k.listeners j).backlog ↔
      d ∈ (s.k.listeners j).backlog ∨ d = c ∧ j = i := fun j d => by
    by_cases hj : j = i
    · subst hj
      simp [hself]
    · simp [hother j hj, hj]
  have hq : ∀ d, d ∈ queued t.k ↔ d ∈ queued s.k ∨ d = c := fun d => by
    simp only [mem_queued hb.tidy, mem_queued h.bal.tidy, hback]
    constructor
    · rintro ⟨j, hd | ⟨hd, -⟩⟩
      · exact .inl ⟨j, hd⟩
      · exact .inr hd
    · rintro (⟨j, hd⟩ | hd)
      · exact ⟨j, .inl hd⟩
      · exact ⟨i, .inr ⟨hd, rfl⟩⟩
  have hnot : ∀ j, c ∉ (s.k.listeners j).backlog := fun j hj =>
    hcq ((mem_queued h.bal.tidy).mpr ⟨j, hj⟩)
  refine ⟨hb, fun j => ?_, queued_nodup (fun j => ?_) (fun j j' d hd hd' => ?_), fun d hd => ?_,
    fun j j' hj hj' he => ?_, fun j => ?_, fun d => makes_lt hfree hc h,
    fun d d' => makes_apart hfree hc h, fun v hv => ?_, fun v hv => ?_, fun d hd => ?_,
    fun v hv => ?_⟩
  · by_cases hj : j = i
    · rw [hj, hself, List.length_append, List.length_singleton]
      have := h.bound i
      omega
    · rw [hother j hj]
      exact h.bound j
  · by_cases hj : j = i
    · rw [hj, hself]
      show ((s.k.listeners i).backlog ++ [c]).Nodup
      rw [← List.concat_eq_append]
      exact (backlog_nodup h.bal.tidy h.once i).concat (hnot i)
    · rw [hother j hj]
      exact backlog_nodup h.bal.tidy h.once j
  · rcases (hback j d).mp hd with hd | ⟨rfl, rfl⟩ <;>
      rcases (hback j' d).mp hd' with hd' | ⟨hdc, hji⟩
    · exact queued_one h.bal.tidy h.once hd hd'
    · exact absurd (hdc ▸ hd) (hnot j)
    · exact absurd hd' (hnot j')
    · exact hji.symm
  · rcases (hq d).mp hd with hd | rfl
    · exact hu d (h.queued_used hd) (h.unnamed d hd)
    · exact hnew
  · exact h.keys_setBacklog hl hj hj' he
  · simp only [Visits.comes]
    by_cases hj : j = i
    · subst hj
      rw [hself, Function.update_self, List.map_append, makes_backlog hfree h, List.map_singleton,
        hname, ← List.append_assoc, ← h.fifo j]
    · rw [hother j hj, Function.update_of_ne hj, makes_backlog hfree h]
      exact h.fifo j
  · rcases List.mem_append.mp hv with hv | hv
    · exact Nat.lt_succ_of_lt (h.visited v hv)
    · rw [List.mem_singleton.mp hv]
      exact Nat.lt_succ_self _
  · exact h.others v fun hv' => hv (List.mem_append_left _ hv')
  · rcases (hq d).mp hd with hd | rfl
    · obtain ⟨hvis, hnone⟩ := h.waiting d hd
      simp only [Visits.comes, makes_of_used hfree (h.queued_used hd)]
      exact ⟨List.mem_append_left _ hvis, hnone⟩
    · simp only [Visits.comes, hname]
      refine ⟨List.mem_append_right _ (List.mem_singleton_self _), h.others _ fun hv => ?_⟩
      exact Nat.lt_irrefl _ (h.visited _ hv)
  · rcases List.mem_append.mp hv with hv | hv
    · rcases h.fates v hv with ⟨hnone, d, hd, rfl⟩ | ⟨x, hx, hclosed⟩
      · exact .inl ⟨hnone, d, (hq d).mpr (.inl hd), makes_of_used hfree (h.queued_used hd)⟩
      · refine .inr ⟨x, hx, fun hne d hd he => ?_⟩
        rcases makes_known (H := H) hfree hc hd with ⟨-, hn⟩ | ⟨hdu, hn⟩
        · exact absurd (h.visited v hv) ((hn.symm.trans he) ▸ Nat.lt_irrefl _)
        · obtain ⟨hun, hnq⟩ := hclosed hne d hdu (hn.symm.trans he)
          refine ⟨hu d hdu hun, fun hdq => ?_⟩
          rcases (hq d).mp hdq with hdq | rfl
          · exact hnq hdq
          · rw [hfree] at hdu
            cases hdu
    · rw [List.mem_singleton.mp hv]
      refine .inl ⟨h.others _ fun hv => ?_, c, (hq c).mpr (.inr rfl), hname⟩
      exact Nat.lt_irrefl _ (h.visited _ hv)

/-- An accept takes the first connection of a backlog. -/
theorem leaves (h : Settled s H) {cs : List Nat} (hback : (s.k.listeners i).backlog = c :: cs)
    (ht : t.k = s.k.setListener i { s.k.listeners i with backlog := cs })
    (hb : Bal false t.k t.hand)
    (hu : ∀ d, d ≠ c → (s.k.conns d).used = true → s.Unnamed (.unix d 1) →
      t.Unnamed (.unix d 1)) :
    Settled t (H.leaves c i .accepted) ∧ c ∉ queued t.k := by
  have hself : t.k.listeners i = { s.k.listeners i with backlog := cs } := by
    rw [ht, setListener_self]
  have hother : ∀ j, j ≠ i → t.k.listeners j = s.k.listeners j := fun j hj => by
    rw [ht, setListener_of_ne hj]
  have hconns : t.k.conns = s.k.conns := by rw [ht]; rfl
  have hin : c ∈ (s.k.listeners i).backlog := hback ▸ List.mem_cons_self
  have hcq : c ∈ queued s.k := (mem_queued h.bal.tidy).mpr ⟨i, hin⟩
  have hone := backlog_nodup h.bal.tidy h.once i
  rw [hback, List.nodup_cons] at hone
  have hsub : ∀ j, (t.k.listeners j).backlog.Sublist (s.k.listeners j).backlog := fun j => by
    by_cases hj : j = i
    · rw [hj, hself, hback]
      exact List.sublist_cons_self ..
    · rw [hother j hj]
  have hq : ∀ d, d ∈ queued t.k ↔ d ∈ queued s.k ∧ d ≠ c := fun d => by
    rw [mem_queued hb.tidy, mem_queued h.bal.tidy]
    constructor
    · rintro ⟨j, hd⟩
      refine ⟨⟨j, (hsub j).subset hd⟩, ?_⟩
      rintro rfl
      obtain rfl := queued_one h.bal.tidy h.once ((hsub j).subset hd) hin
      rw [hself] at hd
      exact hone.1 hd
    · rintro ⟨⟨j, hd⟩, hne⟩
      refine ⟨j, ?_⟩
      by_cases hj : j = i
      · rw [hj, hback] at hd
        rw [hj, hself]
        exact (List.mem_cons.mp hd).resolve_left hne
      · rwa [hother j hj]
  have hname : ∀ d, (s.k.conns d).used = true → d ≠ c → H.name d ≠ H.name c :=
    fun d hd hne he => hne (h.apart d c hd (h.queued_used hcq) he)
  have hends : ∀ v, v ≠ H.name c → (H.leaves c i .accepted).ends v = H.ends v :=
    fun v hv => Function.update_of_ne hv ..
  refine ⟨⟨hb, fun j => (hsub j).length_le.trans (h.bound j),
    h.once.sublist (List.Sublist.flatMap_right _ fun j _ => hsub j), fun d hd => ?_,
    fun j j' hj hj' he => ?_, fun j => ?_, by rw [hconns]; exact h.known,
    by rw [hconns]; exact h.apart, h.visited, fun v hv => ?_, fun d hd => ?_, fun v hv => ?_⟩,
    fun hd => ((hq c).mp hd).2 rfl⟩
  · obtain ⟨hd, hne⟩ := (hq d).mp hd
    exact hu d hne (h.queued_used hd) (h.unnamed d hd)
  · exact h.keys_setBacklog (congrArg K.listeners ht) hj hj' he
  · simp only [Visits.leaves]
    by_cases hj : j = i
    · subst hj
      rw [hself, Function.update_self, h.fifo j, hback, List.map_cons, List.append_assoc,
        List.singleton_append]
    · rw [hother j hj, Function.update_of_ne hj]
      exact h.fifo j
  · rw [hends v fun e => ?_]
    · exact h.others v hv
    · exact hv (e ▸ (h.waiting c hcq).1)
  · obtain ⟨hd, hne⟩ := (hq d).mp hd
    obtain ⟨hvis, hnone⟩ := h.waiting d hd
    exact ⟨hvis, (hends _ (hname d (h.queued_used hd) hne)).trans hnone⟩
  · by_cases hv' : v = H.name c
    · refine .inr ⟨.accepted, ?_, fun hne => absurd rfl hne⟩
      rw [hv']
      simp only [Visits.leaves, Function.update_self, (h.waiting c hcq).2, List.nil_append]
    · rw [hends v hv']
      rcases h.fates v hv with ⟨hnone, d, hd, rfl⟩ | ⟨x, hx, hclosed⟩
      · exact .inl ⟨hnone, d, (hq d).mpr ⟨hd, fun e => hv' (e ▸ rfl)⟩, rfl⟩
      · refine .inr ⟨x, hx, fun hne d hd he => ?_⟩
        rw [hconns] at hd
        obtain ⟨hun, hnq⟩ := hclosed hne d hd he
        exact ⟨hu d (fun e => hv' (e ▸ he.symm)) hd hun, fun hdq => hnq ((hq d).mp hdq).1⟩

/-- The wait of a connection that nothing names any more ended with it closed. -/
theorem relabel (h : Settled s H) {v : Nat} {x y : End} (hv : H.ends v = [y])
    (hc : ∀ c, (s.k.conns c).used = true → H.name c = v →
      s.Unnamed (.unix c 1) ∧ c ∉ queued s.k) :
    Settled s { H with ends := Function.update H.ends v [x] } := by
  have hother : ∀ u, H.ends u = [] → Function.update H.ends v [x] u = [] := fun u hu => by
    rw [Function.update_of_ne, hu]
    rintro rfl
    rw [hu] at hv
    cases hv
  refine ⟨h.bal, h.bound, h.once, h.unnamed, h.keys, h.fifo, h.known, h.apart, h.visited,
    fun u hu => hother u (h.others u hu), fun c hcq => ?_, fun u hu => ?_⟩
  · exact ⟨(h.waiting c hcq).1, hother _ (h.waiting c hcq).2⟩
  · rcases h.fates u hu with ⟨hnone, hrest⟩ | ⟨z, hz, hclosed⟩
    · exact .inl ⟨hother u hnone, hrest⟩
    · by_cases huv : u = v
      · subst huv
        exact .inr ⟨x, Function.update_self .., fun _ => hc⟩
      · exact .inr ⟨z, (Function.update_of_ne huv ..).trans hz, hclosed⟩

end Settled

/-! ### Whole runs -/

/-- The acts that neither make nor take connections, nor make listeners. -/
def SockAct.Quiet : SockAct → Prop
  | .dup _ | .close _ | .send .. | .recv .. | .shutdown .. => True
  | .listen .. | .connect .. | .accept .. | .pair _ => False

theorem SockAct.calm (hq : a.Quiet) : Calm s.k (a.after env s).k := by
  cases a with
  | listen | connect | accept | pair => exact hq.elim
  | dup f => exact Calm.addRef f s.k
  | close f => exact .shrinks (Shrinks.dropRefs env [f] s.k)
  | shutdown c e how => exact Calm.shutdown c e how s.k
  | send c e src len nonblock files =>
      have hadd := Calm.addRefs files s.k
      simp only [after]
      set k₁ := files.foldl (fun k f => addRef f k) s.k
      cases hx : unixWrite c e src len nonblock files k₁ with
      | ok n k =>
          obtain ⟨-, hl, q, hconns, -⟩ := unixWrite_spec.ok hx
          refine hadd.trans ((Calm.setQueue c (1 - e) q).trans (.same hl fun d => ?_))
          rw [hconns]
      | error x k =>
          obtain ⟨-, hl, hconns⟩ := unixWrite_spec.error hx
          have hsame : Calm k₁ k := .same hl fun d => by rw [hconns]
          exact hadd.trans (hsame.trans (.shrinks (Shrinks.dropRefs env files k)))
  | recv c e len nonblock room =>
      simp only [after]
      cases hx : unixRead c e len nonblock s.k with
      | ok r k =>
          obtain ⟨-, hl, q, hconns, -⟩ := unixRead_spec.ok hx
          have hread : Calm s.k k := (Calm.setQueue c e q).trans (.same hl fun d => by rw [hconns])
          exact hread.trans (.shrinks (Shrinks.dropRefs env (r.files.drop room) k))
      | error x k =>
          obtain ⟨-, hl, hconns⟩ := unixRead_spec.error hx
          exact .same hl fun d => by rw [hconns]

/-- An accept without a descriptor closes the server's end that it took. -/
theorem Settled.refuses {H : Visits} (h : Settled s H) {cs : List Nat} {k : K V}
    (hback : (s.k.listeners i).backlog = c :: cs)
    (hk : k = s.k.setListener i { s.k.listeners i with backlog := cs })
    (hb : Bal false k (unixEnd c 1 :: s.hand))
    (hu : ∀ d, d ≠ c → (s.k.conns d).used = true → s.Unnamed (.unix d 1) →
      (⟨k, unixEnd c 1 :: s.hand⟩ : Sockets V).Unnamed (.unix d 1)) :
    Settled ⟨dropRef env (unixEnd c 1) k, s.hand⟩
      ((H.leaves c i .refused).closes k (gone k (dropRef env (unixEnd c 1) k))) := by
  set s₁ : Sockets V := ⟨k, unixEnd c 1 :: s.hand⟩ with hs₁
  obtain ⟨h₁, hcq⟩ := h.leaves (t := s₁) hback hk hb hu
  have hclose : (SockAct.close (unixEnd c 1)).after env s₁ =
      ⟨dropRef env (unixEnd c 1) k, s.hand⟩ := by
    simp only [SockAct.after, hs₁, List.erase_cons_head]
  have hcalm : Calm s₁.k ((SockAct.close (unixEnd c 1)).after env s₁).k := SockAct.calm trivial
  have ha : (SockAct.close (unixEnd c 1)).Able s₁ := List.mem_cons_self
  have h₂ := h₁.quiet hcalm (SockAct.bal hb ha) fun d hd hun =>
    SockAct.unnamed hb ha hun id
  rw [hclose] at h₂ hcalm
  have hin : c ∈ queued s.k := (mem_queued h.bal.tidy).mpr ⟨i, hback ▸ List.mem_cons_self⟩
  have hused : (s₁.k.conns c).used = true := by
    show (k.conns c).used = true
    rw [hk]
    exact h.queued_used hin
  have hwait : H.name c ∉ H.waits k (gone k (dropRef env (unixEnd c 1) k)) := fun hw => by
    obtain ⟨d, hd, he⟩ := List.mem_map.mp hw
    obtain ⟨j, -, hj⟩ := List.mem_flatMap.mp hd
    have hdq : d ∈ queued s₁.k := (mem_queued hb.tidy).mpr ⟨j, hj⟩
    exact hcq (h₁.apart d c (h₁.queued_used hdq) hused he ▸ hdq)
  have hends : ∀ x, ((H.leaves c i x).closes k (gone k (dropRef env (unixEnd c 1) k))).ends
      (H.name c) = [x] := fun x => by
    simp only [Visits.closes, Visits.leaves, Function.update_self, (h.waiting c hin).2]
    have hzero : (H.waits k (gone k (dropRef env (unixEnd c 1) k))).count (H.name c) = 0 :=
      List.count_eq_zero.mpr hwait
    exact congrArg (fun n => [] ++ [x] ++ List.replicate n End.closed) hzero
  have hsame : (H.leaves c i .refused).closes k (gone k (dropRef env (unixEnd c 1) k)) =
      { (H.leaves c i .accepted).closes k (gone k (dropRef env (unixEnd c 1) k)) with
        ends := Function.update ((H.leaves c i .accepted).closes k
          (gone k (dropRef env (unixEnd c 1) k))).ends (H.name c) [.refused] } := by
    have hupdate : ((H.leaves c i .refused).closes k (gone k (dropRef env (unixEnd c 1) k))).ends =
        Function.update ((H.leaves c i .accepted).closes k
          (gone k (dropRef env (unixEnd c 1) k))).ends (H.name c) [.refused] := by
      funext v
      by_cases hv : v = H.name c
      · rw [hv, hends, Function.update_self]
      · rw [Function.update_of_ne hv]
        simp only [Visits.closes, Visits.leaves, Function.update_of_ne hv]
        rfl
    rw [← hupdate]
    rfl
  rw [hsame]
  refine h₂.relabel (hends .accepted) fun d hd he => ?_
  obtain rfl : d = c := h₁.apart d c (hcalm.used d hd) hused he
  have hun := h.unnamed d hin
  refine ⟨?_, fun hq => hcq ((hcalm.queued hb.tidy).subset hq)⟩
  refine Sockets.Unnamed.shrinks (k := k) (hun.change ?_ ?_ hun.hand) (Shrinks.dropRefs env _ _)
  · rw [hk]
    rfl
  · rw [hk]
    exact hun.queues

/-- **Each act** settles. -/
theorem Settled.step {H : Visits} (h : Settled s H) (hs : Sockets.step env s a = some t) :
    Settled t (H.note s a t) := by
  obtain ⟨ha, ht⟩ := (Option.ite_none_right_eq_some ..).mp hs
  obtain rfl := Option.some.inj ht
  have hb : Bal false (a.after env s).k (a.after env s).hand := SockAct.bal h.bal ha
  have hun : ∀ c, s.Unnamed (.unix c 1) → ¬ a.Names s c → (a.after env s).Unnamed (.unix c 1) :=
    fun c hu hne => SockAct.unnamed h.bal ha hu hne
  by_cases hq : a.Quiet
  · have hquiet := h.quiet (SockAct.calm hq) hb fun c _ hu => hun c hu (by
      cases a with
      | listen | connect | accept | pair => exact hq.elim
      | _ => exact id)
    cases a with
    | listen | connect | accept | pair => exact hq.elim
    | _ => exact hquiet
  cases a with
  | dup | close | send | recv | shutdown => exact absurd trivial hq
  | listen key packet =>
      have hun : ∀ c, (s.k.conns c).used = true → _ := fun c _ hu => hun c hu id
      simp only [SockAct.after, Visits.note] at hb hun ⊢
      cases hx : unixListen key packet s.k with
      | ok i k =>
          rw [hx] at hb hun
          obtain ⟨hkey, -, hfree, hk⟩ := unixListen_spec.ok hx
          exact h.listens hfree hkey hk hb hun
      | error x k =>
          rw [hx] at hb hun
          obtain rfl := unixListen_spec.error hx
          exact h
  | connect key packet =>
      have hnew : ∀ c, (s.k.conns c).used = false →
          ((SockAct.connect key packet).after env s).Unnamed (.unix c 1) := fun c hc =>
        hun c (h.bal.free_unnamed hc) id
      have hun : ∀ c, (s.k.conns c).used = true → _ := fun c _ hu => hun c hu id
      simp only [SockAct.after, Visits.note] at hb hun hnew ⊢
      cases hx : unixConnect key packet s.k with
      | ok c k =>
          rw [hx] at hb hun hnew
          obtain ⟨i, hfind, hroom, hfree, -, hl, x, hconns, -⟩ := unixConnect_spec.ok hx
          simp only [hfind]
          refine h.comes hfree (findListener_used hfind) hroom hl (fun d hd hu => ?_) hb
            (hnew c hfree) hun
          rwa [hconns, Function.update_of_ne hd] at hu
      | error x k =>
          rw [hx] at hb hun
          obtain ⟨-, hl, hconns⟩ := unixConnect_spec.error hx
          exact h.stay hl (fun c hc => by rwa [hconns] at hc) hb hun
  | accept i nonblock room =>
      cases hx : unixAccept i nonblock s.k with
      | error x k =>
          obtain ⟨-, hl, hconns⟩ := unixAccept_spec.error hx
          have hun : ∀ c, (s.k.conns c).used = true → _ := fun c _ hu => hun c hu (by
            rintro ⟨-, k', hok⟩
            rw [hx] at hok
            cases hok)
          simp only [SockAct.after, Visits.note, hx] at hb hun ⊢
          exact h.stay hl (fun c hc => by rwa [hconns] at hc) hb hun
      | ok c k =>
          obtain ⟨cs, hback, hk⟩ := unixAccept_spec.ok hx
          have htook : ∀ d, d ≠ c → (s.k.conns d).used = true → s.Unnamed (.unix d 1) →
              (⟨k, unixEnd c 1 :: s.hand⟩ : Sockets V).Unnamed (.unix d 1) :=
            fun d hd _ hu => by
              rw [hk]
              refine hu.change rfl hu.queues ?_
              rw [countOf_cons_of_ne, hu.hand]
              rw [unixEnd_obj c (by decide)]
              simpa using hd.symm
          have hbal := (unixAccept_bal h.bal).ok hx
          cases room with
          | true =>
              simp only [SockAct.after, Visits.note, hx, reduceIte]
              exact (h.leaves hback hk hbal htook).1
          | false =>
              simp only [SockAct.after, Visits.note, hx, Bool.false_eq_true, reduceIte]
              exact h.refuses hback hk hbal htook
  | pair packet =>
      have hun : ∀ c, (s.k.conns c).used = true → _ := fun c hc hu => hun c hu (by
        show ¬ (s.k.conns c).used = false
        simp [hc])
      simp only [SockAct.after, Visits.note] at hb hun ⊢
      cases hx : connNew packet s.k with
      | ok c k =>
          rw [hx] at hb hun
          obtain ⟨hfree, -, hl, x, hconns, -⟩ := connNew_spec.ok hx
          refine h.makes hl hfree (fun d hd hu => ?_) hb hun
          rwa [hconns, Function.update_of_ne hd] at hu
      | error x k =>
          rw [hx] at hb hun
          obtain ⟨-, hl, hconns⟩ := connNew_spec.error hx
          exact h.stay hl (fun c hc => by rwa [hconns] at hc) hb hun

/-- No connection and no listener is there yet. -/
def Sockets.Fresh (s : Sockets V) : Prop :=
  Bal false s.k s.hand ∧ (∀ c, (s.k.conns c).used = false) ∧ ∀ i, (s.k.listeners i).used = false

/-- The runs of all processes, with the note of their connections. -/
abbrev Visiting (env : Env V) : Sockets V × Visits → Prop :=
  Noted (Sockets.step env) Visits.note Sockets.Fresh .none fun _ _ => True

theorem Visiting.settled {H : Visits} (h : Visiting env (s, H)) : Settled s H := by
  refine Noted.invariant (I := Settled) ?_ ?_ h
  swap
  · exact fun s a t H hi _ hs => hi.step hs
  rintro s ⟨hb, hconns, hlisten⟩
  have hback : ∀ i, (s.k.listeners i).backlog = [] := fun i => hb.tidy.listenFree i (hlisten i)
  have hq : queued s.k = [] := List.flatMap_eq_nil_iff.mpr fun i _ => hback i
  have hnone : ∀ c, (s.k.conns c).used ≠ true := fun c => by simp [hconns c]
  refine ⟨hb, fun i => ?_, hq ▸ .nil, by rw [hq]; exact nofun, fun i j hi => ?_, fun i => ?_,
    fun c hc => absurd hc (hnone c), fun c d hc => absurd hc (hnone c), nofun, fun _ _ => rfl,
    by rw [hq]; exact nofun, nofun⟩
  · rw [hback]
    exact Nat.zero_le _
  · rw [hlisten] at hi
    cases hi
  · rw [hback]
    rfl

/-- A connect to a key that no listener has is refused. -/
theorem unixConnect_refused {key : SockKey} {packet : Bool}
    (hno : ∀ i, (k.listeners i).used = true → (k.listeners i).key ≠ key) :
    unixConnect key packet k = .error ECONNREFUSED k := by
  have hfind : findListener k key = none := by
    rw [findListener, List.find?_eq_none]
    intro i _ hi
    simp only [Bool.and_eq_true, decide_eq_true_eq] at hi
    exact hno i hi.1 hi.2
  have hspec : wp (unixConnect key packet) (fun _ _ => False)
      (fun e k' => e = ECONNREFUSED ∧ k' = k) k := by
    simp only [unixConnect, wp_bind, wp_get, hfind, wp_throw, and_self]
  cases hx : unixConnect key packet k with
  | ok c k' => exact (hspec.ok hx).elim
  | error e k' =>
      obtain ⟨rfl, rfl⟩ := hspec.error hx
      rfl

/-- **The backlogs**, after any run of all processes.  A backlog keeps within its bound, and holds
the connections that came to the listener and were not taken, in order.  A connection that was made
waits, its server's end named by one backlog alone; or its wait has ended once: an accept of its
listener returned it, or closed its server's end for want of a descriptor, or the end was closed
with the listener.  Nobody connects to a key that no listener has, and no two have the same. -/
theorem backlog_settled {H : Visits} (h : Visiting env (s, H)) :
    (∀ i, (s.k.listeners i).backlog.length ≤ BACKLOG ∧
      (H.door i).came = (H.door i).left ++ (s.k.listeners i).backlog.map H.name) ∧
    (∀ v ∈ H.visited,
      (H.ends v = [] ∧ ∃ i, ∃ c ∈ (s.k.listeners i).backlog,
        H.name c = v ∧ (s.k.conns c).refs 1 = 1) ∨
      ∃ x, H.ends v = [x] ∧ (x ≠ .accepted → ∀ c, (s.k.conns c).used = true → H.name c = v →
        (s.k.conns c).refs 1 = 0)) ∧
    (∀ v, v ∉ H.visited → H.ends v = []) ∧
    (∀ key packet, (∀ i, (s.k.listeners i).used = true → (s.k.listeners i).key ≠ key) →
      unixConnect key packet s.k = .error ECONNREFUSED s.k) ∧
    ∀ i j, (s.k.listeners i).used = true → (s.k.listeners j).used = true →
      (s.k.listeners i).key = (s.k.listeners j).key → i = j := by
  have hs := h.settled
  refine ⟨fun i => ⟨hs.bound i, hs.fifo i⟩, fun v hv => ?_, hs.others,
    fun key packet => unixConnect_refused, hs.keys⟩
  rcases hs.fates v hv with ⟨hnone, c, hcq, hc⟩ | ⟨x, hx, hclosed⟩
  · obtain ⟨i, hi⟩ := (mem_queued hs.bal.tidy).mp hcq
    refine .inl ⟨hnone, i, c, hi, hc, ?_⟩
    rw [(hs.unnamed c hcq).refs hs.bal]
    exact List.count_eq_one_of_mem hs.once hcq
  · refine .inr ⟨x, hx, fun hne c hcu hc => ?_⟩
    obtain ⟨hun, hnq⟩ := hclosed hne c hcu hc
    rw [hun.refs hs.bal]
    exact List.count_eq_zero.mpr hnq

/-! ### Runs from boot -/

/-- The acts of a run from boot, with the note. -/
def bootRun (acts : List SockAct) : Option (Sockets Unit × Visits) :=
  Runs.run (Runs.noted (Sockets.step Env.void) Visits.note) (fun _ _ => True) acts
    (⟨K.boot () fun _ => true, []⟩, .none)

theorem bootRun_visiting {acts : List SockAct} {x : Sockets Unit × Visits}
    (h : bootRun acts = some x) : Visiting Env.void x := by
  have hboot : Visiting Env.void (⟨K.boot () fun _ => true, []⟩, .none) :=
    Noted.start ⟨boot_bal () _, fun _ => rfl, fun _ => rfl⟩
  exact Reached.run hboot h

/-- Two connections come to a listener, and the first is accepted. -/
theorem backlog_settled_two : ∃ (s : Sockets Unit) (H : Visits), Visiting Env.void (s, H) ∧
    (H.door 0).came = [0, 1] ∧ (H.door 0).left = [0] ∧ H.ends 0 = [.accepted] ∧
    (s.k.listeners 0).backlog.map H.name = [1] := by
  have hrun : (bootRun [.listen (.abstract [97]) false, .connect (.abstract [97]) false,
      .connect (.abstract [97]) false, .accept 0 false true]).any (fun x =>
      decide ((x.2.door 0).came = [0, 1] ∧ (x.2.door 0).left = [0] ∧ x.2.ends 0 = [.accepted])) =
      true := by
    decide +kernel
  obtain ⟨x, hx, hc⟩ := (Option.any_eq_true _ _).mp hrun
  obtain ⟨hcame, hleft, hends⟩ := of_decide_eq_true hc
  have hvisit : Visiting Env.void (x.1, x.2) := bootRun_visiting hx
  have hfifo := ((backlog_settled hvisit).1 0).2
  rw [hcame, hleft] at hfifo
  exact ⟨x.1, x.2, hvisit, hcame, hleft, hends, (List.cons.inj hfifo).2.symm⟩

/-- A connection that an accept takes when no descriptor is free is neither returned, nor closed
with its listener. -/
theorem accept_refuses : ¬ ∀ (s : Sockets Unit) (H : Visits), Visiting Env.void (s, H) →
    ∀ v ∈ H.visited, H.ends v = [] ∨ H.ends v = [.accepted] ∨ H.ends v = [.closed] := by
  intro hall
  have hrun : (bootRun [.listen (.abstract [97]) false, .connect (.abstract [97]) false,
      .accept 0 false false]).any (fun x => decide (0 ∈ x.2.visited ∧ x.2.ends 0 = [.refused])) =
      true := by
    decide +kernel
  obtain ⟨x, hx, hc⟩ := (Option.any_eq_true _ _).mp hrun
  obtain ⟨hmem, hends⟩ := of_decide_eq_true hc
  have hvisit : Visiting Env.void (x.1, x.2) := bootRun_visiting hx
  have hbad := hall x.1 x.2 hvisit 0 hmem
  rw [hends] at hbad
  rcases hbad with h | h | h <;> cases h

end Pulsar.Kernel

import Pulsar.Kernel.Handing

/-!
# References balance: local sockets

Files enter a queue with `unix::write` and leave it with `unix::read`; the server's end of a new
connection waits in the backlog until it is accepted.
-/

namespace Pulsar.Kernel

variable {V : Type} {s : Bool} {k : K V} {ex : List OpenFile} {f : OpenFile} {c e i : Nat}

theorem unixEnd_obj (c : Nat) {e : Nat} (he : e < 2) : (unixEnd c e).obj = some (.unix c e) := by
  have h₁ : (c * 2 + e) / 2 = c := by omega
  have h₂ : (c * 2 + e) % 2 = e := by omega
  simp [OpenFile.obj, unixEnd, h₁, h₂]

/-! ### Queues -/

/-- A queue of a live connection changes: what it carries moves to or from the hand. -/
theorem setQueue_bal {q : Queue} {ex' : List OpenFile} (h : Bal s k ex)
    (hc : (k.conns c).used = true) (he : e < 2)
    (hq : ∀ X, countOf X q.files + countOf X ex' =
      countOf X ((k.conns c).q e).files + countOf X ex) : Bal s (k.setQueue c e q) ex' := by
  have ht := h.tidy
  have hlt := ht.connLt c hc
  have hx := (ht.conn c).mp hc
  refine ⟨fun X hct => ?_, ht.setConn hlt (iff_of_true hc hx) fun hn => absurd hc (by simpa using hn)⟩
  have hcount := h.count X hct
  have hheld := held_setConn (k := k)
    (x := { k.conns c with q := Function.update (k.conns c).q e q }) hlt X
  have hrefs : (k.setQueue c e q).refs X = k.refs X := by
    by_cases hX : ∃ d, X = .unix c d
    · obtain ⟨d, rfl⟩ := hX
      rw [K.setQueue, refs_setConn_self]
      rfl
    · exact refs_setConn_of_ne fun d hd => hX ⟨d, hd⟩
  have hfiles : countOf X (Conn.files { k.conns c with q := Function.update (k.conns c).q e q }) +
      countOf X ((k.conns c).q e).files = countOf X (k.conns c).files + countOf X q.files := by
    have : e = 0 ∨ e = 1 := by omega
    rcases this with rfl | rfl <;> simp [Conn.files] <;> omega
  have := hq X
  rw [hrefs]
  dsimp only [K.setQueue] at *
  omega

theorem Queue.takeAtt_files (q : Queue) (X : Obj) :
    countOf X q.takeAtt.2.files + countOf X q.takeAtt.1 = countOf X q.files := by
  unfold Queue.takeAtt Queue.files
  split
  · rename_i a as ha
    split <;> simp [ha]
    omega
  · simp

/-- What a read delivers is what the queue no longer carries. -/
theorem Queue.receive_files (q : Queue) (packet : Bool) (len : Nat) (X : Obj) :
    countOf X (q.receive packet len).2.files + countOf X (q.receive packet len).1.files =
      countOf X q.files := by
  have := q.takeAtt_files X
  unfold Queue.receive
  dsimp only
  split <;> exact this

theorem Queue.send_files (q : Queue) (packet : Bool) (n : Nat) (src : Nat → UInt8)
    (fs : List OpenFile) (X : Obj) :
    countOf X (q.send packet n src fs).files = countOf X q.files + countOf X fs := by
  unfold Queue.send Queue.files
  dsimp only
  split
  · rename_i h; simp [h]
  · simp

theorem unixRead_bal {len : Nat} {nonblock : Bool} (h : Bal s k ex) (hc : (k.conns c).used = true)
    (he : e < 2) : wp (unixRead c e len nonblock) (fun r k' => Bal s k' (r.files ++ ex))
      (fun _ k' => Bal s k' ex) k := by
  simp only [unixRead, wp_bind, wp_get, wp_set, wp_ite, wp_pure, wp_throw, wp_wouldBlock]
  refine ⟨fun _ => ⟨fun _ => h, fun _ => ⟨fun _ => h, fun _ => ?_⟩⟩, fun _ => ?_⟩
  · exact h.same rfl rfl rfl rfl rfl rfl rfl rfl rfl rfl
  · refine pushWake_bal (setQueue_bal h hc he fun X => ?_) _
    have := ((k.conns c).q e).receive_files (k.conns c).packet len X
    rw [countOf_append]
    omega

theorem unixWrite_bal {len : Nat} {src : Nat → UInt8} {nonblock : Bool} {fs : List OpenFile}
    (h : Bal s k (fs ++ ex)) (hc : (k.conns c).used = true) (he : e < 2) :
    wp (unixWrite c e src len nonblock fs) (fun _ k' => Bal s k' ex)
      (fun _ k' => Bal s k' (fs ++ ex)) k := by
  simp only [unixWrite, wp_bind, wp_get, wp_set, wp_ite, wp_pure, wp_throw, wp_wouldBlock]
  refine ⟨fun _ => h, fun _ => ⟨fun _ => h, fun _ => ⟨fun _ => ⟨fun _ => h, fun _ => ?_⟩,
    fun _ => ⟨fun _ => h, fun _ => ?_⟩⟩⟩⟩
  · exact h.same rfl rfl rfl rfl rfl rfl rfl rfl rfl rfl
  · refine pushWake_bal (setQueue_bal h hc (by omega) fun X => ?_) _
    rw [Queue.send_files, countOf_append]
    omega

theorem unixShutdown_bal {how : Nat} (h : Bal s k ex) (hc : (k.conns c).used = true) (he : e < 2) :
    Bal s (unixShutdown c e how k) ex := by
  have stop : ∀ {k : K V} {d : Nat}, Bal s k ex → (k.conns c).used = true → d < 2 →
      Bal s (k.setQueue c d { (k.conns c).q d with eof := true }) ex :=
    fun h hc hd => setQueue_bal h hc hd fun _ => rfl
  have hused : ∀ (d : Nat) (q : Queue) (key : Nat),
      ((pushWake key (k.setQueue c d q)).conns c).used = true := fun d q key => by
    simp [K.setQueue, K.setConn, hc]
  unfold unixShutdown
  dsimp only
  split <;> split
  · exact pushWake_bal (stop (pushWake_bal (stop h hc (by omega)) _) (hused ..) he) _
  · exact pushWake_bal (stop h hc he) _
  · exact pushWake_bal (stop h hc (by omega)) _
  · exact h

/-! ### Connections -/

/-- Other data of a live connection changes. -/
theorem touchConn_bal {x : Conn} (h : Bal s k ex) (hc : (k.conns c).used = true) (hu : x.used = true)
    (hr : x.refs = (k.conns c).refs) (hf : x.files = (k.conns c).files) :
    Bal s (k.setConn c x) ex := by
  have ht := h.tidy
  refine ⟨fun X hct => ?_, ht.setConn (ht.connLt c hc) (iff_of_true hu ?_) fun hn => ?_⟩
  · have hrefs : (k.setConn c x).refs X = k.refs X := by
      by_cases hX : ∃ d, X = .unix c d
      · obtain ⟨d, rfl⟩ := hX
        rw [refs_setConn_self, hr]
        rfl
      · exact refs_setConn_of_ne fun d hd => hX ⟨d, hd⟩
    rw [hrefs, held_setConn_same hf]
    exact h.count X hct
  · rw [hr]; exact (ht.conn c).mp hc
  · exact absurd hu (by simpa using hn)

/-- A connection made in a free slot, its two ends in hand. -/
theorem newConn_bal {x : Conn} (h : Bal s k ex) (hc : c < MAX_CONNS)
    (hfree : (k.conns c).used = false) (hu : x.used = true) (hr : ∀ e, x.refs e = 1)
    (hf : x.files = []) : Bal s (k.setConn c x) (unixEnd c 0 :: unixEnd c 1 :: ex) := by
  have ht := h.tidy
  refine ⟨fun X hct => ?_, ht.setConn hc (iff_of_true hu (by simp [hr])) fun _ => hf⟩
  have hcount := h.count X hct
  have hheld := held_setConn (k := k) (x := x) hc X
  rw [ht.connFree c hfree, hf] at hheld
  rw [countOf_cons, countOf_cons, unixEnd_obj c (by decide), unixEnd_obj c (by decide)]
  by_cases hX : ∃ d, X = .unix c d
  · obtain ⟨d, rfl⟩ := hX
    rw [refs_setConn_self]
    simp only [Option.some.injEq, Obj.unix.injEq, true_and, hr]
    have hz : k.refs (.unix c d) = 0 := by
      by_contra hne
      have := ht.conn_used (Nat.pos_of_ne_zero hne)
      simp [hfree] at this
    have : d = 0 ∨ d = 1 ∨ ¬ d < 2 := by omega
    rcases this with rfl | rfl | hd
    · simp; omega
    · simp; omega
    · have h0 : ¬ 0 = d := by omega
      have h1 : ¬ 1 = d := by omega
      simp [hd, h0, h1]; omega
  · have hne : ∀ d, X ≠ .unix c d := fun d hd => hX ⟨d, hd⟩
    rw [if_neg fun e => hne 0 (Option.some.inj e).symm,
      if_neg fun e => hne 1 (Option.some.inj e).symm, refs_setConn_of_ne hne]
    omega

/-- **A new connection** has one name for each end, both in the caller's hand. -/
theorem connNew_bal {packet : Bool} (h : Bal s k ex) :
    wp (connNew packet) (fun c k' => Bal s k' (unixEnd c 0 :: unixEnd c 1 :: ex) ∧
        k'.fds = k.fds ∧ k'.listeners = k.listeners ∧ (k'.conns c).used = true)
      (fun _ k' => Bal s k' ex) k := by
  simp only [connNew, wp_bind, wp_get]
  refine wp_position (fun c hc hfree => ?_) h
  rw [wp_bind]
  refine wp_allocContig ?_ (h.asked _)
  rw [wp_bind]
  refine wp_allocContig ?_ (h.asked _)
  simp only [wp_bind, wp_modify, wp_pure]
  exact ⟨newConn_bal ((h.asked _).asked _) hc (by simpa using hfree) rfl (fun _ => rfl) rfl, rfl, rfl,
    by simp [K.setConn]⟩

/-! ### Listeners -/

/-- The backlog of a listener changes: connections move to or from the hand. -/
theorem setBacklog_bal {b : List Nat} {ex' : List OpenFile} (h : Bal s k ex)
    (hu : (k.listeners i).used = true)
    (hb : ∀ X, countOf X (b.map (unixEnd · 1)) + countOf X ex' =
      countOf X (k.listeners i).files + countOf X ex) :
    Bal s (k.setListener i { k.listeners i with backlog := b }) ex' := by
  have ht := h.tidy
  have hi := ht.listenLt i hu
  refine ⟨fun X hct => ?_, ht.setListener (ht.listener i) (fun hn => absurd hu (by simpa using hn))
    fun _ => hi⟩
  have hcount := h.count X hct
  have hheld := held_setListener (k := k) (x := { k.listeners i with backlog := b }) hi X
  have hb := hb X
  have hrefs : (k.setListener i { k.listeners i with backlog := b }).refs X = k.refs X := by
    rw [refs_setListener]
    split
    · rename_i e; subst e; rfl
    · rfl
  have hfiles : Listener.files { k.listeners i with backlog := b } = b.map (unixEnd · 1) := rfl
  rw [hfiles] at hheld
  rw [hrefs]
  omega

/-- A listener that is found is in use. -/
theorem findListener_used {key : SockKey} (h : findListener k key = some i) :
    (k.listeners i).used = true := by
  unfold findListener at h
  have := List.find?_some h
  simp only [Bool.and_eq_true] at this
  exact this.1

theorem unixListen_bal {key : SockKey} {packet : Bool} (h : Bal s k ex) :
    wp (unixListen key packet) (fun i k' => k'.fds = k.fds ∧
        ∀ f : OpenFile, f.obj = some (.listen i) → Bal s k' (f :: ex)) (fun _ k' => Bal s k' ex) k := by
  simp only [unixListen, wp_bind, wp_get, wp_ite, wp_throw]
  refine ⟨fun _ => h, fun _ => wp_position (fun i hi hfree => ?_) h⟩
  exact ⟨rfl, fun f hf => newListener_bal h hi (by simpa using hfree) hf⟩

theorem unixConnect_bal {key : SockKey} {packet : Bool} (h : Bal s k ex) :
    wp (unixConnect key packet) (fun c k' => Bal s k' (unixEnd c 0 :: ex) ∧ k'.fds = k.fds ∧
        (k'.conns c).used = true) (fun _ k' => Bal s k' ex) k := by
  simp only [unixConnect, wp_bind, wp_get]
  split
  · exact h
  · rename_i li hli
    simp only [wp_bind, wp_ite, wp_throw]
    refine ⟨fun _ => h, fun _ => ⟨fun _ => h, fun _ => ?_⟩⟩
    refine wp_mono (connNew_bal h) (fun c k' hc => ?_) fun _ _ h => h
    obtain ⟨hbal, hfds, hlist, hused⟩ := hc
    have hu : (k'.listeners li).used = true := by rw [hlist]; exact findListener_used hli
    refine ⟨pushWake_bal (setBacklog_bal hbal hu fun X => ?_) _, ?_, ?_⟩
    · simp only [Listener.files, List.map_append, List.map_cons, List.map_nil, countOf_append,
        countOf_cons, countOf_nil]
      omega
    · rw [← hfds]
      unfold pushWake
      dsimp only [bumpIoSeq]
      split <;> [rfl; split <;> rfl]
    · rw [pushWake_conns]; exact hused

/-- The connection a listener's owner accepts comes out of the backlog. -/
theorem unixAccept_bal {nonblock : Bool} (h : Bal s k ex) :
    wp (unixAccept i nonblock) (fun c k' => Bal s k' (unixEnd c 1 :: ex)) (fun _ k' => Bal s k' ex)
      k := by
  simp only [unixAccept, wp_bind, wp_get]
  split
  · simp only [wp_ite, wp_throw, wp_wouldBlock]
    exact ⟨fun _ => h, fun _ => h.same rfl rfl rfl rfl rfl rfl rfl rfl rfl rfl⟩
  · rename_i c cs hb
    have hu : (k.listeners i).used = true := by
      by_contra hn
      have := h.tidy.listenFree i (by simpa using hn)
      rw [hb] at this
      cases this
    refine setBacklog_bal h hu fun X => ?_
    simp only [Listener.files, hb, List.map_cons, countOf_cons]
    omega

end Pulsar.Kernel

import Pulsar.Kernel.Course

/-!
# Every call tells

`call_tells`: a call pushes the key of every wait that it ends, but for the waits it mutes
(`Call.Mutes`): a read of a local socket does not tell the writers at the other end, and an eventfd
made with a count does not tell who still waits on its slot.
-/

namespace Pulsar.Kernel

variable {V α : Type} {env : Env V} {k k' k₀ k₁ : K V} {W : Wait → Prop} {f : OpenFile}
  {l fd c e i : Nat}

/-- The program tells, however it ends. -/
abbrev Quiet (W : Wait → Prop) (k₀ : K V) (x : Prog V α) (k : K V) : Prop :=
  wp x (fun _ k' => Tells W k₀ k') (fun _ k' => Tells W k₀ k') k

/-- The program has stopped to wait for `w`, which was blocked then; what it did afterwards tells,
too. -/
def Stalls (W : Wait → Prop) (k₀ k' : K V) : Prop :=
  ∃ k₁ w, Tells W k₀ k₁ ∧ w.Ok ∧ Blocked k₁ w ∧
    Tells Wait.Ok { k₁ with blockOn := some (w, w.key, k₁.seq (keyBucket w.key)) } k'

/-- The program tells, and may have to wait. -/
abbrev Waits (W : Wait → Prop) (k₀ : K V) (x : Prog V α) (k : K V) : Prop :=
  wp x (fun _ k' => Tells W k₀ k') (fun _ k' => Tells W k₀ k' ∨ Stalls W k₀ k') k

theorem Quiet.waits {x : Prog V α} (h : Quiet W k₀ x k) : Waits W k₀ x k :=
  wp_mono h (fun _ _ h => h) fun _ _ h => Or.inl h

theorem Quiet.call {x : Prog V α} (h : Quiet W k₀ x k) : Waits W k₀ (discard x) k :=
  wp_discard.mpr (Quiet.waits h)

theorem stalls_now {w : Wait} (h : Tells W k₀ k) (hw : w.Ok) (hb : Blocked k w) :
    Stalls W k₀ { k with blockOn := some (w, w.key, k.seq (keyBucket w.key)) } :=
  ⟨k, w, h, hw, hb, .refl _⟩

theorem Stalls.then (h : Stalls W k₀ k) (hk : Tells Wait.Ok k k') : Stalls W k₀ k' := by
  obtain ⟨k₁, w, h₁, hw, hb, h₂⟩ := h
  exact ⟨k₁, w, h₁, hw, hb, h₂.trans hk⟩

/-- Most calls only take small steps. -/
theorem tells_along (hok : ∀ w, W w → w.Ok) : Along env (Tells W) where
  trans h h' := h.trans h'
  same hs _ := hs.tells
  adds := addRef_tells
  drops := dropRefs_tells env hok

/-! ### Pipes and eventfds -/

theorem pipeRead_tells {flags : UInt32} {len : Nat} (h : Tells W k₀ k) :
    Waits W k₀ (pipeRead flags i len) k := by
  simp only [Waits, pipeRead, wp_bind, wp_get, wp_set, wp_ite, wp_pure, wp_throw, wp_wouldBlock]
  refine ⟨fun hz => ⟨fun _ => h, fun hw => ⟨fun _ => Or.inl h, fun _ => Or.inr ?_⟩⟩, fun hz => ?_⟩
  · exact stalls_now (w := .pipeRead i) h trivial ⟨hz, hw⟩
  · exact h.trans (setPipe_push (fun hz' => absurd hz' hz) fun _ _ => Or.inr rfl)

theorem pipeWrite_tells {flags : UInt32} {len : Nat} {src : Nat → UInt8} (h : Tells W k₀ k) :
    Waits W k₀ (pipeWrite flags i src len) k := by
  simp only [Waits, pipeWrite, wp_bind, wp_get, wp_set, wp_ite, wp_pure, wp_throw, wp_wouldBlock]
  refine ⟨fun _ => Or.inl h, fun hr => ⟨fun hf => ⟨fun _ => Or.inl h, fun _ => Or.inr ?_⟩,
    fun hf => ?_⟩⟩
  · exact stalls_now (w := .pipeWrite i) h trivial ⟨hr, hf⟩
  · exact h.trans (setPipe_push (fun _ _ => Or.inr rfl) fun _ hf' => absurd hf' hf)

theorem eventRead_tells {flags : UInt32} {len : Nat} (h : Tells W k₀ k) :
    Waits W k₀ (eventRead flags i len) k := by
  simp only [Waits, eventRead, wp_bind, wp_get, wp_set, wp_ite, wp_pure, wp_throw, wp_wouldBlock]
  refine ⟨fun _ => Or.inl h, fun _ => ⟨fun hz => ⟨fun _ => Or.inl h, fun _ => Or.inr ?_⟩,
    fun _ => h.trans setEvent_push⟩⟩
  exact stalls_now (w := .eventRead i) h trivial hz

theorem eventWrite_tells {len : Nat} {src : Nat → UInt8} (h : Tells W k₀ k) :
    Quiet W k₀ (eventWrite i src len) k := by
  simp only [Quiet, eventWrite, wp_bind, wp_ite, wp_pure, wp_throw, wp_modify]
  exact ⟨fun _ => h, fun _ => ⟨fun _ => h, fun _ => h.trans setEvent_push⟩⟩

/-! ### Local sockets -/

/-- A queue of a connection changes: the waits on the connection, one by one. -/
theorem holds_setQueue {x : Conn} {q : Queue} {d : Nat} {w : Wait}
    (hr : ∀ e, w = .unixRead c e → e = d → (x.Holds w →
      q.len = 0 ∧ x.refs (1 - e) ≠ 0 ∧ q.eof = false))
    (hw : ∀ e n, w = .unixWrite c e n → 1 - e = d → (x.Holds w → q.full x.packet n))
    (hc : w.On c) (h : x.Holds w) : Conn.Holds { x with q := Function.update x.q d q } w := by
  cases w with
  | unixRead b e =>
      simp only [Wait.On] at hc
      subst hc
      by_cases he : e = d
      · simpa [Conn.Holds, he] using hr e rfl he h
      · simpa [Conn.Holds, he] using h
  | unixWrite b e n =>
      simp only [Wait.On] at hc
      subst hc
      by_cases he : 1 - e = d
      · have := hw e n rfl he h
        refine ⟨h.1, h.2.1, ?_⟩
        simpa [he] using this
      · simpa [Conn.Holds, he] using h
  | _ => trivial

/-- The reader told is the writer of the end that reads: waits of that kind are left out. -/
theorem unixRead_tells {len : Nat} {nonblock : Bool} (h : Tells W k₀ k) (hok : ∀ w, W w → w.Ok)
    (he : e < 2) (hW : ((k.conns c).q e).len ≠ 0 → ∀ n, ¬ W (.unixWrite c (1 - e) n)) :
    Waits W k₀ (unixRead c e len nonblock) k := by
  simp only [Waits, unixRead, wp_bind, wp_get, wp_set, wp_ite, wp_pure, wp_throw, wp_wouldBlock]
  refine ⟨fun hz => ⟨fun _ => h, fun hn => ⟨fun _ => Or.inl h, fun _ => Or.inr ?_⟩⟩, fun hz => ?_⟩
  · refine stalls_now (w := .unixRead c e) h he ⟨hz, fun hr => hn (Or.inl hr), ?_⟩
    simpa using fun hr => hn (Or.inr hr)
  · refine h.trans (setConn_push fun w hw hc hx => Or.inl (holds_setQueue ?_ ?_ hc hx))
    · rintro d rfl rfl hx
      exact absurd hx.1 hz
    · rintro d n rfl hd hx
      have hd : d = 1 - e := by
        have : d < 2 := hok _ hw
        omega
      subst hd
      exact absurd hw (hW hz n)

theorem unixWrite_tells {len : Nat} {src : Nat → UInt8} {nonblock : Bool} {fs : List OpenFile}
    (h : Tells W k₀ k) (he : e < 2) : Waits W k₀ (unixWrite c e src len nonblock fs) k := by
  simp only [Waits, unixWrite, wp_bind, wp_get, wp_set, wp_ite, wp_pure, wp_throw, wp_wouldBlock]
  refine ⟨fun _ => Or.inl h, fun hr => ⟨fun _ => Or.inl h, fun hm => ⟨fun hf => ⟨fun _ => Or.inl h,
    fun _ => Or.inr ?_⟩, fun hf => ⟨fun _ => Or.inl h, fun _ => ?_⟩⟩⟩⟩
  · exact stalls_now (w := .unixWrite c e len) h he ⟨hr, hm, hf⟩
  · refine h.trans (setConn_push fun w hw hc hx => ?_)
    by_cases hk : w.key = unixKeyR c (1 - e)
    · exact Or.inr hk
    · refine Or.inl (holds_setQueue ?_ ?_ hc hx)
      · rintro d rfl rfl hx
        exact absurd rfl hk
      · rintro d n rfl hd hx
        exact absurd (congrArg _ hd) hk

theorem unixShutdown_tells (how : Nat) (k : K V) : Tells W k (unixShutdown c e how k) := by
  have stop : ∀ (d : Nat) (k : K V), Tells W k
      (pushWake (unixKeyR c d) (k.setQueue c d { (k.conns c).q d with eof := true })) :=
    fun d k => setConn_push fun w hw hc hx => by
      by_cases hk : w.key = unixKeyR c d
      · exact Or.inr hk
      · refine Or.inl (holds_setQueue ?_ ?_ hc hx)
        · rintro b rfl rfl hx
          exact absurd rfl hk
        · rintro b n rfl hb hx
          exact absurd (congrArg _ hb) hk
  unfold unixShutdown
  dsimp only
  split <;> split
  · exact (stop _ _).trans (stop _ _)
  · exact stop _ _
  · exact stop _ _
  · exact .refl k

/-- A free slot is nobody's counterpart. -/
def Fresh (k : K V) : Prop := ∀ c, (k.conns c).used = false → ∀ e, (k.conns c).refs (1 - e) = 0

theorem Tidy.fresh (ht : Tidy k) : Fresh k := fun c hc e => by
  have := ht.conn c
  rw [hc] at this
  have h : 1 - e = 0 ∨ 1 - e = 1 := by omega
  rcases h with h | h <;> rw [h] <;> by_contra hne <;> simp_all

theorem connNew_tells {packet : Bool} (h : Tells W k₀ k) (hfresh : Fresh k) :
    Quiet W k₀ (connNew packet) k := by
  simp only [Quiet, connNew, wp_bind, wp_get]
  refine wp_position (fun c hc hfree => ?_) h
  rw [wp_bind]
  refine wp_allocContig ?_ (h.same (asked_same _))
  rw [wp_bind]
  refine wp_allocContig ?_ (h.same ((asked_same _).trans (asked_same _)))
  simp only [wp_bind, wp_modify, wp_pure]
  refine (h.same ((asked_same _).trans (asked_same _))).trans (setConn_still fun w _ hc hx => ?_)
  have hz := hfresh c (by simpa using hfree)
  cases w with
  | unixRead d e => exact absurd (hz e) hx.2.1
  | unixWrite d e n => exact absurd (hz e) hx.1
  | _ => trivial

theorem unixListen_tells {key : SockKey} {packet : Bool} (h : Tells W k₀ k) :
    Quiet W k₀ (unixListen key packet) k := by
  simp only [Quiet, unixListen, wp_bind, wp_get, wp_ite, wp_throw]
  refine ⟨fun _ => h, fun _ => wp_position (fun i hi hfree => ?_) h⟩
  exact h.trans (setListener_still fun _ => rfl)

theorem unixConnect_tells {key : SockKey} {packet : Bool} (h : Tells W k₀ k) (hfresh : Fresh k) :
    Quiet W k₀ (unixConnect key packet) k := by
  simp only [Quiet, unixConnect, wp_bind, wp_get]
  split
  · exact h
  · simp only [wp_bind, wp_ite, wp_throw]
    refine ⟨fun _ => h, fun _ => ⟨fun _ => h, fun _ => ?_⟩⟩
    exact wp_mono (connNew_tells h hfresh) (fun c k' hc => hc.trans setListener_push) fun _ _ h => h

theorem unixAccept_tells {nonblock : Bool} (h : Tells W k₀ k) :
    Waits W k₀ (unixAccept i nonblock) k := by
  simp only [Waits, unixAccept, wp_bind, wp_get]
  split
  · rename_i hb
    simp only [wp_ite, wp_throw, wp_wouldBlock]
    exact ⟨fun _ => Or.inl h, fun _ => Or.inr (stalls_now (w := .accept i) h trivial hb)⟩
  · rename_i c cs hb
    exact h.trans (setListener_still fun hn => by rw [hb] at hn; cases hn)

/-! ### New objects and descriptors -/

section

variable (hok : ∀ w, W w → w.Ok)
include hok

/-- A pipe is made in a slot nobody can still be waiting for. -/
theorem pipe_tells {flags : UInt32} (ht : Tidy k) : Quiet W k (pipe env l flags) k := by
  simp only [Quiet, pipe, wp_bind, wp_get]
  refine wp_position (fun i _ hfree => ?_) (.refl k)
  obtain ⟨hr₀, hw₀⟩ := (ht.pipe i).mp (by simpa using hfree)
  rw [wp_bind]
  refine wp_allocContig ?_ (asked_same _).tells
  simp only [wp_bind, wp_modify, wp_onError]
  let W' : Wait → Prop := fun w => W w ∧ w ≠ .pipeRead i ∧ w ≠ .pipeWrite i
  have hok' : ∀ w, W' w → w.Ok := fun w hw => hok w hw.1
  have own : ∀ {k' : K V}, Tells W' k k' → Tells W k k' := fun h => h.weaken fun w hw hn => by
    by_cases hR : w = .pipeRead i
    · subst hR; exact fun hb => hb.2 hw₀
    · by_cases hW : w = .pipeWrite i
      · subst hW; exact fun hb => hb.1 hr₀
      · exact absurd ⟨hw, hR, hW⟩ hn
  -- whatever is done to the slot itself is out of sight of the others
  have slot : ∀ (k' : K V) (p : Pipe), Tells W' k' (k'.setPipe i p) := fun k' p =>
    Tells.still rfl rfl rfl fun w hw hb => by
      cases w with
      | pipeRead j =>
          have hj : j ≠ i := fun e => hw.2.1 (by rw [e])
          simpa [Blocked, K.setPipe, hj] using hb
      | pipeWrite j =>
          have hj : j ≠ i := fun e => hw.2.2 (by rw [e])
          simpa [Blocked, K.setPipe, hj] using hb
      | _ => exact hb
  have h₁ : Tells W' k (({ k with asked := k.asked + 1 } : K V).setPipe i
      ⟨k.asked + 1, fun _ => 0, 0, 0, 1, 1⟩) := (asked_same _).tells.trans (slot _ _)
  refine wp_install (fun r _ _ => ?_) (own (h₁.trans (slot _ _)))
  rw [wp_bind, wp_onError]
  have h₂ := h₁.same (@setFd_same _ _ l r
    (openOn .pipeR i (flags &&& O_NONBLOCK) (has flags O_CLOEXEC)))
  refine wp_install (fun w _ _ => own (h₂.same (setFd_same _))) (own ?_)
  exact ((h₂.same (setFd_same _)).trans (slot _ _)).trans (dropRef_tells env hok' _ _)

theorem eventfd_tells {init : Nat} {flags : UInt32} (h : Tells W k₀ k)
    (hW : ∀ i, (k.events i).used = false → init ≠ 0 → ¬ W (.eventRead i)) :
    Quiet W k₀ (eventfd env l init flags) k := by
  simp only [Quiet, eventfd, wp_bind, wp_get]
  refine wp_position (fun i _ hfree => ?_) h
  refine (tells_along hok).installNew (h.trans (setEvent_still fun hw _ => ?_))
  by_contra hz
  exact hW i (by simpa using hfree) hz hw

theorem socket_tells {domain : Nat} {ty : UInt32} (h : Tells W k₀ k) :
    Quiet W k₀ (socket env l domain ty) k := by
  simp only [Quiet, socket, wp_bind, wp_get, wp_ite, wp_throw]
  refine ⟨fun _ => ⟨fun _ => h, fun _ => wp_position (fun i _ _ => ?_) h⟩,
    fun _ => ⟨fun _ => h, fun _ => ⟨fun _ => h, fun _ => wp_position (fun i _ _ => ?_) h⟩⟩⟩
  · exact (tells_along hok).installNew (h.same ⟨rfl, rfl, rfl, rfl, rfl, rfl, rfl⟩)
  · exact (tells_along hok).installNew (h.same ⟨rfl, rfl, rfl, rfl, rfl, rfl, rfl⟩)

theorem socketpair_tells {domain : Nat} {ty : UInt32} (h : Tells W k₀ k) (hfresh : Fresh k) :
    Quiet W k₀ (socketpair env l domain ty) k := by
  simp only [Quiet, socketpair, wp_bind, wp_ite, wp_throw]
  refine ⟨fun _ => h, fun _ => ⟨fun _ => h, fun _ => ?_⟩⟩
  refine wp_mono (connNew_tells h hfresh) (fun c k' hc => ?_) fun _ _ h => h
  rw [wp_bind, wp_onError]
  refine wp_install (fun a _ _ => ?_) (hc.trans (dropRefs_tells env hok _ _))
  rw [wp_bind, wp_onError]
  refine wp_install (fun b _ _ => (hc.same (setFd_same _)).same (setFd_same _)) ?_
  exact ((hc.same (setFd_same _)).same (setFd_same _)).trans (dropRefs_tells env hok _ _)

end

/-! ### Sockets -/

theorem unixKey_same {a : SockAddr} {create : Bool} :
    wp (unixKey env l a create) (fun _ k' => Same k k') (fun _ k' => Same k k') k := by
  cases a with
  | inet _ _ => exact .refl k
  | abstract name => exact .refl k
  | path p =>
      simp only [unixKey, wp_bind, wp_get]
      split
      · split
        · exact vol_same _
        · simp only [wp_bind, wp_set, wp_ite, wp_throw]
          refine ⟨fun _ => wp_below (fun ino v => ?_) fun _ _ => vol_same _, fun _ => vol_same _⟩
          rw [wp_bind]
          refine wp_below (fun sock v => ?_) fun _ _ => vol_same _
          simp only [wp_bind, wp_get, wp_ite, wp_pure, wp_throw]
          exact ⟨fun _ => vol_same _, fun _ => vol_same _⟩
      · rw [wp_bind]
        refine wp_below (fun ino v => ?_) fun _ _ => vol_same _
        rw [wp_bind]
        refine wp_below (fun sock v => ?_) fun _ _ => vol_same _
        simp only [wp_ite, wp_pure, wp_throw]
        exact ⟨fun _ => vol_same _, fun _ => vol_same _⟩

theorem bind_tells {sa : SockAddr} (h : Tells W k₀ k) : Quiet W k₀ (bind env l fd sa) k := by
  simp only [Quiet, bind, wp_bind]
  refine wp_getFd (fun _ => ?_) h
  rw [wp_ite]
  refine ⟨fun _ => ?_, fun _ => ?_⟩
  · simp only [wp_bind, wp_get, wp_ite, wp_throw]
    refine ⟨fun _ => h, fun _ => wp_mono unixKey_same (fun key k' hk => ?_) fun _ _ hk => h.same hk⟩
    exact (h.same hk).same ⟨rfl, rfl, rfl, rfl, rfl, rfl, rfl⟩
  · cases sa with
    | path _ | abstract _ => exact h
    | inet lo port =>
        simp only [wp_bind, wp_ite, wp_throw, wp_modify, wp_pure]
        exact ⟨fun _ => h, fun _ => ⟨fun _ => h.same ⟨rfl, rfl, rfl, rfl, rfl, rfl, rfl⟩,
          fun _ => h.same ⟨rfl, rfl, rfl, rfl, rfl, rfl, rfl⟩⟩⟩

theorem filesToSend_same : ∀ (fds : List Nat),
    wp (filesToSend l fds) (fun _ k' => k' = k) (fun _ k' => k' = k) k
  | [] => rfl
  | fd :: fds => by
      simp only [filesToSend, wp_bind]
      refine wp_getFd (fun _ => ?_) rfl
      rw [wp_bind]
      exact wp_mono (filesToSend_same fds) (fun _ _ h => h) fun _ _ h => h

section

variable (hok : ∀ w, W w → w.Ok)
include hok

theorem listen_tells (h : Tells W k₀ k) : Quiet W k₀ (listen env l fd) k := by
  simp only [Quiet, listen, wp_bind]
  refine wp_getFd (fun _ => ?_) h
  simp only [wp_ite, wp_pure, wp_bind, wp_get, wp_throw]
  have finish : ∀ {k : K V} {key : SockKey} {packet : Bool} {f : OpenFile}, Tells W k₀ k →
      wp (unixListen key packet) (fun li k' => Tells W k₀
        (replaceFd env l (fd % 2 ^ 32) { f with kind := .listen, ino := li } f k'))
        (fun _ k' => Tells W k₀ k') k := fun h =>
    wp_mono (unixListen_tells h) (fun _ _ h => (tells_along hok).replaceFd h _) fun _ _ h => h
  refine ⟨fun _ => h, fun _ => ⟨fun _ => ⟨fun _ => h, fun _ => finish h⟩,
    fun _ => ⟨fun _ => ?_, fun _ => h⟩⟩⟩
  simp only [ensurePort, wp_bind, wp_get, wp_ite, wp_pure, wp_set]
  exact ⟨fun _ => finish h, fun _ => finish (h.same ⟨rfl, rfl, rfl, rfl, rfl, rfl, rfl⟩)⟩

theorem connect_tells {sa : SockAddr} (h : Tells W k₀ k) (hfresh : Fresh k) :
    Quiet W k₀ (connect env l fd sa) k := by
  simp only [Quiet, connect, wp_bind]
  refine wp_getFd (fun _ => ?_) h
  rw [wp_bind, wp_get, wp_ite]
  refine ⟨fun _ => ?_, fun _ => ?_⟩
  · rw [wp_bind]
    refine wp_mono unixKey_same (fun key k₁ h₁ => ?_) fun _ _ hk => h.same hk
    have hfresh₁ : Fresh k₁ := by unfold Fresh; rw [h₁.conns]; exact hfresh
    rw [wp_bind]
    refine wp_mono (unixConnect_tells (h.same h₁) hfresh₁) (fun c k₂ h₂ => ?_) fun _ _ h => h
    exact (tells_along hok).replaceFd h₂ _
  · cases sa with
    | path _ | abstract _ => exact h
    | inet lo port =>
        simp only [wp_bind, wp_ite, wp_throw, wp_set]
        refine ⟨fun _ => ?_, fun _ => ⟨fun _ => h, fun _ => ?_⟩⟩
        · refine wp_mono (unixConnect_tells h hfresh) (fun c k₁ h₁ => ?_) fun _ _ h => h
          simp only [wp_bind, wp_modify, wp_pure]
          refine (tells_along hok).replaceFd
            ((h₁.same (vol_same _)).trans (setConn_still fun w _ _ hx => ?_)) _
          cases w <;> exact hx
        · split <;> exact h.same ⟨rfl, rfl, rfl, rfl, rfl, rfl, rfl⟩

theorem accept_tells {flags : UInt32} (h : Tells W k₀ k) :
    Waits W k₀ (accept env l fd flags) k := by
  simp only [Waits, accept, wp_bind]
  refine wp_getFd (fun _ => ?_) (Or.inl h)
  simp only [wp_ite, wp_bind, wp_throw]
  refine ⟨fun _ => Or.inl h, fun _ => wp_mono (unixAccept_tells h) (fun c k' hc => ?_) fun _ _ h => h⟩
  rw [wp_onError]
  exact wp_install (fun _ _ _ => hc.same (setFd_same _)) (Or.inl (hc.trans (dropRef_tells env hok _ _)))

theorem unixSend_tells {src : Nat → UInt8} {len : Nat} {fds : List Nat} {nonblock : Bool}
    (h : Tells W k₀ k) : Waits W k₀ (unixSend env l fd src len fds nonblock) k := by
  simp only [Waits, unixSend, wp_bind]
  refine wp_getFd (fun _ => ?_) (Or.inl h)
  simp only [wp_ite, wp_bind, wp_throw]
  refine ⟨fun _ => Or.inl h, fun _ => ⟨fun _ => Or.inl h, fun _ => ?_⟩⟩
  refine wp_mono (filesToSend_same fds) (fun fs k' hfs => ?_) fun _ k' hk' => Or.inl (hk' ▸ h)
  subst hfs
  simp only [wp_bind, wp_modify, wp_onError]
  refine wp_mono (unixWrite_tells (h.trans (addRefs_tells fs k')) (mod_two_lt _)) (fun _ _ h => h)
    fun _ k' h => ?_
  exact h.imp (fun h => h.trans (dropRefs_tells env hok fs k')) fun h =>
    h.then (dropRefs_tells env (fun _ h => h) fs k')

/-- The writer that a read of `fd` at this moment would not tell. -/
def ReadMutes (k : K V) (l fd : Nat) (w : Wait) : Prop :=
  let f := k.fds l (fd % 2 ^ 32)
  f.kind = .unix ∧ ((k.conns (f.ino / 2)).q (f.ino % 2)).len ≠ 0 ∧
    ∃ n, w = .unixWrite (f.ino / 2) (1 - f.ino % 2) n

theorem unixRecv_tells {len room : Nat} {nonblock cloexec : Bool} (h : Tells W k₀ k)
    (hW : ∀ w, W w → ¬ ReadMutes k l fd w) :
    Waits W k₀ (unixRecv env l fd len nonblock cloexec room) k := by
  simp only [Waits, unixRecv, wp_bind]
  refine wp_getFd (fun _ => ?_) (Or.inl h)
  simp only [wp_ite, wp_bind, wp_throw]
  refine ⟨fun _ => Or.inl h, fun hk => ?_⟩
  refine wp_mono (unixRead_tells h hok (mod_two_lt _) fun hz n hn => ?_) (fun r k' hr => ?_)
    fun _ _ h => h
  · exact hW _ hn ⟨not_not.mp hk, hz, n, rfl⟩
  · exact (tells_along hok).receiveFiles _ _ hr

theorem unixReadPlain_tells {len : Nat} {nonblock : Bool} (h : Tells W k₀ k)
    (hW : ((k.conns (f.ino / 2)).q (f.ino % 2)).len ≠ 0 →
      ∀ n, ¬ W (.unixWrite (f.ino / 2) (1 - f.ino % 2) n)) :
    Waits W k₀ (unixReadPlain env f len nonblock) k := by
  simp only [Waits, unixReadPlain, wp_bind]
  exact wp_mono (unixRead_tells h hok (mod_two_lt _) hW)
    (fun r k' hr => hr.trans (dropRefs_tells env hok _ _)) fun _ _ h => h

theorem transfer_tells {g : OpenFile} {w : Bool} {len : Nat} {pos : Option Nat} {p : Prop}
    [Decidable p] {r : Nat → α} (h : Tells W k₀ k) :
    Waits W k₀ (do
      let x ← below (env.transfer g w len)
      modify (if p then id else moveOff l fd pos x.2)
      pure (r x.1)) k := Quiet.waits ((tells_along hok).transfer h)

theorem read_tells {len : Nat} {pos : Option Nat} (h : Tells W k₀ k)
    (hW : ∀ w, W w → ¬ ReadMutes k l fd w) : Waits W k₀ (read env l fd len pos) k := by
  simp only [Waits, read, wp_bind]
  refine wp_getFd (fun _ => ?_) (Or.inl h)
  split
  case h_6 => exact wp_ite.mpr ⟨fun _ => Or.inl h, fun _ => transfer_tells hok h⟩
  case h_10 => exact wp_ite.mpr ⟨fun _ => Or.inl h, fun _ => pipeRead_tells h⟩
  case h_11 hk => exact unixReadPlain_tells hok h fun hz n hn => hW _ hn ⟨hk, hz, n, rfl⟩
  case h_12 => exact eventRead_tells h
  all_goals first | exact h | exact Or.inl h | exact transfer_tells hok h

theorem write_tells {src : Nat → UInt8} {len : Nat} {pos : Option Nat} (h : Tells W k₀ k) :
    Waits W k₀ (write env l fd src len pos) k := by
  simp only [Waits, write, wp_bind]
  refine wp_getFd (fun _ => ?_) (Or.inl h)
  split
  case h_7 => exact wp_ite.mpr ⟨fun _ => Or.inl h, fun _ => transfer_tells hok (r := fun n => n) h⟩
  case h_10 => exact wp_ite.mpr ⟨fun _ => Or.inl h, fun _ => pipeWrite_tells h⟩
  case h_11 => exact unixWrite_tells h (mod_two_lt _)
  case h_12 => exact (eventWrite_tells h).waits
  all_goals first | exact h | exact Or.inl h | exact transfer_tells hok (r := fun n => n) h

end

theorem shutdown_tells {how : Nat} (h : Tells W k₀ k) : Quiet W k₀ (shutdown l fd how) k := by
  simp only [Quiet, shutdown, wp_bind]
  refine wp_getFd (fun _ => ?_) h
  split
  · exact h.trans (unixShutdown_tells _ _)
  all_goals exact h

/-! ### Calls -/

/-- The waits a call may end without pushing their key. -/
def Call.Mutes (k : K V) (l : Nat) : Call → Wait → Prop
  | .read fd _ _, w => ReadMutes k l fd w
  | .recv fd _ _ _ _, w => ReadMutes k l fd w
  | .eventfd init _, w => init ≠ 0 ∧ ∃ i, (k.events i).used = false ∧ w = .eventRead i
  | _, _ => False

/-- **A call tells** everybody whose wait it ends but those it mutes, and if it has to wait itself,
it says for what. -/
theorem call_tells (env : Env V) {c : Call} (ht : Tidy k) :
    Waits (fun w => w.Ok ∧ ¬ c.Mutes k l w) k (c.run env l) k := by
  set W : Wait → Prop := fun w => w.Ok ∧ ¬ c.Mutes k l w with hWdef
  have hok : ∀ w, W w → w.Ok := fun _ hw => hw.1
  have h : Tells W k k := .refl k
  cases c with
  | openAt at' t flags => exact Quiet.call ((tells_along hok).openAt h)
  | pipe flags => exact Quiet.call (pipe_tells hok ht)
  | read fd len pos => exact wp_discard.mpr (read_tells hok h fun _ hw => hw.2)
  | write fd src len pos => exact wp_discard.mpr (write_tells hok h)
  | close fd => exact Quiet.call ((tells_along hok).close h)
  | dup fd newfd cloexec => exact Quiet.call ((tells_along hok).dupEx h)
  | eventfd init flags =>
      refine Quiet.call (eventfd_tells hok h fun i hi hz hw => ?_)
      exact hw.2 ⟨hz, i, hi, rfl⟩
  | epollCreate flags => exact Quiet.call ((tells_along hok).epollCreate h)
  | socket domain ty => exact Quiet.call (socket_tells hok h)
  | socketpair domain ty =>
      exact Quiet.call (socketpair_tells hok h ht.fresh)
  | bind fd sa => exact Quiet.call (bind_tells h)
  | listen fd => exact Quiet.call (listen_tells hok h)
  | connect fd sa => exact Quiet.call (connect_tells hok h ht.fresh)
  | accept fd flags => exact wp_discard.mpr (accept_tells hok h)
  | send fd src len fds nonblock => exact wp_discard.mpr (unixSend_tells hok h)
  | recv fd len nonblock cloexec room => exact wp_discard.mpr (unixRecv_tells hok h fun _ hw => hw.2)
  | shutdown fd how => exact Quiet.call (shutdown_tells h)
  | memfd cloexec => exact Quiet.call ((tells_along hok).memfd h)
  | shmUnlink name => exact Quiet.call ((tells_along hok : Along env _).shmUnlink h)
  | mapShm fd => exact Quiet.waits ((tells_along hok : Along env _).mapShm h)
  | unmapShm id => exact Quiet.waits ((tells_along hok : Along env _).unmapShm h)
  | mapAnon => exact Quiet.waits ((tells_along hok : Along env _).mapAnon h)
  | fork dst => exact (tells_along hok : Along env _).cloneTable _ _ k
  | exec => exact (tells_along hok).execCleanupFrom _ k
  | exit => exact (tells_along hok).release k

end Pulsar.Kernel

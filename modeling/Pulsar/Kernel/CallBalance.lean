import Pulsar.Kernel.UnixBalance

/-!
# References balance: transfers, new objects, sockets

Each call settles the account, normally or with an error halfway.
-/

namespace Pulsar.Kernel

variable {V : Type} {s : Bool} {env : Env V} {k : K V} {ex : List OpenFile} {f : OpenFile} {l fd : Nat}

/-- What a descriptor names has a counter above zero. -/
theorem Bal.named (h : Bal s k ex) (hl : l < MAX_PROCS) (hfd : fd < MAX_FDS) {X : Obj}
    (hX : (k.fds l fd).obj = some X) (hct : X.Counted s) : 0 < k.refs X := by
  have := held_pos hl hfd hX
  have := h.count X hct
  omega

/-- The connection a descriptor names is in use. -/
theorem Bal.conn_used (h : Bal s k ex) (hl : l < MAX_PROCS) (hfd : fd < MAX_FDS)
    (hk : (k.fds l fd).kind = .unix) : (k.conns ((k.fds l fd).ino / 2)).used = true :=
  h.tidy.conn_used (e := (k.fds l fd).ino % 2) (h.named hl hfd (by simp [OpenFile.obj, hk]) trivial)

theorem mod_two_lt (n : Nat) : n % 2 < 2 := Nat.mod_lt _ (by decide)

/-! ### Transfers -/

theorem pipeRead_bal {flags : UInt32} {i len : Nat} (h : Bal s k ex) :
    Settles s (pipeRead flags i len) ex k := by
  simp only [Settles, pipeRead, wp_bind, wp_get, wp_set, wp_ite, wp_pure, wp_throw, wp_wouldBlock]
  refine ⟨fun _ => ⟨fun _ => h, fun _ => ⟨fun _ => h, fun _ => ?_⟩⟩, fun _ => ?_⟩
  · exact h.same rfl rfl rfl rfl rfl rfl rfl rfl rfl rfl
  · apply pushWake_bal
    exact touchPipe_bal h rfl rfl rfl

theorem pipeWrite_bal {flags : UInt32} {i len : Nat} {src : Nat → UInt8} (h : Bal s k ex) :
    Settles s (pipeWrite flags i src len) ex k := by
  simp only [Settles, pipeWrite, wp_bind, wp_get, wp_set, wp_ite, wp_pure, wp_throw, wp_wouldBlock]
  refine ⟨fun _ => h, fun _ => ⟨fun _ => ⟨fun _ => h, fun _ => ?_⟩, fun _ => ?_⟩⟩
  · exact h.same rfl rfl rfl rfl rfl rfl rfl rfl rfl rfl
  · apply pushWake_bal
    exact touchPipe_bal h rfl rfl rfl

/-- Another count in an eventfd. -/
theorem touchEvent_bal {i : Nat} (h : Bal s k ex) (n : Nat) :
    Bal s (k.setEvent i { k.events i with count := n }) ex := by
  refine ⟨fun X hct => ?_, h.tidy.setEvent (h.tidy.event i)⟩
  have hrefs : (k.setEvent i { k.events i with count := n }).refs X = k.refs X := by
    rw [refs_setEvent]
    split
    · rename_i e; subst e; rfl
    · rfl
  rw [hrefs]
  exact h.count X hct

theorem eventRead_bal {flags : UInt32} {i len : Nat} (h : Bal s k ex) :
    Settles s (eventRead flags i len) ex k := by
  simp only [Settles, eventRead, wp_bind, wp_get, wp_set, wp_ite, wp_pure, wp_throw, wp_wouldBlock]
  refine ⟨fun _ => h, fun _ => ⟨fun _ => ⟨fun _ => h, fun _ => ?_⟩, fun _ => ?_⟩⟩
  · exact h.same rfl rfl rfl rfl rfl rfl rfl rfl rfl rfl
  · exact pushWake_bal (touchEvent_bal h _) _

theorem eventWrite_bal {i len : Nat} {src : Nat → UInt8} (h : Bal s k ex) :
    Settles s (eventWrite i src len) ex k := by
  simp only [Settles, eventWrite, wp_bind, wp_ite, wp_pure, wp_throw, wp_modify]
  exact ⟨fun _ => h, fun _ => ⟨fun _ => h, fun _ => pushWake_bal (touchEvent_bal h _) _⟩⟩

/-! ### New objects with a descriptor -/

theorem eventfd_bal {init : Nat} {flags : UInt32} (hl : l < MAX_PROCS) (h : Bal s k ex) :
    Settles s (eventfd env l init flags) ex k := by
  simp only [Settles, eventfd, wp_bind, wp_get]
  refine wp_position (fun i _ hfree => ?_) h
  exact installNew_bal env hl (newEvent_bal h (by simpa using hfree) rfl)

theorem epollCreate_bal {flags : UInt32} (hl : l < MAX_PROCS) (h : Bal s k ex) :
    Settles s (epollCreate env l flags) ex k := by
  simp only [Settles, epollCreate, wp_bind, wp_get]
  refine wp_position (fun i _ hfree => ?_) h
  exact installNew_bal env hl (newEpoll_bal h (by simpa using hfree) rfl)

theorem socket_bal {domain : Nat} {ty : UInt32} (hl : l < MAX_PROCS) (h : Bal s k ex) :
    Settles s (socket env l domain ty) ex k := by
  simp only [Settles, socket, wp_bind, wp_get, wp_ite, wp_throw]
  refine ⟨fun _ => ⟨fun _ => h, fun _ => wp_position (fun i _ hfree => ?_) h⟩,
    fun _ => ⟨fun _ => h, fun _ => ⟨fun _ => h, fun _ => wp_position (fun i _ hfree => ?_) h⟩⟩⟩
  · exact installNew_bal env hl (newUSock_bal h (by simpa using hfree) rfl)
  · exact installNew_bal env hl (newSock_bal h (by simpa using hfree) rfl)

theorem openProc_bal {pages len : Nat} {flags : UInt32} (hl : l < MAX_PROCS) (h : Bal s k ex) :
    Settles s (openProc env l pages len flags) ex k := by
  simp only [Settles, openProc, wp_bind]
  refine wp_allocContig ?_ (h.asked _)
  simp only [wp_bind, wp_get]
  refine wp_position (fun i _ hfree => ?_) (h.asked _)
  exact installNew_bal env hl (newMem_bal (h.asked _) (by simpa using hfree) (Nat.succ_pos _) rfl)

section

variable {i : Nat} (fr fw : OpenFile) (hr : fr.obj = some (.pipeR i)) (hw : fw.obj = some (.pipeW i))
include hr hw

theorem newPipe_bal {buf : Nat} (h : Bal s k ex) (hfree : (k.pipes i).buf = 0) (hb : 0 < buf) :
    Bal s (k.setPipe i ⟨buf, fun _ => 0, 0, 0, 1, 1⟩) (fr :: fw :: ex) := by
  obtain ⟨hr₀, hw₀⟩ := (h.tidy.pipe i).mp hfree
  refine setPipe_bal h (by simp; omega) ?_ ?_ fun X hR hW => ?_
  · simp [countOf_cons, hr, hw, hr₀]; omega
  · simp [countOf_cons, hr, hw, hw₀]; omega
  · simp [countOf_cons, hr, hw, Ne.symm hR, Ne.symm hW]

/-- The pipe is given up before it has a descriptor. -/
theorem freePipe_bal {p : Pipe} (h : Bal s k (fr :: fw :: ex)) (hr₁ : (k.pipes i).readers = 1)
    (hw₁ : (k.pipes i).writers = 1) (hb : p.buf = 0) (hr₀ : p.readers = 0) (hw₀ : p.writers = 0) :
    Bal s (k.setPipe i p) ex := by
  refine setPipe_bal h (iff_of_true hb ⟨hr₀, hw₀⟩) ?_ ?_ fun X hR hW => ?_
  · simp [countOf_cons, hr, hw, hr₀, hr₁]; omega
  · simp [countOf_cons, hr, hw, hw₀, hw₁]; omega
  · simp [countOf_cons, hr, hw, Ne.symm hR, Ne.symm hW]

/-- The pipe's writing side is given up before it has a descriptor. -/
theorem noWriter_bal (h : Bal s k (fr :: fw :: ex)) (hw₁ : (k.pipes i).writers = 1) :
    Bal s (k.setPipe i { k.pipes i with writers := 0 }) (fr :: ex) := by
  have hr₁ : 0 < (k.pipes i).readers := h.pos hr trivial
  have := h.tidy.pipe i
  refine setPipe_bal h (by simp only; omega) ?_ ?_ fun X hR hW => ?_
  · simp [countOf_cons, hr, hw]
  · simp [countOf_cons, hr, hw, hw₁]; omega
  · simp [countOf_cons, hw, Ne.symm hW]

end

/-- **A pipe** is two objects in one slot, given up one after the other when a descriptor is
missing. -/
theorem pipe_bal {flags : UInt32} (hl : l < MAX_PROCS) (h : Bal s k ex) :
    Settles s (pipe env l flags) ex k := by
  simp only [Settles, pipe, wp_bind, wp_get]
  refine wp_position (fun i _ hfree => ?_) h
  rw [wp_bind]
  refine wp_allocContig ?_ (h.asked _)
  simp only [wp_bind, wp_modify, wp_onError]
  have h₁ := newPipe_bal (i := i) (openOn .pipeR i (flags &&& O_NONBLOCK) (has flags O_CLOEXEC))
    (openOn .pipeW i (flags &&& O_NONBLOCK ||| O_WRONLY) (has flags O_CLOEXEC)) rfl rfl
    (h.asked (k.asked + 1)) (by simpa using hfree) (Nat.succ_pos k.asked)
  have hself : ∀ (k : K V) p, (k.setPipe i p).pipes i = p := fun k p => by simp [K.setPipe]
  refine wp_install (fun r hr hrfree => ?_) ?_
  · rw [wp_bind, wp_onError]
    have h₂ := setFd_free_bal hl hr hrfree h₁
    refine wp_install (fun w hw hwfree => setFd_free_bal hl hw hwfree h₂) ?_
    have h₃ := takeFd_bal hl hr h₂
    rw [show ∀ k : K V, ∀ f, (k.setFd l r f).fds l r = f from fun k f => by simp [K.setFd]] at h₃
    refine dropRef_bal env (noWriter_bal _ _ rfl rfl h₃ ?_)
    exact congrArg Pipe.writers (hself _ _)
  · exact freePipe_bal _ _ rfl rfl h₁ (congrArg Pipe.readers (hself _ _))
      (congrArg Pipe.writers (hself _ _)) rfl rfl rfl

/-! ### Sockets -/

theorem socketpair_bal {domain : Nat} {ty : UInt32} (hl : l < MAX_PROCS) (h : Bal s k ex) :
    Settles s (socketpair env l domain ty) ex k := by
  simp only [Settles, socketpair, wp_bind, wp_ite, wp_throw]
  refine ⟨fun _ => h, fun _ => ⟨fun _ => h, fun _ => ?_⟩⟩
  refine wp_mono (connNew_bal h) (fun c k' hc => ?_) fun _ _ h => h
  have h₁ := hc.1
  have hobj : ∀ e fl b, (openOn .unix (c * 2 + e) fl b).obj = (unixEnd c e).obj := fun _ _ _ => rfl
  simp only [wp_bind, wp_onError]
  have h₁' := h₁.rename (hobj 0 (sockFlags ty) (has ty O_CLOEXEC))
  refine wp_install (fun a ha hafree => ?_) (dropRefs_bal env [_, _] h₁)
  have h₂ := setFd_free_bal hl ha hafree h₁'
  rw [wp_bind, wp_onError]
  have h₂' := h₂.rename (hobj 1 (sockFlags ty) (has ty O_CLOEXEC))
  refine wp_install (fun b hb hbfree => setFd_free_bal hl hb hbfree h₂') ?_
  have h₃ := takeFd_bal hl ha h₂
  rw [show ∀ k : K V, ∀ f, (k.setFd l a f).fds l a = f from fun k f => by simp [K.setFd]] at h₃
  exact dropRefs_bal env [_, _] (h₃.rename rfl)

/-- Resolving an address changes the volume at most. -/
theorem unixKey_bal {a : SockAddr} {create : Bool} (h : Bal s k ex) :
    wp (unixKey env l a create) (fun _ k' => Bal s k' ex ∧ k'.fds = k.fds) (fun _ k' => Bal s k' ex) k := by
  have hvol : ∀ v : V, Bal s { k with vol := v } ex := h.vol
  cases a with
  | inet _ _ => exact h
  | abstract name => exact ⟨h, rfl⟩
  | path p =>
      simp only [unixKey, wp_bind, wp_get]
      split
      · split
        · exact ⟨hvol _, rfl⟩
        · simp only [wp_bind, wp_set, wp_ite, wp_throw]
          refine ⟨fun _ => wp_below (fun ino v => ?_) fun _ _ => hvol _, fun _ => hvol _⟩
          rw [wp_bind]
          refine wp_below (fun sock v => ?_) fun _ _ => hvol _
          simp only [wp_bind, wp_get, wp_ite, wp_pure, wp_throw]
          exact ⟨fun _ => ⟨hvol _, trivial⟩, fun _ => hvol _⟩
      · rw [wp_bind]
        refine wp_below (fun ino v => ?_) fun _ _ => hvol _
        rw [wp_bind]
        refine wp_below (fun sock v => ?_) fun _ _ => hvol _
        simp only [wp_ite, wp_pure, wp_throw]
        exact ⟨fun _ => ⟨hvol _, trivial⟩, fun _ => hvol _⟩

/-- Another address, or another state of the network part, of a socket. -/
theorem touchSock_bal {i : Nat} {n : SockNet} (h : Bal s k ex) :
    Bal s (k.setSock i { k.socks i with net := n }) ex := by
  refine ⟨fun X hct => ?_, h.tidy.setSock (h.tidy.sock i)⟩
  have hrefs : (k.setSock i { k.socks i with net := n }).refs X = k.refs X := by
    rw [refs_setSock]
    split
    · rename_i e; subst e; rfl
    · rfl
  rw [hrefs]
  exact h.count X hct

theorem touchUSock_bal {i : Nat} {key : SockKey} (h : Bal s k ex) :
    Bal s (k.setUSock i { k.usocks i with key := key }) ex := by
  refine ⟨fun X hct => ?_, h.tidy.setUSock (h.tidy.uSock i)⟩
  have hrefs : (k.setUSock i { k.usocks i with key := key }).refs X = k.refs X := by
    rw [refs_setUSock]
    split
    · rename_i e; subst e; rfl
    · rfl
  rw [hrefs]
  exact h.count X hct

theorem bind_bal {sa : SockAddr} (h : Bal s k ex) : Settles s (bind env l fd sa) ex k := by
  simp only [Settles, bind, wp_bind]
  refine wp_getFd (fun hfd => ?_) h
  rw [wp_ite]
  refine ⟨fun _ => ?_, fun _ => ?_⟩
  · simp only [wp_bind, wp_get, wp_ite, wp_throw]
    refine ⟨fun _ => h, fun _ => wp_mono (unixKey_bal h) (fun key k' hk => ?_) fun _ _ h => h⟩
    exact touchUSock_bal hk.1
  · cases sa with
    | path _ | abstract _ => exact h
    | inet lo port =>
        simp only [wp_bind, wp_ite, wp_throw, wp_modify, wp_pure]
        exact ⟨fun _ => h, fun _ => ⟨fun _ => touchSock_bal h, fun _ => (touchSock_bal h).vol _⟩⟩

theorem ensurePort_bal {i : Nat} (h : Bal s k ex) :
    wp (ensurePort env i) (fun _ k' => Bal s k' ex ∧ k'.fds = k.fds) (fun _ k' => Bal s k' ex) k := by
  simp only [ensurePort, wp_bind, wp_get, wp_ite, wp_pure, wp_set]
  exact ⟨fun _ => ⟨h, trivial⟩, fun _ => ⟨(touchSock_bal h).vol _, rfl⟩⟩

theorem listen_bal (hl : l < MAX_PROCS) (h : Bal s k ex) : Settles s (listen env l fd) ex k := by
  simp only [Settles, listen, wp_bind]
  refine wp_getFd (fun hfd => ?_) h
  set f := k.fds l (fd % 2 ^ 32) with hf
  -- the listener's first name takes the descriptor's place
  have finish : ∀ {k₁ : K V} {key : SockKey} {packet : Bool}, Bal s k₁ ex → k₁.fds = k.fds →
      wp (unixListen key packet) (fun li k' => Bal s
        (replaceFd env l (fd % 2 ^ 32) { f with kind := .listen, ino := li } f k') ex)
        (fun _ k' => Bal s k' ex) k₁ := fun h₁ hfds => by
    refine wp_mono (unixListen_bal h₁) (fun li k' hk => ?_) fun _ _ h => h
    exact replaceFd_bal env hl hfd (by rw [hk.1, hfds]) (hk.2 _ rfl)
  simp only [wp_ite, wp_pure, wp_bind, wp_get, wp_throw]
  refine ⟨fun _ => h, fun _ => ⟨fun _ => ⟨fun _ => h, fun _ => finish h rfl⟩,
    fun _ => ⟨fun _ => ?_, fun _ => h⟩⟩⟩
  refine wp_mono (ensurePort_bal h) (fun port k' hk => ?_) fun _ _ h => h
  rw [wp_bind]
  exact finish hk.1 hk.2

/-- The client's end of a new connection takes the descriptor's place. -/
theorem connectAs_bal {c : Nat} {k' : K V} (hl : l < MAX_PROCS) (hfd : fd % 2 ^ 32 < MAX_FDS)
    (hfds : k'.fds l (fd % 2 ^ 32) = f) (h : Bal s k' (unixEnd c 0 :: ex)) :
    Bal s (replaceFd env l (fd % 2 ^ 32) { f with kind := .unix, ino := c * 2 } f k') ex :=
  replaceFd_bal env hl hfd hfds (h.rename (by simp [OpenFile.obj, unixEnd]))

theorem connect_bal {sa : SockAddr} (hl : l < MAX_PROCS) (h : Bal s k ex) :
    Settles s (connect env l fd sa) ex k := by
  simp only [Settles, connect, wp_bind]
  refine wp_getFd (fun hfd => ?_) h
  rw [wp_bind, wp_get, wp_ite]
  refine ⟨fun _ => ?_, fun _ => ?_⟩
  · rw [wp_bind]
    refine wp_mono (unixKey_bal h) (fun key k₁ h₁ => ?_) fun _ _ h => h
    rw [wp_bind]
    refine wp_mono (unixConnect_bal h₁.1) (fun c k₂ h₂ => ?_) fun _ _ h => h
    simp only [wp_bind, wp_modify, wp_pure]
    exact connectAs_bal hl hfd (by rw [h₂.2.1, h₁.2]) h₂.1
  · cases sa with
    | path _ | abstract _ => exact h
    | inet lo port =>
        simp only [wp_bind, wp_ite, wp_throw, wp_set]
        refine ⟨fun _ => ?_, fun _ => ⟨fun _ => h, fun _ => ?_⟩⟩
        · refine wp_mono (unixConnect_bal h) (fun c k₁ h₁ => ?_) fun _ _ h => h
          simp only [wp_bind, wp_modify, wp_pure]
          obtain ⟨hbal, hfds, hused⟩ := h₁
          refine connectAs_bal hl hfd (by simp only [K.setConn]; rw [hfds]) ?_
          exact touchConn_bal (hbal.vol _) hused hused rfl rfl
        · split
          · exact (touchSock_bal h).vol _
          · exact (touchSock_bal h).vol _

theorem accept_bal {flags : UInt32} (hl : l < MAX_PROCS) (h : Bal s k ex) :
    Settles s (accept env l fd flags) ex k := by
  simp only [Settles, accept, wp_bind]
  refine wp_getFd (fun hfd => ?_) h
  simp only [wp_ite, wp_bind, wp_throw]
  refine ⟨fun _ => h, fun _ => wp_mono (unixAccept_bal h) (fun c k' hc => ?_) fun _ _ h => h⟩
  rw [wp_onError]
  exact wp_mono (install_bal hl (hc.rename rfl)) (fun _ _ h => h)
    fun _ _ h => dropRef_bal env (h.rename rfl)

end Pulsar.Kernel

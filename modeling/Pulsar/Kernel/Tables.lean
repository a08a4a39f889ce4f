import Pulsar.Kernel.CallTells

/-!
# The tables of descriptors

`Grows l X k₀ k` says what a call by the process of slot `l` does to the tables: the other tables
stay, and in its own no number becomes free but those in `X`.

* `call_grows`: every call but `fork` does so, for the numbers it is told to close.
* `fork_fds`: `fork` writes one other table.
-/

namespace Pulsar.Kernel

variable {V α : Type} {env : Env V} {k k' k₀ : K V} {l fd i c e : Nat} {f : OpenFile}
  {X : Nat → Prop}

/-- Only table `l` has changed, and there only numbers in `X` have become free. -/
structure Grows (l : Nat) (X : Nat → Prop) (k₀ k : K V) : Prop where
  others : ∀ l', l' ≠ l → k.fds l' = k₀.fds l'
  mine : ∀ fd, ¬ X fd → (k₀.fds l fd).kind ≠ .free → (k.fds l fd).kind ≠ .free

theorem Grows.refl (k : K V) : Grows l X k k := ⟨fun _ _ => rfl, fun _ _ h => h⟩

theorem Grows.fds (h : Grows l X k₀ k) (hf : k'.fds = k.fds) : Grows l X k₀ k' :=
  ⟨fun l' hl => by rw [hf]; exact h.others l' hl, fun fd hX hk => by rw [hf]; exact h.mine fd hX hk⟩

theorem setFd_fds_self (f : OpenFile) : (k.setFd l fd f).fds l fd = f := by simp [K.setFd]

theorem setFd_fds_of_ne {j : Nat} (h : j ≠ fd) (f : OpenFile) :
    (k.setFd l fd f).fds l j = k.fds l j := by simp [K.setFd, h]

/-- A number is written: with an open file, or one that may be freed. -/
theorem Grows.setFd (h : Grows l X k₀ k)
    (hf : ¬ X fd → (k₀.fds l fd).kind ≠ .free → f.kind ≠ .free) :
    Grows l X k₀ (k.setFd l fd f) where
  others l' hl := by
    rw [← h.others l' hl]
    exact Function.update_of_ne hl ..
  mine j hX hk := by
    by_cases e : j = fd
    · subst e
      rw [setFd_fds_self]
      exact hf hX hk
    · rw [setFd_fds_of_ne e]
      exact h.mine j hX hk

/-! ### What leaves the tables alone -/

theorem maybeFree_fds (id : Nat) (k : K V) : (maybeFree id k).fds = k.fds := by
  unfold maybeFree
  split
  · rfl
  · dsimp only
    split <;> rfl

theorem shmFdRef_fds (id : Nat) (d : Int) (k : K V) : (shmFdRef id d k).fds = k.fds := by
  unfold shmFdRef
  cases shmIdx k id with
  | none =>
      dsimp only
      split
      · exact maybeFree_fds id k
      · rfl
  | some i =>
      dsimp only
      split
      · exact maybeFree_fds id _
      · rfl

theorem shmMapRef_fds (id : Nat) (d : Int) (k : K V) : (shmMapRef id d k).fds = k.fds := by
  unfold shmMapRef
  cases shmIdx k id with
  | none =>
      dsimp only
      split
      · exact maybeFree_fds id k
      · rfl
  | some i =>
      dsimp only
      split
      · exact maybeFree_fds id _
      · rfl

theorem dropOne_fds (env : Env V) (f : OpenFile) (k : K V) : (dropOne env f k).2.fds = k.fds := by
  obtain ⟨kind, i, flags, cloexec, off⟩ := f
  cases kind with
  | pipeR | pipeW =>
      simp only [dropOne]
      rw [dropPipe_eq]
      split <;> simp [K.setPipe]
  | unix =>
      simp only [dropOne]
      rw [dropEnd_eq]
      dsimp only [endWakes]
      split <;> simp [K.setConn]
  | shm => exact shmFdRef_fds i (-1) k
  | listen => simp only [dropOne, dropListener]; split <;> rfl
  | file | dir => simp only [dropOne, afterClose]; split <;> rfl
  | sock => simp only [dropOne]; split <;> rfl
  | _ => rfl

theorem dropUpTo_fds (env : Env V) : ∀ (n : Nat) (fs : List OpenFile) (k : K V),
    (dropUpTo env n fs k).fds = k.fds
  | n, [], k => by unfold dropUpTo; rfl
  | 0, _ :: _, _ => rfl
  | n + 1, f :: fs, k => (dropUpTo_fds env n _ _).trans (dropOne_fds env f k)

theorem dropRefs_fds (env : Env V) (fs : List OpenFile) (k : K V) :
    (dropRefs env fs k).fds = k.fds := dropUpTo_fds env _ fs k

theorem dropRef_fds (env : Env V) (f : OpenFile) (k : K V) : (dropRef env f k).fds = k.fds :=
  dropRefs_fds env [f] k

/-! ### Programs -/

/-- The program grows table `l`, however it ends. -/
abbrev Grow (l : Nat) (X : Nat → Prop) (k₀ : K V) (x : Prog V α) (k : K V) : Prop :=
  wp x (fun _ k' => Grows l X k₀ k') (fun _ k' => Grows l X k₀ k') k

theorem Grow.discard {x : Prog V α} (h : Grow l X k₀ x k) : Grow l X k₀ (discard x) k :=
  wp_discard.mpr h

/-- The number taken was free. -/
theorem Grows.take (h : Grows l X k₀ k) (hfree : (k.fds l fd).kind = .free) (f : OpenFile) :
    Grows l X k₀ (k.setFd l fd f) :=
  h.setFd fun hX hk => absurd hfree (h.mine fd hX hk)

theorem install_grow {min : Nat} (h : Grows l X k₀ k) : Grow l X k₀ (install l f min) k :=
  wp_install (fun _ _ hfree => h.take hfree f) h

theorem installNew_grow (h : Grows l X k₀ k) : Grow l X k₀ (installNew env l f) k := by
  simp only [Grow, installNew, wp_onError]
  exact wp_mono (install_grow h) (fun _ _ h => h) fun _ _ h => h.fds (dropRef_fds env f _)

theorem pipeRead_grow {flags : UInt32} {len : Nat} (h : Grows l X k₀ k) :
    Grow l X k₀ (pipeRead flags i len) k := by
  simp only [Grow, pipeRead, wp_bind, wp_get, wp_set, wp_ite, wp_pure, wp_throw, wp_wouldBlock]
  exact ⟨fun _ => ⟨fun _ => h, fun _ => ⟨fun _ => h, fun _ => h.fds rfl⟩⟩,
    fun _ => h.fds (pushWake_fds _)⟩

theorem pipeWrite_grow {flags : UInt32} {src : Nat → UInt8} {len : Nat} (h : Grows l X k₀ k) :
    Grow l X k₀ (pipeWrite flags i src len) k := by
  simp only [Grow, pipeWrite, wp_bind, wp_get, wp_set, wp_ite, wp_pure, wp_throw, wp_wouldBlock]
  exact ⟨fun _ => h, fun _ => ⟨fun _ => ⟨fun _ => h, fun _ => h.fds rfl⟩,
    fun _ => h.fds (pushWake_fds _)⟩⟩

theorem eventRead_grow {flags : UInt32} {len : Nat} (h : Grows l X k₀ k) :
    Grow l X k₀ (eventRead flags i len) k := by
  simp only [Grow, eventRead, wp_bind, wp_get, wp_set, wp_ite, wp_pure, wp_throw, wp_wouldBlock]
  exact ⟨fun _ => h, fun _ => ⟨fun _ => ⟨fun _ => h, fun _ => h.fds rfl⟩,
    fun _ => h.fds (pushWake_fds _)⟩⟩

theorem eventWrite_grow {src : Nat → UInt8} {len : Nat} (h : Grows l X k₀ k) :
    Grow l X k₀ (eventWrite i src len) k := by
  simp only [Grow, eventWrite, wp_bind, wp_ite, wp_pure, wp_throw, wp_modify]
  exact ⟨fun _ => h, fun _ => ⟨fun _ => h, fun _ => h.fds (pushWake_fds _)⟩⟩

theorem unixRead_grow {len : Nat} {nonblock : Bool} (h : Grows l X k₀ k) :
    Grow l X k₀ (unixRead c e len nonblock) k := by
  simp only [Grow, unixRead, wp_bind, wp_get, wp_set, wp_ite, wp_pure, wp_throw, wp_wouldBlock]
  exact ⟨fun _ => ⟨fun _ => h, fun _ => ⟨fun _ => h, fun _ => h.fds rfl⟩⟩,
    fun _ => h.fds (pushWake_fds _)⟩

theorem unixWrite_grow {len : Nat} {src : Nat → UInt8} {nonblock : Bool} {fs : List OpenFile}
    (h : Grows l X k₀ k) : Grow l X k₀ (unixWrite c e src len nonblock fs) k := by
  simp only [Grow, unixWrite, wp_bind, wp_get, wp_set, wp_ite, wp_pure, wp_throw, wp_wouldBlock]
  exact ⟨fun _ => h, fun _ => ⟨fun _ => h, fun _ => ⟨fun _ => ⟨fun _ => h, fun _ => h.fds rfl⟩,
    fun _ => ⟨fun _ => h, fun _ => h.fds (pushWake_fds _)⟩⟩⟩⟩

theorem unixShutdown_fds (c e how : Nat) (k : K V) : (unixShutdown c e how k).fds = k.fds := by
  unfold unixShutdown
  dsimp only
  split_ifs <;> simp [K.setQueue, K.setConn]

theorem connNew_grow {packet : Bool} (h : Grows l X k₀ k) : Grow l X k₀ (connNew packet) k := by
  simp only [Grow, connNew, wp_bind, wp_get]
  refine wp_position (fun _ _ _ => ?_) h
  simp only [wp_bind]
  refine wp_allocContig ?_ (h.fds rfl)
  simp only [wp_bind]
  exact wp_allocContig (h.fds rfl) (h.fds rfl)

theorem unixListen_grow {key : SockKey} {packet : Bool} (h : Grows l X k₀ k) :
    Grow l X k₀ (unixListen key packet) k := by
  simp only [Grow, unixListen, wp_bind, wp_get, wp_ite, wp_throw]
  exact ⟨fun _ => h, fun _ => wp_position (fun _ _ _ => h.fds rfl) h⟩

theorem unixConnect_grow {key : SockKey} {packet : Bool} (h : Grows l X k₀ k) :
    Grow l X k₀ (unixConnect key packet) k := by
  simp only [Grow, unixConnect, wp_bind, wp_get]
  split
  · exact h
  · simp only [wp_bind, wp_ite, wp_throw]
    refine ⟨fun _ => h, fun _ => ⟨fun _ => h, fun _ => ?_⟩⟩
    exact wp_mono (connNew_grow h) (fun _ _ h => h.fds (pushWake_fds _)) fun _ _ h => h

theorem unixAccept_grow {nonblock : Bool} (h : Grows l X k₀ k) :
    Grow l X k₀ (unixAccept i nonblock) k := by
  simp only [Grow, unixAccept, wp_bind, wp_get]
  split
  · simp only [wp_ite, wp_throw, wp_wouldBlock]
    exact ⟨fun _ => h, fun _ => h.fds rfl⟩
  · exact h.fds rfl

theorem shmCreate_grow {name : Option (List UInt8)} (h : Grows l X k₀ k) :
    Grow l X k₀ (shmCreate name) k := by
  simp only [Grow, shmCreate, wp_bind, wp_get]
  exact wp_position (fun _ _ _ => h.fds rfl) h

/-! ### Calls that make descriptors -/

theorem pipe_grow {flags : UInt32} (h : Grows l X k₀ k) : Grow l X k₀ (pipe env l flags) k := by
  simp only [Grow, pipe, wp_bind, wp_get]
  refine wp_position (fun i _ _ => ?_) h
  simp only [wp_bind]
  refine wp_allocContig ?_ (h.fds rfl)
  simp only [wp_bind, wp_modify, wp_onError]
  set k₁ := K.setPipe { k with asked := k.asked + 1 } i ⟨k.asked + 1, fun _ => 0, 0, 0, 1, 1⟩
  have h₁ : Grows l X k₀ k₁ := h.fds rfl
  refine wp_install (fun r _ hr => ?_) (h₁.fds rfl)
  simp only [wp_bind, wp_onError]
  refine wp_install (fun w _ hw => ?_) ?_
  · exact (h₁.take hr _).take hw _
  · refine Grows.fds ?_ (dropRef_fds env _ _)
    refine Grows.fds (k := ((k₁.setFd l r _).setFd l r FREE)) ?_ rfl
    refine (h₁.take hr _).setFd fun hX hk => ?_
    exact absurd hr (h₁.mine r hX hk)

theorem eventfd_grow {init : Nat} {flags : UInt32} (h : Grows l X k₀ k) :
    Grow l X k₀ (eventfd env l init flags) k := by
  simp only [Grow, eventfd, wp_bind, wp_get]
  refine wp_position (fun i _ _ => ?_) h
  exact installNew_grow (h.fds rfl)

theorem epollCreate_grow {flags : UInt32} (h : Grows l X k₀ k) :
    Grow l X k₀ (epollCreate env l flags) k := by
  simp only [Grow, epollCreate, wp_bind, wp_get]
  refine wp_position (fun i _ _ => ?_) h
  exact installNew_grow (h.fds rfl)

theorem socket_grow {domain : Nat} {ty : UInt32} (h : Grows l X k₀ k) :
    Grow l X k₀ (socket env l domain ty) k := by
  simp only [Grow, socket, wp_bind, wp_get, wp_ite, wp_throw]
  refine ⟨fun _ => ⟨fun _ => h, fun _ => ?_⟩, fun _ => ⟨fun _ => h, fun _ => ⟨fun _ => h,
    fun _ => ?_⟩⟩⟩
  · refine wp_position (fun i _ _ => ?_) h
    exact installNew_grow (h.fds rfl)
  · refine wp_position (fun i _ _ => ?_) h
    exact installNew_grow (h.fds rfl)

theorem socketpair_grow {domain : Nat} {ty : UInt32} (h : Grows l X k₀ k) :
    Grow l X k₀ (socketpair env l domain ty) k := by
  simp only [Grow, socketpair, wp_bind, wp_ite, wp_throw]
  refine ⟨fun _ => h, fun _ => ⟨fun _ => h, fun _ => ?_⟩⟩
  refine wp_mono (connNew_grow h) (fun c k₁ h₁ => ?_) fun _ _ h => h
  simp only [wp_bind, wp_onError]
  refine wp_install (fun a _ ha => ?_) (h₁.fds (dropRefs_fds env _ _))
  simp only [wp_bind, wp_onError]
  refine wp_install (fun b _ hb => ?_) ?_
  · exact (h₁.take ha _).take hb _
  · refine Grows.fds ?_ (dropRefs_fds env _ _)
    refine (h₁.take ha _).setFd fun hX hk => ?_
    exact absurd ha (h₁.mine a hX hk)

theorem openProc_grow {pages len : Nat} {flags : UInt32} (h : Grows l X k₀ k) :
    Grow l X k₀ (openProc env l pages len flags) k := by
  simp only [Grow, openProc, wp_bind]
  refine wp_allocContig ?_ (h.fds rfl)
  simp only [wp_bind, wp_get]
  refine wp_position (fun i _ _ => ?_) (h.fds rfl)
  exact installNew_grow (h.fds rfl)

theorem memfd_grow {cloexec : Bool} (h : Grows l X k₀ k) : Grow l X k₀ (memfd env l cloexec) k := by
  simp only [Grow, memfd, wp_bind]
  refine wp_mono (shmCreate_grow h) (fun _ _ h => ?_) fun _ _ h => h
  exact installNew_grow h

theorem shmEmpty_fds (id : Nat) (k : K V) : (shmEmpty id k).fds = k.fds := by
  unfold shmEmpty
  split <;> rfl

theorem openShm_grow {name : List UInt8} {flags : UInt32} (h : Grows l X k₀ k) :
    Grow l X k₀ (openShm env l name flags) k := by
  have found : ∀ (id : Nat) (k : K V), Grows l X k₀ k →
      wp (onError (installShm env l id flags) (shmFdRef id (-1)))
        (fun _ k' => Grows l X k₀ (shmFdRef id (-1) k')) (fun _ k' => Grows l X k₀ k') k :=
    fun id k h => by
      rw [wp_onError]
      exact wp_mono (installNew_grow h)
        (fun _ _ h => h.fds (shmFdRef_fds _ _ _)) fun _ _ h => h.fds (shmFdRef_fds _ _ _)
  simp only [Grow, openShm, wp_bind, wp_get]
  split
  · rename_i i _
    simp only [wp_bind, wp_set, wp_ite, wp_modify, wp_throw, wp_pure]
    have hset : ∀ o : Shm, Grows l X k₀ (k.setShm i o) := fun o => h.fds rfl
    refine ⟨fun _ => (hset _).fds (shmFdRef_fds _ _ _), fun _ =>
      ⟨fun _ => found _ _ ((hset _).fds (shmEmpty_fds _ _)), fun _ => found _ _ (hset _)⟩⟩
  · rw [wp_ite]
    refine ⟨fun _ => ?_, fun _ => h⟩
    rw [wp_bind]
    refine wp_mono (shmCreate_grow h) (fun id k' h => ?_) fun _ _ h => h
    simp only [wp_bind, wp_ite, wp_modify]
    exact ⟨fun _ => found _ _ (h.fds (shmEmpty_fds _ _)), fun _ => found _ _ h⟩

theorem openProcFd_grow {n : Nat} {flags : UInt32} (h : Grows l X k₀ k) :
    Grow l X k₀ (openProcFd env l n flags) k := by
  simp only [Grow, openProcFd, wp_bind]
  refine wp_getFd (fun _ => ?_) h
  split <;> exact installNew_grow (h.fds (addRef_fds _ k))

theorem openIno_grow {ino : Nat} {created : Bool} {flags : UInt32} (h : Grows l X k₀ k) :
    Grow l X k₀ (openIno env l ino created flags) k := by
  have hvol : ∀ v : V, Grows l X k₀ { k with vol := v } := fun v => h.fds rfl
  simp only [Grow, openIno, openKind, wp_bind]
  refine wp_below (fun m v => ?_) fun _ _ => hvol _
  cases m with
  | lnk | other => exact hvol v
  | dir | reg =>
      simp only [wp_pure, wp_bind, wp_ite, wp_throw]
      refine ⟨fun _ => hvol v, fun _ => ⟨fun _ => hvol v, fun _ => ⟨fun _ => ?_, fun _ => ?_⟩⟩⟩
      · exact wp_below (fun _ v => install_grow (hvol v)) fun _ _ => hvol _
      · exact install_grow (hvol v)

theorem openFile_grow {at' : Nat} {path : List UInt8} {flags : UInt32} (h : Grows l X k₀ k) :
    Grow l X k₀ (openFile env l at' path flags) k := by
  simp only [Grow, openFile, wp_ite, wp_bind]
  refine ⟨fun _ => ?_, fun _ => ?_⟩ <;>
    exact wp_below (fun _ v => openIno_grow (h.fds rfl)) fun _ v => h.fds rfl

theorem openAt_grow {at' : Nat} {t : Target} {flags : UInt32} (h : Grows l X k₀ k) :
    Grow l X k₀ (openAt env l at' t flags) k := by
  cases t with
  | shm name => exact openShm_grow h
  | procFd n => exact openProcFd_grow h
  | dev d => exact install_grow h
  | proc pages len => exact openProc_grow h
  | file path => exact openFile_grow h

/-! ### Calls on descriptors -/

theorem unixKey_grow {a : SockAddr} {create : Bool} (h : Grows l X k₀ k) :
    Grow l X k₀ (unixKey env l a create) k := by
  have hvol : ∀ v : V, Grows l X k₀ { k with vol := v } := fun v => h.fds rfl
  cases a with
  | inet _ _ => exact h
  | abstract name => exact h
  | path p =>
      simp only [Grow, unixKey, wp_bind, wp_get]
      split
      · split
        · exact hvol _
        · simp only [wp_bind, wp_set, wp_ite, wp_throw]
          refine ⟨fun _ => wp_below (fun ino v => ?_) fun _ _ => hvol _, fun _ => hvol _⟩
          rw [wp_bind]
          refine wp_below (fun sock v => ?_) fun _ _ => hvol _
          simp only [wp_bind, wp_get, wp_ite, wp_pure, wp_throw]
          exact ⟨fun _ => hvol _, fun _ => hvol _⟩
      · rw [wp_bind]
        refine wp_below (fun ino v => ?_) fun _ _ => hvol _
        rw [wp_bind]
        refine wp_below (fun sock v => ?_) fun _ _ => hvol _
        simp only [wp_ite, wp_pure, wp_throw]
        exact ⟨fun _ => hvol _, fun _ => hvol _⟩

theorem bind_grow {sa : SockAddr} (h : Grows l X k₀ k) : Grow l X k₀ (bind env l fd sa) k := by
  simp only [Grow, bind, wp_bind]
  refine wp_getFd (fun _ => ?_) h
  rw [wp_ite]
  refine ⟨fun _ => ?_, fun _ => ?_⟩
  · simp only [wp_bind, wp_get, wp_ite, wp_throw]
    refine ⟨fun _ => h, fun _ => wp_mono (unixKey_grow h) (fun key k' h => ?_) fun _ _ h => h⟩
    exact h.fds rfl
  · cases sa with
    | path _ | abstract _ => exact h
    | inet lo port =>
        simp only [wp_bind, wp_ite, wp_throw, wp_modify, wp_pure]
        exact ⟨fun _ => h, fun _ => ⟨fun _ => h.fds rfl, fun _ => h.fds rfl⟩⟩

/-- An open file takes the place of another. -/
theorem Grows.replace (h : Grows l X k₀ k) (g : OpenFile) (hf : f.kind ≠ .free) :
    Grows l X k₀ (replaceFd env l fd f g k) :=
  (h.setFd fun _ _ => hf).fds (dropRef_fds env g _)

theorem listen_grow (h : Grows l X k₀ k) : Grow l X k₀ (listen env l fd) k := by
  simp only [Grow, listen, wp_bind]
  refine wp_getFd (fun _ => ?_) h
  simp only [wp_ite, wp_pure, wp_bind, wp_get, wp_throw]
  have finish : ∀ {k : K V} {key : SockKey} {packet : Bool} {f : OpenFile}, Grows l X k₀ k →
      wp (unixListen key packet) (fun li k' => Grows l X k₀
        (replaceFd env l (fd % 2 ^ 32) { f with kind := .listen, ino := li } f k'))
        (fun _ k' => Grows l X k₀ k') k := fun h =>
    wp_mono (unixListen_grow h) (fun _ _ h => h.replace _ (by simp)) fun _ _ h => h
  refine ⟨fun _ => h, fun _ => ⟨fun _ => ⟨fun _ => h, fun _ => finish h⟩,
    fun _ => ⟨fun _ => ?_, fun _ => h⟩⟩⟩
  simp only [ensurePort, wp_bind, wp_get, wp_ite, wp_pure, wp_set]
  exact ⟨fun _ => finish h, fun _ => finish (h.fds rfl)⟩

theorem connect_grow {sa : SockAddr} (h : Grows l X k₀ k) :
    Grow l X k₀ (connect env l fd sa) k := by
  simp only [Grow, connect, wp_bind]
  refine wp_getFd (fun _ => ?_) h
  rw [wp_bind, wp_get, wp_ite]
  refine ⟨fun _ => ?_, fun _ => ?_⟩
  · rw [wp_bind]
    refine wp_mono (unixKey_grow h) (fun key k₁ h₁ => ?_) fun _ _ h => h
    rw [wp_bind]
    exact wp_mono (unixConnect_grow h₁) (fun c k₂ h₂ => h₂.replace _ (by simp)) fun _ _ h => h
  · cases sa with
    | path _ | abstract _ => exact h
    | inet lo port =>
        simp only [wp_bind, wp_ite, wp_throw, wp_set]
        refine ⟨fun _ => ?_, fun _ => ⟨fun _ => h, fun _ => ?_⟩⟩
        · refine wp_mono (unixConnect_grow h) (fun c k₁ h₁ => ?_) fun _ _ h => h
          simp only [wp_bind, wp_modify, wp_pure]
          have h₂ : ∀ (v : V) (x : Conn), Grows l X k₀ (K.setConn { k₁ with vol := v } c x) :=
            fun v x => h₁.fds rfl
          exact (h₂ _ _).replace _ (by simp)
        · split <;> exact h.fds rfl

theorem accept_grow {flags : UInt32} (h : Grows l X k₀ k) :
    Grow l X k₀ (accept env l fd flags) k := by
  simp only [Grow, accept, wp_bind]
  refine wp_getFd (fun _ => ?_) h
  simp only [wp_ite, wp_bind, wp_throw]
  refine ⟨fun _ => h, fun _ => wp_mono (unixAccept_grow h) (fun c k' hc => ?_) fun _ _ h => h⟩
  rw [wp_onError]
  exact wp_install (fun _ _ hfree => hc.take hfree _) (hc.fds (dropRef_fds env _ _))

theorem unixSend_grow {src : Nat → UInt8} {len : Nat} {fds : List Nat} {nonblock : Bool}
    (h : Grows l X k₀ k) : Grow l X k₀ (unixSend env l fd src len fds nonblock) k := by
  simp only [Grow, unixSend, wp_bind]
  refine wp_getFd (fun _ => ?_) h
  simp only [wp_ite, wp_bind, wp_throw]
  refine ⟨fun _ => h, fun _ => ⟨fun _ => h, fun _ => ?_⟩⟩
  refine wp_mono (filesToSend_same fds) (fun fs k' hfs => ?_) fun _ k' hk' => hk' ▸ h
  subst hfs
  simp only [wp_bind, wp_modify, wp_onError]
  exact wp_mono (unixWrite_grow (h.fds (addRefs_fds fs k'))) (fun _ _ h => h)
    fun _ k' h => h.fds (dropRefs_fds env fs k')

theorem receiveFiles_grow {cloexec : Bool} : ∀ (fs : List OpenFile) (room : Nat) {k : K V},
    Grows l X k₀ k → Grows l X k₀ (receiveFiles env l cloexec room fs k).2
  | [], room, k, h => by cases room <;> exact h
  | x :: xs, 0, k, h => receiveFiles_grow xs 0 (h.fds (dropRef_fds env x k))
  | x :: xs, room + 1, k, h => by
      have hi : Grow l X k₀ (install l { x with cloexec := cloexec } 0) k := install_grow h
      unfold Grow wp at hi
      unfold receiveFiles
      split <;> rename_i hx <;> simp only [hx] at hi
      · exact receiveFiles_grow xs room hi
      · exact receiveFiles_grow xs (room + 1) (hi.fds (dropRef_fds env x _))

theorem unixRecv_grow {len room : Nat} {nonblock cloexec : Bool} (h : Grows l X k₀ k) :
    Grow l X k₀ (unixRecv env l fd len nonblock cloexec room) k := by
  simp only [Grow, unixRecv, wp_bind]
  refine wp_getFd (fun _ => ?_) h
  simp only [wp_ite, wp_bind, wp_throw]
  refine ⟨fun _ => h, fun _ => wp_mono (unixRead_grow h) (fun r k' hr => ?_) fun _ _ h => h⟩
  exact receiveFiles_grow _ _ hr

theorem close_grow (h : Grows l (· = fd % 2 ^ 32) k₀ k) :
    Grow l (· = fd % 2 ^ 32) k₀ (close env l fd) k := by
  simp only [Grow, close, wp_bind]
  refine wp_getFd (fun _ => ?_) h
  exact (h.setFd fun hX _ => absurd rfl hX).fds (dropRef_fds env _ _)

theorem dupEx_grow {newfd : Nat} {cloexec : Bool} (h : Grows l X k₀ k) :
    Grow l X k₀ (dupEx env l fd newfd cloexec) k := by
  simp only [Grow, dupEx, getFd, wp_bind, wp_get, wp_ite, wp_pure, wp_throw, wp_modify]
  refine ⟨fun hk => ⟨fun _ => ?_, fun _ => ⟨fun _ => h, fun _ => ⟨fun _ => h, fun _ => ?_⟩⟩⟩,
    fun _ => h⟩
  · exact wp_mono (install_grow h) (fun _ _ h => h.fds (addRef_fds _ _)) fun _ _ h => h
  · refine Grows.fds (Grows.fds ?_ (addRef_fds _ _)) (dropRef_fds env _ _)
    exact h.setFd fun _ _ => hk.2

/-- An offset is written. -/
theorem Grows.moveOff (h : Grows l X k₀ k) (pos : Option Nat) (off : Nat) :
    Grows l X k₀ (moveOff l fd pos off k) := by
  unfold Kernel.moveOff
  split
  · exact h.setFd fun hX hk => h.mine fd hX hk
  · exact h

theorem transfer_grow {g : OpenFile} {w : Bool} {len : Nat} {pos : Option Nat} {p : Prop}
    [Decidable p] {r : Nat → α} (h : Grows l X k₀ k) :
    Grow l X k₀ (do
      let x ← below (env.transfer g w len)
      modify (if p then id else moveOff l fd pos x.2)
      pure (r x.1)) k := by
  simp only [Grow, wp_bind]
  refine wp_below (fun x v => ?_) fun _ v => h.fds rfl
  simp only [wp_bind, wp_modify, wp_pure]
  have hv : Grows l X k₀ { k with vol := v } := h.fds rfl
  split
  · exact hv
  · exact hv.moveOff pos x.2

theorem read_grow {len : Nat} {pos : Option Nat} (h : Grows l X k₀ k) :
    Grow l X k₀ (read env l fd len pos) k := by
  simp only [Grow, read, wp_bind]
  refine wp_getFd (fun _ => ?_) h
  split
  case h_6 => exact wp_ite.mpr ⟨fun _ => h, fun _ => transfer_grow h⟩
  case h_10 => exact wp_ite.mpr ⟨fun _ => h, fun _ => pipeRead_grow h⟩
  case h_11 =>
      simp only [unixReadPlain, wp_bind]
      exact wp_mono (unixRead_grow h) (fun r k' hr => hr.fds (dropRefs_fds env _ _)) fun _ _ h => h
  case h_12 => exact eventRead_grow h
  all_goals first | exact h | exact transfer_grow h

theorem write_grow {src : Nat → UInt8} {len : Nat} {pos : Option Nat} (h : Grows l X k₀ k) :
    Grow l X k₀ (write env l fd src len pos) k := by
  simp only [Grow, write, wp_bind]
  refine wp_getFd (fun _ => ?_) h
  split
  case h_7 => exact wp_ite.mpr ⟨fun _ => h, fun _ => transfer_grow (r := fun n => n) h⟩
  case h_10 => exact wp_ite.mpr ⟨fun _ => h, fun _ => pipeWrite_grow h⟩
  case h_11 => exact unixWrite_grow h
  case h_12 => exact eventWrite_grow h
  all_goals first | exact h | exact transfer_grow (r := fun n => n) h

theorem shutdown_grow {how : Nat} (h : Grows l X k₀ k) : Grow l X k₀ (shutdown l fd how) k := by
  simp only [Grow, shutdown, wp_bind]
  refine wp_getFd (fun _ => ?_) h
  split
  · exact h.fds (unixShutdown_fds _ _ _ k)
  all_goals exact h

theorem shmUnlink_grow {name : List UInt8} (h : Grows l X k₀ k) :
    Grow l X k₀ (shmUnlink name) k := by
  simp only [Grow, shmUnlink, wp_bind, wp_get]
  split
  · exact h
  · exact h.fds (maybeFree_fds _ _)

theorem mapShm_grow (h : Grows l X k₀ k) : Grow l X k₀ (mapShm l fd) k := by
  simp only [Grow, mapShm, wp_bind]
  refine wp_getFd (fun _ => ?_) h
  simp only [wp_ite, wp_modify, wp_throw]
  exact ⟨fun _ => h.fds (shmMapRef_fds _ _ _), fun _ => h⟩

theorem unmapShm_grow {id : Nat} (h : Grows l X k₀ k) : Grow l X k₀ (unmapShm id) k := by
  simp only [Grow, unmapShm, wp_bind, wp_get]
  split
  · exact h
  · simp only [wp_ite, wp_modify, wp_throw]
    exact ⟨fun _ => h.fds (shmMapRef_fds _ _ _), fun _ => h⟩

theorem mapAnon_grow (h : Grows l X k₀ k) : Grow l X k₀ (mapAnon : Prog V Unit) k := by
  simp only [Grow, mapAnon, wp_bind]
  refine wp_mono (shmCreate_grow h) (fun id k' h => ?_) fun _ _ h => h
  simp only [wp_bind, wp_modify, wp_onError]
  have h₁ : ∀ (n : Nat) (o : Shm), Grows l X k₀ { k'.setShm (id - 1) o with asked := n } :=
    fun n o => h.fds rfl
  exact wp_allocContig ((h₁ _ _).fds (shmMapRef_fds _ _ _)) ((h₁ _ _).fds (maybeFree_fds _ _))

/-! ### Processes -/

theorem execCleanupFrom_grow : ∀ (fds : List Nat) (k : K V),
    Grows l (fun fd => (k.fds l fd).cloexec = true) k (execCleanupFrom env l fds k)
  | [], k => .refl k
  | fd :: fds, k => by
      unfold execCleanupFrom
      dsimp only
      split
      · rename_i hc
        have h₁ : Grows l (fun fd => (k.fds l fd).cloexec = true) k
            (replaceFd env l fd FREE (k.fds l fd) k) :=
          ((Grows.refl k).setFd fun hX _ => absurd hc.2 hX).fds (dropRef_fds env _ _)
        have h₂ := execCleanupFrom_grow fds
          (replaceFd env l fd FREE (k.fds l fd) k)
        refine ⟨fun l' hl => (h₂.others l' hl).trans (h₁.others l' hl), fun j hX hk => ?_⟩
        have hrow : (replaceFd env l fd FREE (k.fds l fd) k).fds l j =
            if j = fd then FREE else k.fds l j := by
          unfold replaceFd
          rw [dropRef_fds]
          split_ifs with e
          · rw [e, setFd_fds_self]
          · rw [setFd_fds_of_ne e]
        have hj : j ≠ fd := by
          rintro rfl
          exact hX hc.2
        rw [if_neg hj] at hrow
        exact h₂.mine j (by rw [hrow]; exact hX) (by rw [hrow]; exact hk)
      · exact execCleanupFrom_grow fds k

/-- The numbers that a call is told to free in the table of its process. -/
def Call.Frees (k : K V) (l : Nat) : Call → Nat → Prop
  | .close fd, j => j = fd % 2 ^ 32
  | .exec, j => (k.fds l j).cloexec = true
  | .exit, _ => True
  | _, _ => False

/-- **A call grows the table** of its process, but for the numbers it is told to free. -/
theorem call_grows (env : Env V) {c : Call} (hfork : ∀ dst, c ≠ .fork dst) :
    Grows l (c.Frees k l) k ((c.run env l).after k) := by
  apply Prog.after_of_wp (P := fun k' => Grows l (c.Frees k l) k k')
  have h : Grows l (c.Frees k l) k k := .refl k
  cases c with
  | openAt at' t flags => exact (openAt_grow h).discard
  | pipe flags => exact (pipe_grow h).discard
  | read fd len pos => exact (read_grow h).discard
  | write fd src len pos => exact (write_grow h).discard
  | close fd => exact (close_grow h).discard
  | dup fd newfd cloexec => exact (dupEx_grow h).discard
  | eventfd init flags => exact (eventfd_grow h).discard
  | epollCreate flags => exact (epollCreate_grow h).discard
  | socket domain ty => exact (socket_grow h).discard
  | socketpair domain ty => exact (socketpair_grow h).discard
  | bind fd sa => exact (bind_grow h).discard
  | listen fd => exact (listen_grow h).discard
  | connect fd sa => exact (connect_grow h).discard
  | accept fd flags => exact (accept_grow h).discard
  | send fd src len fds nonblock => exact (unixSend_grow h).discard
  | recv fd len nonblock cloexec room => exact (unixRecv_grow h).discard
  | shutdown fd how => exact (shutdown_grow h).discard
  | memfd cloexec => exact (memfd_grow h).discard
  | shmUnlink name => exact (shmUnlink_grow h).discard
  | mapShm fd => exact mapShm_grow h
  | unmapShm id => exact unmapShm_grow h
  | mapAnon => exact mapAnon_grow h
  | fork dst => exact absurd rfl (hfork dst)
  | exec => exact execCleanupFrom_grow _ k
  | exit =>
      refine ⟨fun l' hl => ?_, fun fd hX => absurd trivial hX⟩
      have hr : (release env l k).fds l' = k.fds l' := by
        unfold release
        rw [dropRefs_fds]
        exact Function.update_of_ne hl ..
      exact hr

/-- `fork` writes the table of the child. -/
theorem fork_fds (src dst : Nat) (k : K V) {l : Nat} (hl : l ≠ dst) :
    (cloneTable src dst k).fds l = k.fds l := by
  unfold cloneTable
  have hrow : ((k.row src).foldl (fun k f => addRef f k) k).fds = k.fds := addRefs_fds _ k
  exact (Function.update_of_ne hl ..).trans (congrFun hrow l)

end Pulsar.Kernel

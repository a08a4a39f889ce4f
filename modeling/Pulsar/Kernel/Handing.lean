import Pulsar.Kernel.Balance
import Pulsar.Kernel.Rules

/-!
# References balance: handing files around

A new object comes with its first name in the caller's hand; `install` moves a file from the hand
into a table, a queue or a backlog takes files from the hand and gives them back later.
-/

namespace Pulsar.Kernel

variable {V α : Type} {s : Bool} {k : K V} {ex : List OpenFile} {f g : OpenFile} {l fd : Nat}

/-- The program ends, one way or the other, with the files `ex` in hand and the account settled. -/
abbrev Settles (s : Bool) (x : Prog V α) (ex : List OpenFile) (k : K V) : Prop :=
  wp x (fun _ k' => Bal s k' ex) (fun _ k' => Bal s k' ex) k

theorem countOf_cons_append (X : Obj) (f : OpenFile) (fs : List OpenFile) :
    countOf X (f :: fs) = countOf X [f] + countOf X fs :=
  countOf_append X [f] fs

theorem Bal.rename (h : Bal s k (f :: ex)) (hfg : g.obj = f.obj) : Bal s k (g :: ex) :=
  h.perm fun _ => countOf_congr hfg ex

theorem Bal.asked (h : Bal s k ex) (n : Nat) : Bal s { k with asked := n } ex :=
  h.same rfl rfl rfl rfl rfl rfl rfl rfl rfl rfl

theorem Bal.vol (h : Bal s k ex) (v : V) : Bal s { k with vol := v } ex :=
  h.same rfl rfl rfl rfl rfl rfl rfl rfl rfl rfl

/-! ### Descriptor tables -/

/-- The file in hand goes into the table, what was there comes out. -/
theorem setFd_bal (hl : l < MAX_PROCS) (hfd : fd < MAX_FDS) (h : Bal s k (f :: ex)) :
    Bal s (k.setFd l fd f) (k.fds l fd :: ex) := by
  refine ⟨fun X hct => ?_, { h.tidy with pipe := h.tidy.pipe }⟩
  have hcount : k.refs X = k.held X + countOf X (f :: ex) := h.count X hct
  have hheld := held_setFd (k := k) (f := f) hl hfd X
  have hrefs : (k.setFd l fd f).refs X = k.refs X := by cases X <;> rfl
  rw [countOf_cons_append] at hcount ⊢
  omega

theorem setFd_free_bal (hl : l < MAX_PROCS) (hfd : fd < MAX_FDS)
    (hfree : (k.fds l fd).kind = .free) (h : Bal s k (f :: ex)) : Bal s (k.setFd l fd f) ex :=
  (Bal.cons_none (by simp [OpenFile.obj, hfree])).mp (setFd_bal hl hfd h)

theorem takeFd_bal (hl : l < MAX_PROCS) (hfd : fd < MAX_FDS) (h : Bal s k ex) :
    Bal s (k.setFd l fd FREE) (k.fds l fd :: ex) :=
  setFd_bal hl hfd ((Bal.cons_none rfl).mpr h)

/-- Another offset, or other flags, for the same object. -/
theorem retouch_bal (hl : l < MAX_PROCS) (hfd : fd < MAX_FDS) (hf : f.obj = (k.fds l fd).obj)
    (h : Bal s k ex) : Bal s (k.setFd l fd f) ex := by
  refine ⟨fun X hct => ?_, { h.tidy with pipe := h.tidy.pipe }⟩
  have hcount : k.refs X = k.held X + countOf X ex := h.count X hct
  have hheld := held_setFd (k := k) (f := f) hl hfd X
  have hrefs : (k.setFd l fd f).refs X = k.refs X := by cases X <;> rfl
  rw [countOf_congr hf] at hheld
  omega

/-- A whole table is replaced by one that names nothing: its files are in hand. -/
theorem takeRow_bal {t : Nat → OpenFile} {cwd : Nat → Nat} (hl : l < MAX_PROCS)
    (ht : ∀ fd, (t fd).obj = none) (h : Bal s k ex) :
    Bal s ({ k with fds := Function.update k.fds l t, cwd := cwd } : K V) (k.row l ++ ex) := by
  refine ⟨fun X hct => ?_, { h.tidy with pipe := h.tidy.pipe }⟩
  have hcount : k.refs X = k.held X + countOf X ex := h.count X hct
  have hheld := held_setRow (k := k) (t := t) hl X
  have hcwd : ({ k with fds := Function.update k.fds l t, cwd := cwd } : K V).held X =
      ({ k with fds := Function.update k.fds l t } : K V).held X := rfl
  have hrefs : ({ k with fds := Function.update k.fds l t, cwd := cwd } : K V).refs X = k.refs X := by
    cases X <;> rfl
  have hnone : countOf X ((List.range MAX_FDS).map t) = 0 := by
    rw [countOf_row]
    exact Finset.sum_eq_zero fun fd _ => if_neg (by simp [ht])
  rw [hcwd, hrefs, countOf_append]
  omega

theorem install_bal {n : Nat} (hl : l < MAX_PROCS) (h : Bal s k (f :: ex)) :
    wp (install l f n) (fun _ k' => Bal s k' ex) (fun _ k' => Bal s k' (f :: ex)) k :=
  wp_install (fun _ hfd hfree => setFd_free_bal hl hfd hfree h) h

/-- **A new descriptor for the object in hand.** -/
theorem installNew_bal (env : Env V) (hl : l < MAX_PROCS) (h : Bal s k (f :: ex)) :
    Settles s (installNew env l f) ex k :=
  wp_onError.mpr (wp_mono (install_bal hl h) (fun _ _ h => h) fun _ _ h => dropRef_bal env h)

theorem replaceFd_bal (env : Env V) (hl : l < MAX_PROCS) (hfd : fd < MAX_FDS)
    (hg : k.fds l fd = g) (h : Bal s k (f :: ex)) : Bal s (replaceFd env l fd f g k) ex := by
  subst hg
  exact dropRef_bal env (setFd_bal hl hfd h)

/-! ### New objects -/

theorem newEvent_bal {i n : Nat} {b : Bool} (h : Bal s k ex) (hfree : (k.events i).used = false)
    (hf : f.obj = some (.event i)) : Bal s (k.setEvent i ⟨true, 1, n, b⟩) (f :: ex) := by
  have hz : (k.events i).refs = 0 := by
    have := h.tidy.event i
    rw [hfree] at this
    simpa using this
  refine h.more hf rfl (fun X => ?_) (h.tidy.setEvent (by simp))
  rw [refs_setEvent]
  simp only [K.refs, hz]

theorem newEpoll_bal {i : Nat} (h : Bal s k ex) (hfree : (k.epolls i).used = false)
    (hf : f.obj = some (.epoll i)) : Bal s (k.setEpoll i ⟨true, 1⟩) (f :: ex) := by
  have hz : (k.epolls i).refs = 0 := by
    have := h.tidy.epoll i
    rw [hfree] at this
    simpa using this
  refine h.more hf rfl (fun X => ?_) (h.tidy.setEpoll (by simp))
  rw [refs_setEpoll]
  simp only [K.refs, hz]

theorem newSock_bal {i : Nat} {n : SockNet} (h : Bal s k ex) (hfree : (k.socks i).used = false)
    (hf : f.obj = some (.sock i)) : Bal s (k.setSock i ⟨true, 1, n⟩) (f :: ex) := by
  have hz : (k.socks i).refs = 0 := by
    have := h.tidy.sock i
    rw [hfree] at this
    simpa using this
  refine h.more hf rfl (fun X => ?_) (h.tidy.setSock (by simp))
  rw [refs_setSock]
  simp only [K.refs, hz]

theorem newUSock_bal {i : Nat} {b : Bool} {key : SockKey} (h : Bal s k ex)
    (hfree : (k.usocks i).used = false) (hf : f.obj = some (.uSock i)) :
    Bal s (k.setUSock i ⟨true, 1, b, key⟩) (f :: ex) := by
  have hz : (k.usocks i).refs = 0 := by
    have := h.tidy.uSock i
    rw [hfree] at this
    simpa using this
  refine h.more hf rfl (fun X => ?_) (h.tidy.setUSock (by simp))
  rw [refs_setUSock]
  simp only [K.refs, hz]

theorem newMem_bal {i buf len pages : Nat} (h : Bal s k ex) (hfree : (k.mems i).buf = 0)
    (hbuf : 0 < buf) (hf : f.obj = some (.mem i)) :
    Bal s (k.setMem i ⟨buf, len, 1, pages⟩) (f :: ex) := by
  have hz : (k.mems i).refs = 0 := (h.tidy.mem i).mp hfree
  refine h.more hf rfl (fun X => ?_) (h.tidy.setMem (by simp only; omega))
  rw [refs_setMem]
  simp only [K.refs, hz]

theorem newListener_bal {i : Nat} {b : Bool} {key : SockKey} (h : Bal s k ex) (hi : i < MAX_LISTEN)
    (hfree : (k.listeners i).used = false) (hf : f.obj = some (.listen i)) :
    Bal s (k.setListener i ⟨true, 1, b, key, []⟩) (f :: ex) := by
  have ht := h.tidy
  have hz : (k.listeners i).refs = 0 := by
    have := ht.listener i
    rw [hfree] at this
    simpa using this
  have hfiles : (k.listeners i).files = [] := by
    rw [Listener.files, ht.listenFree i hfree]; rfl
  refine h.more hf (held_setListener_same hfiles.symm) (fun X => ?_)
    (ht.setListener (by simp) (fun _ => rfl) fun _ => hi)
  rw [refs_setListener]
  simp only [K.refs, hz]

/-- A pipe's slot changes: its two counters move with the names in hand. -/
theorem setPipe_bal {i : Nat} {p : Pipe} {ex' : List OpenFile} (h : Bal s k ex)
    (hp : p.buf = 0 ↔ p.readers = 0 ∧ p.writers = 0)
    (hR : p.readers + countOf (.pipeR i) ex = (k.pipes i).readers + countOf (.pipeR i) ex')
    (hW : p.writers + countOf (.pipeW i) ex = (k.pipes i).writers + countOf (.pipeW i) ex')
    (ho : ∀ X, X ≠ .pipeR i → X ≠ .pipeW i → countOf X ex' = countOf X ex) :
    Bal s (k.setPipe i p) ex' := by
  refine ⟨fun X hct => ?_, h.tidy.setPipe hp⟩
  have hcount := h.count X hct
  have hheld : (k.setPipe i p).held X = k.held X := rfl
  rw [refs_setPipe]
  by_cases hXR : X = .pipeR i
  · subst hXR
    simp only [K.refs] at hcount
    rw [if_pos rfl]
    omega
  · by_cases hXW : X = .pipeW i
    · subst hXW
      simp only [K.refs] at hcount
      rw [if_neg hXR, if_pos rfl]
      omega
    · rw [if_neg hXR, if_neg hXW, ho X hXR hXW]
      exact hcount

/-- What a transfer does to a pipe is of no account. -/
theorem touchPipe_bal {i : Nat} {p : Pipe} (h : Bal s k ex) (hb : p.buf = (k.pipes i).buf)
    (hr : p.readers = (k.pipes i).readers) (hw : p.writers = (k.pipes i).writers) :
    Bal s (k.setPipe i p) ex :=
  setPipe_bal h (by rw [hb, hr, hw]; exact h.tidy.pipe i) (by rw [hr]) (by rw [hw]) fun _ _ _ => rfl

/-! ### Shared memory -/

theorem setShm_bal {i : Nat} {o : Shm} (h : Bal s k ex) (hi : i < MAX_OBJS)
    (hr : o.fdRefs = (k.shms i).fdRefs)
    (hu : o.used = true ↔ 0 < o.fdRefs ∨ 0 < o.mapRefs ∨ o.named = true) :
    Bal s (k.setShm i o) ex := by
  refine ⟨fun X hct => ?_, h.tidy.setShm hi hu⟩
  have hcount := h.count X hct
  rw [refs_setShm]
  by_cases e : X = .shm (i + 1)
  · subst e
    rw [if_pos rfl, hr]
    exact hcount
  · rw [if_neg e]
    exact hcount

theorem newShm_bal {i : Nat} {o : Shm} (h : Bal s k ex) (hi : i < MAX_OBJS)
    (hfree : (k.shms i).used = false) (ho : o.used = true) (hr : o.fdRefs = 1)
    (hf : f.obj = some (.shm (i + 1))) : Bal s (k.setShm i o) (f :: ex) := by
  have ht := h.tidy
  have hz : (k.shms i).fdRefs = 0 := by
    by_contra hne
    have := (ht.shm i).mpr (Or.inl (Nat.pos_of_ne_zero hne))
    simp [hfree] at this
  refine h.more hf rfl (fun X => ?_)
    (ht.setShm hi (iff_of_true ho (Or.inl (by rw [hr]; exact Nat.one_pos))))
  rw [refs_setShm, hr]
  simp [K.refs, hz]

end Pulsar.Kernel

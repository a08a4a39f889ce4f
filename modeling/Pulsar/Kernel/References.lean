import Pulsar.Kernel.CallBalance

/-!
# References balance

`call_bal` is the step: a call settles the account, whatever its outcome.  `references_balance` is
the result for whole runs from boot; `shm_unlink_frees_open` is what the calls it leaves out do.
-/

namespace Pulsar.Kernel

variable {V : Type} {s : Bool} {env : Env V} {k : K V} {ex : List OpenFile} {f : OpenFile} {l fd : Nat}

/-! ### Many references at once -/

theorem addRef_held (f : OpenFile) (k : K V) : (addRef f k).held = k.held := by
  obtain ⟨kind, i, flags, cloexec, off⟩ := f
  cases kind with
  | unix => exact held_setConn_same rfl
  | listen => exact held_setListener_same rfl
  | shm =>
      simp only [addRef, shmFdRef_one]
      split <;> rfl
  | _ => rfl

theorem addRef_fds (f : OpenFile) (k : K V) : (addRef f k).fds = k.fds := by
  obtain ⟨kind, i, flags, cloexec, off⟩ := f
  cases kind with
  | shm =>
      simp only [addRef, shmFdRef_one]
      split <;> rfl
  | _ => rfl

theorem addRef_setFd (f g : OpenFile) (k : K V) :
    addRef f (k.setFd l fd g) = (addRef f k).setFd l fd g := by
  obtain ⟨kind, i, flags, cloexec, off⟩ := f
  cases kind with
  | shm =>
      have : ∀ id, shmIdx (k.setFd l fd g) id = shmIdx k id := fun _ => rfl
      simp only [addRef, shmFdRef_one, this]
      split <;> rfl
  | _ => rfl

/-- What is named already may be named once more. -/
theorem addRef_held_bal (h : Bal s k ex) (hf : ∀ X, f.obj = some X → 0 < k.held X) :
    Bal s (addRef f k) (f :: ex) :=
  addRef_bal h fun X hX hct => by
    have := hf X hX
    have := h.count X hct
    omega

theorem addRefs_bal : ∀ (fs : List OpenFile) {k : K V} {ex : List OpenFile}, Bal s k ex →
    (∀ f ∈ fs, ∀ X, f.obj = some X → 0 < k.held X) →
    Bal s (fs.foldl (fun k f => addRef f k) k) (fs ++ ex)
  | [], _, _, h, _ => h
  | f :: fs, k, ex, h, hf => by
      have h₁ := addRef_held_bal h (hf f (List.mem_cons_self ..))
      have h₂ := addRefs_bal fs h₁ fun g hg X hX => by
        rw [addRef_held]
        exact hf g (List.mem_cons_of_mem _ hg) X hX
      exact h₂.perm fun X => by
        simp only [List.cons_append, countOf_append, countOf_cons]; omega

theorem addRefs_fds (fs : List OpenFile) (k : K V) :
    (fs.foldl (fun k f => addRef f k) k).fds = k.fds := by
  induction fs generalizing k with
  | nil => rfl
  | cons f fs ih => rw [List.foldl_cons, ih, addRef_fds]

/-! ### Sending and receiving descriptors -/

theorem filesToSend_spec (hl : l < MAX_PROCS) : ∀ (fds : List Nat),
    wp (filesToSend l fds) (fun fs k' => k' = k ∧ ∀ f ∈ fs, ∀ X, f.obj = some X → 0 < k.held X)
      (fun _ k' => k' = k) k
  | [] => ⟨rfl, fun _ hf => by cases hf⟩
  | fd :: fds => by
      simp only [filesToSend, wp_bind]
      refine wp_getFd (fun hfd => ?_) rfl
      rw [wp_bind]
      refine wp_mono (filesToSend_spec hl fds) (fun fs k' hk => ?_) fun _ _ h => h
      rw [wp_pure]
      refine ⟨hk.1, fun g hg X hX => ?_⟩
      rcases List.mem_cons.mp hg with rfl | hg
      · exact held_pos hl hfd hX
      · exact hk.2 g hg X hX

theorem unixSend_bal {src : Nat → UInt8} {len : Nat} {fds : List Nat} {nonblock : Bool}
    (hl : l < MAX_PROCS) (h : Bal s k ex) : Settles s (unixSend env l fd src len fds nonblock) ex k := by
  simp only [Settles, unixSend, wp_bind]
  refine wp_getFd (fun hfd => ?_) h
  simp only [wp_ite, wp_bind, wp_throw]
  refine ⟨fun _ => h, fun hk => ⟨fun _ => h, fun _ => ?_⟩⟩
  refine wp_mono (filesToSend_spec hl fds) (fun fs k' hfs => ?_) fun _ k' hk' => hk' ▸ h
  obtain ⟨rfl, hpos⟩ := hfs
  have hunix : (k'.fds l (fd % 2 ^ 32)).kind = .unix := not_not.mp hk
  simp only [wp_bind, wp_modify, wp_onError]
  have h₁ := addRefs_bal fs h hpos
  have hused := h₁.conn_used hl hfd (by rw [addRefs_fds]; exact hunix)
  rw [addRefs_fds] at hused
  exact wp_mono (unixWrite_bal h₁ hused (mod_two_lt _)) (fun _ _ h => h)
    fun _ _ h => dropRefs_bal env _ h

theorem receiveFiles_bal {cloexec : Bool} (hl : l < MAX_PROCS) : ∀ (fs : List OpenFile)
    (room : Nat) {k : K V}, Bal s k (fs ++ ex) → Bal s (receiveFiles env l cloexec room fs k).2 ex
  | [], room, k, h => by cases room <;> exact h
  | x :: xs, 0, k, h => receiveFiles_bal hl xs 0 (dropRef_bal env h)
  | x :: xs, room + 1, k, h => by
      have h' : Bal s k ({ x with cloexec := cloexec } :: (xs ++ ex)) := h.rename rfl
      have hi := install_bal (n := 0) hl h'
      unfold wp at hi
      unfold receiveFiles
      split <;> rename_i hx <;> simp only [hx] at hi
      · exact receiveFiles_bal hl xs room hi
      · exact receiveFiles_bal hl xs (room + 1) (dropRef_bal env (hi.rename rfl))

theorem unixRecv_bal {len room : Nat} {nonblock cloexec : Bool} (hl : l < MAX_PROCS)
    (h : Bal s k ex) : Settles s (unixRecv env l fd len nonblock cloexec room) ex k := by
  simp only [Settles, unixRecv, wp_bind]
  refine wp_getFd (fun hfd => ?_) h
  simp only [wp_ite, wp_bind, wp_throw]
  refine ⟨fun _ => h, fun hk => ?_⟩
  refine wp_mono (unixRead_bal h (h.conn_used hl hfd (not_not.mp hk)) (mod_two_lt _))
    (fun r k' hr => ?_) fun _ _ h => h
  exact receiveFiles_bal hl _ _ hr

theorem unixReadPlain_bal {len : Nat} {nonblock : Bool} (h : Bal s k ex)
    (hc : (k.conns (f.ino / 2)).used = true) : Settles s (unixReadPlain env f len nonblock) ex k := by
  simp only [Settles, unixReadPlain, wp_bind]
  refine wp_mono (unixRead_bal h hc (mod_two_lt _)) (fun r k' hr => ?_) fun _ _ h => h
  exact dropRefs_bal env _ hr

theorem shutdown_bal {how : Nat} (hl : l < MAX_PROCS) (h : Bal s k ex) :
    Settles s (shutdown l fd how) ex k := by
  simp only [Settles, shutdown, wp_bind]
  refine wp_getFd (fun hfd => ?_) h
  split
  · rename_i hk
    exact unixShutdown_bal h (h.conn_used hl hfd hk) (mod_two_lt _)
  · exact h
  · exact h
  · exact h
  · exact h

/-! ### Shared memory -/

/-- An object that may have lost what kept it. -/
theorem maybeFree_bal {i : Nat} {o : Shm} (h : Bal s k ex) (hi : i < MAX_OBJS) (ho : o.used = true)
    (hr : o.fdRefs = (k.shms i).fdRefs) : Bal s (maybeFree (i + 1) (k.setShm i o)) ex := by
  rw [maybeFree_setShm hi ho]
  exact setShm_bal h hi (by rw [Shm.settle_fdRefs, hr]) (Shm.settle_used ho)

theorem shmMapRef_bal {id i : Nat} (h : Bal s k ex) (hi : shmIdx k id = some i) (d : Int)
    (hd : 0 < d ∨ d < 0) : Bal s (shmMapRef id d k) ex := by
  obtain ⟨rfl, hlt, hu⟩ := shmIdx_some hi
  simp only [shmMapRef, hi]
  split
  · exact maybeFree_bal h hlt hu rfl
  · refine setShm_bal h hlt rfl (iff_of_true hu ?_)
    dsimp only
    omega

theorem mapShm_bal (h : Bal s k ex) : Settles s (mapShm l fd) ex k := by
  simp only [Settles, mapShm, wp_bind]
  refine wp_getFd (fun hfd => ?_) h
  simp only [wp_ite, wp_modify, wp_throw]
  refine ⟨fun hk => ?_, fun _ => h⟩
  cases hidx : shmIdx k (k.fds l (fd % 2 ^ 32)).ino with
  | none =>
      have hform : shmMapRef (k.fds l (fd % 2 ^ 32)).ino 1 k = k := by
        simp only [shmMapRef, hidx]
        rfl
      rw [hform]
      exact h
  | some i => exact shmMapRef_bal h hidx 1 (by decide)

theorem unmapShm_bal {id : Nat} (h : Bal s k ex) : Settles s (unmapShm id) ex k := by
  simp only [Settles, unmapShm, wp_bind, wp_get]
  split
  · exact h
  · rename_i i hi
    simp only [wp_ite, wp_modify, wp_throw]
    exact ⟨fun _ => shmMapRef_bal h hi (-1) (by decide), fun _ => h⟩

theorem findNamed_some {name : List UInt8} {i : Nat} (hi : findNamed k name = some i) :
    i < MAX_OBJS ∧ (k.shms i).used = true := by
  unfold findNamed at hi
  have hu := List.find?_some hi
  simp only [Bool.and_eq_true] at hu
  exact ⟨List.mem_range.mp (List.mem_of_find?_eq_some hi), hu.1.1⟩

theorem shmUnlink_bal {name : List UInt8} (h : Bal s k ex) : Settles s (shmUnlink name) ex k := by
  simp only [Settles, shmUnlink, wp_bind, wp_get]
  split
  · exact h
  · rename_i i hi
    obtain ⟨hlt, hu⟩ := findNamed_some hi
    exact maybeFree_bal h hlt hu rfl

theorem shmCreate_bal {name : Option (List UInt8)} (h : Bal s k ex) :
    wp (shmCreate name) (fun id k' => ∀ f : OpenFile, f.obj = some (.shm id) → Bal s k' (f :: ex))
      (fun _ k' => k' = k) k := by
  simp only [shmCreate, wp_bind, wp_get]
  refine wp_position (fun i hi hfree => ?_) rfl
  exact fun f hf => newShm_bal h hi (by simpa using hfree) rfl rfl hf

theorem memfd_bal {cloexec : Bool} (hl : l < MAX_PROCS) (h : Bal s k ex) :
    Settles s (memfd env l cloexec) ex k := by
  simp only [Settles, memfd, wp_bind]
  refine wp_mono (shmCreate_bal h) (fun id k' hk => ?_) fun _ k' hk => hk ▸ h
  exact installNew_bal env hl (hk _ rfl)

theorem mapAnon_bal (h : Bal s k ex) : Settles s (mapAnon : Prog V Unit) ex k := by
  simp only [Settles, mapAnon, shmCreate, wp_bind, wp_get]
  refine wp_position (fun i hi hfree => ?_) h
  simp only [wp_bind, wp_set, wp_pure, wp_modify, wp_onError]
  have hz : (k.shms i).fdRefs = 0 := by
    by_contra hne
    have := (h.tidy.shm i).mpr (Or.inl (Nat.pos_of_ne_zero hne))
    simp [this] at hfree
  have hasked : ∀ (o : Shm) (n : Nat), ({ k.setShm i o with asked := n } : K V) =
      ({ k with asked := n } : K V).setShm i o := fun _ _ => rfl
  simp only [Nat.add_sub_cancel, setShm_setShm, setShm_self]
  refine wp_allocContig ?_ ?_
  · rw [hasked, wp_modify]
    simp only [shmMapRef, shmIdx_setShm hi, setShm_self, setShm_setShm]
    exact setShm_bal (h.asked _) hi hz.symm (by simp)
  · rw [hasked]
    exact maybeFree_bal (h.asked _) hi rfl hz.symm

/-! ### Opening -/

/-- An `open` of `/dev/shm/name` that finds or makes the object, and so comes to `install_shm`. -/
def FindsShm (k : K V) (name : List UInt8) (flags : UInt32) : Prop :=
  match findNamed k name with
  | some _ => ¬ (has flags O_CREAT = true ∧ has flags O_EXCL = true)
  | none => has flags O_CREAT = true ∧ ∃ i < MAX_OBJS, (k.shms i).used = false

/-- A live object gets one more name. -/
theorem nameShm_bal {i : Nat} (h : Bal s k ex) (hi : i < MAX_OBJS) (hu : (k.shms i).used = true)
    (hf : f.obj = some (.shm (i + 1))) :
    Bal s (k.setShm i { k.shms i with fdRefs := (k.shms i).fdRefs + 1 }) (f :: ex) :=
  h.more hf rfl (fun X => refs_setShm _ _ X)
    (h.tidy.setShm hi (iff_of_true hu (Or.inl (Nat.succ_pos _))))

theorem shmEmpty_bal (id : Nat) (h : Bal s k ex) : Bal s (shmEmpty id k) ex := by
  unfold shmEmpty
  split
  · exact h
  · rename_i i hi
    obtain ⟨-, hlt, -⟩ := shmIdx_some hi
    exact setShm_bal h hlt rfl (h.tidy.shm i)

/-- A name of shared memory need not be minded when shared memory does not count. -/
theorem Bal.cons_shm {id : Nat} (hf : f.obj = some (.shm id)) :
    Bal false k (f :: ex) ↔ Bal false k ex := by
  have : ∀ X : Obj, X.Counted false → countOf X (f :: ex) = countOf X ex := fun X hct =>
    countOf_cons_of_ne (by rw [hf]; rintro ⟨⟩; cases hct) ex
  exact ⟨fun h => ⟨fun X hct => by rw [← this X hct]; exact h.count X hct, h.tidy⟩,
    fun h => ⟨fun X hct => by rw [this X hct]; exact h.count X hct, h.tidy⟩⟩

/-- The second half of `open` of `/dev/shm/name`: all but shared memory stays balanced. -/
theorem openFound_bal {id : Nat} {flags : UInt32} (hl : l < MAX_PROCS)
    (h : Bal false k (openOn .shm id 0 false :: ex)) :
    wp (onError (installShm env l id flags) (shmFdRef id (-1)))
      (fun _ k' => Bal false (shmFdRef id (-1) k') ex) (fun _ k' => Bal false k' ex) k := by
  have hobj : (openOn .shm id 0 false).obj = some (.shm id) := rfl
  have drop : ∀ k' : K V, Bal false k' ex → Bal false (shmFdRef id (-1) k') ex := fun _ h =>
    shmFdRef_bal ((Bal.cons_shm hobj).mpr h) hobj
  rw [wp_onError]
  exact wp_mono (installNew_bal env hl (h.rename rfl)) (fun _ k' h' => drop k' h')
    fun _ k' h' => drop k' h'

theorem openShm_bal {name : List UInt8} {flags : UInt32} (hl : l < MAX_PROCS)
    (hf : s = true → ¬ FindsShm k name flags) (h : Bal s k ex) :
    Settles s (openShm env l name flags) ex k := by
  simp only [Settles, openShm, wp_bind, wp_get]
  unfold FindsShm at hf
  split <;> rename_i hfind <;> simp only [hfind] at hf
  · rename_i i
    obtain ⟨hi, hu⟩ := findNamed_some hfind
    have h₁ := nameShm_bal (f := openOn .shm (i + 1) 0 false) h hi hu rfl
    simp only [wp_bind, wp_set, wp_ite, wp_modify, wp_throw, wp_pure]
    refine ⟨fun _ => shmFdRef_bal h₁ rfl, fun hn => ?_⟩
    have hs : s = false := by simpa [hn] using hf
    subst hs
    exact ⟨fun _ => openFound_bal hl (shmEmpty_bal _ h₁), fun _ => openFound_bal hl h₁⟩
  · rw [wp_ite]
    refine ⟨fun hc => ?_, fun _ => h⟩
    simp only [shmCreate, wp_bind, wp_get]
    refine wp_position (fun i hi hfree => ?_) h
    have hs : s = false := by
      by_contra hs
      exact hf (by simpa using hs) ⟨hc, i, hi, by simpa using hfree⟩
    subst hs
    have h₁ := newShm_bal (f := openOn .shm (i + 1) 0 false) (o := { Shm.EMPTY with
        used := true, fdRefs := 1, named := (some name).isSome
        name := ((some name).getD []).take SHM_NAME_MAX }) h hi (by simpa using hfree) rfl rfl rfl
    simp only [wp_bind, wp_set, wp_pure, wp_ite, wp_modify]
    exact ⟨fun _ => openFound_bal hl (shmEmpty_bal _ h₁), fun _ => openFound_bal hl h₁⟩

theorem openProcFd_bal {n : Nat} {flags : UInt32} (hl : l < MAX_PROCS) (h : Bal s k ex) :
    Settles s (openProcFd env l n flags) ex k := by
  simp only [Settles, openProcFd, wp_bind]
  refine wp_getFd (fun hfd => ?_) h
  set f := k.fds l (n % 2 ^ 32) with hf
  -- the file opened names what the descriptor names
  have reopen : ∀ g : OpenFile, g.obj = f.obj → wp (do modify (addRef g); installNew env l g)
      (fun _ k' => Bal s k' ex) (fun _ k' => Bal s k' ex) k := fun g hg => by
    rw [wp_bind, wp_modify]
    exact installNew_bal env hl (addRef_bal h fun X hX => h.named hl hfd (by rw [← hf, ← hg, hX]))
  split <;> exact reopen _ (by simp [OpenFile.obj, openOn, *])

theorem installFile_bal {kind : Kind} {ino : Nat} {fl : UInt32} {b : Bool} (hl : l < MAX_PROCS)
    (hk : (openOn kind ino fl b).obj = none) (h : Bal s k ex) :
    Settles s (install l (openOn kind ino fl b) 0) ex k :=
  wp_mono (install_bal hl ((Bal.cons_none hk).mpr h)) (fun _ _ h => h)
    fun _ _ h => (Bal.cons_none hk).mp h

theorem openIno_bal {ino : Nat} {created : Bool} {flags : UInt32} (hl : l < MAX_PROCS)
    (h : Bal s k ex) : Settles s (openIno env l ino created flags) ex k := by
  have hvol : ∀ v : V, Bal s { k with vol := v } ex := h.vol
  simp only [Settles, openIno, openKind, wp_bind]
  refine wp_below (fun m v => ?_) fun _ _ => hvol _
  -- nothing counted is named by an inode's descriptor
  have last : ∀ (kind : Kind) (v : V) fl b, kind = .dir ∨ kind = .file →
      wp (install l (openOn kind ino fl b) 0) (fun _ k' => Bal s k' ex) (fun _ k' => Bal s k' ex)
        { k with vol := v } := fun kind v fl b hk =>
    installFile_bal hl (by rcases hk with rfl | rfl <;> rfl) (hvol v)
  cases m with
  | lnk | other => exact hvol v
  | dir =>
      simp only [wp_pure, wp_bind, wp_ite, wp_throw]
      refine ⟨fun _ => hvol v, fun _ => ⟨fun _ => hvol v, fun _ => ⟨fun _ => ?_, fun _ => ?_⟩⟩⟩
      · exact wp_below (fun _ v => last _ v _ _ (Or.inl rfl)) fun _ _ => hvol _
      · exact last _ v _ _ (Or.inl rfl)
  | reg =>
      simp only [wp_pure, wp_bind, wp_ite, wp_throw]
      refine ⟨fun _ => hvol v, fun _ => ⟨fun _ => hvol v, fun _ => ⟨fun _ => ?_, fun _ => ?_⟩⟩⟩
      · exact wp_below (fun _ v => last _ v _ _ (Or.inr rfl)) fun _ _ => hvol _
      · exact last _ v _ _ (Or.inr rfl)

theorem openFile_bal {at' : Nat} {path : List UInt8} {flags : UInt32} (hl : l < MAX_PROCS)
    (h : Bal s k ex) : Settles s (openFile env l at' path flags) ex k := by
  simp only [Settles, openFile, wp_ite, wp_bind]
  refine ⟨fun _ => ?_, fun _ => ?_⟩ <;>
    exact wp_below (fun _ v => openIno_bal hl (h.vol v)) fun _ v => h.vol v

theorem openAt_bal {at' : Nat} {t : Target} {flags : UInt32} (hl : l < MAX_PROCS)
    (ht : s = true → ∀ name, t = .shm name → ¬ FindsShm k name flags) (h : Bal s k ex) :
    Settles s (openAt env l at' t flags) ex k := by
  cases t with
  | shm name =>
      have hf : s = true → ¬ FindsShm k name flags := fun hs => ht hs name rfl
      exact openShm_bal hl hf h
  | procFd n => exact openProcFd_bal hl h
  | dev d => exact installFile_bal hl (by cases d <;> rfl) h
  | proc pages len => exact openProc_bal hl h
  | file path => exact openFile_bal hl h

/-! ### Descriptors -/

theorem close_bal (hl : l < MAX_PROCS) (h : Bal s k ex) : Settles s (close env l fd) ex k := by
  simp only [Settles, close, wp_bind]
  refine wp_getFd (fun hfd => ?_) h
  exact dropRef_bal env (takeFd_bal hl hfd h)

theorem dupEx_bal {newfd : Nat} {cloexec : Bool} (hl : l < MAX_PROCS) (h : Bal s k ex) :
    Settles s (dupEx env l fd newfd cloexec) ex k := by
  simp only [Settles, dupEx, wp_bind]
  refine wp_getFd (fun hfd => ?_) h
  set f : OpenFile := { k.fds l (fd % 2 ^ 32) with cloexec := cloexec } with hf
  have h₁ : Bal s (addRef f k) (f :: ex) := addRef_bal h fun X hX => h.named hl hfd hX
  simp only [wp_ite, wp_throw, wp_pure, wp_bind]
  refine ⟨fun _ => ?_, fun _ => ⟨fun _ => h, fun hlt => ⟨fun _ => h, fun _ => ?_⟩⟩⟩
  · refine wp_install (fun r hr hrfree => ?_) h
    simp only [wp_bind, wp_modify, wp_pure]
    rw [addRef_setFd]
    exact setFd_free_bal hl hr (by rw [addRef_fds]; exact hrfree) h₁
  · rw [wp_modify, addRef_setFd]
    have := setFd_bal hl (by omega : newfd < MAX_FDS) h₁
    rw [addRef_fds] at this
    exact dropRef_bal env this

/-- The offset of a descriptor moves. -/
theorem moveOff_bal {pos : Option Nat} {off : Nat} (hl : l < MAX_PROCS) (hfd : fd < MAX_FDS)
    (h : Bal s k ex) : Bal s (moveOff l fd pos off k) ex := by
  unfold moveOff
  split
  · exact retouch_bal hl hfd rfl h
  · exact h

theorem transfer_bal {α : Type} {g : OpenFile} {w : Bool} {len : Nat} {pos : Option Nat} {p : Prop}
    [Decidable p] {r : Nat → α} (hl : l < MAX_PROCS) (hfd : fd < MAX_FDS) (h : Bal s k ex) :
    Settles s (do
      let x ← below (env.transfer g w len)
      modify (if p then id else moveOff l fd pos x.2)
      pure (r x.1)) ex k := by
  simp only [Settles, wp_bind]
  refine wp_below (fun x v => ?_) fun _ v => h.vol v
  simp only [wp_bind, wp_modify, wp_pure]
  split
  · exact h.vol v
  · exact moveOff_bal hl hfd (h.vol v)

theorem read_bal {len : Nat} {pos : Option Nat} (hl : l < MAX_PROCS) (h : Bal s k ex) :
    Settles s (read env l fd len pos) ex k := by
  simp only [Settles, read, wp_bind]
  refine wp_getFd (fun hfd => ?_) h
  split
  case h_6 => exact wp_ite.mpr ⟨fun _ => h, fun _ => transfer_bal hl hfd h⟩
  case h_10 => exact wp_ite.mpr ⟨fun _ => h, fun _ => pipeRead_bal h⟩
  case h_11 hk => exact unixReadPlain_bal h (h.conn_used hl hfd hk)
  case h_12 => exact eventRead_bal h
  all_goals first | exact h | exact transfer_bal hl hfd h

theorem write_bal {src : Nat → UInt8} {len : Nat} {pos : Option Nat} (hl : l < MAX_PROCS)
    (h : Bal s k ex) : Settles s (write env l fd src len pos) ex k := by
  simp only [Settles, write, wp_bind]
  refine wp_getFd (fun hfd => ?_) h
  split
  case h_7 => exact wp_ite.mpr ⟨fun _ => h, fun _ => transfer_bal (r := fun n => n) hl hfd h⟩
  case h_10 => exact wp_ite.mpr ⟨fun _ => h, fun _ => pipeWrite_bal h⟩
  case h_11 hk =>
      have h₀ : Bal s k ([] ++ ex) := h
      exact unixWrite_bal h₀ (h.conn_used hl hfd hk) (mod_two_lt _)
  case h_12 => exact eventWrite_bal h
  all_goals first | exact h | exact transfer_bal (r := fun n => n) hl hfd h

/-! ### Processes -/

theorem release_bal (hl : l < MAX_PROCS) (h : Bal s k ex) : Bal s (release env l k) ex :=
  dropRefs_bal env _ (takeRow_bal hl (fun fd => by unfold DEFAULT_TABLE; split <;> rfl) h)

theorem execCleanupFrom_bal (hl : l < MAX_PROCS) : ∀ (fds : List Nat) {k : K V},
    (∀ fd ∈ fds, fd < MAX_FDS) → Bal s k ex → Bal s (execCleanupFrom env l fds k) ex
  | [], _, _, h => h
  | fd :: fds, k, hfds, h => by
      refine execCleanupFrom_bal hl fds (fun g hg => hfds g (List.mem_cons_of_mem _ hg)) ?_
      split
      · exact dropRef_bal env (takeFd_bal hl (hfds fd (List.mem_cons_self ..)) h)
      · exact h

theorem execCleanup_bal (hl : l < MAX_PROCS) (h : Bal s k ex) : Bal s (execCleanup env l k) ex :=
  execCleanupFrom_bal hl _ (fun _ hfd => List.mem_range.mp hfd) h

/-- Files in hand make up a whole table: what it was is in hand. -/
theorem putRow_bal {t : Nat → OpenFile} {cwd : Nat → Nat} (hl : l < MAX_PROCS)
    (h : Bal s k ((List.range MAX_FDS).map t ++ ex)) :
    Bal s ({ k with fds := Function.update k.fds l t, cwd := cwd } : K V) (k.row l ++ ex) := by
  refine ⟨fun X hct => ?_, { h.tidy with pipe := h.tidy.pipe }⟩
  have hcount : k.refs X = k.held X + countOf X ((List.range MAX_FDS).map t ++ ex) := h.count X hct
  have hheld := held_setRow (k := k) (t := t) hl X
  have hcwd : ({ k with fds := Function.update k.fds l t, cwd := cwd } : K V).held X =
      ({ k with fds := Function.update k.fds l t } : K V).held X := rfl
  have hrefs : ({ k with fds := Function.update k.fds l t, cwd := cwd } : K V).refs X = k.refs X := by
    cases X <;> rfl
  rw [countOf_append] at hcount
  rw [hcwd, hrefs, countOf_append]
  omega

/-- A table is copied; what the copy overwrites is named by nobody any more. -/
theorem cloneTable_bal {dst : Nat} (hl : l < MAX_PROCS) (hdst : dst < MAX_PROCS) (h : Bal s k ex) :
    Bal s (cloneTable l dst k) (k.row dst ++ ex) := by
  have h₁ := addRefs_bal (k.row l) h fun f hf X hX => by
    obtain ⟨fd, hfd, rfl⟩ := List.mem_map.mp hf
    exact held_pos hl (List.mem_range.mp hfd) hX
  have hfds := addRefs_fds (k.row l) k
  set k₁ := (k.row l).foldl (fun k f => addRef f k) k with hk₁
  have hrow : (List.range MAX_FDS).map (k.fds l) = k.row l := rfl
  have hdst' : k₁.row dst = k.row dst := by rw [K.row, K.row, hfds]
  rw [← hdst']
  exact putRow_bal hdst (by rw [hrow]; exact h₁)

/-- A table that names nothing. -/
theorem Bal.row_none {k₀ : K V} (hempty : ∀ fd < MAX_FDS, (k₀.fds l fd).obj = none) :
    Bal s k (k₀.row l ++ ex) ↔ Bal s k ex := by
  have : ∀ X, countOf X (k₀.row l ++ ex) = countOf X ex := fun X => by
    rw [countOf_append, K.row, countOf_row, Finset.sum_eq_zero, Nat.zero_add]
    exact fun fd hfd => if_neg (by simp [hempty fd (Finset.mem_range.mp hfd)])
  exact ⟨fun h => h.perm fun X => (this X).symm, fun h => h.perm this⟩

/-! ### Calls and runs -/

/-- What a call must keep clear of: an `open` that gets as far as `install_shm` for a named object,
and a fork into a slot whose old table still names something. -/
def Call.Clear (k : K V) : Call → Prop
  | .openAt _ (.shm name) flags => ¬ FindsShm k name flags
  | .fork dst => dst < MAX_PROCS ∧ ∀ fd < MAX_FDS, (k.fds dst fd).obj = none
  | _ => True

/-- **A call settles the account**, with its result or an error; without shared memory, whatever it
is, but for what a fork overwrites. -/
theorem call_settles {c : Call} (hl : l < MAX_PROCS) (hc : s = true → c.Clear k)
    (hfork : ∀ dst, c ≠ .fork dst) (h : Bal s k ex) : Bal s ((c.run env l).after k) ex := by
  apply Prog.after_of_wp (P := fun k => Bal s k ex)
  cases c with
  | openAt at' t flags =>
      refine wp_discard.mpr (openAt_bal hl (fun hs name ht => ?_) h)
      subst ht
      exact hc hs
  | pipe flags => exact wp_discard.mpr (pipe_bal hl h)
  | read fd len pos => exact wp_discard.mpr (read_bal hl h)
  | write fd src len pos => exact wp_discard.mpr (write_bal hl h)
  | close fd => exact wp_discard.mpr (close_bal hl h)
  | dup fd newfd cloexec => exact wp_discard.mpr (dupEx_bal hl h)
  | eventfd init flags => exact wp_discard.mpr (eventfd_bal hl h)
  | epollCreate flags => exact wp_discard.mpr (epollCreate_bal hl h)
  | socket domain ty => exact wp_discard.mpr (socket_bal hl h)
  | socketpair domain ty => exact wp_discard.mpr (socketpair_bal hl h)
  | bind fd sa => exact wp_discard.mpr (bind_bal h)
  | listen fd => exact wp_discard.mpr (listen_bal hl h)
  | connect fd sa => exact wp_discard.mpr (connect_bal hl h)
  | accept fd flags => exact wp_discard.mpr (accept_bal hl h)
  | send fd src len fds nonblock => exact wp_discard.mpr (unixSend_bal hl h)
  | recv fd len nonblock cloexec room => exact wp_discard.mpr (unixRecv_bal hl h)
  | shutdown fd how => exact wp_discard.mpr (shutdown_bal hl h)
  | memfd cloexec => exact wp_discard.mpr (memfd_bal hl h)
  | shmUnlink name => exact wp_discard.mpr (shmUnlink_bal h)
  | mapShm fd => exact mapShm_bal h
  | unmapShm id => exact unmapShm_bal h
  | mapAnon => exact mapAnon_bal h
  | fork dst => exact absurd rfl (hfork dst)
  | exec => exact execCleanup_bal hl h
  | exit => exact release_bal hl h

theorem call_bal {c : Call} (hl : l < MAX_PROCS) (hc : c.Clear k) (h : Bal true k ex) :
    Bal true ((c.run env l).after k) ex := by
  by_cases hfork : ∃ dst, c = .fork dst
  · obtain ⟨dst, rfl⟩ := hfork
    have h' := cloneTable_bal hl hc.1 h
    exact (Bal.row_none hc.2).mp h'
  · exact call_settles hl (fun _ => hc) (fun dst e => hfork ⟨dst, e⟩) h

/-- The calls of all processes, in the order they take FS, each by the process of a slot. -/
def runCalls (env : Env V) : List (Nat × Call) → K V → K V
  | [], k => k
  | (l, c) :: cs, k => runCalls env cs ((c.run env l).after k)

/-- Every call of the run is made from a slot of the process table and is clear. -/
def ClearRun (env : Env V) : List (Nat × Call) → K V → Prop
  | [], _ => True
  | (l, c) :: cs, k => l < MAX_PROCS ∧ c.Clear k ∧ ClearRun env cs ((c.run env l).after k)

theorem run_bal : ∀ (cs : List (Nat × Call)) {k : K V}, ClearRun env cs k → Bal true k ex →
    Bal true (runCalls env cs k) ex
  | [], _, _, h => h
  | (_, _) :: cs, _, hc, h => run_bal cs hc.2.2 (call_bal hc.1 hc.2.1 h)

theorem boot_bal (vol : V) (frames : Nat → Bool) : Bal s (K.boot vol frames) [] := by
  refine ⟨fun X hct => ?_, ?_⟩
  · have hrow : ∀ l, countOf X ((K.boot vol frames).row l) = 0 := fun l => by
      rw [K.row, countOf_row]
      refine Finset.sum_eq_zero fun fd _ => if_neg ?_
      show (DEFAULT_TABLE fd).obj ≠ some X
      unfold DEFAULT_TABLE
      split <;> simp [OpenFile.obj, CONSOLE, FREE]
    have hconn : ∀ c, countOf X ((K.boot vol frames).conns c).files = 0 := fun _ => rfl
    have hlist : ∀ i, countOf X ((K.boot vol frames).listeners i).files = 0 := fun _ => rfl
    have hheld : (K.boot vol frames).held X = 0 := by
      simp [K.held, hrow, hconn, hlist]
    rw [hheld]
    cases X <;> simp [K.refs, K.boot, Pipe.EMPTY, MemFile.EMPTY, Sock.EMPTY, USock.EMPTY, CEMPTY,
      LEMPTY, Shm.EMPTY]
  · constructor <;> intro i <;> simp [K.boot, Pipe.EMPTY, MemFile.EMPTY, Sock.EMPTY, USock.EMPTY,
      CEMPTY, LEMPTY, Shm.EMPTY, Conn.files, QEMPTY, Queue.files]

/-- **References balance.**  After any run from boot that keeps clear of the two kinds of call, the
counter of every object is the number of open files that name it, and its slot is in use exactly as
long as it is named (for shared memory, also as long as it is mapped or has its name). -/
theorem references_balance (env : Env V) (vol : V) (frames : Nat → Bool) (cs : List (Nat × Call))
    (hc : ClearRun env cs (K.boot vol frames)) :
    (∀ X, (runCalls env cs (K.boot vol frames)).refs X =
      (runCalls env cs (K.boot vol frames)).held X) ∧ Tidy (runCalls env cs (K.boot vol frames)) := by
  have h := run_bal cs hc (boot_bal vol frames)
  have counted : ∀ X : Obj, X.Counted true := fun X => by cases X <;> trivial
  exact ⟨fun X => by simpa using h.count X (counted X), h.tidy⟩

/-- A volume with nothing on it, for runs that stay off the volume. -/
def Env.void : Env Unit where
  create := fun _ _ _ v => (.error ENOSPC, v)
  resolveAt := fun _ _ _ v => (.error ENOENT, v)
  kindOf := fun _ v => (.error ENOENT, v)
  truncate := fun _ v => (.error ENOENT, v)
  releaseInode := fun _ v => v
  tidy := fun v => v
  mknodSocket := fun _ _ v => (.error ENOSPC, v)
  isSocket := fun _ v => (.error ENOENT, v)
  tcpClose := fun _ v => v
  netConnect := fun n v => (.error ECONNREFUSED, n, v)
  udpAllocPort := fun v => (0, v)
  transfer := fun _ _ _ v => (.error EBADF, v)

/-- A pipe, its reading end sent over a socket pair, and both its descriptors closed: the reading
end is still counted, for it is on its way. -/
theorem references_balance_in_flight :
    let k := runCalls Env.void [(0, .pipe 0), (0, .socketpair 1 1),
      (0, .send 5 (fun _ => 0) 1 [3] false), (0, .close 3), (0, .close 4)] (K.boot () fun _ => true)
    (∀ X, k.refs X = k.held X) ∧ Tidy k :=
  references_balance _ _ _ _ ⟨by decide, trivial, by decide, trivial, by decide, trivial, by decide,
    trivial, by decide, trivial, trivial⟩

/-- **The reference of `open_named` is given back once too often.**  Opening a new `/dev/shm`
object and removing its name frees it while descriptor 3 is open on it. -/
theorem shm_unlink_frees_open :
    let k := runCalls Env.void [(0, .openAt 2 (.shm [97]) (O_RDWR ||| O_CREAT)),
      (0, .shmUnlink [97])] (K.boot () fun _ => true)
    (k.fds 0 3).obj = some (.shm 1) ∧ (k.shms 0).used = false ∧ k.refs (.shm 1) ≠ k.held (.shm 1) := by
  intro k
  have hobj : (k.fds 0 3).obj = some (.shm 1) := by decide +kernel
  have hrefs : k.refs (.shm 1) = 0 := by decide +kernel
  refine ⟨hobj, by decide +kernel, fun h => ?_⟩
  have := held_pos (by decide) (by decide) hobj
  omega

end Pulsar.Kernel

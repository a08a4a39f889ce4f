import Pulsar.Kernel.Telling

/-!
# The course of a call

What most calls do is make a descriptor, count a file once more, close files, and change what
nobody waits for.  `Along` is a relation between states that each of these steps goes along with;
the lemmas here say that the calls that do nothing else go along with it, too, however they end.
-/

namespace Pulsar.Kernel

variable {V α : Type} {env : Env V} {R : K V → K V → Prop} {k k' k₀ : K V} {f : OpenFile}
  {l fd i : Nat}

/-- The relation goes along with the small steps of calls. -/
structure Along (env : Env V) (R : K V → K V → Prop) : Prop where
  trans : ∀ {k k₁ k' : K V}, R k k₁ → R k₁ k' → R k k'
  same : ∀ {k k' : K V}, Same k k' → k'.usocks = k.usocks → R k k'
  adds : ∀ (f : OpenFile) (k : K V), R k (addRef f k)
  drops : ∀ (fs : List OpenFile) (k : K V), R k (dropRefs env fs k)

/-- The program goes along with the relation from `k₀` on, however it ends. -/
abbrev Goes (R : K V → K V → Prop) (k₀ : K V) (x : Prog V α) (k : K V) : Prop :=
  wp x (fun _ k' => R k₀ k') (fun _ k' => R k₀ k') k

theorem Goes.discard {x : Prog V α} (h : Goes R k₀ x k) : Goes R k₀ (discard x) k :=
  wp_discard.mpr h

/-! ### What leaves the sockets without a connection alone -/

theorem maybeFree_usocks (id : Nat) (k : K V) : (maybeFree id k).usocks = k.usocks := by
  unfold maybeFree
  split
  · rfl
  · dsimp only
    split <;> rfl

theorem shmFdRef_usocks (id : Nat) (d : Int) (k : K V) : (shmFdRef id d k).usocks = k.usocks := by
  unfold shmFdRef
  cases shmIdx k id with
  | none =>
      dsimp only
      split
      · exact maybeFree_usocks id k
      · rfl
  | some i =>
      dsimp only
      split
      · exact maybeFree_usocks id _
      · rfl

theorem shmMapRef_usocks (id : Nat) (d : Int) (k : K V) : (shmMapRef id d k).usocks = k.usocks := by
  unfold shmMapRef
  cases shmIdx k id with
  | none =>
      dsimp only
      split
      · exact maybeFree_usocks id k
      · rfl
  | some i =>
      dsimp only
      split
      · exact maybeFree_usocks id _
      · rfl

theorem shmEmpty_usocks (id : Nat) (k : K V) : (shmEmpty id k).usocks = k.usocks := by
  unfold shmEmpty
  split <;> rfl

namespace Along

variable (hR : Along env R)
include hR

/-! ### Small steps -/

protected theorem refl (k : K V) : R k k := hR.same (.refl k) rfl

theorem next (h : R k₀ k) (hs : Same k k') (hu : k'.usocks = k.usocks) : R k₀ k' :=
  hR.trans h (hR.same hs hu)

theorem vol (h : R k₀ k) (v : V) : R k₀ { k with vol := v } := hR.next h (vol_same v) rfl

protected theorem setFd (h : R k₀ k) (g : OpenFile) : R k₀ (k.setFd l fd g) := hR.next h (setFd_same g) rfl

protected theorem setShm (h : R k₀ k) (o : Shm) : R k₀ (k.setShm i o) := hR.next h (setShm_same o) rfl

protected theorem shmFdRef (h : R k₀ k) (id : Nat) (d : Int) : R k₀ (shmFdRef id d k) :=
  hR.next h (shmFdRef_same id d k) (shmFdRef_usocks id d k)

protected theorem shmMapRef (h : R k₀ k) (id : Nat) (d : Int) : R k₀ (shmMapRef id d k) :=
  hR.next h (shmMapRef_same id d k) (shmMapRef_usocks id d k)

protected theorem dropRef (h : R k₀ k) (f : OpenFile) : R k₀ (dropRef env f k) :=
  hR.trans h (hR.drops [f] k)

protected theorem addRefs (h : R k₀ k) (fs : List OpenFile) : R k₀ (fs.foldl (fun k f => addRef f k) k) := by
  induction fs generalizing k with
  | nil => exact h
  | cons f fs ih => exact ih (hR.trans h (hR.adds f k))

protected theorem replaceFd (h : R k₀ k) (g : OpenFile) : R k₀ (replaceFd env l fd f g k) :=
  hR.dropRef (hR.setFd h f) g

/-! ### Descriptors -/

protected theorem install {min : Nat} (h : R k₀ k) : Goes R k₀ (install l f min) k :=
  wp_install (fun _ _ _ => hR.setFd h f) h

protected theorem installNew (h : R k₀ k) : Goes R k₀ (installNew env l f) k := by
  rw [Goes, installNew, wp_onError]
  exact wp_mono (hR.install h) (fun _ _ h => h) fun _ _ h => hR.dropRef h f

protected theorem close (h : R k₀ k) : Goes R k₀ (close env l fd) k := by
  simp only [Goes, close, wp_bind]
  exact wp_getFd (fun _ => hR.replaceFd h _) h

protected theorem dupEx {newfd : Nat} {cloexec : Bool} (h : R k₀ k) :
    Goes R k₀ (dupEx env l fd newfd cloexec) k := by
  simp only [Goes, dupEx, wp_bind]
  refine wp_getFd (fun _ => ?_) h
  simp only [wp_ite, wp_throw, wp_pure, wp_bind]
  refine ⟨fun _ => ?_, fun _ => ⟨fun _ => h, fun _ => ⟨fun _ => h, fun _ => ?_⟩⟩⟩
  · exact wp_mono (hR.install h) (fun _ k' h => hR.trans h (hR.adds _ k')) fun _ _ h => h
  · exact hR.dropRef (hR.trans (hR.setFd h _) (hR.adds _ _)) _

protected theorem release (k : K V) : R k (release env l k) := by
  unfold Kernel.release
  refine hR.trans ?_ (hR.drops (k.row l) _)
  exact hR.same ⟨rfl, rfl, rfl, rfl, rfl, rfl, rfl⟩ rfl

protected theorem cloneTable (src dst : Nat) (k : K V) : R k (cloneTable src dst k) := by
  unfold cloneTable
  refine hR.trans (hR.addRefs (hR.refl k) (k.row src)) ?_
  generalize (k.row src).foldl (fun k f => addRef f k) k = k₁
  exact hR.same ⟨rfl, rfl, rfl, rfl, rfl, rfl, rfl⟩ rfl

protected theorem execCleanupFrom (fds : List Nat) (k : K V) : R k (execCleanupFrom env l fds k) := by
  induction fds generalizing k with
  | nil => exact hR.refl k
  | cons fd fds ih =>
      refine hR.trans ?_ (ih _)
      split
      · exact hR.replaceFd (hR.refl k) _
      · exact hR.refl k

/-- The descriptors that are received are installed, or closed. -/
protected theorem receiveFiles {cloexec : Bool} (fs : List OpenFile) (room : Nat) (h : R k₀ k) :
    R k₀ (receiveFiles env l cloexec room fs k).2 := by
  induction fs generalizing room k with
  | nil => cases room <;> exact h
  | cons x xs ih =>
      cases room with
      | zero => exact ih 0 (hR.dropRef h x)
      | succ room =>
          have hi : Goes R k₀ (install l { x with cloexec := cloexec } 0) k := hR.install h
          unfold receiveFiles
          split <;> rename_i hx
          · exact ih room (hi.ok hx)
          · exact ih (room + 1) (hR.dropRef (hi.error hx) x)

/-! ### Shared memory -/

protected theorem shmCreate {name : Option (List UInt8)} (h : R k₀ k) : Goes R k₀ (shmCreate name) k := by
  simp only [Goes, shmCreate, wp_bind, wp_get]
  exact wp_position (fun _ _ _ => hR.setShm h _) h

protected theorem memfd {cloexec : Bool} (h : R k₀ k) : Goes R k₀ (memfd env l cloexec) k := by
  simp only [Goes, memfd, wp_bind]
  exact wp_mono (hR.shmCreate h) (fun _ _ h => hR.installNew h) fun _ _ h => h

protected theorem shmUnlink {name : List UInt8} (h : R k₀ k) : Goes R k₀ (shmUnlink name) k := by
  simp only [Goes, shmUnlink, wp_bind, wp_get]
  split
  · exact h
  · exact hR.next (hR.setShm h _) (maybeFree_same _ _) (maybeFree_usocks _ _)

protected theorem mapShm (h : R k₀ k) : Goes R k₀ (mapShm l fd) k := by
  simp only [Goes, mapShm, wp_bind]
  refine wp_getFd (fun _ => ?_) h
  simp only [wp_ite, wp_modify, wp_throw]
  exact ⟨fun _ => hR.shmMapRef h _ _, fun _ => h⟩

protected theorem unmapShm {id : Nat} (h : R k₀ k) : Goes R k₀ (unmapShm id) k := by
  simp only [Goes, unmapShm, wp_bind, wp_get]
  split
  · exact h
  · simp only [wp_ite, wp_modify, wp_throw]
    exact ⟨fun _ => hR.shmMapRef h _ _, fun _ => h⟩

protected theorem mapAnon (h : R k₀ k) : Goes R k₀ (mapAnon : Prog V Unit) k := by
  simp only [Goes, mapAnon, wp_bind]
  refine wp_mono (hR.shmCreate h) (fun id k' h => ?_) fun _ _ h => h
  simp only [wp_bind, wp_modify, wp_onError]
  have hset := hR.setShm (i := id - 1) h { k'.shms (id - 1) with fdRefs := 0 }
  have hask := fun n => hR.next hset (asked_same n) rfl
  exact wp_allocContig (hR.shmMapRef (hask _) _ _)
    (hR.next (hask _) (maybeFree_same _ _) (maybeFree_usocks _ _))

/-! ### Opening -/

protected theorem openShm {name : List UInt8} {flags : UInt32} (h : R k₀ k) :
    Goes R k₀ (openShm env l name flags) k := by
  have found : ∀ (id : Nat) (k : K V), R k₀ k →
      wp (onError (installShm env l id flags) (shmFdRef id (-1)))
        (fun _ k' => R k₀ (shmFdRef id (-1) k')) (fun _ k' => R k₀ k') k := by
    intro id k h
    rw [wp_onError]
    exact wp_mono (hR.installNew h) (fun _ _ h => hR.shmFdRef h _ _) fun _ _ h => hR.shmFdRef h _ _
  simp only [Goes, openShm, wp_bind, wp_get]
  split
  · simp only [wp_bind, wp_set, wp_ite, wp_modify, wp_throw, wp_pure]
    refine ⟨fun _ => hR.shmFdRef (hR.setShm h _) _ _, fun _ => ⟨fun _ => ?_, fun _ => ?_⟩⟩
    · exact found _ _ (hR.next (hR.setShm h _) (shmEmpty_same _ _) (shmEmpty_usocks _ _))
    · exact found _ _ (hR.setShm h _)
  · rw [wp_ite]
    refine ⟨fun _ => ?_, fun _ => h⟩
    rw [wp_bind]
    refine wp_mono (hR.shmCreate h) (fun id k' h => ?_) fun _ _ h => h
    simp only [wp_bind, wp_ite, wp_modify]
    exact ⟨fun _ => found _ _ (hR.next h (shmEmpty_same _ _) (shmEmpty_usocks _ _)),
      fun _ => found _ _ h⟩

protected theorem openProcFd {n : Nat} {flags : UInt32} (h : R k₀ k) :
    Goes R k₀ (openProcFd env l n flags) k := by
  simp only [Goes, openProcFd, wp_bind]
  refine wp_getFd (fun _ => ?_) h
  split <;> exact hR.installNew (hR.trans h (hR.adds _ k))

protected theorem openProc {pages len : Nat} {flags : UInt32} (h : R k₀ k) :
    Goes R k₀ (openProc env l pages len flags) k := by
  have hask := hR.next h (asked_same (k.asked + 1)) rfl
  simp only [Goes, openProc, wp_bind]
  refine wp_allocContig ?_ hask
  simp only [wp_bind, wp_get]
  refine wp_position (fun i _ _ => ?_) hask
  exact hR.installNew (hR.next hask ⟨rfl, rfl, rfl, rfl, rfl, rfl, rfl⟩ rfl)

protected theorem openIno {ino : Nat} {created : Bool} {flags : UInt32} (h : R k₀ k) :
    Goes R k₀ (openIno env l ino created flags) k := by
  simp only [Goes, openIno, openKind, wp_bind]
  refine wp_below (fun m v => ?_) fun _ v => hR.vol h v
  cases m with
  | lnk | other => exact hR.vol h v
  | dir | reg =>
      simp only [wp_pure, wp_bind, wp_ite, wp_throw]
      refine ⟨fun _ => hR.vol h v, fun _ => ⟨fun _ => hR.vol h v, fun _ => ⟨fun _ => ?_,
        fun _ => ?_⟩⟩⟩
      · exact wp_below (fun _ v => hR.install (hR.vol h v)) fun _ v => hR.vol h v
      · exact hR.install (hR.vol h v)

protected theorem openFile {at' : Nat} {path : List UInt8} {flags : UInt32} (h : R k₀ k) :
    Goes R k₀ (openFile env l at' path flags) k := by
  simp only [Goes, openFile, wp_ite, wp_bind]
  refine ⟨fun _ => ?_, fun _ => ?_⟩ <;>
    exact wp_below (fun _ v => hR.openIno (hR.vol h v)) fun _ v => hR.vol h v

protected theorem openAt {at' : Nat} {t : Target} {flags : UInt32} (h : R k₀ k) :
    Goes R k₀ (openAt env l at' t flags) k := by
  cases t with
  | shm name => exact hR.openShm h
  | procFd n => exact hR.openProcFd h
  | dev d => exact hR.install h
  | proc pages len => exact hR.openProc h
  | file path => exact hR.openFile h

/-! ### Objects and transfers beside the sockets -/

protected theorem epollCreate {flags : UInt32} (h : R k₀ k) : Goes R k₀ (epollCreate env l flags) k := by
  simp only [Goes, epollCreate, wp_bind, wp_get]
  refine wp_position (fun i _ _ => ?_) h
  exact hR.installNew (hR.next h ⟨rfl, rfl, rfl, rfl, rfl, rfl, rfl⟩ rfl)

protected theorem unixKey {a : SockAddr} {create : Bool} (h : R k₀ k) :
    Goes R k₀ (unixKey env l a create) k := by
  cases a with
  | inet _ _ => exact h
  | abstract name => exact h
  | path p =>
      simp only [Goes, unixKey, wp_bind, wp_get]
      split
      · split
        · exact hR.vol h _
        · simp only [wp_bind, wp_set, wp_ite, wp_throw]
          refine ⟨fun _ => wp_below (fun ino v => ?_) fun _ v => hR.vol h v, fun _ => hR.vol h _⟩
          rw [wp_bind]
          refine wp_below (fun sock v => ?_) fun _ v => hR.vol h v
          simp only [wp_bind, wp_get, wp_ite, wp_pure, wp_throw]
          exact ⟨fun _ => hR.vol h v, fun _ => hR.vol h v⟩
      · rw [wp_bind]
        refine wp_below (fun ino v => ?_) fun _ v => hR.vol h v
        rw [wp_bind]
        refine wp_below (fun sock v => ?_) fun _ v => hR.vol h v
        simp only [wp_ite, wp_pure, wp_throw]
        exact ⟨fun _ => hR.vol h v, fun _ => hR.vol h v⟩

theorem transfer {g : OpenFile} {w : Bool} {len : Nat} {pos : Option Nat} {p : Prop}
    [Decidable p] {r : Nat → α} (h : R k₀ k) :
    Goes R k₀ (do
      let x ← below (env.transfer g w len)
      modify (if p then id else moveOff l fd pos x.2)
      pure (r x.1)) k := by
  simp only [Goes, wp_bind]
  refine wp_below (fun x v => ?_) fun _ v => hR.vol h v
  simp only [wp_bind, wp_modify, wp_pure]
  split
  · exact hR.vol h v
  · unfold moveOff
    split
    · exact hR.setFd (hR.vol h v) _
    · exact hR.vol h v

end Along

end Pulsar.Kernel

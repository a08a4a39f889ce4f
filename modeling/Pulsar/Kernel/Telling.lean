import Pulsar.Kernel.Waits

/-!
# Taking and giving back references tells

`addRef_tells` and `dropRefs_tells`: whoever loses the last counterpart of the end it waits at has
its key pushed.
-/

namespace Pulsar.Kernel

variable {V α : Type} {env : Env V} {k k' k₀ k₁ : K V} {W : Wait → Prop} {f : OpenFile}
  {l fd c e i : Nat}

/-! ### Small steps -/

/-- Neither a key nor an object that is waited for is touched. -/
structure Same (k k' : K V) : Prop where
  pipes : k'.pipes = k.pipes
  conns : k'.conns = k.conns
  listeners : k'.listeners = k.listeners
  events : k'.events = k.events
  seq : k'.seq = k.seq
  pending : k'.pending = k.pending
  block : k'.blockOn = k.blockOn

theorem Same.refl (k : K V) : Same k k := ⟨rfl, rfl, rfl, rfl, rfl, rfl, rfl⟩

theorem Same.trans (h : Same k k₁) (h' : Same k₁ k') : Same k k' :=
  ⟨h'.pipes.trans h.pipes, h'.conns.trans h.conns, h'.listeners.trans h.listeners,
    h'.events.trans h.events, h'.seq.trans h.seq, h'.pending.trans h.pending,
    h'.block.trans h.block⟩

theorem Same.tells (h : Same k k') : Tells W k k' :=
  .quiet h.pipes h.conns h.listeners h.events h.seq h.pending h.block

theorem Tells.same (h : Tells W k₀ k) (hs : Same k k') : Tells W k₀ k' := h.trans hs.tells

theorem setFd_same (g : OpenFile) : Same k (k.setFd l fd g) := ⟨rfl, rfl, rfl, rfl, rfl, rfl, rfl⟩

theorem setShm_same (o : Shm) : Same k (k.setShm i o) := ⟨rfl, rfl, rfl, rfl, rfl, rfl, rfl⟩

theorem asked_same (n : Nat) : Same k { k with asked := n } := ⟨rfl, rfl, rfl, rfl, rfl, rfl, rfl⟩

theorem vol_same (v : V) : Same k { k with vol := v } := ⟨rfl, rfl, rfl, rfl, rfl, rfl, rfl⟩

theorem maybeFree_same (id : Nat) (k : K V) : Same k (maybeFree id k) := by
  unfold maybeFree
  split
  · exact .refl k
  · dsimp only
    split
    · exact .refl k
    · exact setShm_same _

/-- An object that lost a reference may be freed. -/
theorem Same.freed {id : Nat} {d : Int} (h : Same k k') :
    Same k (if d < 0 then maybeFree id k' else k') := by
  split_ifs
  · exact h.trans (maybeFree_same id k')
  · exact h

theorem shmFdRef_same (id : Nat) (d : Int) (k : K V) : Same k (shmFdRef id d k) := by
  refine Same.freed ?_
  cases shmIdx k id with
  | none => exact .refl k
  | some i => exact setShm_same _

theorem shmMapRef_same (id : Nat) (d : Int) (k : K V) : Same k (shmMapRef id d k) := by
  refine Same.freed ?_
  cases shmIdx k id with
  | none => exact .refl k
  | some i => exact setShm_same _

theorem shmEmpty_same (id : Nat) (k : K V) : Same k (shmEmpty id k) := by
  unfold shmEmpty
  split
  · exact .refl k
  · exact setShm_same _

/-! ### References -/

/-- One reference more ends nobody's wait. -/
theorem addRef_tells (f : OpenFile) (k : K V) : Tells W k (addRef f k) := by
  obtain ⟨kind, i, flags, cloexec, off⟩ := f
  cases kind with
  | pipeR | pipeW =>
      refine Tells.still rfl rfl rfl fun w _ hb => ?_
      cases w with
      | pipeRead j | pipeWrite j =>
          by_cases e : j = i
          · subst e; simp_all [Blocked, addRef, K.setPipe]
          · simpa [Blocked, addRef, K.setPipe, e] using hb
      | _ => exact hb
  | event => exact setEvent_still fun _ h => h
  | unix =>
      refine setConn_still fun w _ _ h => ?_
      have hr : ∀ d, (k.conns (i / 2)).refs d ≠ 0 → Function.update (k.conns (i / 2)).refs (i % 2)
          ((k.conns (i / 2)).refs (i % 2) + 1) d ≠ 0 := fun d hd => by
        rw [Function.update_apply]
        split
        · exact Nat.succ_ne_zero _
        · exact hd
      cases w with
      | unixRead d e => exact ⟨h.1, hr _ h.2.1, h.2.2⟩
      | unixWrite d e n => exact ⟨hr _ h.1, h.2⟩
      | _ => trivial
  | listen => exact setListener_still fun h => h
  | shm => exact (shmFdRef_same i 1 k).tells
  | _ => exact Same.tells ⟨rfl, rfl, rfl, rfl, rfl, rfl, rfl⟩

theorem addRefs_tells (fs : List OpenFile) (k : K V) :
    Tells W k (fs.foldl (fun k f => addRef f k) k) := by
  induction fs generalizing k with
  | nil => exact .refl k
  | cons f fs ih => exact (addRef_tells f k).trans (ih _)

theorem Pushed.left {key : Nat} (hs : ∀ b, k.seq b ≤ k₁.seq b) (h : Pushed k₁ k' key) :
    Pushed k k' key :=
  ⟨Nat.lt_of_le_of_lt (hs _) h.1, h.2⟩

/-- A change of an object and two pushes. -/
theorem Tells.pushBoth {a b : Nat} (hs : k'.seq = k.seq) (hpend : k'.pending = k.pending)
    (hb : k'.blockOn = k.blockOn)
    (hw : ∀ w, W w → Blocked k w → Blocked k' w ∨ w.key = a ∨ w.key = b) :
    Tells W k (pushWake b (pushWake a k')) := by
  have ha : Tells (fun w => W w ∧ (w.key = b → Blocked k w → Blocked k' w ∨ w.key = a)) k
      (pushWake b (pushWake a k')) := by
    refine (Tells.push hs hpend hb fun w hW h => ?_).trans (pushWake_tells b _)
    rcases hw w hW.1 h with h' | h' | h'
    · exact Or.inl h'
    · exact Or.inr h'
    · exact hW.2 h' h
  refine { ha with told := fun w hW h hn => ?_ }
  by_cases hk : w.key = b
  · subst hk
    exact (pushWake_pushed _ _).left fun x => by rw [← hs]; exact pushWake_seq_le a x k'
  · exact ha.told w ⟨hW, fun e => absurd e hk⟩ h hn

/-- The reader or the writer that loses its last counterpart is told. -/
theorem dropPipe_tells (f : OpenFile) (k : K V) : Tells W k (dropPipe f k) := by
  rw [dropPipe_eq]
  split
  · refine setPipe_push (fun hl hw => Or.inl ?_) fun _ _ => Or.inr rfl
    unfold Pipe.settle
    split
    · rename_i h; exact absurd h.2 hw
    · exact ⟨hl, hw⟩
  · refine setPipe_push (fun _ _ => Or.inr rfl) fun hr hf => Or.inl ?_
    unfold Pipe.settle
    split
    · rename_i h; exact absurd h.1 hr
    · exact ⟨hr, hf⟩

theorem Wait.On.key {w : Wait} (hw : w.Ok) (hc : w.On c) (he : e < 2) :
    w.key = unixKeyR c (1 - e) ∨ w.key = unixKeyR c e := by
  cases w <;> simp only [Wait.On] at hc <;> subst hc <;> simp only [Wait.Ok] at hw <;>
    simp only [Wait.key]
  · rename_i d
    have : d = 1 - e ∨ d = e := by omega
    exact this.imp (congrArg _) (congrArg _)
  · rename_i d _
    have : 1 - d = 1 - e ∨ 1 - d = e := by omega
    exact this.imp (congrArg _) (congrArg _)

/-- Both ends are told when one goes. -/
theorem dropEnd_tells (hW : ∀ w, W w → w.Ok) (he : e < 2) (k : K V) :
    Tells W k (dropEnd c e k).2 := by
  rw [dropEnd_eq]
  dsimp only [endWakes]
  split
  · refine Tells.pushBoth rfl rfl rfl fun w hw hb => ?_
    rw [blocked_setConn]
    by_cases hc : w.On c
    · exact Or.inr (Wait.On.key (hW w hw) hc he)
    · exact Or.inl (Or.inr ⟨hc, hb⟩)
  · rename_i hn
    refine setConn_still fun w _ _ h => ?_
    have hr : ∀ d, (k.conns c).refs d ≠ 0 →
        Function.update (k.conns c).refs e ((k.conns c).refs e - 1) d ≠ 0 := fun d hd => by
      rw [Function.update_apply]
      split
      · exact hn
      · exact hd
    have hkeep : ¬ (Function.update (k.conns c).refs e ((k.conns c).refs e - 1) 0 = 0 ∧
        Function.update (k.conns c).refs e ((k.conns c).refs e - 1) 1 = 0) := fun hz => by
      have : e = 0 ∨ e = 1 := by omega
      rcases this with rfl | rfl
      · exact hn (by simpa using hz.1)
      · exact hn (by simpa using hz.2)
    unfold Conn.drop
    simp only [hkeep, if_false]
    cases w with
    | unixRead d e => exact ⟨h.1, hr _ h.2.1, h.2.2⟩
    | unixWrite d e n => exact ⟨hr _ h.1, h.2⟩
    | _ => trivial

theorem dropListener_tells (i : Nat) (k : K V) : Tells W k (dropListener i k).2 := by
  unfold dropListener
  dsimp only
  split
  · exact setListener_still fun _ => rfl
  · exact setListener_still fun h => h

theorem dropOne_tells (env : Env V) (hW : ∀ w, W w → w.Ok) (f : OpenFile) (k : K V) :
    Tells W k (dropOne env f k).2 := by
  obtain ⟨kind, i, flags, cloexec, off⟩ := f
  cases kind with
  | pipeR | pipeW => exact dropPipe_tells _ k
  | event => exact setEvent_still fun _ h => by split <;> exact h
  | unix => exact dropEnd_tells hW (mod_two_lt i) k
  | listen => exact dropListener_tells i k
  | shm => exact (shmFdRef_same i (-1) k).tells
  | file | dir =>
      simp only [dropOne, afterClose]
      split <;> exact Same.tells ⟨rfl, rfl, rfl, rfl, rfl, rfl, rfl⟩
  | sock =>
      simp only [dropOne]
      split <;> exact Same.tells ⟨rfl, rfl, rfl, rfl, rfl, rfl, rfl⟩
  | _ => exact Same.tells ⟨rfl, rfl, rfl, rfl, rfl, rfl, rfl⟩

theorem dropUpTo_tells (env : Env V) (hW : ∀ w, W w → w.Ok) : ∀ (n : Nat) (fs : List OpenFile)
    (k : K V), Tells W k (dropUpTo env n fs k)
  | n, [], k => by unfold dropUpTo; exact .refl k
  | 0, _ :: _, k => .refl k
  | n + 1, f :: fs, k => (dropOne_tells env hW f k).trans (dropUpTo_tells env hW n _ _)

theorem dropRefs_tells (env : Env V) (hW : ∀ w, W w → w.Ok) (fs : List OpenFile) (k : K V) :
    Tells W k (dropRefs env fs k) :=
  dropUpTo_tells env hW _ fs k

theorem dropRef_tells (env : Env V) (hW : ∀ w, W w → w.Ok) (f : OpenFile) (k : K V) :
    Tells W k (dropRef env f k) :=
  dropRefs_tells env hW [f] k

end Pulsar.Kernel

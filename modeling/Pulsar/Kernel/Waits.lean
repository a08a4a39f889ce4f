import Pulsar.Kernel.References

/-!
# Who waits for what, and who is told

`Blocked k w` is the condition in which the operation `w` waits, `w.key` the key it sleeps on.
`Tells W k k'` says that on the way from `k` to `k'` none of the waits in `W` stopped being blocked
without a `push_wake` of its key.  It composes, so a call tells if each of its steps does.
-/

namespace Pulsar.Kernel

variable {V : Type} {k k' k₀ k₁ : K V} {W : Wait → Prop}

/-- The key an operation sleeps on. -/
def Wait.key : Wait → Nat
  | .pipeRead i => pipeKeyR i
  | .pipeWrite i => pipeKeyW i
  | .unixRead c e => unixKeyR c e
  | .unixWrite c e _ => unixKeyR c (1 - e)
  | .accept i => unixKeyL i
  | .eventRead i => keyEv i

/-- The two ends of a connection are 0 and 1. -/
def Wait.Ok : Wait → Prop
  | .unixRead _ e => e < 2
  | .unixWrite _ e _ => e < 2
  | _ => True

/-- The operation has to wait. -/
def Blocked (k : K V) : Wait → Prop
  | .pipeRead i => (k.pipes i).len = 0 ∧ (k.pipes i).writers ≠ 0
  | .pipeWrite i => (k.pipes i).readers ≠ 0 ∧ PIPE_CAP - (k.pipes i).len = 0
  | .unixRead c e =>
    ((k.conns c).q e).len = 0 ∧ (k.conns c).refs (1 - e) ≠ 0 ∧ ((k.conns c).q e).eof = false
  | .unixWrite c e len =>
    (k.conns c).refs (1 - e) ≠ 0 ∧ ¬ ((k.conns c).packet = true ∧ CAP < len) ∧
      ((k.conns c).q (1 - e)).full (k.conns c).packet len
  | .accept i => (k.listeners i).backlog = []
  | .eventRead i => (k.events i).count = 0

instance (k : K V) (w : Wait) : Decidable (Blocked k w) := by
  cases w <;> simp only [Blocked] <;> infer_instance

theorem blocked_congr (hp : k'.pipes = k.pipes) (hc : k'.conns = k.conns)
    (hl : k'.listeners = k.listeners) (he : k'.events = k.events) (w : Wait) :
    Blocked k' w ↔ Blocked k w := by
  cases w <;> simp only [Blocked, hp, hc, hl, he]

/-- `push_wake(key)` was called on the way. -/
def Pushed (k k' : K V) (key : Nat) : Prop :=
  k.seq (keyBucket key) < k'.seq (keyBucket key) ∧
    (key ∈ k'.pending ∨ PENDING_MAX ≤ k'.pending.length)

/-- Of the waits in `W`, those that are no longer blocked have had their key pushed. -/
structure Tells (W : Wait → Prop) (k k' : K V) : Prop where
  seq : ∀ b, k.seq b ≤ k'.seq b
  keep : ∀ key ∈ k.pending, key ∈ k'.pending
  len : k.pending.length ≤ k'.pending.length
  block : k'.blockOn = k.blockOn
  told : ∀ w, W w → Blocked k w → ¬ Blocked k' w → Pushed k k' w.key

theorem Tells.refl (k : K V) : Tells W k k :=
  ⟨fun _ => Nat.le_refl _, fun _ h => h, Nat.le_refl _, rfl, fun _ _ h hn => absurd h hn⟩

theorem Tells.trans (h : Tells W k k₁) (h' : Tells W k₁ k') : Tells W k k' where
  seq b := Nat.le_trans (h.seq b) (h'.seq b)
  keep key hk := h'.keep key (h.keep key hk)
  len := Nat.le_trans h.len h'.len
  block := h'.block.trans h.block
  told w hw hb hn := by
    by_cases hm : Blocked k₁ w
    · obtain ⟨hs, hp⟩ := h'.told w hw hm hn
      exact ⟨Nat.lt_of_le_of_lt (h.seq _) hs, hp⟩
    · obtain ⟨hs, hp⟩ := h.told w hw hb hm
      refine ⟨Nat.lt_of_lt_of_le hs (h'.seq _), hp.imp (h'.keep _) fun hfull => ?_⟩
      exact Nat.le_trans hfull h'.len

theorem Tells.weaken {W' : Wait → Prop} (h : Tells W' k k')
    (hW : ∀ w, W w → ¬ W' w → ¬ Blocked k w) : Tells W k k' :=
  { h with
    told := fun w hw hb hn => by
      by_cases hw' : W' w
      · exact h.told w hw' hb hn
      · exact absurd hb (hW w hw hw') }

theorem Tells.quiet (hp : k'.pipes = k.pipes) (hc : k'.conns = k.conns)
    (hl : k'.listeners = k.listeners) (he : k'.events = k.events) (hs : k'.seq = k.seq)
    (hpend : k'.pending = k.pending) (hb : k'.blockOn = k.blockOn) : Tells W k k' where
  seq _ := by rw [hs]
  keep _ h := by rw [hpend]; exact h
  len := by rw [hpend]
  block := hb
  told w _ h hn := absurd ((blocked_congr hp hc hl he w).mpr h) hn

/-- A step without a key, after which every wait in `W` is as blocked as before. -/
theorem Tells.still (hs : k'.seq = k.seq) (hpend : k'.pending = k.pending)
    (hb : k'.blockOn = k.blockOn) (hw : ∀ w, W w → Blocked k w → Blocked k' w) : Tells W k k' where
  seq _ := by rw [hs]
  keep _ h := by rw [hpend]; exact h
  len := by rw [hpend]
  block := hb
  told w hW h hn := absurd (hw w hW h) hn

/-! ### `push_wake` -/

theorem pushWake_eq (key : Nat) (k : K V) : pushWake key k =
    { bumpIoSeq key k with pending := if key ∈ k.pending then k.pending
        else if k.pending.length < PENDING_MAX then k.pending ++ [key] else k.pending } := by
  unfold pushWake
  dsimp only [bumpIoSeq]
  split
  · rfl
  · split <;> rfl

@[simp] theorem pushWake_events (key : Nat) : (pushWake key k).events = k.events := by
  rw [pushWake_eq]; rfl

@[simp] theorem pushWake_fds (key : Nat) : (pushWake key k).fds = k.fds := by
  rw [pushWake_eq]; rfl

@[simp] theorem pushWake_blockOn (key : Nat) : (pushWake key k).blockOn = k.blockOn := by
  rw [pushWake_eq]; rfl

/-- One more at `a`. -/
theorem le_update_succ (f : Nat → Nat) (a b : Nat) : f b ≤ Function.update f a (f a + 1) b := by
  by_cases h : b = a
  · subst h; simp
  · simp [h]

theorem pushWake_seq_le (key b : Nat) (k : K V) : k.seq b ≤ (pushWake key k).seq b := by
  rw [pushWake_eq]
  exact Nat.le_trans (le_update_succ _ _ b) (le_update_succ _ _ b)

theorem pushWake_seq_lt (key : Nat) (k : K V) :
    k.seq (keyBucket key) < (pushWake key k).seq (keyBucket key) := by
  rw [pushWake_eq]
  refine Nat.lt_of_lt_of_le (Nat.lt_succ_self _) ?_
  refine Nat.le_trans (Nat.le_of_eq ?_) (le_update_succ _ _ _)
  rw [Function.update_self]

theorem pushWake_keep {key x : Nat} (h : x ∈ k.pending) : x ∈ (pushWake key k).pending := by
  rw [pushWake_eq]
  dsimp only
  split
  · exact h
  · split
    · exact List.mem_append_left _ h
    · exact h

theorem pushWake_len (key : Nat) (k : K V) :
    k.pending.length ≤ (pushWake key k).pending.length := by
  rw [pushWake_eq]
  dsimp only
  split
  · exact Nat.le_refl _
  · split <;> simp

theorem pushWake_pushed (key : Nat) (k : K V) : Pushed k (pushWake key k) key := by
  refine ⟨pushWake_seq_lt key k, ?_⟩
  rw [pushWake_eq]
  dsimp only
  split
  · exact Or.inl ‹_›
  · split
    · exact Or.inl (List.mem_append_right _ (List.mem_singleton.mpr rfl))
    · exact Or.inr (Nat.le_of_not_lt ‹_›)

@[simp] theorem pushWake_blocked (key : Nat) (w : Wait) :
    Blocked (pushWake key k) w ↔ Blocked k w :=
  blocked_congr (pushWake_pipes key) (pushWake_conns key) (pushWake_listeners key)
    (pushWake_events key) w

theorem pushWake_tells (key : Nat) (k : K V) : Tells W k (pushWake key k) where
  seq b := pushWake_seq_le key b k
  keep _ h := pushWake_keep h
  len := pushWake_len key k
  block := pushWake_blockOn key
  told _ _ h hn := absurd ((pushWake_blocked key _).mpr h) hn

theorem Tells.push {key : Nat} (hs : k'.seq = k.seq) (hpend : k'.pending = k.pending)
    (hb : k'.blockOn = k.blockOn) (hw : ∀ w, W w → Blocked k w → Blocked k' w ∨ w.key = key) :
    Tells W k (pushWake key k') where
  seq b := by rw [← hs]; exact pushWake_seq_le key b k'
  keep _ h := pushWake_keep (by rw [hpend]; exact h)
  len := by rw [← hpend]; exact pushWake_len key k'
  block := by rw [pushWake_blockOn, hb]
  told w hW h hn := by
    rcases hw w hW h with h' | rfl
    · exact absurd ((pushWake_blocked key w).mpr h') hn
    · have := pushWake_pushed w.key k'
      unfold Pushed at this ⊢
      rwa [hs] at this

/-! ### The objects -/

/-- A pipe changes, and the waits for it keep blocked or sleep on the key pushed. -/
theorem setPipe_push {i key : Nat} {p : Pipe}
    (hr : (k.pipes i).len = 0 → (k.pipes i).writers ≠ 0 → (p.len = 0 ∧ p.writers ≠ 0) ∨
      pipeKeyR i = key)
    (hw : (k.pipes i).readers ≠ 0 → PIPE_CAP - (k.pipes i).len = 0 →
      (p.readers ≠ 0 ∧ PIPE_CAP - p.len = 0) ∨ pipeKeyW i = key) :
    Tells W k (pushWake key (k.setPipe i p)) := by
  refine Tells.push rfl rfl rfl fun w _ hb => ?_
  cases w with
  | pipeRead j =>
      by_cases e : j = i
      · subst e
        simpa [Blocked, K.setPipe, Wait.key] using hr hb.1 hb.2
      · exact Or.inl (by simpa [Blocked, K.setPipe, e] using hb)
  | pipeWrite j =>
      by_cases e : j = i
      · subst e
        simpa [Blocked, K.setPipe, Wait.key] using hw hb.1 hb.2
      · exact Or.inl (by simpa [Blocked, K.setPipe, e] using hb)
  | _ => exact Or.inl hb

theorem setEvent_push {i : Nat} {m : EventFd} :
    Tells W k (pushWake (keyEv i) (k.setEvent i m)) := by
  refine Tells.push rfl rfl rfl fun w _ hb => ?_
  cases w with
  | eventRead j =>
      by_cases e : j = i
      · exact Or.inr (by rw [Wait.key, e])
      · exact Or.inl (by simpa [Blocked, K.setEvent, e] using hb)
  | _ => exact Or.inl hb

theorem setEvent_still {i : Nat} {m : EventFd} (hm : W (.eventRead i) → (k.events i).count = 0 →
    m.count = 0) : Tells W k (k.setEvent i m) := by
  refine Tells.still rfl rfl rfl fun w hW hb => ?_
  cases w with
  | eventRead j =>
      by_cases e : j = i
      · subst e
        simpa [Blocked, K.setEvent] using hm hW hb
      · simpa [Blocked, K.setEvent, e] using hb
  | _ => exact hb

theorem setListener_still {i : Nat} {x : Listener}
    (hx : (k.listeners i).backlog = [] → x.backlog = []) : Tells W k (k.setListener i x) := by
  refine Tells.still rfl rfl rfl fun w _ hb => ?_
  cases w with
  | accept j =>
      by_cases e : j = i
      · subst e
        simpa [Blocked, K.setListener] using hx hb
      · simpa [Blocked, K.setListener, e] using hb
  | _ => exact hb

theorem setListener_push {i : Nat} {x : Listener} :
    Tells W k (pushWake (unixKeyL i) (k.setListener i x)) := by
  refine Tells.push rfl rfl rfl fun w _ hb => ?_
  cases w with
  | accept j =>
      by_cases e : j = i
      · exact Or.inr (by rw [Wait.key, e])
      · exact Or.inl (by simpa [Blocked, K.setListener, e] using hb)
  | _ => exact Or.inl hb

/-- What a connection makes a reader and a writer at its ends wait for. -/
def Conn.Holds (x : Conn) : Wait → Prop
  | .unixRead _ e => (x.q e).len = 0 ∧ x.refs (1 - e) ≠ 0 ∧ (x.q e).eof = false
  | .unixWrite _ e len =>
    x.refs (1 - e) ≠ 0 ∧ ¬ (x.packet = true ∧ CAP < len) ∧ (x.q (1 - e)).full x.packet len
  | _ => True

/-- The connection a wait is about. -/
def Wait.On (w : Wait) (c : Nat) : Prop :=
  match w with
  | .unixRead d _ => d = c
  | .unixWrite d _ _ => d = c
  | _ => False

theorem blocked_on {w : Wait} {c : Nat} (hw : w.On c) : Blocked k w ↔ (k.conns c).Holds w := by
  cases w <;> simp only [Wait.On] at hw <;> subst hw <;> rfl

theorem blocked_setConn {c : Nat} {x : Conn} {w : Wait} :
    Blocked (k.setConn c x) w ↔ (w.On c ∧ x.Holds w) ∨ (¬ w.On c ∧ Blocked k w) := by
  cases w with
  | unixRead d e | unixWrite d e n =>
      by_cases hd : d = c
      · subst hd
        simp [Blocked, K.setConn, Wait.On, Conn.Holds]
      · simp [Blocked, K.setConn, Wait.On, hd]
  | _ => simp [Wait.On, Blocked, K.setConn]

theorem setConn_still {c : Nat} {x : Conn}
    (hx : ∀ w, W w → w.On c → (k.conns c).Holds w → x.Holds w) : Tells W k (k.setConn c x) := by
  refine Tells.still rfl rfl rfl fun w hW hb => blocked_setConn.mpr ?_
  by_cases hw : w.On c
  · exact Or.inl ⟨hw, hx w hW hw ((blocked_on hw).mp hb)⟩
  · exact Or.inr ⟨hw, hb⟩

theorem setConn_push {c key : Nat} {x : Conn}
    (hx : ∀ w, W w → w.On c → (k.conns c).Holds w → x.Holds w ∨ w.key = key) :
    Tells W k (pushWake key (k.setConn c x)) := by
  refine Tells.push rfl rfl rfl fun w hW hb => ?_
  rw [blocked_setConn]
  by_cases hw : w.On c
  · exact (hx w hW hw ((blocked_on hw).mp hb)).imp_left fun h => Or.inl ⟨hw, h⟩
  · exact Or.inl (Or.inr ⟨hw, hb⟩)

end Pulsar.Kernel

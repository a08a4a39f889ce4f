import Pulsar.Kernel.Names

/-!
# References balance: `add_ref` and `drop_ref`

`addRef_bal` and `dropRefs_bal`: taking a reference makes up for one more file in hand, and
closing the files in hand settles the account, whatever closes on the way.
-/

namespace Pulsar.Kernel

variable {V : Type} {s : Bool} {k : K V} {ex : List OpenFile} {f : OpenFile}

/-! ### Counters after a change of one slot -/

theorem refs_setMem (i : Nat) (m : MemFile) (X : Obj) :
    (k.setMem i m).refs X = if X = .mem i then m.refs else k.refs X := by
  cases X with
  | mem j => by_cases e : j = i <;> simp [K.refs, K.setMem, e]
  | _ => simp [K.refs, K.setMem]

theorem refs_setEvent (i : Nat) (m : EventFd) (X : Obj) :
    (k.setEvent i m).refs X = if X = .event i then m.refs else k.refs X := by
  cases X with
  | event j => by_cases e : j = i <;> simp [K.refs, K.setEvent, e]
  | _ => simp [K.refs, K.setEvent]

theorem refs_setEpoll (i : Nat) (m : Epoll) (X : Obj) :
    (k.setEpoll i m).refs X = if X = .epoll i then m.refs else k.refs X := by
  cases X with
  | epoll j => by_cases e : j = i <;> simp [K.refs, K.setEpoll, e]
  | _ => simp [K.refs, K.setEpoll]

theorem refs_setSock (i : Nat) (m : Sock) (X : Obj) :
    (k.setSock i m).refs X = if X = .sock i then m.refs else k.refs X := by
  cases X with
  | sock j => by_cases e : j = i <;> simp [K.refs, K.setSock, e]
  | _ => simp [K.refs, K.setSock]

theorem refs_setUSock (i : Nat) (m : USock) (X : Obj) :
    (k.setUSock i m).refs X = if X = .uSock i then m.refs else k.refs X := by
  cases X with
  | uSock j => by_cases e : j = i <;> simp [K.refs, K.setUSock, e]
  | _ => simp [K.refs, K.setUSock]

theorem refs_setListener (i : Nat) (m : Listener) (X : Obj) :
    (k.setListener i m).refs X = if X = .listen i then m.refs else k.refs X := by
  cases X with
  | listen j => by_cases e : j = i <;> simp [K.refs, K.setListener, e]
  | _ => simp [K.refs, K.setListener]

theorem refs_setPipe (i : Nat) (p : Pipe) (X : Obj) :
    (k.setPipe i p).refs X =
      if X = .pipeR i then p.readers else if X = .pipeW i then p.writers else k.refs X := by
  cases X with
  | pipeR j => by_cases e : j = i <;> simp [K.refs, K.setPipe, e]
  | pipeW j => by_cases e : j = i <;> simp [K.refs, K.setPipe, e]
  | _ => simp [K.refs, K.setPipe]

theorem refs_setConn_self (c e : Nat) (x : Conn) : (k.setConn c x).refs (.unix c e) =
    if e < 2 then x.refs e else 0 := by
  simp [K.refs, K.setConn]

theorem refs_setConn_of_ne {c : Nat} {x : Conn} {X : Obj} (h : ∀ e, X ≠ .unix c e) :
    (k.setConn c x).refs X = k.refs X := by
  cases X with
  | unix d e =>
      have hd : d ≠ c := fun hd => h e (by rw [hd])
      simp [K.refs, K.setConn, Function.update_of_ne hd]
  | _ => simp [K.refs, K.setConn]

theorem refs_setShm (i : Nat) (o : Shm) (X : Obj) :
    (k.setShm i o).refs X = if X = .shm (i + 1) then o.fdRefs else k.refs X := by
  cases X with
  | shm id =>
      by_cases e : id = i + 1
      · subst e; simp [K.refs, K.setShm]
      · by_cases h0 : id = 0
        · simp [K.refs, h0]
        · have hne : id - 1 ≠ i := by omega
          simp [K.refs, K.setShm, h0, Function.update_of_ne hne, e]
  | _ => simp [K.refs, K.setShm]

/-! ### Waking changes nothing that is counted -/

theorem pushWake_bal (h : Bal s k ex) (key : Nat) : Bal s (pushWake key k) ex := by
  unfold pushWake
  dsimp only
  split
  · exact h.same rfl rfl rfl rfl rfl rfl rfl rfl rfl rfl
  · split <;> exact h.same rfl rfl rfl rfl rfl rfl rfl rfl rfl rfl

/-- A connection whose queues carry the same files. -/
theorem held_setConn_same {c : Nat} {x : Conn} (hx : x.files = (k.conns c).files) :
    (k.setConn c x).held = k.held := by
  funext X
  have : ∀ j, ((k.setConn c x).conns j).files = (k.conns j).files := fun j => by
    by_cases e : j = c
    · subst e; simp [K.setConn, hx]
    · simp [K.setConn, Function.update_of_ne e]
  have h₁ : ∀ l, (k.setConn c x).row l = k.row l := fun _ => rfl
  have h₃ : ∀ i, ((k.setConn c x).listeners i).files = (k.listeners i).files := fun _ => rfl
  simp only [K.held, this, h₁, h₃]

theorem held_setListener_same {i : Nat} {x : Listener} (hx : x.files = (k.listeners i).files) :
    (k.setListener i x).held = k.held := by
  funext X
  have : ∀ j, ((k.setListener i x).listeners j).files = (k.listeners j).files := fun j => by
    by_cases e : j = i
    · subst e; simp [K.setListener, hx]
    · simp [K.setListener, Function.update_of_ne e]
  have h₁ : ∀ l, (k.setListener i x).row l = k.row l := fun _ => rfl
  have h₂ : ∀ c, ((k.setListener i x).conns c).files = (k.conns c).files := fun _ => rfl
  simp only [K.held, this, h₁, h₂]

/-! ### `add_ref` -/

theorem shmFdRef_one (id : Nat) (k : K V) : shmFdRef id 1 k =
    match shmIdx k id with
    | none => k
    | some i => k.setShm i { k.shms i with fdRefs := (k.shms i).fdRefs + 1 } := rfl

/-- A counter above zero is that of a slot in use. -/
theorem Tidy.shmIdx (h : Tidy k) {id : Nat} (hpos : 0 < k.refs (.shm id)) :
    Kernel.shmIdx k id = some (id - 1) := by
  by_cases h0 : id = 0
  · simp [K.refs, h0] at hpos
  · simp only [K.refs, h0, if_false] at hpos
    have hused := (h.shm (id - 1)).mpr (Or.inl hpos)
    have hlt := h.shmLt _ hused
    have : 0 < id ∧ id ≤ MAX_OBJS ∧ (k.shms (id - 1)).used = true := ⟨by omega, by omega, hused⟩
    simp only [Kernel.shmIdx, this, and_self, if_true]

/-- The index of a live object. -/
theorem shmIdx_some {id i : Nat} (hi : shmIdx k id = some i) :
    id = i + 1 ∧ i < MAX_OBJS ∧ (k.shms i).used = true := by
  unfold shmIdx at hi
  split at hi
  · rename_i hid
    obtain rfl := Option.some.inj hi
    obtain ⟨h₁, h₂, h₃⟩ := hid
    exact ⟨by omega, by omega, h₃⟩
  · cases hi

@[simp] theorem setShm_self (i : Nat) (o : Shm) : (k.setShm i o).shms i = o := by
  simp [K.setShm]

@[simp] theorem setShm_setShm (i : Nat) (o o' : Shm) :
    (k.setShm i o).setShm i o' = k.setShm i o' := by
  simp [K.setShm]

theorem shmIdx_setShm {i : Nat} {o : Shm} (hi : i < MAX_OBJS) (ho : o.used = true) :
    shmIdx (k.setShm i o) (i + 1) = some i := by
  have : 0 < i + 1 ∧ i + 1 ≤ MAX_OBJS ∧ ((k.setShm i o).shms i).used = true :=
    ⟨by omega, by omega, by rw [setShm_self, ho]⟩
  simp only [shmIdx, Nat.add_sub_cancel, this, and_self, if_true]

/-- An object that nothing keeps is an empty slot. -/
def Shm.settle (o : Shm) : Shm :=
  if 0 < o.fdRefs ∨ 0 < o.mapRefs ∨ o.named = true then o else .EMPTY

theorem Shm.settle_fdRefs (o : Shm) : o.settle.fdRefs = o.fdRefs := by
  unfold Shm.settle
  split
  · rfl
  · simp only [Shm.EMPTY]; omega

theorem Shm.settle_used {o : Shm} (ho : o.used = true) : o.settle.used = true ↔
    0 < o.settle.fdRefs ∨ 0 < o.settle.mapRefs ∨ o.settle.named = true := by
  unfold Shm.settle
  split
  · rename_i h; exact iff_of_true ho h
  · simp [Shm.EMPTY]

theorem maybeFree_setShm {i : Nat} {o : Shm} (hi : i < MAX_OBJS) (ho : o.used = true) :
    maybeFree (i + 1) (k.setShm i o) = k.setShm i o.settle := by
  simp only [maybeFree, shmIdx_setShm hi ho, setShm_self, setShm_setShm, Shm.settle]
  split <;> rfl

/-- One entry of a table changes. -/
theorem forall_update {α : Type*} (t : Nat → α) {i : Nat} {a : α} (P : Nat → α → Prop)
    (hi : P i a) (ht : ∀ j, P j (t j)) : ∀ j, P j (Function.update t i a j) :=
  (Function.forall_update_iff t P).mpr ⟨hi, fun j _ => ht j⟩

theorem Tidy.setPipe (ht : Tidy k) {i : Nat} {p : Pipe}
    (hp : p.buf = 0 ↔ p.readers = 0 ∧ p.writers = 0) : Tidy (k.setPipe i p) :=
  { ht with
    pipe := forall_update k.pipes (fun _ p => p.buf = 0 ↔ p.readers = 0 ∧ p.writers = 0) hp ht.pipe }

theorem Tidy.setMem (ht : Tidy k) {i : Nat} {m : MemFile} (hm : m.buf = 0 ↔ m.refs = 0) :
    Tidy (k.setMem i m) :=
  { ht with mem := forall_update k.mems (fun _ m => m.buf = 0 ↔ m.refs = 0) hm ht.mem }

theorem Tidy.setEvent (ht : Tidy k) {i : Nat} {m : EventFd} (hm : m.used = true ↔ 0 < m.refs) :
    Tidy (k.setEvent i m) :=
  { ht with event := forall_update k.events (fun _ m => m.used = true ↔ 0 < m.refs) hm ht.event }

theorem Tidy.setEpoll (ht : Tidy k) {i : Nat} {m : Epoll} (hm : m.used = true ↔ 0 < m.refs) :
    Tidy (k.setEpoll i m) :=
  { ht with epoll := forall_update k.epolls (fun _ m => m.used = true ↔ 0 < m.refs) hm ht.epoll }

theorem Tidy.setSock (ht : Tidy k) {i : Nat} {m : Sock} (hm : m.used = true ↔ 0 < m.refs) :
    Tidy (k.setSock i m) :=
  { ht with sock := forall_update k.socks (fun _ m => m.used = true ↔ 0 < m.refs) hm ht.sock }

theorem Tidy.setUSock (ht : Tidy k) {i : Nat} {m : USock} (hm : m.used = true ↔ 0 < m.refs) :
    Tidy (k.setUSock i m) :=
  { ht with uSock := forall_update k.usocks (fun _ m => m.used = true ↔ 0 < m.refs) hm ht.uSock }

theorem Tidy.setListener (ht : Tidy k) {i : Nat} {m : Listener} (hm : m.used = true ↔ 0 < m.refs)
    (hfree : m.used = false → m.backlog = []) (hlt : m.used = true → i < MAX_LISTEN) :
    Tidy (k.setListener i m) :=
  { ht with
    listener := forall_update k.listeners (fun _ m => m.used = true ↔ 0 < m.refs) hm ht.listener
    listenFree := forall_update k.listeners (fun _ m => m.used = false → m.backlog = []) hfree ht.listenFree
    listenLt := forall_update k.listeners (fun j m => m.used = true → j < MAX_LISTEN) hlt ht.listenLt }

theorem Tidy.setConn (ht : Tidy k) {c : Nat} (hc : c < MAX_CONNS) {x : Conn}
    (hx : x.used = true ↔ 0 < x.refs 0 ∨ 0 < x.refs 1) (hf : x.used = false → x.files = []) :
    Tidy (k.setConn c x) :=
  { ht with
    conn := forall_update k.conns (fun _ x => x.used = true ↔ 0 < x.refs 0 ∨ 0 < x.refs 1) hx ht.conn
    connFree := forall_update k.conns (fun _ x => x.used = false → x.files = []) hf ht.connFree
    connLt := forall_update k.conns (fun j x => x.used = true → j < MAX_CONNS) (fun _ => hc) ht.connLt }

theorem Tidy.setShm (ht : Tidy k) {i : Nat} (hi : i < MAX_OBJS) {o : Shm}
    (ho : o.used = true ↔ 0 < o.fdRefs ∨ 0 < o.mapRefs ∨ o.named = true) :
    Tidy (k.setShm i o) :=
  { ht with
    shm := forall_update k.shms (fun _ o =>
      o.used = true ↔ 0 < o.fdRefs ∨ 0 < o.mapRefs ∨ o.named = true) ho ht.shm
    shmLt := forall_update k.shms (fun j o => o.used = true → j < MAX_OBJS) (fun _ => hi) ht.shmLt }

/-- What names an object that is not there is not counted. -/
theorem Bal.dead {i : Nat} (hf : f.obj = some (.shm i)) (hidx : shmIdx k i = none) (h : Tidy k) :
    (∀ X : Obj, X.Counted s → k.refs X = k.held X + countOf X (f :: ex)) →
      Bal s k ex := fun hcount => by
  refine ⟨fun X hct => ?_, h⟩
  have := hcount X hct
  by_cases hX : X = .shm i
  · subst hX
    rw [countOf_cons_self hf] at this
    have hsome : Kernel.shmIdx k i = some (i - 1) := h.shmIdx (by omega)
    simp [hidx] at hsome
  · rwa [countOf_cons_of_ne (by rw [hf]; exact fun e => hX (Option.some.inj e).symm)] at this

theorem addRef_bal (h : Bal s k ex)
    (hpos : ∀ X : Obj, f.obj = some X → X.Counted s → 0 < k.refs X) :
    Bal s (addRef f k) (f :: ex) := by
  obtain ⟨kind, i, flags, cloexec, off⟩ := f
  have ht := h.tidy
  cases kind with
  | free | console | file | dir | devNull | devZero | devRandom => exact (Bal.cons_none rfl).mpr h
  | pipeR =>
      have hp := hpos _ rfl trivial
      refine h.more rfl rfl (fun X => ?_) (ht.setPipe ?_)
      · simp only [addRef, refs_setPipe]
        cases X <;> simp [K.refs]
        intro e; rw [e]
      · have := ht.pipe i
        simp only [K.refs] at hp
        simp only at *
        omega
  | pipeW =>
      have hp := hpos _ rfl trivial
      refine h.more rfl rfl (fun X => ?_) (ht.setPipe ?_)
      · simp only [addRef, refs_setPipe]
        cases X <;> simp [K.refs]
        intro e; rw [e]
      · have := ht.pipe i
        simp only [K.refs] at hp
        simp only at *
        omega
  | mem =>
      have hp := hpos _ rfl trivial
      refine h.more rfl rfl (fun X => refs_setMem _ _ X) (ht.setMem ?_)
      have := ht.mem i
      simp only [K.refs] at hp
      simp only at *
      omega
  | event =>
      have hp := hpos _ rfl trivial
      refine h.more rfl rfl (fun X => refs_setEvent _ _ X) <|
        ht.setEvent (iff_of_true ((ht.event i).mpr hp) (Nat.succ_pos _))
  | epoll =>
      have hp := hpos _ rfl trivial
      refine h.more rfl rfl (fun X => refs_setEpoll _ _ X) <|
        ht.setEpoll (iff_of_true ((ht.epoll i).mpr hp) (Nat.succ_pos _))
  | sock =>
      have hp := hpos _ rfl trivial
      refine h.more rfl rfl (fun X => refs_setSock _ _ X) <|
        ht.setSock (iff_of_true ((ht.sock i).mpr hp) (Nat.succ_pos _))
  | uSock =>
      have hp := hpos _ rfl trivial
      refine h.more rfl rfl (fun X => refs_setUSock _ _ X) <|
        ht.setUSock (iff_of_true ((ht.uSock i).mpr hp) (Nat.succ_pos _))
  | listen =>
      have hp := hpos _ rfl trivial
      have hused := (ht.listener i).mpr hp
      refine h.more rfl (held_setListener_same rfl) (fun X => refs_setListener _ _ X) ?_
      exact ht.setListener (iff_of_true hused (Nat.succ_pos _)) (ht.listenFree i) (ht.listenLt i)
  | unix =>
      have hp := hpos _ rfl trivial
      have hused : (k.conns (i / 2)).used = true := by
        rw [ht.conn]
        have : i % 2 = 0 ∨ i % 2 = 1 := by omega
        rcases this with e | e <;> simp [K.refs, e] at hp
        · exact Or.inl hp
        · exact Or.inr hp
      refine h.more rfl (held_setConn_same rfl) (fun X => ?_)
        (ht.setConn (ht.connLt _ hused) ?_ (ht.connFree (i / 2)))
      · by_cases e : ∃ d, X = .unix (i / 2) d
        · obtain ⟨d, rfl⟩ := e
          simp only [addRef, refs_setConn_self, Obj.unix.injEq, true_and, Function.update_apply]
          have hlt : i % 2 < 2 := Nat.mod_lt _ (by decide)
          by_cases e : d = i % 2
          · simp [e, K.refs, hlt]
          · simp [e, K.refs]
        · have e : ∀ d, X ≠ .unix (i / 2) d := fun d hd => e ⟨d, hd⟩
          rw [if_neg (e _)]
          exact refs_setConn_of_ne e
      · refine iff_of_true hused ?_
        have := (ht.conn (i / 2)).mp hused
        simp only [Function.update_apply]
        split <;> split <;> omega
  | shm =>
      cases hidx : Kernel.shmIdx k i with
      | none =>
          have hform : addRef ⟨.shm, i, flags, cloexec, off⟩ k = k := by
            simp only [addRef, shmFdRef_one, hidx]
          rw [hform]
          refine ⟨fun X hct => ?_, ht⟩
          have hne : X ≠ .shm i := fun e => by
            subst e
            have := ht.shmIdx (hpos _ rfl hct)
            simp [hidx] at this
          have hobj : OpenFile.obj ⟨.shm, i, flags, cloexec, off⟩ ≠ some X :=
            fun e => hne (Option.some.inj e).symm
          rw [countOf_cons_of_ne hobj]
          exact h.count X hct
      | some j =>
          obtain ⟨rfl, hj, hused⟩ := shmIdx_some hidx
          have hform : addRef ⟨.shm, j + 1, flags, cloexec, off⟩ k =
              k.setShm j { k.shms j with fdRefs := (k.shms j).fdRefs + 1 } := by
            simp only [addRef, shmFdRef_one, hidx]
          rw [hform]
          exact h.more rfl rfl (fun X => refs_setShm _ _ X)
            (ht.setShm hj (iff_of_true hused (Or.inl (Nat.succ_pos _))))

/-! ### `drop_ref` -/

theorem shmFdRef_drop {i j : Nat} (hidx : shmIdx k i = some j) : shmFdRef i (-1) k =
    k.setShm j { k.shms j with fdRefs := (k.shms j).fdRefs - 1 }.settle := by
  obtain ⟨rfl, hj, hused⟩ := shmIdx_some hidx
  have hdelta : (((k.shms j).fdRefs : Int) + -1).toNat = (k.shms j).fdRefs - 1 := by omega
  simp only [shmFdRef, hidx, hdelta]
  exact maybeFree_setShm hj hused

/-- Dropping a reference of a shared memory object. -/
theorem shmFdRef_bal (h : Bal s k (f :: ex)) {i : Nat} (hf : f.obj = some (.shm i)) :
    Bal s (shmFdRef i (-1) k) ex := by
  cases hidx : Kernel.shmIdx k i with
  | none =>
      have hform : shmFdRef i (-1) k = k := by
        have : (-1 : Int) < 0 := by decide
        simp only [shmFdRef, hidx, maybeFree, this, if_true]
      rw [hform]
      exact Bal.dead hf hidx h.tidy h.count
  | some j =>
      obtain ⟨rfl, hj, hused⟩ := shmIdx_some hidx
      rw [shmFdRef_drop hidx]
      refine h.less hf rfl (fun X => ?_) (h.tidy.setShm hj (Shm.settle_used hused))
      rw [refs_setShm, Shm.settle_fdRefs]
      rfl

/-- A pipe without readers and writers is an empty slot. -/
def Pipe.settle (p : Pipe) : Pipe := if p.readers = 0 ∧ p.writers = 0 then .EMPTY else p

theorem Pipe.settle_readers (p : Pipe) : p.settle.readers = p.readers := by
  unfold Pipe.settle
  split
  · rename_i h; exact h.1.symm
  · rfl

theorem Pipe.settle_writers (p : Pipe) : p.settle.writers = p.writers := by
  unfold Pipe.settle
  split
  · rename_i h; exact h.2.symm
  · rfl

theorem Pipe.settle_buf {p : Pipe} (hp : p.buf ≠ 0) :
    p.settle.buf = 0 ↔ p.settle.readers = 0 ∧ p.settle.writers = 0 := by
  rw [p.settle_readers, p.settle_writers, Pipe.settle]
  split
  · rename_i h; simp [Pipe.EMPTY, h]
  · rename_i h; simp [hp, h]

theorem pushWake_setPipe (key i : Nat) (p : Pipe) :
    (pushWake key k).setPipe i p = pushWake key (k.setPipe i p) := by
  unfold pushWake
  dsimp only [bumpIoSeq, K.setPipe]
  split <;> [rfl; split <;> rfl]

@[simp] theorem pushWake_pipes (key : Nat) : (pushWake key k).pipes = k.pipes := by
  unfold pushWake
  dsimp only [bumpIoSeq]
  split <;> [rfl; split <;> rfl]

theorem settle_after_wake (key i : Nat) (p : Pipe) :
    (if ((pushWake key (k.setPipe i p)).pipes i).readers = 0 ∧
        ((pushWake key (k.setPipe i p)).pipes i).writers = 0
      then (pushWake key (k.setPipe i p)).setPipe i .EMPTY else pushWake key (k.setPipe i p)) =
      pushWake key (k.setPipe i p.settle) := by
  have hself : (k.setPipe i p).pipes i = p := by simp [K.setPipe]
  rw [pushWake_pipes, hself, Pipe.settle, pushWake_setPipe]
  split
  · simp [K.setPipe]
  · rfl

theorem dropPipe_eq (f : OpenFile) : dropPipe f k =
    if f.kind = .pipeR then
      pushWake (pipeKeyW f.ino) (k.setPipe f.ino
        { k.pipes f.ino with readers := (k.pipes f.ino).readers - 1 }.settle)
    else
      pushWake (pipeKeyR f.ino) (k.setPipe f.ino
        { k.pipes f.ino with writers := (k.pipes f.ino).writers - 1 }.settle) := by
  unfold dropPipe
  by_cases h : f.kind = .pipeR
  · simp only [h, if_true]
    exact settle_after_wake _ _ _
  · simp only [h, if_false]
    exact settle_after_wake _ _ _

/-- Dropping one side of a pipe. -/
theorem dropPipe_bal (h : Bal s k (f :: ex)) (hf : f.kind = .pipeR ∨ f.kind = .pipeW) :
    Bal s (dropPipe f k) ex := by
  obtain ⟨kind, i, flags, cloexec, off⟩ := f
  have ht := h.tidy
  rw [dropPipe_eq]
  rcases hf with e | e <;> cases e
  · rw [if_pos rfl]
    have hp : 0 < (k.pipes i).readers := h.pos rfl trivial
    have hbusy : (k.pipes i).buf ≠ 0 := fun e => by have := (ht.pipe i).mp e; omega
    apply pushWake_bal
    refine h.less rfl rfl (fun X => ?_) ?_
    · rw [refs_setPipe, Pipe.settle_readers, Pipe.settle_writers]
      cases X <;> simp [K.refs]
      intro e; rw [e]
    · exact ht.setPipe (Pipe.settle_buf hbusy)
  · rw [if_neg (by simp)]
    have hp : 0 < (k.pipes i).writers := h.pos rfl trivial
    have hbusy : (k.pipes i).buf ≠ 0 := fun e => by have := (ht.pipe i).mp e; omega
    apply pushWake_bal
    refine h.less rfl rfl (fun X => ?_) ?_
    · rw [refs_setPipe, Pipe.settle_readers, Pipe.settle_writers]
      cases X <;> simp [K.refs]
      intro e; rw [e]
    · exact ht.setPipe (Pipe.settle_buf hbusy)

theorem pushWake_setConn (key c : Nat) (x : Conn) :
    (pushWake key k).setConn c x = pushWake key (k.setConn c x) := by
  unfold pushWake
  dsimp only [bumpIoSeq, K.setConn]
  split <;> [rfl; split <;> rfl]

/-- The connection after end `e` has lost a reference, and what is then to be closed. -/
def Conn.drop (x : Conn) (e : Nat) : List OpenFile × Conn :=
  let x := { x with refs := Function.update x.refs e (x.refs e - 1) }
  if x.refs 0 = 0 ∧ x.refs 1 = 0 then (x.files, CEMPTY) else ([], x)

/-- The wake-ups of `unix::drop_ref`. -/
def endWakes (c e n : Nat) (k : K V) : K V :=
  if n = 0 then pushWake (unixKeyR c e) (pushWake (unixKeyR c (1 - e)) k) else k

theorem dropEnd_eq (c e : Nat) : dropEnd c e k = (((k.conns c).drop e).1,
    endWakes c e ((k.conns c).refs e - 1) (k.setConn c ((k.conns c).drop e).2)) := by
  have hset : ∀ (n : Nat) (x y : Conn), (endWakes c e n (k.setConn c x)).setConn c y =
      endWakes c e n (k.setConn c y) := fun n x y => by
    unfold endWakes
    split
    · rw [pushWake_setConn, pushWake_setConn]; simp [K.setConn]
    · simp [K.setConn]
  unfold dropEnd Conn.drop
  simp only [Function.update_self]
  split
  · exact Prod.ext rfl (hset _ _ _)
  · rfl

theorem Conn.drop_refs (x : Conn) (e : Nat) {d : Nat} (hd : d < 2) :
    (x.drop e).2.refs d = if d = e then x.refs e - 1 else x.refs d := by
  unfold Conn.drop
  dsimp only
  split
  · rename_i h
    have : Function.update x.refs e (x.refs e - 1) d = 0 := by
      have : d = 0 ∨ d = 1 := by omega
      rcases this with rfl | rfl <;> tauto
    rw [← Function.update_apply, this]
    rfl
  · exact Function.update_apply ..

/-- What is to be closed is what the queues no longer carry. -/
theorem Conn.drop_files (x : Conn) (e : Nat) (X : Obj) :
    countOf X (x.drop e).1 + countOf X (x.drop e).2.files = countOf X x.files := by
  unfold Conn.drop
  dsimp only
  split <;> simp [Conn.files, CEMPTY, QEMPTY, Queue.files]

theorem Conn.drop_used {x : Conn} (hx : x.used = true) (e : Nat) :
    ((x.drop e).2.used = true ↔ 0 < (x.drop e).2.refs 0 ∨ 0 < (x.drop e).2.refs 1) ∧
      ((x.drop e).2.used = false → (x.drop e).2.files = []) := by
  unfold Conn.drop
  dsimp only
  split
  · simp [CEMPTY, Conn.files, QEMPTY, Queue.files]
  · rename_i h
    refine ⟨iff_of_true hx ?_, fun hn => ?_⟩
    · dsimp only; omega
    · exact absurd hx (by simpa using hn)

theorem endWakes_bal (h : Bal s k ex) (c e n : Nat) : Bal s (endWakes c e n k) ex := by
  unfold endWakes
  split
  · exact pushWake_bal (pushWake_bal h _) _
  · exact h

/-- A connection with a reference is a slot in use. -/
theorem Tidy.conn_used (ht : Tidy k) {c e : Nat} (hp : 0 < k.refs (.unix c e)) :
    (k.conns c).used = true := by
  rw [ht.conn]
  by_cases he : e < 2
  · have : e = 0 ∨ e = 1 := by omega
    rcases this with rfl | rfl <;> simp [K.refs] at hp
    · exact Or.inl hp
    · exact Or.inr hp
  · simp [K.refs, he] at hp

theorem dropEnd_bal {c e : Nat} (h : Bal s k (f :: ex)) (hf : f.obj = some (.unix c e)) :
    Bal s (dropEnd c e k).2 ((dropEnd c e k).1 ++ ex) := by
  have ht := h.tidy
  have hused := ht.conn_used (h.pos hf trivial)
  have hc := ht.connLt c hused
  have he : e < 2 := by
    by_contra he
    have := h.pos hf trivial
    simp [K.refs, he] at this
  obtain ⟨hx, hfree⟩ := Conn.drop_used hused e
  rw [dropEnd_eq]
  refine endWakes_bal ⟨fun X hct => ?_, ht.setConn hc hx hfree⟩ _ _ _
  have hcount := h.count X hct
  have hheld := held_setConn (k := k) (x := ((k.conns c).drop e).2) hc X
  have hfiles := (k.conns c).drop_files e X
  have hrefs : (k.setConn c ((k.conns c).drop e).2).refs X =
      if X = .unix c e then k.refs (.unix c e) - 1 else k.refs X := by
    by_cases hX : ∃ d, X = .unix c d
    · obtain ⟨d, rfl⟩ := hX
      rw [refs_setConn_self]
      by_cases hd : d < 2
      · simp only [hd, if_true, Conn.drop_refs _ _ hd, Obj.unix.injEq, true_and, K.refs, he]
      · have : d ≠ e := by omega
        simp [hd, K.refs, this]
    · have hX : ∀ d, X ≠ .unix c d := fun d hd => hX ⟨d, hd⟩
      rw [if_neg (hX e), refs_setConn_of_ne hX]
  dsimp only
  rw [hrefs, countOf_append]
  by_cases hX : X = .unix c e
  · subst hX
    rw [countOf_cons_self hf] at hcount
    rw [if_pos rfl]
    omega
  · rw [countOf_cons_of_ne (by rw [hf]; exact fun e' => hX (Option.some.inj e').symm)] at hcount
    rw [if_neg hX]
    omega

theorem dropListener_bal {i : Nat} (h : Bal s k (f :: ex)) (hf : f.obj = some (.listen i)) :
    Bal s (dropListener i k).2 ((dropListener i k).1 ++ ex) := by
  have ht := h.tidy
  have hp : 0 < (k.listeners i).refs := h.pos hf trivial
  have hused := (ht.listener i).mpr hp
  have hi := ht.listenLt i hused
  have key : ∀ (x : Listener) (out : List OpenFile), x.refs = (k.listeners i).refs - 1 →
      (∀ X, countOf X out + countOf X x.files = countOf X (k.listeners i).files) →
      (x.used = true ↔ 0 < x.refs) → (x.used = false → x.backlog = []) →
      Bal s (k.setListener i x) (out ++ ex) := fun x out hr hfiles hx hfree => by
    refine ⟨fun X hct => ?_, ht.setListener hx hfree fun _ => hi⟩
    have hcount := h.count X hct
    have hheld := held_setListener (k := k) (x := x) hi X
    have hfiles := hfiles X
    rw [refs_setListener, countOf_append]
    by_cases hX : X = .listen i
    · subst hX
      rw [countOf_cons_self hf] at hcount
      simp only [K.refs] at hcount
      rw [if_pos rfl]
      omega
    · rw [countOf_cons_of_ne (by rw [hf]; exact fun e' => hX (Option.some.inj e').symm)] at hcount
      rw [if_neg hX]
      omega
  unfold dropListener
  dsimp only
  split
  · rename_i hz
    exact key LEMPTY _ hz.symm (fun X => by simp [Listener.files, LEMPTY]) (by simp [LEMPTY])
      fun _ => rfl
  · rename_i hz
    exact key _ [] rfl (fun X => by simp [Listener.files])
      (iff_of_true hused (Nat.pos_iff_ne_zero.mpr hz)) fun e => absurd hused (by simpa using e)

/-- **One file closed.**  What it leaves to be closed takes its place. -/
theorem dropOne_bal (env : Env V) (h : Bal s k (f :: ex)) :
    Bal s (dropOne env f k).2 ((dropOne env f k).1 ++ ex) := by
  obtain ⟨kind, i, flags, cloexec, off⟩ := f
  have ht := h.tidy
  cases kind with
  | free | console | devNull | devZero | devRandom => exact (Bal.cons_none rfl).mp h
  | file | dir =>
      have h := (Bal.cons_none rfl).mp h
      simp only [dropOne, afterClose, List.nil_append]
      split <;> exact h.same rfl rfl rfl rfl rfl rfl rfl rfl rfl rfl
  | pipeR => exact dropPipe_bal h (Or.inl rfl)
  | pipeW => exact dropPipe_bal h (Or.inr rfl)
  | unix => exact dropEnd_bal h rfl
  | listen => exact dropListener_bal h rfl
  | shm => exact shmFdRef_bal h rfl
  | mem =>
      have hp : 0 < (k.mems i).refs := h.pos rfl trivial
      refine h.less rfl rfl (fun X => ?_) (ht.setMem ?_)
      · refine (refs_setMem _ _ X).trans ?_
        split
        · dsimp only
          split
          · rename_i hz; exact hz.symm
          · rfl
        · rfl
      · have := ht.mem i
        dsimp only
        split
        · exact iff_of_true rfl rfl
        · dsimp only; omega
  | event =>
      have hp : 0 < (k.events i).refs := h.pos rfl trivial
      refine h.less rfl rfl (fun X => ?_) (ht.setEvent ?_)
      · refine (refs_setEvent _ _ X).trans ?_
        split <;> [(dsimp only; split <;> rfl); rfl]
      · have hu := (ht.event i).mpr hp
        dsimp only
        split
        · rename_i hz; simp [hz]
        · dsimp only; exact iff_of_true hu (by omega)
  | epoll =>
      have hp : 0 < (k.epolls i).refs := h.pos rfl trivial
      refine h.less rfl rfl (fun X => ?_) (ht.setEpoll ?_)
      · refine (refs_setEpoll _ _ X).trans ?_
        split <;> [(dsimp only; split <;> rfl); rfl]
      · have hu := (ht.epoll i).mpr hp
        dsimp only
        split
        · rename_i hz; simp [hz]
        · dsimp only; exact iff_of_true hu (by omega)
  | sock =>
      have hp : 0 < (k.socks i).refs := h.pos rfl trivial
      have key : ∀ m : Sock, m.refs = (k.socks i).refs - 1 → (m.used = true ↔ 0 < m.refs) →
          Bal s (k.setSock i m) ex := fun m hm hu => by
        refine h.less rfl rfl (fun X => ?_) (ht.setSock hu)
        rw [refs_setSock]
        split <;> [exact hm; rfl]
      simp only [dropOne]
      split
      · rename_i hz
        exact (key .EMPTY hz.symm (by simp [Sock.EMPTY])).same rfl rfl rfl rfl rfl rfl rfl rfl rfl rfl
      · rename_i hz
        exact key _ rfl (iff_of_true ((ht.sock i).mpr hp) (Nat.pos_iff_ne_zero.mpr hz))
  | uSock =>
      have hp : 0 < (k.usocks i).refs := h.pos rfl trivial
      refine h.less rfl rfl (fun X => ?_) (ht.setUSock ?_)
      · refine (refs_setUSock _ _ X).trans ?_
        split
        · dsimp only
          split
          · rename_i hz; exact hz.symm
          · rfl
        · rfl
      · have hu := (ht.uSock i).mpr hp
        dsimp only
        split
        · simp [USock.EMPTY]
        · dsimp only; exact iff_of_true hu (by omega)

/-! ### Closing everything -/

section

-- states are compared by their tables, never by counting up what is in transit
attribute [local irreducible] inTransit

theorem inTransit_eq (k : K V) : inTransit k =
    ∑ c ∈ Finset.range MAX_CONNS, (k.conns c).files.length +
      ∑ i ∈ Finset.range MAX_LISTEN, (k.listeners i).backlog.length := by
  unfold inTransit
  rw [sum_map_range, sum_map_range]

theorem inTransit_congr {k k' : K V} (hc : k'.conns = k.conns) (hl : k'.listeners = k.listeners) :
    inTransit k' = inTransit k := by
  rw [inTransit_eq, inTransit_eq, hc, hl]

@[simp] theorem pushWake_conns (key : Nat) : (pushWake key k).conns = k.conns := by
  unfold pushWake
  dsimp only [bumpIoSeq]
  split <;> [rfl; split <;> rfl]

@[simp] theorem pushWake_listeners (key : Nat) : (pushWake key k).listeners = k.listeners := by
  unfold pushWake
  dsimp only [bumpIoSeq]
  split <;> [rfl; split <;> rfl]

@[simp] theorem endWakes_conns (c e n : Nat) : (endWakes c e n k).conns = k.conns := by
  unfold endWakes; split <;> simp

@[simp] theorem endWakes_listeners (c e n : Nat) : (endWakes c e n k).listeners = k.listeners := by
  unfold endWakes; split <;> simp

theorem inTransit_setConn {c : Nat} (hc : c < MAX_CONNS) (x : Conn) :
    inTransit (k.setConn c x) + (k.conns c).files.length = inTransit k + x.files.length := by
  have := sum_range_change hc (f := fun j => (k.conns j).files.length)
    (g := fun j => ((k.setConn c x).conns j).files.length)
    fun j hj => by simp [K.setConn, Function.update_of_ne hj]
  have hs : (k.setConn c x).conns c = x := by simp [K.setConn]
  have hl : (k.setConn c x).listeners = k.listeners := rfl
  simp only [inTransit_eq, hs, hl] at *
  omega

theorem inTransit_setListener {i : Nat} (hi : i < MAX_LISTEN) (x : Listener) :
    inTransit (k.setListener i x) + (k.listeners i).backlog.length =
      inTransit k + x.backlog.length := by
  have := sum_range_change hi (f := fun j => (k.listeners j).backlog.length)
    (g := fun j => ((k.setListener i x).listeners j).backlog.length)
    fun j hj => by simp [K.setListener, Function.update_of_ne hj]
  have hs : (k.setListener i x).listeners i = x := by simp [K.setListener]
  have hl : (k.setListener i x).conns = k.conns := rfl
  simp only [inTransit_eq, hs, hl] at *
  omega

theorem Conn.drop_length (x : Conn) (e : Nat) :
    (x.drop e).1.length + (x.drop e).2.files.length = x.files.length := by
  unfold Conn.drop
  dsimp only
  split <;> simp [Conn.files, CEMPTY, QEMPTY, Queue.files]

/-- Closing what is neither an end nor a listener does nothing to connections and listeners. -/
theorem dropOne_beside (env : Env V) (k : K V) (hu : f.kind ≠ .unix) (hl : f.kind ≠ .listen) :
    ∃ k', dropOne env f k = ([], k') ∧ k'.conns = k.conns ∧ k'.listeners = k.listeners := by
  obtain ⟨kind, i, flags, cloexec, off⟩ := f
  cases kind with
  | unix => exact absurd rfl hu
  | listen => exact absurd rfl hl
  | free | console | devNull | devZero | devRandom => exact ⟨k, rfl, rfl, rfl⟩
  | mem => exact ⟨k.setMem i _, rfl, rfl, rfl⟩
  | event => exact ⟨k.setEvent i _, rfl, rfl, rfl⟩
  | epoll => exact ⟨k.setEpoll i _, rfl, rfl, rfl⟩
  | uSock => exact ⟨k.setUSock i _, rfl, rfl, rfl⟩
  | file | dir =>
      refine ⟨afterClose env i k, rfl, ?_, ?_⟩ <;> unfold afterClose <;> dsimp only <;>
        split <;> rfl
  | sock =>
      by_cases hz : (k.socks i).refs - 1 = 0
      · exact ⟨{ k.setSock i .EMPTY with vol := _ }, if_pos hz, rfl, rfl⟩
      · exact ⟨k.setSock i _, if_neg hz, rfl, rfl⟩
  | pipeR | pipeW =>
      refine ⟨dropPipe ⟨_, i, flags, cloexec, off⟩ k, rfl, ?_, ?_⟩ <;>
        rw [dropPipe_eq] <;> simp [K.setPipe]
  | shm =>
      refine ⟨shmFdRef i (-1) k, rfl, ?_, ?_⟩ <;> simp only [shmFdRef, maybeFree] <;>
        repeat' (first | rfl | split)

/-- Closing a file moves files out of queues and backlogs, and makes none. -/
theorem dropOne_inTransit (env : Env V) (h : Bal s k (f :: ex)) :
    inTransit (dropOne env f k).2 + (dropOne env f k).1.length = inTransit k := by
  by_cases hkind : f.kind ≠ .unix ∧ f.kind ≠ .listen
  · obtain ⟨k', he, hc, hl⟩ := dropOne_beside env k hkind.1 hkind.2
    rw [he, List.length_nil, Nat.add_zero]
    exact inTransit_congr hc hl
  obtain ⟨kind, i, flags, cloexec, off⟩ := f
  have ht := h.tidy
  cases kind with
  | unix =>
      have hused : (k.conns (i / 2)).used = true := ht.conn_used (h.pos rfl trivial)
      have hdrop := inTransit_setConn (k := k) (ht.connLt _ hused) ((k.conns (i / 2)).drop (i % 2)).2
      have hlen := (k.conns (i / 2)).drop_length (i % 2)
      have heq : dropOne env ⟨.unix, i, flags, cloexec, off⟩ k = dropEnd (i / 2) (i % 2) k := rfl
      rw [heq, dropEnd_eq]
      dsimp only
      rw [inTransit_congr (endWakes_conns ..) (endWakes_listeners ..)]
      omega
  | listen =>
      have hused := (ht.listener i).mpr (h.pos rfl trivial)
      have hi := ht.listenLt i hused
      have heq : dropOne env ⟨.listen, i, flags, cloexec, off⟩ k = dropListener i k := rfl
      rw [heq]
      unfold dropListener
      dsimp only
      split
      · have := inTransit_setListener (k := k) hi LEMPTY
        have hb : LEMPTY.backlog.length = 0 := rfl
        dsimp only
        rw [List.length_map]
        omega
      · have := inTransit_setListener (k := k) hi
          { k.listeners i with refs := (k.listeners i).refs - 1 }
        dsimp only at this ⊢
        rw [List.length_nil]
        omega
  | _ => exact absurd ⟨nofun, nofun⟩ hkind

theorem dropUpTo_bal (env : Env V) : ∀ (n : Nat) (fs : List OpenFile) {k : K V},
    Bal s k (fs ++ ex) → inTransit k + fs.length ≤ n → Bal s (dropUpTo env n fs k) ex
  | n, [], _, h, _ => by unfold dropUpTo; exact h
  | 0, f :: fs, _, _, hn => by simp at hn
  | n + 1, f :: fs, k, h, hn => by
      have h₁ := dropOne_bal env h
      have h₂ := dropOne_inTransit env h
      refine dropUpTo_bal env n ((dropOne env f k).1 ++ fs) ?_ ?_
      · rw [List.append_assoc]; exact h₁
      rw [List.length_append]
      rw [List.length_cons] at hn
      omega

/-- **Files in hand are closed.** -/
theorem dropRefs_bal (env : Env V) (fs : List OpenFile) (h : Bal s k (fs ++ ex)) :
    Bal s (dropRefs env fs k) ex :=
  dropUpTo_bal env _ fs h (Nat.le_refl _)

theorem dropRef_bal (env : Env V) (h : Bal s k (f :: ex)) : Bal s (dropRef env f k) ex :=
  dropRefs_bal env [f] h

end

end Pulsar.Kernel

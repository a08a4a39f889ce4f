import Pulsar.Kernel.Tables
import Pulsar.Lib.Runs

/-!
# Local sockets and the descriptors of them (`unix.rs`, `file.rs`)

`Sockets` is the kernel with the open files that the descriptors of all processes name, one for
each.  Processes listen, connect, accept, send and receive, copy and close descriptors, in any
order (`Sockets.step`); whoever acts has a descriptor of what it acts on.

* `SockAct.bal`: the references of the kernel are those of the descriptors, the queues and the
  backlogs.
* `Shrinks`: what closing files leaves of connections and listeners.
-/

namespace Pulsar.Kernel

variable {V : Type} {k k' : K V} {env : Env V}

/-- The open file of a listener, for its references. -/
def listenFile (i : Nat) : OpenFile := ⟨.listen, i, O_RDWR, false, 0⟩

/-- The kernel, and the open files that descriptors name, one for each descriptor. -/
structure Sockets (V : Type) where
  k : K V
  hand : List OpenFile

/-- What a process does with local sockets.  An `accept` may find no descriptor free (`room`); a
`recv` can install so many of the descriptors it receives. -/
inductive SockAct where
  | listen (key : SockKey) (packet : Bool)
  | connect (key : SockKey) (packet : Bool)
  | accept (i : Nat) (nonblock room : Bool)
  | pair (packet : Bool)
  | dup (f : OpenFile)
  | close (f : OpenFile)
  | send (c e : Nat) (src : Nat → UInt8) (len : Nat) (nonblock : Bool) (files : List OpenFile)
  | recv (c e len : Nat) (nonblock : Bool) (room : Nat)
  | shutdown (c e how : Nat)

namespace Sockets

/-- A descriptor of `X` is open. -/
def Holds (s : Sockets V) (X : Obj) : Prop := ∃ f ∈ s.hand, f.obj = some X

instance (s : Sockets V) (X : Obj) : Decidable (s.Holds X) := by
  unfold Holds; infer_instance

end Sockets

namespace SockAct

/-- The descriptors that an act is made with. -/
def Able (s : Sockets V) : SockAct → Prop
  | .listen .. | .connect .. | .pair _ => True
  | .accept i .. => s.Holds (.listen i)
  | .dup f | .close f => f ∈ s.hand
  | .send c e _ _ _ files => s.Holds (.unix c e) ∧ ∀ f ∈ files, f ∈ s.hand
  | .recv c e .. | .shutdown c e _ => s.Holds (.unix c e)

instance (s : Sockets V) (a : SockAct) : Decidable (a.Able s) := by
  cases a <;> unfold Able <;> infer_instance

/-- What an act leaves.  Descriptors that are sent are counted before they are queued, and no
longer when they are not; those received that cannot be installed are closed. -/
def after (env : Env V) (s : Sockets V) : SockAct → Sockets V
  | .listen key packet =>
    match unixListen key packet s.k with
    | .ok i k => ⟨k, listenFile i :: s.hand⟩
    | .error _ k => ⟨k, s.hand⟩
  | .connect key packet =>
    match unixConnect key packet s.k with
    | .ok c k => ⟨k, unixEnd c 0 :: s.hand⟩
    | .error _ k => ⟨k, s.hand⟩
  | .accept i nonblock room =>
    match unixAccept i nonblock s.k with
    | .ok c k => if room then ⟨k, unixEnd c 1 :: s.hand⟩ else ⟨dropRef env (unixEnd c 1) k, s.hand⟩
    | .error _ k => ⟨k, s.hand⟩
  | .pair packet =>
    match connNew packet s.k with
    | .ok c k => ⟨k, unixEnd c 0 :: unixEnd c 1 :: s.hand⟩
    | .error _ k => ⟨k, s.hand⟩
  | .dup f => ⟨addRef f s.k, f :: s.hand⟩
  | .close f => ⟨dropRef env f s.k, s.hand.erase f⟩
  | .send c e src len nonblock files =>
    match unixWrite c e src len nonblock files (files.foldl (fun k f => addRef f k) s.k) with
    | .ok _ k => ⟨k, s.hand⟩
    | .error _ k => ⟨dropRefs env files k, s.hand⟩
  | .recv c e len nonblock room =>
    match unixRead c e len nonblock s.k with
    | .ok r k => ⟨dropRefs env (r.files.drop room) k, r.files.take room ++ s.hand⟩
    | .error _ k => ⟨k, s.hand⟩
  | .shutdown c e how => ⟨unixShutdown c e how s.k, s.hand⟩

end SockAct

/-- The step of an act. -/
def Sockets.step (env : Env V) (s : Sockets V) (a : SockAct) : Option (Sockets V) :=
  if a.Able s then some (a.after env s) else none

@[simp] theorem setListener_self (i : Nat) (x : Listener) :
    (k.setListener i x).listeners i = x := Function.update_self ..

theorem setListener_of_ne {i j : Nat} (hj : j ≠ i) (x : Listener) :
    (k.setListener i x).listeners j = k.listeners j := Function.update_of_ne hj ..

/-! ### The account -/

-- states are compared by what closes files, never by counting up what is in transit
attribute [local irreducible] inTransit

variable {s : Sockets V} {a : SockAct} {ex : List OpenFile} {b : Bool}

theorem Bal.take {f : OpenFile} (h : Bal b k ex) (hf : f ∈ ex) : Bal b k (f :: ex.erase f) :=
  h.perm fun _ => (List.perm_cons_erase hf).symm.countP_eq _

theorem Bal.inHand {f : OpenFile} {X : Obj} (h : Bal b k ex) (hf : f ∈ ex) (hX : f.obj = some X)
    (hct : X.Counted b) : 0 < k.refs X :=
  (h.take hf).pos hX hct

theorem Bal.end_used {f : OpenFile} {c e : Nat} (h : Bal b k ex) (hf : f ∈ ex)
    (hX : f.obj = some (.unix c e)) : (k.conns c).used = true ∧ e < 2 := by
  have hp := h.inHand hf hX trivial
  refine ⟨h.tidy.conn_used hp, ?_⟩
  by_contra he
  simp [K.refs, he] at hp

theorem Bal.addRefs : ∀ (fs : List OpenFile) {k : K V} {ex : List OpenFile}, Bal b k ex →
    (∀ f ∈ fs, f ∈ ex) → Bal b (fs.foldl (fun k f => addRef f k) k) (fs ++ ex) := by
  intro fs
  induction fs with
  | nil => exact fun h _ => h
  | cons f fs ih =>
      intro k ex h hf
      have hadd := addRef_bal h fun X hX hct => h.inHand (hf f List.mem_cons_self) hX hct
      have hrest := ih hadd fun g hg => .tail _ (hf g (.tail _ hg))
      refine hrest.perm fun X => ?_
      simp only [List.cons_append, countOf_append, countOf_cons]
      omega

/-- **Each act** keeps the account. -/
theorem SockAct.bal (h : Bal false s.k s.hand) (ha : a.Able s) :
    Bal false (a.after env s).k (a.after env s).hand := by
  cases a with
  | listen key packet =>
      simp only [after]
      cases hx : unixListen key packet s.k with
      | ok i k => exact ((unixListen_bal h).ok hx).2 _ rfl
      | error x k => exact (unixListen_bal h).error hx
  | connect key packet =>
      simp only [after]
      cases hx : unixConnect key packet s.k with
      | ok c k => exact ((unixConnect_bal h).ok hx).1
      | error x k => exact (unixConnect_bal h).error hx
  | accept i nonblock room =>
      simp only [after]
      cases hx : unixAccept i nonblock s.k with
      | error x k => exact (unixAccept_bal h).error hx
      | ok c k =>
          dsimp only
          split
          · exact (unixAccept_bal h).ok hx
          · exact dropRef_bal env ((unixAccept_bal h).ok hx)
  | pair packet =>
      simp only [after]
      cases hx : connNew packet s.k with
      | ok c k => exact ((connNew_bal h).ok hx).1
      | error x k => exact (connNew_bal h).error hx
  | dup f =>
      exact addRef_bal h fun X hX hct => h.inHand ha hX hct
  | close f =>
      exact dropRef_bal env (h.take ha)
  | send c e src len nonblock files =>
      obtain ⟨⟨f, hf, hX⟩, hfiles⟩ := ha
      have hadd := h.addRefs files hfiles
      obtain ⟨hc, he⟩ := hadd.end_used (List.mem_append_right _ hf) hX
      simp only [after]
      cases hx : unixWrite c e src len nonblock files (files.foldl (fun k f => addRef f k) s.k) with
      | ok n k => exact (unixWrite_bal hadd hc he).ok hx
      | error x k =>
          exact dropRefs_bal env _ ((unixWrite_bal hadd hc he).error hx)
  | recv c e len nonblock room =>
      obtain ⟨f, hf, hX⟩ := ha
      obtain ⟨hc, he⟩ := h.end_used hf hX
      simp only [after]
      cases hx : unixRead c e len nonblock s.k with
      | error x k => exact (unixRead_bal h hc he).error hx
      | ok r k =>
          refine dropRefs_bal env _ (((unixRead_bal h hc he).ok hx).perm fun X => ?_)
          have := countOf_append X (r.files.take room) (r.files.drop room)
          rw [List.take_append_drop] at this
          simp only [countOf_append]
          omega
  | shutdown c e how =>
      obtain ⟨f, hf, hX⟩ := ha
      obtain ⟨hc, he⟩ := h.end_used hf hX
      exact unixShutdown_bal h hc he

/-! ### What closing leaves -/

/-- Connections and listeners lose references, or are emptied. -/
structure Shrinks (k k' : K V) : Prop where
  fds : k'.fds = k.fds
  conn : ∀ c, k'.conns c = CEMPTY ∨
    ∃ r, k'.conns c = { k.conns c with refs := r } ∧ ∀ e, r e ≤ (k.conns c).refs e
  listener : ∀ i, k'.listeners i = LEMPTY ∨
    ∃ r, k'.listeners i = { k.listeners i with refs := r } ∧ r ≤ (k.listeners i).refs

namespace Shrinks

variable {k'' : K V}

theorem same (hf : k'.fds = k.fds) (hc : k'.conns = k.conns) (hl : k'.listeners = k.listeners) :
    Shrinks k k' where
  fds := hf
  conn := fun c => .inr ⟨_, by rw [hc], fun _ => Nat.le_refl _⟩
  listener := fun i => .inr ⟨_, by rw [hl], Nat.le_refl _⟩

theorem refl (k : K V) : Shrinks k k := same rfl rfl rfl

theorem trans (h : Shrinks k k') (h' : Shrinks k' k'') : Shrinks k k'' where
  fds := h'.fds.trans h.fds
  conn := fun c => by
    rcases h'.conn c with h' | ⟨r', hr', hle'⟩
    · exact .inl h'
    · rcases h.conn c with h | ⟨r, hr, hle⟩
      · rw [h] at hr' hle'
        have hzero : r' = fun _ => 0 := funext fun e => Nat.le_zero.mp (hle' e)
        exact .inl (by rw [hr', hzero]; rfl)
      · rw [hr] at hr' hle'
        exact .inr ⟨r', hr', fun e => (hle' e).trans (hle e)⟩
  listener := fun i => by
    rcases h'.listener i with h' | ⟨r', hr', hle'⟩
    · exact .inl h'
    · rcases h.listener i with h | ⟨r, hr, hle⟩
      · rw [h] at hr' hle'
        have hzero : r' = 0 := Nat.le_zero.mp hle'
        exact .inl (by rw [hr', hzero]; rfl)
      · rw [hr] at hr' hle'
        exact .inr ⟨r', hr', hle'.trans hle⟩

theorem setConn (hf : k'.fds = k.fds) (hl : k'.listeners = k.listeners) {c : Nat} {x : Conn}
    (hc : k'.conns = (k.setConn c x).conns) (hx : x = CEMPTY ∨
      ∃ r, x = { k.conns c with refs := r } ∧ ∀ e, r e ≤ (k.conns c).refs e) : Shrinks k k' where
  fds := hf
  conn := fun d => by
    rw [hc]
    by_cases hd : d = c
    · subst hd
      simpa only [K.setConn, Function.update_self] using hx
    · simp only [K.setConn, Function.update_of_ne hd]
      exact .inr ⟨_, rfl, fun _ => Nat.le_refl _⟩
  listener := fun i => .inr ⟨_, by rw [hl], Nat.le_refl _⟩

theorem setListener {i : Nat} {x : Listener} (hx : x = LEMPTY ∨
    ∃ r, x = { k.listeners i with refs := r } ∧ r ≤ (k.listeners i).refs) :
    Shrinks k (k.setListener i x) where
  fds := rfl
  conn := fun _ => .inr ⟨_, rfl, fun _ => Nat.le_refl _⟩
  listener := fun j => by
    by_cases hj : j = i
    · subst hj
      simpa only [K.setListener, Function.update_self] using hx
    · simp only [K.setListener, Function.update_of_ne hj]
      exact .inr ⟨_, rfl, Nat.le_refl _⟩

theorem dropEnd (c e : Nat) (k : K V) : Shrinks k (dropEnd c e k).2 := by
  rw [dropEnd_eq]
  refine setConn (c := c) (x := ((k.conns c).drop e).2) ?_ ?_ ?_ ?_
  · unfold endWakes
    split <;> simp [K.setConn]
  · simp [K.setConn]
  · simp
  · unfold Conn.drop
    dsimp only
    split
    · exact .inl rfl
    · refine .inr ⟨_, rfl, fun d => ?_⟩
      by_cases hd : d = e
      · subst hd
        rw [Function.update_self]
        exact Nat.sub_le ..
      · rw [Function.update_of_ne hd]

theorem dropListener (i : Nat) (k : K V) : Shrinks k (dropListener i k).2 := by
  unfold Kernel.dropListener
  dsimp only
  split
  · exact setListener (.inl rfl)
  · exact setListener (.inr ⟨_, rfl, Nat.sub_le ..⟩)

theorem dropOne (env : Env V) (f : OpenFile) (k : K V) : Shrinks k (dropOne env f k).2 := by
  by_cases hu : f.kind = .unix
  · simp only [Kernel.dropOne, hu]
    exact dropEnd ..
  · by_cases hl : f.kind = .listen
    · simp only [Kernel.dropOne, hl]
      exact dropListener ..
    · obtain ⟨k', he, hc, hlist⟩ := dropOne_beside env k hu hl
      have hfds := dropOne_fds env f k
      rw [he] at hfds ⊢
      exact same hfds hc hlist

theorem dropUpTo (env : Env V) : ∀ (n : Nat) (fs : List OpenFile) (k : K V),
    Shrinks k (dropUpTo env n fs k) := by
  intro n
  induction n with
  | zero =>
      intro fs k
      cases fs <;> exact .refl k
  | succ n ih =>
      intro fs k
      cases fs with
      | nil => exact .refl k
      | cons f fs => exact (dropOne env f k).trans (ih ..)

/-- **Closing files** shrinks connections and listeners. -/
theorem dropRefs (env : Env V) (fs : List OpenFile) (k : K V) : Shrinks k (dropRefs env fs k) :=
  dropUpTo env _ fs k

end Shrinks

end Pulsar.Kernel

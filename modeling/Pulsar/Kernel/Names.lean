import Pulsar.Lib.Count
import Pulsar.Kernel.Call

/-!
# Who names an object

`held k X` counts the open files that name the object `X`: in the descriptor tables, on the way in
the queues of connections, and, for the server's end of a connection nobody has accepted yet, in a
listener's backlog.  `Bal s k ex` is the balance a state is in when the files `ex` are held in
somebody's hands besides: every counter is the number of names, and a slot is in use exactly as
long as something keeps it.
-/

namespace Pulsar.Kernel

variable {V : Type} {s : Bool} {k k' : K V} {ex : List OpenFile} {f : OpenFile}

/-- What can be named and is counted. -/
inductive Obj where
  | pipeR (i : Nat)
  | pipeW (i : Nat)
  | mem (i : Nat)
  | event (i : Nat)
  | epoll (i : Nat)
  | sock (i : Nat)
  | unix (c e : Nat)
  | uSock (i : Nat)
  | listen (i : Nat)
  | shm (id : Nat)
  deriving DecidableEq

/-- The object an open file names. -/
def OpenFile.obj (f : OpenFile) : Option Obj :=
  match f.kind with
  | .pipeR => some (.pipeR f.ino)
  | .pipeW => some (.pipeW f.ino)
  | .mem => some (.mem f.ino)
  | .event => some (.event f.ino)
  | .epoll => some (.epoll f.ino)
  | .sock => some (.sock f.ino)
  | .unix => some (.unix (f.ino / 2) (f.ino % 2))
  | .uSock => some (.uSock f.ino)
  | .listen => some (.listen f.ino)
  | .shm => some (.shm f.ino)
  | _ => none

/-- The counter of an object. -/
def K.refs (k : K V) : Obj → Nat
  | .pipeR i => (k.pipes i).readers
  | .pipeW i => (k.pipes i).writers
  | .mem i => (k.mems i).refs
  | .event i => (k.events i).refs
  | .epoll i => (k.epolls i).refs
  | .sock i => (k.socks i).refs
  | .unix c e => if e < 2 then (k.conns c).refs e else 0
  | .uSock i => (k.usocks i).refs
  | .listen i => (k.listeners i).refs
  | .shm id => if id = 0 then 0 else (k.shms (id - 1)).fdRefs

/-- How many of the files name `X`. -/
def countOf (X : Obj) (fs : List OpenFile) : Nat := fs.countP fun f => decide (f.obj = some X)

@[simp] theorem countOf_nil (X : Obj) : countOf X [] = 0 := rfl

theorem countOf_cons (X : Obj) (f : OpenFile) (fs : List OpenFile) :
    countOf X (f :: fs) = countOf X fs + if f.obj = some X then 1 else 0 := by
  simp [countOf, List.countP_cons]

@[simp] theorem countOf_append (X : Obj) (fs gs : List OpenFile) :
    countOf X (fs ++ gs) = countOf X fs + countOf X gs := List.countP_append

theorem countOf_cons_self {X : Obj} (h : f.obj = some X) (fs : List OpenFile) :
    countOf X (f :: fs) = countOf X fs + 1 := by
  rw [countOf_cons, if_pos h]

theorem countOf_cons_of_ne {X : Obj} (h : f.obj ≠ some X) (fs : List OpenFile) :
    countOf X (f :: fs) = countOf X fs := by
  rw [countOf_cons, if_neg h, Nat.add_zero]

theorem countOf_congr {X : Obj} {f g : OpenFile} (h : f.obj = g.obj) (fs : List OpenFile) :
    countOf X (f :: fs) = countOf X (g :: fs) := by
  rw [countOf_cons, countOf_cons, h]

/-- The connections waiting in a backlog, as open files of their server's ends. -/
def Listener.files (x : Listener) : List OpenFile := x.backlog.map (unixEnd · 1)

/-- How many open files name `X`, wherever they are. -/
def K.held (k : K V) (X : Obj) : Nat :=
  ∑ l ∈ Finset.range MAX_PROCS, countOf X (k.row l) +
    ∑ c ∈ Finset.range MAX_CONNS, countOf X (k.conns c).files +
      ∑ i ∈ Finset.range MAX_LISTEN, countOf X (k.listeners i).files

/-! ### How the names move -/

theorem countOf_row (X : Obj) (t : Nat → OpenFile) (n : Nat) :
    countOf X ((List.range n).map t) =
      ∑ fd ∈ Finset.range n, if (t fd).obj = some X then 1 else 0 := by
  induction n with
  | zero => rfl
  | succ n ih =>
      rw [List.range_succ, List.map_append, countOf_append, ih, Finset.sum_range_succ]
      simp [countOf_cons]

theorem held_setFd {l fd : Nat} (hl : l < MAX_PROCS) (hfd : fd < MAX_FDS) (X : Obj) :
    (k.setFd l fd f).held X + countOf X [k.fds l fd] = k.held X + countOf X [f] := by
  have hrow : countOf X ((k.setFd l fd f).row l) + countOf X [k.fds l fd] =
      countOf X (k.row l) + countOf X [f] := by
    have := sum_range_change hfd
      (f := fun j => if (k.fds l j).obj = some X then 1 else 0)
      (g := fun j => if ((k.setFd l fd f).fds l j).obj = some X then 1 else 0)
      fun j hj => by simp [K.setFd, Function.update_of_ne hj]
    have hself : (k.setFd l fd f).fds l fd = f := by simp only [K.setFd, Function.update_self]
    simp only [hself] at this
    simp only [K.row, countOf_row, countOf_cons, countOf_nil, Nat.zero_add]
    exact this
  have := sum_range_change hl (f := fun j => countOf X (k.row j))
    (g := fun j => countOf X ((k.setFd l fd f).row j))
    fun j hj => by simp [K.row, K.setFd, Function.update_of_ne hj]
  have h₂ : ∀ c, ((k.setFd l fd f).conns c).files = (k.conns c).files := fun _ => rfl
  have h₃ : ∀ i, ((k.setFd l fd f).listeners i).files = (k.listeners i).files := fun _ => rfl
  simp only [K.held, h₂, h₃] at *
  omega

theorem held_setRow {l : Nat} (hl : l < MAX_PROCS) {t : Nat → OpenFile} (X : Obj) :
    ({ k with fds := Function.update k.fds l t } : K V).held X + countOf X (k.row l) =
      k.held X + countOf X ((List.range MAX_FDS).map t) := by
  have := sum_range_change hl (f := fun j => countOf X (k.row j))
    (g := fun j => countOf X (({ k with fds := Function.update k.fds l t } : K V).row j))
    fun j hj => by simp [K.row, Function.update_of_ne hj]
  simp only [K.held, K.row, Function.update_self] at *
  omega

theorem held_setConn {c : Nat} {x : Conn} (hc : c < MAX_CONNS) (X : Obj) :
    (k.setConn c x).held X + countOf X (k.conns c).files = k.held X + countOf X x.files := by
  have := sum_range_change hc (f := fun j => countOf X (k.conns j).files)
    (g := fun j => countOf X ((k.setConn c x).conns j).files)
    fun j hj => by simp [K.setConn, Function.update_of_ne hj]
  have h₁ : ∀ l, (k.setConn c x).row l = k.row l := fun _ => rfl
  have h₃ : ∀ i, ((k.setConn c x).listeners i).files = (k.listeners i).files := fun _ => rfl
  have hs : (k.setConn c x).conns c = x := by simp [K.setConn]
  simp only [K.held, h₁, h₃, hs] at *
  omega

theorem held_setListener {i : Nat} {x : Listener} (hi : i < MAX_LISTEN) (X : Obj) :
    (k.setListener i x).held X + countOf X (k.listeners i).files =
      k.held X + countOf X x.files := by
  have := sum_range_change hi (f := fun j => countOf X (k.listeners j).files)
    (g := fun j => countOf X ((k.setListener i x).listeners j).files)
    fun j hj => by simp [K.setListener, Function.update_of_ne hj]
  have h₁ : ∀ l, (k.setListener i x).row l = k.row l := fun _ => rfl
  have h₂ : ∀ c, ((k.setListener i x).conns c).files = (k.conns c).files := fun _ => rfl
  have hs : (k.setListener i x).listeners i = x := by simp [K.setListener]
  simp only [K.held, h₁, h₂, hs] at *
  omega

theorem held_pos {l fd : Nat} (hl : l < MAX_PROCS) (hfd : fd < MAX_FDS) {X : Obj}
    (hX : (k.fds l fd).obj = some X) : 0 < k.held X := by
  have := held_setFd (k := k) (f := FREE) hl hfd X
  simp only [countOf_cons, hX, countOf_nil, if_true] at this
  have hfree : FREE.obj ≠ some X := by simp [OpenFile.obj, FREE]
  simp only [if_neg hfree] at this
  omega

/-! ### Slots in use -/

/-- A slot is in use exactly as long as something keeps it, and a free slot holds nothing. -/
structure Tidy (k : K V) : Prop where
  pipe : ∀ i, (k.pipes i).buf = 0 ↔ (k.pipes i).readers = 0 ∧ (k.pipes i).writers = 0
  mem : ∀ i, (k.mems i).buf = 0 ↔ (k.mems i).refs = 0
  event : ∀ i, (k.events i).used = true ↔ 0 < (k.events i).refs
  epoll : ∀ i, (k.epolls i).used = true ↔ 0 < (k.epolls i).refs
  sock : ∀ i, (k.socks i).used = true ↔ 0 < (k.socks i).refs
  uSock : ∀ i, (k.usocks i).used = true ↔ 0 < (k.usocks i).refs
  conn : ∀ c, (k.conns c).used = true ↔ 0 < (k.conns c).refs 0 ∨ 0 < (k.conns c).refs 1
  connFree : ∀ c, (k.conns c).used = false → (k.conns c).files = []
  connLt : ∀ c, (k.conns c).used = true → c < MAX_CONNS
  listener : ∀ i, (k.listeners i).used = true ↔ 0 < (k.listeners i).refs
  listenFree : ∀ i, (k.listeners i).used = false → (k.listeners i).backlog = []
  listenLt : ∀ i, (k.listeners i).used = true → i < MAX_LISTEN
  shm : ∀ i, (k.shms i).used = true ↔
    0 < (k.shms i).fdRefs ∨ 0 < (k.shms i).mapRefs ∨ (k.shms i).named = true
  shmLt : ∀ i, (k.shms i).used = true → i < MAX_OBJS

/-- Which objects an account is about: all of them, or all but shared memory. -/
def Obj.Counted (s : Bool) : Obj → Prop
  | .shm _ => s = true
  | _ => True

/-- Every counter is the number of names, the files `ex` in hand included. -/
structure Bal (s : Bool) (k : K V) (ex : List OpenFile) : Prop where
  count : ∀ X : Obj, X.Counted s → k.refs X = k.held X + countOf X ex
  tidy : Tidy k

theorem Bal.perm {ex' : List OpenFile} (h : Bal s k ex) (hp : ∀ X, countOf X ex' = countOf X ex) :
    Bal s k ex' :=
  ⟨fun X hct => by rw [hp]; exact h.count X hct, h.tidy⟩

theorem Bal.cons_none (hf : f.obj = none) : Bal s k (f :: ex) ↔ Bal s k ex := by
  have : ∀ X, countOf X (f :: ex) = countOf X ex := fun X =>
    countOf_cons_of_ne (by simp [hf]) ex
  exact ⟨fun h => h.perm fun X => (this X).symm, fun h => h.perm this⟩

theorem Bal.pos (h : Bal s k (f :: ex)) {X : Obj} (hf : f.obj = some X) (hct : X.Counted s) :
    0 < k.refs X := by
  have := h.count X hct
  rw [countOf_cons_self hf] at this
  omega

/-- One name of `X₀` is given back. -/
theorem Bal.less {X₀ : Obj} (h : Bal s k (f :: ex)) (hf : f.obj = some X₀) (hh : k'.held = k.held)
    (hr : ∀ X, k'.refs X = if X = X₀ then k.refs X₀ - 1 else k.refs X) (ht : Tidy k') :
    Bal s k' ex := by
  refine ⟨fun X hct => ?_, ht⟩
  have := h.count X hct
  rw [hr, hh]
  by_cases e : X = X₀
  · subst e
    rw [countOf_cons_self hf] at this
    rw [if_pos rfl]
    omega
  · rw [countOf_cons_of_ne (by rw [hf]; exact fun e' => e (Option.some.inj e').symm)] at this
    rw [if_neg e, this]

/-- One name of `X₀` more. -/
theorem Bal.more {X₀ : Obj} (h : Bal s k ex) (hf : f.obj = some X₀) (hh : k'.held = k.held)
    (hr : ∀ X, k'.refs X = if X = X₀ then k.refs X₀ + 1 else k.refs X) (ht : Tidy k') :
    Bal s k' (f :: ex) := by
  refine ⟨fun X hct => ?_, ht⟩
  have := h.count X hct
  rw [hr, hh]
  by_cases e : X = X₀
  · subst e
    rw [countOf_cons_self hf, if_pos rfl]
    omega
  · rw [countOf_cons_of_ne (by rw [hf]; exact fun e' => e (Option.some.inj e').symm), if_neg e, this]

theorem Bal.same (h : Bal s k ex) (hf : k'.fds = k.fds) (hp : k'.pipes = k.pipes)
    (hm : k'.mems = k.mems) (he : k'.events = k.events) (hep : k'.epolls = k.epolls)
    (hs : k'.socks = k.socks) (hu : k'.usocks = k.usocks) (hc : k'.conns = k.conns)
    (hl : k'.listeners = k.listeners) (ho : k'.shms = k.shms) : Bal s k' ex := by
  have hheld : k'.held = k.held := by
    funext X; simp only [K.held, K.row, hf, hc, hl]
  have hrefs : k'.refs = k.refs := by
    funext X; cases X <;> simp only [K.refs, hp, hm, he, hep, hs, hu, hc, hl, ho]
  refine ⟨fun X hct => by rw [hheld, hrefs]; exact h.count X hct, ?_⟩
  obtain ⟨t₁, t₂, t₃, t₄, t₅, t₆, t₇, t₈, t₉, t₁₀, t₁₁, t₁₂, t₁₃, t₁₄⟩ := h.tidy
  constructor <;> simp only [hp, hm, he, hep, hs, hu, hc, hl, ho] <;> assumption

end Pulsar.Kernel

import Pulsar.Kernel.Attached
import Pulsar.Kernel.Sockets

/-!
# Descriptors sent over local sockets (`linux.rs`, `file.rs`)

`sendmsg` attaches descriptors to what it sends (`SCM_RIGHTS`), and `recvmsg` installs those that
come with what it receives.  All processes make all the calls, in any order (`msgStep`), with a note
of each direction of each connection.

* `Fades`: what most calls do to connections.
* `rights_delivered`: each bundle is received with its byte or message, in order and once, and its
  descriptors are installed or closed; it is so in runs that keep clear of what `MsgCall.Apt` says.
-/

namespace Pulsar.Kernel

open Runs

variable {V α : Type} {env : Env V} {k k' k₀ k₁ : K V} {l fd c e i : Nat} {f : OpenFile}

-- states are compared by what closes files, never by counting up what is in transit
attribute [local irreducible] inTransit

/-! ### What most calls do to connections -/

/-- The connection is gone, or it holds the same. -/
def Conn.Fades (x x' : Conn) : Prop :=
  x'.used = false ∨
    x'.used = x.used ∧ x'.packet = x.packet ∧ ∀ e, ∃ b, x'.q e = { x.q e with eof := b }

/-- Connections are gone, or hold the same. -/
def Fades (k k' : K V) : Prop := ∀ c, (k.conns c).Fades (k'.conns c)

theorem Conn.Fades.refl (x : Conn) : x.Fades x := .inr ⟨rfl, rfl, fun e => ⟨(x.q e).eof, rfl⟩⟩

theorem Conn.Fades.trans {x y z : Conn} (h : x.Fades y) (h' : y.Fades z) : x.Fades z := by
  rcases h' with h' | ⟨hu', hp', hq'⟩
  · exact .inl h'
  · rcases h with h | ⟨hu, hp, hq⟩
    · exact .inl (hu'.trans h)
    · refine .inr ⟨hu'.trans hu, hp'.trans hp, fun e => ?_⟩
      obtain ⟨b, hb⟩ := hq e
      obtain ⟨b', hb'⟩ := hq' e
      exact ⟨b', by rw [hb', hb]⟩

namespace Fades

theorem of_conns (h : k'.conns = k.conns) : Fades k k' := fun _ => h ▸ .refl _

theorem refl (k : K V) : Fades k k := of_conns rfl

theorem trans (h : Fades k k₁) (h' : Fades k₁ k') : Fades k k' := fun c => (h c).trans (h' c)

theorem next (h : Fades k₀ k) (hc : k'.conns = k.conns) : Fades k₀ k' := h.trans (of_conns hc)

theorem shrinks (h : Shrinks k k') : Fades k k' := by
  intro c
  rcases h.conn c with hx | ⟨r, hx, -⟩
  · exact .inl (by rw [hx]; rfl)
  · rw [hx]
    exact .inr ⟨rfl, rfl, fun e => ⟨_, rfl⟩⟩

theorem addRef_conns (f : OpenFile) (k : K V) (c : Nat) :
    ∃ r, (addRef f k).conns c = { k.conns c with refs := r } := by
  obtain ⟨kind, i, flags, cloexec, off⟩ := f
  cases kind with
  | unix =>
      by_cases hc : c = i / 2
      · subst hc
        exact ⟨_, Function.update_self ..⟩
      · exact ⟨_, Function.update_of_ne hc ..⟩
  | shm =>
      have hsame := congrFun (shmFdRef_same i 1 k).conns c
      exact ⟨_, hsame⟩
  | _ => exact ⟨_, rfl⟩

theorem addRefs_conns (fs : List OpenFile) (k : K V) (c : Nat) :
    ∃ r, (fs.foldl (fun k f => addRef f k) k).conns c = { k.conns c with refs := r } := by
  induction fs generalizing k with
  | nil => exact ⟨_, rfl⟩
  | cons f fs ih =>
      obtain ⟨r, hr⟩ := addRef_conns f k c
      obtain ⟨r', hr'⟩ := ih (addRef f k)
      exact ⟨r', by rw [List.foldl_cons, hr', hr]⟩

theorem along (env : Env V) : Along env (Fades (V := V)) where
  trans h h' := h.trans h'
  same hs _ := of_conns hs.conns
  adds f k c := by
    obtain ⟨r, hr⟩ := addRef_conns f k c
    rw [hr]
    exact .inr ⟨rfl, rfl, fun e => ⟨_, rfl⟩⟩
  drops fs k := shrinks (Shrinks.dropRefs env fs k)

theorem shutdown (how : Nat) (k : K V) : Fades k (unixShutdown c e how k) := by
  have stop : ∀ (d : Nat) (k : K V), Fades k
      (pushWake (unixKeyR c d) (k.setQueue c d { (k.conns c).q d with eof := true })) := by
    intro d k b
    rw [pushWake_conns]
    by_cases hb : b = c
    · subst hb
      rw [setQueue_conns]
      refine .inr ⟨rfl, rfl, fun e => ?_⟩
      by_cases he : e = d
      · subst he
        exact ⟨true, Function.update_self ..⟩
      · exact ⟨_, Function.update_of_ne he ..⟩
    · simp only [K.setQueue, K.setConn, Function.update_of_ne hb]
      exact .refl _
  unfold unixShutdown
  dsimp only
  split <;> split
  · exact (stop _ _).trans (stop _ _)
  · exact stop _ _
  · exact stop _ _
  · exact refl k

/-! ### Calls that make no connection and transfer nothing -/

theorem pipe {flags : UInt32} : Goes Fades k (pipe env l flags) k := by
  have hask : ∀ n, Fades k { k with asked := n } := fun _ => of_conns rfl
  simp only [Goes, Kernel.pipe, wp_bind, wp_get]
  refine wp_position (fun i _ _ => ?_) (refl k)
  rw [wp_bind]
  refine wp_allocContig ?_ (hask _)
  simp only [wp_bind, wp_modify, wp_onError]
  refine wp_install (fun r _ _ => ?_) (of_conns rfl)
  rw [wp_bind, wp_onError]
  exact wp_install (fun _ _ _ => of_conns rfl) ((along env).dropRef (of_conns rfl) _)

theorem pipeRead {flags : UInt32} {len : Nat} : Goes Fades k (pipeRead flags i len) k := by
  simp only [Goes, Kernel.pipeRead, wp_bind, wp_get, wp_set, wp_ite, wp_pure, wp_throw,
    wp_wouldBlock]
  exact ⟨fun _ => ⟨fun _ => refl k, fun _ => ⟨fun _ => refl k, fun _ => of_conns rfl⟩⟩,
    fun _ => of_conns (pushWake_conns _)⟩

theorem pipeWrite {flags : UInt32} {src : Nat → UInt8} {len : Nat} :
    Goes Fades k (pipeWrite flags i src len) k := by
  simp only [Goes, Kernel.pipeWrite, wp_bind, wp_get, wp_set, wp_ite, wp_pure, wp_throw,
    wp_wouldBlock]
  exact ⟨fun _ => refl k, fun _ => ⟨fun _ => ⟨fun _ => refl k, fun _ => of_conns rfl⟩,
    fun _ => of_conns (pushWake_conns _)⟩⟩

theorem eventRead {flags : UInt32} {len : Nat} : Goes Fades k (eventRead flags i len) k := by
  simp only [Goes, Kernel.eventRead, wp_bind, wp_get, wp_set, wp_ite, wp_pure, wp_throw,
    wp_wouldBlock]
  exact ⟨fun _ => refl k, fun _ => ⟨fun _ => ⟨fun _ => refl k, fun _ => of_conns rfl⟩,
    fun _ => of_conns (pushWake_conns _)⟩⟩

theorem eventWrite {src : Nat → UInt8} {len : Nat} : Goes Fades k (eventWrite i src len) k := by
  simp only [Goes, Kernel.eventWrite, wp_bind, wp_ite, wp_pure, wp_throw, wp_modify]
  exact ⟨fun _ => refl k, fun _ => ⟨fun _ => refl k, fun _ => of_conns (pushWake_conns _)⟩⟩

theorem eventfd {init : Nat} {flags : UInt32} : Goes Fades k (eventfd env l init flags) k := by
  simp only [Goes, Kernel.eventfd, wp_bind, wp_get]
  exact wp_position (fun i _ _ => (along env).installNew (of_conns rfl)) (refl k)

theorem socket {domain : Nat} {ty : UInt32} : Goes Fades k (socket env l domain ty) k := by
  simp only [Goes, Kernel.socket, wp_bind, wp_get, wp_ite, wp_throw]
  exact ⟨fun _ => ⟨fun _ => refl k, fun _ =>
      wp_position (fun i _ _ => (along env).installNew (of_conns rfl)) (refl k)⟩,
    fun _ => ⟨fun _ => refl k, fun _ => ⟨fun _ => refl k, fun _ =>
      wp_position (fun i _ _ => (along env).installNew (of_conns rfl)) (refl k)⟩⟩⟩

theorem bind {sa : SockAddr} : Goes Fades k (bind env l fd sa) k := by
  simp only [Goes, Kernel.bind, wp_bind]
  refine wp_getFd (fun _ => ?_) (refl k)
  rw [wp_ite]
  refine ⟨fun _ => ?_, fun _ => ?_⟩
  · simp only [wp_bind, wp_get, wp_ite, wp_throw]
    refine ⟨fun _ => refl k, fun _ => ?_⟩
    exact wp_mono ((along env).unixKey (refl k)) (fun _ _ h => h.next rfl) fun _ _ h => h
  · cases sa with
    | path _ | abstract _ => exact refl k
    | inet lo port =>
        simp only [wp_bind, wp_ite, wp_throw, wp_modify, wp_pure]
        exact ⟨fun _ => refl k, fun _ => ⟨fun _ => of_conns rfl, fun _ => of_conns rfl⟩⟩

theorem unixListen {key : SockKey} {packet : Bool} (h : Fades k₀ k) :
    Goes Fades k₀ (unixListen key packet) k := by
  simp only [Goes, Kernel.unixListen, wp_bind, wp_get, wp_ite, wp_throw]
  exact ⟨fun _ => h, fun _ => wp_position (fun _ _ _ => h.next rfl) h⟩

theorem listen : Goes Fades k (listen env l fd) k := by
  simp only [Goes, Kernel.listen, wp_bind]
  refine wp_getFd (fun _ => ?_) (refl k)
  have finish : ∀ {k' : K V} {key : SockKey} {packet : Bool} {f : OpenFile}, Fades k k' →
      wp (Kernel.unixListen key packet) (fun li k' => Fades k
        (replaceFd env l (fd % 2 ^ 32) { f with kind := .listen, ino := li } f k'))
        (fun _ k' => Fades k k') k' := fun h =>
    wp_mono (unixListen h) (fun _ _ h => (along env).replaceFd h _) fun _ _ h => h
  simp only [wp_ite, wp_pure, wp_bind, wp_get, wp_throw]
  refine ⟨fun _ => refl k, fun _ => ⟨fun _ => ⟨fun _ => refl k, fun _ => finish (refl k)⟩,
    fun _ => ⟨fun _ => ?_, fun _ => refl k⟩⟩⟩
  simp only [ensurePort, wp_bind, wp_get, wp_ite, wp_pure, wp_set]
  exact ⟨fun _ => finish (refl k), fun _ => finish (of_conns rfl)⟩

theorem accept {flags : UInt32} : Goes Fades k (accept env l fd flags) k := by
  have htake : Goes Fades k (unixAccept (k.fds l (fd % 2 ^ 32)).ino
      (has (k.fds l (fd % 2 ^ 32)).flags O_NONBLOCK)) k := by
    simp only [Goes, unixAccept, wp_bind, wp_get]
    split
    · simp only [wp_ite, wp_throw, wp_wouldBlock]
      exact ⟨fun _ => refl k, fun _ => of_conns rfl⟩
    · exact of_conns rfl
  simp only [Goes, Kernel.accept, wp_bind]
  refine wp_getFd (fun _ => ?_) (refl k)
  simp only [wp_ite, wp_bind, wp_throw]
  refine ⟨fun _ => refl k, fun _ => wp_mono htake (fun c k' h => ?_) fun _ _ h => h⟩
  rw [wp_onError]
  exact wp_install (fun _ _ _ => h.next rfl) ((along env).dropRef h _)

theorem shutdownCall {how : Nat} : Goes Fades k (Kernel.shutdown l fd how) k := by
  simp only [Goes, Kernel.shutdown, wp_bind]
  refine wp_getFd (fun _ => ?_) (refl k)
  split
  · exact shutdown how k
  all_goals exact refl k

end Fades

/-! ### Calls that make a connection -/

/-- Nothing has been sent over the connection. -/
def Conn.Blank (x : Conn) : Prop := ∀ e, ∃ buf b, x.q e = { QEMPTY with buf := buf, eof := b }

/-- Connections are gone, or hold the same, or are new. -/
def Turns (k k' : K V) : Prop :=
  ∀ c, (k.conns c).Fades (k'.conns c) ∨ (k.conns c).used = false ∧ (k'.conns c).Blank

namespace Turns

theorem of_fades (h : Fades k k') : Turns k k' := fun c => .inl (h c)

theorem trans (h : Turns k k₁) (h' : Fades k₁ k') : Turns k k' := by
  intro c
  rcases h c with hx | ⟨hu, hb⟩
  · exact .inl (hx.trans (h' c))
  · rcases h' c with hx | ⟨-, -, hq⟩
    · exact .inl (.inl hx)
    · refine .inr ⟨hu, fun e => ?_⟩
      obtain ⟨buf, b, hb⟩ := hb e
      obtain ⟨b', hq⟩ := hq e
      exact ⟨buf, b', by rw [hq, hb]⟩

theorem connNew {packet : Bool} : wp (connNew packet) (fun _ k' => Turns k k')
    (fun _ k' => Fades k k') k := by
  have hask : ∀ n, Fades k { k with asked := n } := fun _ => .of_conns rfl
  simp only [Kernel.connNew, wp_bind, wp_get]
  refine wp_position (fun c _ hfree => ?_) (.refl k)
  rw [wp_bind]
  refine wp_allocContig ?_ (hask _)
  rw [wp_bind]
  refine wp_allocContig ?_ (.of_conns rfl)
  simp only [wp_bind, wp_modify, wp_pure]
  intro d
  by_cases hd : d = c
  · subst hd
    simp only [K.setConn, Function.update_self]
    exact .inr ⟨by simpa using hfree, fun e => ⟨_, false, rfl⟩⟩
  · simp only [K.setConn, Function.update_of_ne hd]
    exact .inl (.refl _)

theorem socketpair {domain : Nat} {ty : UInt32} : Goes Turns k (socketpair env l domain ty) k := by
  have hrefl : Turns k k := of_fades (.refl k)
  simp only [Goes, Kernel.socketpair, wp_bind, wp_ite, wp_throw]
  refine ⟨fun _ => hrefl, fun _ => ⟨fun _ => hrefl, fun _ => ?_⟩⟩
  refine wp_mono connNew (fun c k' h => ?_) fun _ _ h => of_fades h
  rw [wp_bind, wp_onError]
  refine wp_install (fun a _ _ => ?_) (h.trans ((Fades.along env).drops _ _))
  rw [wp_bind, wp_onError]
  refine wp_install (fun b _ _ => h.trans (.of_conns rfl)) ?_
  exact (h.trans (.of_conns rfl)).trans ((Fades.along env).drops _ _)

theorem unixConnect {key : SockKey} {packet : Bool} : wp (unixConnect key packet)
    (fun _ k' => Turns k k') (fun _ k' => Fades k k') k := by
  simp only [Kernel.unixConnect, wp_bind, wp_get]
  split
  · exact .refl k
  · simp only [wp_bind, wp_ite, wp_throw]
    refine ⟨fun _ => .refl k, fun _ => ⟨fun _ => .refl k, fun _ => ?_⟩⟩
    refine wp_mono connNew (fun c k' h => ?_) fun _ _ h => h
    simp only [wp_bind, wp_modify, wp_pure]
    exact h.trans (.of_conns (pushWake_conns _))

theorem connect {sa : SockAddr} : Goes Turns k (connect env l fd sa) k := by
  have hrefl : Turns k k := of_fades (.refl k)
  simp only [Goes, Kernel.connect, wp_bind]
  refine wp_getFd (fun _ => ?_) hrefl
  rw [wp_bind, wp_get, wp_ite]
  refine ⟨fun _ => ?_, fun _ => ?_⟩
  · rw [wp_bind]
    refine wp_mono unixKey_same (fun key k₁ h₁ => ?_) fun _ _ h => of_fades (.of_conns h.conns)
    have hstart : ∀ {k₂ : K V}, Turns k₁ k₂ → Turns k k₂ := fun h c => by
      rw [← h₁.conns]
      exact h c
    rw [wp_bind]
    refine wp_mono unixConnect (fun c k₂ h₂ => ?_)
      fun _ _ h => of_fades ((Fades.of_conns h₁.conns).trans h)
    exact (hstart h₂).trans ((Fades.along env).replaceFd (.refl _) _)
  · cases sa with
    | path _ | abstract _ => exact hrefl
    | inet lo port =>
        simp only [wp_bind, wp_ite, wp_throw, wp_set]
        refine ⟨fun _ => ?_, fun _ => ⟨fun _ => hrefl, fun _ => ?_⟩⟩
        · refine wp_mono unixConnect (fun c k₁ h₁ => ?_) fun _ _ h => of_fades h
          simp only [wp_bind, wp_modify, wp_pure]
          refine h₁.trans ((Fades.along env).replaceFd (fun d => ?_) _)
          by_cases hd : d = c
          · subst hd
            simp only [K.setConn, Function.update_self]
            exact .inr ⟨rfl, rfl, fun e => ⟨_, rfl⟩⟩
          · simp only [K.setConn, Function.update_of_ne hd]
            exact .refl _
        · split <;> exact of_fades (.of_conns rfl)

end Turns

/-! ### `recvmsg` -/

def EFAULT : Errno := 14

/-- `BOUNCE`: what `unix_msg` transfers at most. -/
def BOUNCE : Nat := 64 * 1024

def MSG_TRUNC : UInt32 := 0x20
def MSG_CTRUNC : UInt32 := 0x8

/-- The room for descriptors in a control buffer of `ctllen` bytes at `ctl`. -/
def ctlRoom (ctl ctllen : Nat) : Nat := if ctl ≠ 0 ∧ 16 ≤ ctllen then (ctllen - 16) / 4 else 0

/-- The receiving half of `unix_msg(fd, msg, ..)`: bytes, descriptors and flags.  When the message
has been taken, the buffers of the caller may turn out not to be writable (`fault`). -/
def unixMsg (env : Env V) (l fd cap : Nat) (nonblock cloexec : Bool) (ctl ctllen : Nat)
    (fault : Bool) : Prog V (Got × List Nat × UInt32) := do
  let room := ctlRoom ctl ctllen
  let (got, fds, trunc) ←
    unixRecv env l fd (min cap BOUNCE) nonblock cloexec (min room MAX_ATT_FDS)
  if fault then throw EFAULT
  let oflags := if trunc then MSG_TRUNC else 0
  pure (got, fds, if room < fds.length then oflags ||| MSG_CTRUNC else oflags)

/-! ### The system -/

/-- A call, or a `recvmsg`. -/
inductive MsgCall where
  | call (c : Call)
  | recvmsg (fd cap : Nat) (nonblock cloexec : Bool) (ctl ctllen : Nat) (fault : Bool)

namespace MsgCall

def run (env : Env V) (l : Nat) : MsgCall → Prog V Unit
  | .call c => c.run env l
  | .recvmsg fd cap nonblock cloexec ctl ctllen fault =>
    discard (unixMsg env l fd cap nonblock cloexec ctl ctllen fault)

/-- Descriptors are received by `recvmsg` only, and a fork takes a slot whose table is released. -/
def Able (k : K V) : MsgCall → Prop
  | .call (.recv ..) => False
  | .call (.fork dst) => dst < MAX_PROCS ∧ ∀ fd < MAX_FDS, (k.fds dst fd).obj = none
  | _ => True

instance (k : K V) (a : MsgCall) : Decidable (a.Able k) := by
  unfold Able
  split <;> infer_instance

end MsgCall

/-- The step of a call by the process of a slot. -/
def msgStep (env : Env V) (k : K V) (x : Nat × MsgCall) : Option (K V) :=
  if x.1 < MAX_PROCS ∧ x.2.Able k then some ((x.2.run env x.1).after k) else none

/-- The end of a connection that descriptor `fd` of slot `l` is open on. -/
def K.endOf (k : K V) (l fd : Nat) : Option (Nat × Nat) :=
  let f := k.fds l (fd % 2 ^ 32)
  if fd % 2 ^ 32 < MAX_FDS ∧ f.kind = .unix then some (f.ino / 2, f.ino % 2) else none

/-- The files of descriptors, as they are sent. -/
def K.filesOf (k : K V) (l : Nat) (fds : List Nat) : List OpenFile :=
  fds.map fun fd => { k.fds l (fd % 2 ^ 32) with cloexec := false }

/-- What a call sends or receives over a connection: to or from the queue that end `e` reads. -/
inductive Moved where
  | nothing
  | sent (c e n : Nat) (files : List OpenFile)
  | got (c e n : Nat) (files : List OpenFile) (fds : List Nat) (kept : List OpenFile)
    (report : Report)

/-- What `unix_msg` reports. -/
def reportOf : EStateM.Result Errno (K V) (Got × List Nat × UInt32) → Report
  | .ok r _ => .flags r.2.2
  | .error .. => .fault

/-- What a call of slot `l` has moved, in a step from `k` to `k'`. -/
def MsgCall.moved (env : Env V) (l : Nat) (k k' : K V) : MsgCall → Moved
  | .call (.write fd src len pos) =>
    match k.endOf l fd, Kernel.write env l fd src len pos k with
    | some (c, e), .ok n _ => .sent c (1 - e) n []
    | _, _ => .nothing
  | .call (.send fd src len fds nonblock) =>
    match k.endOf l fd, unixSend env l fd src len fds nonblock k with
    | some (c, e), .ok n _ => .sent c (1 - e) n (k.filesOf l fds)
    | _, _ => .nothing
  | .call (.read fd len pos) =>
    match k.endOf l fd, Kernel.read env l fd len pos k with
    | some (c, e), .ok r _ =>
      if ((k.conns c).q e).len = 0 then .nothing
      else .got c e r.n ((k.conns c).q e).takeAtt.1 [] [] .plain
    | _, _ => .nothing
  | .recvmsg fd cap nonblock cloexec ctl ctllen fault =>
    match k.endOf l fd, unixRecv env l fd (min cap BOUNCE) nonblock cloexec
      (min (ctlRoom ctl ctllen) MAX_ATT_FDS) k with
    | some (c, e), .ok r _ =>
      if ((k.conns c).q e).len = 0 then .nothing
      else .got c e r.1.n ((k.conns c).q e).takeAtt.1 r.2.1 (r.2.1.map (k'.fds l))
        (reportOf (unixMsg env l fd cap nonblock cloexec ctl ctllen fault k))
    | _, _ => .nothing
  | _ => .nothing

/-- The notes of all directions: the one to end `e` of connection `c`. -/
abbrev Journals := Nat → Nat → Journal

namespace Journals

/-- A connection that is made has a new note. -/
def after (j : Journals) (k k' : K V) (m : Moved) : Journals := fun c e =>
  if (k.conns c).used = false ∧ (k'.conns c).used = true then .none
  else match m with
    | .nothing => j c e
    | .sent d b n files =>
      if d = c ∧ b = e then (j c e).sends (k.conns c).packet n files else j c e
    | .got d b n files fds kept report =>
      if d = c ∧ b = e then (j c e).takes (k.conns c).packet n files fds kept report else j c e

def note (env : Env V) (k : K V) (x : Nat × MsgCall) (k' : K V) (j : Journals) : Journals :=
  j.after k k' (x.2.moved env x.1 k k')

end Journals

/-! ### What is promised -/

/-- A file, whatever its descriptor is to do at an `exec`. -/
def OpenFile.bare (f : OpenFile) : OpenFile := { f with cloexec := false }

/-- Of the files that came, the first are installed, each under a number of its own, and the others
closed, which a `recvmsg` reports; who gets an error gets no descriptors. -/
structure Handed (files : List OpenFile) (fds : List Nat) (kept : List OpenFile)
    (report : Report) : Prop where
  own : fds.Nodup ∧ fds.length = kept.length
  same : kept.map OpenFile.bare = (files.take kept.length).map OpenFile.bare
  told : kept.length < files.length → report = .plain ∨
    ∃ f, report = .flags f ∧ f &&& MSG_CTRUNC ≠ 0
  fault : report = .fault → kept = []

/-- Descriptors came with a byte or a message that was received. -/
def Taking.Fair (t : Taking) : Prop := 0 < t.units ∧ Handed t.files t.fds t.kept t.report

/-- What was taken is what was sent, in order and each once, with the byte or message it was sent
with; what is left is in the queue, at places still to come, as long as there is a connection. -/
def Journal.Served (j : Journal) (x : Conn) (e : Nat) : Prop :=
  (∀ t ∈ j.taken, t.Fair) ∧ ∃ rest, j.sent = j.taken.map Taking.att ++ rest ∧
    (x.used = true →
      rest.map Att.files = (x.q e).atts.map Att.files ∧ ∀ a ∈ rest, j.got ≤ a.pos)

/-- A read with no room for a byte of a stream takes no descriptors. -/
def Conn.Whole (x : Conn) (e len : Nat) : Prop :=
  x.packet = false → len = 0 → (x.q e).len ≠ 0 → (x.q e).takeAtt.1 = []

/-- How many descriptors of a slot are free. -/
def K.freeFds (k : K V) (l : Nat) : Nat :=
  (List.range MAX_FDS).countP fun fd => decide ((k.fds l fd).kind = .free)

/-- What a call has to keep clear of.  Descriptors are not sent where others, or a message of no
bytes without any, are at the same position; bytes are not read without room for one, when
descriptors come with it; and whoever receives descriptors with `recvmsg` has room for all of them
in its control buffer and its table, and buffers that can be written. -/
def MsgCall.Apt (k : K V) (l : Nat) : MsgCall → Prop
  | .call (.send fd _ _ fds _) => fds ≠ [] → ∀ p ∈ k.endOf l fd,
    ((k.conns p.1).q (1 - p.2)).Matched (k.conns p.1).packet
  | .call (.read fd len _) => ∀ p ∈ k.endOf l fd, (k.conns p.1).Whole p.2 len
  | .recvmsg fd cap _ _ ctl ctllen fault => ∀ p ∈ k.endOf l fd,
    (k.conns p.1).Whole p.2 (min cap BOUNCE) ∧ (((k.conns p.1).q p.2).len ≠ 0 →
      ((k.conns p.1).q p.2).takeAtt.1 ≠ [] → fault = false ∧
        ((k.conns p.1).q p.2).takeAtt.1.length ≤ ctlRoom ctl ctllen ∧
        ((k.conns p.1).q p.2).takeAtt.1.length ≤ k.freeFds l)
  | _ => True

instance (k : K V) (l : Nat) (a : MsgCall) : Decidable (a.Apt k l) := by
  unfold MsgCall.Apt Conn.Whole
  split <;> infer_instance

/-- What a call has to keep clear of for shared memory to be counted, too. -/
def MsgCall.Clear (k : K V) : MsgCall → Prop
  | .call c => c.Clear k
  | .recvmsg .. => True

/-! ### What the transfers do -/

theorem endOf_some (h : k.endOf l fd = some (c, e)) : fd % 2 ^ 32 < MAX_FDS ∧
    (k.fds l (fd % 2 ^ 32)).kind = .unix ∧ (k.fds l (fd % 2 ^ 32)).ino / 2 = c ∧
    (k.fds l (fd % 2 ^ 32)).ino % 2 = e := by
  unfold K.endOf at h
  dsimp only at h
  split at h
  · rename_i hf
    obtain ⟨rfl, rfl⟩ := Prod.mk.inj (Option.some.inj h)
    exact ⟨hf.1, hf.2, rfl, rfl⟩
  · cases h

theorem endOf_of (hfd : fd % 2 ^ 32 < MAX_FDS) (hk : (k.fds l (fd % 2 ^ 32)).kind = .unix) :
    k.endOf l fd =
      some ((k.fds l (fd % 2 ^ 32)).ino / 2, (k.fds l (fd % 2 ^ 32)).ino % 2) := if_pos ⟨hfd, hk⟩

theorem Fades.read {len : Nat} {pos : Option Nat} (hend : k.endOf l fd = none) :
    Goes Fades k (Kernel.read env l fd len pos) k := by
  simp only [Goes, Kernel.read, wp_bind]
  refine wp_getFd (fun hfd => ?_) (.refl k)
  split
  case h_6 =>
      exact wp_ite.mpr ⟨fun _ => Fades.refl k, fun _ => (Fades.along env).transfer (Fades.refl k)⟩
  case h_10 => exact wp_ite.mpr ⟨fun _ => Fades.refl k, fun _ => Fades.pipeRead⟩
  case h_11 hu => exact absurd (hend.symm.trans (endOf_of hfd hu)) nofun
  case h_12 => exact Fades.eventRead
  all_goals first | exact Fades.refl k | exact (Fades.along env).transfer (Fades.refl k)

theorem Fades.write {src : Nat → UInt8} {len : Nat} {pos : Option Nat}
    (hend : k.endOf l fd = none) : Goes Fades k (Kernel.write env l fd src len pos) k := by
  simp only [Goes, Kernel.write, wp_bind]
  refine wp_getFd (fun hfd => ?_) (.refl k)
  split
  case h_7 =>
      exact wp_ite.mpr ⟨fun _ => Fades.refl k,
        fun _ => (Fades.along env).transfer (r := fun n => n) (Fades.refl k)⟩
  case h_10 => exact wp_ite.mpr ⟨fun _ => Fades.refl k, fun _ => Fades.pipeWrite⟩
  case h_11 hu => exact absurd (hend.symm.trans (endOf_of hfd hu)) nofun
  case h_12 => exact Fades.eventWrite
  all_goals first
    | exact Fades.refl k
    | exact (Fades.along env).transfer (r := fun n => n) (Fades.refl k)

theorem setQueue_fades {q : Queue} (h : ∀ d, ∃ r, k₁.conns d = { k.conns d with refs := r }) :
    Fades (k.setQueue c e q) (k₁.setQueue c e q) := by
  intro d
  obtain ⟨r, hr⟩ := h d
  by_cases hd : d = c
  · subst hd
    simp only [setQueue_conns, hr]
    exact .inr ⟨rfl, rfl, fun e => ⟨_, rfl⟩⟩
  · simp only [K.setQueue, K.setConn, Function.update_of_ne hd, hr]
    exact .inr ⟨rfl, rfl, fun e => ⟨_, rfl⟩⟩

theorem filesToSend_files : ∀ (fds : List Nat), wp (filesToSend l fds)
    (fun fs k' => k' = k ∧ fs = k.filesOf l fds ∧ ∀ f ∈ fs, f.kind ≠ .free)
    (fun _ k' => k' = k) k := by
  intro fds
  induction fds with
  | nil => exact ⟨rfl, rfl, fun f hf => absurd hf List.not_mem_nil⟩
  | cons fd fds ih =>
      simp only [filesToSend, wp_bind]
      refine wp_getFd_open (fun _ hopen => ?_) rfl
      rw [wp_bind]
      refine wp_mono ih (fun fs k' h => ?_) fun _ _ h => h
      obtain ⟨rfl, rfl, hfs⟩ := h
      refine ⟨rfl, rfl, fun f hf => ?_⟩
      rcases List.mem_cons.mp hf with rfl | hf
      · exact hopen
      · exact hfs f hf

theorem unixSend_moves {src : Nat → UInt8} {len : Nat} {fds : List Nat} {nonblock : Bool} :
    wp (unixSend env l fd src len fds nonblock)
      (fun n k' => ∃ c e, k.endOf l fd = some (c, e) ∧ fds.length ≤ MAX_ATT_FDS ∧
        (∀ f ∈ k.filesOf l fds, f.kind ≠ .free) ∧
        ¬ ((k.conns c).q (1 - e)).full (k.conns c).packet len ∧
        n = (if (k.conns c).packet then len else min len (CAP - ((k.conns c).q (1 - e)).len)) ∧
        Fades (k.setQueue c (1 - e)
          (((k.conns c).q (1 - e)).send (k.conns c).packet n src (k.filesOf l fds))) k')
      (fun _ k' => Fades k k') k := by
  simp only [unixSend, wp_bind]
  refine wp_getFd (fun hfd => ?_) (.refl k)
  simp only [wp_ite, wp_bind, wp_throw]
  refine ⟨fun _ => .refl k, fun hk => ⟨fun _ => .refl k, fun hlen => ?_⟩⟩
  refine wp_mono (filesToSend_files fds) (fun fs k' hfs => ?_) fun _ _ h => h ▸ .refl k
  obtain ⟨rfl, rfl, hopen⟩ := hfs
  simp only [wp_bind, wp_modify, wp_onError]
  have hrefs := Fades.addRefs_conns (k'.filesOf l fds) k'
  have hadd : Fades k' ((k'.filesOf l fds).foldl (fun k f => addRef f k) k') :=
    (Fades.along env).addRefs (.refl k') _
  generalize (k'.filesOf l fds).foldl (fun k f => addRef f k) k' = k₁ at hrefs hadd
  refine wp_mono unixWrite_conn (fun n k₂ h => ?_) fun _ k₂ h => ?_
  · obtain ⟨hfull, hn, hconns⟩ := h
    obtain ⟨r, hr⟩ := hrefs ((k'.fds l (fd % 2 ^ 32)).ino / 2)
    rw [hr] at hfull hn hconns
    refine ⟨_, _, endOf_of hfd (not_not.mp hk), Nat.le_of_not_lt hlen, hopen, hfull, hn, ?_⟩
    exact (setQueue_fades hrefs).next hconns
  · exact (hadd.next h).trans ((Fades.along env).drops _ _)

theorem write_moves {src : Nat → UInt8} {len : Nat} {pos : Option Nat}
    (hend : k.endOf l fd = some (c, e)) : wp (Kernel.write env l fd src len pos)
      (fun n k' => ¬ ((k.conns c).q (1 - e)).full (k.conns c).packet len ∧
        n = (if (k.conns c).packet then len else min len (CAP - ((k.conns c).q (1 - e)).len)) ∧
        Fades (k.setQueue c (1 - e) (((k.conns c).q (1 - e)).send (k.conns c).packet n src [])) k')
      (fun _ k' => Fades k k') k := by
  obtain ⟨-, hk, rfl, rfl⟩ := endOf_some hend
  simp only [Kernel.write, wp_bind]
  refine wp_getFd (fun _ => ?_) (.refl k)
  simp only [hk]
  refine wp_mono unixWrite_conn (fun n k' h => ?_) fun _ k' h => .of_conns h
  exact ⟨h.1, h.2.1, .of_conns h.2.2⟩

/-- What a receive of connection `c` at end `e` leaves, beside what happens to the files. -/
theorem unixRead_moves {len : Nat} {nonblock : Bool} : wp (unixRead c e len nonblock)
    (fun r k' => ((k.conns c).q e).len = 0 ∧ r.files = [] ∧ k' = k ∨
      ((k.conns c).q e).len ≠ 0 ∧ r = (((k.conns c).q e).receive (k.conns c).packet len).1 ∧
        k'.fds = k.fds ∧
        Fades (k.setQueue c e (((k.conns c).q e).receive (k.conns c).packet len).2) k')
    (fun _ k' => Fades k k') k := by
  simp only [unixRead, wp_bind, wp_get, wp_set, wp_ite, wp_pure, wp_throw, wp_wouldBlock]
  refine ⟨fun hz => ⟨fun _ => .inl ⟨hz, trivial, trivial⟩,
    fun _ => ⟨fun _ => .refl k, fun _ => .of_conns rfl⟩⟩, fun hz => .inr ⟨hz, trivial, ?_, ?_⟩⟩
  · rw [pushWake_fds]
    rfl
  · exact .of_conns (pushWake_conns _)

theorem read_moves {len : Nat} {pos : Option Nat} (hend : k.endOf l fd = some (c, e)) :
    wp (Kernel.read env l fd len pos)
      (fun r k' => ((k.conns c).q e).len = 0 ∧ Fades k k' ∨
        ((k.conns c).q e).len ≠ 0 ∧
          r.n = (((k.conns c).q e).receive (k.conns c).packet len).1.n ∧
          Fades (k.setQueue c e (((k.conns c).q e).receive (k.conns c).packet len).2) k')
      (fun _ k' => Fades k k') k := by
  obtain ⟨-, hk, rfl, rfl⟩ := endOf_some hend
  simp only [Kernel.read, wp_bind]
  refine wp_getFd (fun _ => ?_) (.refl k)
  simp only [hk, unixReadPlain, wp_bind]
  refine wp_mono unixRead_moves (fun r k' h => ?_) fun _ _ h => h
  rcases h with ⟨hz, hfiles, rfl⟩ | ⟨hz, rfl, -, h⟩
  · exact .inl ⟨hz, (Fades.along env).drops _ _⟩
  · exact .inr ⟨hz, rfl, h.trans ((Fades.along env).drops _ _)⟩

theorem unixRecv_moves {len room : Nat} {nonblock cloexec : Bool} :
    wp (unixRecv env l fd len nonblock cloexec room)
      (fun r k' => ∃ c e, k.endOf l fd = some (c, e) ∧ (((k.conns c).q e).len = 0 ∧ Fades k k' ∨
        ((k.conns c).q e).len ≠ 0 ∧
          r.1.n = (((k.conns c).q e).receive (k.conns c).packet len).1.n ∧ ∃ k₁, k₁.fds = k.fds ∧
          receiveFiles env l cloexec room ((k.conns c).q e).takeAtt.1 k₁ = (r.2.1, k') ∧
          Fades (k.setQueue c e (((k.conns c).q e).receive (k.conns c).packet len).2) k'))
      (fun _ k' => Fades k k') k := by
  simp only [unixRecv, wp_bind]
  refine wp_getFd (fun hfd => ?_) (.refl k)
  simp only [wp_ite, wp_bind, wp_throw]
  refine ⟨fun _ => .refl k, fun hk => wp_mono unixRead_moves (fun r k₁ h => ?_) fun _ _ h => h⟩
  refine ⟨_, _, endOf_of hfd (not_not.mp hk), ?_⟩
  have hfiles : ∀ {k₀ : K V}, Fades k₀ k₁ →
      Fades k₀ (receiveFiles env l cloexec room r.files k₁).2 := fun h =>
    (Fades.along env).receiveFiles _ _ h
  rcases h with ⟨hz, -, rfl⟩ | ⟨hz, rfl, hfds, h⟩
  · exact .inl ⟨hz, hfiles (.refl _)⟩
  · refine .inr ⟨hz, rfl, k₁, hfds, ?_, hfiles h⟩
    rw [← Queue.receive_takes]

/-! ### Descriptors that are received -/

theorem freeFds_setFd (k : K V) (l fd : Nat) (f : OpenFile) :
    k.freeFds l ≤ (k.setFd l fd f).freeFds l + 1 := by
  have hle : ∀ fds : List Nat, fds.Nodup →
      fds.countP (fun j => decide ((k.fds l j).kind = .free)) ≤
        fds.countP (fun j => decide (((k.setFd l fd f).fds l j).kind = .free)) +
          fds.count fd := by
    intro fds
    induction fds with
    | nil => exact fun _ => Nat.le_refl _
    | cons j fds ih =>
        intro hnd
        obtain ⟨hj, hnd⟩ := List.nodup_cons.mp hnd
        have ih := ih hnd
        by_cases h : j = fd
        · subst h
          rw [List.countP_cons, List.countP_cons, List.count_cons_self]
          split <;> split <;> omega
        · rw [List.countP_cons, List.countP_cons, List.count_cons_of_ne h, setFd_fds_of_ne h]
          omega
  have hone : (List.range MAX_FDS).count fd ≤ 1 :=
    List.nodup_iff_count_le_one.mp List.nodup_range fd
  have hall := hle (List.range MAX_FDS) List.nodup_range
  unfold K.freeFds
  omega

theorem install_free (h : 0 < k.freeFds l) (f : OpenFile) :
    ∃ fd, (k.fds l fd).kind = .free ∧ install l f 0 k = .ok fd (k.setFd l fd f) := by
  have hspec : wp (install l f 0) (fun fd k' => (k.fds l fd).kind = .free ∧ k' = k.setFd l fd f)
      (fun _ _ => False) k := by
    simp only [install, wp_bind, wp_get]
    unfold position
    split
    · rename_i i hi
      have hfree := List.find?_some hi
      simp only [decide_eq_true_eq] at hfree
      exact ⟨hfree.2, rfl⟩
    · rename_i hnone
      obtain ⟨fd, hmem, hfree⟩ := List.countP_pos_iff.mp h
      have hnot := List.find?_eq_none.mp hnone fd hmem
      simp only [decide_eq_true_eq] at hfree hnot
      exact hnot ⟨Nat.zero_le _, hfree⟩
  obtain ⟨fd, k', hx, hfree, rfl⟩ := hspec.returns
  exact ⟨fd, hfree, hx⟩

/-- Where there is room for all of them, each descriptor that is received gets a number of its
own. -/
theorem receiveFiles_all {cloexec : Bool} : ∀ (fs : List OpenFile) {room : Nat} {k : K V},
    fs.length ≤ room → fs.length ≤ k.freeFds l → (∀ f ∈ fs, f.kind ≠ .free) →
    (receiveFiles env l cloexec room fs k).1.Nodup ∧
    (∀ fd ∈ (receiveFiles env l cloexec room fs k).1, (k.fds l fd).kind = .free) ∧
    (∀ fd, fd ∉ (receiveFiles env l cloexec room fs k).1 →
      (receiveFiles env l cloexec room fs k).2.fds l fd = k.fds l fd) ∧
    (receiveFiles env l cloexec room fs k).1.map
        ((receiveFiles env l cloexec room fs k).2.fds l) =
      fs.map fun f => { f with cloexec := cloexec } := by
  intro fs
  induction fs with
  | nil =>
      intro room k _ _ _
      cases room <;> exact ⟨.nil, fun _ h => absurd h List.not_mem_nil, fun _ _ => rfl, rfl⟩
  | cons f fs ih =>
      intro room k hroom hfree hkind
      cases room with
      | zero => exact absurd hroom (Nat.not_succ_le_zero _)
      | succ room =>
          obtain ⟨fd, hfd, hx⟩ := install_free (Nat.lt_of_lt_of_le (Nat.succ_pos _) hfree)
            { f with cloexec := cloexec }
          have hless := freeFds_setFd k l fd { f with cloexec := cloexec }
          rw [List.length_cons] at hroom hfree
          obtain ⟨hnd, hlater, hothers, hfiles⟩ := @ih room
            (k.setFd l fd { f with cloexec := cloexec }) (by omega) (by omega)
            fun g hg => hkind g (.tail _ hg)
          have hnot : fd ∉ (receiveFiles env l cloexec room fs
              (k.setFd l fd { f with cloexec := cloexec })).1 := fun hmem => by
            have := hlater fd hmem
            rw [setFd_fds_self] at this
            exact hkind f List.mem_cons_self this
          have hr : receiveFiles env l cloexec (room + 1) (f :: fs) k =
              (fd :: (receiveFiles env l cloexec room fs
                (k.setFd l fd { f with cloexec := cloexec })).1,
              (receiveFiles env l cloexec room fs
                (k.setFd l fd { f with cloexec := cloexec })).2) := by
            rw [receiveFiles, hx]
          rw [hr]
          refine ⟨List.nodup_cons.mpr ⟨hnot, hnd⟩, fun j hj => ?_, fun j hj => ?_, ?_⟩
          · rcases List.mem_cons.mp hj with rfl | hj
            · exact hfd
            · have hne : j ≠ fd := fun he => hnot (he ▸ hj)
              rw [← setFd_fds_of_ne hne]
              exact hlater j hj
          · rw [List.mem_cons, not_or] at hj
            rw [hothers j hj.2, setFd_fds_of_ne hj.1]
          · rw [List.map_cons, List.map_cons, hfiles, hothers fd hnot, setFd_fds_self]

/-! ### Each call -/

/-- Files that can be attached. -/
def Sendable (files : List OpenFile) : Prop :=
  files.length ≤ MAX_ATT_FDS ∧ ∀ f ∈ files, f.kind ≠ .free

/-- From `k` to `k'` a call has moved what is said. -/
inductive Does (k k' : K V) : Moved → Prop where
  | nothing (h : Turns k k') : Does k k' .nothing
  | sent {c e n len : Nat} {src : Nat → UInt8} {files : List OpenFile}
      (hu : (k.conns c).used = true)
      (hfull : ¬ ((k.conns c).q e).full (k.conns c).packet len)
      (hn : n = if (k.conns c).packet then len else min len (CAP - ((k.conns c).q e).len))
      (h : Fades (k.setQueue c e (((k.conns c).q e).send (k.conns c).packet n src files)) k')
      (hm : files ≠ [] → ((k.conns c).q e).Matched (k.conns c).packet)
      (hs : Sendable files) : Does k k' (.sent c e n files)
  | got {c e len : Nat} {fds : List Nat} {kept : List OpenFile} {report : Report}
      (hu : (k.conns c).used = true)
      (hq : ((k.conns c).q e).len ≠ 0)
      (h : Fades (k.setQueue c e (((k.conns c).q e).receive (k.conns c).packet len).2) k')
      (hw : (k.conns c).Whole e len)
      (hg : ((k.conns c).q e).takeAtt.1 ≠ [] → Sendable ((k.conns c).q e).takeAtt.1 →
        Handed ((k.conns c).q e).takeAtt.1 fds kept report) :
      Does k k' (.got c e (((k.conns c).q e).receive (k.conns c).packet len).1.n
        ((k.conns c).q e).takeAtt.1 fds kept report)

theorem Does.of_fades (h : Fades k k') : Does k k' .nothing := .nothing (.of_fades h)

theorem Does.along {x : Prog V α} (h : Goes Fades k x k) : Does k (x.after k) .nothing :=
  .of_fades (Prog.after_of_wp h)

theorem Does.turns {x : Prog V α} (h : Goes Turns k x k) : Does k (x.after k) .nothing :=
  .nothing (Prog.after_of_wp h)

theorem handed_plain (files : List OpenFile) : Handed files [] [] .plain :=
  ⟨⟨.nil, rfl⟩, rfl, fun _ => .inl rfl, nofun⟩

/-- What `recvmsg` leaves is what `unix_recv` leaves, also when the buffers cannot be written. -/
theorem unixMsg_after {cap ctl ctllen : Nat} {nonblock cloexec fault : Bool} :
    (unixMsg env l fd cap nonblock cloexec ctl ctllen fault).after k =
      (unixRecv env l fd (min cap BOUNCE) nonblock cloexec
        (min (ctlRoom ctl ctllen) MAX_ATT_FDS)).after k := by
  cases hx : unixRecv env l fd (min cap BOUNCE) nonblock cloexec
      (min (ctlRoom ctl ctllen) MAX_ATT_FDS) k with
  | ok r k₁ =>
      have hspec : wp (unixMsg env l fd cap nonblock cloexec ctl ctllen fault)
          (fun _ k' => k' = k₁) (fun _ k' => k' = k₁) k := by
        simp only [unixMsg, wp_bind]
        refine (wp_ok hx).mpr ?_
        simp only [wp_ite, wp_pure]
        cases fault <;> simp
      rw [Prog.after_ok hx]
      exact Prog.after_of_wp hspec
  | error x k₁ =>
      have hspec : wp (unixMsg env l fd cap nonblock cloexec ctl ctllen fault)
          (fun _ k' => k' = k₁) (fun _ k' => k' = k₁) k := by
        simp only [unixMsg, wp_bind]
        exact (wp_error hx).mpr rfl
      rw [Prog.after_error hx]
      exact Prog.after_of_wp hspec

/-- A `recvmsg` with buffers that can be written returns its flags. -/
theorem unixMsg_flags {cap ctl ctllen : Nat} {nonblock cloexec : Bool} {r : Got × List Nat × Bool}
    (hx : unixRecv env l fd (min cap BOUNCE) nonblock cloexec
      (min (ctlRoom ctl ctllen) MAX_ATT_FDS) k = .ok r k₁) :
    ∃ f, reportOf (unixMsg env l fd cap nonblock cloexec ctl ctllen false k) = .flags f := by
  have hspec : wp (unixMsg env l fd cap nonblock cloexec ctl ctllen false)
      (fun _ _ => True) (fun _ _ => False) k := by
    simp only [unixMsg, wp_bind]
    refine (wp_ok hx).mpr ?_
    simp
  obtain ⟨r, k', h, -⟩ := hspec.returns
  exact ⟨_, by rw [h]; rfl⟩

theorem handed_all {cloexec : Bool} {room : Nat} {files : List OpenFile} {fds : List Nat}
    {f : UInt32} (hx : receiveFiles env l cloexec room files k₁ = (fds, k'))
    (hroom : files.length ≤ room) (hfree : files.length ≤ k₁.freeFds l)
    (hs : Sendable files) : Handed files fds (fds.map (k'.fds l)) (.flags f) := by
  have hall := @receiveFiles_all V env l cloexec files room k₁ hroom hfree hs.2
  rw [hx] at hall
  obtain ⟨hnd, -, -, hfiles⟩ := hall
  have hfiles : fds.map (k'.fds l) = files.map fun f => { f with cloexec := cloexec } := hfiles
  have hlen : (fds.map (k'.fds l)).length = files.length := by rw [hfiles, List.length_map]
  refine ⟨⟨hnd, (List.length_map _).symm⟩, ?_, fun hlt => absurd hlen hlt.ne, nofun⟩
  rw [hlen, List.take_length, hfiles, List.map_map]
  rfl

theorem Bal.endOf_used {b : Bool} {ex : List OpenFile} (hb : Bal b k ex) (hl : l < MAX_PROCS)
    (hend : k.endOf l fd = some (c, e)) : (k.conns c).used = true := by
  obtain ⟨hfd, hk, rfl, -⟩ := endOf_some hend
  exact hb.conn_used hl hfd hk

section Transfers

variable (hu : ∀ {c e}, k.endOf l fd = some (c, e) → (k.conns c).used = true)

include hu

theorem MsgCall.does_recvmsg {cap ctl ctllen : Nat} {nonblock cloexec fault : Bool}
    (hapt : (MsgCall.recvmsg fd cap nonblock cloexec ctl ctllen fault).Apt k l) :
    Does k (((recvmsg fd cap nonblock cloexec ctl ctllen fault).run env l).after k)
      ((recvmsg fd cap nonblock cloexec ctl ctllen fault).moved env l k
        (((recvmsg fd cap nonblock cloexec ctl ctllen fault).run env l).after k)) := by
  have hafter : ((recvmsg fd cap nonblock cloexec ctl ctllen fault).run env l).after k =
      (unixRecv env l fd (min cap BOUNCE) nonblock cloexec
        (min (ctlRoom ctl ctllen) MAX_ATT_FDS)).after k :=
    (Prog.after_discard _).trans unixMsg_after
  rw [hafter]
  simp only [moved]
  cases hx : unixRecv env l fd (min cap BOUNCE) nonblock cloexec
      (min (ctlRoom ctl ctllen) MAX_ATT_FDS) k with
  | error x k₁ =>
      rw [Prog.after_error hx]
      cases k.endOf l fd <;> exact .of_fades (unixRecv_moves.error hx)
  | ok r k₁ =>
      rw [Prog.after_ok hx]
      obtain ⟨c, e, hend, h⟩ := unixRecv_moves.ok hx
      obtain ⟨hwhole, hroom⟩ := hapt (c, e) hend
      simp only [hend]
      rcases h with ⟨hz, h⟩ | ⟨hz, hn, k₂, hfds, hfiles, h⟩
      · rw [if_pos hz]
        exact .of_fades h
      · rw [if_neg hz, hn]
        refine .got (hu hend) hz h hwhole fun hne hs => ?_
        obtain ⟨rfl, hctl, hfree⟩ := hroom hz hne
        obtain ⟨f, hf⟩ := unixMsg_flags hx
        rw [hf]
        refine handed_all hfiles (Nat.le_min.mpr ⟨hctl, hs.1⟩) ?_ hs
        unfold K.freeFds
        rw [hfds]
        exact hfree

theorem MsgCall.does_send {src : Nat → UInt8} {len : Nat} {fds : List Nat} {nonblock : Bool}
    (hapt : (MsgCall.call (.send fd src len fds nonblock)).Apt k l) :
    Does k ((unixSend env l fd src len fds nonblock).after k)
      ((call (.send fd src len fds nonblock)).moved env l k
        ((unixSend env l fd src len fds nonblock).after k)) := by
  simp only [moved]
  cases hx : unixSend env l fd src len fds nonblock k with
  | error x k₁ =>
      rw [Prog.after_error hx]
      cases k.endOf l fd <;> exact .of_fades (unixSend_moves.error hx)
  | ok n k₁ =>
      rw [Prog.after_ok hx]
      obtain ⟨c, e, hend, hlen, hopen, hfull, hn, h⟩ := unixSend_moves.ok hx
      simp only [hend]
      refine .sent (hu hend) hfull hn h
        (fun hne => hapt (fun he => hne ?_) (c, e) hend) ⟨?_, hopen⟩
      · rw [he]
        rfl
      · rw [K.filesOf, List.length_map]
        exact hlen

theorem MsgCall.does_write {src : Nat → UInt8} {len : Nat} {pos : Option Nat} :
    Does k ((Kernel.write env l fd src len pos).after k)
      ((call (.write fd src len pos)).moved env l k
        ((Kernel.write env l fd src len pos).after k)) := by
  simp only [moved]
  cases hend : k.endOf l fd with
  | none => exact .along (Fades.write hend)
  | some p =>
      cases hx : Kernel.write env l fd src len pos k with
      | error x k₁ =>
          rw [Prog.after_error hx]
          exact .of_fades ((write_moves hend).error hx)
      | ok n k₁ =>
          rw [Prog.after_ok hx]
          obtain ⟨hfull, hn, h⟩ := (write_moves hend).ok hx
          exact .sent (hu hend) hfull hn h (fun hne => absurd rfl hne)
            ⟨Nat.zero_le _, fun f hf => absurd hf List.not_mem_nil⟩

theorem MsgCall.does_read {len : Nat} {pos : Option Nat}
    (hapt : (MsgCall.call (.read fd len pos)).Apt k l) :
    Does k ((Kernel.read env l fd len pos).after k)
      ((call (.read fd len pos)).moved env l k ((Kernel.read env l fd len pos).after k)) := by
  simp only [moved]
  cases hend : k.endOf l fd with
  | none => exact .along (Fades.read hend)
  | some p =>
      cases hx : Kernel.read env l fd len pos k with
      | error x k₁ =>
          rw [Prog.after_error hx]
          exact .of_fades ((read_moves hend).error hx)
      | ok r k₁ =>
          rw [Prog.after_ok hx]
          dsimp only
          rcases (read_moves hend).ok hx with ⟨hz, h⟩ | ⟨hz, hn, h⟩
          · rw [if_pos hz]
            exact .of_fades h
          · rw [if_neg hz, hn]
            exact .got (hu hend) hz h (hapt p hend) fun _ _ => handed_plain _

end Transfers

/-- **Each call** moves what the note says, and leaves the other connections as they are. -/
theorem MsgCall.does {a : MsgCall} {b : Bool} {ex : List OpenFile} (hb : Bal b k ex)
    (hl : l < MAX_PROCS) (ha : a.Able k) (hapt : a.Apt k l) :
    Does k ((a.run env l).after k) (a.moved env l k ((a.run env l).after k)) := by
  have hu : ∀ {fd c e : Nat}, k.endOf l fd = some (c, e) → (k.conns c).used = true :=
    hb.endOf_used hl
  cases a with
  | recvmsg => exact does_recvmsg hu hapt
  | call c =>
      have hdisc : ∀ {α : Type} (x : Prog V α), (discard x : Prog V Unit).after k = x.after k :=
        fun x => Prog.after_discard x
      have h := Fades.refl k
      have along := Fades.along env
      cases c with
      | recv => exact ha.elim
      | send =>
          simp only [run, Call.run, hdisc]
          exact does_send hu hapt
      | write =>
          simp only [run, Call.run, hdisc]
          exact does_write hu
      | read =>
          simp only [run, Call.run, hdisc]
          exact does_read hu hapt
      | openAt => exact .along (along.openAt h).discard
      | pipe => exact .along Fades.pipe.discard
      | close => exact .along (along.close h).discard
      | dup => exact .along (along.dupEx h).discard
      | eventfd => exact .along Fades.eventfd.discard
      | epollCreate => exact .along (along.epollCreate h).discard
      | socket => exact .along Fades.socket.discard
      | socketpair => exact .turns Turns.socketpair.discard
      | bind => exact .along Fades.bind.discard
      | listen => exact .along Fades.listen.discard
      | connect => exact .turns Turns.connect.discard
      | accept => exact .along Fades.accept.discard
      | shutdown => exact .along Fades.shutdownCall.discard
      | memfd => exact .along (along.memfd h).discard
      | shmUnlink => exact .along (along.shmUnlink h).discard
      | mapShm => exact .along (along.mapShm h)
      | unmapShm => exact .along (along.unmapShm h)
      | mapAnon => exact .along (along.mapAnon h)
      | fork dst => exact .along ((wp_modify _).mpr (along.cloneTable l dst k))
      | exec =>
          have hexec : Fades k (execCleanup env l k) := by
            unfold execCleanup
            exact along.execCleanupFrom _ k
          exact .along ((wp_modify _).mpr hexec)
      | exit =>
          exact .along ((wp_modify _).mpr (along.release k))

/-! ### The notes along a run -/

/-- What the note of the direction to end `e` of a connection satisfies. -/
structure Conn.Tracked (x : Conn) (e : Nat) (j : Journal) : Prop where
  fair : ∀ t ∈ j.taken, t.Fair
  sound : ∀ a ∈ j.sent, Sendable a.files
  order : ∃ rest, j.sent = j.taken.map Taking.att ++ rest
  bears : x.used = true → (x.q e).Bears x.packet j

namespace Conn.Tracked

variable {x x' : Conn} {j : Journal} {n len : Nat} {src : Nat → UInt8} {files : List OpenFile}

theorem none (h : x.used = true → x.Blank) : x.Tracked e .none := by
  refine ⟨nofun, nofun, ⟨[], rfl⟩, fun hu => ?_⟩
  obtain ⟨buf, b, hq⟩ := h hu e
  rw [hq]
  exact ⟨rfl, fun _ => ⟨rfl, rfl, rfl, .nil, nofun⟩,
    fun _ => ⟨Nat.zero_lt_succ _, Nat.zero_le _, [], rfl, rfl, rfl, rfl, rfl, trivial⟩⟩

theorem fades (h : x.Tracked e j) (hx : x.Fades x') : x'.Tracked e j := by
  refine ⟨h.fair, h.sound, h.order, fun hu => ?_⟩
  rcases hx with hx | ⟨hused, hp, hq⟩
  · exact absurd (hx.symm.trans hu) nofun
  · obtain ⟨b, hq⟩ := hq e
    rw [hp, hq]
    exact (h.bears (hused.symm.trans hu)).eof b

theorem beside (h : x.Tracked e j) {d : Nat} (hd : d ≠ e) (q : Queue) : (x.setQ d q).Tracked e j :=
  ⟨h.fair, h.sound, h.order, fun hu => by
    simp only [setQ, Function.update_of_ne hd.symm]
    exact h.bears hu⟩

theorem sends (h : x.Tracked e j) (hu : x.used = true) (hfull : ¬ (x.q e).full x.packet len)
    (hn : n = if x.packet then len else min len (CAP - (x.q e).len))
    (hm : files ≠ [] → (x.q e).Matched x.packet) (hs : Sendable files) :
    (x.setQ e ((x.q e).send x.packet n src files)).Tracked e (j.sends x.packet n files) := by
  refine ⟨h.fair, fun a ha => ?_, ?_, fun _ => ?_⟩
  · rcases mem_attach.mp ha with ha | ⟨-, rfl⟩
    · exact h.sound a ha
    · exact hs
  · obtain ⟨rest, hrest⟩ := h.order
    exact ⟨attach rest j.put files, by rw [Journal.sends, hrest, attach_append]⟩
  · simp only [setQ, Function.update_self]
    exact (h.bears hu).send hfull hn hm

theorem takes (h : x.Tracked e j) (hu : x.used = true) (hq : (x.q e).len ≠ 0)
    (hw : x.Whole e len) {fds : List Nat} {kept : List OpenFile} {report : Report}
    (hg : (x.q e).takeAtt.1 ≠ [] → Sendable (x.q e).takeAtt.1 →
      Handed (x.q e).takeAtt.1 fds kept report) :
    (x.setQ e ((x.q e).receive x.packet len).2).Tracked e
      (j.takes x.packet ((x.q e).receive x.packet len).1.n (x.q e).takeAtt.1 fds kept report) := by
  obtain ⟨hbears, hunits⟩ := (h.bears hu).receive fds kept report hq fun hp hl => hw hp hl hq
  rw [Queue.receive_takes] at hbears hunits
  obtain ⟨rest, hrest, -, -⟩ := hbears.rest
  refine ⟨fun t ht => ?_, h.sound, ⟨rest, hrest⟩, fun _ => ?_⟩
  · unfold Journal.takes at ht
    dsimp only at ht
    split at ht
    · exact h.fair t ht
    · rename_i hne
      rcases List.mem_append.mp ht with ht | ht
      · exact h.fair t ht
      · rw [List.mem_singleton.mp ht]
        have hmem : (⟨j.got, (x.q e).takeAtt.1⟩ : Att) ∈ j.sent := by
          have hsent : j.sent = _ := hrest
          rw [hsent, Journal.takes_atts, front, if_neg hne]
          simp
        exact ⟨hunits hne, hg hne (h.sound _ hmem)⟩
  · simp only [setQ, Function.update_self]
    exact hbears

end Conn.Tracked

/-- Connections have their notes. -/
def Tracking (k : K V) (j : Journals) : Prop := ∀ c e, (k.conns c).Tracked e (j c e)

/-- **A step** keeps the notes. -/
theorem Tracking.step {j : Journals} {m : Moved} (h : Tracking k j) (hd : Does k k' m) :
    Tracking k' (j.after k k' m) := by
  intro c e
  have hold := h c e
  have hborn : ∀ {k₁ : K V}, (k₁.conns c).used = (k.conns c).used → Fades k₁ k' →
      ¬ ((k.conns c).used = false ∧ (k'.conns c).used = true) := by
    rintro k₁ hu hf ⟨hfree, hused⟩
    rcases hf c with hf | ⟨hf, -⟩
    · exact absurd (hf.symm.trans hused) nofun
    · exact absurd (hfree.symm.trans (hu.symm.trans (hf.symm.trans hused))) nofun
  have hat : ∀ {d b : Nat} {q : Queue}, (((k.setQueue d b q).conns c).used = (k.conns c).used ∧
      (d = c → (k.setQueue d b q).conns c = (k.conns c).setQ b q) ∧
      (d ≠ c → (k.setQueue d b q).conns c = k.conns c)) := by
    intro d b q
    by_cases hdc : d = c
    · subst hdc
      exact ⟨by rw [setQueue_conns]; rfl, fun _ => setQueue_conns q, fun hn => absurd rfl hn⟩
    · have hne : (k.setQueue d b q).conns c = k.conns c := Function.update_of_ne (Ne.symm hdc) ..
      exact ⟨by rw [hne], fun he => absurd he hdc, fun _ => hne⟩
  cases hd with
  | nothing ht =>
      unfold Journals.after
      split
      · rename_i hb
        refine .none fun hu => ?_
        rcases ht c with hf | ⟨-, hblank⟩
        · rcases hf with hf | ⟨hf, -⟩
          · exact absurd (hf.symm.trans hu) nofun
          · exact absurd (hb.1.symm.trans (hf.symm.trans hu)) nofun
        · exact hblank
      · rename_i hb
        rcases ht c with hf | ⟨hfree, -⟩
        · exact hold.fades hf
        · refine hold.fades (.inl ?_)
          cases hu : (k'.conns c).used with
          | false => rfl
          | true => exact absurd ⟨hfree, hu⟩ hb
  | @sent d b n len src files hu hfull hn hf hm hs =>
      obtain ⟨hused, hself, hother⟩ := @hat d b
        (((k.conns d).q b).send (k.conns d).packet n src files)
      unfold Journals.after
      rw [if_neg (hborn hused hf)]
      dsimp only
      by_cases hdc : d = c
      · subst hdc
        have hx := hf d
        rw [hself rfl] at hx
        split
        · rename_i he
          obtain rfl : b = e := he.2
          exact (hold.sends hu hfull hn hm hs).fades hx
        · rename_i he
          exact (hold.beside (fun hbe => he ⟨rfl, hbe⟩) _).fades hx
      · rw [if_neg fun he => hdc he.1]
        have hx := hf c
        rw [hother hdc] at hx
        exact hold.fades hx
  | @got d b len fds kept report hu hq hf hw hg =>
      obtain ⟨hused, hself, hother⟩ := @hat d b
        (((k.conns d).q b).receive (k.conns d).packet len).2
      unfold Journals.after
      rw [if_neg (hborn hused hf)]
      dsimp only
      by_cases hdc : d = c
      · subst hdc
        have hx := hf d
        rw [hself rfl] at hx
        split
        · rename_i he
          obtain rfl : b = e := he.2
          exact (hold.takes hu hq hw hg).fades hx
        · rename_i he
          exact (hold.beside (fun hbe => he ⟨rfl, hbe⟩) _).fades hx
      · rw [if_neg fun he => hdc he.1]
        have hx := hf c
        rw [hother hdc] at hx
        exact hold.fades hx

/-! ### Whole runs -/

theorem MsgCall.bal {a : MsgCall} {b : Bool} (hl : l < MAX_PROCS) (ha : a.Able k)
    (hc : b = true → a.Clear k) (h : Bal b k []) : Bal b ((a.run env l).after k) [] := by
  cases a with
  | recvmsg fd cap nonblock cloexec ctl ctllen fault =>
      refine Prog.after_of_wp (P := fun k => Bal b k []) (wp_discard.mpr ?_)
      simp only [unixMsg, wp_bind]
      refine wp_mono (unixRecv_bal hl h) (fun r k' h => ?_) fun _ _ h => h
      cases fault <;> simpa using h
  | call c =>
      by_cases hfork : ∃ dst, c = .fork dst
      · obtain ⟨dst, rfl⟩ := hfork
        obtain ⟨hdst, hempty⟩ := ha
        refine Prog.after_of_wp (P := fun k => Bal b k []) ((wp_modify _).mpr ?_)
        exact (Bal.row_none hempty).mp (cloneTable_bal hl hdst h)
      · exact call_settles hl hc (fun dst he => hfork ⟨dst, he⟩) h

/-- The runs of the kernel from boot, with the notes of its connections. -/
abbrev Granting (env : Env V) (P : K V → Nat × MsgCall → Prop) : K V × Journals → Prop :=
  Noted (msgStep env) (Journals.note env) (fun k => ∃ vol frames, k = .boot vol frames)
    (fun _ _ => .none) P

/-- **Descriptors sent over local sockets**, after any run whose calls keep clear of what `Apt`
says.  Each bundle that was received came with its byte or message, in order and once; its
descriptors are installed in the table of the receiver or closed, and `recvmsg` says so.  What is
left is in the queue, and none of it is behind the reader.  Everything is counted as often as
descriptors, queues and backlogs name it, so that what is neither installed nor queued is closed
(shared memory as long as calls are clear). -/
theorem rights_delivered {b : Bool} {j : Journals}
    (h : Granting env (fun k x => x.2.Apt k x.1 ∧ (b = true → x.2.Clear k)) (k, j)) :
    Bal b k [] ∧ ∀ c e, (j c e).Served (k.conns c) e := by
  obtain ⟨hbal, htrack⟩ : Bal b k [] ∧ Tracking k j := by
    refine Noted.invariant (I := fun k j => Bal b k [] ∧ Tracking k j) ?_ ?_ h
    · rintro k ⟨vol, frames, rfl⟩
      exact ⟨boot_bal vol frames, fun c e => .none fun hu => nomatch hu⟩
    · intro k x k' j hI hP hs
      obtain ⟨hbal, htrack⟩ := hI
      obtain ⟨⟨hl, ha⟩, hk⟩ := (Option.ite_none_right_eq_some ..).mp hs
      obtain rfl := Option.some.inj hk
      exact ⟨MsgCall.bal hl ha hP.2 hbal, htrack.step (MsgCall.does hbal hl ha hP.1)⟩
  refine ⟨hbal, fun c e => ⟨(htrack c e).fair, ?_⟩⟩
  cases hu : (k.conns c).used with
  | true =>
      obtain ⟨rest, hsent, hfiles, hpos⟩ := ((htrack c e).bears hu).rest
      exact ⟨rest, hsent, fun _ => ⟨hfiles, hpos⟩⟩
  | false =>
      obtain ⟨rest, hsent⟩ := (htrack c e).order
      exact ⟨rest, hsent, fun hn => absurd hn nofun⟩

/-! ### Runs from boot -/

/-- The calls of a run from boot, with the notes: a socket pair, a byte with a descriptor, and its
receiver, who has a control buffer of `ctllen` bytes. -/
def grantRun (P : K Unit → Nat × MsgCall → Prop) [∀ k x, Decidable (P k x)] (ctllen : Nat) :
    Option (K Unit × Journals) :=
  Runs.run (Runs.noted (msgStep Env.void) (Journals.note Env.void)) (fun x e => P x.1 e)
    [(0, .call (.socketpair 1 1)), (0, .call (.send 3 (fun _ => 7) 1 [3] false)),
      (0, .recvmsg 4 1 false false 1 ctllen false)]
    (K.boot () fun _ => true, fun _ _ => .none)

theorem grantRun_granting {P : K Unit → Nat × MsgCall → Prop} [∀ k x, Decidable (P k x)]
    {ctllen : Nat} {x : K Unit × Journals} (h : grantRun P ctllen = some x) :
    Granting Env.void P x := by
  have hboot : Granting Env.void P (K.boot () fun _ => true, fun _ _ => .none) :=
    Noted.start ⟨(), _, rfl⟩
  exact Reached.run hboot h

local instance decidableFalse (p : Prop) : Decidable (false = true → p) :=
  .isTrue fun h => absurd h Bool.false_ne_true

/-- The descriptor sent with a byte is installed. -/
theorem rights_delivered_one : ∃ (k : K Unit) (j : Journals), (j 0 1).sent.length = 1 ∧
    (j 0 1).taken.map Taking.fds = [[5]] ∧ (j 0 1).Served (k.conns 0) 1 := by
  have hrun : (grantRun (fun k x => x.2.Apt k x.1 ∧ (false = true → x.2.Clear k)) 20).any (fun x =>
      decide ((x.2 0 1).sent.length = 1 ∧ (x.2 0 1).taken.map Taking.fds = [[5]])) = true := by
    decide +kernel
  obtain ⟨x, hx, hc⟩ := (Option.any_eq_true _ _).mp hrun
  obtain ⟨hsent, htaken⟩ := of_decide_eq_true hc
  have hgrant : Granting Env.void _ (x.1, x.2) := grantRun_granting hx
  exact ⟨x.1, x.2, hsent, htaken, (rights_delivered hgrant).2 0 1⟩

/-- A receiver with no room for a descriptor is not told that it was closed. -/
theorem ctrunc_unreported : ¬ ∀ (k : K Unit) (j : Journals),
    Granting Env.void (fun _ _ => True) (k, j) → ∀ c e, (j c e).Served (k.conns c) e := by
  intro hall
  have hrun : (grantRun (fun _ _ => True) 0).any (fun x => decide ((x.2 0 1).taken.map
      (fun t => (t.kept.length, t.files.length, t.report)) = [(0, 1, .flags 0)])) = true := by
    decide +kernel
  obtain ⟨x, hx, hc⟩ := (Option.any_eq_true _ _).mp hrun
  obtain ⟨t, ht, htell⟩ := List.map_eq_singleton_iff.mp (of_decide_eq_true hc)
  obtain ⟨hkept, hfiles, hreport⟩ : t.kept.length = 0 ∧ t.files.length = 1 ∧
      t.report = .flags 0 := by
    simpa only [Prod.mk.injEq] using htell
  have hgrant : Granting Env.void _ (x.1, x.2) := grantRun_granting hx
  have hfair := ((hall x.1 x.2 hgrant 0 1).1 t (ht ▸ List.mem_singleton_self t)).2.told (by omega)
  rw [hreport] at hfair
  rcases hfair with h | ⟨f, hf, hne⟩
  · cases h
  · cases hf
    exact hne rfl

end Pulsar.Kernel

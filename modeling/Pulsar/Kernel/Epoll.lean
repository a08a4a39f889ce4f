import Pulsar.Lib.Runs
import Pulsar.Kernel.Ready
import Pulsar.Kernel.Tables

/-!
# What an epoll watches (`file.rs`)

An epoll keeps, for each number registered, the events asked for and a word of the program; a scan
looks the number up in the table of the process that scans.  Beside the kernel's data a registration
carries the open file it was made for (`FileId`), which the kernel does not keep.

* `registrations_follow`: while no number that is registered is closed or given to another file,
  and each epoll is used by the process that filled it, what a scan returns was registered for the
  open file that is ready, and a file that is not registered can be added.
* `registration_stale`: a number is closed without `EPOLL_CTL_DEL` and given to another file.
-/

namespace Pulsar.Kernel

variable {V : Type}

def EPOLL_MAX : Nat := 256
def EPOLLONESHOT : UInt32 := 0x40000000
def EPOLLET : UInt32 := 0x80000000

/-- An open file under a number: the slot of the process and which process of the slot it is, the
number, and how many files the number has named. -/
structure FileId where
  slot : Nat
  life : Nat
  fd : Nat
  gen : Nat
  deriving DecidableEq

/-- `EpItem`, and the file it was registered for. -/
structure EpItem where
  fd : Nat
  events : UInt32
  data : Nat
  off : Bool
  fired : Bool
  file : FileId

/-- What a scan finds: the events with their words, whether the network matters, the buckets to
wait on, and the registrations it leaves. -/
structure Scan where
  events : List (UInt32 × Nat)
  net : Bool
  mask : Nat
  items : List EpItem

/-- A registration without an event. -/
def Scan.pass (it : EpItem) (net : Bool) (mask : Nat) (s : Scan) : Scan :=
  { s with net := net || s.net, mask := mask ||| s.mask, items := it :: s.items }

/-- The loop of `epoll_scan` after `n` events. -/
def scanLoop (sock : Nat → UInt32) (k : K V) (l max : Nat) : Nat → List EpItem → Scan
  | _, [] => ⟨[], false, 0, []⟩
  | n, it :: its =>
    if max ≤ n then ⟨[], false, 0, it :: its⟩
    else if it.off then (scanLoop sock k l max n its).pass it false 0
    else
      let r := readyLocked sock k l it.fd
      let net := dependsOnNet k l it.fd
      let hit := r &&& (it.events ||| POLLERR ||| POLLHUP)
      let once := has it.events EPOLLET && alwaysReady k l it.fd
      if has r POLLNVAL ∨ hit = 0 then
        (scanLoop sock k l max n its).pass it net (if n = 0 then waitKeys k l it.fd else 0)
      else if once ∧ it.fired then (scanLoop sock k l max n its).pass it net 0
      else
        let it' := { it with fired := it.fired || once, off := has it.events EPOLLONESHOT }
        let s := (scanLoop sock k l max (n + 1) its).pass it' net 0
        { s with events := (hit, it.data) :: s.events }

/-- The kernel, what its epolls watch, and the two counts that tell open files apart. -/
structure Epolls (V : Type) where
  k : K V
  items : Nat → List EpItem
  life : Nat → Nat
  gen : Nat → Nat → Nat

namespace Epolls

def boot (vol : V) (frames : Nat → Bool) : Epolls V :=
  ⟨.boot vol frames, fun _ => [], fun _ => 0, fun _ _ => 0⟩

/-- The file that number `fd` names in the table of slot `l`. -/
def idOf (σ : Epolls V) (l fd : Nat) : FileId :=
  ⟨l, σ.life l, fd % 2 ^ 32, σ.gen l (fd % 2 ^ 32)⟩

def setItems (i : Nat) (its : List EpItem) (σ : Epolls V) : Epolls V :=
  { σ with items := Function.update σ.items i its }

theorem setItems_self (σ : Epolls V) (i : Nat) (its : List EpItem) :
    (σ.setItems i its).items i = its := Function.update_self ..

theorem setItems_of_ne (σ : Epolls V) {i j : Nat} (h : j ≠ i) (its : List EpItem) :
    (σ.setItems i its).items j = σ.items j := Function.update_of_ne h ..

/-- The epoll that number `ep` names. -/
def epollAt (σ : Epolls V) (l ep : Nat) : Except Errno Nat :=
  match fileAt σ.k l ep with
  | none => .error EBADF
  | some f => if f.kind = .epoll then .ok f.ino else .error EINVAL

/-- `epoll_ctl(ep, op, fd, events, data)`: ADD 1, DEL 2, MOD 3. -/
def ctl (l ep op fd : Nat) (events : UInt32) (data : Nat) (σ : Epolls V) :
    Except Errno (Epolls V) :=
  match σ.epollAt l ep with
  | .error e => .error e
  | .ok i =>
    if fileAt σ.k l fd = none then .error EBADF
    else if fd = ep then .error EINVAL
    else
      let its := σ.items i
      let new : EpItem := ⟨fd, events, data, false, false, σ.idOf l fd⟩
      match op, its.findIdx? (fun it => it.fd == fd) with
      | 1, some _ => .error EEXIST
      | 1, none =>
        if its.length = EPOLL_MAX then .error ENOSPC else .ok (σ.setItems i (its ++ [new]))
      | 2, some p => .ok (σ.setItems i ((its.set p (its.getLastD new)).dropLast))
      | 3, some p => .ok (σ.setItems i (its.set p new))
      | 2, none => .error ENOENT
      | 3, none => .error ENOENT
      | _, _ => .error EINVAL

/-- `epoll_scan(ep, .., max)`. -/
def scan (sock : Nat → UInt32) (l ep max : Nat) (σ : Epolls V) : Except Errno Scan :=
  match σ.epollAt l ep with
  | .error e => .error e
  | .ok i => .ok (scanLoop sock σ.k l max 0 (σ.items i))

/-- The number that `dup2` gives to another file. -/
def dupOnto (k : K V) (l : Nat) : Call → Option Nat
  | .dup fd newfd _ =>
    if (fileAt k l fd).isSome ∧ newfd < MAX_FDS ∧ newfd ≠ fd then some newfd else none
  | _ => none

/-- A call.  The slot of an epoll that is not in use holds nothing: `epoll_create` clears it.  A
number names another file when it was free, becomes free, or `dup2` is told to use it. -/
def call (env : Env V) (l : Nat) (c : Call) (σ : Epolls V) : Epolls V :=
  let k := (c.run env l).after σ.k
  { k := k
    items := fun i => if (k.epolls i).used && (σ.k.epolls i).used then σ.items i else []
    life := match c with
      | .fork dst => Function.update σ.life dst (σ.life dst + 1)
      | .exit => Function.update σ.life l (σ.life l + 1)
      | _ => σ.life
    gen := fun l' fd =>
      if ((σ.k.fds l' fd).kind = .free ↔ (k.fds l' fd).kind = .free) ∧
          (l' = l → dupOnto σ.k l c ≠ some fd) then σ.gen l' fd
      else σ.gen l' fd + 1 }

inductive Event where
  | call (l : Nat) (c : Call)
  | ctl (l ep op fd : Nat) (events : UInt32) (data : Nat)
  | scan (l ep max : Nat)

variable (env : Env V) (sock : V → Nat → UInt32)

/-- One event. -/
def step (σ : Epolls V) : Event → Option (Epolls V)
  | .call l c => some (σ.call env l c)
  | .ctl l ep op fd events data => some ((σ.ctl l ep op fd events data).toOption.getD σ)
  | .scan l ep max =>
    match σ.epollAt l ep with
    | .ok i => some (σ.setItems i (scanLoop (sock σ.k.vol) σ.k l max 0 (σ.items i)).items)
    | .error _ => some σ

/-- An epoll of the process of slot `l` that only this process has filled. -/
def Own (σ : Epolls V) (l i : Nat) : Prop :=
  ∀ it ∈ σ.items i, it.file.slot = l ∧ it.file.life = σ.life l

/-- Number `fd` of the process of slot `l` is registered somewhere. -/
def Listed (σ : Epolls V) (l fd : Nat) : Prop :=
  ∃ i, ∃ it ∈ σ.items i, it.file.slot = l ∧ it.file.life = σ.life l ∧ it.fd % 2 ^ 32 = fd

/-- No number that is registered is closed or given to another file, and an epoll is used by the
process that filled it. -/
def Clear (σ : Epolls V) : Event → Prop
  | .call l c => ∀ fd, σ.Listed l fd → (c ≠ .exit → ¬ c.Frees σ.k l fd) ∧ dupOnto σ.k l c ≠ some fd
  | .ctl l ep _ _ _ _ => ∀ i, σ.epollAt l ep = .ok i → σ.Own l i
  | .scan l ep _ => ∀ i, σ.epollAt l ep = .ok i → σ.Own l i

/-- An event of a scan comes from a registration, of the open file that is ready. -/
def Truthful (σ : Epolls V) (l i : Nat) (ev : UInt32 × Nat) : Prop :=
  ∃ it ∈ σ.items i, it.file = σ.idOf l it.fd ∧ (fileAt σ.k l it.fd).isSome = true ∧
    ev = (readyLocked (sock σ.k.vol) σ.k l it.fd &&& (it.events ||| POLLERR ||| POLLHUP), it.data) ∧
    ev.1 ≠ 0

/-- **Registrations follow open files**: what a scan returns is truthful, and an open file that is
not registered can be added while there is room. -/
def Follows (σ : Epolls V) : Event → Prop
  | .scan l ep max => ∀ i s, σ.epollAt l ep = .ok i → σ.scan (sock σ.k.vol) l ep max = .ok s →
    ∀ ev ∈ s.events, σ.Truthful sock l i ev
  | .ctl l ep 1 fd events data => ∀ i, σ.epollAt l ep = .ok i → (fileAt σ.k l fd).isSome = true →
    fd ≠ ep → (σ.items i).length < EPOLL_MAX →
    (∀ it ∈ σ.items i, it.fd = fd → it.file ≠ σ.idOf l fd) →
    (σ.ctl l ep 1 fd events data).toOption.isSome = true
  | _ => True

/-! ### What a scan returns -/

section Loop

variable {sock : Nat → UInt32} {k : K V} {l max : Nat}

theorem scanLoop_items (its : List EpItem) (n : Nat) : ∀ it ∈ (scanLoop sock k l max n its).items,
    ∃ it' ∈ its, it'.fd = it.fd ∧ it'.file = it.file := by
  induction its generalizing n with
  | nil => exact fun it h => absurd h (by simp [scanLoop])
  | cons x its ih =>
      have hpass : ∀ m net mask, ∀ it ∈ ((scanLoop sock k l max m its).pass x net mask).items,
          ∃ it' ∈ x :: its, it'.fd = it.fd ∧ it'.file = it.file := fun m net mask it h => by
        rcases List.mem_cons.mp h with rfl | h
        · exact ⟨it, List.mem_cons_self .., rfl, rfl⟩
        · obtain ⟨it', h', heq⟩ := ih m it h
          exact ⟨it', List.mem_cons_of_mem _ h', heq⟩
      intro it h
      rw [scanLoop] at h
      dsimp only at h
      split_ifs at h
      · exact ⟨it, h, rfl, rfl⟩
      · exact hpass _ _ _ it h
      · exact hpass _ _ _ it h
      · exact hpass _ _ _ it h
      · exact hpass _ _ _ it h
      · rcases List.mem_cons.mp h with rfl | h
        · exact ⟨x, List.mem_cons_self .., rfl, rfl⟩
        · obtain ⟨it', h', heq⟩ := ih (n + 1) it h
          exact ⟨it', List.mem_cons_of_mem _ h', heq⟩

theorem scanLoop_events (its : List EpItem) (n : Nat) : ∀ ev ∈ (scanLoop sock k l max n its).events,
    ∃ it ∈ its, (fileAt k l it.fd).isSome = true ∧
      ev = (readyLocked sock k l it.fd &&& (it.events ||| POLLERR ||| POLLHUP), it.data) ∧
      ev.1 ≠ 0 := by
  induction its generalizing n with
  | nil => exact fun ev h => absurd h (by simp [scanLoop])
  | cons x its ih =>
      have hrest : ∀ m, ∀ ev ∈ (scanLoop sock k l max m its).events, ∃ it ∈ x :: its,
          (fileAt k l it.fd).isSome = true ∧
          ev = (readyLocked sock k l it.fd &&& (it.events ||| POLLERR ||| POLLHUP), it.data) ∧
          ev.1 ≠ 0 := fun m ev h => by
        obtain ⟨it, hi, hev⟩ := ih m ev h
        exact ⟨it, List.mem_cons_of_mem _ hi, hev⟩
      intro ev h
      rw [scanLoop] at h
      dsimp only [Scan.pass] at h
      split_ifs at h with hmax hoff hmiss hz honce
      · exact absurd h (by simp)
      · exact hrest _ ev h
      · exact hrest _ ev h
      · exact hrest _ ev h
      · exact hrest _ ev h
      · rcases List.mem_cons.mp h with rfl | h
        · refine ⟨x, List.mem_cons_self .., ?_, rfl, fun h0 => hmiss (Or.inr h0)⟩
          by_contra hnone
          refine hmiss (Or.inl ?_)
          rw [Bool.not_eq_true, Option.isSome_eq_false_iff, Option.isNone_iff_eq_none] at hnone
          simp only [readyLocked, hnone, Option.elim_none]
          decide
        · exact hrest _ ev h

end Loop

/-! ### Registrations and open files -/

variable {σ τ : Epolls V} {l i : Nat} {env : Env V} {sock : V → Nat → UInt32} {e : Event}

/-- The registrations made by a process that is still there are of files that it still has. -/
structure Sound (σ : Epolls V) : Prop where
  past : ∀ i, ∀ it ∈ σ.items i, it.file.life ≤ σ.life it.file.slot
  open' : ∀ i, ∀ it ∈ σ.items i, it.file.life = σ.life it.file.slot →
    (fileAt σ.k it.file.slot it.fd).isSome = true ∧ it.file = σ.idOf it.file.slot it.fd

theorem sound_boot (vol : V) (frames : Nat → Bool) : (boot vol frames).Sound :=
  ⟨fun _ _ h => absurd h (by simp [boot]), fun _ _ h => absurd h (by simp [boot])⟩

theorem Sound.setItems {its : List EpItem} (h : σ.Sound)
    (hits : ∀ it ∈ its, (∃ it' ∈ σ.items i, it'.fd = it.fd ∧ it'.file = it.file) ∨
      (it.file = σ.idOf l it.fd ∧ (fileAt σ.k l it.fd).isSome = true)) :
    (σ.setItems i its).Sound := by
  have hall : ∀ j, ∀ it ∈ (σ.setItems i its).items j,
      (∃ it' ∈ σ.items j, it'.fd = it.fd ∧ it'.file = it.file) ∨
        (it.file = σ.idOf l it.fd ∧ (fileAt σ.k l it.fd).isSome = true) := fun j it hit => by
    by_cases hj : j = i
    · subst hj
      rw [setItems_self] at hit
      exact hits it hit
    · rw [setItems_of_ne σ hj] at hit
      exact Or.inl ⟨it, hit, rfl, rfl⟩
  refine ⟨fun j it hit => ?_, fun j it hit hlife => ?_⟩
  · rcases hall j it hit with ⟨it', hit', -, hf⟩ | ⟨hf, -⟩
    · rw [← hf]
      exact h.past j it' hit'
    · rw [hf]
      exact Nat.le_refl _
  · rcases hall j it hit with ⟨it', hit', hfd, hf⟩ | ⟨hf, ho⟩
    · obtain ⟨h₁, h₂⟩ := h.open' j it' hit' (by rw [hf]; exact hlife)
      rw [hf, hfd] at h₁ h₂
      exact ⟨h₁, h₂⟩
    · rw [hf]
      exact ⟨ho, rfl⟩

/-- What a `ctl` leaves is what was there, and perhaps a registration of the file named. -/
theorem Sound.ctl {ep op fd data : Nat} {events : UInt32} (h : σ.Sound)
    (hc : σ.ctl l ep op fd events data = .ok τ) : τ.Sound := by
  unfold Epolls.ctl at hc
  split at hc
  · exact absurd hc (by simp)
  · rename_i i _
    split_ifs at hc with hfd hep
    have hopen : (fileAt σ.k l fd).isSome = true := by
      rw [Option.isSome_iff_ne_none]
      exact hfd
    have old : ∀ it ∈ σ.items i, (∃ it' ∈ σ.items i, it'.fd = it.fd ∧ it'.file = it.file) ∨
        (it.file = σ.idOf l it.fd ∧ (fileAt σ.k l it.fd).isSome = true) :=
      fun it hit => Or.inl ⟨it, hit, rfl, rfl⟩
    dsimp only at hc
    split at hc
    · exact absurd hc (by simp)
    · split_ifs at hc
      obtain rfl := Except.ok.inj hc
      refine h.setItems (l := l) fun it hit => ?_
      rcases List.mem_append.mp hit with hit | hit
      · exact old it hit
      · obtain rfl := List.mem_singleton.mp hit
        exact Or.inr ⟨rfl, hopen⟩
    · rename_i p hp
      obtain rfl := Except.ok.inj hc
      refine h.setItems (l := l) fun it hit => ?_
      have hne : σ.items i ≠ [] := by
        rintro h0
        rw [h0] at hp
        exact absurd hp (by simp)
      rcases List.mem_or_eq_of_mem_set (List.mem_of_mem_dropLast hit) with hit | rfl
      · exact old it hit
      · refine old _ ?_
        rw [List.getLastD_eq_getLast?, List.getLast?_eq_some_getLast hne]
        exact List.getLast_mem hne
    · rename_i p hp
      obtain rfl := Except.ok.inj hc
      refine h.setItems (l := l) fun it hit => ?_
      rcases List.mem_or_eq_of_mem_set hit with hit | rfl
      · exact old it hit
      · exact Or.inr ⟨rfl, hopen⟩
    · exact absurd hc (by simp)
    · exact absurd hc (by simp)
    · exact absurd hc (by simp)

theorem fileAt_isSome {k : K V} {l fd : Nat} :
    (fileAt k l fd).isSome = true ↔
      fd % 2 ^ 32 < MAX_FDS ∧ (k.fds l (fd % 2 ^ 32)).kind ≠ .free := by
  unfold fileAt
  dsimp only
  split_ifs with h
  · exact iff_of_true rfl h
  · exact iff_of_false (by simp) h

theorem call_gen {c : Call} {l' fd : Nat}
    (hfree : (σ.k.fds l' fd).kind = .free ↔ (((c.run env l).after σ.k).fds l' fd).kind = .free)
    (hdup : l' = l → dupOnto σ.k l c ≠ some fd) : (σ.call env l c).gen l' fd = σ.gen l' fd := by
  simp only [call, hfree, true_and]
  exact if_pos hdup

/-- The process of slot `l'` is the same before and after a call. -/
theorem call_life {c : Call} (l' : Nat) : σ.life l' ≤ (σ.call env l c).life l' ∧
    ((σ.call env l c).life l' = σ.life l' → (∀ dst, c = .fork dst → l' ≠ dst) ∧
      (c = .exit → l' ≠ l)) := by
  have hbump : ∀ (f : Nat → Nat) (a : Nat), f l' ≤ Function.update f a (f a + 1) l' ∧
      (Function.update f a (f a + 1) l' = f l' → l' ≠ a) := fun f a => by
    by_cases h : l' = a
    · subst h
      rw [Function.update_self]
      exact ⟨by omega, fun h => absurd h (by omega)⟩
    · rw [Function.update_of_ne h]
      exact ⟨Nat.le_refl _, fun _ => h⟩
  cases c with
  | fork dst =>
      obtain ⟨h₁, h₂⟩ := hbump σ.life dst
      refine ⟨h₁, fun h => ⟨fun d hd => ?_, nofun⟩⟩
      obtain rfl := Call.fork.inj hd
      exact h₂ h
  | exit =>
      obtain ⟨h₁, h₂⟩ := hbump σ.life l
      exact ⟨h₁, fun h => ⟨nofun, fun _ => h₂ h⟩⟩
  | _ => exact ⟨Nat.le_refl _, fun _ => ⟨nofun, nofun⟩⟩

theorem Sound.call {c : Call} (h : σ.Sound) (hc : σ.Clear (.call l c)) : (σ.call env l c).Sound := by
  have hmem : ∀ i, ∀ it ∈ (σ.call env l c).items i, it ∈ σ.items i := fun i it hit => by
    have hsub : (σ.call env l c).items i = σ.items i ∨ (σ.call env l c).items i = [] := by
      simp only [Epolls.call]
      split_ifs
      · exact Or.inl rfl
      · exact Or.inr rfl
    rcases hsub with hs | hs
    · exact hs ▸ hit
    · rw [hs] at hit
      exact absurd hit (by simp)
  refine ⟨fun i it hit => ?_, fun i it hit hlife => ?_⟩
  · exact Nat.le_trans (h.past i it (hmem i it hit)) (call_life _).1
  · have hit' := hmem i it hit
    obtain ⟨hle, hsame⟩ : σ.life it.file.slot ≤ (σ.call env l c).life it.file.slot ∧ _ :=
      call_life it.file.slot
    have hσ : it.file.life = σ.life it.file.slot :=
      Nat.le_antisymm (h.past i it hit') (hlife ▸ hle)
    obtain ⟨hfork, hexit⟩ := hsame (hlife ▸ hσ)
    obtain ⟨ho, hid⟩ := h.open' i it hit' hσ
    obtain ⟨hlt, hnf⟩ := fileAt_isSome.mp ho
    -- the number names the same open file in the table as before the call
    have hkeep : (((c.run env l).after σ.k).fds it.file.slot (it.fd % 2 ^ 32)).kind ≠ .free := by
      by_cases hf : ∃ dst, c = .fork dst
      · obtain ⟨dst, rfl⟩ := hf
        have hrow : (((Call.fork dst).run env l).after σ.k).fds it.file.slot =
            σ.k.fds it.file.slot := fork_fds l dst σ.k (hfork dst rfl)
        rw [hrow]
        exact hnf
      · have hg := call_grows (l := l) (k := σ.k) env fun dst e => hf ⟨dst, e⟩
        by_cases hl : it.file.slot = l
        · rw [hl] at hσ hnf ⊢
          have hlisted : σ.Listed l (it.fd % 2 ^ 32) := ⟨i, it, hit', hl, hσ, rfl⟩
          exact hg.mine _ ((hc _ hlisted).1 fun he => hexit he hl) hnf
        · rw [hg.others _ hl]
          exact hnf
    have hgen : (σ.call env l c).gen it.file.slot (it.fd % 2 ^ 32) =
        σ.gen it.file.slot (it.fd % 2 ^ 32) := by
      refine call_gen (iff_of_false hnf hkeep) fun hl => ?_
      rw [hl] at hσ
      exact (hc _ ⟨i, it, hit', hl, hσ, rfl⟩).2
    refine ⟨fileAt_isSome.mpr ⟨hlt, hkeep⟩, ?_⟩
    rw [hid]
    simp only [idOf, hgen]
    rw [← hlife, hσ]

theorem Sound.step (h : σ.Sound) (hc : σ.Clear e) (hs : σ.step env sock e = some τ) : τ.Sound := by
  cases e with
  | call l c =>
      obtain rfl := Option.some.inj hs
      exact h.call hc
  | ctl l ep op fd events data =>
      obtain rfl := Option.some.inj hs
      cases hctl : σ.ctl l ep op fd events data with
      | error e => exact h
      | ok τ => exact h.ctl hctl
  | scan l ep max =>
      simp only [Epolls.step] at hs
      split at hs
      · rename_i i _
        obtain rfl := Option.some.inj hs
        exact h.setItems (l := l) fun it hit => Or.inl (scanLoop_items _ _ it hit)
      · exact Option.some.inj hs ▸ h

theorem Sound.follows (h : σ.Sound) (hc : σ.Clear e) : σ.Follows sock e := by
  cases e with
  | call l c => trivial
  | scan l ep max =>
      intro i s hi hs ev hev
      have hown := hc i hi
      simp only [scan, hi, Except.ok.injEq] at hs
      subst hs
      obtain ⟨it, hit, ho, hev⟩ := scanLoop_events _ _ ev hev
      obtain ⟨hslot, hlife⟩ := hown it hit
      have hid := (h.open' i it hit (by rw [hslot]; exact hlife)).2
      rw [hslot] at hid
      exact ⟨it, hit, hid, ho, hev⟩
  | ctl l ep op fd events data =>
      unfold Follows
      split
      · trivial
      · rename_i heq
        cases heq
        intro i hi ho hne hlen hnew
        have hown := hc i hi
        have hpos : (σ.items i).findIdx? (fun it => it.fd == fd) = none := by
          rw [List.findIdx?_eq_none_iff]
          intro it hit
          rw [beq_eq_false_iff_ne]
          intro hfd
          obtain ⟨hslot, hlife⟩ := hown it hit
          have hid := (h.open' i it hit (by rw [hslot]; exact hlife)).2
          rw [hslot, hfd] at hid
          exact hnew it hit hfd hid
        have hsome : fileAt σ.k l fd ≠ none := Option.isSome_iff_ne_none.mp ho
        simp only [Epolls.ctl, hi, hsome, hne, hpos, if_false, Nat.ne_of_lt hlen, Except.toOption,
          Option.isSome_some]
      · trivial

/-- **What a scan returns was registered for the open file that is ready**, in every run in which
no registered number is closed or given to another file and each epoll is used by the process that
filled it; and then a file that is not registered can be added. -/
theorem registrations_follow (env : Env V) (sock : V → Nat → UInt32) (vol : V) (frames : Nat → Bool)
    (h : Runs.Reached (step env sock) (· = boot vol frames) Clear σ) (hc : σ.Clear e) :
    σ.Follows sock e := by
  refine Sound.follows ?_ hc
  refine h.invariant (fun s hs => ?_) fun _ _ _ hk he hs => Sound.step hk he hs
  rw [hs]
  exact sound_boot vol frames

/-- No socket is ready. -/
def noSock (_ : Unit) (_ : Nat) : UInt32 := 0

/-- A process watches the reading end of a pipe. -/
def watched : Epolls Unit :=
  let σ := ((boot () fun _ => true).call Env.void 0 (.epollCreate 0)).call Env.void 0 (.pipe 0)
  (σ.ctl 0 3 1 4 POLLIN 7).toOption.getD σ

theorem watched_reached :
    Runs.Reached (step Env.void noSock) (· = boot () fun _ => true) Clear watched := by
  have h₀ : Runs.Reached (step Env.void noSock) (· = boot () fun _ => true) Clear
      (boot () fun _ => true) := .init rfl
  have h₁ := h₀.step (e := Event.call 0 (.epollCreate 0)) (fun fd _ => ⟨fun _ h => h, nofun⟩) rfl
  have h₂ := h₁.step (e := Event.call 0 (.pipe 0)) (fun fd _ => ⟨fun _ h => h, nofun⟩) rfl
  refine h₂.step (e := Event.ctl 0 3 1 4 POLLIN 7) (fun i _ it hit => ?_) rfl
  have hnone : ∀ {σ : Epolls Unit} {c : Call}, σ.items i = [] →
      (σ.call Env.void 0 c).items i = [] := fun h => by simp only [call, h, ite_self]
  rw [hnone (hnone rfl)] at hit
  exact absurd hit (by simp)

/-- Somebody writes to the pipe, and the process is told with the word it registered. -/
theorem registrations_follow_pipe :
    let σ := watched.call Env.void 0 (.write 5 (fun _ => 1) 1 none)
    ((σ.scan (noSock ()) 0 3 8).toOption.map Scan.events = some [(POLLIN, 7)]) ∧
      σ.Follows noSock (.scan 0 3 8) := by
  intro σ
  have hσ := watched_reached.step (e := Event.call 0 (.write 5 (fun _ => 1) 1 none))
    (fun fd _ => ⟨fun _ h => h, nofun⟩) rfl
  refine ⟨by decide +kernel, registrations_follow Env.void noSock () (fun _ => true) hσ ?_⟩
  intro i hi it hit
  have h0 : σ.epollAt 0 3 = .ok 0 := by
    have hf : fileAt σ.k 0 3 = some ⟨.epoll, 0, O_RDWR, false, 0⟩ := by decide +kernel
    simp only [epollAt, hf, if_true]
  obtain rfl := Except.ok.inj (h0.symm.trans hi)
  have hall : ∀ it ∈ σ.items 0, it.file.slot = 0 ∧ it.file.life = σ.life 0 := by decide +kernel
  exact hall it hit

/-- **A stale registration**: both ends of the pipe are closed and another pipe gets the numbers.
The word registered for the first pipe comes back for the second, which cannot be added. -/
theorem registration_stale :
    ∃ σ, Runs.Reached (step Env.void noSock) (· = boot () fun _ => true) (fun _ _ => True) σ ∧
      ¬ σ.Follows noSock (.scan 0 3 8) ∧ ¬ σ.Follows noSock (.ctl 0 3 1 4 POLLIN 9) := by
  have h₀ : Runs.Reached (step Env.void noSock) (· = boot () fun _ => true) (fun _ _ => True)
      (boot () fun _ => true) := .init rfl
  have hrun : (Runs.run (step Env.void noSock) (fun _ _ => True)
      [.call 0 (.epollCreate 0), .call 0 (.pipe 0), .ctl 0 3 1 4 POLLIN 7, .call 0 (.close 4),
        .call 0 (.close 5), .call 0 (.pipe 0), .call 0 (.write 5 (fun _ => 1) 1 none)]
      (boot () fun _ => true)).any (fun σ => decide (
        (scanLoop (noSock ()) σ.k 0 8 0 (σ.items 0)).events = [(POLLIN, 7)] ∧
        (∀ it ∈ σ.items 0, it.file ≠ σ.idOf 0 it.fd ∧ it.file ≠ σ.idOf 0 4) ∧
        (σ.ctl 0 3 1 4 POLLIN 9).toOption.isSome = false ∧
        (fileAt σ.k 0 3 = some ⟨.epoll, 0, O_RDWR, false, 0⟩ ∧ (fileAt σ.k 0 4).isSome = true) ∧
        (σ.items 0).length < EPOLL_MAX)) = true := by decide +kernel
  obtain ⟨σ, hr, hev, hit, hctl, hopen, hlen⟩ := h₀.run_any hrun
  have h0 : σ.epollAt 0 3 = .ok 0 := by simp only [epollAt, hopen.1, if_true]
  refine ⟨σ, hr, fun hf => ?_, fun hf => ?_⟩
  · have hs : σ.scan (noSock ()) 0 3 8 = .ok (scanLoop (noSock ()) σ.k 0 8 0 (σ.items 0)) := by
      simp only [scan, h0]
    obtain ⟨it, hmem, hid, -⟩ := hf 0 _ h0 hs (POLLIN, 7) (by rw [hev]; exact List.mem_cons_self ..)
    exact (hit it hmem).1 hid
  · have := hf 0 h0 hopen.2 (by decide) hlen fun it hmem _ => (hit it hmem).2
    exact absurd (hctl.symm.trans this) (by decide)

end Epolls

end Pulsar.Kernel

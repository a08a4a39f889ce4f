import Pulsar.Kernel.References
import Pulsar.Proc.Fates
import Pulsar.Proc.Signal
import Pulsar.System.State
import Pulsar.Vm.Break
import Pulsar.Vm.Slips

/-!
# The image of a process is replaced (`exec.rs`, `process.rs`, `linux.rs`)

`execve` loads an image into a space of its own (`Vm.loadFrom`) and then `exec_replace` ends the
other threads and makes the space the process's.  `Host` is what the call may change: the table of
processes with their memory, the descriptors, and what signals and the rest of the kernel keep for
each slot.

The strings of the call are given as copied from user memory, or with the error of copying, and the
identifier of the space as allocated.  Registers are left out, as are the texts that only `/proc`
reads.

* **`Host.execve_intact`**: what a call that fails leaves as it was, and exactly when.
-/

namespace Pulsar

open Proc Vm

variable {V : Type}

/-- What an image replaces. -/
structure Host (V : Type) where
  sys : System
  files : Kernel.K V
  actions : Nat → Nat → Action
  sig : Nat → SigThread
  abi : Nat → Abi
  brk : Nat → Nat
  name : Nat → List UInt8

def NAME_LEN : Nat := 24

/-- `basename(path)`: what follows the last slash, without `.pulse`. -/
def basename (path : List UInt8) : List UInt8 :=
  let s := (path.reverse.takeWhile (· ≠ 47)).reverse
  let s := if [46, 112, 117, 108, 115, 101].isSuffixOf s then s.take (s.length - 6) else s
  if ByteArray.validateUTF8 ⟨s.toArray⟩ then s else [63]

namespace Host

variable (env : Kernel.Env V) (disk : Disk) (s asid : Nat) (σ : Host V)

def frames : Frames := σ.sys.mm.frames

def setFrames (fr : Frames) (σ : Host V) : Host V :=
  { σ with sys := { σ.sys with mm := { σ.sys.mm with frames := fr } } }

/-- The setup of `exec_replace`: the ranges of the image become those of slot `s`. -/
def register (r : Loaded) (mm : Mm) : Mm :=
  if r.linux then
    r.segs.foldl (fun mm g => addRegionOver s g.start g.stop g.prot mm)
      (addRegion s (STACK_TOP - STACK_SIZE) STACK_TOP 3 mm).2
  else mm

/-- `exec_replace` by slot `s`, with the space `pt` that was loaded: whether it was done. -/
def execReplace (r : Loaded) (pt : Pt) (name : List UInt8) (σ : Host V) : Bool × Host V :=
  let x := σ.sys.procs.execReplace s r.root asid
  let sys := σ.sys.after x.2
  if x.1 then
    let set := fun {α : Type} (g : Nat → α) (a : α) => Function.update g s a
    (true,
      { sys := { sys with mm := register s r (sys.mm.setPt r.root pt) }
        files := Kernel.execCleanup env s σ.files
        actions := set σ.actions fun n =>
          if (σ.actions s n).handler = SIG_IGN then σ.actions s n else .dfl
        sig := set σ.sig { σ.sig s with altSp := 0, altSize := 0 }
        abi := set σ.abi (if r.linux then .linux else .pulsar)
        brk := set σ.brk HEAP_BASE
        name := set σ.name (name.take (NAME_LEN - 1)) })
  else (false, { σ with sys := sys })

/-- `exec::execve(at, path, args)` by slot `s`. -/
def exec (at_ : Nat) (path : List UInt8) (args : Args) (σ : Host V) : Except Fail Unit × Host V :=
  match loadFrom disk at_ path args ⟨.empty, σ.frames, []⟩ with
  | .error e t => (.error e, σ.setFrames t.fr)
  | .ok r t =>
    let x := (σ.setFrames t.fr).execReplace env s asid r t.pt (basename path)
    if x.1 then (.ok (), x.2)
    else (.error (.errno EAGAIN), x.2.setFrames (freeUserSpace r.root t.pt x.2.frames))

def ARG_PAGES : Nat := 16

/-- The part of `execve` that has a buffer for the strings. -/
def execArgs (path : List UInt8) (args : Except Nat Args) (dir : Except Nat Nat) (σ : Host V) :
    Except Fail Unit × Host V :=
  match args, dir with
  | .error e, _ => (.error (.errno e), σ)
  | .ok _, .error e => (.error (.errno e), σ)
  | .ok args, .ok dir => σ.exec env disk s asid dir path args

/-- `execve(path, argv, envp)` by slot `s`, from the current directory. -/
def execve (path : Except Nat (List UInt8)) (args : Except Nat Args) (dir : Except Nat Nat)
    (σ : Host V) : Except Fail Unit × Host V :=
  match path with
  | .error e => (.error (.errno e), σ)
  | .ok path =>
    match σ.frames.allocContig ARG_PAGES with
    | (none, _) => (.error (.errno ENOMEM), σ)
    | (some b, fr) =>
      let x := (σ.setFrames fr).execArgs env disk s asid path args dir
      (x.1, x.2.setFrames (x.2.frames.freeContig b ARG_PAGES))

/-! ### What a call that fails leaves -/

/-- Nothing that a process has changed. -/
structure Intact (σ τ : Host V) : Prop where
  procs : τ.sys.procs = σ.sys.procs
  pts : τ.sys.mm.pts = σ.sys.mm.pts
  spaces : τ.sys.mm.spaces = σ.sys.mm.spaces
  objs : τ.sys.mm.objs = σ.sys.mm.objs
  mem : τ.sys.mm.mem = σ.sys.mm.mem
  files : τ.files = σ.files
  actions : τ.actions = σ.actions
  sig : τ.sig = σ.sig
  abi : τ.abi = σ.abi
  brk : τ.brk = σ.brk
  name : τ.name = σ.name

/-- A load that a call makes. -/
structure Attempt where
  at_ : Nat
  path : List UInt8
  args : Args
  frames : Frames

/-- What it begins with. -/
def Attempt.start (x : Attempt) : Load := ⟨.empty, x.frames, []⟩

/-- The load that the call makes, if it gets so far. -/
def attempt (path : Except Nat (List UInt8)) (args : Except Nat Args) (dir : Except Nat Nat) :
    Option Attempt :=
  match path, σ.frames.allocContig ARG_PAGES, args, dir with
  | .ok path, (some _, fr), .ok args, .ok dir => some ⟨dir, path, args, fr⟩
  | _, _, _, _ => none

/-- No other thread of the process of `s` is left to end, if `s` leads it. -/
def Lone (ps : Procs) : Prop :=
  (ps s).leader = s → ∀ i < MAX_PROCS, i ≠ s → Procs.Dismissed s i ps

/-- The load is bare; and where it gives an image, no thread is left to end. -/
def Safe (ps : Procs) (x : Attempt) : Prop :=
  BareLoad disk x.at_ x.path x.args x.start ∧
    wp (loadFrom disk x.at_ x.path x.args) (fun _ _ => Lone s ps) (fun _ _ => True) x.start

/-! ### The threads -/

end Host

namespace Proc.Procs

variable {s : Nat} {ps : Procs}

theorem reapThreads_lone {is : List Nat} {es : List Effect}
    (h : ∀ i ∈ is, i ≠ s → Dismissed s i ps) : reapThreads s is (ps, es) = (ps, es) := by
  induction is with
  | nil => rfl
  | cons i is ih =>
      have hrest := ih fun j hj => h j (List.mem_cons_of_mem i hj)
      rw [reapThreads]
      by_cases hskip : i = s ∨ (ps i).leader ≠ s
      · rw [if_pos hskip, hrest]
      · rw [if_neg hskip]
        rw [not_or, not_not] at hskip
        rcases h i List.mem_cons_self hskip.1 with hd | hd | ⟨hd, hk⟩
        · exact absurd hskip.2 hd
        · have hover : (ps i).state = .unused ∨ (ps i).state = .zombie := by
            by_contra hc
            exact hd (not_or.mp hc)
          rcases hover with hst | hst <;> simp only [hst] <;> exact hrest
        · have hsame : ps.edit i (fun p => { p with killed := true }) = ps := by
            rw [edit, ← hk]
            exact Function.update_eq_self i ps
          simp only [hd]
          rw [hsame, hrest]

/-- **A replacement that is refused** ended no thread exactly if none was left to end. -/
theorem execReplace_refused {root asid : Nat} (h : (ps.execReplace s root asid).1 = false) :
    (ps.execReplace s root asid).2.1 = ps ↔
      ((ps s).leader = s → ∀ i < MAX_PROCS, i ≠ s → Dismissed s i ps) := by
  unfold execReplace at h ⊢
  by_cases hl : (ps s).leader ≠ s
  · rw [if_pos hl]
    exact ⟨fun _ hc => absurd hc hl, fun _ => rfl⟩
  · have hlead : (ps s).leader = s := not_not.mp hl
    rw [if_neg hl] at h ⊢
    have hend := (reapThreads_fates s (List.range MAX_PROCS) (ps, [])).2
    simp only at h ⊢
    split_ifs at h ⊢
    refine ⟨fun hsame _ i hi his => ?_, fun hlone => ?_⟩
    · have := hend i (List.mem_range.mpr hi) his
      rwa [hsame] at this
    · rw [reapThreads_lone fun i hi => hlone hlead i (List.mem_range.mp hi)]

theorem execReplace_lone {root asid : Nat} (h : (ps.execReplace s root asid).1 = false)
    (hlone : (ps s).leader = s → ∀ i < MAX_PROCS, i ≠ s → Dismissed s i ps) :
    (ps.execReplace s root asid).2 = (ps, []) := by
  unfold execReplace at h ⊢
  by_cases hl : (ps s).leader ≠ s
  · rw [if_pos hl]
  · rw [if_neg hl] at h ⊢
    have hnone : reapThreads s (List.range MAX_PROCS) (ps, []) = (ps, []) :=
      reapThreads_lone fun i hi => hlone (not_not.mp hl) i (List.mem_range.mp hi)
    simp only at h ⊢
    split_ifs at h ⊢
    exact hnone

end Proc.Procs

/-! ### The call -/

namespace Host

variable {env : Kernel.Env V} {disk : Disk} {s asid : Nat} {σ τ : Host V} {e : Fail}
  {N L : Multiset Nat} {fr : Frames}

theorem Intact.refl (σ : Host V) : σ.Intact σ :=
  ⟨rfl, rfl, rfl, rfl, rfl, rfl, rfl, rfl, rfl, rfl, rfl⟩

theorem Intact.setFrames (h : σ.Intact τ) (fr : Frames) : σ.Intact (τ.setFrames fr) :=
  ⟨h.procs, h.pts, h.spaces, h.objs, h.mem, h.files, h.actions, h.sig, h.abi, h.brk, h.name⟩

theorem Intact.of_setFrames {fr' : Frames} (h : σ.Intact (τ.setFrames fr')) :
    (σ.setFrames fr).Intact τ :=
  ⟨h.procs, h.pts, h.spaces, h.objs, h.mem, h.files, h.actions, h.sig, h.abi, h.brk, h.name⟩

theorem exec_error {at_ : Nat} {path : List UInt8} {args : Args} {t : Load}
    (h : loadFrom disk at_ path args ⟨.empty, σ.frames, []⟩ = .error e t) :
    σ.exec env disk s asid at_ path args = (.error e, σ.setFrames t.fr) := by
  unfold exec
  rw [h]

/-- `exec_replace` is refused by the table of processes. -/
theorem execReplace_false {r : Loaded} {pt : Pt} {name : List UInt8}
    (h : (σ.execReplace env s asid r pt name).1 = false) :
    (σ.sys.procs.execReplace s r.root asid).1 = false ∧
      (σ.execReplace env s asid r pt name).2 =
        { σ with sys := σ.sys.after (σ.sys.procs.execReplace s r.root asid).2 } := by
  unfold execReplace at h ⊢
  cases hr : (σ.sys.procs.execReplace s r.root asid).1 with
  | true =>
      simp only [hr] at h
      exact absurd h (by simp)
  | false => simp only [hr, Bool.false_eq_true, if_false, and_self]

theorem exec_ok {at_ : Nat} {path : List UInt8} {args : Args} {r : Loaded} {t : Load}
    (h : loadFrom disk at_ path args ⟨.empty, σ.frames, []⟩ = .ok r t)
    (he : (σ.exec env disk s asid at_ path args).1 = .error e) :
    ∃ τ : Host V, (σ.sys.procs.execReplace s r.root asid).1 = false ∧
      τ = { σ.setFrames t.fr with
        sys := (σ.setFrames t.fr).sys.after (σ.sys.procs.execReplace s r.root asid).2 } ∧
      (σ.exec env disk s asid at_ path args).2 =
        τ.setFrames (freeUserSpace r.root t.pt τ.frames) := by
  unfold exec at he ⊢
  rw [h] at he ⊢
  simp only at he ⊢
  cases hx : ((σ.setFrames t.fr).execReplace env s asid r t.pt (basename path)).1 with
  | true => simp [hx] at he
  | false =>
      obtain ⟨hfalse, hτ⟩ := execReplace_false hx
      exact ⟨_, hfalse, hτ, by simp⟩

/-- A failure that changes no process leaves the frames `slips` in use. -/
def Failed (N L : Multiset Nat) (fr : Frames) (σ τ : Host V) (slips : List (Slip × Nat)) : Prop :=
  σ.Intact τ ∧ Dropped N L fr ⟨.empty, τ.frames, slips⟩

theorem exec_failed {at_ : Nat} {path : List UInt8} {args : Args} (h : Accounted N L σ.frames)
    (he : (σ.exec env disk s asid at_ path args).1 = .error e) :
    (∃ slips, Failed N L σ.frames σ (σ.exec env disk s asid at_ path args).2 slips ∧
      (Safe disk s σ.sys.procs ⟨at_, path, args, σ.frames⟩ ↔ slips = [])) ∨
    ¬ σ.Intact (σ.exec env disk s asid at_ path args).2 ∧
      ¬ Safe disk s σ.sys.procs ⟨at_, path, args, σ.frames⟩ := by
  have hload := loadFrom_loading disk at_ path args ⟨.start h, rfl⟩
  have hbare := loadFrom_bare disk at_ path args ⟨.empty, σ.frames, []⟩
  cases hr : loadFrom disk at_ path args ⟨.empty, σ.frames, []⟩ with
  | error e' t =>
      rw [exec_error hr]
      obtain ⟨hdrop, hpt⟩ := hload.error hr
      refine .inl ⟨t.slips, ⟨(Intact.refl σ).setFrames t.fr, ?_, rfl⟩, ?_⟩
      · rw [← hpt]
        exact hdrop
      · refine (and_iff_left ((wp_error hr).mpr trivial)).trans ?_
        exact (and_iff_right rfl).symm.trans (hbare.error hr).symm
  | ok r t =>
      obtain ⟨τ, hfalse, hτ, hend⟩ := exec_ok hr he
      rw [hend]
      have hlast : Safe disk s σ.sys.procs ⟨at_, path, args, σ.frames⟩ ↔
          t.slips = [] ∧ Lone s σ.sys.procs :=
        and_congr ((and_iff_right rfl).symm.trans (hbare.ok hr).symm) (wp_ok hr)
      rw [hlast]
      by_cases hlone : Lone s σ.sys.procs
      · -- nothing was done but to load the image and to free it
        have hnone : (σ.sys.procs.execReplace s r.root asid).2 = (σ.sys.procs, []) :=
          Procs.execReplace_lone hfalse hlone
        have hsame : τ = σ.setFrames t.fr := by
          rw [hτ, hnone]
          rfl
        refine .inl ⟨t.slips, ⟨?_, ?_, rfl⟩, and_iff_left hlone⟩
        · rw [hsame]
          exact ((Intact.refl σ).setFrames _).setFrames _
        · rw [hsame]
          exact (hload.ok hr).freeSpace
      · refine .inr ⟨fun hc => hlone ?_, fun hc => hlone hc.2⟩
        have hprocs : (σ.sys.procs.execReplace s r.root asid).2.1 = σ.sys.procs := by
          have := hc.procs
          rw [hτ] at this
          exact this
        exact (Procs.execReplace_refused hfalse).mp hprocs

theorem Failed.freeContig {b k : Nat} {slips : List (Slip × Nat)} {fr₀ : Frames}
    (h : Failed (List.range' b k + N) L fr₀ (σ.setFrames fr) τ slips) :
    Failed N L fr₀ σ (τ.setFrames (τ.frames.freeContig b k)) slips :=
  ⟨⟨h.1.procs, h.1.pts, h.1.spaces, h.1.objs, h.1.mem, h.1.files, h.1.actions, h.1.sig, h.1.abi,
    h.1.brk, h.1.name⟩, h.2.1.freeContig, rfl⟩

theorem Failed.settled {slips : List (Slip × Nat)} {fr₀ : Frames}
    (h : Failed N L fr₀ σ τ slips) : σ.Intact τ ∧ Accounted N L τ.frames ↔ slips = [] :=
  ⟨fun hc => h.2.leaves_all.mp hc.2, fun hs => ⟨h.1, h.2.leaves_all.mpr hs⟩⟩

/-- **A call that fails** leaves every process and every frame as it was exactly if the load is bare
and, where the image was loaded, no thread was left to end. -/
theorem execve_intact {path : Except Nat (List UInt8)} {args : Except Nat Args}
    {dir : Except Nat Nat} {n : Nat} (h : Accounted N L σ.frames)
    (he : (σ.execve env disk s asid path args dir).1 = .error (.errno n)) :
    σ.Intact (σ.execve env disk s asid path args dir).2 ∧
      Accounted N L (σ.execve env disk s asid path args dir).2.frames ↔
    ∀ x ∈ σ.attempt path args dir, Safe disk s σ.sys.procs x := by
  unfold execve at he ⊢
  unfold attempt
  cases path with
  | error e => simpa using ⟨Intact.refl σ, h⟩
  | ok path =>
      simp only at he ⊢
      rcases ha : σ.frames.allocContig ARG_PAGES with ⟨- | b, fr⟩
      · simpa using ⟨Intact.refl σ, h⟩
      · have hb := h.allocContig ha
        rw [ha] at he
        simp only at he ⊢
        have hempty : Failed (List.range' b ARG_PAGES + N) L fr (σ.setFrames fr) (σ.setFrames fr) [] :=
          ⟨.refl _, .start hb, rfl⟩
        cases args with
        | error e => simpa [execArgs] using hempty.freeContig.settled
        | ok args =>
            cases dir with
            | error e => simpa [execArgs] using hempty.freeContig.settled
            | ok dir =>
                simp only [execArgs] at he ⊢
                simp only [Option.mem_def, Option.some.injEq, forall_eq']
                rcases exec_failed hb he with ⟨slips, hf, hs⟩ | ⟨hmoved, hs⟩
                · rw [hf.freeContig.settled]
                  exact hs.symm
                · exact ⟨fun hc => absurd hc.1.of_setFrames hmoved, fun hc => absurd hc hs⟩

/-! ### A process with two threads -/

/-- A program of no segments. -/
def emptyElf : File where
  size := 64
  bytes := fun i =>
    if i = 0 then 0x7F else if i = 1 then 0x45 else if i = 2 then 0x4C else if i = 3 then 0x46
    else if i = 4 then 2 else if i = 5 then 1 else if i = 16 then 2 else if i = 18 then 183
    else if i = 32 then 64 else if i = 54 then 56 else 0

/-- A disk with that program and nothing else. -/
def oneFile : Disk where
  find := fun _ path => if path = [97] then .ok emptyElf.size else .error Kernel.ENOENT
  read := fun _ _ => .ok emptyElf.bytes

/-- The leader of a process runs, and so does another thread of it. -/
def twoThreads : Host Unit :=
  let made := createUserSpace (.boot 256 fun _ => false)
  let pt := made.1.elim .empty (·.2)
  let ps := (Procs.createEx none 0 1 fun _ => .empty).2.setState 0 .running
  { sys := ⟨(Procs.threadCreate 0 0 ps).2.setState 1 .running,
      (Mm.boot made.2).setPt 0 pt⟩
    files := .boot () fun _ => true
    actions := fun _ _ => .dfl
    sig := fun _ => .new
    abi := fun _ => .linux
    brk := fun _ => HEAP_BASE
    name := fun _ => [] }

/-- The call of the leader, for a file. -/
def call (path : List UInt8) : Except Fail Unit × Host Unit :=
  twoThreads.execve .void oneFile 0 2 (.ok path) (.ok ⟨[], []⟩) (.ok ROOT_INO)

/-- **A call that is refused** has told the other thread to end. -/
theorem execve_ends_thread : (call [97]).1 = .error (.errno EAGAIN) ∧
    ((call [97]).2.sys.procs 1).killed = true ∧ ¬ twoThreads.Intact (call [97]).2 := by
  have hcall : (call [97]).1 = .error (.errno EAGAIN) ∧
      ((call [97]).2.sys.procs 1).killed = true := by decide +kernel
  refine ⟨hcall.1, hcall.2, fun h => ?_⟩
  have hkilled := hcall.2
  rw [h.procs] at hkilled
  exact absurd hkilled (by decide)

/-- A call for a file that is not there changes nothing. -/
theorem execve_intact_missing : ∃ N, Accounted N 0 twoThreads.frames ∧
    (call [98]).1 = .error (.errno Kernel.ENOENT) ∧
    twoThreads.Intact (call [98]).2 ∧ Accounted N 0 (call [98]).2.frames := by
  obtain ⟨N, h⟩ : ∃ N, Accounted N 0 twoThreads.frames := by
    have hboot : Accounted 0 0 (.boot 256 fun _ => false) := .boot 256 _
    rcases hboot.createUserSpace with ⟨root, pt, -, -, ha⟩ | ⟨-, lost, ha⟩
    · exact ⟨_, ha⟩
    · exact ⟨_, ha⟩
  have hcall : (call [98]).1 = .error (.errno Kernel.ENOENT) := by decide +kernel
  have hsafe : ∀ x ∈ twoThreads.attempt (.ok [98]) (.ok ⟨[], []⟩) (.ok ROOT_INO),
      Safe oneFile 0 twoThreads.sys.procs x := by
    intro x hx
    unfold attempt at hx
    generalize twoThreads.frames.allocContig ARG_PAGES = r at hx
    obtain ⟨- | b, fr⟩ := r
    · exact absurd hx (by simp)
    · obtain rfl := Option.some.inj hx
      exact ⟨trivial, trivial⟩
  exact ⟨N, h, hcall, (execve_intact h hcall).mpr hsafe⟩

end Host

end Pulsar

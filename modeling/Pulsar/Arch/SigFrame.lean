import Pulsar.Arch.Context
import Pulsar.Lib.Bytes

/-!
# The frame of a handler (`signal.rs`)

`build_frame` puts the registers of a thread on the stack of the program before a handler starts,
and `sigreturn` takes them from there when it ends.  Both are programs over user memory (`User`),
which keeps what they touch beside what `user_ok` passed.  A `Port` is what the source has for one
architecture.
-/

namespace Pulsar.Arch

open Proc (Handling Action SigSet)

/-! ### User memory -/

/-- An access to user memory, or a range that is checked for one. -/
structure Touch where
  addr : BitVec 64
  len : Nat
  write : Bool
  deriving DecidableEq

/-- User memory, with what was touched and what was passed. -/
structure UserSt where
  bytes : BitVec 64 → UInt8
  touched : List Touch
  passed : List Touch

abbrev User := EStateM Empty UserSt

def PAGE : Nat := 4096

/-- The address `k` bytes on. -/
def off (a : BitVec 64) (k : Nat) : BitVec 64 := a + BitVec.ofNat 64 k

/-- The pages of a range. -/
def Touch.pages (t : Touch) : List Nat :=
  List.range' (t.addr.toNat / PAGE) ((t.addr.toNat % PAGE + t.len + (PAGE - 1)) / PAGE)

/-- The loop of `user_ok` finds that every page is there, or can be made. -/
def Touch.Passes (pageOk : Nat → Bool → Bool) (t : Touch) : Prop :=
  t.len = 0 ∨ t.addr.toNat + t.len < 2 ^ 64 ∧ ∀ p ∈ t.pages, pageOk p t.write = true

instance (pageOk : Nat → Bool → Bool) (t : Touch) : Decidable (t.Passes pageOk) := by
  unfold Touch.Passes
  infer_instance

/-- `user_ok(ptr, len, write)`. -/
def userOk (pageOk : Nat → Bool → Bool) (t : Touch) : User Bool := fun s =>
  if t.Passes pageOk then .ok true { s with passed := t :: s.passed } else .ok false s

/-- `n` bytes from `a` on are written. -/
def write (a : BitVec 64) (n : Nat) (f : Nat → UInt8) : User Unit := modify fun s =>
  { s with
    bytes := fun x => if (x - a).toNat < n then f (x - a).toNat else s.bytes x
    touched := s.touched ++ [⟨a, n, true⟩] }

/-- The bytes of a number. -/
def leBytes (v : Nat) (j : Nat) : UInt8 := UInt8.ofNat (v / 256 ^ j)

def w64 (a v : BitVec 64) : User Unit := write a 8 (leBytes v.toNat)
def w32 (a : BitVec 64) (v : BitVec 32) : User Unit := write a 4 (leBytes v.toNat)
def w128 (a : BitVec 64) (v : BitVec 128) : User Unit := write a 16 (leBytes v.toNat)

/-- `core::ptr::write_bytes(a, 0, n)`. -/
def zero (a : BitVec 64) (n : Nat) : User Unit := write a n fun _ => 0

/-- The bytes from `a` on. -/
def UserSt.at_ (s : UserSt) (a : BitVec 64) (j : Nat) : UInt8 := s.bytes (off a j)

/-- `n` bytes from `a` on are read. -/
def read (a : BitVec 64) (n : Nat) : User (Nat → UInt8) :=
  modifyGet fun s => (s.at_ a, { s with touched := s.touched ++ [⟨a, n, false⟩] })

/-- A number of `n` bytes is read. -/
def readLe (a : BitVec 64) (n : Nat) : User Nat := do
  let f ← read a n
  pure (leGet f 0 n)

def r64 (a : BitVec 64) : User (BitVec 64) := BitVec.ofNat 64 <$> readLe a 8
def r32 (a : BitVec 64) : User (BitVec 32) := BitVec.ofNat 32 <$> readLe a 4
def r128 (a : BitVec 64) : User (BitVec 128) := BitVec.ofNat 128 <$> readLe a 16

/-! ### The frame -/

def SI_SIZE : Nat := 128
def UC_SIGMASK : Nat := 40
def UC_MCTX : Nat := 176
def SS_ONSTACK : BitVec 32 := 1
def SS_DISABLE : BitVec 32 := 2
def SIGPAGE_VA : BitVec 64 := 0x3F80000000

/-- What the source has for one architecture, with registers `C` and floating-point state `F`. -/
structure Port (C F : Type) where
  MCTX_SIZE : Nat
  /-- The actions of programs name a way back that is taken. -/
  restores : Bool
  context_sp : C → BitVec 64
  save_mcontext : BitVec 64 → C → F → BitVec 64 → User Unit
  load_mcontext : BitVec 64 → C → F → User (C × F)
  /-- The registers of the handler: the frame is at the first address, the way back the second. -/
  start : BitVec 64 → BitVec 64 → Handling → C → User C
  zeroed : F
  mark_fp_dirty : C → C

namespace Port

variable {C F : Type} (m : Port C F) (pageOk : Nat → Bool → Bool)

/-- `FRAME_SIZE`. -/
def frameSize : Nat := (SI_SIZE + UC_MCTX + m.MCTX_SIZE + 16 + 15) / 16 * 16

/-- Where the frame is put. -/
def base (h : Handling) (c : C) : BitVec 64 :=
  let top := match h.alt with
    | some (sp, size) => BitVec.ofNat 64 sp + BitVec.ofNat 64 size
    | none => m.context_sp c
  (top - BitVec.ofNat 64 m.frameSize) &&& ~~~15

/-- Where the fault was, or who sent the signal. -/
def writeSource (h : Handling) (base : BitVec 64) : User Unit :=
  if 0 < h.info.1 then w64 (off base 16) (BitVec.ofNat 64 h.info.2.1)
  else w32 (off base 16) (BitVec.ofNat 32 h.info.2.2)

/-- The stack of the handler. -/
def writeStack (h : Handling) (uc : BitVec 64) : User Unit :=
  match h.alt with
  | some (sp, size) => do
    w64 (off uc 16) (BitVec.ofNat 64 sp)
    w32 (off uc 24) SS_ONSTACK
    w64 (off uc 32) (BitVec.ofNat 64 size)
  | none => w32 (off uc 24) SS_DISABLE

/-- The `siginfo` and the `ucontext`, but for the registers. -/
def writeInfo (h : Handling) (base : BitVec 64) : User Unit := do
  w32 base (BitVec.ofNat 32 h.sig)
  w32 (off base 8) (BitVec.ofNat 32 h.info.1)
  writeSource h base
  writeStack h (off base SI_SIZE)
  w64 (off (off base SI_SIZE) UC_SIGMASK) h.oldMask

/-- The way back that the handler gets. -/
def restorer (h : Handling) : BitVec 64 :=
  if m.restores && h.act.set Proc.SA_RESTORER then BitVec.ofNat 64 h.act.restorer else SIGPAGE_VA

/-- What `build_frame` does at a place that was passed. -/
def fill (h : Handling) (fp : F) (base : BitVec 64) (c : C) : User C := do
  zero base m.frameSize
  writeInfo h base
  m.save_mcontext (off (off base SI_SIZE) UC_MCTX) c fp (BitVec.ofNat 64 h.info.2.1)
  m.start base (m.restorer h) h c

/-- `build_frame(frame, sig, act, old_mask, alt, info)`; the processor has `fp`. -/
def build_frame (h : Handling) (fp : F) (c : C) : User (Option C) := do
  if ← userOk pageOk ⟨m.base h c, m.frameSize, true⟩ then
    some <$> m.fill h fp (m.base h c) c
  else pure none

/-- What `sigreturn` does with a frame that was passed. -/
def restore (base : BitVec 64) (c : C) : User (C × F × SigSet) := do
  let r ← m.load_mcontext (off (off base SI_SIZE) UC_MCTX) c m.zeroed
  let mask ← r64 (off (off base SI_SIZE) UC_SIGMASK)
  pure (m.mark_fp_dirty r.1, r.2, SigSet.blockable mask)

/-- `sigreturn(frame)`: the registers, and the mask. -/
def sigreturn (c : C) : User (Option (C × F × SigSet)) := do
  let base := m.context_sp c
  if ← userOk pageOk ⟨base, m.frameSize - 16, false⟩ then some <$> m.restore base c
  else pure none

end Port

/-! ### aarch64 -/

namespace Aarch64

def FPSIMD_MAGIC : BitVec 32 := 0x46508001

def save_mcontext (mc : BitVec 64) (f : Context) (fp : FpState) (fault : BitVec 64) :
    User Unit := do
  w64 mc fault
  (List.finRange 31).forM fun (i : Fin 31) => w64 (off mc (8 + i * 8)) (f.x i)
  w64 (off mc 256) f.sp_el0
  w64 (off mc 264) f.elr
  w64 (off mc 272) f.spsr
  let r := off mc 288
  zero r 4096
  w32 r FPSIMD_MAGIC
  w32 (off r 4) 528
  w32 (off r 8) (fp.fpsr.setWidth 32)
  w32 (off r 12) (fp.fpcr.setWidth 32)
  (List.finRange 32).forM fun i => w128 (off r (16 + i * 16)) (fp.v i)

/-- The floating-point state, if the frame has one. -/
def load_fp (r : BitVec 64) (fp : FpState) : User FpState := do
  if (← r32 r) = FPSIMD_MAGIC then
    let fpsr ← r32 (off r 8)
    let fpcr ← r32 (off r 12)
    (List.finRange 32).foldlM (fun (fp : FpState) (i : Fin 32) => do
      let v ← r128 (off r (16 + i * 16))
      pure { fp with v := Function.update fp.v i v })
      { fp with fpsr := fpsr.setWidth 64, fpcr := fpcr.setWidth 64 }
  else pure fp

def load_mcontext (mc : BitVec 64) (f : Context) (fp : FpState) : User (Context × FpState) := do
  let f ← (List.finRange 31).foldlM (fun (f : Context) (i : Fin 31) => do
    let v ← r64 (off mc (8 + i * 8))
    pure (f.setX i v)) f
  let sp_el0 ← r64 (off mc 256)
  let elr ← r64 (off mc 264)
  let spsr ← r64 (off mc 272)
  let fp ← load_fp (off mc 288) fp
  pure ({ f with sp_el0 := sp_el0, elr := elr, spsr := spsr &&& 0xF0000000 }, fp)

/-- A record of the frame for those who walk the stack, and the registers of the handler. -/
def start (base restorer : BitVec 64) (h : Handling) (f : Context) : User Context := do
  let uc := off base SI_SIZE
  let rcd := off uc (UC_MCTX + (288 + 4096))
  w64 rcd (f.x 29)
  w64 (off rcd 8) (f.x 30)
  let f := ((f.setX 29 rcd).setX 30 restorer).setX 0 (BitVec.ofNat 64 h.sig)
  let f := (f.setX 1 base).setX 2 uc
  pure { f with
    sp_el0 := base
    elr := BitVec.ofNat 64 h.act.handler
    spsr := f.spsr &&& ~~~(BitVec.twoPow 64 21) }

def port : Port Context FpState where
  MCTX_SIZE := 288 + 4096
  restores := true
  context_sp f := f.sp_el0
  save_mcontext := save_mcontext
  load_mcontext := load_mcontext
  start := start
  zeroed := .zeroed
  mark_fp_dirty := Context.mark_fp_dirty

end Aarch64

/-! ### riscv64 -/

namespace Riscv64

def save_mcontext (mc : BitVec 64) (f : Context) (fp : FpState) (_fault : BitVec 64) :
    User Unit := do
  w64 mc f.sepc
  ((List.finRange 32).drop 1).forM fun i => w64 (off mc (i * 8)) (f.x i)
  let r := off mc 256
  zero r 528
  (List.finRange 32).forM fun i => w64 (off r (i * 8)) (fp.f i)
  w32 (off r 256) (fp.fcsr.setWidth 32)

def load_mcontext (mc : BitVec 64) (f : Context) (fp : FpState) : User (Context × FpState) := do
  let sepc ← r64 mc
  let f ← ((List.finRange 32).drop 1).foldlM (fun (f : Context) (i : Fin 32) => do
    let v ← r64 (off mc (i * 8))
    pure (f.setX i v)) { f with sepc := sepc }
  let r := off mc 256
  let fp ← (List.finRange 32).foldlM (fun (fp : FpState) (i : Fin 32) => do
    let v ← r64 (off r (i * 8))
    pure { fp with f := Function.update fp.f i v }) fp
  let fcsr ← r32 (off r 256)
  pure (f, { fp with fcsr := fcsr.setWidth 64 })

def start (base restorer : BitVec 64) (h : Handling) (f : Context) : User Context := do
  let f := (((f.setX 1 restorer).setX 2 base).setX 10 (BitVec.ofNat 64 h.sig)).setX 11 base
  pure { f.setX 12 (off base SI_SIZE) with sepc := BitVec.ofNat 64 h.act.handler }

def port : Port Context FpState where
  MCTX_SIZE := 256 + 528
  restores := false
  context_sp f := f.x 2
  save_mcontext := save_mcontext
  load_mcontext := load_mcontext
  start := start
  zeroed := .zeroed
  mark_fp_dirty := Context.mark_fp_dirty

end Riscv64

/-! ### x86_64 -/

namespace X86

/-- The registers, each with its place in `gregs`. -/
def gregs (f : Context) (fault : BitVec 64) : List (Nat × BitVec 64) :=
  [(0, f.r8), (1, f.r9), (2, f.r10), (3, f.r11), (4, f.r12), (5, f.r13), (6, f.r14), (7, f.r15),
    (8, f.rdi), (9, f.rsi), (10, f.rbp), (11, f.rbx), (12, f.rdx), (13, f.rax), (14, f.rcx),
    (15, f.rsp), (16, f.rip), (17, f.rflags), (18, f.cs), (19, f.err_code), (20, f.vector),
    (22, fault)]

def save_mcontext (mc : BitVec 64) (f : Context) (fp : FpState) (fault : BitVec 64) :
    User Unit := do
  (gregs f fault).forM fun r => w64 (off mc (r.1 * 8)) r.2
  let fpptr := off mc (23 * 8)
  let fpbuf := off fpptr 16 &&& ~~~15
  w64 fpptr fpbuf
  write fpbuf 512 fun j => if h : j < 512 then fp.buf ⟨j, h⟩ else 0

/-- What is set from each place in `gregs`. -/
def setters : List (Nat × (BitVec 64 → Context → Context)) :=
  [(0, fun v f => { f with r8 := v }), (1, fun v f => { f with r9 := v }),
    (2, fun v f => { f with r10 := v }), (3, fun v f => { f with r11 := v }),
    (4, fun v f => { f with r12 := v }), (5, fun v f => { f with r13 := v }),
    (6, fun v f => { f with r14 := v }), (7, fun v f => { f with r15 := v }),
    (8, fun v f => { f with rdi := v }), (9, fun v f => { f with rsi := v }),
    (10, fun v f => { f with rbp := v }), (11, fun v f => { f with rbx := v }),
    (12, fun v f => { f with rdx := v }), (13, fun v f => { f with rax := v }),
    (14, fun v f => { f with rcx := v }), (15, fun v f => { f with rsp := v }),
    (16, fun v f => { f with rip := v }),
    (17, fun v f => { f with rflags := (v &&& 0xCD5) ||| 0x202 })]

/-- The floating-point state is where the frame says. -/
def load_fp (fpptr : BitVec 64) (fp : FpState) : User FpState :=
  if fpptr ≠ 0 then do
    let buf ← read fpptr 512
    pure ⟨fun i => buf i⟩
  else pure fp

def load_mcontext (mc : BitVec 64) (f : Context) (fp : FpState) : User (Context × FpState) := do
  let f ← setters.foldlM (fun f r => do
    let v ← r64 (off mc (r.1 * 8))
    pure (r.2 v f)) f
  let fpptr ← r64 (off mc (23 * 8))
  let fp ← load_fp fpptr fp
  pure (f, fp)

/-- The way back is pushed, and the registers of the handler. -/
def start (base restorer : BitVec 64) (h : Handling) (f : Context) : User Context := do
  let ret_sp := base - 8
  w64 ret_sp restorer
  pure { f with rsp := ret_sp, rip := BitVec.ofNat 64 h.act.handler, rdi := BitVec.ofNat 64 h.sig,
                rsi := base, rdx := off base SI_SIZE }

def port : Port Context FpState where
  MCTX_SIZE := 200 + 528
  restores := true
  context_sp f := f.rsp
  save_mcontext := save_mcontext
  load_mcontext := load_mcontext
  start := start
  zeroed := .zeroed
  mark_fp_dirty := Context.mark_fp_dirty

end X86

end Pulsar.Arch

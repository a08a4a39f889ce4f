import Pulsar.Proc.Signal

/-!
# The registers of a thread (`arch/*/context.rs`)

`Context` is what a trap saves, and `FpState` what only a change of thread does.  Each architecture
has its own, as `Proc.Context` wants them.
-/

namespace Pulsar.Arch

/-! ### riscv64 -/

namespace Riscv64

instance registers : NeZero 32 := ⟨by decide⟩

/-- The frame of a trap; `x 0` is not a register. -/
structure Context where
  x : Fin 32 → BitVec 64
  sepc : BitVec 64
  sstatus : BitVec 64

def SSTATUS_SPIE : BitVec 64 := 1 <<< 5
def SSTATUS_SUM : BitVec 64 := 1 <<< 18
/-- The state of the floating-point unit: 0 off, 1 initial, 2 clean, 3 dirty. -/
def SSTATUS_FS : BitVec 64 := 3 <<< 13
def FS_INITIAL : BitVec 64 := 1 <<< 13
def FS_CLEAN : BitVec 64 := 2 <<< 13

structure FpState where
  f : Fin 32 → BitVec 64
  fcsr : BitVec 64

namespace Context

def zeroed : Context := ⟨fun _ => 0, 0, 0⟩

def setX (i : Fin 32) (v : BitVec 64) (c : Context) : Context :=
  { c with x := Function.update c.x i v }

def new_user (entry sp : BitVec 64) : Context :=
  { zeroed.setX 2 sp with sepc := entry, sstatus := SSTATUS_SPIE ||| SSTATUS_SUM ||| FS_INITIAL }

def set_sp (v : BitVec 64) (c : Context) : Context := c.setX 2 v
def set_tls (v : BitVec 64) (c : Context) : Context := c.setX 4 v

/-- Have the floating-point registers changed since they were last saved?  They are clean then. -/
def fp_take_dirty (c : Context) : Bool × Context :=
  if c.sstatus &&& SSTATUS_FS = SSTATUS_FS then
    (true, { c with sstatus := (c.sstatus &&& ~~~SSTATUS_FS) ||| FS_CLEAN })
  else (false, c)

/-- The floating-point registers are to be saved. -/
def mark_fp_dirty (c : Context) : Context := { c with sstatus := c.sstatus ||| SSTATUS_FS }

end Context

def FpState.zeroed : FpState := ⟨fun _ => 0, 0⟩

instance : Proc.Context Context where
  rewindSyscall c := { c with sepc := c.sepc - 4 }
  skipSyscall c := { c with sepc := c.sepc + 4 }
  setRet v c := c.setX 10 (BitVec.ofNat 64 v)
  sp c := (c.x 2).toNat

end Riscv64

/-! ### aarch64 -/

namespace Aarch64

instance registers : NeZero 31 := ⟨by decide⟩

structure Context where
  x : Fin 31 → BitVec 64
  elr : BitVec 64
  sp_el0 : BitVec 64
  spsr : BitVec 64
  /-- `TPIDR_EL0`. -/
  tpidr : BitVec 64

structure FpState where
  v : Fin 32 → BitVec 128
  fpcr : BitVec 64
  fpsr : BitVec 64

namespace Context

def zeroed : Context := ⟨fun _ => 0, 0, 0, 0, 0⟩

def setX (i : Fin 31) (v : BitVec 64) (c : Context) : Context :=
  { c with x := Function.update c.x i v }

def new_user (entry sp : BitVec 64) : Context := { zeroed with elr := entry, sp_el0 := sp }

def set_sp (v : BitVec 64) (c : Context) : Context := { c with sp_el0 := v }
def set_tls (v : BitVec 64) (c : Context) : Context := { c with tpidr := v }

/-- The floating-point registers are always saved. -/
def fp_take_dirty (c : Context) : Bool × Context := (true, c)
def mark_fp_dirty (c : Context) : Context := c

end Context

def FpState.zeroed : FpState := ⟨fun _ => 0, 0, 0⟩

instance : Proc.Context Context where
  rewindSyscall c := { c with elr := c.elr - 4 }
  skipSyscall c := { c with elr := c.elr + 4 }
  setRet v c := c.setX 0 (BitVec.ofNat 64 v)
  sp c := c.sp_el0.toNat

end Aarch64

/-! ### x86_64 -/

namespace X86

structure Context where
  r15 : BitVec 64
  r14 : BitVec 64
  r13 : BitVec 64
  r12 : BitVec 64
  r11 : BitVec 64
  r10 : BitVec 64
  r9 : BitVec 64
  r8 : BitVec 64
  rbp : BitVec 64
  rdi : BitVec 64
  rsi : BitVec 64
  rdx : BitVec 64
  rcx : BitVec 64
  rbx : BitVec 64
  rax : BitVec 64
  /-- The base of `%fs`. -/
  fs_base : BitVec 64
  vector : BitVec 64
  err_code : BitVec 64
  rip : BitVec 64
  cs : BitVec 64
  rflags : BitVec 64
  rsp : BitVec 64
  ss : BitVec 64
  deriving DecidableEq

def RFLAGS_USER : BitVec 64 := 0x200 ||| 0x002
def USER_SS : BitVec 64 := 0x18 ||| 3
def USER_CS : BitVec 64 := 0x20 ||| 3

/-- What `fxsave` writes. -/
structure FpState where
  buf : Fin 512 → UInt8

namespace Context

def zeroed : Context :=
  ⟨0, 0, 0, 0, 0, 0, 0, 0, 0, 0, 0, 0, 0, 0, 0, 0, 0, 0, 0, 0, 0, 0, 0⟩

def new_user (entry sp : BitVec 64) : Context :=
  { zeroed with rip := entry, rsp := sp, cs := USER_CS, ss := USER_SS, rflags := RFLAGS_USER }

def set_sp (v : BitVec 64) (c : Context) : Context := { c with rsp := v }
def set_tls (v : BitVec 64) (c : Context) : Context := { c with fs_base := v }

def fp_take_dirty (c : Context) : Bool × Context := (true, c)
def mark_fp_dirty (c : Context) : Context := c

end Context

/-- Every exception of the two units is masked. -/
def FpState.zeroed : FpState :=
  ⟨fun i => if i = 0 then 0x7F else if i = 1 then 0x03 else if i = 24 then 0x80
    else if i = 25 then 0x1F else 0⟩

instance : Proc.Context Context where
  rewindSyscall c := { c with rip := c.rip - 2 }
  skipSyscall c := { c with rip := c.rip + 2 }
  setRet v c := { c with rax := BitVec.ofNat 64 v }
  sp c := c.rsp.toNat

end X86

end Pulsar.Arch

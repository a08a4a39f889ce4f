import Pulsar.Arch.Context

/-!
# System calls of x86_64 (`linux.rs`, `arch/x86_64/trap.S`)

The entry of a system call saves the registers in a frame.  A number of x86_64 is translated to the
generic one, for which the arguments of some calls are moved in the frame, and the return loads
the frame.  A call that has to wait is made again, with the registers of the frame.

* `call_keeps`: the registers are given back exactly where each argument is moved to where it is
  (`Unmoved`).
* `open_moves`: `open` returns with its path in `rsi` and its flags in `rdx`.
-/

namespace Pulsar.Arch.X86

namespace Context

def syscallNum (c : Context) : Nat := c.rax.toNat

def arg (c : Context) : Fin 6 → BitVec 64
  | 0 => c.rdi
  | 1 => c.rsi
  | 2 => c.rdx
  | 3 => c.r10
  | 4 => c.r8
  | 5 => c.r9

def setRet (v : BitVec 64) (c : Context) : Context := { c with rax := v }

end Context

def AT_FDCWD : BitVec 64 := -100
def EINVAL : BitVec 64 := 22
def ENOSYS : BitVec 64 := 38

/-- What the translation may change: the frame, the base of `%gs`, and the word that it is asked to
write for the program. -/
structure Entry where
  ctx : Context
  gs : BitVec 64
  put : Option (BitVec 64 × BitVec 64)

namespace Entry

/-- The arguments are moved. -/
def move (f : Context → Context) (s : Entry) : Entry := { s with ctx := f s.ctx }

def answer (v : BitVec 64) (s : Entry) : Entry := s.move (·.setRet v)

/-- `arch_prctl(code, addr)`. -/
def archPrctl (s : Entry) : Entry :=
  let addr := s.ctx.arg 1
  match (s.ctx.arg 0).toNat with
  | 0x1001 => { s with gs := addr }.answer 0
  | 0x1002 => (s.move (·.set_tls addr)).answer 0
  | 0x1003 => { s with put := some (addr, s.ctx.fs_base) }.answer 0
  | 0x1004 => { s with put := some (addr, s.gs) }.answer 0
  | _ => s.answer (-EINVAL)

end Entry

/-- The numbers that are translated with their arguments where they are. -/
def numbers : List (Nat × Nat) :=
  [(0, 63), (1, 64), (3, 57), (5, 80), (7, 1007), (8, 62), (9, 222), (10, 226), (11, 215),
    (12, 214), (13, 134), (14, 135), (15, 139), (16, 29), (17, 67), (18, 68), (19, 65), (20, 66),
    (23, 1023), (24, 124), (25, 216), (28, 233), (32, 23), (33, 24), (35, 101), (38, 103),
    (39, 172), (41, 198), (42, 203), (43, 242), (44, 206), (45, 207), (46, 211), (47, 212),
    (48, 210), (49, 200), (50, 201), (51, 204), (52, 205), (53, 199), (54, 208), (55, 209),
    (59, 221), (60, 93), (61, 260), (62, 129), (63, 160), (72, 25), (73, 32), (74, 82), (75, 83),
    (76, 45), (77, 46), (78, 61), (79, 17), (80, 49), (95, 166), (96, 169), (97, 163), (98, 165),
    (99, 179), (102, 174), (104, 176), (105, 146), (106, 144), (107, 175), (108, 177), (109, 154),
    (110, 173), (111, 173), (112, 157), (118, 148), (120, 150), (121, 155), (124, 158), (127, 136),
    (130, 133), (131, 132), (137, 43), (138, 44), (157, 167), (160, 164), (162, 81), (186, 178),
    (187, 213), (200, 130), (202, 98), (203, 122), (204, 123), (217, 61), (218, 96), (221, 223),
    (228, 113), (229, 114), (230, 115), (231, 94), (232, 22), (233, 21), (234, 131), (247, 95),
    (257, 56), (258, 34), (260, 54), (262, 79), (263, 35), (264, 38), (265, 37), (266, 36),
    (267, 78), (268, 53), (269, 48), (270, 72), (271, 73), (273, 99), (280, 88), (281, 22),
    (285, 47), (288, 242), (290, 19), (291, 20), (292, 24), (293, 59), (295, 69), (296, 70),
    (302, 261), (318, 278), (319, 279), (332, 291)]

/-- `x86_to_generic(nr, frame)`: the generic number, unless the call is answered here. -/
def x86ToGeneric (nr : Nat) (s : Entry) : Option Nat × Entry :=
  match nr with
  | 158 => (none, s.archPrctl)
  -- open
  | 2 => (some 56, s.move fun c =>
      { c with r10 := c.rdx, rdx := c.rsi, rsi := c.rdi, rdi := AT_FDCWD })
  -- stat
  | 4 => (some 79, s.move fun c =>
      { c with r10 := 0, rdx := c.rsi, rsi := c.rdi, rdi := AT_FDCWD })
  -- lstat
  | 6 => (some 79, s.move fun c =>
      { c with r10 := 0x100, rdx := c.rsi, rsi := c.rdi, rdi := AT_FDCWD })
  -- access
  | 21 => (some 48, s.move fun c =>
      { c with r10 := 0, rdx := c.rsi, rsi := c.rdi, rdi := AT_FDCWD })
  -- clone
  | 56 => (some 220, s.move fun c => { c with r10 := c.r8, r8 := c.r10 })
  -- fork
  | 57 => (some 220, s.move fun c => { c with rdi := 17, rsi := 0, rdx := 0, r10 := 0, r8 := 0 })
  -- vfork
  | 58 => (some 220, s.move fun c =>
      { c with rdi := 0x4111, rsi := 0, rdx := 0, r10 := 0, r8 := 0 })
  -- rename
  | 82 => (some 38, s.move fun c =>
      { c with r10 := c.rsi, rdx := AT_FDCWD, rsi := c.rdi, rdi := AT_FDCWD })
  -- mkdir
  | 83 => (some 34, s.move fun c => { c with rdx := c.rsi, rsi := c.rdi, rdi := AT_FDCWD })
  -- rmdir
  | 84 => (some 35, s.move fun c => { c with rdx := 0x200, rsi := c.rdi, rdi := AT_FDCWD })
  -- link
  | 86 => (some 37, s.move fun c =>
      { c with r8 := 0, r10 := c.rsi, rdx := AT_FDCWD, rsi := c.rdi, rdi := AT_FDCWD })
  -- unlink
  | 87 => (some 35, s.move fun c => { c with rdx := 0, rsi := c.rdi, rdi := AT_FDCWD })
  -- symlink
  | 88 => (some 36, s.move fun c => { c with rdx := c.rsi, rsi := AT_FDCWD })
  -- readlink
  | 89 => (some 78, s.move fun c =>
      { c with r10 := c.rdx, rdx := c.rsi, rsi := c.rdi, rdi := AT_FDCWD })
  -- pipe
  | 22 => (some 59, s.move fun c => { c with rsi := 0 })
  -- get_robust_list
  | 274 => (none, s.answer 0)
  -- eventfd
  | 284 => (some 19, s.move fun c => { c with rsi := 0 })
  -- rseq
  | 334 => (none, s.answer (-ENOSYS))
  | other => (some ((numbers.lookup other).getD other), s)

/-! ### A call, from user code to user code -/

/-- The registers that a call gives back: all but `rax`, `rcx` and `r11`. -/
structure Saved where
  rbx : BitVec 64
  rdx : BitVec 64
  rsi : BitVec 64
  rdi : BitVec 64
  rbp : BitVec 64
  rsp : BitVec 64
  r8 : BitVec 64
  r9 : BitVec 64
  r10 : BitVec 64
  r12 : BitVec 64
  r13 : BitVec 64
  r14 : BitVec 64
  r15 : BitVec 64
  deriving DecidableEq

def Context.saved (c : Context) : Saved :=
  ⟨c.rbx, c.rdx, c.rsi, c.rdi, c.rbp, c.rsp, c.r8, c.r9, c.r10, c.r12, c.r13, c.r14, c.r15⟩

/-- `x86_syscall_entry`: the frame of the registers `r`, with which the instruction at `r.rip` is
executed. -/
def syscallEntry (r : Context) : Context :=
  { r with rcx := r.rip + 2, r11 := r.rflags, vector := 0x80, err_code := 0, rip := r.rip + 2,
           cs := USER_CS, ss := USER_SS }

/-- What becomes of a call that is served: its result is set, or it is to be made again. -/
inductive Served where
  | ret (v : BitVec 64)
  | again

/-- `dispatch(frame)`: a call with the registers `r` may return with those of the second frame.  The
services `serve` read the frame and set its result, or move its program counter back. -/
inductive Returns (serve : Nat → Context → Served → Prop) : Context → Context → Prop
  | here {r : Context} {gs : BitVec 64} {s : Entry} :
      x86ToGeneric r.syscallNum ⟨syscallEntry r, gs, none⟩ = (none, s) → Returns serve r s.ctx
  | done {r : Context} {gs v : BitVec 64} {g : Nat} {s : Entry} :
      x86ToGeneric r.syscallNum ⟨syscallEntry r, gs, none⟩ = (some g, s) →
      serve g s.ctx (.ret v) → Returns serve r (s.ctx.setRet v)
  | again {r r' : Context} {gs : BitVec 64} {g : Nat} {s : Entry} :
      x86ToGeneric r.syscallNum ⟨syscallEntry r, gs, none⟩ = (some g, s) →
      serve g s.ctx .again → Returns serve { s.ctx with rip := s.ctx.rip - 2 } r' →
      Returns serve r r'

/-- Each argument of the call `nr` is moved to where it is. -/
def Unmoved (c : Saved) : Nat → Prop
  | 2 | 82 | 89 => c.rdi = AT_FDCWD ∧ c.rsi = AT_FDCWD ∧ c.rdx = AT_FDCWD ∧ c.r10 = AT_FDCWD
  | 4 | 21 => c.rdi = AT_FDCWD ∧ c.rsi = AT_FDCWD ∧ c.rdx = AT_FDCWD ∧ c.r10 = 0
  | 6 => c.rdi = AT_FDCWD ∧ c.rsi = AT_FDCWD ∧ c.rdx = AT_FDCWD ∧ c.r10 = 0x100
  | 56 => c.r10 = c.r8
  | 57 => c.rdi = 17 ∧ c.rsi = 0 ∧ c.rdx = 0 ∧ c.r10 = 0 ∧ c.r8 = 0
  | 58 => c.rdi = 0x4111 ∧ c.rsi = 0 ∧ c.rdx = 0 ∧ c.r10 = 0 ∧ c.r8 = 0
  | 83 => c.rdi = AT_FDCWD ∧ c.rsi = AT_FDCWD ∧ c.rdx = AT_FDCWD
  | 84 => c.rdi = AT_FDCWD ∧ c.rsi = AT_FDCWD ∧ c.rdx = 0x200
  | 86 => c.rdi = AT_FDCWD ∧ c.rsi = AT_FDCWD ∧ c.rdx = AT_FDCWD ∧ c.r10 = AT_FDCWD ∧ c.r8 = 0
  | 87 => c.rdi = AT_FDCWD ∧ c.rsi = AT_FDCWD ∧ c.rdx = 0
  | 88 => c.rsi = AT_FDCWD ∧ c.rdx = AT_FDCWD
  | 22 | 284 => c.rsi = 0
  | _ => True

variable {nr : Nat} {s : Entry} {r r' : Context} {serve : Nat → Context → Served → Prop}

theorem saved_archPrctl (s : Entry) : s.archPrctl.ctx.saved = s.ctx.saved := by
  unfold Entry.archPrctl
  simp only
  split <;> rfl

theorem rax_x86ToGeneric (s : Entry) : (x86ToGeneric nr s).1 ≠ none →
    (x86ToGeneric nr s).2.ctx.rax = s.ctx.rax := by
  unfold x86ToGeneric
  split <;> first | exact fun h => absurd rfl h | exact fun _ => rfl

/-- **The translation** leaves the registers where no argument is moved elsewhere. -/
theorem saved_x86ToGeneric (nr : Nat) (s : Entry) :
    (x86ToGeneric nr s).2.ctx.saved = s.ctx.saved ↔ Unmoved s.ctx.saved nr := by
  unfold x86ToGeneric
  split
  case h_1 => exact iff_of_true (saved_archPrctl s) trivial
  -- `get_robust_list` and `rseq`
  case h_17 | h_19 => exact iff_of_true rfl trivial
  -- no argument is moved
  case h_20 =>
      refine iff_of_true rfl ?_
      unfold Unmoved
      split <;> first | contradiction | trivial
  all_goals
    simp only [Entry.move, Context.saved, Saved.mk.injEq, Unmoved]
    grind

theorem Returns.saved (h : Returns serve r r') (hr : Unmoved r.saved r.syscallNum) :
    r'.saved = r.saved := by
  induction h with
  | @here r gs s ht =>
      have hs := (saved_x86ToGeneric r.syscallNum ⟨syscallEntry r, gs, none⟩).mpr hr
      rw [ht] at hs
      exact hs
  | @done r gs v g s ht _ =>
      have hs := (saved_x86ToGeneric r.syscallNum ⟨syscallEntry r, gs, none⟩).mpr hr
      rw [ht] at hs
      exact hs
  | @again r r' gs g s ht _ _ ih =>
      have hs := (saved_x86ToGeneric r.syscallNum ⟨syscallEntry r, gs, none⟩).mpr hr
      have hrax := @rax_x86ToGeneric r.syscallNum ⟨syscallEntry r, gs, none⟩ (by simp [ht])
      rw [ht] at hs hrax
      have hnum : ({ s.ctx with rip := s.ctx.rip - 2 } : Context).syscallNum = r.syscallNum :=
        congrArg BitVec.toNat hrax
      refine (ih ?_).trans hs
      rw [hnum]
      exact hs ▸ hr

/-- **A call gives back the registers** where its arguments are not moved, and only there. -/
theorem call_keeps (r : Context) :
    (∀ serve r', Returns serve r r' → r'.saved = r.saved) ↔ Unmoved r.saved r.syscallNum := by
  refine ⟨fun h => ?_, fun hr serve r' h => h.saved hr⟩
  refine (saved_x86ToGeneric r.syscallNum ⟨syscallEntry r, 0, none⟩).mp ?_
  rcases ht : x86ToGeneric r.syscallNum ⟨syscallEntry r, 0, none⟩ with ⟨- | g, s⟩
  · exact h (fun _ _ _ => True) s.ctx (.here ht)
  · exact h (fun _ _ _ => True) (s.ctx.setRet 0) (.done ht trivial)

/-- The registers with which `open` is called: a path at 4096, for reading. -/
def opening : Context := { Context.zeroed with rax := 2, rdi := 4096 }

/-- **`open` moves its arguments**, and they stay where they are. -/
theorem open_moves : ∃ r', Returns (fun g _ a => g = 56 ∧ a = .ret 3) opening r' ∧
    r'.rax = 3 ∧ r'.rdi = AT_FDCWD ∧ r'.rsi = 4096 ∧ r'.saved ≠ opening.saved :=
  ⟨_, @Returns.done _ _ 0 _ _ _ rfl ⟨rfl, rfl⟩, rfl, rfl, rfl, by decide⟩

end Pulsar.Arch.X86

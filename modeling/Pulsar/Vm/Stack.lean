import Mathlib.Data.List.GetD
import Pulsar.Vm.Elf
import Pulsar.Vm.Moves

/-!
# The first stack of a program (`exec.rs`)

The strings of a program are pushed down from the top of a buffer that stands for the end of its
stack, and the vectors of pointers are put below them.  The buffer is then copied to the process.

* `pushStrings_spec`: the strings of a block lie one behind the other, each with its end, and the
  pointers are their addresses.
* **`fillStack_lays`**: what a program finds at its stack pointer (`Stacked`).
* `fillStack_lays_some`, `fillStack_starved`: machines with and without the frames for it.
-/

namespace Pulsar.Vm

open Prog (zoom)

/-! ### The code -/

/-- The arguments as they were collected: strings one behind the other, each with its end, and how
many they are. -/
structure Blocks where
  argv : List UInt8
  argc : Nat
  envp : List UInt8
  envc : Nat

/-- The buffer, filled down to `top`. -/
structure Packing where
  top : Nat
  buf : Nat → UInt8

abbrev Packer := EStateM Fail Packing

/-- The address that the buffer stands for. -/
def STACK_BOTTOM : Nat := STACK_TOP - ARG_MAX

/-- `push(data)`: the address of the copy. -/
def push (data : List UInt8) : Packer Nat := fun s =>
  if s.top < data.length then .error .panic s
  else
    let top := s.top - data.length
    .ok (STACK_BOTTOM + top) ⟨top, fun x =>
      if top ≤ x ∧ x < top + data.length then data.getD (x - top) 0 else s.buf x⟩

/-- The end of the string that starts at `i`. -/
def endAt (block : List UInt8) (i : Nat) : Nat :=
  i + ((block.drop i).takeWhile fun c => decide (c ≠ 0)).length

/-- The first loop of `split`: where strings start. -/
def starts (block : List UInt8) : Nat → Nat → List Nat
  | 0, _ => []
  | n + 1, i => if i ≤ block.length then i :: starts block n (endAt block i + 1) else []

/-- The second loop of `split`: strings are pushed from the last to the first. -/
def pushStrings (block : List UInt8) : List Nat → Packer (List Nat)
  | [] => pure []
  | s :: ss => do
    let ptrs ← pushStrings block ss
    let _ ← push [0]
    let p ← push ((block.drop s).take (endAt block s - s))
    pure (p :: ptrs)

/-- `split(block, n, out, push)`: the pointers, which are zero where there is no string. -/
def split (block : List UInt8) (n : Nat) : Packer (List Nat) := do
  let ptrs ← pushStrings block (starts block n 0)
  pure ((List.range n).map fun j => ptrs.getD j 0)

/-- `put(v)` for each word, from `w` on. -/
def putWords : Nat → List Nat → Packer Unit
  | _, [] => pure ()
  | w, v :: vs => do
    let s ← get
    if ARG_MAX < w + 8 then throw .panic
    else
      set { s with buf := lePut s.buf w 8 v }
      putWords (w + 8) vs

def HWCAP : Nat := 3

/-- The pairs of the auxiliary vector. -/
def auxv (img : Image) (atRandom execfn : Nat) : List (Nat × Nat) :=
  [(3, img.phdr), (4, 56), (5, img.phnum), (6, 4096), (7, img.base), (8, 0), (9, img.progEntry),
    (11, 0), (12, 0), (13, 0), (14, 0), (16, HWCAP), (17, 100), (23, 0), (25, atRandom),
    (31, execfn)]

/-- The words at the stack pointer. -/
def stackWords (argPtrs envPtrs : List Nat) (aux : List (Nat × Nat)) : List Nat :=
  argPtrs.length :: argPtrs ++ 0 :: envPtrs ++ 0 :: aux.flatMap (fun a => [a.1, a.2]) ++ [0, 0]

/-- The buffer is filled: where the words start. -/
def packStack (img : Image) (path random : List UInt8) (a : Blocks) : Packer Nat := do
  let _ ← push (List.replicate 8 0)
  let _ ← push [0]
  let execfn ← push path
  let atRandom ← push random
  if 512 < a.argc ∨ 512 < a.envc then throw (.errno E2BIG)
  else
    let envPtrs ← split a.envp a.envc
    let argPtrs ← split a.argv a.argc
    let words := 1 + a.argc + 1 + a.envc + 1 + 2 * (16 + 1)
    let s ← get
    if s.top / 16 * 16 < words * 8 then throw .panic
    else
      let top := (s.top / 16 * 16 - words * 8) / 16 * 16
      putWords top (stackWords argPtrs envPtrs (auxv img atRandom execfn))
      pure top

/-- The bytes that are needed. -/
def stackTotal (path : List UInt8) (a : Blocks) : Nat :=
  path.length + 1 + a.argv.length + a.envp.length + 16 + (a.argc + a.envc + 3 + 2 * 20) * 8 + 64

/-- `build_stack(root, img, path, args)`: the stack pointer.  `old` is what the buffer had before,
and `random` are the 16 bytes of the generator. -/
def fillStack (old : Nat → UInt8) (img : Image) (path random : List UInt8) (a : Blocks) :
    Filler Nat := do
  if ARG_MAX < stackTotal path a then throw (.errno E2BIG)
  else
    let pages := ARG_MAX / PAGE
    let buf ← zoom Filling.load Filling.setLoad (allocContig pages ENOSPC)
    match packStack img path random a ⟨ARG_MAX, old⟩ with
    | .error .panic _ => throw .panic
    | .error e _ =>
      modify fun s => s.setLoad (s.load.freeContig buf pages)
      throw e
    | .ok top t =>
      let sp := STACK_BOTTOM + top
      let first := pageOf sp
      let ok ← fillInto ⟨ARG_MAX, t.buf⟩
        ⟨first, first - STACK_BOTTOM, STACK_TOP - first, STACK_TOP - first, 3⟩
      modify fun s => s.setLoad (s.load.freeContig buf pages)
      if ok then pure sp else throw (.errno ENOSPC)

/-! ### Bytes in memory -/

/-- The bytes lie in memory from `a` on. -/
def Holds (m : Nat → UInt8) (a : Nat) (l : List UInt8) : Prop :=
  ∀ k < l.length, m (a + k) = l.getD k 0

/-- A string lies in memory at `a`, with its end. -/
def CString (m : Nat → UInt8) (a : Nat) (s : List UInt8) : Prop := Holds m a (s ++ [0])

variable {m : Nat → UInt8} {x n : Nat} {l l' : List UInt8} {s t : Packing} {ss : List (List UInt8)}

theorem Holds.left (h : Holds m x (l ++ l')) : Holds m x l := fun k hk => by
  rw [h k (by rw [List.length_append]; omega), List.getD_append _ _ _ _ hk]

theorem Holds.right (h : Holds m x (l ++ l')) : Holds m (x + l.length) l' := fun k hk => by
  rw [Nat.add_assoc, h _ (by rw [List.length_append]; omega),
    List.getD_append_right _ _ _ _ (Nat.le_add_right ..), Nat.add_sub_cancel_left]

theorem Holds.suffix (h : Holds m (n - (l ++ l').length) (l ++ l'))
    (hlen : (l ++ l').length ≤ n) : Holds m (n - l'.length) l' := by
  have hr := h.right
  rw [List.length_append] at hlen hr
  rwa [show n - (l.length + l'.length) + l.length = n - l'.length by omega] at hr

/-! ### Pushing -/

/-- The buffer holds `l` at its end. -/
structure Packed (s : Packing) (l : List UInt8) : Prop where
  top : s.top + l.length = ARG_MAX
  bytes : Holds s.buf s.top l

/-- The address of what was pushed last. -/
def addr (l : List UInt8) : Nat := STACK_TOP - l.length

theorem push_spec {data : List UInt8} (h : Packed s l) (hlen : (data ++ l).length ≤ ARG_MAX) :
    wp (push data) (fun p t => p = addr (data ++ l) ∧ Packed t (data ++ l))
      (fun _ _ => False) s := by
  have htop := h.top
  rw [List.length_append] at hlen
  have hle : data.length ≤ s.top := by omega
  have hrun : push data s = .ok (STACK_BOTTOM + (s.top - data.length))
      ⟨s.top - data.length, fun x =>
        if s.top - data.length ≤ x ∧ x < s.top - data.length + data.length then
        data.getD (x - (s.top - data.length)) 0 else s.buf x⟩ := if_neg (Nat.not_lt.mpr hle)
  refine (wp_ok hrun).mpr ⟨?_, ⟨?_, fun k hk => ?_⟩⟩
  · rw [addr, List.length_append, STACK_BOTTOM,
      show STACK_TOP = ARG_MAX + (STACK_TOP - ARG_MAX) by decide]
    omega
  · rw [List.length_append]
    simp only
    omega
  · rw [List.length_append] at hk
    simp only
    by_cases hin : k < data.length
    · rw [if_pos (by omega), Nat.add_sub_cancel_left, List.getD_append _ _ _ _ hin]
    · rw [if_neg (by omega), List.getD_append_right _ _ _ _ (Nat.not_lt.mp hin)]
      have hb := h.bytes (k - data.length) (by omega)
      rwa [show s.top + (k - data.length) = s.top - data.length + k by omega] at hb

/-- The strings one behind the other, each with its end. -/
def block (ss : List (List UInt8)) : List UInt8 := ss.flatMap (· ++ [0])

theorem block_cons (c : List UInt8) (ss : List (List UInt8)) :
    block (c :: ss) = c ++ [0] ++ block ss := List.flatMap_cons

/-- Where the strings of a block lie. -/
def addrs : List (List UInt8) → List UInt8 → List Nat
  | [], _ => []
  | c :: ss, l => addr (block (c :: ss) ++ l) :: addrs ss l

theorem endAt_block {pre c rest : List UInt8} (hc : (0 : UInt8) ∉ c) :
    endAt (pre ++ (c ++ [0] ++ rest)) pre.length = pre.length + c.length := by
  rw [endAt, List.drop_left, List.append_assoc, List.takeWhile_append_of_pos]
  · simp
  · intro b hb
    simpa using fun h : b = 0 => hc (h ▸ hb)

/-- **The strings of a block** are pushed so that they lie as in the block. -/
theorem pushStrings_spec (hss : ∀ c ∈ ss, (0 : UInt8) ∉ c) (h : Packed s l)
    (hlen : (block ss ++ l).length ≤ ARG_MAX) (pre : List UInt8) :
    wp (pushStrings (pre ++ block ss) (starts (pre ++ block ss) ss.length pre.length))
      (fun ptrs t => ptrs = addrs ss l ∧ Packed t (block ss ++ l)) (fun _ _ => False) s := by
  induction ss generalizing pre with
  | nil => exact ⟨rfl, h⟩
  | cons c ss ih =>
      have hc := hss c (List.mem_cons_self ..)
      rw [block_cons] at hlen ⊢
      have hend := @endAt_block pre c (block ss) hc
      have hpre : pre ++ (c ++ [0] ++ block ss) = pre ++ (c ++ [0]) ++ block ss := by simp
      rw [List.length_cons, starts, if_pos (by simp), pushStrings, hend]
      have hword : (pre ++ (c ++ [0] ++ block ss)).drop pre.length = c ++ [0] ++ block ss :=
        List.drop_left
      have htake : (c ++ [0] ++ block ss).take (pre.length + c.length - pre.length) = c := by
        rw [Nat.add_sub_cancel_left, List.append_assoc, List.take_left]
      have hrest := ih (fun d hd => hss d (List.mem_cons_of_mem _ hd)) (by simp at hlen ⊢; omega)
        (pre ++ (c ++ [0]))
      have hnext : (pre ++ (c ++ [0])).length = pre.length + c.length + 1 := by simp [Nat.add_assoc]
      rw [← hpre, hnext] at hrest
      rw [hword, htake]
      refine (wp_bind _ _).mpr (wp_mono hrest (fun ptrs t ht => ?_) fun _ _ he => he)
      have hone : ([0] ++ (block ss ++ l)).length ≤ ARG_MAX := by simp at hlen ⊢; omega
      refine (wp_bind _ _).mpr (wp_mono (push_spec ht.2 hone) (fun _ u hu => ?_) fun _ _ he => he)
      have hall : (c ++ ([0] ++ (block ss ++ l))).length ≤ ARG_MAX := by simp at hlen ⊢; omega
      refine (wp_bind _ _).mpr (wp_mono (push_spec hu.2 hall) (fun p v hv => ?_) fun _ _ he => he)
      have hsame : c ++ ([0] ++ (block ss ++ l)) = c ++ [0] ++ block ss ++ l := by simp
      rw [hsame] at hv
      refine ⟨?_, hv.2⟩
      rw [ht.1, hv.1, addrs, block_cons]

theorem length_addrs (ss : List (List UInt8)) (l : List UInt8) :
    (addrs ss l).length = ss.length := by
  induction ss with
  | nil => rfl
  | cons c ss ih => rw [addrs, List.length_cons, List.length_cons, ih]

theorem split_spec (hss : ∀ c ∈ ss, (0 : UInt8) ∉ c) (h : Packed s l)
    (hlen : (block ss ++ l).length ≤ ARG_MAX) :
    wp (split (block ss) ss.length) (fun ptrs t => ptrs = addrs ss l ∧ Packed t (block ss ++ l))
      (fun _ _ => False) s := by
  refine (wp_bind _ _).mpr (wp_mono (pushStrings_spec hss h hlen []) (fun ptrs t ht => ?_)
    fun _ _ he => he)
  obtain ⟨rfl, ht⟩ := ht
  refine ⟨List.ext_getElem (by simp [length_addrs]) fun i hi hi' => ?_, ht⟩
  simp [List.getElem?_eq_getElem hi']

/-! ### The words -/

theorem putWords_spec {vs : List Nat} : ∀ {w : Nat} {s : Packing}, w + 8 * vs.length ≤ ARG_MAX →
    wp (putWords w vs)
      (fun _ t => (∀ i < vs.length, leGet t.buf (w + 8 * i) 8 = wrap (vs.getD i 0)) ∧
        ∀ x, x < w ∨ w + 8 * vs.length ≤ x → t.buf x = s.buf x)
      (fun _ _ => False) s := by
  induction vs with
  | nil => exact fun _ => ⟨fun i hi => absurd hi i.not_lt_zero, fun _ _ => rfl⟩
  | cons v vs ih =>
      intro w s hw
      rw [List.length_cons] at hw
      rw [putWords]
      simp only [wp_bind, wp_get]
      refine wp_ite.mpr ⟨fun hc => absurd hc (by omega), fun _ => ?_⟩
      simp only [wp_bind, wp_set]
      have hrest := @ih (w + 8) ⟨s.top, lePut s.buf w 8 v⟩ (by omega)
      refine wp_mono hrest (fun _ t ht => ⟨fun i hi => ?_, fun x hx => ?_⟩) fun _ _ he => he
      · cases i with
        | zero =>
            have hsame : leGet t.buf w 8 = leGet (lePut s.buf w 8 v) w 8 :=
              leGet_congr fun k hk => ht.2 _ (.inl (by omega))
            rw [Nat.mul_zero, Nat.add_zero, hsame, leGet_lePut, List.getD_cons_zero, wrap,
              show 256 ^ 8 = 2 ^ 64 by decide]
        | succ i =>
            have hi' := ht.1 i (by simpa using hi)
            rw [List.getD_cons_succ, ← hi']
            congr 1
            omega
      · rw [List.length_cons] at hx
        rw [ht.2 x (by omega)]
        exact lePut_outside (by omega)

/-- Arguments whose strings have no end inside. -/
structure Strings extends Args where
  clean : ∀ c ∈ argv ++ envp, (0 : UInt8) ∉ c

namespace Strings

/-- As they are collected. -/
def blocks (a : Strings) : Blocks := ⟨block a.argv, a.argv.length, block a.envp, a.envp.length⟩

variable (a : Strings) (path : List UInt8) (random : Vector UInt8 16)

/-- What lies above the strings of the environment: the 16 bytes, the path and the end. -/
def tail : List UInt8 := random.toList ++ (path ++ ([0] ++ List.replicate 8 0))

/-- Everything that is pushed. -/
def pushed : List UInt8 := block a.argv ++ (block a.envp ++ tail path random)

/-- The number of words at the stack pointer. -/
def words : Nat := 1 + a.argv.length + 1 + a.envp.length + 1 + 2 * (16 + 1)

/-- Where the words start in the buffer. -/
def top : Nat := ((ARG_MAX - (a.pushed path random).length) / 16 * 16 - a.words * 8) / 16 * 16

/-- The words. -/
def vector (img : Image) : List Nat :=
  stackWords (addrs a.argv (block a.envp ++ tail path random)) (addrs a.envp (tail path random))
    (auxv img (addr (tail path random)) (addr (path ++ ([0] ++ List.replicate 8 0))))

theorem length_vector (img : Image) : (a.vector path random img).length = a.words := by
  simp [vector, stackWords, auxv, length_addrs, words]
  omega

theorem pushed_le (h : stackTotal path a.blocks ≤ ARG_MAX) :
    (a.pushed path random).length + 15 + a.words * 8 + 15 ≤ ARG_MAX := by
  simp [stackTotal, blocks, pushed, tail, words] at h ⊢
  omega

end Strings

theorem packStack_spec (old : Nat → UInt8) (img : Image) (path : List UInt8)
    (random : Vector UInt8 16) (a : Strings) (htotal : stackTotal path a.blocks ≤ ARG_MAX) :
    wp (packStack img path random.toList a.blocks)
      (fun w t => w = a.top path random ∧ (a.argv.length ≤ 512 ∧ a.envp.length ≤ 512) ∧
        Holds t.buf (ARG_MAX - (a.pushed path random).length) (a.pushed path random) ∧
        ∀ i < a.words, leGet t.buf (w + 8 * i) 8 = wrap ((a.vector path random img).getD i 0))
      (fun e _ => e = .errno E2BIG ∧ (512 < a.argv.length ∨ 512 < a.envp.length))
      ⟨ARG_MAX, old⟩ := by
  have hfit := a.pushed_le path random htotal
  have hlen : (a.pushed path random).length ≤ ARG_MAX := by omega
  have htail : (block a.envp ++ Strings.tail path random).length ≤ ARG_MAX :=
    le_trans (by simp [Strings.pushed]) hlen
  have hend : (Strings.tail path random).length ≤ ARG_MAX := le_trans (by simp) htail
  have hpath : (path ++ ([0] ++ List.replicate 8 0)).length ≤ ARG_MAX :=
    le_trans (by simp [Strings.tail]) hend
  have hstart : Packed ⟨ARG_MAX, old⟩ [] := ⟨rfl, fun k hk => absurd hk k.not_lt_zero⟩
  unfold packStack
  refine (wp_bind _ _).mpr (wp_mono (push_spec hstart (by simp [ARG_MAX])) (fun _ s hs => ?_)
    fun _ _ he => he.elim)
  rw [List.append_nil] at hs
  refine (wp_bind _ _).mpr (wp_mono (push_spec hs.2 (by simp [ARG_MAX])) (fun _ s hs => ?_)
    fun _ _ he => he.elim)
  refine (wp_bind _ _).mpr (wp_mono (push_spec hs.2 hpath) (fun execfn s hs => ?_)
    fun _ _ he => he.elim)
  obtain ⟨rfl, hs⟩ := hs
  refine (wp_bind _ _).mpr (wp_mono (push_spec hs hend) (fun atRandom s hs => ?_)
    fun _ _ he => he.elim)
  obtain ⟨rfl, hs⟩ := hs
  refine wp_ite.mpr ⟨fun hc => ⟨rfl, hc⟩, fun hfew => ?_⟩
  replace hfew : a.argv.length ≤ 512 ∧ a.envp.length ≤ 512 :=
    (not_or.mp hfew).imp Nat.not_lt.mp Nat.not_lt.mp
  have henv : ∀ c ∈ a.envp, (0 : UInt8) ∉ c := fun c hc => a.clean c (List.mem_append_right _ hc)
  have harg : ∀ c ∈ a.argv, (0 : UInt8) ∉ c := fun c hc => a.clean c (List.mem_append_left _ hc)
  refine (wp_bind _ _).mpr (wp_mono (split_spec henv hs htail) (fun envPtrs s hs => ?_)
    fun _ _ he => he.elim)
  obtain ⟨rfl, hs⟩ := hs
  refine (wp_bind _ _).mpr (wp_mono (split_spec harg hs hlen) (fun argPtrs s hs => ?_)
    fun _ _ he => he.elim)
  obtain ⟨rfl, hs⟩ := hs
  replace hs : Packed s (a.pushed path random) := hs
  have htop := hs.top
  have hs_top : s.top = ARG_MAX - (a.pushed path random).length := by omega
  change wp (if s.top / 16 * 16 < a.words * 8 then throw .panic else do
    putWords ((s.top / 16 * 16 - a.words * 8) / 16 * 16) (a.vector path random img)
    pure ((s.top / 16 * 16 - a.words * 8) / 16 * 16)) _ _ s
  refine wp_ite.mpr ⟨fun hc => absurd hc (by omega), fun _ => ?_⟩
  have hwords := a.length_vector path random img
  refine (wp_bind _ _).mpr (wp_mono (putWords_spec (by rw [hwords]; omega)) (fun _ t ht => ?_)
    fun _ _ he => he.elim)
  rw [hwords] at ht
  refine ⟨by rw [Strings.top, hs_top], hfew, fun k hk => ?_, ht.1⟩
  rw [← hs_top, ← hs.bytes k hk]
  exact ht.2 _ (.inr (by omega))

/-! ### The stack of the process -/

/-- Strings and what they take, with their ends. -/
def extents (ptrs : List Nat) (ss : List (List UInt8)) : List (Nat × Nat) :=
  List.zipWith (fun p c => (p, c.length + 1)) ptrs ss

/-- What lies on the stack: the words, the strings of the arguments and of the environment, the
random bytes and the path. -/
def regions (a : Strings) (path : List UInt8) (sp : Nat) (argPtrs envPtrs : List Nat)
    (atRandom execfn : Nat) : List (Nat × Nat) :=
  (sp, 8 * a.words) :: (extents argPtrs a.argv ++ (extents envPtrs a.envp ++
    [(atRandom, 16), (execfn, path.length + 1)]))

/-- What a program finds at its stack pointer. -/
structure Stacked (img : Image) (path : List UInt8) (random : Vector UInt8 16) (a : Strings)
    (sp : Nat) (argPtrs envPtrs : List Nat) (atRandom execfn : Nat) (m : Nat → UInt8) : Prop where
  aligned : 16 ∣ sp
  words : ∀ i < a.words, leGet m (sp + 8 * i) 8 =
    wrap ((stackWords argPtrs envPtrs (auxv img atRandom execfn)).getD i 0)
  args : List.Forall₂ (CString m) argPtrs a.argv
  env : List.Forall₂ (CString m) envPtrs a.envp
  bytes : Holds m atRandom random.toList
  name : CString m execfn path
  apart : (regions a path sp argPtrs envPtrs atRandom execfn).Pairwise fun r r' => r.1 + r.2 ≤ r'.1
  inside : ∀ r ∈ regions a path sp argPtrs envPtrs atRandom execfn,
    sp ≤ r.1 ∧ r.1 + r.2 ≤ STACK_TOP

theorem strings_lie (hlen : (block ss ++ l).length ≤ STACK_TOP)
    (h : Holds m (addr (block ss ++ l)) (block ss ++ l)) :
    List.Forall₂ (CString m) (addrs ss l) ss := by
  induction ss with
  | nil => exact .nil
  | cons c ss ih =>
      have hsplit : block (c :: ss) ++ l = (c ++ [0]) ++ (block ss ++ l) := by
        rw [block_cons, List.append_assoc]
      refine .cons ?_ (ih ?_ ?_)
      · rw [hsplit] at h ⊢
        exact h.left
      · refine le_trans ?_ hlen
        rw [hsplit, @List.length_append _ (c ++ [0])]
        exact Nat.le_add_left ..
      · rw [hsplit] at h hlen
        exact h.suffix hlen

theorem extents_apart (hlen : (block ss ++ l).length ≤ STACK_TOP) :
    (extents (addrs ss l) ss).Pairwise (fun r r' => r.1 + r.2 ≤ r'.1) ∧
      ∀ r ∈ extents (addrs ss l) ss, addr (block ss ++ l) ≤ r.1 ∧ r.1 + r.2 ≤ addr l := by
  induction ss with
  | nil => exact ⟨.nil, fun r hr => absurd hr List.not_mem_nil⟩
  | cons c ss ih =>
      have hsize : (block (c :: ss) ++ l).length = c.length + 1 + (block ss ++ l).length := by
        rw [block_cons]
        simp only [List.length_append, List.length_cons, List.length_nil]
        omega
      obtain ⟨hpair, hin⟩ := ih (by omega)
      have hl : l.length ≤ (block ss ++ l).length := by simp
      have hcons : extents (addrs (c :: ss) l) (c :: ss) =
          (addr (block (c :: ss) ++ l), c.length + 1) :: extents (addrs ss l) ss := rfl
      have hfirst : addr (block (c :: ss) ++ l) + (c.length + 1) = addr (block ss ++ l) := by
        unfold addr
        omega
      have hbelow : addr (block ss ++ l) ≤ addr l := by
        unfold addr
        omega
      rw [hcons]
      refine ⟨List.pairwise_cons.mpr ⟨fun r hr => hfirst.trans_le (hin r hr).1, hpair⟩,
        fun r hr => ?_⟩
      obtain rfl | hr := List.mem_cons.mp hr
      · exact ⟨Nat.le_refl _, hfirst.trans_le hbelow⟩
      · have hr := hin r hr
        omega

theorem strings_stand {path : List UInt8} {random : Vector UInt8 16} {a : Strings}
    (hfit : (a.pushed path random).length ≤ STACK_TOP)
    (hall : Holds m (addr (a.pushed path random)) (a.pushed path random)) :
    List.Forall₂ (CString m) (addrs a.argv (block a.envp ++ Strings.tail path random)) a.argv ∧
      List.Forall₂ (CString m) (addrs a.envp (Strings.tail path random)) a.envp ∧
      Holds m (addr (Strings.tail path random)) random.toList ∧
      CString m (addr (path ++ ([0] ++ List.replicate 8 0))) path := by
  rw [Strings.pushed] at hfit hall
  have hfitE : (block a.envp ++ Strings.tail path random).length ≤ STACK_TOP := by
    rw [List.length_append] at hfit
    omega
  have hfitT : (Strings.tail path random).length ≤ STACK_TOP := by
    rw [List.length_append] at hfitE
    omega
  have henv := hall.suffix hfit
  have hrest := henv.suffix hfitE
  refine ⟨strings_lie hfit hall, strings_lie hfitE henv, ?_, ?_⟩
  · rw [Strings.tail] at hrest ⊢
    exact hrest.left
  · have hname : Holds m (addr (path ++ ([0] ++ List.replicate 8 (0 : UInt8))))
        (path ++ ([0] ++ List.replicate 8 0)) := by
      rw [Strings.tail] at hrest hfitT
      exact hrest.suffix hfitT
    rw [← List.append_assoc] at hname ⊢
    exact hname.left

theorem regions_apart {path : List UInt8} {random : Vector UInt8 16} {a : Strings} {sp : Nat}
    (hfit : (a.pushed path random).length ≤ STACK_TOP)
    (hvec : sp + 8 * a.words ≤ addr (a.pushed path random)) :
    let rs := regions a path sp (addrs a.argv (block a.envp ++ Strings.tail path random))
      (addrs a.envp (Strings.tail path random)) (addr (Strings.tail path random))
      (addr (path ++ ([0] ++ List.replicate 8 0)))
    rs.Pairwise (fun r r' => r.1 + r.2 ≤ r'.1) ∧ ∀ r ∈ rs, sp ≤ r.1 ∧ r.1 + r.2 ≤ STACK_TOP := by
  intro rs
  obtain ⟨T, hT⟩ : ∃ T, T = Strings.tail path random := ⟨_, rfl⟩
  obtain ⟨P, hP⟩ : ∃ P, P = path ++ ([0] ++ List.replicate 8 (0 : UInt8)) := ⟨_, rfl⟩
  have hlenT : T.length = 16 + P.length := by simp [hT, hP, Strings.tail]
  have hlenP : P.length = path.length + 9 := by simp [hP]
  rw [Strings.pushed, ← hT] at hfit hvec
  have hfitE : (block a.envp ++ T).length ≤ STACK_TOP := by
    rw [List.length_append] at hfit
    omega
  have hfitT : T.length ≤ STACK_TOP := by
    rw [List.length_append] at hfitE
    omega
  obtain ⟨hargs, hargIn⟩ := extents_apart hfit
  obtain ⟨henvs, henvIn⟩ := extents_apart hfitE
  have hET : addr (block a.envp ++ T) ≤ addr T := by
    simp only [addr, List.length_append]
    omega
  have hLE : addr (block a.argv ++ (block a.envp ++ T)) ≤ addr (block a.envp ++ T) := by
    simp only [addr, List.length_append]
    omega
  have hrandom : addr T + 16 = addr P := by
    unfold addr
    omega
  have hfile : addr P + (path.length + 1) ≤ STACK_TOP := by
    unfold addr
    omega
  have hrest : ∀ r ∈ [(addr T, 16), (addr P, path.length + 1)],
      addr T ≤ r.1 ∧ r.1 + r.2 ≤ STACK_TOP := fun r hr => by
    obtain rfl | hr := List.mem_cons.mp hr
    · simp only
      omega
    · obtain rfl := List.mem_singleton.mp hr
      simp only
      omega
  have habove : ∀ r ∈ extents (addrs a.argv (block a.envp ++ T)) a.argv ++
      (extents (addrs a.envp T) a.envp ++ [(addr T, 16), (addr P, path.length + 1)]),
      sp + 8 * a.words ≤ r.1 ∧ r.1 + r.2 ≤ STACK_TOP := fun r hr => by
    have htop : addr T ≤ STACK_TOP := by
      unfold addr
      omega
    obtain hr | hr := List.mem_append.mp hr
    · have := hargIn r hr
      omega
    obtain hr | hr := List.mem_append.mp hr
    · have := henvIn r hr
      omega
    · have := hrest r hr
      omega
  have hrs : rs = (sp, 8 * a.words) :: (extents (addrs a.argv (block a.envp ++ T)) a.argv ++
      (extents (addrs a.envp T) a.envp ++ [(addr T, 16), (addr P, path.length + 1)])) := by
    rw [hT, hP]
    rfl
  rw [hrs]
  refine ⟨List.pairwise_cons.mpr ⟨fun r hr => (habove r hr).1, List.pairwise_append.mpr ⟨hargs,
    List.pairwise_append.mpr ⟨henvs, by simp [hrandom], fun r hr r' hr' => ?_⟩,
    fun r hr r' hr' => ?_⟩⟩, fun r hr => ?_⟩
  · exact (henvIn r hr).2.trans (hrest r' hr').1
  · have hr := hargIn r hr
    obtain hr' | hr' := List.mem_append.mp hr'
    · exact hr.2.trans (henvIn r' hr').1
    · exact hr.2.trans (hET.trans (hrest r' hr').1)
  · obtain rfl | hr := List.mem_cons.mp hr
    · simp only
      unfold addr at hvec
      omega
    · have := habove r hr
      omega

theorem stacked_of_packed {img : Image} {path : List UInt8} {random : Vector UInt8 16}
    {a : Strings} {buf : Nat → UInt8} (htotal : stackTotal path a.blocks ≤ ARG_MAX)
    (hbuf : Holds buf (ARG_MAX - (a.pushed path random).length) (a.pushed path random))
    (hwords : ∀ i < a.words, leGet buf (a.top path random + 8 * i) 8 =
      wrap ((a.vector path random img).getD i 0))
    (hm : ∀ x, STACK_BOTTOM + a.top path random ≤ x → x < STACK_TOP →
      m x = buf (x - STACK_BOTTOM)) :
    Stacked img path random a (STACK_BOTTOM + a.top path random)
      (addrs a.argv (block a.envp ++ Strings.tail path random))
      (addrs a.envp (Strings.tail path random)) (addr (Strings.tail path random))
      (addr (path ++ ([0] ++ List.replicate 8 0))) m := by
  have hfit := a.pushed_le path random htotal
  have hsize : STACK_TOP = ARG_MAX + STACK_BOTTOM := by decide
  have htop : a.top path random + 8 * a.words ≤ ARG_MAX - (a.pushed path random).length := by
    rw [Strings.top]
    omega
  have hvec : STACK_BOTTOM + a.top path random + 8 * a.words ≤ addr (a.pushed path random) := by
    unfold addr
    omega
  have hall : Holds m (addr (a.pushed path random)) (a.pushed path random) := fun k hk => by
    have hx : addr (a.pushed path random) + k - STACK_BOTTOM =
        ARG_MAX - (a.pushed path random).length + k := by
      unfold addr
      omega
    rw [← hbuf k hk, ← hx]
    exact hm _ (by omega) (by unfold addr; omega)
  obtain ⟨hargs, henv, hrandom, hname⟩ := strings_stand (by omega) hall
  obtain ⟨hapart, hinside⟩ := regions_apart (by omega) hvec
  refine ⟨?_, fun i hi => ?_, hargs, henv, hrandom, hname, hapart, hinside⟩
  · exact Nat.dvd_add (by decide) (Dvd.intro_left _ rfl)
  · rw [← Strings.vector, ← hwords i hi, Nat.add_assoc]
    refine leGet_shift fun k hk => ?_
    have hx : STACK_BOTTOM + (a.top path random + 8 * i) + k - STACK_BOTTOM =
        a.top path random + 8 * i + k := by omega
    rw [← hx]
    exact hm _ (by omega) (by omega)

/-- The piece of the process that the buffer is copied to. -/
def stackPiece (sp : Nat) : Piece :=
  ⟨pageOf sp, pageOf sp - STACK_BOTTOM, STACK_TOP - pageOf sp, STACK_TOP - pageOf sp, 3⟩

theorem stackPiece_pages {sp : Nat} (hsp : sp ≤ STACK_TOP) :
    (stackPiece sp).page = sp / PAGE * PAGE ∧
      sp / PAGE + (stackPiece sp).pages = STACK_TOP / PAGE := by
  simp only [stackPiece, Piece.page, Piece.pages, pageOf, STACK_TOP, MMAP_END, PAGE] at hsp ⊢
  omega

theorem stackPiece_copied {sp : Nat} {buf : Nat → UInt8} {u : Filling} (hlo : STACK_BOTTOM ≤ sp)
    (hhi : sp ≤ STACK_TOP) (hok : (fillPages ⟨ARG_MAX, buf⟩ (stackPiece sp) (stackPiece sp).page
      (stackPiece sp).pages u).1 = true) : ∀ x, sp ≤ x → x < STACK_TOP →
    (fillPages ⟨ARG_MAX, buf⟩ (stackPiece sp) (stackPiece sp).page
        (stackPiece sp).pages u).2.mem x = buf (x - STACK_BOTTOM) ∧
      (fillPages ⟨ARG_MAX, buf⟩ (stackPiece sp) (stackPiece sp).page
        (stackPiece sp).pages u).2.Shown (x / PAGE) := by
  intro x hx hx'
  obtain ⟨hpage, hpages⟩ := stackPiece_pages hhi
  have hdone := @fillPages_done ⟨ARG_MAX, buf⟩ (stackPiece sp) (stackPiece sp).pages (sp / PAGE) u
    (by rw [hpages]; decide)
  rw [← hpage] at hdone
  have hbottom : STACK_BOTTOM ≤ pageOf sp := by
    simp only [STACK_BOTTOM, STACK_TOP, MMAP_END, ARG_MAX, pageOf, PAGE] at hlo ⊢
    omega
  have hle : pageOf sp ≤ x := le_trans (Nat.div_mul_le_self sp PAGE) hx
  have hin : sp / PAGE ≤ x / PAGE ∧ x / PAGE < sp / PAGE + (stackPiece sp).pages := by
    rw [hpages]
    simp only [STACK_TOP, MMAP_END, PAGE] at hx' ⊢
    omega
  have hdata : (stackPiece sp).Data x := by
    simp only [stackPiece, Piece.Data]
    omega
  constructor
  · have hm := hdone.mem hok x
    rw [if_pos hin, if_pos hdata] at hm
    refine hm.trans (congrArg buf ?_)
    simp only [stackPiece]
    omega
  · refine (hdone.shown hok _ ?_).mpr (.inr ⟨hin, ?_⟩)
    · simp only [STACK_TOP, MMAP_END, PAGE] at hx' ⊢
      omega
    · exact (rfl : (PageFlags.userProt 3).user = true)

theorem missing_le_cons (t : Tree Nat) (k p : Nat) (ps : List Nat) :
    missing t k ps ≤ missing t k (p :: ps) := by
  refine Finset.card_le_card (Finset.filter_subset_filter _ ?_)
  rw [List.map_cons, List.toFinset_cons]
  exact Finset.subset_insert ..

/-- **A new page** takes a frame and those of the tables that it needs, or there were fewer. -/
theorem newPage_needed (va : Nat) (flags : PageFlags) (ps : List Nat) (l : Load) :
    ((l.newPage va flags).1 = true → (l.newPage va flags).2.pt.needed ps + l.fr.free =
      l.pt.needed (vpn va :: ps) + (l.newPage va flags).2.fr.free + 1) ∧
    ((l.newPage va flags).1 = false → l.fr.free < l.pt.needed (vpn va :: ps) + 1) := by
  unfold Load.newPage
  rcases ha : l.fr.allocFrame with ⟨- | f, fr⟩
  · exact ⟨fun hc => absurd hc Bool.false_ne_true, fun _ => by rw [Frames.free_of_none ha]; omega⟩
  · have hfree := (Frames.free_of_some ha).1
    obtain ⟨hok, hno⟩ := mapPage_needed (vpn va) ⟨f, flags⟩ ps (l.pt, fr)
    simp only
    rcases hm : Load.mapAt (vpn va) ⟨f, flags⟩ { l with fr := fr } with ⟨- | -, t⟩
    · have h₁ : (mapPage (vpn va) ⟨f, flags⟩ (l.pt, fr)).1 = false := congrArg Prod.fst hm
      have := hno h₁
      exact ⟨fun hc => absurd hc Bool.false_ne_true, fun _ => by simp only at this; omega⟩
    · have h₁ : (mapPage (vpn va) ⟨f, flags⟩ (l.pt, fr)).1 = true := congrArg Prod.fst hm
      have h₂ := hok h₁
      have h₃ : t.pt = _ := (congrArg (fun r => r.2.pt) hm).symm
      have h₄ : t.fr = _ := (congrArg (fun r => r.2.fr) hm).symm
      refine ⟨fun _ => ?_, fun hc => absurd hc.symm Bool.false_ne_true⟩
      simp only [h₃, h₄, Load.mapAt] at h₂ ⊢
      omega

/-- **Copying that fails** had too few frames for the pages and the tables that they need. -/
theorem fillPages_short (file : File) (q : Piece) : ∀ {n p : Nat} {s : Filling}, p + n ≤ 2 ^ 36 →
    (fillPages file q (p * PAGE) n s).1 = false →
      s.load.fr.free < s.load.pt.needed (List.range' p n) + n := by
  intro n
  induction n with
  | zero => exact fun _ h => absurd h.symm Bool.false_ne_true
  | succ n ih =>
      intro p s hp h
      have hv : vpn (p * PAGE) = p := vpn_page (by omega)
      have hnext : p * PAGE + PAGE = (p + 1) * PAGE := (Nat.succ_mul ..).symm
      rw [List.range'_succ]
      rw [fillPages, fillPage] at h
      cases hs : s.load.pt.translateUser (p * PAGE) false with
      | some f =>
          simp only [hs, hnext] at h
          have hrest := ih (by omega) h
          have hle : s.load.pt.needed (List.range' (p + 1) n) ≤
              s.load.pt.needed (p :: List.range' (p + 1) n) :=
            Nat.add_le_add (Nat.add_le_add (missing_le_cons ..) (missing_le_cons ..))
              (missing_le_cons ..)
          refine Nat.lt_of_lt_of_le hrest ?_
          change s.load.pt.needed _ + n ≤ _
          omega
      | none =>
          simp only [hs, hnext] at h
          have hpage := newPage_needed (p * PAGE) (.userProt q.prot) (List.range' (p + 1) n) s.load
          rw [hv] at hpage
          rcases hn : s.load.newPage (p * PAGE) (.userProt q.prot) with ⟨- | -, l⟩ <;>
            rw [hn] at hpage h
          · have := hpage.2 rfl
            omega
          · have hrest := ih (by omega) h
            change l.fr.free < l.pt.needed _ + n at hrest
            have := hpage.1 rfl
            simp only at this
            omega

theorem wp_allocContig {Q : Nat → Load → Prop} {E : Fail → Load → Prop} {k e : Nat} {l : Load}
    (h : ∀ b fr, l.fr.allocContig k = (some b, fr) → Q b { l with fr := fr })
    (he : (∀ b fr, l.fr.allocContig k ≠ (some b, fr)) → E (.errno e) l) :
    wp (allocContig k e) Q E l := by
  rcases hf : l.fr.allocContig k with ⟨- | b, fr⟩
  · have hrun : allocContig k e l = .error (.errno e) l := by rw [allocContig, hf]
    refine (wp_error hrun).mpr (he fun b fr' hc => ?_)
    exact Option.some_ne_none b (Prod.mk.inj (hc.symm.trans hf)).1
  · have hrun : allocContig k e l = .ok b { l with fr := fr } := by rw [allocContig, hf]
    exact (wp_ok hrun).mpr (h b fr hf)

/-- There is no run of frames for the buffer; or, with it, too few are free for the pages from `sp` to
the end of the stack and for their tables. -/
def Load.Scarce (l : Load) (sp : Nat) : Prop :=
  ∀ b fr, l.fr.allocContig (ARG_MAX / PAGE) = (some b, fr) →
    fr.free < l.pt.needed (List.range' (sp / PAGE) (stackPiece sp).pages) + (stackPiece sp).pages

/-- **What a program finds on its stack**: the call ends with too many arguments or where frames are
missing, or all of it lies there. -/
theorem fillStack_lays (old : Nat → UInt8) (img : Image) (path : List UInt8)
    (random : Vector UInt8 16) (a : Strings) (s : Filling) :
    wp (fillStack old img path random.toList a.blocks)
      (fun sp t => (∃ argPtrs envPtrs atRandom execfn,
          Stacked img path random a sp argPtrs envPtrs atRandom execfn t.mem) ∧
        ∀ x, sp ≤ x → x < STACK_TOP → t.Shown (x / PAGE))
      (fun e _ => e = .errno E2BIG ∧ (ARG_MAX < stackTotal path a.blocks ∨
          512 < a.argv.length ∨ 512 < a.envp.length) ∨
        e = .errno ENOSPC ∧ s.load.Scarce (STACK_BOTTOM + a.top path random)) s := by
  unfold fillStack
  refine wp_ite.mpr ⟨fun hc => .inl ⟨rfl, .inl hc⟩, fun htotal => ?_⟩
  replace htotal := Nat.not_lt.mp htotal
  refine (wp_bind _ _).mpr ((wp_zoom _ _ _).mpr (wp_allocContig (fun buf fr hfr => ?_)
    fun hno => .inr ⟨rfl, fun b fr hc => absurd hc (hno b fr)⟩))
  have hpack := packStack_spec old img path random a htotal
  rcases hp : packStack img path random.toList a.blocks ⟨ARG_MAX, old⟩ with ⟨w, t⟩ | ⟨e, t⟩
  · obtain ⟨rfl, -, hbuf, hwords⟩ := hpack.ok hp
    have hfit := a.pushed_le path random htotal
    have htop : a.top path random ≤ ARG_MAX := by
      unfold Strings.top
      omega
    have hsize : STACK_TOP = ARG_MAX + STACK_BOTTOM := by decide
    obtain ⟨sp, hsp⟩ : ∃ sp, sp = STACK_BOTTOM + a.top path random := ⟨_, rfl⟩
    simp only
    rw [← hsp]
    refine (wp_bind _ _).mpr ?_
    change wp _ _ _ (fillPages ⟨ARG_MAX, t.buf⟩ (stackPiece sp) (stackPiece sp).page
      (stackPiece sp).pages _).2
    simp only [wp_bind, wp_modify]
    refine wp_ite.mpr ⟨fun hok => ?_, fun hno => .inr ⟨rfl, fun b fr' hc => ?_⟩⟩
    · have hcopied := stackPiece_copied (by omega) (by omega) hok
      refine ⟨?_, fun x hx hx' => (hcopied x hx hx').2⟩
      rw [hsp] at hcopied ⊢
      exact ⟨_, _, _, _, stacked_of_packed htotal hbuf hwords fun x hx hx' => (hcopied x hx hx').1⟩
    · obtain ⟨hpage, hpages⟩ := stackPiece_pages (by omega : sp ≤ STACK_TOP)
      obtain ⟨-, rfl⟩ := Prod.mk.inj (hfr.symm.trans hc)
      change ¬ (fillPages _ _ (stackPiece sp).page (stackPiece sp).pages _).1 = true at hno
      rw [hpage] at hno
      exact fillPages_short _ _ (by rw [hpages]; decide) (Bool.not_eq_true _ ▸ hno)
  · obtain ⟨rfl, hmany⟩ := hpack.error hp
    exact .inl ⟨rfl, .inr hmany⟩

/-- One argument, and one variable of the environment. -/
def someStrings : Strings := ⟨⟨[[97]], [[66, 61]]⟩, by decide⟩

/-- A machine of 64 frames, for a program without pages. -/
def roomy : Filling := ⟨⟨.empty, .boot 64 fun _ => false, []⟩, fun _ => 0, false⟩

theorem someStrings_top :
    STACK_BOTTOM + someStrings.top [97] (Vector.replicate 16 0) = 270582939296 := by
  simp [Strings.top, Strings.pushed, Strings.words, Strings.tail, someStrings, block, ARG_MAX,
    STACK_BOTTOM, STACK_TOP, MMAP_END]

theorem roomy_not_scarce : ¬ roomy.load.Scarce 270582939296 := by
  have hfind : (List.range (Frames.boot 64 fun _ => false).n).find? (fun b =>
      (List.range' b (ARG_MAX / PAGE)).all (Frames.boot 64 fun _ => false).isFree) = some 0 := by
    decide
  have hgive : (Frames.boot 64 fun _ => false).allocContig (ARG_MAX / PAGE) = (some 0,
      (List.range' 0 (ARG_MAX / PAGE)).foldl (fun s f => s.setUsed f) (.boot 64 fun _ => false)) := by
    rw [Frames.allocContig, if_neg (by decide), if_neg (by decide), hfind]
  have htake := @Frames.free_take 0 (ARG_MAX / PAGE) (.boot 64 fun _ => false) (by decide)
  have hfree : (Frames.boot 64 fun _ => false).free = 64 := by decide
  have hneed : Pt.empty.needed (List.range' (270582939296 / PAGE)
      (stackPiece 270582939296).pages) + (stackPiece 270582939296).pages = 4 := by decide
  have hpages : ARG_MAX / PAGE = 32 := rfl
  intro h
  have hlt := lt_of_lt_of_eq (h 0 _ hgive) hneed
  rw [hfree] at htake
  omega

/-- With frames for the buffer, for the page and for its tables, the program gets its stack. -/
theorem fillStack_lays_some :
    ∃ sp t, fillStack (fun _ => 0) ⟨0, 0, 0, 0, 0, 0, []⟩ [97] (Vector.replicate 16 0).toList
        someStrings.blocks roomy = .ok sp t ∧
      ∃ argPtrs envPtrs atRandom execfn, Stacked ⟨0, 0, 0, 0, 0, 0, []⟩ [97]
        (Vector.replicate 16 0) someStrings sp argPtrs envPtrs atRandom execfn t.mem := by
  have hfew : ¬ (ARG_MAX < stackTotal [97] someStrings.blocks ∨ 512 < someStrings.argv.length ∨
      512 < someStrings.envp.length) := by
    simp [stackTotal, someStrings, ARG_MAX, Strings.blocks, block]
  -- the machine has a name, so that nothing runs
  obtain ⟨s, hs⟩ : ∃ s, s = roomy := ⟨_, rfl⟩
  have hroom : ¬ s.load.Scarce 270582939296 := hs ▸ roomy_not_scarce
  rw [← hs]
  refine wp.returns (wp_mono (fillStack_lays _ _ _ _ _ s) (fun _ _ h => h.1) fun e t h => ?_)
  rw [someStrings_top] at h
  exact h.elim (fun h => hfew h.2) fun h => hroom h.2

/-- A program without arguments. -/
def noStrings : Strings := ⟨⟨[], []⟩, fun _ hc => absurd hc List.not_mem_nil⟩

/-- **Without frames for the buffer** there is no stack, and not too many arguments either. -/
theorem fillStack_starved :
    ¬ wp (fillStack (fun _ => 0) ⟨0, 0, 0, 0, 0, 0, []⟩ [] (Vector.replicate 16 0).toList
        noStrings.blocks)
      (fun sp t => ∃ argPtrs envPtrs atRandom execfn, Stacked ⟨0, 0, 0, 0, 0, 0, []⟩ []
        (Vector.replicate 16 0) noStrings sp argPtrs envPtrs atRandom execfn t.mem)
      (fun e _ => e = .errno E2BIG) bareSpace := by
  have hrun : ∃ t, fillStack (fun _ => 0) ⟨0, 0, 0, 0, 0, 0, []⟩ [] (Vector.replicate 16 0).toList
      noStrings.blocks bareSpace = .error (.errno ENOSPC) t := ⟨_, by with_unfolding_all rfl⟩
  obtain ⟨t, ht⟩ := hrun
  intro h
  exact absurd ((wp_error ht).mp h) (by decide)

end Pulsar.Vm

import Mathlib.Algebra.Order.Ring.Nat
import Mathlib.Algebra.Ring.Nat
import Pulsar.Lib.Bytes

/-!
# Memory by words

`memcpy`, `memmove`, `memset` and `memcmp` of the C library, which work on words of 64 bits as far
as the alignment of their arguments allows, beside what they are byte by byte.

An address is a natural number: an object ends inside the address space, so that no pointer into it
wraps.  `p & 7` is the remainder of `p` by 8.

* `memory_bytewise`: each of the four has the effect of its definition byte by byte, for all
  addresses, alignments and lengths, and, for `memmove`, all overlaps.
-/

namespace Pulsar.Libc

/-! ### Words -/

theorem leGet_byte (d : Nat → UInt8) : ∀ {n off i : Nat}, i < n →
    UInt8.ofNat (leGet d off n / 256 ^ i) = d (off + i)
  | n + 1, off, 0, _ => by
      apply UInt8.toNat_inj.mp
      have := (d off).toNat_lt
      simp only [leGet, Nat.pow_zero, Nat.div_one, Nat.add_zero, UInt8.toNat_ofNat']
      omega
  | n + 1, off, i + 1, h => by
      have hdrop : leGet d off (n + 1) / 256 = leGet d (off + 1) n := by
        have := (d off).toNat_lt
        simp only [leGet]
        omega
      rw [Nat.pow_succ', ← Nat.div_div_eq_div_mul, hdrop, leGet_byte d (Nat.lt_of_succ_lt_succ h),
        Nat.add_assoc, Nat.add_comm 1]

theorem lePut_leGet (d d' : Nat → UInt8) (off off' n : Nat) :
    lePut d off n (leGet d' off' n) = blit d off n fun i => d' (off' + i) := by
  funext x
  unfold lePut blit
  split
  · exact leGet_byte d' (by omega)
  · rfl

theorem eq_of_leGet_eq {d d' : Nat → UInt8} {off off' n i : Nat}
    (h : leGet d off n = leGet d' off' n) (hi : i < n) : d (off + i) = d' (off' + i) := by
  rw [← leGet_byte d hi, ← leGet_byte d' hi, h]

/-! ### Loops -/

/-- The bytes up to the next multiple of `w` get fewer. -/
theorem pad_lt {p w : Nat} (hw : 0 < w) (h : p % w ≠ 0) :
    (w - (p + 1) % w) % w < (w - p % w) % w := by
  have hr := Nat.mod_lt p hw
  rw [Nat.mod_eq_of_lt (a := w - p % w) (by omega)]
  rcases Nat.lt_or_ge (p % w + 1) w with hlt | hge
  · have hs : (p + 1) % w = p % w + 1 := by
      rw [Nat.add_mod, Nat.mod_eq_of_lt (a := 1) (by omega), Nat.mod_eq_of_lt hlt]
    rw [hs, Nat.mod_eq_of_lt (by omega)]
    omega
  · have hs : (p + 1) % w = 0 := by
      have hone : 1 < w ∨ w = 1 := by omega
      rcases hone with hone | rfl
      · rw [Nat.add_mod, Nat.mod_eq_of_lt (a := 1) hone, Nat.le_antisymm (by omega) hge,
          Nat.mod_self]
      · exact Nat.mod_one _
    rw [hs, Nat.sub_zero, Nat.mod_self]
    omega

/-- The loops that copy: memory, the two pointers and the bytes that are left. -/
structure Cursor where
  m : Nat → UInt8
  dd : Nat
  ss : Nat
  n : Nat

namespace Cursor

/-- `*dd++ = *ss++; n--`. -/
def byte (c : Cursor) : Cursor :=
  ⟨fun x => if x = c.dd then c.m c.ss else c.m x, c.dd + 1, c.ss + 1, c.n - 1⟩

/-- `*(w64*)dd = *(const w64*)ss`, or with words of `w` bytes. -/
def word (w : Nat) (c : Cursor) : Cursor :=
  ⟨lePut c.m c.dd w (leGet c.m c.ss w), c.dd + w, c.ss + w, c.n - w⟩

/-- Four words, read before the first is written. -/
def quad (c : Cursor) : Cursor :=
  let a := leGet c.m c.ss 8
  let b := leGet c.m (c.ss + 8) 8
  let d := leGet c.m (c.ss + 16) 8
  let e := leGet c.m (c.ss + 24) 8
  ⟨lePut (lePut (lePut (lePut c.m c.dd 8 a) (c.dd + 8) 8 b) (c.dd + 16) 8 d) (c.dd + 24) 8 e,
    c.dd + 32, c.ss + 32, c.n - 32⟩

def head (w : Nat) [NeZero w] (c : Cursor) : Cursor :=
  if c.dd % w ≠ 0 then head w c.byte else c
termination_by (w - c.dd % w) % w
decreasing_by exact pad_lt (NeZero.pos w) ‹_›

def quads (c : Cursor) : Cursor :=
  if c.n ≥ 32 then quads c.quad else c
termination_by c.n
decreasing_by simp only [quad]; omega

def words (w : Nat) [NeZero w] (c : Cursor) : Cursor :=
  if c.n ≥ w then words w (c.word w) else c
termination_by c.n
decreasing_by have := NeZero.pos w; simp only [word]; omega

def bytes (c : Cursor) : Cursor :=
  if c.n ≠ 0 then bytes c.byte else c
termination_by c.n
decreasing_by simp only [byte]; omega

/-- `*--dd = *--ss; n--`. -/
def byteBack (c : Cursor) : Cursor :=
  ⟨fun x => if x = c.dd - 1 then c.m (c.ss - 1) else c.m x, c.dd - 1, c.ss - 1, c.n - 1⟩

def wordBack (c : Cursor) : Cursor :=
  ⟨lePut c.m (c.dd - 8) 8 (leGet c.m (c.ss - 8) 8), c.dd - 8, c.ss - 8, c.n - 8⟩

def headBack (c : Cursor) : Cursor :=
  if c.dd % 8 ≠ 0 then headBack c.byteBack else c
termination_by c.dd % 8
decreasing_by simp only [byteBack]; omega

def wordsBack (c : Cursor) : Cursor :=
  if c.n ≥ 8 then wordsBack c.wordBack else c
termination_by c.n
decreasing_by simp only [wordBack]; omega

def bytesBack (c : Cursor) : Cursor :=
  if c.n ≠ 0 then bytesBack c.byteBack else c
termination_by c.n
decreasing_by simp only [byteBack]; omega

end Cursor

/-- The memory after `memcpy` and what it returns. -/
def memcpy (m : Nat → UInt8) (d s n : Nat) : (Nat → UInt8) × Nat :=
  let c : Cursor := ⟨m, d, s, n⟩
  let c :=
    if n ≥ 16 ∧ (d ^^^ s) % 8 = 0 then ((c.head 8).quads).words 8
    else if n ≥ 16 ∧ (d ^^^ s) % 4 = 0 then (c.head 4).words 4
    else c
  (c.bytes.m, d)

def memmove (m : Nat → UInt8) (d s n : Nat) : (Nat → UInt8) × Nat :=
  if d = s ∨ n = 0 then (m, d)
  else if d < s ∨ d ≥ s + n then memcpy m d s n
  else
    let c : Cursor := ⟨m, d + n, s + n, n⟩
    let c := if n ≥ 16 ∧ ((d + n) ^^^ (s + n)) % 8 = 0 then c.headBack.wordsBack else c
    (c.bytesBack.m, d)

/-- The loops of `memset`. -/
structure Filler where
  m : Nat → UInt8
  dd : Nat
  n : Nat

namespace Filler

/-- `*dd++ = v; n--`. -/
def byte (v : UInt8) (c : Filler) : Filler :=
  ⟨fun x => if x = c.dd then v else c.m x, c.dd + 1, c.n - 1⟩

def word (w : Nat) (c : Filler) : Filler := ⟨lePut c.m c.dd 8 w, c.dd + 8, c.n - 8⟩

def quad (w : Nat) (c : Filler) : Filler :=
  ⟨lePut (lePut (lePut (lePut c.m c.dd 8 w) (c.dd + 8) 8 w) (c.dd + 16) 8 w) (c.dd + 24) 8 w,
    c.dd + 32, c.n - 32⟩

def head (v : UInt8) (c : Filler) : Filler :=
  if c.dd % 8 ≠ 0 then head v (c.byte v) else c
termination_by (8 - c.dd % 8) % 8
decreasing_by exact pad_lt (by decide) ‹_›

def quads (w : Nat) (c : Filler) : Filler :=
  if c.n ≥ 32 then quads w (c.quad w) else c
termination_by c.n
decreasing_by simp only [quad]; omega

def words (w : Nat) (c : Filler) : Filler :=
  if c.n ≥ 8 then words w (c.word w) else c
termination_by c.n
decreasing_by simp only [word]; omega

def bytes (v : UInt8) (c : Filler) : Filler :=
  if c.n ≠ 0 then bytes v (c.byte v) else c
termination_by c.n
decreasing_by simp only [byte]; omega

end Filler

def memset (m : Nat → UInt8) (d : Nat) (c : Int) (n : Nat) : (Nat → UInt8) × Nat :=
  let v := UInt8.ofInt c
  let f : Filler := ⟨m, d, n⟩
  let w := v.toNat * 0x0101010101010101 % 2 ^ 64
  let f := if n ≥ 16 then ((f.head v).quads w).words w else f
  ((f.bytes v).m, d)

/-- `for(i<n) if(x[i]!=y[i]) return x[i]-y[i]; return 0`. -/
def memcmpBytes (m : Nat → UInt8) (x y : Nat) : Nat → Int
  | 0 => 0
  | n + 1 => if m x ≠ m y then (m x).toNat - (m y).toNat else memcmpBytes m (x + 1) (y + 1) n

/-- The first loop of `memcmp`: the pointers and the length after it, or the answer. -/
def cmpHead (m : Nat → UInt8) (x y : Nat) : Nat → Except Int (Nat × Nat × Nat)
  | 0 => .ok (x, y, 0)
  | n + 1 =>
    if x % 8 ≠ 0 then
      if m x ≠ m y then .error ((m x).toNat - (m y).toNat) else cmpHead m (x + 1) (y + 1) n
    else .ok (x, y, n + 1)

def cmpWords (m : Nat → UInt8) (x y n : Nat) : Nat × Nat × Nat :=
  if n ≥ 8 ∧ leGet m x 8 = leGet m y 8 then cmpWords m (x + 8) (y + 8) (n - 8) else (x, y, n)
termination_by n

def memcmp (m : Nat → UInt8) (a b n : Nat) : Int :=
  if n ≥ 16 ∧ (a ^^^ b) % 8 = 0 then
    match cmpHead m a b n with
    | .error r => r
    | .ok (x, y, n) =>
      let (x, y, n) := cmpWords m x y n
      memcmpBytes m x y n
  else memcmpBytes m a b n

/-! ### Copies -/

/-- A copy that has gone forward: `c` is after its first `k` bytes. -/
def Forward (m : Nat → UInt8) (d s n : Nat) (c : Cursor) : Prop :=
  ∃ k ≤ n, c = ⟨blit m d k fun i => m (s + i), d + k, s + k, n - k⟩

/-- A copy that has gone back: `k` bytes are left. -/
def Backward (m : Nat → UInt8) (d s n : Nat) (c : Cursor) : Prop :=
  ∃ k ≤ n, c = ⟨blit m (d + k) (n - k) fun i => m (s + k + i), d + k, s + k, k⟩

namespace Cursor

theorem byte_eq (c : Cursor) :
    c.byte = ⟨blit c.m c.dd 1 fun i => c.m (c.ss + i), c.dd + 1, c.ss + 1, c.n - 1⟩ := by
  unfold byte
  congr 1
  funext x
  rcases eq_or_ne x c.dd with rfl | hx
  · simp [blit]
  · rw [if_neg hx, blit_outside (by omega)]

theorem word_eq (w : Nat) (c : Cursor) :
    c.word w = ⟨blit c.m c.dd w fun i => c.m (c.ss + i), c.dd + w, c.ss + w, c.n - w⟩ := by
  rw [word, lePut_leGet]

theorem quad_eq (c : Cursor) :
    c.quad = ⟨blit c.m c.dd 32 fun i => c.m (c.ss + i), c.dd + 32, c.ss + 32, c.n - 32⟩ := by
  have h : ∀ (m : Nat → UInt8) (k : Nat), lePut (blit m c.dd k fun i => c.m (c.ss + i)) (c.dd + k) 8
      (leGet c.m (c.ss + k) 8) = blit m c.dd (k + 8) fun i => c.m (c.ss + i) := fun m k => by
    rw [lePut_leGet, blit_blit (fun i _ => rfl) fun i _ => by rw [Nat.add_assoc]]
  simp only [quad, lePut_leGet c.m c.m, h]

end Cursor

variable {m : Nat → UInt8} {d s n : Nat} {c : Cursor}

namespace Forward

/-- A step of `w` bytes.  What it reads is not yet written. -/
theorem step (h : Forward m d s n c) (ha : d ≤ s ∨ s + n ≤ d) {w : Nat} (hw : w ≤ c.n) :
    Forward m d s n ⟨blit c.m c.dd w fun i => c.m (c.ss + i), c.dd + w, c.ss + w, c.n - w⟩ := by
  obtain ⟨k, hk, rfl⟩ := h
  dsimp only at hw ⊢
  refine ⟨k + w, by omega, ?_⟩
  have hread : ∀ i < w, m (s + (k + i)) = blit m d k (fun i => m (s + i)) (s + k + i) :=
    fun i hi => by rw [blit_outside (by omega), Nat.add_assoc]
  rw [blit_blit (fun i _ => rfl) hread, Nat.add_assoc, Nat.add_assoc, Nat.sub_sub]

theorem head (h : Forward m d s n c) (ha : d ≤ s ∨ s + n ≤ d) {w : Nat} [NeZero w]
    (hw : (w - c.dd % w) % w ≤ c.n) : Forward m d s n (c.head w) := by
  fun_induction Cursor.head w c with
  | case1 c hc ih =>
      have hlt := pad_lt (NeZero.pos w) hc
      refine ih ?_ (by simp only [Cursor.byte]; omega)
      rw [Cursor.byte_eq]
      exact h.step ha (by omega)
  | case2 => exact h

theorem quads (h : Forward m d s n c) (ha : d ≤ s ∨ s + n ≤ d) : Forward m d s n c.quads := by
  fun_induction Cursor.quads c with
  | case1 c hc ih => exact ih (by rw [Cursor.quad_eq]; exact h.step ha hc)
  | case2 => exact h

theorem words (h : Forward m d s n c) (ha : d ≤ s ∨ s + n ≤ d) {w : Nat} [NeZero w] :
    Forward m d s n (c.words w) := by
  fun_induction Cursor.words w c with
  | case1 c hc ih => exact ih (by rw [Cursor.word_eq]; exact h.step ha hc)
  | case2 => exact h

theorem bytes (h : Forward m d s n c) (ha : d ≤ s ∨ s + n ≤ d) :
    c.bytes.m = blit m d n fun i => m (s + i) := by
  fun_induction Cursor.bytes c with
  | case1 c hc ih => exact ih (by rw [Cursor.byte_eq]; exact h.step ha (Nat.pos_of_ne_zero hc))
  | case2 c hc =>
      obtain ⟨k, hk, rfl⟩ := h
      obtain rfl : k = n := by
        have : ¬ n - k ≠ 0 := hc
        omega
      rfl

end Forward

theorem memcpy_eq (ha : d ≤ s ∨ s + n ≤ d) :
    memcpy m d s n = (blit m d n fun i => m (s + i), d) := by
  have h0 : Forward m d s n ⟨m, d, s, n⟩ := ⟨0, Nat.zero_le _, by rw [blit_nothing]; rfl⟩
  unfold memcpy
  dsimp only
  split_ifs with h8 h4
  · have hhead := h0.head ha (w := 8) (show (8 - d % 8) % 8 ≤ n by omega)
    rw [((hhead.quads ha).words ha).bytes ha]
  · have hhead := h0.head ha (w := 4) (show (4 - d % 4) % 4 ≤ n by omega)
    rw [(hhead.words ha).bytes ha]
  · rw [h0.bytes ha]

namespace Cursor

theorem byteBack_eq (hd : 0 < c.dd) :
    c.byteBack =
      ⟨blit c.m (c.dd - 1) 1 fun i => c.m (c.ss - 1 + i), c.dd - 1, c.ss - 1, c.n - 1⟩ := by
  unfold byteBack
  congr 1
  funext x
  rcases eq_or_ne x (c.dd - 1) with rfl | hx
  · simp [blit]
  · rw [if_neg hx, blit_outside (by omega)]

theorem wordBack_eq (c : Cursor) :
    c.wordBack =
      ⟨blit c.m (c.dd - 8) 8 fun i => c.m (c.ss - 8 + i), c.dd - 8, c.ss - 8, c.n - 8⟩ := by
  rw [wordBack, lePut_leGet]

end Cursor

namespace Backward

/-- A step of `w` bytes.  What it reads is before all that is written. -/
theorem step (h : Backward m d s n c) (hlt : s < d) {w : Nat} (hw : w ≤ c.n) :
    Backward m d s n
      ⟨blit c.m (c.dd - w) w fun i => c.m (c.ss - w + i), c.dd - w, c.ss - w, c.n - w⟩ := by
  obtain ⟨k, hk, rfl⟩ := h
  dsimp only at hw ⊢
  obtain ⟨k, rfl⟩ := Nat.exists_eq_add_of_le' hw
  refine ⟨k, by omega, ?_⟩
  have hd : d + (k + w) - w = d + k := by omega
  have hs : s + (k + w) - w = s + k := by omega
  rw [hd, hs, Nat.add_sub_cancel]
  congr 1
  funext x
  by_cases hin : d + k ≤ x ∧ x < d + k + w
  · obtain ⟨i, rfl⟩ := Nat.exists_eq_add_of_le hin.1
    rw [blit_inside (by omega), blit_inside (by omega), blit_outside (by omega)]
  · rw [blit_outside (by omega)]
    unfold blit
    split_ifs with h1 h2 h2
    · exact congrArg m (by omega)
    · omega
    · omega
    · rfl

theorem head (h : Backward m d s n c) (hlt : s < d) (hn : c.dd % 8 ≤ c.n) :
    Backward m d s n c.headBack := by
  fun_induction Cursor.headBack c with
  | case1 c hc ih =>
      refine ih ?_ (by simp only [Cursor.byteBack]; omega)
      rw [Cursor.byteBack_eq (by omega)]
      exact h.step hlt (by omega)
  | case2 => exact h

theorem words (h : Backward m d s n c) (hlt : s < d) : Backward m d s n c.wordsBack := by
  fun_induction Cursor.wordsBack c with
  | case1 c hc ih => exact ih (by rw [Cursor.wordBack_eq]; exact h.step hlt hc)
  | case2 => exact h

theorem bytes (h : Backward m d s n c) (hlt : s < d) :
    c.bytesBack.m = blit m d n fun i => m (s + i) := by
  fun_induction Cursor.bytesBack c with
  | case1 c hc ih =>
      have hd : 0 < c.dd := by
        obtain ⟨k, -, rfl⟩ := h
        dsimp only
        omega
      exact ih (by rw [Cursor.byteBack_eq hd]; exact h.step hlt (Nat.pos_of_ne_zero hc))
  | case2 c hc =>
      obtain ⟨k, hk, rfl⟩ := h
      obtain rfl : k = 0 := by
        have : ¬ k ≠ 0 := hc
        omega
      rfl

end Backward

theorem memmove_eq (m : Nat → UInt8) (d s n : Nat) :
    memmove m d s n = (blit m d n fun i => m (s + i), d) := by
  unfold memmove
  by_cases h0 : d = s ∨ n = 0
  · have hsame : (blit m d n fun i => m (s + i)) = m := by
      funext x
      unfold blit
      split
      · exact congrArg m (by omega)
      · rfl
    rw [if_pos h0, hsame]
  rw [if_neg h0]
  by_cases h1 : d < s ∨ d ≥ s + n
  · rw [if_pos h1]
    exact memcpy_eq (by omega)
  rw [if_neg h1]
  have hback : Backward m d s n ⟨m, d + n, s + n, n⟩ :=
    ⟨n, Nat.le_refl n, by rw [Nat.sub_self, blit_nothing]⟩
  have hlt : s < d := by omega
  dsimp only
  split_ifs with h8
  · have hhead := hback.head hlt (show (d + n) % 8 ≤ n by omega)
    rw [(hhead.words hlt).bytes hlt]
  · rw [hback.bytes hlt]

/-! ### Fills -/

/-- A fill whose first `k` bytes are done. -/
def Filled (m : Nat → UInt8) (d n : Nat) (v : UInt8) (c : Filler) : Prop :=
  ∃ k ≤ n, c = ⟨blit m d k fun _ => v, d + k, n - k⟩

/-- Eight times the byte `v`. -/
theorem lePut_fill (m : Nat → UInt8) (d : Nat) (v : UInt8) :
    lePut m d 8 (v.toNat * 0x0101010101010101 % 2 ^ 64) = blit m d 8 fun _ => v := by
  have hv := v.toNat_lt
  have hword : v.toNat * 0x0101010101010101 % 2 ^ 64 = leGet (fun _ => v) 0 8 := by
    simp only [leGet]
    omega
  rw [hword, lePut_leGet]

namespace Filler

theorem byte_eq (v : UInt8) (c : Filler) :
    c.byte v = ⟨blit c.m c.dd 1 fun _ => v, c.dd + 1, c.n - 1⟩ := by
  unfold byte
  congr 1
  funext x
  rcases eq_or_ne x c.dd with rfl | hx
  · simp [blit]
  · rw [if_neg hx, blit_outside (by omega)]

end Filler

namespace Filled

variable {v : UInt8} {f : Filler}

theorem step (h : Filled m d n v f) {w : Nat} (hw : w ≤ f.n) :
    Filled m d n v ⟨blit f.m f.dd w fun _ => v, f.dd + w, f.n - w⟩ := by
  obtain ⟨k, hk, rfl⟩ := h
  dsimp only at hw ⊢
  refine ⟨k + w, by omega, ?_⟩
  rw [blit_blit (fun i _ => rfl) (fun i _ => rfl), Nat.add_assoc, Nat.sub_sub]

theorem head (h : Filled m d n v f) (hw : (8 - f.dd % 8) % 8 ≤ f.n) :
    Filled m d n v (f.head v) := by
  fun_induction Filler.head v f with
  | case1 f hc ih =>
      have hlt := pad_lt (w := 8) (by decide) hc
      refine ih ?_ (by simp only [Filler.byte]; omega)
      rw [Filler.byte_eq]
      exact h.step (by omega)
  | case2 => exact h

theorem quads (h : Filled m d n v f) :
    Filled m d n v (f.quads (v.toNat * 0x0101010101010101 % 2 ^ 64)) := by
  fun_induction Filler.quads _ f with
  | case1 f hc ih =>
      have hput : ∀ (m : Nat → UInt8) (k : Nat), lePut (blit m f.dd k fun _ => v) (f.dd + k) 8
          (v.toNat * 0x0101010101010101 % 2 ^ 64) = blit m f.dd (k + 8) fun _ => v := fun m k => by
        rw [lePut_fill, blit_blit (fun i _ => rfl) (fun i _ => rfl)]
      refine ih ?_
      simp only [Filler.quad, lePut_fill f.m, hput]
      exact h.step hc
  | case2 => exact h

theorem words (h : Filled m d n v f) :
    Filled m d n v (f.words (v.toNat * 0x0101010101010101 % 2 ^ 64)) := by
  fun_induction Filler.words _ f with
  | case1 f hc ih => exact ih (by rw [Filler.word, lePut_fill]; exact h.step hc)
  | case2 => exact h

theorem bytes (h : Filled m d n v f) : (f.bytes v).m = blit m d n fun _ => v := by
  fun_induction Filler.bytes v f with
  | case1 f hc ih => exact ih (by rw [Filler.byte_eq]; exact h.step (Nat.pos_of_ne_zero hc))
  | case2 f hc =>
      obtain ⟨k, hk, rfl⟩ := h
      obtain rfl : k = n := by
        have : ¬ n - k ≠ 0 := hc
        omega
      rfl

end Filled

theorem memset_eq (m : Nat → UInt8) (d : Nat) (c : Int) (n : Nat) :
    memset m d c n = (blit m d n fun _ => UInt8.ofInt c, d) := by
  have h0 : Filled m d n (UInt8.ofInt c) ⟨m, d, n⟩ :=
    ⟨0, Nat.zero_le _, by rw [blit_nothing]; rfl⟩
  unfold memset
  dsimp only
  split_ifs with h16
  · have hhead := h0.head (show (8 - d % 8) % 8 ≤ n by omega)
    rw [hhead.quads.words.bytes]
  · rw [h0.bytes]

/-! ### Comparisons -/

theorem memcmpBytes_skip : ∀ {k n x y : Nat}, k ≤ n → (∀ i < k, m (x + i) = m (y + i)) →
    memcmpBytes m x y n = memcmpBytes m (x + k) (y + k) (n - k)
  | 0, _, _, _, _, _ => rfl
  | k + 1, n + 1, x, y, hk, h => by
      have h0 : m x = m y := h 0 (Nat.succ_pos k)
      have hs : memcmpBytes m (x + 1) (y + 1) n =
          memcmpBytes m (x + 1 + k) (y + 1 + k) (n - k) :=
        memcmpBytes_skip (Nat.le_of_succ_le_succ hk) fun i hi => by
          simpa only [Nat.add_assoc, Nat.add_comm 1] using h (i + 1) (Nat.succ_lt_succ hi)
      rw [memcmpBytes, if_neg (not_not.mpr h0), hs]
      simp only [Nat.add_assoc, Nat.add_comm 1, Nat.add_sub_add_right]

theorem cmpHead_eq : ∀ (n x y : Nat), memcmpBytes m x y n =
    match cmpHead m x y n with
    | .error r => r
    | .ok (x', y', n') => memcmpBytes m x' y' n'
  | 0, _, _ => rfl
  | n + 1, x, y => by
      unfold cmpHead
      split_ifs with h8 hne
      · rw [memcmpBytes, if_pos hne]
      · rw [memcmpBytes, if_neg hne]
        exact cmpHead_eq n (x + 1) (y + 1)
      · rfl

theorem cmpWords_eq (x y n : Nat) :
    memcmpBytes m (cmpWords m x y n).1 (cmpWords m x y n).2.1 (cmpWords m x y n).2.2 =
      memcmpBytes m x y n := by
  fun_induction cmpWords m x y n with
  | case1 x y n h ih =>
      rw [ih, memcmpBytes_skip h.1 fun i hi => eq_of_leGet_eq h.2 hi]
  | case2 => rfl

theorem memcmp_eq (m : Nat → UInt8) (a b n : Nat) : memcmp m a b n = memcmpBytes m a b n := by
  unfold memcmp
  split_ifs with h16
  · rw [cmpHead_eq n a b]
    cases cmpHead m a b n with
    | error r => rfl
    | ok p => exact cmpWords_eq p.1 p.2.1 p.2.2
  · rfl

/-- **Memory by words**: the four functions do what their definitions byte by byte say, and write to
the destination only.  `memcpy` is for ranges that do not overlap; with the destination first they
may. -/
theorem memory_bytewise (m : Nat → UInt8) (d s n : Nat) (c : Int) :
    (d ≤ s ∨ s + n ≤ d → memcpy m d s n = (blit m d n fun i => m (s + i), d)) ∧
      memmove m d s n = (blit m d n fun i => m (s + i), d) ∧
      memset m d c n = (blit m d n fun _ => UInt8.ofInt c, d) ∧
      memcmp m d s n = memcmpBytes m d s n :=
  ⟨memcpy_eq, memmove_eq m d s n, memset_eq m d c n, memcmp_eq m d s n⟩

end Pulsar.Libc

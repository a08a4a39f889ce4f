import Pulsar.Arch.SigFrame
import Pulsar.Lib.Prog

/-!
# What the frames of handlers touch (`signal.rs`)

A signal may come at any place of a program, and the program may have made anything of the frame by
the time the handler ends.

* `frames_safe`: on aarch64 and riscv64 only what was checked is touched, and the registers that
  come back are those of a program; on x86_64 so exactly where the way back is pushed on a page of
  the frame, the frame is away from the red zone, and the floating-point state lies in pages of the
  frame with no reserved bit of `MXCSR` set (`X86.BuildFine`, `X86.ReturnFine`).
* `frames_unsafe`: a handler that starts on the stack of a program in its red zone, and a frame
  whose floating-point state is in the kernel.
-/

namespace Pulsar.Arch

open Proc (Handling SigSet)
open Prog (Moves)

variable {b x : BitVec 64} {n m k : Nat} {w : Bool} {s t u : UserSt} {P P' : Touch → Prop}
  {α β : Type}

/-! ### What is said of a run -/

/-- The byte at `x` is one of the range. -/
def Touch.Has (t : Touch) (x : BitVec 64) : Prop := (x - t.addr).toNat < t.len

instance (t : Touch) (x : BitVec 64) : Decidable (t.Has x) := by unfold Touch.Has; infer_instance

/-- Every byte that is touched is on a page that was passed for the same access. -/
def UserSt.Checked (s : UserSt) : Prop :=
  ∀ t ∈ s.touched, ∀ x, t.Has x → ∃ c ∈ s.passed, c.write = t.write ∧ x.toNat / PAGE ∈ c.pages

/-- The byte at `x` is one of the `n` below `sp`. -/
def Below (n : Nat) (sp x : BitVec 64) : Prop := 0 < (sp - x).toNat ∧ (sp - x).toNat ≤ n

instance (n : Nat) (sp x : BitVec 64) : Decidable (Below n sp x) := by unfold Below; infer_instance

/-- None of the `n` bytes below `sp` is written. -/
def UserSt.Spared (n : Nat) (sp : BitVec 64) (s : UserSt) : Prop :=
  ∀ t ∈ s.touched, t.write = true → ∀ x, t.Has x → ¬ Below n sp x

/-- What the processor and its calls say: how much a program uses below its stack pointer, which
registers are those of a program, and which floating-point state is accepted. -/
structure Cpu (C F : Type) where
  redZone : Nat
  User : C → Prop
  Accepts : F → Prop

namespace Port

variable {C F : Type}

/-- A handler is started safely. -/
structure Builds (m : Port C F) (cpu : Cpu C F) (pageOk : Nat → Bool → Bool) (h : Handling) (fp : F)
    (c : C) (bytes : BitVec 64 → UInt8) : Prop where
  run : wp (m.build_frame pageOk h fp c)
    (fun r s => s.Checked ∧ s.Spared cpu.redZone (m.context_sp c) ∧ ∀ c' ∈ r, cpu.User c')
    (fun _ _ => False) ⟨bytes, [], []⟩

/-- The way back is safe. -/
structure Returns (m : Port C F) (cpu : Cpu C F) (pageOk : Nat → Bool → Bool) (c : C)
    (bytes : BitVec 64 → UInt8) : Prop where
  run : wp (m.sigreturn pageOk c)
    (fun r s => s.Checked ∧ ∀ x ∈ r, cpu.User x.1 ∧ cpu.Accepts x.2.1)
    (fun _ _ => False) ⟨bytes, [], []⟩

end Port

/-! ### Accesses -/

/-- Accesses that are all `P` were made. -/
structure UserSt.Goes (P : Touch → Prop) (s t : UserSt) : Prop where
  passed : t.passed = s.passed
  touched : ∃ l, t.touched = s.touched ++ l ∧ ∀ x ∈ l, P x

instance : Prog.Path (UserSt.Goes P) where
  refl s := ⟨rfl, [], (List.append_nil _).symm, fun _ hx => absurd hx List.not_mem_nil⟩
  trans := by
    rintro s t u ⟨hp, l, hl, hP⟩ ⟨hp', l', hl', hP'⟩
    refine ⟨hp'.trans hp, l ++ l', by rw [hl', hl, List.append_assoc], fun x hx => ?_⟩
    exact (List.mem_append.mp hx).elim (hP x) (hP' x)

/-- Bytes were read, and nothing else was done. -/
structure UserSt.Reads (P : Touch → Prop) (s t : UserSt) : Prop extends UserSt.Goes P s t where
  bytes : t.bytes = s.bytes

instance : Prog.Path (UserSt.Reads P) where
  refl s := ⟨Prog.Path.refl s, rfl⟩
  trans h h' := ⟨Prog.Path.trans h.toGoes h'.toGoes, h'.bytes.trans h.bytes⟩

/-- An access to part of a range. -/
def Inside (b : BitVec 64) (n : Nat) (w : Bool) (t : Touch) : Prop :=
  t.write = w ∧ ∃ k, t.addr = off b k ∧ k + t.len ≤ n

theorem off_off (a : BitVec 64) (j k : Nat) : off (off a j) k = off a (j + k) := by
  rw [off, off, off, BitVec.add_assoc, BitVec.ofNat_add]

theorem off_zero (a : BitVec 64) : off a 0 = a := BitVec.add_zero a

theorem inside_off (j m k : Nat) (h : j + k + m ≤ n) : Inside b n w ⟨off (off b j) k, m, w⟩ :=
  ⟨rfl, j + k, off_off b j k, h⟩

theorem goes_write (a : BitVec 64) (n : Nat) (f : Nat → UInt8) (h : P ⟨a, n, true⟩) :
    Moves (UserSt.Goes P) (write a n f) :=
  .modify fun _ => ⟨rfl, [⟨a, n, true⟩], rfl, fun _ hx => List.mem_singleton.mp hx ▸ h⟩

theorem wp_write {Q : PUnit → UserSt → Prop} {E : Empty → UserSt → Prop} (a : BitVec 64) (n : Nat)
    (f : Nat → UInt8) : wp (write a n f) Q E s ↔ Q ⟨⟩
      { s with
        bytes := fun x => if (x - a).toNat < n then f (x - a).toNat else s.bytes x
        touched := s.touched ++ [⟨a, n, true⟩] } := Iff.rfl

theorem wp_userOk {Q : Bool → UserSt → Prop} {E : Empty → UserSt → Prop}
    (pageOk : Nat → Bool → Bool) (t : Touch) : wp (userOk pageOk t) Q E s ↔
      (t.Passes pageOk → Q true { s with passed := t :: s.passed }) ∧
        (¬ t.Passes pageOk → Q false s) := by
  unfold wp userOk
  by_cases ht : t.Passes pageOk
  · rw [if_pos ht, forall_prop_of_true ht, and_iff_left fun hc => absurd ht hc]
  · rw [if_neg ht, forall_prop_of_true ht, and_iff_right fun hc => absurd hc ht]

theorem wp_r64 {Q : BitVec 64 → UserSt → Prop} {E : Empty → UserSt → Prop} (a : BitVec 64) :
    wp (r64 a) Q E s ↔ Q (BitVec.ofNat 64 (leGet (s.at_ a) 0 8))
      { s with touched := s.touched ++ [⟨a, 8, false⟩] } := by
  unfold r64
  exact wp_map _ _

theorem wp_read {Q : (Nat → UInt8) → UserSt → Prop} {E : Empty → UserSt → Prop} (a : BitVec 64)
    (n : Nat) : wp (read a n) Q E s ↔
      Q (s.at_ a) { s with touched := s.touched ++ [⟨a, n, false⟩] } := Iff.rfl

theorem reads_readLe (a : BitVec 64) (n : Nat) (h : P ⟨a, n, false⟩) :
    Moves (UserSt.Reads P) (readLe a n) :=
  ⟨fun _ => ⟨⟨rfl, [⟨a, n, false⟩], rfl, fun _ hx => List.mem_singleton.mp hx ▸ h⟩, rfl⟩⟩

theorem wp_moves {R : UserSt → UserSt → Prop} {y : User α} {f : α → User β}
    {Q : β → UserSt → Prop} {E : Empty → UserSt → Prop} (hy : Moves R y)
    (hf : ∀ a t, R s t → wp (f a) Q E t) : wp (y >>= f) Q E s :=
  (wp_bind _ _).mpr (wp_mono (hy.along s) hf fun e => e.elim)

theorem reads_num (f : Nat → α) (a : BitVec 64) (n : Nat) (h : P ⟨a, n, false⟩) :
    Moves (UserSt.Reads P) (f <$> readLe a n) :=
  ⟨fun s => (wp_map _ f).mpr ((reads_readLe a n h).along s)⟩

/-- What holds of a run of the program, of the state before it, its value and the state after. -/
structure Ends (y : User α) (Q : UserSt → α → UserSt → Prop) : Prop where
  run : ∀ s, wp y (Q s) (fun _ _ => False) s

/-- A run of the program goes along `R` and gives a value with `V`. -/
structure Gives (R : UserSt → UserSt → Prop) (V : α → Prop) (y : User α) : Prop where
  along : ∀ s, wp y (fun a t => R s t ∧ V a) (fun _ _ => False) s

namespace Gives

variable {R : UserSt → UserSt → Prop} [Prog.Path R] {V : α → Prop} {W : β → Prop} {y : User α}

theorem pure {a : α} (ha : V a) : Gives R V (Pure.pure a) := ⟨fun s => ⟨Prog.Path.refl s, ha⟩⟩

theorem bind {f : α → User β} (hy : Gives R V y) (hf : ∀ a, V a → Gives R W (f a)) :
    Gives R W (y >>= f) where
  along s := (wp_bind _ _).mpr (wp_mono (hy.along s)
    (fun a t ht => wp_mono ((hf a ht.2).along t) (fun _ _ hu => ⟨Prog.Path.trans ht.1 hu.1, hu.2⟩)
      fun _ _ he => he) fun _ _ he => he)

theorem after {f : α → User β} (hy : Moves R y) (hf : ∀ a, Gives R W (f a)) :
    Gives R W (y >>= f) where
  along _ := wp_moves hy fun a t ht => wp_mono ((hf a).along t)
    (fun _ _ hu => ⟨Prog.Path.trans ht hu.1, hu.2⟩) fun _ _ he => he

theorem foldlM {f : α → β → User α} {l : List β} (hf : ∀ a, ∀ b ∈ l, V a → Gives R V (f a b))
    {a : α} (ha : V a) : Gives R V (l.foldlM f a) where
  along s := wp_foldlM (fun b hb a t ht => wp_mono ((hf a b hb ht.2).along t)
    (fun _ _ hu => ⟨Prog.Path.trans ht.1 hu.1, hu.2⟩) fun _ _ he => he) ⟨Prog.Path.refl s, ha⟩

end Gives

/-! ### The pages of a range -/

theorem mem_pages (t : Touch) (p : Nat) : p ∈ t.pages ↔
    t.addr.toNat / PAGE ≤ p ∧ p * PAGE < t.addr.toNat + t.len := by
  rw [Touch.pages, List.mem_range'_1]
  simp only [PAGE]
  omega

theorem has_off (hfit : b.toNat + n < 2 ^ 64) (hk : k + m ≤ n)
    (hx : (⟨off b k, m, w⟩ : Touch).Has x) :
    b.toNat ≤ x.toNat ∧ x.toNat < b.toNat + n := by
  have hx' : (x - (b + BitVec.ofNat 64 k)).toNat < m := hx
  bv_omega

theorem checked_inside (hpass : ⟨b, n, w⟩ ∈ s.passed) (hfit : b.toNat + n < 2 ^ 64) {t : Touch}
    (ht : Inside b n w t) (hx : t.Has x) :
    ∃ c ∈ s.passed, c.write = t.write ∧ x.toNat / PAGE ∈ c.pages := by
  obtain ⟨a, len, _⟩ := t
  obtain ⟨rfl, k, rfl, hk⟩ := ht
  obtain ⟨hlo, hhi⟩ := has_off hfit hk hx
  refine ⟨_, hpass, rfl, (mem_pages _ _).mpr ?_⟩
  simp only [PAGE]
  omega

/-! ### The frame -/

section Frame

variable {C F : Type} {m : Port C F} {cpu : Cpu C F} {pageOk : Nat → Bool → Bool} {h : Handling}
  {fp : F} {c : C} {bytes : BitVec 64 → UInt8}

theorem goes_writeInfo (h : Handling) (b : BitVec 64) (hn : 304 ≤ n) :
    Moves (UserSt.Goes (Inside b n true)) (Port.writeInfo h b) := by
  have hzero : ∀ m ≤ n, Inside b n true ⟨b, m, true⟩ := fun m hm =>
    ⟨rfl, 0, (off_zero b).symm, (show 0 + m ≤ n by omega)⟩
  have hin : ∀ k m, k + m ≤ n → Inside b n true ⟨off b k, m, true⟩ := fun k m hk =>
    ⟨rfl, k, rfl, hk⟩
  unfold Port.writeInfo Port.writeSource Port.writeStack
  simp only [off_off, SI_SIZE, UC_SIGMASK]
  refine .bind (goes_write _ _ _ (hzero 4 (by omega))) fun _ =>
    .bind (goes_write _ _ _ (hin 8 4 (by omega))) fun _ => .bind (.ite (fun _ => ?_) fun _ => ?_)
    fun _ => .bind ?_ fun _ => goes_write _ _ _ (hin _ 8 (by omega))
  · exact goes_write _ _ _ (hin 16 8 (by omega))
  · exact goes_write _ _ _ (hin 16 4 (by omega))
  · cases h.alt with
    | none => exact goes_write _ _ _ (hin _ 4 (by omega))
    | some stack =>
        exact .bind (goes_write _ _ _ (hin _ 8 (by omega))) fun _ =>
          .bind (goes_write _ _ _ (hin _ 4 (by omega))) fun _ =>
          goes_write _ _ _ (hin _ 8 (by omega))

/-- The registers are saved in the frame. -/
def Port.Saves (m : Port C F) : Prop := ∀ (b : BitVec 64) (c : C) (fp : F) (fault : BitVec 64),
  b.toNat % 16 = 0 → Moves (UserSt.Goes (Inside b m.frameSize true))
    (m.save_mcontext (off b (SI_SIZE + UC_MCTX)) c fp fault)

/-- The state when the registers of the handler are to be set. -/
structure Filled (b : BitVec 64) (n : Nat) (s t : UserSt) : Prop where
  passed : t.passed = s.passed
  touched : ∃ l, t.touched = s.touched ++ ⟨b, n, true⟩ :: l ∧ ∀ x ∈ l, Inside b n true x

theorem Port.frameSize_le (m : Port C F) : 304 ≤ m.frameSize := by
  simp only [Port.frameSize, SI_SIZE, UC_MCTX]
  omega

theorem Port.wp_fill {Q : C → UserSt → Prop} (hsave : m.Saves) (hb : b.toNat % 16 = 0)
    (hstart : ∀ restorer t, Filled b m.frameSize s t →
      wp (m.start b restorer h c) Q (fun _ _ => False) t) :
    wp (m.fill h fp b c) Q (fun _ _ => False) s := by
  unfold Port.fill
  refine (wp_bind _ _).mpr ((wp_write b m.frameSize fun _ => 0).mpr ?_)
  refine wp_moves (goes_writeInfo h b m.frameSize_le) fun _ t ht => ?_
  rw [off_off]
  refine wp_moves (hsave b c fp _ hb) fun _ u hu => hstart _ u ?_
  obtain ⟨hp, l, hl, hP⟩ := Prog.Path.trans ht hu
  exact ⟨hp, l, hl.trans (List.append_assoc ..), hP⟩

/-- `a & !15`. -/
theorem toNat_align (a : BitVec 64) : (a &&& ~~~15).toNat = a.toNat / 16 * 16 := by
  have hshift : a &&& ~~~15#64 = (a >>> 4) <<< 4 := by
    ext i hi
    have hmask : (~~~15#64)[i] = decide (4 ≤ i) := by
      revert i
      decide
    rw [BitVec.getElem_and, hmask, BitVec.getElem_shiftLeft]
    by_cases h4 : 4 ≤ i
    · simp [h4, Nat.not_lt.mpr h4, BitVec.getLsbD_eq_getElem hi]
    · simp [h4, Nat.lt_of_not_le h4]
  have hlt := a.isLt
  change (a &&& ~~~15#64).toNat = _
  rw [hshift, BitVec.toNat_shiftLeft, BitVec.toNat_ushiftRight, Nat.shiftLeft_eq,
    Nat.shiftRight_eq_div_pow]
  omega

theorem base_aligned (h : Handling) (c : C) : (m.base h c).toNat % 16 = 0 := by
  rw [Port.base, toNat_align]
  exact Nat.mul_mod_left _ 16

/-- What `build_frame` does where the frame passes. -/
theorem Port.wp_build {Q : Option C → UserSt → Prop}
    (hp : (⟨m.base h c, m.frameSize, true⟩ : Touch).Passes pageOk)
    (hfill : wp (m.fill h fp (m.base h c) c) (fun c' => Q (some c')) (fun _ _ => False)
      ⟨bytes, [], [⟨m.base h c, m.frameSize, true⟩]⟩) :
    wp (m.build_frame pageOk h fp c) Q (fun _ _ => False) ⟨bytes, [], []⟩ := by
  unfold Port.build_frame
  generalize m.base h c = b at hp hfill ⊢
  refine (wp_bind _ _).mpr ((wp_userOk _ _).mpr ⟨fun _ => ?_, fun hc => absurd hp hc⟩)
  exact (wp_map _ _).mpr hfill

theorem Port.build_refused (hp : ¬ (⟨m.base h c, m.frameSize, true⟩ : Touch).Passes pageOk) :
    m.Builds cpu pageOk h fp c bytes := by
  refine ⟨?_⟩
  unfold Port.build_frame
  refine (wp_bind _ _).mpr ((wp_userOk _ _).mpr ⟨fun hc => absurd hc hp, fun _ => ?_⟩)
  exact ⟨fun t ht => absurd ht List.not_mem_nil, fun t ht => absurd ht List.not_mem_nil, nofun⟩

theorem Port.builds (hsave : m.Saves) (hred : cpu.redZone = 0)
    (hstart : ∀ b restorer, Moves (UserSt.Goes (Inside b m.frameSize true))
      (m.start b restorer h c))
    (huser : ∀ b restorer s, wp (m.start b restorer h c) (fun c' _ => cpu.User c')
      (fun _ _ => False) s) :
    m.Builds cpu pageOk h fp c bytes := by
  have hspared : ∀ s : UserSt, s.Spared cpu.redZone (m.context_sp c) := fun s t _ _ x _ hx => by
    rw [hred] at hx
    exact absurd hx.2 (Nat.not_le.mpr hx.1)
  by_cases hp : (⟨m.base h c, m.frameSize, true⟩ : Touch).Passes pageOk
  swap
  · exact Port.build_refused hp
  refine ⟨Port.wp_build hp ?_⟩
  have hfit : (m.base h c).toNat + m.frameSize < 2 ^ 64 :=
    (hp.resolve_left (by have := m.frameSize_le; change m.frameSize ≠ 0; omega)).1
  refine Port.wp_fill hsave (base_aligned h c) fun restorer t ht => ?_
  refine wp_mono (wp_and (huser _ restorer t) ((hstart _ restorer).along t)) (fun c' u hu => ?_)
    fun _ _ he => he.1
  obtain ⟨hpassed, l, hl, hin⟩ := ht
  obtain ⟨hpassed', l', hl', hin'⟩ := hu.2
  have hmem : ⟨m.base h c, m.frameSize, true⟩ ∈ u.passed := by
    rw [hpassed', hpassed]
    exact List.mem_singleton_self _
  refine ⟨fun x hx y hy => checked_inside hmem hfit ?_ hy, hspared u, fun _ hc => ?_⟩
  · rw [hl', hl, List.nil_append, List.cons_append, List.mem_cons, List.mem_append] at hx
    obtain rfl | hx | hx := hx
    · exact ⟨rfl, 0, (off_zero _).symm, by change 0 + m.frameSize ≤ _; omega⟩
    · exact hin x hx
    · exact hin' x hx
  · exact Option.some.inj hc ▸ hu.1

/-- What `sigreturn` does where the frame passes. -/
theorem Port.wp_return {Q : Option (C × F × SigSet) → UserSt → Prop}
    (hp : (⟨m.context_sp c, m.frameSize - 16, false⟩ : Touch).Passes pageOk)
    (hrestore : wp (m.restore (m.context_sp c) c) (fun r => Q (some r)) (fun _ _ => False)
      ⟨bytes, [], [⟨m.context_sp c, m.frameSize - 16, false⟩]⟩) :
    wp (m.sigreturn pageOk c) Q (fun _ _ => False) ⟨bytes, [], []⟩ := by
  unfold Port.sigreturn
  generalize m.context_sp c = b at hp hrestore ⊢
  refine (wp_bind _ _).mpr ((wp_userOk _ _).mpr ⟨fun _ => ?_, fun hc => absurd hp hc⟩)
  exact (wp_map _ _).mpr hrestore

theorem Port.return_refused
    (hp : ¬ (⟨m.context_sp c, m.frameSize - 16, false⟩ : Touch).Passes pageOk) :
    m.Returns cpu pageOk c bytes := by
  refine ⟨?_⟩
  unfold Port.sigreturn
  refine (wp_bind _ _).mpr ((wp_userOk _ _).mpr ⟨fun hc => absurd hc hp, fun _ => ?_⟩)
  exact ⟨fun t ht => absurd ht List.not_mem_nil, nofun⟩

/-- The registers of a program are loaded from the frame. -/
def Port.Loads (m : Port C F) (cpu : Cpu C F) (c : C) : Prop :=
  ∀ b, Gives (UserSt.Reads (Inside b (m.frameSize - 16) false))
    (fun r => cpu.User r.1 ∧ cpu.Accepts r.2)
    (m.load_mcontext (off b (SI_SIZE + UC_MCTX)) c m.zeroed)

theorem Port.returns (hdirty : ∀ c, cpu.User c → cpu.User (m.mark_fp_dirty c))
    (hload : m.Loads cpu c) : m.Returns cpu pageOk c bytes := by
  by_cases hp : (⟨m.context_sp c, m.frameSize - 16, false⟩ : Touch).Passes pageOk
  swap
  · exact Port.return_refused hp
  refine ⟨Port.wp_return hp ?_⟩
  have hlen := m.frameSize_le
  have hfit : (m.context_sp c).toNat + (m.frameSize - 16) < 2 ^ 64 :=
    (hp.resolve_left (by change m.frameSize - 16 ≠ 0; omega)).1
  have hall : Gives (UserSt.Reads (Inside (m.context_sp c) (m.frameSize - 16) false))
      (fun r => cpu.User r.1 ∧ cpu.Accepts r.2.1) (m.restore (m.context_sp c) c) := by
    unfold Port.restore
    rw [off_off]
    refine .bind (hload _) fun r hr => .after (reads_num _ _ 8 (inside_off _ _ _ ?_)) fun mask =>
      .pure ⟨hdirty _ hr.1, hr.2⟩
    simp only [SI_SIZE, UC_SIGMASK]
    omega
  refine wp_mono (hall.along _) (fun r u hu => ?_) fun _ _ he => he
  obtain ⟨hu, hr⟩ := hu
  obtain ⟨l, hl, hin⟩ := hu.touched
  refine ⟨fun x hx y hy => checked_inside ?_ hfit (hin x ?_) hy, fun _ hc => ?_⟩
  · rw [hu.passed]
    exact List.mem_singleton_self _
  · rwa [hl, List.nil_append] at hx
  · exact Option.some.inj hc ▸ hr

theorem Port.build_touches {r : BitVec 64 → Touch} (hsave : m.Saves)
    (hp : (⟨m.base h c, m.frameSize, true⟩ : Touch).Passes pageOk)
    (hstart : ∀ b restorer s, ∃ c' t, m.start b restorer h c s = .ok c' t ∧ cpu.User c' ∧
      t.passed = s.passed ∧ t.touched = s.touched ++ [r b]) :
    ∃ c' t l, m.build_frame pageOk h fp c ⟨bytes, [], []⟩ = .ok (some c') t ∧ cpu.User c' ∧
      t.passed = [⟨m.base h c, m.frameSize, true⟩] ∧
      t.touched = ⟨m.base h c, m.frameSize, true⟩ :: (l ++ [r (m.base h c)]) ∧
      ∀ x ∈ l, Inside (m.base h c) m.frameSize true x := by
  have hrun : wp (m.build_frame pageOk h fp c) (fun r' t => ∃ c' l, r' = some c' ∧ cpu.User c' ∧
      t.passed = [⟨m.base h c, m.frameSize, true⟩] ∧
      t.touched = ⟨m.base h c, m.frameSize, true⟩ :: (l ++ [r (m.base h c)]) ∧
      ∀ x ∈ l, Inside (m.base h c) m.frameSize true x) (fun _ _ => False) ⟨bytes, [], []⟩ := by
    refine Port.wp_build hp (Port.wp_fill hsave (base_aligned h c) fun restorer t ht => ?_)
    obtain ⟨hpassed, l, hl, hin⟩ := ht
    obtain ⟨c', u, hu, huser, hpassed', htouched⟩ := hstart (m.base h c) restorer t
    refine (wp_ok hu).mpr ⟨c', l, rfl, huser, hpassed'.trans hpassed, ?_, hin⟩
    rw [htouched, hl]
    rfl
  obtain ⟨_, t, hr, c', l, rfl, h'⟩ := hrun.returns
  exact ⟨c', t, l, hr, h'⟩

theorem Port.builds_iff {r : Option C}
    (hr : m.build_frame pageOk h fp c ⟨bytes, [], []⟩ = .ok r t) :
    m.Builds cpu pageOk h fp c bytes ↔
      t.Checked ∧ t.Spared cpu.redZone (m.context_sp c) ∧ ∀ c' ∈ r, cpu.User c' :=
  ⟨fun hb => hb.run.ok hr, fun hb => ⟨(wp_ok hr).mpr hb⟩⟩

theorem Port.returns_iff {r : Option (C × F × SigSet)}
    (hr : m.sigreturn pageOk c ⟨bytes, [], []⟩ = .ok r t) :
    m.Returns cpu pageOk c bytes ↔
      t.Checked ∧ ∀ x ∈ r, cpu.User x.1 ∧ cpu.Accepts x.2.1 :=
  ⟨fun hb => hb.run.ok hr, fun hb => ⟨(wp_ok hr).mpr hb⟩⟩

/-- A way back whose registers are loaded as `Q` says. -/
theorem Port.restore_ends {Q : UserSt → C × F → UserSt → Prop} {b : BitVec 64}
    (hload : Ends (m.load_mcontext (off b (SI_SIZE + UC_MCTX)) c m.zeroed) Q) :
    Ends (m.restore b c) fun s r t => ∃ x u, Q s x u ∧ r.1 = m.mark_fp_dirty x.1 ∧ r.2.1 = x.2 ∧
      u.Reads (Inside b (m.frameSize - 16) false) t := by
  refine ⟨fun s => ?_⟩
  unfold Port.restore
  rw [off_off, off_off, wp_bind]
  refine wp_mono (hload.run s) (fun x u hu => ?_) fun _ _ he => he
  rw [wp_bind, wp_r64, wp_pure]
  refine ⟨x, u, hu, rfl, rfl, ⟨rfl, [⟨off b (SI_SIZE + UC_SIGMASK), 8, false⟩], rfl,
    fun y hy => ?_⟩, rfl⟩
  have hlen := m.frameSize_le
  refine List.mem_singleton.mp hy ▸ ⟨rfl, _, rfl, ?_⟩
  simp only [SI_SIZE, UC_SIGMASK]
  omega

theorem Port.returns_as {Q : UserSt → C × F × SigSet → UserSt → Prop}
    (hp : (⟨m.context_sp c, m.frameSize - 16, false⟩ : Touch).Passes pageOk)
    (hrestore : Ends (m.restore (m.context_sp c) c) Q) :
    ∃ r t, Q ⟨bytes, [], [⟨m.context_sp c, m.frameSize - 16, false⟩]⟩ r t ∧
      (m.Returns cpu pageOk c bytes ↔ t.Checked ∧ cpu.User r.1 ∧ cpu.Accepts r.2.1) := by
  have hrun := Port.wp_return (Q := fun r t => ∃ x, r = some x ∧
    Q ⟨bytes, [], [⟨m.context_sp c, m.frameSize - 16, false⟩]⟩ x t) hp
    (wp_mono (hrestore.run _) (fun x t ht => ⟨x, rfl, ht⟩) fun _ _ he => he)
  obtain ⟨_, t, hr, x, rfl, hx⟩ := hrun.returns
  refine ⟨x, t, hx, (Port.returns_iff hr).trans (and_congr_right fun _ => ?_)⟩
  exact ⟨fun h => h x rfl, fun h _ hy => Option.some.inj hy ▸ h⟩

end Frame

/-! ### aarch64 -/

namespace Aarch64

/-- `SPSR_EL1` says EL0; nothing below the stack pointer is used. -/
def cpu : Cpu Context FpState where
  redZone := 0
  User c := c.spsr &&& 0x1F = 0
  Accepts _ := True

theorem saves_port : port.Saves := by
  intro b c fp fault _
  have hin : ∀ k m, k + m ≤ 4704 → Inside b 4704 true ⟨off b k, m, true⟩ := fun k m hk =>
    ⟨rfl, k, rfl, hk⟩
  change Moves (UserSt.Goes (Inside b 4704 true)) (save_mcontext (off b 304) c fp fault)
  unfold save_mcontext
  simp only [off_off]
  refine .bind (goes_write _ _ _ (hin _ 8 (by omega))) fun _ =>
    .bind (.forM fun i _ => goes_write _ _ _ (hin _ 8 (by omega))) fun _ =>
    .bind (goes_write _ _ _ (hin _ 8 (by omega))) fun _ =>
    .bind (goes_write _ _ _ (hin _ 8 (by omega))) fun _ =>
    .bind (goes_write _ _ _ (hin _ 8 (by omega))) fun _ =>
    .bind (goes_write _ _ _ (hin _ 4096 (by omega))) fun _ =>
    .bind (goes_write _ _ _ (hin _ 4 (by omega))) fun _ =>
    .bind (goes_write _ _ _ (hin _ 4 (by omega))) fun _ =>
    .bind (goes_write _ _ _ (hin _ 4 (by omega))) fun _ =>
    .bind (goes_write _ _ _ (hin _ 4 (by omega))) fun _ =>
    .forM fun i _ => goes_write _ _ _ (hin _ 16 (by omega))

theorem goes_start (b restorer : BitVec 64) (h : Handling) (c : Context) :
    Moves (UserSt.Goes (Inside b port.frameSize true)) (port.start b restorer h c) := by
  have hin : ∀ k m, k + m ≤ 4704 → Inside b 4704 true ⟨off b k, m, true⟩ := fun k m hk =>
    ⟨rfl, k, rfl, hk⟩
  change Moves (UserSt.Goes (Inside b 4704 true)) (start b restorer h c)
  unfold start
  simp only [off_off, SI_SIZE, UC_MCTX]
  exact .bind (goes_write _ _ _ (hin _ 8 (by omega))) fun _ =>
    .bind (goes_write _ _ _ (hin _ 8 (by omega))) fun _ => .pure _

theorem user_start {c : Context} (hc : cpu.User c) (b restorer : BitVec 64) (h : Handling)
    (s : UserSt) :
    wp (port.start b restorer h c) (fun c' _ => cpu.User c') (fun _ _ => False) s := by
  refine (wp_bind _ _).mpr ((wp_write _ 8 _).mpr ((wp_bind _ _).mpr ((wp_write _ 8 _).mpr ?_)))
  have huser : c.spsr &&& 0x1F#64 = 0#64 := hc
  change c.spsr &&& ~~~(BitVec.twoPow 64 21) &&& 0x1F#64 = 0#64
  rw [BitVec.and_assoc, BitVec.and_comm (~~~_), ← BitVec.and_assoc, huser, BitVec.zero_and]

theorem builds (pageOk : Nat → Bool → Bool) (h : Handling) (fp : FpState) {c : Context}
    (hc : cpu.User c) (bytes : BitVec 64 → UInt8) : port.Builds cpu pageOk h fp c bytes :=
  Port.builds saves_port (show cpu.redZone = 0 from rfl)
    (fun b restorer => goes_start b restorer h c)
    fun b restorer s => user_start hc b restorer h s

theorem reads_load_fp {b : BitVec 64} {n k : Nat} (hn : k + 528 ≤ n) (fp : FpState) :
    Moves (UserSt.Reads (Inside b n false)) (load_fp (off b k) fp) := by
  have hin : ∀ j m, j + m ≤ n → Inside b n false ⟨off b j, m, false⟩ := fun j m hj =>
    ⟨rfl, j, rfl, hj⟩
  unfold load_fp
  simp only [off_off]
  refine .bind (reads_num _ _ 4 (hin k 4 (by omega))) fun magic => .ite (fun _ => ?_)
    fun _ => .pure _
  refine .bind (reads_num _ _ 4 (hin _ 4 (by omega))) fun _ =>
    .bind (reads_num _ _ 4 (hin _ 4 (by omega))) fun _ => .foldlM (fun fp i => ?_) _
  exact .bind (reads_num _ _ 16 (hin _ 16 (by omega))) fun v => .pure _

theorem loads_port (c : Context) : port.Loads cpu c := by
  intro b
  have hin : ∀ k m, k + m ≤ 4688 → Inside b 4688 false ⟨off b k, m, false⟩ := fun k m hk =>
    ⟨rfl, k, rfl, hk⟩
  change Gives (UserSt.Reads (Inside b 4688 false)) _ (load_mcontext (off b 304) c .zeroed)
  unfold load_mcontext
  simp only [off_off]
  refine .after (.foldlM (fun f i => .bind (reads_num _ _ 8 (hin _ 8 (by omega)))
    fun v => .pure _) c) fun f => ?_
  refine .after (reads_num _ _ 8 (hin _ 8 (by omega))) fun sp =>
    .after (reads_num _ _ 8 (hin _ 8 (by omega))) fun elr =>
    .after (reads_num _ _ 8 (hin _ 8 (by omega))) fun spsr =>
    .after (reads_load_fp (by omega) _) fun fp => .pure ⟨?_, trivial⟩
  change spsr &&& 0xF0000000#64 &&& 0x1F#64 = 0#64
  rw [BitVec.and_assoc]
  exact BitVec.and_zero

theorem returns (pageOk : Nat → Bool → Bool) (c : Context) (bytes : BitVec 64 → UInt8) :
    port.Returns cpu pageOk c bytes :=
  Port.returns (fun _ hc => hc) (loads_port c)

end Aarch64

/-! ### riscv64 -/

namespace Riscv64

/-- `SPP` says user mode; nothing below the stack pointer is used. -/
def cpu : Cpu Context FpState where
  redZone := 0
  User c := c.sstatus &&& 0x100 = 0
  Accepts _ := True

theorem saves_port : port.Saves := by
  intro b c fp fault _
  have hin : ∀ k m, k + m ≤ 1104 → Inside b 1104 true ⟨off b k, m, true⟩ := fun k m hk =>
    ⟨rfl, k, rfl, hk⟩
  change Moves (UserSt.Goes (Inside b 1104 true)) (save_mcontext (off b 304) c fp fault)
  unfold save_mcontext
  simp only [off_off]
  exact .bind (goes_write _ _ _ (hin _ 8 (by omega))) fun _ =>
    .bind (.forM fun i _ => goes_write _ _ _ (hin _ 8 (by omega))) fun _ =>
    .bind (goes_write _ _ _ (hin _ 528 (by omega))) fun _ =>
    .bind (.forM fun i _ => goes_write _ _ _ (hin _ 8 (by omega))) fun _ =>
    goes_write _ _ _ (hin _ 4 (by omega))

theorem builds (pageOk : Nat → Bool → Bool) (h : Handling) (fp : FpState) {c : Context}
    (hc : cpu.User c) (bytes : BitVec 64 → UInt8) : port.Builds cpu pageOk h fp c bytes :=
  Port.builds saves_port (show cpu.redZone = 0 from rfl) (fun _ _ => .pure _) fun _ _ _ => hc

theorem loads_port {c : Context} (hc : cpu.User c) : port.Loads cpu c := by
  intro b
  have hin : ∀ k m, k + m ≤ 1088 → Inside b 1088 false ⟨off b k, m, false⟩ := fun k m hk =>
    ⟨rfl, k, rfl, hk⟩
  change Gives (UserSt.Reads (Inside b 1088 false)) _ (load_mcontext (off b 304) c .zeroed)
  unfold load_mcontext
  simp only [off_off]
  refine .after (reads_num _ _ 8 (hin _ 8 (by omega))) fun sepc => ?_
  have hset : ∀ (f : Context) (i : Fin 32) v, cpu.User f → cpu.User (f.setX i v) := fun _ _ _ h => h
  have hpc : cpu.User { c with sepc := sepc } := hc
  -- the loop over the registers leaves `sstatus`
  have hloop : Gives (UserSt.Reads (Inside b 1088 false)) cpu.User
      (((List.finRange 32).drop 1).foldlM (fun (f : Context) (i : Fin 32) => do
        let v ← r64 (off b (304 + i * 8))
        pure (f.setX i v)) { c with sepc := sepc }) :=
    .foldlM (fun f i _ hf => .after (reads_num _ _ 8 (hin _ 8 (by omega)))
      fun v => .pure (hset f i v hf)) hpc
  refine hloop.bind fun f hf => ?_
  refine .after (.foldlM (fun fp i => .bind (reads_num _ _ 8 (hin _ 8 (by omega)))
    fun v => .pure _) _) fun fp => ?_
  exact .after (reads_num _ _ 4 (hin _ 4 (by omega))) fun fcsr => .pure ⟨hf, trivial⟩

theorem returns (pageOk : Nat → Bool → Bool) {c : Context} (hc : cpu.User c)
    (bytes : BitVec 64 → UInt8) : port.Returns cpu pageOk c bytes := by
  refine Port.returns (fun c hc => ?_) (loads_port hc)
  have huser : c.sstatus &&& 0x100#64 = 0#64 := hc
  change (c.sstatus ||| SSTATUS_FS) &&& 0x100#64 = 0#64
  rw [BitVec.and_comm, BitVec.and_or_distrib_left, BitVec.and_comm, huser]
  decide

end Riscv64

/-! ### x86_64 -/

namespace X86

/-- `MXCSR`. -/
def FpState.mxcsr (fp : FpState) : Nat :=
  leGet (fun j => if h : j < 512 then fp.buf ⟨j, h⟩ else 0) 24 4

/-- The segments are those of programs, which have no right to ports; 128 bytes below the stack
pointer are used; no reserved bit of `MXCSR` may be set. -/
def cpu : Cpu Context FpState where
  redZone := 128
  User c := c.cs = USER_CS ∧ c.ss = USER_SS ∧ c.rflags &&& 0x3000 = 0
  Accepts fp := fp.mxcsr < 2 ^ 16

/-- The way back is on a page of the frame, and both are away from the red zone. -/
def BuildFine (pageOk : Nat → Bool → Bool) (h : Handling) (c : Context) : Prop :=
  (⟨port.base h c, 1056, true⟩ : Touch).Passes pageOk → (port.base h c).toNat % PAGE ≠ 0 ∧
    ∀ x, Below 128 c.rsp x → ¬ (⟨port.base h c - 8, 1064, true⟩ : Touch).Has x

/-- The word at `a`. -/
def word (bytes : BitVec 64 → UInt8) (a : BitVec 64) : BitVec 64 :=
  BitVec.ofNat 64 (leGet (fun j => bytes (off a j)) 0 8)

/-- Where the frame says that the floating-point state is. -/
def fpptr (c : Context) (bytes : BitVec 64 → UInt8) : BitVec 64 := word bytes (off c.rsp 488)

/-- There is none, or it is on pages of the frame, with no reserved bit of `MXCSR`. -/
def ReturnFine (pageOk : Nat → Bool → Bool) (c : Context) (bytes : BitVec 64 → UInt8) : Prop :=
  (⟨c.rsp, 1040, false⟩ : Touch).Passes pageOk → fpptr c bytes = 0 ∨
    (∀ x, (⟨fpptr c bytes, 512, false⟩ : Touch).Has x →
      x.toNat / PAGE ∈ (⟨c.rsp, 1040, false⟩ : Touch).pages) ∧
    (FpState.mk fun i => bytes (off (fpptr c bytes) i)).mxcsr < 2 ^ 16

theorem gregs_le (f : Context) (fault : BitVec 64) : ∀ r ∈ gregs f fault, r.1 ≤ 22 := by
  simp [gregs]

theorem fpbuf_eq (hb : b.toNat % 16 = 0) : off b 504 &&& ~~~15 = off b 496 := by
  apply BitVec.eq_of_toNat_eq
  rw [toNat_align]
  simp only [off, BitVec.toNat_add, BitVec.toNat_ofNat]
  omega

theorem saves_port : port.Saves := by
  intro b c fp fault hb
  have hin : ∀ k m, k + m ≤ 1056 → Inside b 1056 true ⟨off b k, m, true⟩ := fun k m hk =>
    ⟨rfl, k, rfl, hk⟩
  change Moves (UserSt.Goes (Inside b 1056 true)) (save_mcontext (off b 304) c fp fault)
  unfold save_mcontext
  simp only [off_off]
  rw [fpbuf_eq hb]
  refine .bind (.forM fun r hr => goes_write _ _ _ (hin _ 8 ?_)) fun _ =>
    .bind (goes_write _ _ _ (hin _ 8 (by omega))) fun _ => goes_write _ _ _ (hin _ 512 (by omega))
  have hle := gregs_le c fault r hr
  omega

theorem start_touches {h : Handling} {c : Context} (hc : cpu.User c) (b restorer : BitVec 64)
    (s : UserSt) : ∃ c' t, port.start b restorer h c s = .ok c' t ∧ cpu.User c' ∧
      t.passed = s.passed ∧ t.touched = s.touched ++ [⟨b - 8, 8, true⟩] :=
  ⟨_, _, rfl, hc, rfl, rfl⟩

theorem has_both {x : BitVec 64} (hx : (⟨b - 8, 1064, true⟩ : Touch).Has x) :
    (⟨b, 1056, true⟩ : Touch).Has x ∨ (⟨b - 8, 8, true⟩ : Touch).Has x := by
  simp only [Touch.Has] at hx ⊢
  bv_omega

theorem builds_iff {pageOk : Nat → Bool → Bool} {h : Handling} {c : Context} (fp : FpState)
    (hc : cpu.User c) (bytes : BitVec 64 → UInt8) :
    port.Builds cpu pageOk h fp c bytes ↔ BuildFine pageOk h c := by
  have hsize : port.frameSize = 1056 := rfl
  by_cases hp : (⟨port.base h c, port.frameSize, true⟩ : Touch).Passes pageOk
  swap
  · refine iff_of_true (Port.build_refused hp) fun hp' => absurd ?_ hp
    rwa [hsize]
  have hbuilt := @Port.build_touches _ _ port cpu pageOk h fp c bytes _ saves_port hp
    fun b restorer s => start_touches hc b restorer s
  obtain ⟨c', t, l, hr, huser, hpassed, htouched, hin⟩ := hbuilt
  refine (Port.builds_iff hr).trans ?_
  rw [hsize] at hp hpassed htouched hin
  have hfit : (port.base h c).toNat + 1056 < 2 ^ 64 :=
    (hp.resolve_left (show ¬ 1056 = 0 by decide)).1
  have haligned : (port.base h c).toNat % 16 = 0 := base_aligned h c
  rw [BuildFine, forall_prop_of_true hp]
  generalize port.base h c = b at hpassed htouched hin hfit haligned ⊢
  have hframe : ⟨b, 1056, true⟩ ∈ t.touched := htouched ▸ List.mem_cons_self
  have hback : ⟨b - 8, 8, true⟩ ∈ t.touched := htouched ▸
    List.mem_cons_of_mem _ (List.mem_append_right l (List.mem_singleton_self _))
  have hall : ∀ x ∈ t.touched, Inside b 1056 true x ∨ x = ⟨b - 8, 8, true⟩ := fun x hx => by
    rw [htouched, List.mem_cons, List.mem_append, List.mem_singleton] at hx
    obtain rfl | hx | rfl := hx
    · exact .inl ⟨rfl, 0, (off_zero b).symm, Nat.le_refl 1056⟩
    · exact .inl (hin x hx)
    · exact .inr rfl
  have hmem : ⟨b, 1056, true⟩ ∈ t.passed := hpassed ▸ List.mem_singleton_self _
  have hpage : ∀ x, (⟨b - 8, 8, true⟩ : Touch).Has x → (x.toNat / PAGE ∈
      (⟨b, 1056, true⟩ : Touch).pages ↔ b.toNat % PAGE ≠ 0) := fun x hx => by
    rw [mem_pages]
    simp only [Touch.Has, PAGE] at hx ⊢
    by_cases hz : b.toNat = 0
    · have hx' : 2 ^ 64 - 8 ≤ x.toNat := by bv_omega
      omega
    · have hx' : b.toNat ≤ x.toNat + 8 ∧ x.toNat < b.toNat := by bv_omega
      omega
  constructor
  · rintro ⟨hchecked, hspared, -⟩
    refine ⟨?_, fun x hx hin => ?_⟩
    · have hself : (⟨b - 8, 8, true⟩ : Touch).Has (b - 8) := by simp [Touch.Has]
      obtain ⟨r, hr, -, hin⟩ := hchecked _ hback _ hself
      rw [hpassed, List.mem_singleton] at hr
      exact (hpage _ hself).mp (hr ▸ hin)
    · obtain hin | hin := has_both hin
      · exact hspared _ hframe rfl x hin hx
      · exact hspared _ hback rfl x hin hx
  · rintro ⟨hb, hred⟩
    refine ⟨fun y hy x hx => ?_, fun y hy _ x hx hbelow => hred x hbelow ?_, fun _ he => ?_⟩
    · obtain hy | rfl := hall y hy
      · exact checked_inside hmem hfit hy hx
      · exact ⟨_, hmem, rfl, (hpage x hx).mpr hb⟩
    · obtain hy | rfl := hall y hy
      · obtain ⟨_, k, hk, hlen⟩ := hy
        simp only [Touch.Has, hk, off] at hx ⊢
        bv_omega
      · simp only [Touch.Has] at hx ⊢
        omega
    · exact Option.some.inj he ▸ huser

/-- What was read on the way back, if the floating-point state is at `p`. -/
structure Loaded (P : Touch → Prop) (p : BitVec 64) (s t : UserSt) : Prop where
  passed : t.passed = s.passed
  all : ∀ x ∈ t.touched, x ∈ s.touched ∨ P x ∨ p ≠ 0 ∧ x = ⟨p, 512, false⟩
  state : p ≠ 0 → ⟨p, 512, false⟩ ∈ t.touched

theorem Loaded.reads {p : BitVec 64} (h : Loaded P p s t) (hu : t.Reads P u) : Loaded P p s u := by
  obtain ⟨l, hl, hP⟩ := hu.touched
  refine ⟨hu.passed.trans h.passed, fun x hx => ?_, fun hp => ?_⟩
  · rw [hl] at hx
    exact (List.mem_append.mp hx).elim (h.all x) fun hx => .inr (.inl (hP x hx))
  · rw [hl]
    exact List.mem_append_left l (h.state hp)

/-- The registers are read by `y`, and the floating-point state where the word at `a` says. -/
theorem ends_load {y : User Context} {V : Context → Prop} {a : BitVec 64} {fp₀ : FpState}
    (hy : Gives (UserSt.Reads P) V y) (ha : P ⟨a, 8, false⟩) :
    Ends (do
        let f ← y
        let p ← r64 a
        let fp ← load_fp p fp₀
        pure (f, fp))
      fun s r t => V r.1 ∧ Loaded P (word s.bytes a) s t ∧
        r.2 = if word s.bytes a = 0 then fp₀
          else ⟨fun i => s.bytes (off (word s.bytes a) i)⟩ := by
  refine ⟨fun s => ?_⟩
  refine (wp_bind _ _).mpr (wp_mono (hy.along s) (fun f t ht => ?_) fun _ _ he => he)
  obtain ⟨ht, hf⟩ := ht
  rw [wp_bind, wp_r64]
  obtain ⟨u, hu⟩ : ∃ u : UserSt, u = { t with touched := t.touched ++ [⟨a, 8, false⟩] } := ⟨_, rfl⟩
  have hread : s.Reads P u := by
    refine Prog.Path.trans ht
      ⟨⟨by rw [hu], [⟨a, 8, false⟩], by rw [hu], fun _ hx => ?_⟩, by rw [hu]⟩
    exact List.mem_singleton.mp hx ▸ ha
  have hword : BitVec.ofNat 64 (leGet (t.at_ a) 0 8) = word s.bytes a := by
    unfold word UserSt.at_
    rw [ht.bytes]
  rw [hword, ← hu]
  generalize word s.bytes a = p
  obtain ⟨l, hl, hP⟩ := hread.touched
  have hin : ∀ x ∈ u.touched, x ∈ s.touched ∨ P x := fun x hx => by
    rw [hl] at hx
    exact (List.mem_append.mp hx).imp_right (hP x)
  unfold load_fp
  by_cases hp : p = 0
  · rw [if_neg (not_not.mpr hp), if_pos hp, wp_bind, wp_pure, wp_pure]
    refine ⟨hf, ⟨hread.passed, fun x hx => ?_, fun hc => absurd hp hc⟩, rfl⟩
    exact (hin x hx).imp_right .inl
  · rw [if_pos hp, if_neg hp]
    rw [wp_bind, wp_bind, wp_read, wp_pure, wp_pure]
    refine ⟨hf, ⟨hread.passed, fun x hx => ?_, fun _ => ?_⟩, ?_⟩
    · obtain hx | hx := List.mem_append.mp hx
      · exact (hin x hx).imp_right .inl
      · exact .inr (.inr ⟨hp, List.mem_singleton.mp hx⟩)
    · exact List.mem_append_right _ (List.mem_singleton_self _)
    · exact congrArg (fun b : BitVec 64 → UInt8 => (⟨fun i => b (off p i)⟩ : FpState)) hread.bytes

theorem flags_user (v : BitVec 64) : (v &&& 0xCD5#64 ||| 0x202#64) &&& 0x3000#64 = 0#64 := by
  rw [BitVec.and_comm, BitVec.and_or_distrib_left, BitVec.and_comm, BitVec.and_assoc]
  simp

theorem setters_keep : ∀ r ∈ setters, r.1 ≤ 17 ∧ ∀ v f, cpu.User f → cpu.User (r.2 v f) := by
  have hkeep : ∀ (g : BitVec 64 → Context → Context), (∀ v f, (g v f).cs = f.cs) →
      (∀ v f, (g v f).ss = f.ss) → (∀ v f, (g v f).rflags = f.rflags) →
      ∀ v f, cpu.User f → cpu.User (g v f) := fun g hcs hss hfl v f hf =>
    ⟨(hcs v f).trans hf.1, (hss v f).trans hf.2.1, (congrArg (· &&& 0x3000) (hfl v f)).trans hf.2.2⟩
  intro r hr
  simp only [setters, List.mem_cons, List.not_mem_nil, or_false] at hr
  rcases hr with rfl | rfl | rfl | rfl | rfl | rfl | rfl | rfl | rfl | rfl | rfl | rfl | rfl | rfl |
    rfl | rfl | rfl | rfl
  case inr.inr.inr.inr.inr.inr.inr.inr.inr.inr.inr.inr.inr.inr.inr.inr.inr =>
    exact ⟨Nat.le_refl 17, fun v f hf => ⟨hf.1, hf.2.1, flags_user v⟩⟩
  all_goals exact ⟨by decide, hkeep _ (fun _ _ => rfl) (fun _ _ => rfl) fun _ _ => rfl⟩

theorem loads_port {c : Context} (hc : cpu.User c) :
    Ends (port.load_mcontext (off c.rsp (SI_SIZE + UC_MCTX)) c port.zeroed) fun s r t =>
      cpu.User r.1 ∧ Loaded (Inside c.rsp 1040 false) (fpptr c s.bytes) s t ∧
        r.2 = if fpptr c s.bytes = 0 then .zeroed
          else ⟨fun i => s.bytes (off (fpptr c s.bytes) i)⟩ := by
  have hin : ∀ k m, k + m ≤ 1040 → Inside c.rsp 1040 false ⟨off c.rsp k, m, false⟩ := fun k m hk =>
    ⟨rfl, k, rfl, hk⟩
  have hloop : Gives (UserSt.Reads (Inside c.rsp 1040 false)) cpu.User
      (setters.foldlM (fun f r => do
        let v ← r64 (off c.rsp (304 + r.1 * 8))
        pure (r.2 v f)) c) := by
    refine .foldlM (fun f r hr hf => .after (reads_num _ _ 8 (hin _ 8 ?_)) fun v => .pure ?_) hc
    · have hle := (setters_keep r hr).1
      omega
    · exact (setters_keep r hr).2 v f hf
  change Ends (load_mcontext (off c.rsp 304) c .zeroed) _
  unfold load_mcontext
  simp only [off_off]
  exact ends_load hloop (hin 488 8 (by omega))

theorem accepts_zeroed : cpu.Accepts .zeroed := by
  change FpState.zeroed.mxcsr < 2 ^ 16
  decide +kernel

theorem returns_iff {pageOk : Nat → Bool → Bool} {c : Context} (hc : cpu.User c)
    (bytes : BitVec 64 → UInt8) : port.Returns cpu pageOk c bytes ↔ ReturnFine pageOk c bytes := by
  have hsize : port.frameSize - 16 = 1040 := rfl
  by_cases hp : (⟨port.context_sp c, port.frameSize - 16, false⟩ : Touch).Passes pageOk
  swap
  · refine iff_of_true (Port.return_refused hp) fun hp' => absurd ?_ hp
    rwa [hsize]
  obtain ⟨r, t, ⟨x, u, ⟨huser, hloaded, hfp⟩, hr, hr', hu⟩, hiff⟩ :=
    @Port.returns_as _ _ port cpu pageOk c bytes _ hp (Port.restore_ends (loads_port hc))
  refine hiff.trans ?_
  rw [hsize] at hp hloaded hu
  have hback : cpu.User r.1 := hr ▸ huser
  have hp' : (⟨c.rsp, 1040, false⟩ : Touch).Passes pageOk := hp
  rw [and_iff_right hback, hr', hfp, ReturnFine, forall_prop_of_true hp']
  obtain ⟨hpassed, hall, hstate⟩ := hloaded.reads hu
  change _ ∧ cpu.Accepts (if fpptr c bytes = 0 then .zeroed
    else ⟨fun i => bytes (off (fpptr c bytes) i)⟩) ↔ _
  generalize fpptr c bytes = p at hall hstate ⊢
  have hfit : c.rsp.toNat + 1040 < 2 ^ 64 := (hp.resolve_left (show ¬ 1040 = 0 by decide)).1
  have hmem : ⟨c.rsp, 1040, false⟩ ∈ t.passed := hpassed ▸ List.mem_singleton_self _
  by_cases h0 : p = 0
  · rw [if_pos h0]
    refine iff_of_true ⟨fun y hy x hx => ?_, accepts_zeroed⟩ (.inl h0)
    obtain hy | hy | hy := hall y hy
    · exact absurd hy List.not_mem_nil
    · exact checked_inside hmem hfit hy hx
    · exact absurd h0 hy.1
  · rw [if_neg h0, or_iff_right h0]
    refine and_congr_left fun _ => ⟨fun hchecked x hx => ?_, fun hpages y hy x hx => ?_⟩
    · obtain ⟨z, hz, -, hin⟩ := hchecked _ (hstate h0) x hx
      rw [hpassed] at hz
      exact List.mem_singleton.mp hz ▸ hin
    · obtain hy | hy | hy := hall y hy
      · exact absurd hy List.not_mem_nil
      · exact checked_inside hmem hfit hy hx
      · obtain rfl := hy.2
        exact ⟨_, hmem, rfl, hpages x hx⟩

end X86

/-! ### The three -/

/-- **Handlers start and end safely** on all three exactly if they do on x86_64. -/
theorem frames_safe (pageOk : Nat → Bool → Bool) (h : Handling) (bytes : BitVec 64 → UInt8)
    {ca : Aarch64.Context} {cr : Riscv64.Context} {cx : X86.Context} (fa : Aarch64.FpState)
    (fr : Riscv64.FpState) (fx : X86.FpState) (ha : Aarch64.cpu.User ca)
    (hr : Riscv64.cpu.User cr) (hx : X86.cpu.User cx) :
    ((Aarch64.port.Builds Aarch64.cpu pageOk h fa ca bytes ∧
        Aarch64.port.Returns Aarch64.cpu pageOk ca bytes) ∧
      (Riscv64.port.Builds Riscv64.cpu pageOk h fr cr bytes ∧
        Riscv64.port.Returns Riscv64.cpu pageOk cr bytes) ∧
      X86.port.Builds X86.cpu pageOk h fx cx bytes ∧ X86.port.Returns X86.cpu pageOk cx bytes) ↔
    X86.BuildFine pageOk h cx ∧ X86.ReturnFine pageOk cx bytes := by
  rw [X86.builds_iff fx hx bytes, X86.returns_iff hx bytes]
  exact ⟨fun hall => hall.2.2, fun hfine => ⟨⟨Aarch64.builds pageOk h fa ha bytes,
    Aarch64.returns pageOk ca bytes⟩, ⟨Riscv64.builds pageOk h fr hr bytes,
    Riscv64.returns pageOk hr bytes⟩, hfine⟩⟩

/-- A handler of `SIGSEGV` at `0x400000`, on the stack of the program. -/
def handled : Handling := ⟨11, ⟨0x400000, 0, 0, 0⟩, 0, none, (0, 0, 1), false⟩

/-- The registers of a program on x86_64, with its stack at `sp`. -/
def X86.running (sp : BitVec 64) : X86.Context := X86.Context.new_user 0x401000 sp

theorem user_running (sp : BitVec 64) : X86.cpu.User (X86.running sp) :=
  ⟨rfl, rfl, (show X86.RFLAGS_USER &&& 0x3000 = 0 by decide)⟩

/-- The same, on a stack of its own. -/
def aside : Handling := { handled with alt := some (0x20000, 0x4000) }

/-- A frame on a stack of its own is built, and one without floating-point state is returned from. -/
theorem frames_safe_aside :
    (⟨X86.port.base aside (X86.running 0x7000), 1056, true⟩ : Touch).Passes (fun _ _ => true) ∧
    (Aarch64.port.Builds Aarch64.cpu (fun _ _ => true) aside .zeroed .zeroed (fun _ => 0) ∧
        Aarch64.port.Returns Aarch64.cpu (fun _ _ => true) .zeroed fun _ => 0) ∧
      (Riscv64.port.Builds Riscv64.cpu (fun _ _ => true) aside .zeroed .zeroed (fun _ => 0) ∧
        Riscv64.port.Returns Riscv64.cpu (fun _ _ => true) .zeroed fun _ => 0) ∧
      X86.port.Builds X86.cpu (fun _ _ => true) aside .zeroed (X86.running 0x7000) (fun _ => 0) ∧
      X86.port.Returns X86.cpu (fun _ _ => true) (X86.running 0x7000) fun _ => 0 := by
  have hbase : X86.port.base aside (X86.running 0x7000) = 0x23BE0 := by decide +kernel
  refine ⟨by rw [hbase]; decide +kernel, (frames_safe _ _ _ .zeroed .zeroed .zeroed
    (show Aarch64.cpu.User .zeroed from rfl) (show Riscv64.cpu.User .zeroed from rfl)
    (user_running 0x7000)).mpr ⟨fun _ => ?_, fun _ => .inl (by decide +kernel)⟩⟩
  rw [hbase]
  refine ⟨by decide, fun x hx hhas => ?_⟩
  have hrsp : (X86.running 0x7000).rsp = 0x7000 := rfl
  rw [hrsp] at hx
  unfold Below at hx
  unfold Touch.Has at hhas
  bv_omega

/-- The word at `0x71E8` is the address of the kernel. -/
def framed (a : BitVec 64) : UInt8 := if a.toNat = 0x71EF then 0x80 else 0

/-- **The frame overwrites the red zone**, and the kernel is read where the frame says so. -/
theorem frames_unsafe :
    ¬ X86.port.Builds X86.cpu (fun _ _ => true) handled .zeroed (X86.running 0x7000) (fun _ => 0) ∧
    ¬ X86.port.Returns X86.cpu (fun p _ => decide (p < 16)) (X86.running 0x7000) framed := by
  constructor
  · rw [X86.builds_iff .zeroed (user_running _)]
    intro hfine
    obtain ⟨-, hred⟩ := hfine (by decide +kernel)
    exact hred 0x6FF0 (by decide +kernel) (by decide +kernel)
  · rw [X86.returns_iff (user_running _)]
    intro hfine
    have hptr : X86.fpptr (X86.running 0x7000) framed = 0x8000000000000000 := by decide +kernel
    rcases hfine (by decide +kernel) with h0 | ⟨hpages, -⟩
    · rw [hptr] at h0
      exact absurd h0 (by decide)
    · rw [hptr] at hpages
      exact absurd (hpages 0x8000000000000000 (by decide)) (by decide +kernel)

end Pulsar.Arch

import Pulsar.Kernel.Rights
import Mathlib.Logic.Relation

/-!
# Control buffers (`linux.rs`)

The loop of `unix_msg` over the headers of the control buffer that `sendmsg` was given.  A header
tells its own length, a word of 64 bits; the next one is behind it, eight bytes apart.

* `control_loop`: the loop ends, goes forward, reads in the buffer and collects the descriptors of
  the well-formed headers, for exactly the buffers with whose headers nothing goes wrong (`Sane`).
* `control_stuck`: it does not end at a header that is as long as a word can tell.
-/

namespace Pulsar.Kernel

open Relation

/-- User memory during a call: what `user_ok` says of a range, and the bytes. -/
structure UserMem where
  ok : UInt64 → Nat → Bool
  byte : UInt64 → UInt8

/-- `ubuf(ptr, len, false)`, of a range that is not empty. -/
def UserMem.readable (u : UserMem) (p : UInt64) (n : Nat) : Bool := p != 0 && u.ok p n

def UserMem.word (u : UserMem) (p : UInt64) : UInt32 :=
  (u.byte p).toUInt32 ||| (u.byte (p + 1)).toUInt32 <<< 8 ||| (u.byte (p + 2)).toUInt32 <<< 16 |||
    (u.byte (p + 3)).toUInt32 <<< 24

/-- `cmsghdr`. -/
structure Cmsg where
  len : UInt64
  level : UInt32
  type : UInt32

def UserMem.cmsg (u : UserMem) (p : UInt64) : Cmsg where
  len := (u.word p).toUInt64 ||| (u.word (p + 4)).toUInt64 <<< 32
  level := u.word (p + 8)
  type := u.word (p + 12)

/-- How many descriptors a header says that it holds: none, if it is not `SCM_RIGHTS`. -/
def Cmsg.count (h : Cmsg) : Nat :=
  if h.level = 1 ∧ h.type = 1 then ((h.len - 16) / 4).toNat else 0

/-- `(clen + 7) & !7`. -/
def Cmsg.step (h : Cmsg) : UInt64 := (h.len + 7) &&& ~~~7

/-- The loop at the top of its body, with what was read. -/
structure Ctl where
  off : UInt64
  fds : List UInt32
  reads : List (UInt64 × Nat)

/-- The address of the descriptor `k` of the header at `p`. -/
def fdAt (p : UInt64) (k : Nat) : UInt64 := p + 16 + UInt64.ofNat k * 4

/-- `for k in k..k + n` over the descriptors of the header at `p`. -/
def takeFds (u : UserMem) (p : UInt64) : (n k : Nat) → List UInt32 → List (UInt64 × Nat) →
    Except Errno (List UInt32) × List (UInt64 × Nat)
  | 0, _, fds, reads => (.ok fds, reads)
  | n + 1, k, fds, reads =>
    if fds.length = MAX_ATT_FDS then (.error EINVAL, reads)
    else if u.readable (fdAt p k) 4 then
      takeFds u p n (k + 1) (fds ++ [u.word (fdAt p k)]) (reads ++ [(fdAt p k, 4)])
    else (.error EFAULT, reads)

inductive Turn where
  | done (r : Except Errno (List UInt32)) (reads : List (UInt64 × Nat))
  | more (s : Ctl)

/-- One turn of the loop, for a control buffer of `ctllen` bytes at `ctl`. -/
def ctlTurn (u : UserMem) (ctl ctllen : UInt64) (s : Ctl) : Turn :=
  if ctl ≠ 0 ∧ s.off + 16 ≤ ctllen then
    if u.readable (ctl + s.off) 16 then
      let h := u.cmsg (ctl + s.off)
      let reads := s.reads ++ [(ctl + s.off, 16)]
      if h.len < 16 then .done (.ok s.fds) reads
      else
        match takeFds u (ctl + s.off) h.count 0 s.fds reads with
        | (.ok fds, reads) => .more ⟨s.off + h.step, fds, reads⟩
        | (.error e, reads) => .done (.error e) reads
    else .done (.error EFAULT) s.reads
  else .done (.ok s.fds) s.reads

/-- What the loop answers, what it read and the offsets at which it was. -/
structure Parsed where
  res : Except Errno (List UInt32)
  reads : List (UInt64 × Nat)
  offs : List UInt64

/-- The loop, for as many turns as are told. -/
def ctlLoop (u : UserMem) (ctl ctllen : UInt64) : Nat → Ctl → Option Parsed
  | 0, _ => none
  | n + 1, s =>
    match ctlTurn u ctl ctllen s with
    | .done r reads => some ⟨r, reads, [s.off]⟩
    | .more s' => (ctlLoop u ctl ctllen n s').map fun o => { o with offs := s.off :: o.offs }

def Ctl.start : Ctl := ⟨0, [], []⟩

/-! ### What the headers say -/

/-- `n` up to a multiple of eight. -/
def up8 (n : Nat) : Nat := (n + 7) / 8 * 8

/-- The `n` descriptors of the header at `p` can be read, and there is room for them. -/
def Takes (u : UserMem) (p : UInt64) (n : Nat) (fds : List UInt32) : Prop :=
  ∀ k < n, fds.length + k < MAX_ATT_FDS ∧ u.readable (fdAt p k) 4 = true

def fdsOf (u : UserMem) (p : UInt64) (n : Nat) : List UInt32 :=
  (List.range n).map fun k => u.word (fdAt p k)

/-- What the headers from an offset on hold, with what was collected before: nothing is collected
where a header or a descriptor cannot be read or there is no room for one; a header that is shorter
than a header or longer than the buffer ends the list. -/
inductive Collects (u : UserMem) (ctl ctllen : UInt64) :
    Nat → List UInt32 → Option (List UInt32) → Prop where
  | finish {off : Nat} {acc : List UInt32} (h : ctl = 0 ∨ ctllen.toNat < off + 16) :
      Collects u ctl ctllen off acc (some acc)
  | unreadable {off : Nat} {acc : List UInt32}
      (h : ctl ≠ 0 ∧ off + 16 ≤ ctllen.toNat)
      (hr : ¬ u.readable (ctl + UInt64.ofNat off) 16) : Collects u ctl ctllen off acc none
  | malformed {off : Nat} {acc : List UInt32}
      (h : ctl ≠ 0 ∧ off + 16 ≤ ctllen.toNat)
      (hr : u.readable (ctl + UInt64.ofNat off) 16)
      (hm : (u.cmsg (ctl + UInt64.ofNat off)).len.toNat < 16 ∨
        ctllen.toNat < off + (u.cmsg (ctl + UInt64.ofNat off)).len.toNat) :
      Collects u ctl ctllen off acc (some acc)
  | refused {off : Nat} {acc : List UInt32}
      (h : ctl ≠ 0 ∧ off + 16 ≤ ctllen.toNat)
      (hr : u.readable (ctl + UInt64.ofNat off) 16)
      (hw : 16 ≤ (u.cmsg (ctl + UInt64.ofNat off)).len.toNat ∧
        off + (u.cmsg (ctl + UInt64.ofNat off)).len.toNat ≤ ctllen.toNat)
      (ht : ¬ Takes u (ctl + UInt64.ofNat off) (u.cmsg (ctl + UInt64.ofNat off)).count acc) :
      Collects u ctl ctllen off acc none
  | header {off : Nat} {acc : List UInt32} {r : Option (List UInt32)}
      (h : ctl ≠ 0 ∧ off + 16 ≤ ctllen.toNat)
      (hr : u.readable (ctl + UInt64.ofNat off) 16)
      (hw : 16 ≤ (u.cmsg (ctl + UInt64.ofNat off)).len.toNat ∧
        off + (u.cmsg (ctl + UInt64.ofNat off)).len.toNat ≤ ctllen.toNat)
      (ht : Takes u (ctl + UInt64.ofNat off) (u.cmsg (ctl + UInt64.ofNat off)).count acc)
      (hnext : Collects u ctl ctllen (off + up8 (u.cmsg (ctl + UInt64.ofNat off)).len.toNat)
        (acc ++ fdsOf u (ctl + UInt64.ofNat off) (u.cmsg (ctl + UInt64.ofNat off)).count) r) :
      Collects u ctl ctllen off acc r

variable {u : UserMem} {ctl ctllen : UInt64} {off n k : Nat} {acc fds : List UInt32}
  {r : Option (List UInt32)} {s s' : Ctl} {reads : List (UInt64 × Nat)} {p : UInt64} {o : Parsed}

/-- The loop collected what the headers hold, went forward by a header or more at each turn, and
read in the buffer. -/
structure Parsed.Right (u : UserMem) (ctl ctllen : UInt64) (o : Parsed) : Prop where
  collects : Collects u ctl ctllen 0 [] o.res.toOption
  forward : o.offs.IsChain fun a b => a.toNat + 16 ≤ b.toNat
  inside : ∀ a ∈ o.reads, (a.1 - ctl).toNat + a.2 ≤ ctllen.toNat

/-- A turn of the loop goes on to the next. -/
def GoesOn (u : UserMem) (ctl ctllen : UInt64) (s s' : Ctl) : Prop :=
  ctlTurn u ctl ctllen s = .more s'

/-- Nothing goes wrong at a header: it is shorter than a header, or it lies in the buffer and what it
holds is refused, or it lies in the buffer or holds nothing, and the offset behind it does not go
round. -/
def Sane (u : UserMem) (ctl ctllen : UInt64) (s : Ctl) : Prop :=
  ctl ≠ 0 → s.off.toNat + 16 ≤ ctllen.toNat → u.readable (ctl + s.off) 16 = true →
    let h := u.cmsg (ctl + s.off)
    let within := s.off.toNat + h.len.toNat ≤ ctllen.toNat
    h.len.toNat < 16 ∨ (within ∧ ¬ Takes u (ctl + s.off) h.count s.fds) ∨
      ((within ∨ h.count = 0) ∧ s.off.toNat + up8 h.len.toNat + 16 < 2 ^ 64)

/-! ### The words -/

theorem step_toNat (h : Cmsg) : h.step.toNat = up8 h.len.toNat % 2 ^ 64 := by
  have hlt := h.len.toNat_lt
  have hclear : ∀ x < 2 ^ 64, x &&& 18446744073709551608 = x / 8 * 8 := by
    intro x hx
    have hmask : 18446744073709551608 = (2 ^ 61 - 1) <<< 3 := by decide
    have hcut : x / 8 * 8 = (x >>> 3) <<< 3 := by
      rw [Nat.shiftLeft_eq, Nat.shiftRight_eq_div_pow]
    rw [hmask, hcut]
    refine Nat.eq_of_testBit_eq fun i => ?_
    rw [Nat.testBit_and, Nat.testBit_shiftLeft, Nat.testBit_shiftLeft, Nat.testBit_two_pow_sub_one,
      Nat.testBit_shiftRight]
    by_cases hi : 3 ≤ i
    · rw [Nat.add_sub_cancel' hi]
      by_cases hhigh : i < 64
      · simp [hi, show i - 3 < 61 by omega]
      · rw [Nat.testBit_lt_two_pow (hx.trans_le (Nat.pow_le_pow_right (by decide) (by omega)))]
        simp
    · simp [hi]
  rw [Cmsg.step, UInt64.toNat_and, UInt64.toNat_add]
  refine (hclear _ (Nat.mod_lt _ (by decide))).trans ?_
  change (h.len.toNat + 7) % 2 ^ 64 / 8 * 8 = _
  rw [up8]
  omega

theorem fdAt_inside (h : s.off.toNat + 16 + 4 * k + 4 ≤ ctllen.toNat) :
    (fdAt (ctl + s.off) k - ctl).toNat + 4 ≤ ctllen.toNat := by
  have hlt := ctllen.toNat_lt
  have hsub : fdAt (ctl + s.off) k - ctl = s.off + 16 + UInt64.ofNat k * 4 := by
    rw [fdAt]
    grind
  have hmul : (UInt64.ofNat k * 4).toNat = 4 * k := by
    rw [UInt64.toNat_mul, UInt64.toNat_ofNat']
    change k % 2 ^ 64 * 4 % 2 ^ 64 = _
    omega
  have hsum : (s.off + 16).toNat = s.off.toNat + 16 := by
    rw [UInt64.toNat_add]
    exact Nat.mod_eq_of_lt (by change s.off.toNat + 16 < _; omega)
  rw [hsub, UInt64.toNat_add, hmul, hsum]
  omega

/-! ### The descriptors of a header -/

/-- **What is taken**, where every descriptor can be. -/
theorem takeFds_ok : ∀ {n k : Nat} {fds : List UInt32} {reads : List (UInt64 × Nat)},
    (∀ j < n, fds.length + j < MAX_ATT_FDS ∧ u.readable (fdAt p (k + j)) 4 = true) →
      takeFds u p n k fds reads =
        (.ok (fds ++ (List.range n).map fun j => u.word (fdAt p (k + j))),
          reads ++ (List.range n).map fun j => (fdAt p (k + j), 4)) := by
  intro n
  induction n with
  | zero => exact fun _ => by simp [takeFds]
  | succ n ih =>
      intro k fds reads h
      obtain ⟨hlen, hread⟩ := h 0 (Nat.succ_pos n)
      have hnext := @ih (k + 1) (fds ++ [u.word (fdAt p k)])
        (reads ++ [(fdAt p k, 4)]) fun j hj => by
          obtain ⟨hlen, hread⟩ := h (j + 1) (Nat.succ_lt_succ hj)
          rw [List.length_append, List.length_singleton, Nat.add_assoc, Nat.add_comm 1,
            Nat.add_assoc, Nat.add_comm 1]
          exact ⟨hlen, hread⟩
      have hne : fds.length ≠ MAX_ATT_FDS := Nat.ne_of_lt hlen
      have hfirst : u.readable (fdAt p k) 4 = true := hread
      rw [takeFds, if_neg hne, if_pos hfirst, hnext]
      simp only [List.range_succ_eq_map, List.map_cons, List.map_map, List.append_assoc,
        List.singleton_append, Nat.add_zero, Function.comp_def, Nat.add_assoc, Nat.add_comm 1,
        Nat.succ_eq_add_one]

/-- **What is refused**, after some were taken. -/
theorem takeFds_error : ∀ {n k : Nat} {fds : List UInt32} {reads : List (UInt64 × Nat)},
    fds.length ≤ MAX_ATT_FDS →
    (¬ ∀ j < n, fds.length + j < MAX_ATT_FDS ∧ u.readable (fdAt p (k + j)) 4 = true) →
      ∃ e m, m ≤ n ∧ takeFds u p n k fds reads =
        (.error e, reads ++ (List.range m).map fun j => (fdAt p (k + j), 4)) := by
  intro n
  induction n with
  | zero => exact fun _ h => absurd (fun j hj => absurd hj (Nat.not_lt_zero j)) h
  | succ n ih =>
      intro k fds reads hle h
      rw [takeFds]
      by_cases hlen : fds.length = MAX_ATT_FDS
      · exact ⟨EINVAL, 0, Nat.zero_le _, by simp [hlen]⟩
      rw [if_neg hlen]
      by_cases hread : u.readable (fdAt p k) 4 = true
      · rw [if_pos hread]
        obtain ⟨e, m, hm, hnext⟩ := @ih (k + 1) (fds ++ [u.word (fdAt p k)])
          (reads ++ [(fdAt p k, 4)])
          (by rw [List.length_append, List.length_singleton]; omega)
          fun hall => h fun j hj => by
            cases j with
            | zero => exact ⟨by omega, hread⟩
            | succ j =>
                have hj' := hall j (by omega)
                rwa [List.length_append, List.length_singleton, Nat.add_assoc, Nat.add_comm 1,
                  Nat.add_assoc, Nat.add_comm 1] at hj'
        refine ⟨e, m + 1, by omega, ?_⟩
        rw [hnext]
        simp only [List.range_succ_eq_map, List.map_cons, List.map_map, List.append_assoc,
          List.singleton_append, Nat.add_zero, Function.comp_def, Nat.add_assoc, Nat.add_comm 1,
          Nat.succ_eq_add_one]
      · exact ⟨EFAULT, 0, Nat.zero_le _, by simp [hread]⟩

/-- What a turn does while the offset is not about to go round: it ends behind the buffer, at a
header that cannot be read, at one that is too short or at one of which a descriptor is refused, or
it goes on behind the header. -/
inductive Turned (u : UserMem) (ctl ctllen : UInt64) (s : Ctl) : Turn → Prop where
  | behind (h : ctl = 0 ∨ ctllen.toNat < s.off.toNat + 16) :
      Turned u ctl ctllen s (.done (.ok s.fds) s.reads)
  | unreadable (h : ctl ≠ 0 ∧ s.off.toNat + 16 ≤ ctllen.toNat)
      (hr : ¬ u.readable (ctl + s.off) 16 = true) :
      Turned u ctl ctllen s (.done (.error EFAULT) s.reads)
  | short (h : ctl ≠ 0 ∧ s.off.toNat + 16 ≤ ctllen.toNat)
      (hr : u.readable (ctl + s.off) 16 = true) (hlen : (u.cmsg (ctl + s.off)).len.toNat < 16) :
      Turned u ctl ctllen s (.done (.ok s.fds) (s.reads ++ [(ctl + s.off, 16)]))
  | refused {e : Errno} {m : Nat} (h : ctl ≠ 0 ∧ s.off.toNat + 16 ≤ ctllen.toNat)
      (hr : u.readable (ctl + s.off) 16 = true) (hlen : 16 ≤ (u.cmsg (ctl + s.off)).len.toNat)
      (ht : ¬ Takes u (ctl + s.off) (u.cmsg (ctl + s.off)).count s.fds)
      (hm : m ≤ (u.cmsg (ctl + s.off)).count) :
      Turned u ctl ctllen s (.done (.error e) (s.reads ++ [(ctl + s.off, 16)] ++
        (List.range m).map fun k => (fdAt (ctl + s.off) k, 4)))
  | onward (h : ctl ≠ 0 ∧ s.off.toNat + 16 ≤ ctllen.toNat)
      (hr : u.readable (ctl + s.off) 16 = true) (hlen : 16 ≤ (u.cmsg (ctl + s.off)).len.toNat)
      (ht : Takes u (ctl + s.off) (u.cmsg (ctl + s.off)).count s.fds) :
      Turned u ctl ctllen s (.more
        ⟨s.off + (u.cmsg (ctl + s.off)).step,
          s.fds ++ fdsOf u (ctl + s.off) (u.cmsg (ctl + s.off)).count,
          s.reads ++ [(ctl + s.off, 16)] ++ (List.range (u.cmsg (ctl + s.off)).count).map
            fun k => (fdAt (ctl + s.off) k, 4)⟩)

/-- **Each turn** does one of these. -/
theorem ctlTurn_turned (u : UserMem) (ctl ctllen : UInt64) {s : Ctl}
    (hoff : s.off.toNat + 16 < 2 ^ 64) (hfds : s.fds.length ≤ MAX_ATT_FDS) :
    Turned u ctl ctllen s (ctlTurn u ctl ctllen s) := by
  have hle : s.off + 16 ≤ ctllen ↔ s.off.toNat + 16 ≤ ctllen.toNat := by
    rw [UInt64.le_iff_toNat_le, UInt64.toNat_add]
    exact iff_of_eq (congrArg (· ≤ _) (Nat.mod_eq_of_lt hoff))
  have hshort : (u.cmsg (ctl + s.off)).len < 16 ↔ (u.cmsg (ctl + s.off)).len.toNat < 16 :=
    UInt64.lt_iff_toNat_lt
  simp only [ctlTurn, hle]
  by_cases h : ctl ≠ 0 ∧ s.off.toNat + 16 ≤ ctllen.toNat
  · rw [if_pos h]
    by_cases hr : u.readable (ctl + s.off) 16 = true
    · rw [if_pos hr]
      simp only [hshort]
      by_cases hlen : (u.cmsg (ctl + s.off)).len.toNat < 16
      · rw [if_pos hlen]
        exact .short h hr hlen
      · rw [if_neg hlen]
        by_cases ht : Takes u (ctl + s.off) (u.cmsg (ctl + s.off)).count s.fds
        · have hok := @takeFds_ok u (ctl + s.off) _ 0 _
            (s.reads ++ [(ctl + s.off, 16)]) (by simpa only [Nat.zero_add, Takes] using ht)
          simp only [Nat.zero_add] at hok
          rw [hok]
          exact .onward h hr (Nat.le_of_not_lt hlen) ht
        · obtain ⟨e, m, hm, herr⟩ := @takeFds_error u (ctl + s.off) _ 0 _
            (s.reads ++ [(ctl + s.off, 16)]) hfds (by simpa only [Nat.zero_add, Takes] using ht)
          simp only [Nat.zero_add] at herr
          rw [herr]
          exact .refused h hr (Nat.le_of_not_lt hlen) ht hm
    · rw [if_neg hr]
      exact .unreadable h hr
  · rw [if_neg h]
    refine .behind ?_
    by_cases hctl : ctl = 0
    · exact .inl hctl
    · exact .inr (Nat.lt_of_not_le fun hle => h ⟨hctl, hle⟩)

/-! ### What a turn leaves alone -/

theorem takeFds_extends : ∀ {n k : Nat} {fds : List UInt32} {reads : List (UInt64 × Nat)},
    reads <+: (takeFds u p n k fds reads).2 ∧
      ∀ fds', (takeFds u p n k fds reads).1 = .ok fds' → fds <+: fds' := by
  intro n
  induction n with
  | zero =>
      refine fun {k fds reads} => ⟨List.prefix_rfl, fun fds' h => ?_⟩
      rw [takeFds] at h
      exact Except.ok.inj h ▸ List.prefix_rfl
  | succ n ih =>
      intro k fds reads
      rw [takeFds]
      split
      · exact ⟨List.prefix_rfl, nofun⟩
      · split
        · obtain ⟨hreads, hfds⟩ := @ih (k + 1) (fds ++ [u.word (fdAt p k)])
            (reads ++ [(fdAt p k, 4)])
          exact ⟨(List.prefix_append ..).trans hreads,
            fun fds' h => (List.prefix_append ..).trans (hfds fds' h)⟩
        · exact ⟨List.prefix_rfl, nofun⟩

/-- What was read and collected stays. -/
def Turn.Extends (s : Ctl) : Turn → Prop
  | .done r reads => s.reads <+: reads ∧ ∀ fds, r = .ok fds → s.fds <+: fds
  | .more s' => s.reads <+: s'.reads ∧ s.fds <+: s'.fds

theorem ctlTurn_extends (u : UserMem) (ctl ctllen : UInt64) (s : Ctl) :
    (ctlTurn u ctl ctllen s).Extends s := by
  have hok : ∀ fds, (Except.ok s.fds : Except Errno _) = .ok fds → s.fds <+: fds :=
    fun _ h => Except.ok.inj h ▸ List.prefix_rfl
  rw [ctlTurn]
  split
  · split
    · dsimp only
      split
      · exact ⟨List.prefix_append .., hok⟩
      · obtain ⟨hreads, hfds⟩ := @takeFds_extends u (ctl + s.off)
          (u.cmsg (ctl + s.off)).count 0 s.fds (s.reads ++ [(ctl + s.off, 16)])
        split
        · rename_i fds reads htake
          rw [htake] at hreads hfds
          exact ⟨(List.prefix_append ..).trans hreads, hfds fds rfl⟩
        · rename_i e reads htake
          rw [htake] at hreads
          exact ⟨(List.prefix_append ..).trans hreads, nofun⟩
    · exact ⟨List.prefix_rfl, nofun⟩
  · exact ⟨List.prefix_rfl, hok⟩

theorem ctlLoop_extends : ∀ {n : Nat} {s : Ctl} {o : Parsed}, ctlLoop u ctl ctllen n s = some o →
    (∃ offs, o.offs = s.off :: offs) ∧ s.reads <+: o.reads ∧
      ∀ fds, o.res = .ok fds → s.fds <+: fds := by
  intro n
  induction n with
  | zero => exact nofun
  | succ n ih =>
      intro s o h
      have hext := ctlTurn_extends u ctl ctllen s
      rw [ctlLoop] at h
      split at h
      · rename_i r reads hturn
        rw [hturn] at hext
        obtain rfl := Option.some.inj h
        exact ⟨⟨[], rfl⟩, hext⟩
      · rename_i s' hturn
        rw [hturn] at hext
        obtain ⟨o', ho', rfl⟩ := Option.map_eq_some_iff.mp h
        obtain ⟨-, hreads, hfds⟩ := ih ho'
        exact ⟨⟨_, rfl⟩, hext.1.trans hreads, fun fds hr => hext.2.trans (hfds fds hr)⟩

/-! ### Where nothing goes wrong -/

theorem count_le {h : Cmsg} (hlen : 16 ≤ h.len.toNat) : 16 + 4 * h.count ≤ h.len.toNat := by
  have hsub : (h.len - 16).toNat = h.len.toNat - 16 := by
    have hle : 16 ≤ h.len := UInt64.le_iff_toNat_le.mpr hlen
    rw [UInt64.toNat_sub_of_le _ _ hle]
    rfl
  rw [Cmsg.count]
  split
  · rw [UInt64.toNat_div, hsub]
    change 16 + 4 * ((h.len.toNat - 16) / 4) ≤ _
    omega
  · omega

theorem up8_le (n : Nat) : n ≤ up8 n ∧ up8 n ≤ n + 7 := by
  rw [up8]
  omega

theorem forward_iff {h : Cmsg} {off : UInt64} (hlen : 16 ≤ h.len.toNat) :
    (off.toNat + 16 ≤ (off + h.step).toNat ↔ off.toNat + up8 h.len.toNat < 2 ^ 64) ∧
      (off.toNat + up8 h.len.toNat < 2 ^ 64 →
        (off + h.step).toNat = off.toNat + up8 h.len.toNat) := by
  have hlt := h.len.toNat_lt
  have hoff := off.toNat_lt
  have hup := up8_le h.len.toNat
  have hdvd : up8 h.len.toNat % 8 = 0 := by
    rw [up8]
    omega
  rw [UInt64.toNat_add, step_toNat]
  omega

theorem Takes.length_le (h : Takes u p n fds) (hfds : fds.length ≤ MAX_ATT_FDS) :
    (fds ++ fdsOf u p n).length ≤ MAX_ATT_FDS := by
  rw [List.length_append, fdsOf, List.length_map, List.length_range]
  cases n with
  | zero => exact hfds
  | succ n =>
      have hlast := (h n (Nat.lt_succ_self n)).1
      omega

theorem Collects.at_header (h : Collects u ctl ctllen s.off.toNat acc r)
    (hhead : ctl ≠ 0 ∧ s.off.toNat + 16 ≤ ctllen.toNat)
    (hr : u.readable (ctl + s.off) 16 = true) (hlen : 16 ≤ (u.cmsg (ctl + s.off)).len.toNat) :
    (ctllen.toNat < s.off.toNat + (u.cmsg (ctl + s.off)).len.toNat ∧ r = some acc) ∨
    (s.off.toNat + (u.cmsg (ctl + s.off)).len.toNat ≤ ctllen.toNat ∧
      ((¬ Takes u (ctl + s.off) (u.cmsg (ctl + s.off)).count acc ∧ r = none) ∨
        (Takes u (ctl + s.off) (u.cmsg (ctl + s.off)).count acc ∧
          Collects u ctl ctllen (s.off.toNat + up8 (u.cmsg (ctl + s.off)).len.toNat)
            (acc ++ fdsOf u (ctl + s.off) (u.cmsg (ctl + s.off)).count) r))) := by
  have haddr : ctl + UInt64.ofNat s.off.toNat = ctl + s.off := by rw [UInt64.ofNat_toNat]
  generalize hoff : s.off.toNat = off at h hhead haddr ⊢
  cases h with
  | finish h =>
      obtain h | h := h
      · exact absurd h hhead.1
      · exact absurd hhead.2 (Nat.not_le.mpr h)
  | unreadable h hr' => exact absurd (haddr ▸ hr) hr'
  | malformed h hr' hm =>
      rw [haddr] at hm
      exact .inl ⟨hm.resolve_left (Nat.not_lt.mpr hlen), rfl⟩
  | refused h hr' hw ht =>
      rw [haddr] at hw ht
      exact .inr ⟨hw.2, .inl ⟨ht, rfl⟩⟩
  | header h hr' hw ht hnext =>
      rw [haddr] at hw ht hnext
      exact .inr ⟨hw.2, .inr ⟨ht, hnext⟩⟩

theorem Collects.behind (h : Collects u ctl ctllen off acc r) (hoff : ctllen.toNat < off + 16) :
    r = some acc := by
  cases h with
  | finish => rfl
  | unreadable h | malformed h | refused h | header h => omega

theorem ctlLoop_round (hctl : ctl ≠ 0) (hlen : 16 ≤ ctllen.toNat)
    (hoff : 2 ^ 64 ≤ s.off.toNat + 16) (h : ctlLoop u ctl ctllen n s = some o) :
    o.res = .error EFAULT ∨ (ctl + s.off, 16) ∈ o.reads := by
  have hlt := s.off.toNat_lt
  have hle : s.off + 16 ≤ ctllen := by
    rw [UInt64.le_iff_toNat_le, UInt64.toNat_add]
    change (s.off.toNat + 16) % 2 ^ 64 ≤ _
    omega
  have hread : ctlTurn u ctl ctllen s = .done (.error EFAULT) s.reads ∨
      (∃ r reads, ctlTurn u ctl ctllen s = .done r reads ∧ (ctl + s.off, 16) ∈ reads) ∨
      ∃ s', ctlTurn u ctl ctllen s = .more s' ∧ (ctl + s.off, 16) ∈ s'.reads := by
    rw [ctlTurn, if_pos ⟨hctl, hle⟩]
    split
    · dsimp only
      split
      · exact .inr (.inl ⟨_, _, rfl, List.mem_append_right _ List.mem_cons_self⟩)
      · obtain ⟨hreads, -⟩ := @takeFds_extends u (ctl + s.off)
          (u.cmsg (ctl + s.off)).count 0 s.fds (s.reads ++ [(ctl + s.off, 16)])
        have hmem := hreads.subset (List.mem_append_right s.reads List.mem_cons_self)
        split
        · rename_i htake
          rw [htake] at hmem
          exact .inr (.inr ⟨_, rfl, hmem⟩)
        · rename_i htake
          rw [htake] at hmem
          exact .inr (.inl ⟨_, _, rfl, hmem⟩)
    · exact .inl rfl
  cases n with
  | zero => exact absurd h nofun
  | succ n =>
      rw [ctlLoop] at h
      obtain hturn | ⟨r, reads, hturn, hmem⟩ | ⟨s', hturn, hmem⟩ := hread
      · rw [hturn] at h
        exact .inl (Option.some.inj h ▸ rfl)
      · rw [hturn] at h
        exact .inr (Option.some.inj h ▸ hmem)
      · rw [hturn] at h
        obtain ⟨o', ho', rfl⟩ := Option.map_eq_some_iff.mp h
        exact .inr ((ctlLoop_extends ho').2.1.subset hmem)

/-- **What goes right** went right at every header. -/
theorem sane_of_right : ∀ {n : Nat} {s : Ctl} {o : Parsed}, s.off.toNat + 16 < 2 ^ 64 →
    s.fds.length ≤ MAX_ATT_FDS → ctlLoop u ctl ctllen n s = some o →
    Collects u ctl ctllen s.off.toNat s.fds o.res.toOption →
    o.offs.IsChain (fun a b => a.toNat + 16 ≤ b.toNat) →
    (∀ a ∈ o.reads, (a.1 - ctl).toNat + a.2 ≤ ctllen.toNat) →
    ∀ s', ReflTransGen (GoesOn u ctl ctllen) s s' → Sane u ctl ctllen s' := by
  intro n
  induction n with
  | zero => exact fun _ _ h => absurd h nofun
  | succ n ih =>
      intro s o hoff hfds h hcol hchain hinside s' hreach
      have hturned := ctlTurn_turned u ctl ctllen hoff hfds
      rw [ctlLoop] at h
      generalize hturn : ctlTurn u ctl ctllen s = turn at h hturned
      -- the loop that ends has been at no other header
      have hself : ∀ {r reads}, turn = .done r reads → Sane u ctl ctllen s →
          Sane u ctl ctllen s' := by
        intro r reads hdone hsane
        obtain rfl | ⟨c, hc, -⟩ := hreach.cases_head
        · exact hsane
        · rw [GoesOn, hturn, hdone] at hc
          exact absurd hc nofun
      cases hturned with
      | behind hb =>
          exact hself rfl fun hctl hle => (hb.elim hctl (Nat.not_lt.mpr hle)).elim
      | unreadable hhead hr => exact hself rfl fun _ _ hr' => absurd hr' hr
      | short hhead hr hlen => exact hself rfl fun _ _ _ => .inl hlen
      | refused hhead hr hlen ht hm =>
          obtain rfl := Option.some.inj h
          refine hself rfl fun _ _ _ => .inr (.inl ⟨?_, ht⟩)
          obtain ⟨-, hres⟩ | ⟨hin, -⟩ := hcol.at_header hhead hr hlen
          · exact absurd hres nofun
          · exact hin
      | onward hhead hr hlen ht =>
          obtain ⟨o', ho', rfl⟩ := Option.map_eq_some_iff.mp h
          obtain ⟨⟨offs, hoffs⟩, -, hext⟩ := ctlLoop_extends ho'
          obtain ⟨hiff, hnext⟩ := @forward_iff (u.cmsg (ctl + s.off)) s.off hlen
          change (s.off :: o'.offs).IsChain _ at hchain
          rw [hoffs, List.isChain_cons_cons, ← hoffs] at hchain
          have hround := hiff.mp hchain.1
          have hat := hnext hround
          have hlen8 := up8_le (u.cmsg (ctl + s.off)).len.toNat
          -- a header that is longer than the rest of the buffer holds no descriptor
          have hcol' : Collects u ctl ctllen (s.off + (u.cmsg (ctl + s.off)).step).toNat
                (s.fds ++ fdsOf u (ctl + s.off) (u.cmsg (ctl + s.off)).count) o'.res.toOption ∧
              (s.off.toNat + (u.cmsg (ctl + s.off)).len.toNat ≤ ctllen.toNat ∨
                (u.cmsg (ctl + s.off)).count = 0) := by
            obtain ⟨hout, hres⟩ | ⟨hin, ⟨hno, -⟩ | ⟨-, hc⟩⟩ := hcol.at_header hhead hr hlen
            · have hok : o'.res = .ok s.fds := by
                have hres' : o'.res.toOption = some s.fds := hres
                cases hr' : o'.res with
                | error e =>
                    rw [hr'] at hres'
                    exact absurd hres' nofun
                | ok fds =>
                    rw [hr'] at hres'
                    exact congrArg _ (Option.some.inj hres')
              have hsame := (hext s.fds hok).length_le
              rw [List.length_append, fdsOf, List.length_map, List.length_range] at hsame
              have hzero : (u.cmsg (ctl + s.off)).count = 0 := by omega
              rw [hzero, fdsOf, List.range_zero, List.map_nil, List.append_nil, hok, hat]
              exact ⟨.finish (.inr (by omega)), .inr rfl⟩
            · exact absurd ht hno
            · exact ⟨hat ▸ hc, .inl hin⟩
          have hfit : (s.off + (u.cmsg (ctl + s.off)).step).toNat + 16 < 2 ^ 64 := by
            by_contra hge
            obtain herr | hmem := ctlLoop_round (s := ⟨_, _, _⟩) hhead.1 (by omega)
              (Nat.le_of_not_lt hge) ho'
            · have hsome := hcol'.1.behind (by have := ctllen.toNat_lt; omega)
              rw [herr] at hsome
              exact absurd hsome nofun
            · have hin := hinside _ hmem
              have hsub : ctl + (s.off + (u.cmsg (ctl + s.off)).step) - ctl =
                  s.off + (u.cmsg (ctl + s.off)).step := by grind
              have hlt := ctllen.toNat_lt
              dsimp only at hin
              rw [hsub] at hin
              omega
          obtain rfl | ⟨c, hc, hrest⟩ := hreach.cases_head
          · exact fun _ _ _ => .inr (.inr ⟨hcol'.2, by rwa [hat] at hfit⟩)
          · rw [GoesOn, hturn] at hc
            obtain rfl := Turn.more.inj hc
            exact ih hfit (ht.length_le hfds) ho' hcol'.1 hchain.2 hinside s' hrest

/-- **Where every header is sane** all goes right. -/
theorem right_of_sane : ∀ {m : Nat} {s : Ctl}, 2 ^ 64 ≤ s.off.toNat + m →
    s.off.toNat + 16 < 2 ^ 64 → s.fds.length ≤ MAX_ATT_FDS →
    (∀ s', ReflTransGen (GoesOn u ctl ctllen) s s' → Sane u ctl ctllen s') →
    (∀ a ∈ s.reads, (a.1 - ctl).toNat + a.2 ≤ ctllen.toNat) →
    ∃ n o, ctlLoop u ctl ctllen n s = some o ∧
      Collects u ctl ctllen s.off.toNat s.fds o.res.toOption ∧
      o.offs.IsChain (fun a b => a.toNat + 16 ≤ b.toNat) ∧
      ∀ a ∈ o.reads, (a.1 - ctl).toNat + a.2 ≤ ctllen.toNat := by
  intro m
  induction m with
  | zero => exact fun h hoff => absurd h (by omega)
  | succ m ih =>
      intro s hm hoff hfds hsane hreads
      have hturned := ctlTurn_turned u ctl ctllen hoff hfds
      have haddr : ctl + UInt64.ofNat s.off.toNat = ctl + s.off := by rw [UInt64.ofNat_toNat]
      have hhere := hsane s .refl
      -- a header in the buffer is read in the buffer, and so are its descriptors
      have hheader : s.off.toNat + 16 ≤ ctllen.toNat →
          ∀ a ∈ s.reads ++ [(ctl + s.off, 16)], (a.1 - ctl).toNat + a.2 ≤ ctllen.toNat := by
        intro hle a ha
        obtain ha | ha := List.mem_append.mp ha
        · exact hreads a ha
        · have hsub : ctl + s.off - ctl = s.off := by grind
          rw [List.mem_singleton.mp ha, hsub]
          exact hle
      have hdescs : ∀ k, s.off.toNat + 16 + 4 * k ≤ ctllen.toNat →
          ∀ a ∈ (List.range k).map (fun k => (fdAt (ctl + s.off) k, 4)),
            (a.1 - ctl).toNat + a.2 ≤ ctllen.toNat := by
        intro k hk a ha
        obtain ⟨j, hj, rfl⟩ := List.mem_map.mp ha
        have hjk := List.mem_range.mp hj
        exact fdAt_inside (by omega)
      have hstop : ∀ {r reads}, ctlTurn u ctl ctllen s = .done r reads →
          Collects u ctl ctllen s.off.toNat s.fds r.toOption →
          (∀ a ∈ reads, (a.1 - ctl).toNat + a.2 ≤ ctllen.toNat) →
          ∃ n o, ctlLoop u ctl ctllen n s = some o ∧
            Collects u ctl ctllen s.off.toNat s.fds o.res.toOption ∧
            o.offs.IsChain (fun a b => a.toNat + 16 ≤ b.toNat) ∧
            ∀ a ∈ o.reads, (a.1 - ctl).toNat + a.2 ≤ ctllen.toNat := by
        intro r reads hturn hcol hin
        exact ⟨1, ⟨r, reads, [s.off]⟩, by rw [ctlLoop, hturn], hcol, .singleton _, hin⟩
      generalize hturn : ctlTurn u ctl ctllen s = turn at hturned
      cases hturned with
      | behind hb => exact hstop hturn (.finish hb) hreads
      | unreadable hhead hr => exact hstop hturn (.unreadable hhead (by rwa [haddr])) hreads
      | short hhead hr hlen =>
          exact hstop hturn (.malformed hhead (by rwa [haddr]) (.inl (by rwa [haddr])))
            (hheader hhead.2)
      | refused hhead hr hlen ht hm' =>
          have hin : s.off.toNat + (u.cmsg (ctl + s.off)).len.toNat ≤ ctllen.toNat := by
            obtain h | h | ⟨h | h, -⟩ := hhere hhead.1 hhead.2 hr
            · exact absurd h (Nat.not_lt.mpr hlen)
            · exact h.1
            · exact h
            · exact absurd (fun k hk => absurd (h ▸ hk) (Nat.not_lt_zero k)) ht
          have hcount := count_le hlen
          refine hstop hturn (.refused hhead (by rwa [haddr]) (by rw [haddr]; exact ⟨hlen, hin⟩)
            (by rwa [haddr])) fun a ha => ?_
          obtain ha | ha := List.mem_append.mp ha
          · exact hheader hhead.2 a ha
          · exact hdescs _ (by omega) a ha
      | onward hhead hr hlen ht =>
          obtain ⟨hin, hfit⟩ : (s.off.toNat + (u.cmsg (ctl + s.off)).len.toNat ≤ ctllen.toNat ∨
              (u.cmsg (ctl + s.off)).count = 0) ∧
                s.off.toNat + up8 (u.cmsg (ctl + s.off)).len.toNat + 16 < 2 ^ 64 := by
            obtain h | h | h := hhere hhead.1 hhead.2 hr
            · exact absurd h (Nat.not_lt.mpr hlen)
            · exact absurd ht h.2
            · exact h
          have hlen8 := up8_le (u.cmsg (ctl + s.off)).len.toNat
          have hcount := count_le hlen
          have hat := (@forward_iff (u.cmsg (ctl + s.off)) s.off hlen).2 (by omega)
          obtain ⟨n, o, ho, hcol, hchain, hinside⟩ := ih (s := ⟨s.off + (u.cmsg (ctl + s.off)).step,
              s.fds ++ fdsOf u (ctl + s.off) (u.cmsg (ctl + s.off)).count,
              s.reads ++ [(ctl + s.off, 16)] ++ (List.range (u.cmsg (ctl + s.off)).count).map
                fun k => (fdAt (ctl + s.off) k, 4)⟩)
            (by dsimp only; omega) (by dsimp only; omega) (ht.length_le hfds)
            (fun s' hs' => hsane s' (.head hturn hs')) fun a ha => by
              obtain ha | ha := List.mem_append.mp ha
              · exact hheader hhead.2 a ha
              · obtain hin | hzero := hin
                · exact hdescs _ (by omega) a ha
                · rw [hzero] at ha
                  exact absurd ha List.not_mem_nil
          obtain ⟨⟨offs, hoffs⟩, -, -⟩ := ctlLoop_extends ho
          refine ⟨n + 1, { o with offs := s.off :: o.offs }, ?_, ?_, ?_, hinside⟩
          · rw [ctlLoop, hturn]
            exact Option.map_eq_some_iff.mpr ⟨o, ho, rfl⟩
          · change Collects u ctl ctllen s.off.toNat s.fds o.res.toOption
            change Collects u ctl ctllen (s.off + (u.cmsg (ctl + s.off)).step).toNat _ _ at hcol
            rw [hat] at hcol
            by_cases hwithin : s.off.toNat + (u.cmsg (ctl + s.off)).len.toNat ≤ ctllen.toNat
            · refine .header hhead (by rwa [haddr]) (by rw [haddr]; exact ⟨hlen, hwithin⟩)
                (by rwa [haddr]) ?_
              rwa [haddr]
            · have hzero := hin.resolve_left hwithin
              rw [hzero, fdsOf, List.range_zero, List.map_nil, List.append_nil] at hcol
              rw [hcol.behind (by omega)]
              exact .malformed hhead (by rwa [haddr]) (.inr (by rw [haddr]; omega))
          · change (s.off :: o.offs).IsChain _
            rw [hoffs, List.isChain_cons_cons, ← hoffs]
            exact ⟨by rw [hat]; omega, hchain⟩

/-- **The loop over a control buffer** ends, goes forward, reads in the buffer and collects the
descriptors of its well-formed headers, when the headers that it comes to are sane, and only then. -/
theorem control_loop (u : UserMem) (ctl ctllen : UInt64) :
    (∃ n o, ctlLoop u ctl ctllen n .start = some o ∧ o.Right u ctl ctllen) ↔
      ∀ s, ReflTransGen (GoesOn u ctl ctllen) .start s → Sane u ctl ctllen s := by
  have hoff : Ctl.start.off.toNat + 16 < 2 ^ 64 := by decide
  constructor
  · rintro ⟨n, o, ho, hright⟩
    exact sane_of_right hoff (Nat.zero_le _) ho hright.collects hright.forward hright.inside
  · intro hsane
    obtain ⟨n, o, ho, hcol, hchain, hinside⟩ := right_of_sane (m := 2 ^ 64) (Nat.le_add_left ..) hoff
      (Nat.zero_le _) hsane (fun a ha => absurd ha List.not_mem_nil)
    exact ⟨n, o, ho, hcol, hchain, hinside⟩

/-- **The loop does not end** at a header whose length is 2^64 - 1, in a buffer of 16 bytes. -/
theorem control_stuck : ¬ ∀ u ctl ctllen, ∃ n o, ctlLoop u ctl ctllen n .start = some o ∧
    o.Right u ctl ctllen := by
  intro h
  obtain ⟨n, o, ho, -⟩ := h ⟨fun _ _ => true, fun _ => 0xFF⟩ 4096 16
  have hturn : ∀ reads, ctlTurn ⟨fun _ _ => true, fun _ => 0xFF⟩ 4096 16 ⟨0, [], reads⟩ =
      .more ⟨0, [], reads ++ [(4096, 16)]⟩ := by
    intro reads
    have hlen : ¬ (UserMem.cmsg ⟨fun _ _ => true, fun _ => 0xFF⟩ (4096 + 0)).len < 16 := by decide
    have hcount : (UserMem.cmsg ⟨fun _ _ => true, fun _ => 0xFF⟩ (4096 + 0)).count = 0 := by decide
    have hstep : 0 + (UserMem.cmsg ⟨fun _ _ => true, fun _ => 0xFF⟩ (4096 + 0)).step = 0 := by
      decide
    have hgo : (4096 : UInt64) ≠ 0 ∧ (0 : UInt64) + 16 ≤ 16 := by decide
    have hread : UserMem.readable ⟨fun _ _ => true, fun _ => 0xFF⟩ (4096 + 0) 16 = true := by decide
    rw [ctlTurn, if_pos hgo, if_pos hread]
    dsimp only
    rw [if_neg hlen, hcount, takeFds, hstep, UInt64.add_zero]
  have hstuck : ∀ n reads,
      ctlLoop ⟨fun _ _ => true, fun _ => 0xFF⟩ 4096 16 n ⟨0, [], reads⟩ = none := by
    intro n
    induction n with
    | zero => exact fun _ => rfl
    | succ n ih =>
        intro reads
        rw [ctlLoop, hturn]
        exact Option.map_eq_none_iff.mpr (ih _)
  rw [Ctl.start, hstuck] at ho
  exact absurd ho nofun

end Pulsar.Kernel

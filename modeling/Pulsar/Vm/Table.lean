import Mathlib.Tactic.SplitIfs
import Mathlib.Algebra.Order.Group.Int
import Mathlib.Algebra.BigOperators.Group.List.Basic
import Pulsar.Vm.Vma

/-!
# The table as a function of pages

`Desc` is what a region says of a page: its protection, and for a page of an object or a file
which page of which.  `descAt vs x` is what the table says of the page at address `x`.  Each
operation is described by what it does to that function, to the well-formedness of the table
(`Fine`), to its length, and to the number of regions that name each object, which moves as the
listed references do (`Refs.of`).
-/

namespace Pulsar.Vm

open Spans

/-- What a region says of a page. -/
structure Desc where
  prot : Nat
  obj : Nat
  ino : Nat
  page : Nat
  deriving DecidableEq

/-- What region `v` says of the page at address `x`; a private anonymous page is no page of
anything. -/
def Vma.desc (v : Vma) (x : Nat) : Desc :=
  ⟨v.prot, v.obj, v.ino, if v.obj = 0 ∧ v.ino = 0 then 0 else v.pgoff + (x - v.start) / PAGE⟩

/-- The region of address `x`. -/
abbrev lookup (vs : List Vma) (x : Nat) : Option Vma := look Vma.start Vma.stop vs x

/-- What the table says of the page at address `x`. -/
def descAt (vs : List Vma) (x : Nat) : Option Desc := (lookup vs x).map fun v => v.desc x

/-- A well-formed table: sorted, disjoint, not empty, aligned to pages. -/
structure Fine (vs : List Vma) : Prop where
  sorted : Sorted Vma.start Vma.stop vs
  aligned : ∀ v ∈ vs, PAGE ∣ v.start ∧ PAGE ∣ v.stop

/-- The regions that name object `o`. -/
def named (o : Nat) (vs : List Vma) : Nat := vs.countP fun v => v.obj == o

/-- The sum of the listed changes to object `o`. -/
def Refs.of (o : Nat) : Refs → Int
  | [] => 0
  | r :: rs => (if r.1 = o then r.2 else 0) + Refs.of o rs

variable {vs ws : List Vma} {v w : Vma} {x addr start stop prot o i : Nat}

/-! ### One region -/

theorem pages_add {a b c : Nat} (ha : PAGE ∣ a) (hb : PAGE ∣ b) (hab : a ≤ b) (hbc : b ≤ c) :
    (b - a) / PAGE + (c - b) / PAGE = (c - a) / PAGE := by
  obtain ⟨a, rfl⟩ := ha
  obtain ⟨b, rfl⟩ := hb
  simp only [PAGE] at *
  omega

theorem Vma.desc_tail (ha : PAGE ∣ v.start) (hb : PAGE ∣ addr) (h₁ : v.start ≤ addr)
    (h₂ : addr ≤ x) : (v.tail addr).desc x = v.desc x := by
  have := pages_add ha hb h₁ h₂
  simp only [Vma.desc, Vma.tail, Nat.add_assoc, this]

theorem Vma.desc_stop (s : Nat) : ({ v with stop := s } : Vma).desc x = v.desc x := rfl

/-! ### Lists of regions -/

@[simp] theorem descAt_nil : descAt [] x = none := rfl

theorem descAt_cons : descAt (v :: vs) x =
    if v.start ≤ x ∧ x < v.stop then some (v.desc x) else descAt vs x := by
  simp only [descAt, lookup, look_cons]
  split <;> rfl

theorem descAt_append : descAt (vs ++ ws) x = (descAt vs x).or (descAt ws x) := by
  simp only [descAt, lookup, look_append, Option.map_or]

theorem descAt_none (h : ∀ v ∈ vs, v.stop ≤ x ∨ x < v.start) : descAt vs x = none := by
  simp only [descAt, lookup, look_none h, Option.map_none]

theorem fine_nil : Fine [] := ⟨sorted_nil, fun v hv => by simp at hv⟩

theorem fine_cons : Fine (v :: vs) ↔ v.start < v.stop ∧ PAGE ∣ v.start ∧ PAGE ∣ v.stop ∧
    (∀ w ∈ vs, v.stop ≤ w.start) ∧ Fine vs := by
  constructor
  · rintro ⟨hs, ha⟩
    obtain ⟨h₁, h₂, h₃⟩ := sorted_cons.mp hs
    obtain ⟨h₄, h₅⟩ := ha v List.mem_cons_self
    exact ⟨h₁, h₄, h₅, h₂, h₃, fun w hw => ha w (List.mem_cons_of_mem v hw)⟩
  · rintro ⟨h₁, h₂, h₃, h₄, h₅, h₆⟩
    refine ⟨sorted_cons.mpr ⟨h₁, h₄, h₅⟩, fun w hw => ?_⟩
    rcases List.mem_cons.mp hw with rfl | hw
    · exact ⟨h₂, h₃⟩
    · exact h₆ w hw

theorem fine_append : Fine (vs ++ ws) ↔
    Fine vs ∧ Fine ws ∧ ∀ v ∈ vs, ∀ w ∈ ws, v.stop ≤ w.start := by
  constructor
  · rintro ⟨hs, ha⟩
    obtain ⟨h₁, h₂, h₃⟩ := sorted_append.mp hs
    exact ⟨⟨h₁, fun v hv => ha v (List.mem_append_left _ hv)⟩,
      ⟨h₂, fun v hv => ha v (List.mem_append_right _ hv)⟩, h₃⟩
  · rintro ⟨h₁, h₂, h₃⟩
    refine ⟨sorted_append.mpr ⟨h₁.sorted, h₂.sorted, h₃⟩, fun v hv => ?_⟩
    rcases List.mem_append.mp hv with hv | hv
    · exact h₁.aligned v hv
    · exact h₂.aligned v hv

@[simp] theorem named_nil : named o [] = 0 := rfl

theorem named_cons : named o (v :: vs) = named o vs + if v.obj = o then 1 else 0 := by
  simp only [named, List.countP_cons, beq_iff_eq]

theorem named_append : named o (vs ++ ws) = named o vs + named o ws := List.countP_append

@[simp] theorem Refs.of_nil : Refs.of o [] = 0 := rfl

theorem Refs.of_cons (r : Nat × Int) (rs : Refs) :
    Refs.of o (r :: rs) = (if r.1 = o then r.2 else 0) + Refs.of o rs := rfl

theorem Refs.of_append (rs ss : Refs) : Refs.of o (rs ++ ss) = Refs.of o rs + Refs.of o ss := by
  induction rs with
  | nil => simp [Refs.of]
  | cons r rs ih => simp only [List.cons_append, Refs.of, ih]; omega

/-! ### The search -/

/-- The table in two parts, at the first region that ends after `addr`. -/
theorem Fine.cut (h : Fine vs) (addr : Nat) : ∃ pre suf, vs = pre ++ suf ∧
    vs.take (lower vs addr) = pre ∧ vs.drop (lower vs addr) = suf ∧
    pre.length = lower vs addr ∧ (∀ v ∈ pre, v.stop ≤ addr) ∧ ∀ v ∈ suf, addr < v.stop := by
  obtain ⟨pre, suf, h₁, h₂, h₃, h₄, h₅, h₆⟩ := lower_cut h.sorted addr
  exact ⟨pre, suf, h₁, h₂.symm, h₃.symm, h₄, h₅, h₆⟩

theorem getElem?_cut {pre suf : List Vma} (h : vs = pre ++ suf) (hl : pre.length = i) (k : Nat) :
    vs[i + k]? = suf[k]? := by
  rw [h, ← hl, List.getElem?_append_right (Nat.le_add_right _ _), Nat.add_sub_cancel_left]

/-- `find` finds the region of an address. -/
theorem Fine.find_eq (h : Fine vs) (addr : Nat) : find vs addr = lookup vs addr := by
  obtain ⟨pre, suf, hvs, -, -, hl, hpre, hsuf⟩ := h.cut addr
  have hfst := getElem?_cut hvs hl 0
  rw [Nat.add_zero] at hfst
  have hnone : lookup pre addr = none := look_none fun v hv => Or.inl (hpre v hv)
  rw [find, hfst]
  conv_rhs => rw [hvs]
  rw [lookup, look_append, ← lookup, hnone, Option.none_or]
  cases suf with
  | nil => rfl
  | cons v suf =>
      simp only [List.getElem?_cons_zero, look_cons]
      have hv := hsuf v List.mem_cons_self
      by_cases hs : v.start ≤ addr
      · rw [if_pos hs, if_pos ⟨hs, hv⟩]
      · rw [if_neg hs, if_neg fun hx => hs hx.1, eq_comm]
        obtain ⟨-, -, -, hrest, hfine⟩ := fine_cons.mp (fine_append.mp (hvs ▸ h)).2.1
        exact look_none fun w hw => Or.inr (by have := hrest w hw; omega)

/-- `overlaps` says whether some region meets the range. -/
theorem Fine.overlaps_iff (h : Fine vs) :
    overlaps vs start stop = true ↔ ∃ v ∈ vs, v.start < stop ∧ start < v.stop := by
  obtain ⟨pre, suf, hvs, -, -, hl, hpre, hsuf⟩ := h.cut start
  have hfst := getElem?_cut hvs hl 0
  rw [Nat.add_zero] at hfst
  rw [overlaps, hfst]
  cases suf with
  | nil =>
      simp only [List.getElem?_nil, Bool.false_eq_true, false_iff]
      rintro ⟨v, hv, h₁, h₂⟩
      rw [hvs, List.append_nil] at hv
      have := hpre v hv
      omega
  | cons u suf =>
      simp only [List.getElem?_cons_zero, decide_eq_true_eq]
      constructor
      · intro hu
        exact ⟨u, by rw [hvs]; exact List.mem_append_right _ List.mem_cons_self, hu,
          hsuf u List.mem_cons_self⟩
      · rintro ⟨v, hv, h₁, h₂⟩
        rw [hvs] at hv
        rcases List.mem_append.mp hv with hv | hv
        · have := hpre v hv
          omega
        · obtain ⟨hu, -, -, hrest, -⟩ := fine_cons.mp (fine_append.mp (hvs ▸ h)).2.1
          rcases List.mem_cons.mp hv with rfl | hv
          · exact h₁
          · have := hrest v hv
            omega

theorem Fine.free (h : Fine vs) (hno : overlaps vs start stop = false)
    (hv : v ∈ vs) : v.stop ≤ start ∨ stop ≤ v.start := by
  by_contra hc
  have : overlaps vs start stop = true := h.overlaps_iff.mpr ⟨v, hv, by omega, by omega⟩
  rw [hno] at this
  exact Bool.noConfusion this

end Pulsar.Vm

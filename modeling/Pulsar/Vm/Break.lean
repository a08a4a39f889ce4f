import Pulsar.Lib.Runs
import Pulsar.Vm.Leaves

/-!
# The program break (`process.rs`)

`Heap` is one address space with its break, and the calls of its threads, each in one of the places
where it holds no lock.  `BreakLog` records, beside a run, what the calls returned.

* `break_kept`: the ranges handed out do not overlap and their pages are mapped; every address below
  the break is mapped, but for what a call has still to map, or could not and left behind.
* `failure_counted`: a call that fails keeps below the break the pages that it mapped.
-/

namespace Pulsar.Vm

open Runs

def HEAP_BASE : Nat := 0x1000000000
def HEAP_LIMIT : Nat := HEAP_BASE + 0x100000000

/-- `(old + 4095) & !4095`. -/
def pageFrom (x : Nat) : Nat := (x + (PAGE - 1)) / PAGE * PAGE

/-- A range that a call has reserved, and the first page of it that is not mapped yet. -/
structure Growth where
  old : Nat
  new : Nat
  page : Nat
  /-- The argument of `brk`, and the break that it read. -/
  ask : Option (Nat × Nat)

/-- Where the call of a thread is. -/
inductive Growing where
  | idle
  /-- `brk` has read the break. -/
  | asks (addr cur : Nat)
  | maps (g : Growth)
  /-- A page could not be mapped. -/
  | fails (g : Growth)
  /-- `brk` reads the break again. -/
  | rereads

def Growing.growth : Growing → Option Growth
  | maps g | fails g => some g
  | _ => none

structure Heap where
  mm : Mm
  root : Nat
  brk : Nat
  calls : Nat → Growing

/-- What happens. -/
inductive BreakAct where
  | sbrk (t inc : Nat)
  | brk (t addr : Nat)
  /-- `brk` goes on to `sbrk`. -/
  | grow (t : Nat)
  /-- The next page is mapped, or the call returns. -/
  | map (t : Nat)
  /-- The lock is taken again for a page that could not be mapped. -/
  | settle (t : Nat)
  | reread (t : Nat)
  /-- The rest of the kernel takes frames and gives them back. -/
  | frames (fr : Frames)

namespace Heap

def setCall (t : Nat) (c : Growing) (σ : Heap) : Heap :=
  { σ with calls := Function.update σ.calls t c }

@[simp] theorem calls_setCall_self {t : Nat} {c : Growing} {σ : Heap} :
    (σ.setCall t c).calls t = c := Function.update_self ..

theorem calls_setCall_of_ne {t t' : Nat} {c : Growing} {σ : Heap} (h : t' ≠ t) :
    (σ.setCall t c).calls t' = σ.calls t' := Function.update_of_ne h ..

/-- What `sbrk(inc)` reserves. -/
def range (inc : Nat) (σ : Heap) : Option (Nat × Nat) :=
  if σ.brk + inc < 2 ^ 64 then
    if HEAP_LIMIT < σ.brk + inc then none else some (σ.brk, σ.brk + inc)
  else none

/-- The first part of `sbrk(inc)`; `no` is where a call goes that gets nothing. -/
def reserve (t inc : Nat) (ask : Option (Nat × Nat)) (no : Growing) (σ : Heap) : Heap :=
  match σ.range inc with
  | none => σ.setCall t no
  | some (old, new) => { σ with brk := new }.setCall t (.maps ⟨old, new, pageFrom old, ask⟩)

/-- The next page of a call is mapped. -/
def mapNext (t : Nat) (g : Growth) (σ : Heap) : Heap :=
  match σ.mm.mapZeroed σ.root g.page .userData with
  | (true, mm) => { σ with mm := mm }.setCall t (.maps { g with page := g.page + PAGE })
  | (false, mm) => { σ with mm := mm }.setCall t (.fails g)

/-- A call that could not map a page takes back the rest of its range, if it is the last one. -/
def settle (t : Nat) (g : Growth) (σ : Heap) : Heap :=
  { σ with brk := if σ.brk = g.new then max g.page g.old else σ.brk }.setCall t
    (if g.ask.isSome then .rereads else .idle)

/-- One step, where it can happen. -/
def step (σ : Heap) : BreakAct → Option Heap
  | .sbrk t inc =>
    match σ.calls t with
    | .idle => some (σ.reserve t inc none .idle)
    | _ => none
  | .brk t addr =>
    match σ.calls t with
    | .idle => some (if addr ≤ σ.brk then σ else σ.setCall t (.asks addr σ.brk))
    | _ => none
  | .grow t =>
    match σ.calls t with
    | .asks addr cur => some (σ.reserve t (addr - cur) (some (addr, cur)) .rereads)
    | _ => none
  | .map t =>
    match σ.calls t with
    | .maps g => some (if g.page < g.new then σ.mapNext t g else σ.setCall t .idle)
    | _ => none
  | .settle t =>
    match σ.calls t with
    | .fails g => some (σ.settle t g)
    | _ => none
  | .reread t =>
    match σ.calls t with
    | .rereads => some (σ.setCall t .idle)
    | _ => none
  | .frames fr => some { σ with mm := σ.mm.setFrames fr }

/-- The space is new, and no thread is in a call. -/
def Fresh (σ : Heap) : Prop := σ.brk = HEAP_BASE ∧ ∀ t, σ.calls t = .idle

def mapped (x : Nat) (σ : Heap) : Bool := (σ.mm.pts σ.root).isMapped x

end Heap

/-! ### The log -/

/-- A call that failed, the break when it took the lock again, and the break that it left. -/
structure Failure where
  growth : Growth
  before : Nat
  after : Nat

structure BreakLog where
  /-- The calls that got their range, with the break in force when they returned. -/
  grants : List (Growth × Nat)
  /-- What `brk` returned of the break that it read, and the break in force. -/
  looks : List (Nat × Nat)
  failures : List Failure

namespace BreakLog

def empty : BreakLog := ⟨[], [], []⟩

/-- What is recorded of a step. -/
def note (σ : Heap) (a : BreakAct) (τ : Heap) (H : BreakLog) : BreakLog :=
  match a with
  | .map t =>
    match σ.calls t with
    | .maps g => if g.page < g.new then H else { H with grants := (g, τ.brk) :: H.grants }
    | _ => H
  | .settle t =>
    match σ.calls t with
    | .fails g => { H with failures := ⟨g, σ.brk, τ.brk⟩ :: H.failures }
    | _ => H
  | .brk _ addr => if addr ≤ σ.brk then { H with looks := (σ.brk, τ.brk) :: H.looks } else H
  | .reread _ => { H with looks := (σ.brk, τ.brk) :: H.looks }
  | _ => H

end BreakLog

/-- Two ranges do not overlap. -/
def Growth.Apart (g g' : Growth) : Prop :=
  ∀ x, g.old ≤ x → x < g.new → g'.old ≤ x → x < g'.new → False

/-- The page of an address is one that the growth has not mapped. -/
def Growth.Owes (g : Growth) (x : Nat) : Prop := g.page ≤ pageOf x ∧ pageOf x < g.new

/-- The break is as it should be. -/
structure Heap.Claimed (σ : Heap) (H : BreakLog) : Prop where
  bounds : HEAP_BASE ≤ σ.brk ∧ σ.brk ≤ HEAP_LIMIT
  /-- Every page of a range that was handed out is mapped. -/
  granted : ∀ r ∈ H.grants, ∀ x, r.1.old ≤ x → x < r.1.new → σ.mapped x = true
  apart : H.grants.Pairwise fun r r' => r.1.Apart r'.1
  /-- `brk` returns the break in force. -/
  looks : ∀ r ∈ H.looks, r.1 = r.2
  grows : ∀ r ∈ H.grants, ∀ ask ∈ r.1.ask, ask.1 = r.2
  /-- Every address below the break is mapped. -/
  covered : ∀ x, HEAP_BASE ≤ x → x < σ.brk → σ.mapped x = true
  /-- No new page of a call that failed is below the break. -/
  failed : ∀ f ∈ H.failures, f.growth.page ≤ pageFrom f.growth.old ∨ f.after ≤ pageFrom f.growth.old

/-- What holds of the break. -/
structure Heap.Sound (σ : Heap) (H : BreakLog) : Prop where
  bounds : HEAP_BASE ≤ σ.brk ∧ σ.brk ≤ HEAP_LIMIT
  /-- Every page that begins in a range that was handed out is mapped. -/
  granted : ∀ r ∈ H.grants, ∀ x, r.1.old ≤ pageOf x → x < r.1.new → σ.mapped x = true
  apart : H.grants.Pairwise fun r r' => r.1.Apart r'.1
  /-- `brk` returns the break that it read. -/
  looks : ∀ r ∈ H.looks, r.1 = r.2
  /-- `brk` returns the end of the range that it reserved, if the break was still the one that it
  had read. -/
  grows : ∀ r ∈ H.grants, ∀ ask ∈ r.1.ask, ask.2 = r.1.old → ask.1 = r.1.new
  /-- An address below the break is mapped, unless a call has still to map its page, or failed with
  the break moved on. -/
  covered : ∀ x, HEAP_BASE ≤ x → x < σ.brk → σ.mapped x = true ∨
    (∃ t, ∃ g ∈ (σ.calls t).growth, g.Owes x) ∨
    ∃ f ∈ H.failures, f.before ≠ f.growth.new ∧ f.growth.Owes x
  /-- A call that fails with the break where it had put it leaves it at the page that it could not
  map. -/
  failed : ∀ f ∈ H.failures, f.before = f.growth.new → f.after = f.growth.page

/-! ### Pages -/

variable {x y : Nat} {s : Mm} {g g' : Growth}

theorem pageOf_le : pageOf x ≤ x := Nat.div_mul_le_self x PAGE

theorem le_pageFrom : x ≤ pageFrom x := by
  rw [pageFrom, PAGE]
  omega

theorem dvd_pageFrom : PAGE ∣ pageFrom x := Nat.dvd_mul_left PAGE _

theorem dvd_pageOf : PAGE ∣ pageOf x := Nat.dvd_mul_left PAGE _

theorem pageFrom_le (h : PAGE ∣ y) (hxy : x ≤ y) : pageFrom x ≤ y := by
  obtain ⟨k, rfl⟩ := h
  rw [pageFrom]
  simp only [PAGE] at *
  omega

theorem le_pageOf (h : PAGE ∣ y) (hyx : y ≤ x) : y ≤ pageOf x := by
  obtain ⟨k, rfl⟩ := h
  rw [pageOf]
  simp only [PAGE] at *
  omega

theorem pageOf_eq (h : PAGE ∣ y) (h₁ : y ≤ x) (h₂ : x < y + PAGE) : pageOf x = y := by
  obtain ⟨k, rfl⟩ := h
  rw [pageOf]
  simp only [PAGE] at *
  omega

theorem next_le_pageOf (h : PAGE ∣ y) (h₁ : y ≤ pageOf x) (h₂ : pageOf x ≠ y) :
    y + PAGE ≤ pageOf x := by
  obtain ⟨k, rfl⟩ := h
  rw [pageOf] at *
  simp only [PAGE] at *
  omega

theorem pageOf_pageOf : pageOf (pageOf x) = pageOf x := by
  rw [pageOf, pageOf, Nat.mul_div_cancel _ (by decide)]

theorem vpn_pageOf : vpn (pageOf x) = vpn x := by
  rw [vpn, vpn, pageOf, Nat.mul_div_cancel _ (by decide)]

theorem Heap.mapped_congr {σ : Heap} (h : pageOf x = pageOf y) : σ.mapped x = σ.mapped y := by
  rw [mapped, mapped, Pt.isMapped, Pt.isMapped, ← vpn_pageOf, h, vpn_pageOf]

theorem isMapped_mapIn {root va : Nat} {e : Pte} (h : (s.pts root).isMapped x = true) :
    ((s.mapIn root va e).2.pts root).isMapped x = true := by
  rw [Pt.isMapped, Mm.get_mapIn]
  split
  · rfl
  · exact h

theorem mapZeroed_mapped (root va : Nat) (flags : PageFlags) (s : Mm) :
    (∀ x, (s.pts root).isMapped x = true →
      ((s.mapZeroed root va flags).2.pts root).isMapped x = true) ∧
    ((s.mapZeroed root va flags).1 = true → ∀ x, vpn x = vpn va →
      ((s.mapZeroed root va flags).2.pts root).isMapped x = true) := by
  unfold Mm.mapZeroed Mm.zeroedFrame
  rcases ha : s.frames.allocFrame with ⟨_ | f, fr⟩
  · exact ⟨fun _ hx => hx, fun h => absurd h Bool.false_ne_true⟩
  · dsimp only
    have hkeep : ∀ x, (s.pts root).isMapped x = true →
        ((((s.setFrames fr).setMem f zeroPage).mapIn root va ⟨f, flags⟩).2.pts root).isMapped x =
          true := fun x hx => isMapped_mapIn (s := (s.setFrames fr).setMem f zeroPage) hx
    have hget := Mm.get_mapIn root va ⟨f, flags⟩ ((s.setFrames fr).setMem f zeroPage)
    rcases hm : ((s.setFrames fr).setMem f zeroPage).mapIn root va ⟨f, flags⟩ with ⟨- | -, u⟩
    · rw [hm] at hkeep
      exact ⟨hkeep, fun h => absurd h Bool.false_ne_true⟩
    · rw [hm] at hkeep hget
      refine ⟨hkeep, fun _ x hx => ?_⟩
      dsimp only at hget ⊢
      rw [Pt.isMapped, hget, if_pos ⟨rfl, hx⟩]
      rfl

theorem Growth.owes_pageOf : g.Owes (pageOf x) ↔ g.Owes x := by
  rw [Owes, pageOf_pageOf]
  rfl

/-! ### What every step keeps -/

theorem Growth.Apart.symm (h : g.Apart g') : g'.Apart g := fun x h₁ h₂ h₃ h₄ => h x h₃ h₄ h₁ h₂

theorem Growth.apart_of_le (h : g.old < g.new → g.new ≤ g'.old) : g.Apart g' :=
  fun _ h₁ h₂ h₃ _ => absurd (h (h₁.trans_lt h₂)) (by omega)

namespace Heap

variable {σ τ : Heap} {H : BreakLog} {t : Nat} {c : Growing}

/-- What holds of a range that was reserved. -/
structure Busy (σ : Heap) (g : Growth) : Prop where
  base : HEAP_BASE ≤ g.old
  order : g.old ≤ g.new
  below : g.old < g.new → g.new ≤ σ.brk
  aligned : PAGE ∣ g.page
  start : g.old ≤ g.page
  /-- The pages before the next one are mapped. -/
  done : ∀ x, g.old ≤ pageOf x → x < g.page → σ.mapped x = true
  asked : ∀ ask ∈ g.ask, ask.2 = g.old → ask.1 = g.new

/-- What holds of the break, of the calls on their way, and of the log. -/
structure Inv (σ : Heap) (H : BreakLog) : Prop where
  bounds : HEAP_BASE ≤ σ.brk ∧ σ.brk ≤ HEAP_LIMIT
  asks : ∀ t addr cur, σ.calls t = .asks addr cur → cur < addr
  fails : ∀ t g, σ.calls t = .fails g → g.page < g.new
  busy : ∀ t, ∀ g ∈ (σ.calls t).growth, σ.Busy g
  grants : ∀ r ∈ H.grants, σ.Busy r.1 ∧ r.1.new ≤ r.1.page
  calls : ∀ t t', t ≠ t' → ∀ g ∈ (σ.calls t).growth, ∀ g' ∈ (σ.calls t').growth, g.Apart g'
  mixed : ∀ t, ∀ g ∈ (σ.calls t).growth, ∀ r ∈ H.grants, g.Apart r.1
  apart : H.grants.Pairwise fun r r' => r.1.Apart r'.1
  looks : ∀ r ∈ H.looks, r.1 = r.2
  covered : ∀ x, HEAP_BASE ≤ x → x < σ.brk → σ.mapped x = true ∨
    (∃ t, ∃ g ∈ (σ.calls t).growth, g.Owes x) ∨
    ∃ f ∈ H.failures, f.before ≠ f.growth.new ∧ f.growth.Owes x
  failed : ∀ f ∈ H.failures, f.before = f.growth.new → f.after = f.growth.page

theorem Busy.mono (h : σ.Busy g) (hm : ∀ x, σ.mapped x = true → τ.mapped x = true)
    (hb : g.old < g.new → g.new ≤ τ.brk) : τ.Busy g :=
  { h with below := hb, done := fun x h₁ h₂ => hm x (h.done x h₁ h₂) }

theorem Inv.sound (h : σ.Inv H) : σ.Sound H where
  bounds := h.bounds
  granted r hr x h₁ h₂ := (h.grants r hr).1.done x h₁ (h₂.trans_le (h.grants r hr).2)
  apart := h.apart
  looks := h.looks
  grows r hr := (h.grants r hr).1.asked
  covered := h.covered
  failed := h.failed

/-- `brk` returns the break that it reads. -/
theorem Inv.look (h : σ.Inv H) : σ.Inv { H with looks := (σ.brk, σ.brk) :: H.looks } where
  bounds := h.bounds
  asks := h.asks
  fails := h.fails
  busy := h.busy
  grants := h.grants
  calls := h.calls
  mixed := h.mixed
  apart := h.apart
  looks r hr := by
    rcases List.mem_cons.mp hr with rfl | hr
    · rfl
    · exact h.looks r hr
  covered := h.covered
  failed := h.failed

theorem Inv.failure (h : σ.Inv H) {f : Failure}
    (hf : f.before = f.growth.new → f.after = f.growth.page) :
    σ.Inv { H with failures := f :: H.failures } where
  bounds := h.bounds
  asks := h.asks
  fails := h.fails
  busy := h.busy
  grants := h.grants
  calls := h.calls
  mixed := h.mixed
  apart := h.apart
  looks := h.looks
  covered x h₁ h₂ := by
    rcases h.covered x h₁ h₂ with hx | hx | ⟨f', hf', hx⟩
    · exact .inl hx
    · exact .inr (.inl hx)
    · exact .inr (.inr ⟨f', List.mem_cons_of_mem f hf', hx⟩)
  failed f' hf' := by
    rcases List.mem_cons.mp hf' with rfl | hf'
    · exact hf
    · exact h.failed f' hf'

theorem Inv.grant (h : σ.Inv H) (hg : σ.Busy g) (hp : g.new ≤ g.page)
    (hcalls : ∀ t, ∀ g' ∈ (σ.calls t).growth, g'.Apart g) (hgrants : ∀ r ∈ H.grants, g.Apart r.1)
    (b : Nat) : σ.Inv { H with grants := (g, b) :: H.grants } where
  bounds := h.bounds
  asks := h.asks
  fails := h.fails
  busy := h.busy
  grants r hr := by
    rcases List.mem_cons.mp hr with rfl | hr
    · exact ⟨hg, hp⟩
    · exact h.grants r hr
  calls := h.calls
  mixed t g' hg' r hr := by
    rcases List.mem_cons.mp hr with rfl | hr
    · exact hcalls t g' hg'
    · exact h.mixed t g' hg' r hr
  apart := List.pairwise_cons.mpr ⟨hgrants, h.apart⟩
  looks := h.looks
  covered := h.covered
  failed := h.failed

/-- A range that a thread other than `t` has reserved, or that was handed out. -/
def Theirs (σ : Heap) (H : BreakLog) (t : Nat) (g : Growth) : Prop :=
  (∃ t', t' ≠ t ∧ g ∈ (σ.calls t').growth) ∨ ∃ r ∈ H.grants, g = r.1

theorem Inv.change (h : σ.Inv H) (hcalls : τ.calls = Function.update σ.calls t c)
    (hbounds : HEAP_BASE ≤ τ.brk ∧ τ.brk ≤ HEAP_LIMIT)
    (hm : ∀ x, σ.mapped x = true → τ.mapped x = true)
    (hlow : ∀ g, σ.Theirs H t g → g.old < g.new → g.new ≤ τ.brk)
    (hasks : ∀ addr cur, c = .asks addr cur → cur < addr)
    (hfails : ∀ g, c = .fails g → g.page < g.new)
    (hnew : ∀ g ∈ c.growth, τ.Busy g ∧ ∀ g', σ.Theirs H t g' → g.Apart g')
    (hcov : ∀ x, HEAP_BASE ≤ x → x < τ.brk → τ.mapped x = true ∨ (∃ g ∈ c.growth, g.Owes x) ∨
      (∃ t', t' ≠ t ∧ ∃ g ∈ (σ.calls t').growth, g.Owes x) ∨
      ∃ f ∈ H.failures, f.before ≠ f.growth.new ∧ f.growth.Owes x) : τ.Inv H := by
  have hself : τ.calls t = c := by rw [hcalls, Function.update_self]
  have hother : ∀ t', t' ≠ t → τ.calls t' = σ.calls t' := fun t' ht' => by
    rw [hcalls, Function.update_of_ne ht']
  refine ⟨hbounds, fun t' addr cur ht' => ?_, fun t' g ht' => ?_, fun t' g hg => ?_,
    fun r hr => ?_, fun t₁ t₂ hne g hg g' hg' => ?_, fun t' g hg r hr => ?_, h.apart, h.looks,
    fun x h₁ h₂ => ?_, h.failed⟩
  · by_cases htt : t' = t
    · exact hasks addr cur (hself ▸ htt ▸ ht')
    · exact h.asks t' addr cur (hother t' htt ▸ ht')
  · by_cases htt : t' = t
    · exact hfails g (hself ▸ htt ▸ ht')
    · exact h.fails t' g (hother t' htt ▸ ht')
  · by_cases htt : t' = t
    · exact (hnew g (hself ▸ htt ▸ hg)).1
    · rw [hother t' htt] at hg
      exact (h.busy t' g hg).mono hm (hlow g (.inl ⟨t', htt, hg⟩))
  · exact ⟨(h.grants r hr).1.mono hm (hlow r.1 (.inr ⟨r, hr, rfl⟩)), (h.grants r hr).2⟩
  · by_cases h₁ : t₁ = t
    · have h₂ : t₂ ≠ t := fun h₂ => hne (h₁.trans h₂.symm)
      rw [h₁, hself] at hg
      rw [hother t₂ h₂] at hg'
      exact (hnew g hg).2 g' (.inl ⟨t₂, h₂, hg'⟩)
    · rw [hother t₁ h₁] at hg
      by_cases h₂ : t₂ = t
      · rw [h₂, hself] at hg'
        exact ((hnew g' hg').2 g (.inl ⟨t₁, h₁, hg⟩)).symm
      · rw [hother t₂ h₂] at hg'
        exact h.calls t₁ t₂ hne g hg g' hg'
  · by_cases htt : t' = t
    · rw [htt, hself] at hg
      exact (hnew g hg).2 r.1 (.inr ⟨r, hr, rfl⟩)
    · rw [hother t' htt] at hg
      exact h.mixed t' g hg r hr
  · rcases hcov x h₁ h₂ with hx | ⟨g, hg, hx⟩ | ⟨t', htt, g, hg, hx⟩ | hx
    · exact .inl hx
    · exact .inr (.inl ⟨t, g, hself.symm ▸ hg, hx⟩)
    · exact .inr (.inl ⟨t', g, (hother t' htt).symm ▸ hg, hx⟩)
    · exact .inr (.inr hx)

/-- What covers an address covers it when the call of `t` goes on, unless that call owes its
page. -/
theorem Inv.rest (h : σ.Inv H) {x : Nat} (h₁ : HEAP_BASE ≤ x) (h₂ : x < σ.brk) :
    σ.mapped x = true ∨ (∃ g ∈ (σ.calls t).growth, g.Owes x) ∨
      (∃ t', t' ≠ t ∧ ∃ g ∈ (σ.calls t').growth, g.Owes x) ∨
      ∃ f ∈ H.failures, f.before ≠ f.growth.new ∧ f.growth.Owes x := by
  rcases h.covered x h₁ h₂ with hx | ⟨t', g, hg, hx⟩ | hx
  · exact .inl hx
  · by_cases htt : t' = t
    · exact .inr (.inl ⟨g, htt ▸ hg, hx⟩)
    · exact .inr (.inr (.inl ⟨t', htt, g, hg, hx⟩))
  · exact .inr (.inr (.inr hx))

theorem Inv.below (h : σ.Inv H) {g : Growth} (hg : σ.Theirs H t g) (hne : g.old < g.new) :
    g.new ≤ σ.brk := by
  rcases hg with ⟨t', -, hg⟩ | ⟨r, hr, rfl⟩
  · exact (h.busy t' g hg).below hne
  · exact (h.grants r hr).1.below hne

theorem Inv.theirs (h : σ.Inv H) {g g' : Growth} (hg : g ∈ (σ.calls t).growth)
    (hg' : σ.Theirs H t g') : g.Apart g' := by
  rcases hg' with ⟨t', ht', hg'⟩ | ⟨r, hr, rfl⟩
  · exact h.calls t t' ht'.symm g hg g' hg'
  · exact h.mixed t g hg r hr

theorem Growth.not_owes {x : Nat} (h : g.new ≤ g.page) : ¬ g.Owes x := fun ho =>
  absurd (ho.1.trans_lt ho.2) (Nat.not_lt.mpr h)

theorem Inv.pass (h : σ.Inv H) (ht : ∀ g ∈ (σ.calls t).growth, g.new ≤ g.page)
    (hc : c.growth = none) (hasks : ∀ addr cur, c = .asks addr cur → cur < addr) :
    (σ.setCall t c).Inv H := by
  refine h.change rfl h.bounds (fun _ hx => hx) (fun g hg hne => h.below hg hne) hasks
    (fun g hg => ?_) (fun g hg => ?_) fun x h₁ h₂ => ?_
  · rw [hg] at hc
    cases hc
  · rw [hc] at hg
    cases hg
  · rcases h.rest (t := t) h₁ h₂ with hx | ⟨g, hg, hx⟩ | hx
    · exact .inl hx
    · exact absurd hx (Growth.not_owes (ht g hg))
    · exact .inr (.inr hx)

/-- `sbrk` reserves its range. -/
theorem Inv.reserve (h : σ.Inv H) (ht : (σ.calls t).growth = none) {inc : Nat}
    {ask : Option (Nat × Nat)} {no : Growing} (hno : no = .idle ∨ no = .rereads)
    (hask : ∀ a ∈ ask, a.2 = σ.brk → a.1 = σ.brk + inc) : (σ.reserve t inc ask no).Inv H := by
  have hpass : (σ.setCall t no).Inv H := by
    refine h.pass (fun g hg => ?_) ?_ fun addr cur hc => ?_
    · rw [ht] at hg
      cases hg
    · rcases hno with rfl | rfl <;> rfl
    · rcases hno with rfl | rfl <;> cases hc
  unfold Heap.reserve range
  by_cases hover : σ.brk + inc < 2 ^ 64
  case neg =>
    rw [if_neg hover]
    exact hpass
  rw [if_pos hover]
  by_cases hlim : HEAP_LIMIT < σ.brk + inc
  case pos =>
    rw [if_pos hlim]
    exact hpass
  rw [if_neg hlim]
  dsimp only
  refine h.change rfl ⟨?_, ?_⟩ (fun _ hx => hx) (fun g hg hne => ?_) (fun _ _ hc => ?_)
    (fun _ hc => ?_) (fun g hg => ?_) fun x h₁ h₂ => ?_
  · exact h.bounds.1.trans (Nat.le_add_right ..)
  · exact Nat.le_of_not_lt hlim
  · exact (h.below hg hne).trans (Nat.le_add_right ..)
  · cases hc
  · cases hc
  · obtain rfl := Option.some.inj hg
    refine ⟨⟨h.bounds.1, Nat.le_add_right .., fun _ => le_refl _, dvd_pageFrom, le_pageFrom,
      fun x h₁ h₂ => ?_, hask⟩, fun g' hg' => (Growth.apart_of_le (h.below hg')).symm⟩
    exact absurd ((pageFrom_le dvd_pageOf h₁).trans pageOf_le) (Nat.not_le.mpr h₂)
  · by_cases hx : σ.brk ≤ pageOf x
    · exact .inr (.inl ⟨_, rfl, pageFrom_le dvd_pageOf hx, pageOf_le.trans_lt h₂⟩)
    -- the page of an address further down: it is what it was for the address of its begin
    · have hbase : HEAP_BASE ≤ pageOf x := le_pageOf (by decide) h₁
      rcases h.rest (t := t) hbase (Nat.lt_of_not_le hx) with hx | ⟨g, hg, -⟩ | hx | hx
      · rw [mapped_congr pageOf_pageOf] at hx
        exact .inl hx
      · rw [ht] at hg
        cases hg
      · simp only [Growth.owes_pageOf] at hx
        exact .inr (.inr (.inl hx))
      · simp only [Growth.owes_pageOf] at hx
        exact .inr (.inr (.inr hx))

theorem Inv.mapNext (h : σ.Inv H) (ht : σ.calls t = .maps g) (hp : g.page < g.new) :
    (σ.mapNext t g).Inv H := by
  have hg : g ∈ (σ.calls t).growth := by
    rw [ht]
    rfl
  have hbusy := h.busy t g hg
  obtain ⟨hkeep, hmap⟩ := mapZeroed_mapped σ.root g.page .userData σ.mm
  unfold Heap.mapNext
  rcases hz : σ.mm.mapZeroed σ.root g.page .userData with ⟨- | -, mm⟩
  · rw [hz] at hkeep
    dsimp only at hkeep ⊢
    refine h.change rfl h.bounds hkeep (fun g' hg' hne => h.below hg' hne) (fun _ _ hc => ?_)
      (fun g' hc => ?_) (fun g' hg' => ?_) fun x h₁ h₂ => ?_
    · cases hc
    · obtain rfl := Growing.fails.inj hc
      exact hp
    · obtain rfl := Option.some.inj hg'
      exact ⟨hbusy.mono hkeep hbusy.below, fun g' hg' => h.theirs hg hg'⟩
    · rcases h.rest (t := t) h₁ h₂ with hx | ⟨g', hg', hx⟩ | hx
      · exact .inl (hkeep x hx)
      · rw [ht] at hg'
        exact .inr (.inl ⟨g', hg', hx⟩)
      · exact .inr (.inr hx)
  · rw [hz] at hkeep hmap
    dsimp only at hkeep hmap ⊢
    have hpage : ∀ x, pageOf x = g.page → (mm.pts σ.root).isMapped x = true := by
      intro x hx
      refine hmap rfl x ?_
      rw [← hx, vpn_pageOf]
    refine h.change rfl h.bounds hkeep (fun g' hg' hne => h.below hg' hne) (fun _ _ hc => ?_)
      (fun g' hc => ?_) (fun g' hg' => ?_) fun x h₁ h₂ => ?_
    · cases hc
    · cases hc
    · obtain rfl := Option.some.inj hg'
      have hmono := hbusy.mono (τ := { σ with mm := mm }) hkeep hbusy.below
      refine ⟨{ hmono with
        aligned := Nat.dvd_add hbusy.aligned (Nat.dvd_refl PAGE)
        start := hbusy.start.trans (Nat.le_add_right ..)
        done := fun x h₁ h₂ => ?_ }, fun g' hg' x => h.theirs hg hg' x⟩
      by_cases hx : x < g.page
      · exact hmono.done x h₁ hx
      · exact hpage x (pageOf_eq hbusy.aligned (Nat.le_of_not_lt hx) h₂)
    · rcases h.rest (t := t) h₁ h₂ with hx | ⟨g', hg', hx⟩ | hx
      · exact .inl (hkeep x hx)
      · rw [ht] at hg'
        obtain rfl := Option.some.inj hg'
        by_cases hxp : pageOf x = g.page
        · exact .inl (hpage x hxp)
        · exact .inr (.inl ⟨_, rfl, next_le_pageOf hbusy.aligned hx.1 hxp, hx.2⟩)
      · exact .inr (.inr hx)

theorem Inv.settle (h : σ.Inv H) (ht : σ.calls t = .fails g) :
    (σ.settle t g).Inv { H with failures := ⟨g, σ.brk, (σ.settle t g).brk⟩ :: H.failures } := by
  have hg : g ∈ (σ.calls t).growth := by
    rw [ht]
    rfl
  have hbusy := h.busy t g hg
  have hp := h.fails t g ht
  have hnew := hbusy.below (hbusy.start.trans_lt hp)
  have hmax : max g.page g.old = g.page := Nat.max_eq_left hbusy.start
  have hbrk : (σ.settle t g).brk = if σ.brk = g.new then g.page else σ.brk := by
    rw [← hmax]
    rfl
  have hcall : (if g.ask.isSome then Growing.rereads else .idle) = .rereads ∨
      (if g.ask.isSome then Growing.rereads else .idle) = .idle := by
    cases g.ask with
    | none => exact .inr rfl
    | some ask => exact .inl rfl
  have hnone : (if g.ask.isSome then Growing.rereads else .idle).growth = none := by
    rcases hcall with hc | hc <;> (rw [hc]; rfl)
  have hfail := h.failure (f := ⟨g, σ.brk, (σ.settle t g).brk⟩) fun hb => by
    dsimp only at hb ⊢
    rw [hbrk, if_pos hb]
  refine hfail.change rfl ?_ (fun _ hx => hx) (fun g' hg' hne => ?_) (fun _ _ hc => ?_)
    (fun g' hc => ?_) (fun g' hg' => ?_) fun x h₁ h₂ => ?_
  · rw [hbrk]
    split
    · exact ⟨hbusy.base.trans hbusy.start, by have := h.bounds.2; omega⟩
    · exact h.bounds
  · have hlow := h.below hg' hne
    rw [hbrk]
    split
    · rename_i hlast
      -- a range below the break that does not overlap this one, which is the last, is further down
      have hapart := h.theirs hg hg'
      by_contra hover
      exact hapart (max g.old g'.old) (by omega) (by omega) (by omega) (by omega)
    · exact hlow
  · rcases hcall with hc' | hc' <;> (rw [hc'] at hc; cases hc)
  · rcases hcall with hc' | hc' <;> (rw [hc'] at hc; cases hc)
  · rw [hnone] at hg'
    cases hg'
  · have hx' : x < σ.brk := by
      rw [hbrk] at h₂
      split at h₂ <;> omega
    rcases hfail.rest (t := t) h₁ hx' with hx | ⟨g', hg', hx⟩ | hx
    · exact .inl hx
    · rw [ht] at hg'
      obtain rfl := Option.some.inj hg'
      by_cases hlast : σ.brk = g.new
      -- the break is now where the pages that are not mapped begin
      · rw [hbrk, if_pos hlast] at h₂
        exact absurd (hx.1.trans pageOf_le) (Nat.not_le.mpr h₂)
      · exact .inr (.inr (.inr ⟨_, List.mem_cons_self, hlast, hx⟩))
    · exact .inr (.inr hx)

theorem Inv.step {a : BreakAct} (h : σ.Inv H) (hs : σ.step a = some τ) :
    τ.Inv (BreakLog.note σ a τ H) := by
  cases a with
  | sbrk t inc =>
      simp only [Heap.step] at hs
      split at hs
      case h_2 => cases hs
      rename_i ht
      obtain rfl := Option.some.inj hs
      exact h.reserve (by rw [ht]; rfl) (.inl rfl) fun a ha => nomatch ha
  | brk t addr =>
      simp only [Heap.step] at hs
      split at hs
      case h_2 => cases hs
      rename_i ht
      obtain rfl := Option.some.inj hs
      rw [BreakLog.note]
      by_cases haddr : addr ≤ σ.brk
      · rw [if_pos haddr, if_pos haddr]
        exact h.look
      · rw [if_neg haddr, if_neg haddr]
        refine h.pass (fun g hg => ?_) rfl fun addr' cur hc => ?_
        · rw [ht] at hg
          cases hg
        · obtain ⟨rfl, rfl⟩ := Growing.asks.inj hc
          exact Nat.lt_of_not_le haddr
  | grow t =>
      simp only [Heap.step] at hs
      split at hs
      case h_2 => cases hs
      rename_i addr cur ht
      obtain rfl := Option.some.inj hs
      refine h.reserve (by rw [ht]; rfl) (.inr rfl) fun a ha hcur => ?_
      obtain rfl := Option.some.inj ha
      have hlt := h.asks t addr cur ht
      dsimp only at hcur ⊢
      omega
  | map t =>
      simp only [Heap.step] at hs
      split at hs
      case h_2 => cases hs
      rename_i g ht
      obtain rfl := Option.some.inj hs
      have hg : g ∈ (σ.calls t).growth := by
        rw [ht]
        rfl
      rw [BreakLog.note, ht]
      dsimp only
      by_cases hp : g.page < g.new
      · rw [if_pos hp, if_pos hp]
        exact h.mapNext ht hp
      · rw [if_neg hp, if_neg hp]
        have hdone : g.new ≤ g.page := Nat.le_of_not_lt hp
        have hpass : (σ.setCall t .idle).Inv H := by
          refine h.pass (fun g' hg' => ?_) rfl fun _ _ hc => nomatch hc
          rw [ht] at hg'
          obtain rfl := Option.some.inj hg'
          exact hdone
        refine hpass.grant ((h.busy t g hg).mono (fun _ hx => hx) (h.busy t g hg).below) hdone
          (fun t' g' hg' => ?_) (fun r hr => h.mixed t g hg r hr) _
        by_cases htt : t' = t
        · rw [htt, calls_setCall_self] at hg'
          cases hg'
        · rw [calls_setCall_of_ne htt] at hg'
          exact h.calls t' t htt g' hg' g hg
  | settle t =>
      simp only [Heap.step] at hs
      split at hs
      case h_2 => cases hs
      rename_i g ht
      obtain rfl := Option.some.inj hs
      rw [BreakLog.note, ht]
      exact h.settle ht
  | reread t =>
      simp only [Heap.step] at hs
      split at hs
      case h_2 => cases hs
      rename_i ht
      obtain rfl := Option.some.inj hs
      refine h.look.pass (fun g hg => ?_) rfl fun _ _ hc => nomatch hc
      rw [ht] at hg
      cases hg
  | frames fr =>
      obtain rfl := Option.some.inj hs
      exact ⟨h.bounds, h.asks, h.fails, fun t g hg => (h.busy t g hg).mono (fun _ hx => hx)
        (h.busy t g hg).below, fun r hr => ⟨(h.grants r hr).1.mono (fun _ hx => hx)
        (h.grants r hr).1.below, (h.grants r hr).2⟩, h.calls, h.mixed, h.apart, h.looks, h.covered,
        h.failed⟩

/-! ### Runs -/

/-- The runs of the calls of an address space that is new at first, with their log. -/
abbrev Breaking : Heap × BreakLog → Prop :=
  Noted Heap.step BreakLog.note Fresh .empty fun _ _ => True

/-- **The program break**, whatever the order of the calls and wherever frames run out: it stays
within its bounds; the ranges handed out do not overlap, and each page that begins in one is mapped;
`brk` returns the break that it read or reserved; an address below the break is mapped, but for the
pages that a call has still to map or has left behind; a call that fails keeps what it mapped. -/
theorem break_kept (h : Breaking (σ, H)) : σ.Sound H := by
  have hinv : σ.Inv H := by
    refine Noted.invariant (I := Inv) ?_ ?_ h
    · rintro σ ⟨hbrk, hidle⟩
      have hnone : ∀ t, (σ.calls t).growth = none := fun t => by
        rw [hidle]
        rfl
      refine ⟨?_, fun t addr cur ht => ?_, fun t g ht => ?_, fun t g hg => ?_,
        fun r hr => absurd hr List.not_mem_nil, fun t t' _ g hg => ?_, fun t g hg => ?_, .nil,
        fun r hr => absurd hr List.not_mem_nil, fun x h₁ h₂ => ?_,
        fun f hf => absurd hf List.not_mem_nil⟩
      · rw [hbrk]
        exact ⟨le_refl _, by decide⟩
      · rw [hidle] at ht
        cases ht
      · rw [hidle] at ht
        cases ht
      · rw [hnone] at hg
        cases hg
      · rw [hnone] at hg
        cases hg
      · rw [hnone] at hg
        cases hg
      · rw [hbrk] at h₂
        omega
    · intro σ a τ H hI _ hs
      exact hI.step hs
  exact hinv.sound

/-- A new space, with frames to be had. -/
def bare : Heap := ⟨.boot (.boot 64 fun _ => false), 0, HEAP_BASE, fun _ => .idle⟩

theorem bare_breaking : Breaking (bare, .empty) := Noted.start ⟨rfl, fun _ => rfl⟩

/-- Two threads grow the heap at once, and one reads the break with `brk`. -/
theorem break_kept_two : ∃ (σ : Heap) (H : BreakLog), σ.Sound H ∧
    H.grants.map (fun r => (r.1.old, r.1.new)) =
      [(HEAP_BASE, HEAP_BASE + 100), (HEAP_BASE + 100, HEAP_BASE + 5000)] ∧
    H.looks.map Prod.fst = [HEAP_BASE + 5000] := by
  have hrun : (Runs.run (noted Heap.step BreakLog.note) (fun _ _ => True)
      [.sbrk 0 100, .sbrk 1 4900, .map 1, .map 1, .map 0, .map 0, .brk 2 0] (bare, .empty)).any
      (fun x => decide (x.2.grants.map (fun r => (r.1.old, r.1.new)) =
        [(HEAP_BASE, HEAP_BASE + 100), (HEAP_BASE + 100, HEAP_BASE + 5000)] ∧
        x.2.looks.map Prod.fst = [HEAP_BASE + 5000])) = true := by
    decide +kernel
  obtain ⟨x, hx, hc⟩ := (Option.any_eq_true _ _).mp hrun
  obtain ⟨hgrants, hlooks⟩ := of_decide_eq_true hc
  have hreach : Breaking (x.1, x.2) := Reached.run bare_breaking hx
  exact ⟨x.1, x.2, break_kept hreach, hgrants, hlooks⟩

/-- The second page of a call cannot be mapped, and the first one stays below the break. -/
theorem failure_counted : ¬ ∀ (σ : Heap) (H : BreakLog), Breaking (σ, H) → σ.Claimed H := by
  intro hall
  have hrun : (Runs.run (noted Heap.step BreakLog.note) (fun _ _ => True)
      [.sbrk 0 8192, .map 0, .frames (.boot 0 fun _ => false), .map 0, .settle 0]
      (bare, .empty)).any (fun x => decide (∃ f ∈ x.2.failures,
        ¬ (f.growth.page ≤ pageFrom f.growth.old ∨ f.after ≤ pageFrom f.growth.old))) = true := by
    decide +kernel
  obtain ⟨x, hx, hc⟩ := (Option.any_eq_true _ _).mp hrun
  obtain ⟨f, hf, hnot⟩ := of_decide_eq_true hc
  have hreach : Breaking (x.1, x.2) := Reached.run bare_breaking hx
  exact hnot ((hall x.1 x.2 hreach).failed f hf)

end Heap

end Pulsar.Vm

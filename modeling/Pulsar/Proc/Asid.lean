import Pulsar.Lib.Tags
import Pulsar.Proc.Owners

/-!
# Address-space identifiers (`loader.rs`, `process.rs`)

`alloc_asid` takes identifiers from a counter that wraps, flushes the translations loaded under the
one it takes, and does not ask whether a space still has it.  The system here is the table, the
spaces that got an identifier and are not in the table yet, and the translations that may be kept,
each with the space it was loaded for; spaces are numbered as they are made.

* `asids_apart`: while no space is left from whole turns of the counter ago when another is made, no
  two spaces have the same identifier and a running process finds its own translations only.
* `asids_shared`: a space made a turn of the counter after one that is left has the same.
-/

namespace Pulsar.Proc

/-- A space that is made: its number, its root and its identifier. -/
structure NewSpace where
  space : Nat
  root : Nat
  asid : Nat
  deriving DecidableEq

/-- The table (`procs`), `NEXT_ASID`, how many spaces were made, the number of the space of each
owner, the spaces that are in no slot yet, and the translations that may be kept. -/
structure Sys where
  procs : Procs
  nextAsid : Nat
  made : Nat
  space : Nat → Nat
  waiting : List NewSpace
  tlb : List (Nat × Nat)

/-- What happens: the kernel's functions with the arguments their callers pass. -/
inductive Event where
  /-- `alloc_asid` for a space with this root. -/
  | allocAsid (root : Nat)
  | createEx (c : Option Nat) (n : NewSpace)
  | threadCreate (s clearTid : Nat)
  | fork (s : Nat) (n : NewSpace) (clearTid : Nat)
  | vfork (s clearTid : Nat)
  | execReplace (s : Nat) (n : NewSpace)
  | reap (s : Nat)
  /-- A process is dispatched, preempted, blocked or woken. -/
  | setState (s : Nat) (st : State)
  /-- A running process uses memory: the translation may be kept. -/
  | load (s : Nat)
  /-- `flush_asid`. -/
  | flushAsid (asid : Nat)

namespace Sys

/-- The system at first. -/
def boot : Sys :=
  { procs := fun _ => Process.empty, nextAsid := 0, made := 0, space := fun _ => 0, waiting := [],
    tlb := [] }

/-- The identifier that `alloc_asid` takes. -/
def asid (σ : Sys) : Nat := σ.nextAsid % 255 + 1

/-- `flush_asid(a)`. -/
def flushAsid (a : Nat) (σ : Sys) : Sys :=
  { σ with tlb := σ.tlb.filter fun e => decide (e.1 ≠ a) }

/-- `alloc_asid()` for a new space. -/
def allocAsid (root : Nat) (σ : Sys) : Sys :=
  { σ.flushAsid σ.asid with
    nextAsid := (σ.nextAsid + 1) % 2 ^ 32
    made := σ.made + 1
    waiting := ⟨σ.made, root, σ.asid⟩ :: σ.waiting }

/-- The new space goes to slot `i`, or is freed when there is none. -/
def place (n : NewSpace) (r : Option Nat × Procs) (σ : Sys) : Sys :=
  { σ with
    procs := r.2
    space := match r.1 with
      | some i => Function.update σ.space i n.space
      | none => σ.space
    waiting := σ.waiting.erase n }

/-- The process of slot `s` is the current one of a processor. -/
def Runs (σ : Sys) (s : Nat) : Prop := (σ.procs s).state = .running

instance (σ : Sys) (s : Nat) : Decidable (σ.Runs s) := by unfold Runs; infer_instance

/-- One event, where it can happen. -/
def step (σ : Sys) : Event → Option Sys
  | .allocAsid root => some (σ.allocAsid root)
  | .createEx c n =>
    if n ∈ σ.waiting then some (σ.place n (σ.procs.createEx c n.root n.asid)) else none
  | .threadCreate s clearTid =>
    if σ.Runs s then some { σ with procs := (σ.procs.threadCreate s clearTid).2 } else none
  | .fork s n clearTid =>
    if n ∈ σ.waiting ∧ σ.Runs s then
      some (σ.place n (σ.procs.fork s (some (n.root, n.asid)) clearTid))
    else none
  | .vfork s clearTid =>
    if σ.Runs s then some { σ with procs := (σ.procs.fork s none clearTid).2 } else none
  | .execReplace s n =>
    if n ∈ σ.waiting ∧ σ.Runs s then
      let r := σ.procs.execReplace s n.root n.asid
      some (σ.place n (if r.1 then some s else none, r.2.1))
    else none
  | .reap s => if (σ.procs s).Live then some { σ with procs := (σ.procs.reap s).1 } else none
  | .setState s st =>
    if (σ.procs s).Live ∧ st ≠ .unused ∧ st ≠ .zombie then
      some { σ with procs := σ.procs.setState s st }
    else none
  | .load s =>
    if σ.Runs s then
      some { σ with tlb := ((σ.procs s).asid, σ.space (σ.procs s).mm) :: σ.tlb }
    else none
  | .flushAsid a => some (σ.flushAsid a)

/-- The events one after the other. -/
def run : List Event → Sys → Option Sys
  | [], σ => some σ
  | e :: es, σ => (σ.step e).bind (run es)

/-- What is reached by events that satisfy `P` where they happen. -/
inductive Reached (P : Sys → Event → Prop) : Sys → Prop where
  | boot : Reached P boot
  | step {σ τ : Sys} {e : Event} (h : Reached P σ) (he : P σ e) (hs : σ.step e = some τ) :
      Reached P τ

/-- No two spaces in the table have the same identifier, and the translations that a running process
may find were loaded for its own space. -/
def Apart (σ : Sys) : Prop :=
  (∀ m m', σ.procs.Owner m → σ.procs.Owner m' → (σ.procs m).asid = (σ.procs m').asid → m = m') ∧
  ∀ s, σ.Runs s → ∀ e ∈ σ.tlb, e.1 = (σ.procs s).asid → e.2 = σ.space (σ.procs s).mm

/-- The space with this number has this identifier, in the table or on its way there. -/
inductive Holds (σ : Sys) : Nat → Nat → Prop where
  | owner {m : Nat} (h : σ.procs.Owner m) : Holds σ (σ.space m) (σ.procs m).asid
  | waiting {n : NewSpace} (h : n ∈ σ.waiting) : Holds σ n.space n.asid

/-- How many identifiers were taken from that of space `sp` on, less one for each time that the 32
bits of the counter went over meanwhile. -/
def age (σ : Sys) (sp : Nat) : Nat := σ.made - sp - (σ.made / 2 ^ 32 - sp / 2 ^ 32)

/-- No space that is left was made whole turns of the counter ago. -/
def Renewed (σ : Sys) : Event → Prop
  | .allocAsid _ => ∀ sp a, σ.Holds sp a → ¬ 255 ∣ σ.age sp
  | _ => True

/-- No two spaces, in the table or on their way there, have the same identifier. -/
def Told (σ : Sys) : Prop := ∀ sp sp' a, σ.Holds sp a → σ.Holds sp' a → sp = sp'

/-- What holds in every state: each space is in the table or on its way there once, and the
identifiers, which were taken in turn, tell the spaces and their translations apart. -/
structure Kept (σ : Sys) : Prop where
  fine : σ.procs.Fine
  apart : Tags.Apart σ.Holds fun a sp => (a, sp) ∈ σ.tlb
  owners : ∀ m m', σ.procs.Owner m → σ.procs.Owner m' → σ.space m = σ.space m' → m = m'
  waiting : (σ.waiting.map NewSpace.space).Nodup
  away : ∀ n ∈ σ.waiting, ∀ m, σ.procs.Owner m → σ.space m ≠ n.space
  made : ∀ sp a, σ.Holds sp a → sp < σ.made ∧ a = sp % 2 ^ 32 % 255 + 1
  next : σ.nextAsid = σ.made % 2 ^ 32

variable {σ τ : Sys} {i s : Nat} {qs : Procs} {n : NewSpace}

theorem Kept.apart_slots (h : σ.Kept) : σ.Apart := by
  refine ⟨fun m m' hm hm' ha => ?_, fun s hs e he ha => ?_⟩
  · have hheld : σ.Holds (σ.space m') (σ.procs m).asid := ha ▸ .owner hm'
    exact h.owners m m' hm hm' (h.apart.one (.owner hm) hheld)
  · have hused : (σ.procs s).state ≠ .unused := by
      rw [hs]
      decide
    have hheld := Holds.owner (h.fine.owner s hused)
    rw [← h.fine.asid s hused, ← ha] at hheld
    exact h.apart.own hheld he

theorem kept_boot : boot.Kept := by
  have hno : ∀ sp a, ¬ boot.Holds sp a := by
    rintro sp a (⟨hown, -⟩ | hn)
    · exact hown rfl
    · exact absurd hn List.not_mem_nil
  refine ⟨Procs.fine_empty, ⟨?_, ?_⟩, ?_, List.nodup_nil, ?_, ?_, ?_⟩
  · exact fun ha => absurd ha (hno _ _)
  · exact fun ha => absurd ha (hno _ _)
  · exact fun m m' hm => absurd rfl hm.1
  · exact fun n hn => absurd hn List.not_mem_nil
  · exact fun sp a ha => absurd ha (hno sp a)
  · rfl

theorem Kept.shrink (h : σ.Kept) (hf : τ.procs.Fine)
    (ho : ∀ m, τ.procs.Owner m → σ.procs.Owner m ∧ (τ.procs m).asid = (σ.procs m).asid)
    (hs : τ.space = σ.space) (hw : τ.waiting.Sublist σ.waiting) (hm : τ.made = σ.made)
    (hn : τ.nextAsid = σ.nextAsid) (ht : ∀ e ∈ τ.tlb, e ∈ σ.tlb) : τ.Kept := by
  have hheld : ∀ {sp a}, τ.Holds sp a → σ.Holds sp a := by
    rintro sp a (hown | hn)
    · obtain ⟨h₁, h₂⟩ := ho _ hown
      rw [hs, h₂]
      exact .owner h₁
    · exact .waiting (hw.subset hn)
  refine ⟨hf, h.apart.mono hheld (ht _), fun m m' h₁ h₂ he => ?_, h.waiting.sublist (hw.map _),
    fun n hn m h₁ => ?_, fun sp a ha => hm ▸ h.made sp a (hheld ha), by rw [hn, hm, h.next]⟩
  · exact h.owners m m' (ho m h₁).1 (ho m' h₂).1 (hs ▸ he)
  · rw [hs]
    exact h.away n (hw.subset hn) m (ho m h₁).1

theorem Kept.ends {t : Outcome} (h : σ.Kept) (he : Procs.Ends σ.procs t) :
    ({ σ with procs := t.1 } : Sys).Kept :=
  h.shrink (τ := { σ with procs := t.1 }) he.fine
    (fun m hm => ⟨((he.owner m).mp hm).1, (he.used m hm.1).2.2.1⟩) rfl (.refl _) rfl rfl fun _ => id

theorem Kept.join (h : σ.Kept) (hb : Procs.Begins σ.procs i qs) (hi : (qs i).mm ≠ i) :
    ({ σ with procs := qs } : Sys).Kept := by
  refine h.shrink (τ := { σ with procs := qs }) hb.fine (fun m hm => ?_) rfl (.refl _) rfl rfl
    fun _ => id
  have hmi : m ≠ i := fun e => hi (e ▸ hm.2)
  exact ⟨(hb.owner hmi).mp hm, (hb.others m hmi).2.2.2⟩

theorem Kept.enter (h : σ.Kept) (hn : n ∈ σ.waiting) (hb : Procs.Begins σ.procs i qs)
    (hi : (qs i).mm = i) (ha : (qs i).asid = n.asid) : (σ.place n (some i, qs)).Kept := by
  have hspace : ∀ m, m ≠ i → (σ.place n (some i, qs)).space m = σ.space m :=
    fun m hm => Function.update_of_ne hm ..
  have hself : (σ.place n (some i, qs)).space i = n.space := Function.update_self ..
  have hnodup : σ.waiting.Nodup := h.waiting.of_map
  have hout : ∀ x ∈ σ.waiting.erase n, x ∈ σ.waiting ∧ x.space ≠ n.space := fun x hx => by
    obtain ⟨hne, hx⟩ := hnodup.mem_erase_iff.mp hx
    exact ⟨hx, fun e => hne (List.inj_on_of_nodup_map h.waiting hx hn e)⟩
  have hheld : ∀ {sp a}, (σ.place n (some i, qs)).Holds sp a → σ.Holds sp a := by
    rintro sp a (@⟨m, hown⟩ | @⟨x, hx⟩)
    · by_cases e : m = i
      · subst e
        rw [hself]
        exact ha ▸ .waiting hn
      · rw [hspace m e]
        exact (hb.others m e).2.2.2 ▸ .owner ((hb.owner e).mp hown)
    · exact .waiting (hout x hx).1
  refine ⟨hb.fine, h.apart.mono hheld id, fun m m' hm hm' he => ?_,
    h.waiting.sublist (List.erase_sublist.map _), fun x hx m hm => ?_,
    fun sp a hsp => h.made sp a (hheld hsp), h.next⟩
  · by_cases e : m = i
    · by_cases e' : m' = i
      · rw [e, e']
      · rw [e, hself, hspace m' e'] at he
        exact absurd he.symm (h.away n hn m' ((hb.owner e').mp hm'))
    · by_cases e' : m' = i
      · rw [e', hself, hspace m e] at he
        exact absurd he (h.away n hn m ((hb.owner e).mp hm))
      · rw [hspace m e, hspace m' e'] at he
        exact h.owners m m' ((hb.owner e).mp hm) ((hb.owner e').mp hm') he
  · by_cases e : m = i
    · rw [e, hself]
      exact (hout x hx).2.symm
    · rw [hspace m e]
      exact h.away x (hout x hx).1 m ((hb.owner e).mp hm)

theorem Kept.drop (h : σ.Kept) : (σ.place n (none, σ.procs)).Kept :=
  h.shrink h.fine (fun _ hm => ⟨hm, rfl⟩) rfl List.erase_sublist rfl rfl fun _ => id

theorem Kept.place {r : Option Nat × Procs} (h : σ.Kept) (hn : n ∈ σ.waiting)
    (hnone : r.1 = none → r.2 = σ.procs)
    (hsome : ∀ i, r.1 = some i →
      Procs.Begins σ.procs i r.2 ∧ (r.2 i).mm = i ∧ (r.2 i).asid = n.asid) : (σ.place n r).Kept := by
  obtain ⟨o, qs⟩ := r
  cases o with
  | none =>
      obtain rfl : qs = σ.procs := hnone rfl
      exact h.drop
  | some i =>
      obtain ⟨hb, hm, ha⟩ := hsome i rfl
      exact h.enter hn hb hm ha

theorem Kept.share {r : Option Nat × Procs} (h : σ.Kept) (hnone : r.1 = none → r.2 = σ.procs)
    (hsome : ∀ i, r.1 = some i → Procs.Begins σ.procs i r.2 ∧ (r.2 i).mm ≠ i) :
    ({ σ with procs := r.2 } : Sys).Kept := by
  obtain ⟨o, qs⟩ := r
  cases o with
  | none =>
      obtain rfl : qs = σ.procs := hnone rfl
      exact h
  | some i =>
      obtain ⟨hb, hm⟩ := hsome i rfl
      exact h.join hb hm

theorem Kept.allocAsid (h : σ.Kept) (root : Nat) (hfree : ∀ sp, ¬ σ.Holds sp σ.asid) :
    (σ.allocAsid root).Kept := by
  have hheld : ∀ {sp a}, (σ.allocAsid root).Holds sp a →
      σ.Holds sp a ∨ sp = σ.made ∧ a = σ.asid := by
    rintro sp a (hown | hn)
    · exact .inl (.owner hown)
    · rcases List.mem_cons.mp hn with rfl | hn
      · exact .inr ⟨rfl, rfl⟩
      · exact .inl (.waiting hn)
  refine ⟨h.fine, h.apart.hand hfree hheld fun he => ?_, h.owners, ?_, fun x hx m hm => ?_,
    fun sp a hsp => ?_, ?_⟩
  · obtain ⟨h₁, h₂⟩ := List.mem_filter.mp he
    exact ⟨h₁, of_decide_eq_true h₂⟩
  · refine List.nodup_cons.mpr ⟨fun hin => ?_, h.waiting⟩
    obtain ⟨x, hx, he⟩ := List.mem_map.mp hin
    exact absurd (h.made _ _ (.waiting hx)).1 (by rw [he]; exact Nat.lt_irrefl _)
  · rcases List.mem_cons.mp hx with rfl | hx
    · exact Nat.ne_of_lt (h.made _ _ (.owner hm)).1
    · exact h.away x hx m hm
  · rcases hheld hsp with hsp | ⟨rfl, rfl⟩
    · exact ⟨Nat.lt_succ_of_lt (h.made sp a hsp).1, (h.made sp a hsp).2⟩
    · exact ⟨Nat.lt_succ_self _, by rw [Sys.asid, h.next]⟩
  · rw [Sys.allocAsid, h.next]
    exact Nat.mod_add_mod ..

theorem Kept.load (h : σ.Kept) (hs : (σ.procs s).state ≠ .unused) :
    ({ σ with tlb := ((σ.procs s).asid, σ.space (σ.procs s).mm) :: σ.tlb } : Sys).Kept := by
  have hheld : σ.Holds (σ.space (σ.procs s).mm) (σ.procs s).asid := by
    rw [h.fine.asid s hs]
    exact .owner (h.fine.owner s hs)
  have hload : Tags.Apart σ.Holds fun a sp =>
      (a, sp) ∈ ((σ.procs s).asid, σ.space (σ.procs s).mm) :: σ.tlb :=
    h.apart.load hheld fun he => by
      rcases List.mem_cons.mp he with he | he
      · exact .inr (Prod.mk.inj he)
      · exact .inl he
  refine ⟨h.fine, hload.mono ?_ id, h.owners, h.waiting, h.away, ?_, h.next⟩
  · rintro sp a (hown | hn)
    · exact .owner hown
    · exact .waiting hn
  · rintro sp a (hown | hn)
    · exact h.made _ _ (.owner hown)
    · exact h.made _ _ (.waiting hn)

theorem Kept.flushAsid (h : σ.Kept) (a : Nat) : (σ.flushAsid a).Kept :=
  h.shrink h.fine (fun _ hm => ⟨hm, rfl⟩) rfl (.refl _) rfl rfl fun _ he => (List.mem_filter.mp he).1

theorem Kept.mm_ne (h : σ.Kept) (hs : (σ.procs s).Live) (hb : Procs.Begins σ.procs i qs)
    (hi : (qs i).mm = (σ.procs s).mm) : (qs i).mm ≠ i := by
  rw [hi]
  exact h.fine.mm_ne hb.free hs.1

theorem Kept.asid_eq (h : σ.Kept) {sp a : Nat} (hsp : σ.Holds sp a) : a = σ.asid ↔ 255 ∣ σ.age sp := by
  obtain ⟨hlt, rfl⟩ := h.made sp a hsp
  rw [asid, age, h.next]
  omega

theorem Kept.step {e : Event} (h : σ.Kept) (he : σ.Renewed e) (hs : σ.step e = some τ) :
    τ.Kept := by
  have hlive : ∀ {s}, σ.Runs s → (σ.procs s).Live := fun hr => by
    rw [Process.Live, hr]
    exact ⟨by decide, by decide⟩
  cases e with
  | allocAsid root =>
      obtain rfl := Option.some.inj hs
      exact h.allocAsid root fun sp hsp => he sp _ hsp ((h.asid_eq hsp).mp rfl)
  | createEx c n =>
      obtain ⟨hn, hτ⟩ := (Option.ite_none_right_eq_some ..).mp hs
      obtain rfl := Option.some.inj hτ
      refine h.place hn Procs.createEx_none fun i hi => ?_
      obtain ⟨hb, hm, -, ha⟩ := h.fine.createEx (Prod.ext hi rfl)
      exact ⟨hb, hm, ha⟩
  | threadCreate s clearTid =>
      obtain ⟨hr, hτ⟩ := (Option.ite_none_right_eq_some ..).mp hs
      obtain rfl := Option.some.inj hτ
      refine h.share Procs.threadCreate_none fun i hi => ?_
      obtain ⟨hb, hm⟩ := h.fine.threadCreate (hlive hr) (Prod.ext hi rfl)
      exact ⟨hb, h.mm_ne (hlive hr) hb hm⟩
  | fork s n clearTid =>
      obtain ⟨⟨hn, hr⟩, hτ⟩ := (Option.ite_none_right_eq_some ..).mp hs
      obtain rfl := Option.some.inj hτ
      refine h.place hn Procs.fork_none fun i hi => ?_
      obtain ⟨hb, hnew, -⟩ := h.fine.fork (hlive hr) (Prod.ext hi rfl)
      obtain ⟨hm, -, ha⟩ := hnew (n.root, n.asid) rfl
      exact ⟨hb, hm, ha⟩
  | vfork s clearTid =>
      obtain ⟨hr, hτ⟩ := (Option.ite_none_right_eq_some ..).mp hs
      obtain rfl := Option.some.inj hτ
      refine h.share Procs.fork_none fun i hi => ?_
      obtain ⟨hb, -, hm⟩ := h.fine.fork (hlive hr) (Prod.ext hi rfl)
      exact ⟨hb, h.mm_ne (hlive hr) hb (hm rfl)⟩
  | execReplace s n =>
      obtain ⟨⟨hn, hr⟩, hτ⟩ := (Option.ite_none_right_eq_some ..).mp hs
      obtain rfl := Option.some.inj hτ
      obtain ⟨t, hends, -, hfail, hdone⟩ :=
        Procs.execReplace_spec n.root n.asid h.fine (hlive hr)
      obtain ⟨r, hq⟩ : ∃ r, r = σ.procs.execReplace s n.root n.asid := ⟨_, rfl⟩
      simp only [← hq] at hfail hdone ⊢
      obtain ⟨b, qs, es⟩ := r
      cases b with
      | false =>
          obtain rfl : qs = t.1 := hfail rfl
          exact (h.ends hends).drop (n := n)
      | true =>
          obtain ⟨hb, hm, -, ha⟩ := hdone rfl
          exact (h.ends hends).enter (n := n) hn hb hm ha
  | reap s =>
      obtain ⟨hl, hτ⟩ := (Option.ite_none_right_eq_some ..).mp hs
      obtain rfl := Option.some.inj hτ
      exact h.ends (Procs.reap_ends h.fine hl)
  | setState s st =>
      obtain ⟨⟨hl, h₁, h₂⟩, hτ⟩ := (Option.ite_none_right_eq_some ..).mp hs
      obtain rfl := Option.some.inj hτ
      exact h.ends (t := (_, [])) (h.fine.ends (r := (_, [])) (Procs.same_setState hl h₁ h₂) (by simp))
  | load s =>
      obtain ⟨hr, hτ⟩ := (Option.ite_none_right_eq_some ..).mp hs
      obtain rfl := Option.some.inj hτ
      exact h.load (hlive hr).1
  | flushAsid a =>
      obtain rfl := Option.some.inj hs
      exact h.flushAsid a

theorem Kept.renewed (h : σ.Kept) (hm : σ.made < 255) (e : Event) : σ.Renewed e := by
  cases e with
  | allocAsid root =>
      intro sp a hsp
      have hlt := (h.made sp a hsp).1
      rw [age]
      omega
  | _ => trivial

theorem Reached.kept (h : Reached Renewed σ) : σ.Kept := by
  induction h with
  | boot => exact kept_boot
  | step _ he hs ih => exact ih.step he hs

/-- **Identifiers are not shared**: in every state reached by events that make a space only when none
is left from whole turns of the counter ago, no two spaces have the same identifier and a running
process finds the translations of its own space only; and the next space gets an identifier of its
own exactly if none is left from whole turns ago. -/
theorem asids_apart (h : Reached Renewed σ) :
    σ.Apart ∧ ∀ root, (σ.allocAsid root).Told ↔ σ.Renewed (.allocAsid root) := by
  refine ⟨h.kept.apart_slots, fun root => ⟨fun ht sp a hsp hage => ?_, fun hr sp sp' a => ?_⟩⟩
  · have hold : (σ.allocAsid root).Holds sp a := by
      rcases hsp with hown | hn
      · exact .owner hown
      · exact .waiting (List.mem_cons_of_mem _ hn)
    have hnew : (σ.allocAsid root).Holds σ.made σ.asid :=
      .waiting (n := ⟨σ.made, root, σ.asid⟩) List.mem_cons_self
    rw [(h.kept.asid_eq hsp).mpr hage] at hold
    exact absurd (h.kept.made sp a hsp).1 (ht _ _ _ hold hnew ▸ Nat.lt_irrefl _)
  · exact (h.kept.step (e := .allocAsid root) hr rfl).apart.one

/-- Two processes begin, one after the other. -/
theorem asids_apart_two : ∃ σ, run [.allocAsid 4096, .createEx none ⟨0, 4096, 1⟩, .allocAsid 8192,
    .createEx none ⟨1, 8192, 2⟩] boot = some σ ∧ σ.procs.Owner 1 ∧ σ.Apart := by
  have h₁ := Reached.boot.step (kept_boot.renewed (by decide) (.allocAsid 4096)) rfl
  have h₂ := h₁.step (e := .createEx none ⟨0, 4096, 1⟩) trivial rfl
  have h₃ := h₂.step (h₂.kept.renewed (by decide) (.allocAsid 8192)) rfl
  have h₄ := h₃.step (e := .createEx none ⟨1, 8192, 2⟩) trivial rfl
  exact ⟨_, rfl, by decide +kernel, (asids_apart h₄).1⟩

theorem Reached.run {P : Sys → Event → Prop} (hP : ∀ σ e, P σ e) {es : List Event}
    (h : Reached P σ) (hr : σ.run es = some τ) : Reached P τ := by
  induction es generalizing σ with
  | nil => exact Option.some.inj hr ▸ h
  | cons e es ih =>
      obtain ⟨ρ, hs, hr⟩ := Option.bind_eq_some_iff.mp hr
      exact ih (h.step (hP σ e) hs) hr

/-- A process, and a thread of it that fails to `execve` once for each other identifier; then
another process gets the first one. -/
def sharing : List Event :=
  [.allocAsid 4096, .createEx none ⟨0, 4096, 1⟩, .setState 0 .running, .threadCreate 0 0,
    .setState 1 .running] ++
  (List.range 254).flatMap (fun k =>
    [.allocAsid 8192, .execReplace 1 ⟨k + 1, 8192, k + 2⟩]) ++
  [.allocAsid 12288, .createEx none ⟨255, 12288, 1⟩, .load 0, .setState 2 .running]

/-- Slots `0` and `2` own spaces with the same identifier, and the process of slot `2` finds a
translation of the space of slot `0`. -/
def Shared (σ : Sys) : Prop :=
  σ.procs.Owner 0 ∧ σ.procs.Owner 2 ∧ (σ.procs 0).asid = (σ.procs 2).asid ∧ σ.Runs 2 ∧
    ((σ.procs 2).asid, σ.space 0) ∈ σ.tlb ∧ σ.space (σ.procs 2).mm ≠ σ.space 0

instance (σ : Sys) : Decidable σ.Shared :=
  decidable_of_iff (σ.procs.Owner 0 ∧ σ.procs.Owner 2 ∧ (σ.procs 0).asid = (σ.procs 2).asid ∧
    σ.Runs 2 ∧ (∃ e ∈ σ.tlb, e = ((σ.procs 2).asid, σ.space 0)) ∧
    σ.space (σ.procs 2).mm ≠ σ.space 0) (by simp [Shared])

/-- **An identifier is shared** after 255 others were taken. -/
theorem asids_shared : ∃ σ, Reached (fun _ _ => True) σ ∧ σ.Shared ∧ ¬ σ.Apart := by
  have hrun : ((run sharing boot).any fun σ => decide σ.Shared) = true := by decide +kernel
  obtain ⟨σ, hr, hs⟩ := (Option.any_eq_true _ _).mp hrun
  have hshared : σ.Shared := of_decide_eq_true hs
  obtain ⟨h₀, h₂, ha, -, -, -⟩ := hshared
  refine ⟨σ, Reached.boot.run (fun _ _ => trivial) hr, of_decide_eq_true hs, fun hap => ?_⟩
  exact absurd (hap.1 0 2 h₀ h₂ ha) (by decide)

end Sys

end Pulsar.Proc

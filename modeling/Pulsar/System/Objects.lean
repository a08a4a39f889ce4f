import Pulsar.Lib.Runs
import Pulsar.Proc.Owners
import Pulsar.System.State
import Pulsar.Vm.Counts

/-!
# Who holds the objects of shared memory (`vm.rs`, `shm.rs`, `process.rs`)

The system is the table of processes with the memory, over any sequence of calls.  A call of
`vm.rs` is one event, but for `mmap`: between the place it finds and the reference it takes, the
descriptor that named the object may be closed, since only the lock VM is held (`placing`).

* `objects_held`: while no object is freed in between, the count of each is that of its regions.
* `region_dangles`: an object freed in between leaves a region that names none.
-/

namespace Pulsar.Objects

open Proc Vm

/-- A region that an image is given at its start: over what is there, or beside it. -/
structure Region where
  fixed : Bool
  start : Nat
  stop : Nat
  prot : Nat

/-- `add_region` or `add_region_over`. -/
def Region.add (l : Nat) (r : Region) (s : Mm) : Mm :=
  if r.fixed then addRegionOver l r.start r.stop r.prot s
  else (addRegion l r.start r.stop r.prot s).2

/-- The regions of an image. -/
def setup (l : Nat) (rs : List Region) (s : Mm) : Mm := rs.foldl (fun s r => r.add l s) s

/-- The system, the region that an `mmap` found a place for in a slot, with the lock VM held, and
the objects that a call made to map them and did not map yet. -/
structure State extends System where
  placing : Option (Nat × Vma)
  anon : List Nat

/-- What happens. -/
inductive Event where
  /-- `mmap_full`, up to the reference. -/
  | mmapPlace (s addr len prot flags obj ino pgoff : Nat)
  /-- `mmap_full` from there on. -/
  | mmapAdd
  | munmap (s addr len : Nat)
  | mprotect (s addr len prot : Nat)
  | mremap (s addr oldLen newLen flags : Nat)
  /-- Faults, user code, `clone_user_space`, the loader: frames, their bytes and page tables. -/
  | pages (frames : Frames) (mem : Nat → Bytes) (pts : Nat → Pt)
  | page (id pg : Nat) (alloc : Bool)
  | truncate (id size : Nat)
  | create (name : Option (List UInt8))
  | createAnon (size : Nat)
  | releaseUnused (id : Nat)
  | openNamed (name : List UInt8)
  | unlink (name : List UInt8)
  /-- A descriptor is made, or closed. -/
  | fdRef (id : Nat) (more : Bool)
  | createEx (c : Option Nat) (root asid : Nat) (regions : List Region)
  | threadCreate (s clearTid : Nat)
  | fork (s root asid clearTid : Nat)
  | vfork (s clearTid : Nat)
  | execReplace (s root asid : Nat) (regions : List Region)
  | reap (s : Nat)
  /-- A process is dispatched, preempted, blocked or woken. -/
  | setState (s : Nat) (st : Proc.State)

namespace State

/-- Nothing runs. -/
def boot (fr : Frames) : State := ⟨⟨fun _ => Process.empty, Mm.boot fr⟩, none, []⟩

/-- `current_space()` of slot `s`. -/
def cur (s : Nat) (σ : State) : Cur := ⟨(σ.procs s).mm, (σ.procs s).root.getD 0⟩

/-- The process of slot `s` is the current one of a processor. -/
def Runs (σ : State) (s : Nat) : Prop := (σ.procs s).state = .running

instance (σ : State) (s : Nat) : Decidable (σ.Runs s) := by unfold Runs; infer_instance

/-- The state with another memory. -/
def withMm (σ : State) (mm : Mm) : State := { σ with mm := mm }

/-- A call of slot `s` that takes the lock VM. -/
def call (σ : State) (s : Nat) {α : Type} (f : Option Cur → Call α) : Option State :=
  if σ.Runs s ∧ σ.placing = none then
    match f (some (σ.cur s)) σ.mm with
    | .ok _ mm => some (σ.withMm mm)
    | .error _ mm => some (σ.withMm mm)
  else none

/-- One event, where it can happen. -/
def step (σ : State) : Event → Option State
  | .mmapPlace s addr len prot flags obj ino pgoff =>
    if σ.Runs s ∧ σ.placing = none then
      match Vm.mmapPlace (some (σ.cur s)) addr len prot flags σ.mm with
      | .ok r mm => some { σ.withMm mm with
          placing := some (r.1.slot, ⟨r.2.1, r.2.1 + r.2.2, prot, obj, ino, pgoff⟩) }
      | .error _ mm => some (σ.withMm mm)
    else none
  | .mmapAdd =>
    match σ.placing with
    | some (l, v) => some { σ.withMm (Vm.mmapAdd l v σ.mm) with
        placing := none, anon := σ.anon.filter (· ≠ v.obj) }
    | none => none
  | .munmap s addr len => σ.call s fun c => Vm.munmap c addr len
  | .mprotect s addr len prot => σ.call s fun c => Vm.mprotect c addr len prot
  | .mremap s addr oldLen newLen flags => σ.call s fun c => Vm.mremap c addr oldLen newLen flags
  | .pages frames mem pts => some (σ.withMm { σ.mm with frames := frames, mem := mem, pts := pts })
  | .page id pg alloc => some (σ.withMm (σ.mm.page id pg alloc).2)
  | .truncate id size => some (σ.withMm (σ.mm.truncate id size).2)
  | .create name => some (σ.withMm (σ.mm.create name).2)
  | .createAnon size =>
    let r := σ.mm.createAnon size
    some { σ.withMm r.2 with anon := r.1.elim σ.anon (· :: σ.anon) }
  | .releaseUnused id =>
    some { σ.withMm (σ.mm.maybeFree id) with anon := σ.anon.filter (· ≠ id) }
  | .openNamed name => some (σ.withMm (σ.mm.openNamed name).2)
  | .unlink name => some (σ.withMm (σ.mm.unlink name).2)
  | .fdRef id more => some (σ.withMm (σ.mm.fdRef id (if more then 1 else -1)))
  | .createEx c root asid regions =>
    if σ.placing = none ∨ regions = [] then
      let r := σ.procs.createEx c root asid
      some { σ with procs := r.2, mm := r.1.elim σ.mm fun i => setup i regions σ.mm }
    else none
  | .threadCreate s clearTid =>
    if σ.Runs s then some { σ with procs := (σ.procs.threadCreate s clearTid).2 } else none
  | .fork s root asid clearTid =>
    if σ.Runs s ∧ σ.placing = none then
      let r := σ.procs.fork s (some (root, asid)) clearTid
      some { σ with procs := r.2, mm := r.1.elim σ.mm fun i => cloneSpace (σ.procs s).mm i σ.mm }
    else none
  | .vfork s clearTid =>
    if σ.Runs s then some { σ with procs := (σ.procs.fork s none clearTid).2 } else none
  | .execReplace s root asid regions =>
    let r := σ.procs.execReplace s root asid
    if σ.Runs s ∧ (σ.placing = none ∨ regions = [] ∧ Procs.freed r.2.2 = []) then
      let mm := σ.mm.effects r.2.2
      some { σ with procs := r.2.1, mm := if r.1 then setup s regions mm else mm }
    else none
  | .reap s =>
    let r := σ.procs.reap s
    if (σ.procs s).Live ∧ (σ.placing = none ∨ Procs.freed r.2 = []) then
      some { σ with procs := r.1, mm := σ.mm.effects r.2 }
    else none
  | .setState s st =>
    if (σ.procs s).Live ∧ st ≠ .unused ∧ st ≠ .zombie then
      some { σ with procs := σ.procs.setState s st }
    else none

/-- What is reached by events that satisfy `P` where they happen. -/
abbrev Reached (P : State → Event → Prop) : State → Prop :=
  Runs.Reached step (fun σ => ∃ fr, σ = boot fr) P

/-- The count of an object is the number of the regions that name it; no region names one that is
not there, and one that is there is held by something. -/
def Counted (σ : State) : Prop :=
  ∀ o ≠ 0, (σ.mm.HasObj o → (σ.mm.objs o).mapRefs = total o σ.mm ∧ Held σ.anon o σ.mm) ∧
    (¬ σ.mm.HasObj o → total o σ.mm = 0)

/-- The object whose reference is taken is there. -/
def ObjThere (σ : State) : Event → Prop
  | .mmapAdd => ∀ p ∈ σ.placing, p.2.obj = 0 ∨ σ.mm.HasObj p.2.obj
  | _ => True

instance (σ : State) (e : Event) : Decidable (σ.ObjThere e) := by
  unfold ObjThere
  split <;> infer_instance

/-- What holds in every state. -/
structure Kept (σ : State) : Prop where
  fine : σ.procs.Fine
  empty : ∀ l, ¬ σ.procs.Owner l → (σ.mm.spaces l).vmas = []
  objs : Objs σ.anon [] σ.mm
  placing : ∀ l v, σ.placing = some (l, v) → σ.procs.Owner l

variable {σ τ : State} {s i l : Nat} {anon : List Nat} {mm : Mm} {es : List Effect}

theorem Kept.counted (h : σ.Kept) : σ.Counted := fun o ho => by
  refine ⟨fun hc => ⟨?_, h.objs.held o hc⟩, fun hc => (h.objs.due.dead o ho hc).1⟩
  exact h.objs.mapRefs_eq hc

theorem kept_boot (fr : Frames) : (boot fr).Kept := by
  have htotal : ∀ o, total o (boot fr).mm = 0 := fun o => Finset.sum_eq_zero fun _ _ => rfl
  refine ⟨?_, fun _ _ => rfl, ⟨⟨?_, ?_⟩, ?_⟩, ?_⟩
  · exact Procs.fine_empty
  · exact fun o _ hc => absurd hc.2.2 (by simp [boot, Mm.boot, Obj.empty])
  · exact fun o _ _ => ⟨htotal o, by simp⟩
  · exact fun o hc => absurd hc.2.2 (by simp [boot, Mm.boot, Obj.empty])
  · exact fun l v hp => absurd hp (by simp [boot])

theorem Kept.table (h : σ.Kept) (hl : σ.procs.Owner l) (hk : Vm.Kept l σ.anon σ.mm mm) :
    (σ.withMm mm).Kept where
  fine := h.fine
  empty m hm := by
    have hne : m ≠ l := fun e => hm (e ▸ hl)
    exact (congrArg Space.vmas (hk.others m hne)).trans (h.empty m hm)
  objs := hk.objs
  placing := h.placing

theorem Kept.waits (h : σ.Kept) (ho : Objs anon [] mm) (hs : mm.spaces = σ.mm.spaces) :
    ({ σ.withMm mm with anon := anon } : State).Kept where
  fine := h.fine
  empty m hm := (congrArg (fun f => (f m).vmas) hs).trans (h.empty m hm)
  objs := ho
  placing := h.placing

theorem Kept.same (h : σ.Kept) (ho : Objs σ.anon [] mm) (hs : mm.spaces = σ.mm.spaces) :
    (σ.withMm mm).Kept := h.waits ho hs

theorem Kept.owner (h : σ.Kept) (hr : σ.Runs s) :
    σ.procs.Owner (σ.procs s).mm ∧ (σ.procs s).mm < MAX_PROCS := by
  have hused : (σ.procs s).state ≠ .unused := by
    rw [hr]
    decide
  have hown := h.fine.owner s hused
  exact ⟨hown, h.fine.slots _ hown.1⟩

theorem Kept.call (h : σ.Kept) {α : Type} {f : Option Cur → Call α}
    (hf : ∀ c : Cur, c.slot < MAX_PROCS →
      Prog.Keeps (Vm.Kept c.slot σ.anon σ.mm) (f (some c)))
    (hs : σ.call s f = some τ) : τ.Kept := by
  obtain ⟨⟨hr, -⟩, hτ⟩ := (Option.ite_none_right_eq_some ..).mp hs
  obtain ⟨hown, hlt⟩ := h.owner hr
  have hk := hf (σ.cur s) hlt σ.mm ⟨h.objs, fun _ _ => rfl⟩
  rcases hrun : f (some (σ.cur s)) σ.mm with ⟨a, mm⟩ | ⟨e, mm⟩
  · rw [hrun] at hτ
    obtain rfl := Option.some.inj hτ
    exact h.table hown (hk.ok hrun)
  · rw [hrun] at hτ
    obtain rfl := Option.some.inj hτ
    exact h.table hown (hk.error hrun)

theorem vmKept_setup (hl : l < MAX_PROCS) (rs : List Region) {u t : Mm} (h : Vm.Kept l anon u t) :
    Vm.Kept l anon u (setup l rs t) := by
  induction rs generalizing t with
  | nil => exact h
  | cons r rs ih =>
      have hr : Vm.Kept l anon u (r.add l t) := by
        unfold Region.add
        split_ifs
        · exact h.addRegionOver hl _ _ _
        · exact h.addRegion hl _ _ _
      exact ih hr

theorem objs_effects {t : Mm} (ht : Objs anon [] t) (hlt : ∀ m ∈ Procs.freed es, m < MAX_PROCS) :
    Objs anon [] (t.effects es) ∧
      ∀ m, ((t.effects es).spaces m).vmas =
        if m ∈ Procs.freed es then [] else (t.spaces m).vmas := by
  induction es generalizing t with
  | nil => exact ⟨ht, fun m => rfl⟩
  | cons e es ih =>
      have hother : Procs.freed [e] = [] → Objs anon [] (t.effect e) →
          (∀ m, ((t.effect e).spaces m).vmas = (t.spaces m).vmas) →
          Objs anon [] (t.effects (e :: es)) ∧ ∀ m, ((t.effects (e :: es)).spaces m).vmas =
            if m ∈ Procs.freed (e :: es) then [] else (t.spaces m).vmas := fun he ho hs => by
        have hfreed : Procs.freed (e :: es) = Procs.freed es := by
          rw [← List.singleton_append, Procs.freed_append, he, List.nil_append]
        rw [hfreed] at hlt ⊢
        obtain ⟨h₁, h₂⟩ := ih ho hlt
        refine ⟨h₁, fun m => (h₂ m).trans ?_⟩
        rw [hs]
      have hmem : ∀ (root : Option Nat) ws, Objs anon [] (root.elim t fun r => t.puts r ws) ∧
          ∀ m, (((root.elim t fun r => t.puts r ws)).spaces m).vmas = (t.spaces m).vmas := fun root ws => by
        cases root with
        | none => exact ⟨ht, fun _ => rfl⟩
        | some r =>
            obtain ⟨mem, hm⟩ := Mm.puts_withMem r ws t
            rw [Option.elim_some, hm]
            exact ⟨ht.congr (fun _ => rfl) fun _ => ⟨rfl, rfl, rfl, rfl⟩, fun _ => rfl⟩
      cases e with
      | freeMm m root =>
          have hfreed : Procs.freed (.freeMm m root :: es) = m :: Procs.freed es := rfl
          rw [hfreed] at hlt ⊢
          have hgone : Objs anon [] (root.elim t fun r => t.freeSpace r) ∧
              ∀ x, ((root.elim t fun r => t.freeSpace r).spaces x).vmas = (t.spaces x).vmas := by
            cases root with
            | none => exact ⟨ht, fun _ => rfl⟩
            | some r => exact ⟨ht.congr (fun _ => rfl) fun _ => ⟨rfl, rfl, rfl, rfl⟩, fun _ => rfl⟩
          obtain ⟨hvother, hvself⟩ := vmas_release m (root.elim t fun r => t.freeSpace r)
          obtain ⟨h₁, h₂⟩ := ih (hgone.1.release (hlt m List.mem_cons_self))
            fun x hx => hlt x (List.mem_cons_of_mem m hx)
          refine ⟨h₁, fun x => (h₂ x).trans ?_⟩
          by_cases e : x = m
          · subst e
            rw [if_pos List.mem_cons_self, hvself, ite_self]
          · rw [hvother x e, hgone.2]
            simp only [List.mem_cons, e, false_or]
      | put32 root va value => exact hother rfl (hmem root _).1 (hmem root _).2
      | putMsg root va m => exact hother rfl (hmem root _).1 (hmem root _).2

theorem Kept.ends {r : Outcome} (h : σ.Kept) (he : Procs.Ends σ.procs r)
    (hp : σ.placing = none ∨ Procs.freed r.2 = []) :
    ({ σ with procs := r.1, mm := σ.mm.effects r.2 } : State).Kept := by
  have howner : ∀ m ∈ Procs.freed r.2, σ.procs.Owner m := fun m hm => by
    obtain ⟨e, hin, he'⟩ := List.mem_filterMap.mp hm
    cases e with
    | freeMm m' root =>
        obtain rfl := Option.some.inj he'
        exact (he.roots m' root hin).1
    | put32 root va value => exact absurd he' (by simp)
    | putMsg root va m => exact absurd he' (by simp)
  obtain ⟨hobjs, hvmas⟩ := objs_effects h.objs fun m hm => h.fine.slots m (howner m hm).1
  refine ⟨he.fine, fun m hm => ?_, hobjs, fun l v hl => ?_⟩
  · rw [hvmas]
    split_ifs with hf
    · rfl
    · exact h.empty m fun hown => hm ((he.owner m).mpr ⟨hown, hf⟩)
  · rcases hp with hp | hp
    · exact absurd (hp.symm.trans hl) (by simp)
    · exact (he.owner l).mpr ⟨h.placing l v hl, by simp [hp]⟩

theorem Kept.own {ps : Procs} (h : σ.Kept) (hb : Procs.Begins σ.procs i ps) (hi : (ps i).mm = i)
    (hk : Vm.Kept i σ.anon σ.mm mm) : ({ σ with procs := ps, mm := mm } : State).Kept := by
  have hown : ps.Owner i := ⟨hb.live.1, hi⟩
  refine ⟨hb.fine, fun m hm => ?_, hk.objs, fun l v hl => ?_⟩
  · have hne : m ≠ i := fun e => hm (e ▸ hown)
    have hm' := mt (hb.owner hne).mpr hm
    exact (congrArg Space.vmas (hk.others m hne)).trans (h.empty m hm')
  · have hl' := h.placing l v hl
    have hli : l ≠ i := fun e => hl'.1 (e ▸ hb.free)
    exact (hb.owner hli).mpr hl'

theorem Kept.join {ps : Procs} (h : σ.Kept) (hb : Procs.Begins σ.procs i ps) : ({ σ with procs := ps } : State).Kept := by
  have howner : ∀ {m}, σ.procs.Owner m → ps.Owner m := fun {m} hm =>
    have hmi : m ≠ i := fun e => hm.1 (e ▸ hb.free)
    (hb.owner hmi).mpr hm
  exact ⟨hb.fine, fun m hm => h.empty m (mt howner hm), h.objs, fun l v hl => howner (h.placing l v hl)⟩

/-- The spaces after the calls of `shm.rs`. -/
theorem spaces_page (id pg : Nat) (alloc : Bool) (t : Mm) :
    (t.page id pg alloc).2.spaces = t.spaces := by
  unfold Mm.page
  by_cases hid : t.HasObj id
  · rw [if_pos hid]
    simp only
    split
    · rfl
    · split
      · rfl
      · split_ifs
        · split <;> rfl
        · rfl
  · rw [if_neg hid]

theorem spaces_truncate (id size : Nat) (t : Mm) : (t.truncate id size).2.spaces = t.spaces := by
  unfold Mm.truncate
  by_cases hs : MAX_SIZE < size
  · rw [if_pos hs]
  · rw [if_neg hs]
    by_cases hid : t.HasObj id
    · rw [if_pos hid]
      split
      · rfl
      · simp only
        split_ifs
        · split <;> rfl
        · rfl
    · rw [if_neg hid]

theorem spaces_create (name : Option (List UInt8)) (t : Mm) :
    (t.create name).2.spaces = t.spaces := by
  unfold Mm.create
  split <;> rfl

theorem spaces_createAnon (size : Nat) (t : Mm) : (t.createAnon size).2.spaces = t.spaces := by
  have hc := spaces_create none t
  unfold Mm.createAnon
  rcases hr : t.create none with ⟨- | id, u⟩
  · rw [hr] at hc
    exact hc
  · rw [hr] at hc
    have hfree : ∀ o, ((u.setObj id o).maybeFree id).spaces = t.spaces := fun o =>
      (Mm.spaces_maybeFree id).trans hc
    simp only
    split_ifs
    · exact hfree _
    · split
      · exact hfree _
      · exact hc

theorem spaces_fdRef (id : Nat) (d : Int) (t : Mm) : (t.fdRef id d).spaces = t.spaces := by
  rw [Mm.fdRef]
  by_cases hid : t.HasObj id
  · rw [if_pos hid]
    split_ifs
    · exact Mm.spaces_maybeFree id
    · rfl
  · rw [if_neg hid]
    split_ifs
    · exact Mm.spaces_maybeFree id
    · rfl

theorem spaces_openNamed (name : List UInt8) (t : Mm) :
    (t.openNamed name).2.spaces = t.spaces := by
  unfold Mm.openNamed
  split <;> rfl

theorem spaces_unlink (name : List UInt8) (t : Mm) : (t.unlink name).2.spaces = t.spaces := by
  unfold Mm.unlink
  split
  · rfl
  · exact Mm.spaces_maybeFree _

theorem Runs.live (hr : σ.Runs s) : (σ.procs s).Live := by
  rw [Process.Live, hr]
  exact ⟨by decide, by decide⟩

theorem Kept.mmapPlace {addr len prot flags obj ino pgoff : Nat} (h : σ.Kept)
    (hs : σ.step (.mmapPlace s addr len prot flags obj ino pgoff) = some τ) : τ.Kept := by
  obtain ⟨⟨hr, -⟩, hτ⟩ := (Option.ite_none_right_eq_some ..).mp hs
  obtain ⟨hown, hlt⟩ := h.owner hr
  have hk : Prog.Keeps (Vm.Kept (σ.cur s).slot σ.anon σ.mm)
      (Vm.mmapPlace (some (σ.cur s)) addr len prot flags) := keeps_mmapPlace hlt
  replace hk := hk σ.mm ⟨h.objs, fun _ _ => rfl⟩
  rcases hrun : Vm.mmapPlace (some (σ.cur s)) addr len prot flags σ.mm with ⟨r, mm⟩ | ⟨e, mm⟩
  · rw [hrun] at hτ
    obtain rfl := Option.some.inj hτ
    have ht := h.table hown (hk.ok hrun)
    refine ⟨ht.fine, ht.empty, ht.objs, fun l v hp => ?_⟩
    obtain ⟨rfl, -⟩ := Prod.mk.inj (Option.some.inj hp)
    rw [mmapPlace_slot hrun]
    exact hown
  · rw [hrun] at hτ
    obtain rfl := Option.some.inj hτ
    exact h.table hown (hk.error hrun)

theorem Kept.mmapAdd (h : σ.Kept) (he : σ.ObjThere .mmapAdd) (hs : σ.step .mmapAdd = some τ) :
    τ.Kept := by
  rcases hp : σ.placing with - | ⟨l, v⟩
  · rw [State.step, hp] at hs
    exact absurd hs (by simp)
  · rw [State.step, hp] at hs
    obtain rfl := Option.some.inj hs
    have hown := h.placing l v hp
    have hlt := h.fine.slots l hown.1
    have hadd := h.objs.addVma (v := v) hlt (he (l, v) hp)
    have hpos : 0 < total v.obj (Vm.mmapAdd l v σ.mm) := by
      refine Nat.lt_of_lt_of_le ?_ (named_le_total hlt)
      rw [mmapAdd, Mm.spaces_edit, Function.update_self]
      exact named_addVma _ v
    refine ⟨h.fine, fun m hm => ?_, hadd.forget (.inr hpos), by simp⟩
    have hne : m ≠ l := fun e => hm (e ▸ hown)
    refine (congrArg Space.vmas ?_).trans (h.empty m hm)
    exact (congrFun (Mm.spaces_edit _) m).trans
      ((Function.update_of_ne hne ..).trans (congrFun (Mm.spaces_objRef _) m))

theorem Kept.createEx {c : Option Nat} {root asid : Nat} {regions : List Region} (h : σ.Kept)
    (hs : σ.step (.createEx c root asid regions) = some τ) : τ.Kept := by
  obtain ⟨hp, hτ⟩ := (Option.ite_none_right_eq_some ..).mp hs
  obtain rfl := Option.some.inj hτ
  rcases hq : σ.procs.createEx c root asid with ⟨- | i, qs⟩
  · obtain rfl : qs = σ.procs := by
      have := Procs.createEx_none (congrArg Prod.fst hq)
      rwa [hq] at this
    exact h
  · obtain ⟨hb, hm, -, -⟩ := h.fine.createEx hq
    have hlt := hb.fine.slots i hb.live.1
    exact h.own hb hm (vmKept_setup hlt regions ⟨h.objs, fun _ _ => rfl⟩)

theorem Kept.threadCreate {clearTid : Nat} (h : σ.Kept)
    (hs : σ.step (.threadCreate s clearTid) = some τ) : τ.Kept := by
  obtain ⟨hr, hτ⟩ := (Option.ite_none_right_eq_some ..).mp hs
  obtain rfl := Option.some.inj hτ
  rcases hq : σ.procs.threadCreate s clearTid with ⟨- | i, qs⟩
  · obtain rfl : qs = σ.procs := by
      have := Procs.threadCreate_none (congrArg Prod.fst hq)
      rwa [hq] at this
    exact h
  · exact h.join (h.fine.threadCreate hr.live hq).1

theorem Kept.fork {root asid clearTid : Nat} (h : σ.Kept)
    (hs : σ.step (.fork s root asid clearTid) = some τ) : τ.Kept := by
  obtain ⟨⟨hr, hp⟩, hτ⟩ := (Option.ite_none_right_eq_some ..).mp hs
  obtain rfl := Option.some.inj hτ
  rcases hq : σ.procs.fork s (some (root, asid)) clearTid with ⟨- | i, qs⟩
  · obtain rfl : qs = σ.procs := by
      have := Procs.fork_none (congrArg Prod.fst hq)
      rwa [hq] at this
    exact h
  · obtain ⟨hb, hnew, -⟩ := h.fine.fork hr.live hq
    obtain ⟨hm, -, -⟩ := hnew (root, asid) rfl
    have hlt := hb.fine.slots i hb.live.1
    have hfree := h.empty i fun hown => hown.1 hb.free
    refine h.own hb hm ⟨h.objs.cloneSpace (h.owner hr).2 hlt hfree, fun m hne => ?_⟩
    exact Vm.spaces_cloneSpace hne

theorem Kept.vfork {clearTid : Nat} (h : σ.Kept) (hs : σ.step (.vfork s clearTid) = some τ) :
    τ.Kept := by
  obtain ⟨hr, hτ⟩ := (Option.ite_none_right_eq_some ..).mp hs
  obtain rfl := Option.some.inj hτ
  rcases hq : σ.procs.fork s none clearTid with ⟨- | i, qs⟩
  · obtain rfl : qs = σ.procs := by
      have := Procs.fork_none (congrArg Prod.fst hq)
      rwa [hq] at this
    exact h
  · exact h.join (h.fine.fork hr.live hq).1

theorem Kept.execReplace {root asid : Nat} {regions : List Region} (h : σ.Kept)
    (hs : σ.step (.execReplace s root asid regions) = some τ) : τ.Kept := by
  simp only [State.step] at hs
  obtain ⟨⟨hr, hp⟩, hτ⟩ := (Option.ite_none_right_eq_some ..).mp hs
  obtain rfl := Option.some.inj hτ
  obtain ⟨t, hends, heff, hfail, hdone⟩ :=
    Procs.execReplace_spec root asid h.fine hr.live
  rw [← heff] at hp ⊢
  have hend := h.ends hends (hp.imp_right And.right)
  rcases hb : (σ.procs.execReplace s root asid).1 with - | -
  · simp only [hfail hb, Bool.false_eq_true, if_false]
    exact hend
  · obtain ⟨hbeg, hm, -, -⟩ := hdone hb
    simp only [if_true]
    have hlt := hbeg.fine.slots s hbeg.live.1
    exact hend.own hbeg hm (vmKept_setup hlt regions ⟨hend.objs, fun _ _ => rfl⟩)

theorem Kept.step {e : Event} (h : σ.Kept) (he : σ.ObjThere e) (hs : σ.step e = some τ) :
    τ.Kept := by
  cases e with
  | mmapPlace s addr len prot flags obj ino pgoff =>
      exact h.mmapPlace hs
  | mmapAdd =>
      exact h.mmapAdd he hs
  | munmap s addr len =>
      exact h.call (f := fun c => Vm.munmap c addr len) (fun c hc => keeps_munmap hc) hs
  | mprotect s addr len prot =>
      exact h.call (f := fun c => Vm.mprotect c addr len prot) (fun c hc => keeps_mprotect hc) hs
  | mremap s addr oldLen newLen flags =>
      exact h.call (f := fun c => Vm.mremap c addr oldLen newLen flags) (fun c hc => keeps_mremap hc) hs
  | pages frames mem pts =>
      obtain rfl := Option.some.inj hs
      exact h.same (h.objs.congr (fun _ => rfl) fun _ => ⟨rfl, rfl, rfl, rfl⟩) rfl
  | page id pg alloc =>
      obtain rfl := Option.some.inj hs
      exact h.same (h.objs.page id pg alloc) (spaces_page id pg alloc σ.mm)
  | truncate id size =>
      obtain rfl := Option.some.inj hs
      exact h.same (h.objs.truncate id size) (spaces_truncate id size σ.mm)
  | create name =>
      obtain rfl := Option.some.inj hs
      exact h.same (h.objs.create name) (spaces_create name σ.mm)
  | createAnon size =>
      obtain rfl := Option.some.inj hs
      exact h.waits (h.objs.createAnon size) (spaces_createAnon size σ.mm)
  | releaseUnused id =>
      obtain rfl := Option.some.inj hs
      exact h.waits (h.objs.releaseUnused id) (Mm.spaces_maybeFree id)
  | openNamed name =>
      obtain rfl := Option.some.inj hs
      exact h.same (h.objs.openNamed name) (spaces_openNamed name σ.mm)
  | unlink name =>
      obtain rfl := Option.some.inj hs
      exact h.same (h.objs.unlink name) (spaces_unlink name σ.mm)
  | fdRef id more =>
      obtain rfl := Option.some.inj hs
      have hd : (if more = true then (1 : Int) else -1) = 1 ∨
          (if more = true then (1 : Int) else -1) = -1 := by
        cases more
        · exact .inr rfl
        · exact .inl rfl
      exact h.same (h.objs.fdRef id hd) (spaces_fdRef id _ σ.mm)
  | createEx c root asid regions =>
      exact h.createEx hs
  | threadCreate s clearTid =>
      exact h.threadCreate hs
  | fork s root asid clearTid =>
      exact h.fork hs
  | vfork s clearTid =>
      exact h.vfork hs
  | execReplace s root asid regions =>
      exact h.execReplace hs
  | reap s =>
      simp only [State.step] at hs
      obtain ⟨⟨hl, hp⟩, hτ⟩ := (Option.ite_none_right_eq_some ..).mp hs
      obtain rfl := Option.some.inj hτ
      exact h.ends (Procs.reap_ends h.fine hl) hp
  | setState s st =>
      obtain ⟨⟨hl, h₁, h₂⟩, hτ⟩ := (Option.ite_none_right_eq_some ..).mp hs
      obtain rfl := Option.some.inj hτ
      have hend := h.ends (r := (_, []))
        (h.fine.ends (r := (_, [])) (Procs.same_setState hl h₁ h₂) (by simp)) (.inr rfl)
      exact hend

theorem Reached.kept (h : Reached ObjThere σ) : σ.Kept := by
  refine h.invariant (fun s hs => ?_) fun s e t hk he hs => hk.step he hs
  obtain ⟨fr, rfl⟩ := hs
  exact kept_boot fr

/-- **Regions are counted**: in every state reached by events that find the object there whose
reference is taken, the count of each object is the number of regions that name it, no region names
an object that is not there, and an object that is there is held by something. -/
theorem objects_held (h : Reached ObjThere σ) : σ.Counted := h.kept.counted

/-- A process makes an object without a name and begins to map it. -/
def mapping : List Event :=
  [.createEx none 40 1 [], .setState 0 .running, .create none, .mmapPlace 0 0 4096 3 0 1 0 0]

/-- The frames of a small machine. -/
def small : Frames := .boot 64 fun _ => false

theorem reached_small (P : State → Event → Prop) : Reached P (boot small) := .init ⟨small, rfl⟩

theorem objects_held_mapped : ∃ σ, Reached ObjThere σ ∧ total 1 σ.mm = 1 ∧ σ.Counted := by
  have hrun : (Runs.run step ObjThere (mapping ++ [.mmapAdd, .fdRef 1 false]) (boot small)).any
      (fun σ => decide (total 1 σ.mm = 1)) = true := by decide +kernel
  obtain ⟨σ, hr, htotal⟩ := (reached_small _).run_any hrun
  exact ⟨σ, hr, htotal, objects_held hr⟩

/-- **A region dangles** when another thread closes the descriptor before the reference is taken:
its object is not there, and the next object made takes its place. -/
theorem region_dangles : ∃ σ, Reached (fun _ _ => True) σ ∧
    (total 1 σ.mm = 1 ∧ σ.mm.HasObj 1 ∧ (σ.mm.objs 1).mapRefs = 0) ∧ ¬ σ.Counted := by
  have hrun : (Runs.run step (fun _ _ => True)
      (mapping ++ [.fdRef 1 false, .mmapAdd, .create none]) (boot small)).any
      (fun σ => decide (total 1 σ.mm = 1 ∧ σ.mm.HasObj 1 ∧ (σ.mm.objs 1).mapRefs = 0)) = true := by
    decide +kernel
  obtain ⟨σ, hr, hbad⟩ := (reached_small _).run_any hrun
  refine ⟨σ, hr, hbad, fun hc => ?_⟩
  obtain ⟨hone, hobj, hzero⟩ := hbad
  have := ((hc 1 (by decide)).1 hobj).1
  omega

end State

end Pulsar.Objects

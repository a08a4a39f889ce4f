import Pulsar.Kernel.State
import Pulsar.Lib.Runs
import Pulsar.Vm.Counts

/-!
# The names of shared memory (`file.rs`, `shm.rs`)

An `open` of `/dev/shm` looks the name up, creates the object and makes the descriptor with the lock
SHM taken anew for each, so threads go on in between.  `Log` records which objects were created
under which names, and is not part of the kernel.

* `names_kept`: names and objects go together while no object is created under a name that has one,
  or that is longer than `NAME_MAX`.
* `created_twice`: two threads that look a name up before either creates it both create it.
-/

namespace Pulsar.Shared

open Kernel (has O_CREAT O_EXCL O_TRUNC)
open Vm Runs

/-- How far a thread is in `open`. -/
inductive Phase where
  | idle
  /-- `open_named` has found nothing. -/
  | absent (name : List UInt8) (flags : UInt32)
  /-- The object is there, and `O_EXCL` is set. -/
  | refused (id : Nat)
  | held (id : Nat) (flags : UInt32)
  /-- Before `install_shm`. -/
  | placing (id : Nat)
  | placed (id : Nat)

/-- The memory, and what each thread does. -/
structure State where
  mm : Mm
  opens : Nat → Phase

/-- What happens, each with a lock taken once. -/
inductive Event where
  | lookup (t : Nat) (name : List UInt8) (flags : UInt32)
  /-- The `open` of a thread goes on; `room` says whether the table has a free descriptor. -/
  | next (t : Nat) (room : Bool)
  | memfd
  | createAnon (size : Nat)
  | releaseUnused (id : Nat)
  | stat (name : List UInt8)
  | unlink (name : List UInt8)
  /-- A descriptor is made, or closed. -/
  | fdRef (id : Nat) (more : Bool)
  /-- A region is mapped, or unmapped. -/
  | mapRef (id : Nat) (more : Bool)
  | truncate (id size : Nat)
  | page (id pg : Nat) (alloc : Bool)
  /-- Frames and their bytes change otherwise. -/
  | pages (frames : Frames) (mem : Nat → Bytes)

namespace State

/-- At first there is no object. -/
def boot (fr : Frames) : State := ⟨Mm.boot fr, fun _ => .idle⟩

/-- A thread goes on. -/
def set (t : Nat) (mm : Mm) (p : Phase) (s : State) : State :=
  ⟨mm, Function.update s.opens t p⟩

/-- `open(path, flags)` with the name that follows `/dev/shm/`, up to the object. -/
def lookup (t : Nat) (name : List UInt8) (flags : UInt32) (s : State) : State :=
  match s.mm.openNamed name with
  | (some id, mm) =>
    s.set t mm (if has flags O_CREAT ∧ has flags O_EXCL then .refused id else .held id flags)
  | (none, mm) => s.set t mm (if has flags O_CREAT then .absent name flags else .idle)

/-- The rest of it, from one lock to the next. -/
def next (t : Nat) (room : Bool) (s : State) : Option State :=
  match s.opens t with
  | .idle => none
  | .absent name flags =>
    match s.mm.create (some name) with
    | (some id, mm) => some (s.set t mm (.held id flags))
    | (none, mm) => some (s.set t mm .idle)
  | .refused id => some (s.set t (s.mm.fdRef id (-1)) .idle)
  | .held id flags =>
    some (s.set t (if has flags O_TRUNC then (s.mm.truncate id 0).2 else s.mm) (.placing id))
  | .placing id => some (s.set t (if room then s.mm else s.mm.fdRef id (-1)) (.placed id))
  | .placed id => some (s.set t (s.mm.fdRef id (-1)) .idle)

/-- One event, where it can happen. -/
def step (s : State) : Event → Option State
  | .lookup t name flags =>
    match s.opens t with
    | .idle => some (s.lookup t name flags)
    | _ => none
  | .next t room => s.next t room
  | .memfd => some { s with mm := (s.mm.create none).2 }
  | .createAnon size => some { s with mm := (s.mm.createAnon size).2 }
  | .releaseUnused id => some { s with mm := s.mm.maybeFree id }
  | .stat name => some { s with mm := (s.mm.openNamed name).2 }
  | .unlink name => some { s with mm := (s.mm.unlink name).2 }
  | .fdRef id more => some { s with mm := s.mm.fdRef id (if more then 1 else -1) }
  | .mapRef id more => some { s with mm := s.mm.mapRef id (if more then 1 else -1) }
  | .truncate id size => some { s with mm := (s.mm.truncate id size).2 }
  | .page id pg alloc => some { s with mm := (s.mm.page id pg alloc).2 }
  | .pages frames mem => some { s with mm := { s.mm with frames := frames, mem := mem } }

end State

/-- Which objects were created under which names and not unlinked since, and how many opens with
`O_EXCL` have created one under a name since it was unlinked. -/
structure Log where
  made : List (List UInt8 × Nat)
  won : List UInt8 → Nat

namespace Log

def empty : Log := ⟨[], fun _ => 0⟩

/-- An object is created. -/
def create (name : List UInt8) (flags : UInt32) (id : Nat) (h : Log) : Log :=
  ⟨(name, id) :: h.made,
    if has flags O_EXCL then Function.update h.won name (h.won name + 1) else h.won⟩

/-- An object is unlinked. -/
def unlink (name : List UInt8) (id : Nat) (h : Log) : Log :=
  ⟨h.made.filter fun m => m.2 ≠ id, Function.update h.won name 0⟩

/-- What is recorded of an event. -/
def note (s : State) (e : Event) (_ : State) (h : Log) : Log :=
  match e with
  | .next t _ =>
    match s.opens t with
    | .absent name flags => (s.mm.create (some name)).1.elim h fun id => h.create name flags id
    | _ => h
  | .unlink name => (s.mm.named? name).elim h fun id => h.unlink name id
  | _ => h

end Log

/-- An object carries a name. -/
def Carries (s : Mm) (id : Nat) (name : List UInt8) : Prop :=
  s.HasObj id ∧ (s.objs id).name = some name

/-- Names and objects go together. -/
structure Names (s : State) (h : Log) : Prop where
  /-- No two objects carry one name. -/
  one : ∀ a i j, Carries s.mm i a → Carries s.mm j a → i = j
  /-- An object is found under the name it was created under. -/
  found : ∀ a i, (a, i) ∈ h.made → s.mm.named? a = some i
  /-- What is found under a name was created under it. -/
  made : ∀ a i, s.mm.named? a = some i → (a, i) ∈ h.made
  /-- No object was created under two names. -/
  apart : ∀ a b i, (a, i) ∈ h.made → (b, i) ∈ h.made → a = b
  /-- No two opens with `O_EXCL` succeed. -/
  once : ∀ a, h.won a ≤ 1

/-- An object is created under a name that can be stored, and that no object has. -/
def Orderly (s : State) : Event → Prop
  | .next t _ =>
    match s.opens t with
    | .absent name _ => name.length ≤ NAME_MAX ∧ s.mm.named? name = none
    | _ => True
  | _ => True

instance (s : State) (e : Event) : Decidable (Orderly s e) := by
  unfold Orderly
  split
  · split <;> infer_instance
  · infer_instance

variable {s t u : Mm} {id i j : Nat} {a b name : List UInt8} {x : Obj} {h : Log} {flags : UInt32}

theorem Log.won_create (h : Log) : (h.create name flags id).won name ≤ h.won name + 1 := by
  rw [create]
  split_ifs
  · exact (Function.update_self ..).le
  · exact Nat.le_succ _

theorem Log.won_create_of_ne (h : Log) (ha : a ≠ name) :
    (h.create name flags id).won a = h.won a := by
  rw [create]
  split_ifs
  · exact Function.update_of_ne ha ..
  · rfl

theorem Log.won_unlink (h : Log) : (h.unlink name id).won name = 0 := Function.update_self ..

theorem Log.won_unlink_of_ne (h : Log) (ha : a ≠ name) : (h.unlink name id).won a = h.won a :=
  Function.update_of_ne ha ..

/-! ### Who carries a name -/

/-- The same objects carry the same names. -/
def Alike (s t : Mm) : Prop := ∀ i a, Carries t i a ↔ Carries s i a

theorem Alike.trans (h : Alike s t) (h' : Alike t u) : Alike s u := fun i a =>
  (h' i a).trans (h i a)

theorem alike_of (h : ∀ i, (t.objs i).used = (s.objs i).used ∧ (t.objs i).name = (s.objs i).name) :
    Alike s t := fun i a => by
  unfold Carries Mm.HasObj
  rw [(h i).1, (h i).2]

theorem alike_setObj (hu : x.used = (s.objs id).used) (hn : x.name = (s.objs id).name) :
    Alike s (s.setObj id x) := alike_of fun i => by
  by_cases hi : i = id
  · subst hi
    rw [Mm.objs_setObj_self]
    exact ⟨hu, hn⟩
  · rw [Mm.objs_setObj_of_ne hi]
    exact ⟨rfl, rfl⟩

theorem alike_setObj_none (h : ∀ a, ¬ Carries s id a) (hn : x.name = none) :
    Alike s (s.setObj id x) := fun i a => by
  by_cases hi : i = id
  · subst hi
    refine iff_of_false (fun hc => ?_) (h a)
    have := hc.2
    rw [Mm.objs_setObj_self, hn] at this
    exact absurd this (by simp)
  · unfold Carries Mm.HasObj
    rw [Mm.objs_setObj_of_ne hi]

theorem alike_maybeFree (s : Mm) (id : Nat) : Alike s (s.maybeFree id) := by
  rcases Mm.maybeFree_cases s id with ⟨heq, -⟩ | ⟨-, -, -, hname, fr, heq⟩
  · exact fun i a => by rw [heq]
  · rw [heq]
    have hnone : ∀ a, ¬ Carries (s.setFrames fr) id a := fun a hc => by
      have := hname.symm.trans hc.2
      exact absurd this (by simp)
    exact Alike.trans (t := s.setFrames fr) (fun _ _ => Iff.rfl) (alike_setObj_none hnone rfl)

theorem alike_fdRef (s : Mm) (id : Nat) (d : Int) : Alike s (s.fdRef id d) := by
  have hset : Alike s (if s.HasObj id then
      s.setObj id { s.objs id with fdRefs := ((s.objs id).fdRefs + d).toNat } else s) := by
    split_ifs
    · exact alike_setObj rfl rfl
    · exact fun _ _ => Iff.rfl
  rw [Mm.fdRef]
  split_ifs at hset ⊢
  · exact hset.trans (alike_maybeFree _ id)
  · exact hset.trans (alike_maybeFree _ id)
  · exact hset
  · exact hset

theorem alike_mapRef (s : Mm) (id : Nat) (d : Int) : Alike s (s.mapRef id d) := by
  have hset : Alike s (if s.HasObj id then
      s.setObj id { s.objs id with mapRefs := ((s.objs id).mapRefs + d).toNat } else s) := by
    split_ifs
    · exact alike_setObj rfl rfl
    · exact fun _ _ => Iff.rfl
  rw [Mm.mapRef]
  split_ifs at hset ⊢
  · exact hset.trans (alike_maybeFree _ id)
  · exact hset.trans (alike_maybeFree _ id)
  · exact hset
  · exact hset

theorem alike_openNamed (s : Mm) (name : List UInt8) : Alike s (s.openNamed name).2 := by
  unfold Mm.openNamed
  split
  · exact fun _ _ => Iff.rfl
  · exact alike_setObj rfl rfl

theorem alike_truncate (s : Mm) (id size : Nat) : Alike s (s.truncate id size).2 := by
  unfold Mm.truncate
  by_cases hs : MAX_SIZE < size
  · rw [if_pos hs]
    exact fun _ _ => Iff.rfl
  rw [if_neg hs]
  by_cases hid : s.HasObj id
  · rw [if_pos hid]
    rcases hg : Mm.growIndex (s.objs id) (Mm.pagesOf size) s.frames with - | ⟨y, fr⟩
    · exact fun _ _ => Iff.rfl
    · obtain ⟨hu, -, -, hn⟩ := growIndex_some hg
      have hset : ∀ fr, Alike s ((s.setFrames fr).setObj id { y with
          page := y.page.filter (fun p _ => decide (p < Mm.pagesOf size)), size := size }) :=
        fun fr => Alike.trans (t := s.setFrames fr) (fun _ _ => Iff.rfl) (alike_setObj hu hn)
      simp only
      split_ifs
      · split
        · exact hset _
        · exact hset _
      · exact hset _
  · rw [if_neg hid]
    exact fun _ _ => Iff.rfl

theorem alike_page (s : Mm) (id pg : Nat) (alloc : Bool) : Alike s (s.page id pg alloc).2 := by
  unfold Mm.page
  by_cases hid : s.HasObj id
  · rw [if_pos hid]
    simp only
    split
    · exact fun _ _ => Iff.rfl
    · split
      · exact fun _ _ => Iff.rfl
      · split_ifs
        · split
          · exact fun _ _ => Iff.rfl
          · exact alike_setObj rfl rfl
        · exact fun _ _ => Iff.rfl
  · rw [if_neg hid]
    exact fun _ _ => Iff.rfl

theorem not_carries_of_free (h : s.freeObj = some id) (a : List UInt8) : ¬ Carries s id a :=
  fun hc => absurd hc.1.2.2 (by simp [(freeObj_some h).2])

theorem alike_create (s : Mm) : Alike s (s.create none).2 := by
  unfold Mm.create
  cases hf : s.freeObj with
  | none => exact fun _ _ => Iff.rfl
  | some id => exact alike_setObj_none (not_carries_of_free hf) rfl

theorem alike_createAnon (s : Mm) (size : Nat) : Alike s (s.createAnon size).2 := by
  have hc := alike_create s
  have hname : ∀ id u, s.create none = (some id, u) → (u.objs id).name = none := by
    intro id u hcr
    unfold Mm.create at hcr
    rcases hf : s.freeObj with - | i
    · rw [hf] at hcr
      exact absurd (congrArg Prod.fst hcr) (by simp)
    · rw [hf] at hcr
      obtain ⟨h₁, rfl⟩ := Prod.mk.inj hcr
      obtain rfl := Option.some.inj h₁
      rw [Mm.objs_setObj_self]
      rfl
  unfold Mm.createAnon
  rcases hcr : s.create none with ⟨- | id, u⟩
  · rw [hcr] at hc
    exact hc
  · rw [hcr] at hc
    have hnone := hname id u hcr
    have hset : Alike u (u.setObj id { u.objs id with fdRefs := 0 }) := alike_setObj rfl rfl
    have hdrop := (hc.trans hset).trans (alike_maybeFree _ id)
    simp only
    split_ifs
    · exact hdrop
    · rcases hg : Mm.growIndex { u.objs id with fdRefs := 0 } (Mm.pagesOf size) u.frames with
        - | ⟨y, fr⟩
      · exact hdrop
      · obtain ⟨hu, -, -, hn⟩ := growIndex_some hg
        exact hc.trans (Alike.trans (t := u.setFrames fr) (fun _ _ => Iff.rfl) (alike_setObj hu hn))

/-- **An object is created** under what is stored of a name. -/
theorem carries_create (h : s.create (some name) = (some id, t)) :
    Carries t i a ↔ Carries s i a ∨ i = id ∧ a = name.take NAME_MAX := by
  unfold Mm.create at h
  rcases hf : s.freeObj with - | k
  · rw [hf] at h
    exact absurd (congrArg Prod.fst h) (by simp)
  · rw [hf] at h
    obtain ⟨h₁, rfl⟩ := Prod.mk.inj h
    obtain rfl := Option.some.inj h₁
    have hid := (freeObj_some hf).1
    by_cases hi : i = k
    · subst hi
      unfold Carries
      rw [Mm.hasObj_setObj, if_pos rfl, Mm.objs_setObj_self]
      refine ⟨fun hc => .inr ⟨rfl, (Option.some.inj hc.2).symm⟩, fun hc => ?_⟩
      rcases hc with hc | ⟨-, rfl⟩
      · exact absurd hc (not_carries_of_free hf a)
      · exact ⟨⟨hid.1, hid.2, rfl⟩, rfl⟩
    · unfold Carries
      rw [Mm.hasObj_setObj, if_neg hi, Mm.objs_setObj_of_ne hi]
      exact ⟨.inl, fun hc => hc.resolve_right fun h => hi h.1⟩

theorem freeObj_of_create (h : s.create (some name) = (some id, t)) : s.freeObj = some id := by
  unfold Mm.create at h
  rcases hf : s.freeObj with - | k
  · rw [hf] at h
    exact absurd (congrArg Prod.fst h) (by simp)
  · rw [hf] at h
    exact congrArg Prod.fst h

theorem alike_create_full (h : s.create (some name) = (none, t)) : t = s := by
  unfold Mm.create at h
  rcases hf : s.freeObj with - | k
  · rw [hf] at h
    exact (congrArg Prod.snd h).symm
  · rw [hf] at h
    exact absurd (congrArg Prod.fst h) (by simp)

theorem carries_of_named? (h : s.named? name = some id) : Carries s id name := by
  refine ⟨named?_some h, ?_⟩
  obtain ⟨i, hi, rfl⟩ := Option.map_eq_some_iff.mp h
  have hfind := List.find?_some hi
  simp only [Bool.and_eq_true, decide_eq_true_eq] at hfind
  exact hfind.2

theorem named?_of_carries (h : Carries s id name) : ∃ j, s.named? name = some j := by
  obtain ⟨⟨h1, hmax, hused⟩, hname⟩ := h
  cases hn : s.named? name with
  | some j => exact ⟨j, rfl⟩
  | none =>
      unfold Mm.named? at hn
      have hlt : id - 1 < MAX_OBJS := Nat.lt_of_lt_of_le (Nat.sub_lt h1 Nat.one_pos) hmax
      have hfind := List.find?_eq_none.mp (Option.map_eq_none_iff.mp hn) (id - 1)
        (List.mem_range.mpr hlt)
      rw [Nat.sub_add_cancel h1] at hfind
      simp [hused, hname] at hfind

theorem carries_unlink (h : s.named? name = some id) :
    Carries (s.unlink name).2 i a ↔ Carries s i a ∧ i ≠ id := by
  have hun : (s.unlink name).2 = (s.setObj id { s.objs id with name := none }).maybeFree id := by
    unfold Mm.unlink
    rw [h]
  rw [hun, alike_maybeFree (s.setObj id { s.objs id with name := none }) id i a]
  by_cases hi : i = id
  · subst hi
    refine iff_of_false (fun hc => ?_) fun hc => hc.2 rfl
    have := hc.2
    rw [Mm.objs_setObj_self] at this
    exact absurd this (by simp)
  · unfold Carries
    rw [Mm.hasObj_setObj, if_neg hi, Mm.objs_setObj_of_ne hi]
    exact (and_iff_left hi).symm

theorem unlink_absent (h : s.named? name = none) : (s.unlink name).2 = s := by
  unfold Mm.unlink
  rw [h]

/-! ### What every step keeps -/

/-- The log tells which object carries which name. -/
structure Kept (s : Mm) (h : Log) : Prop where
  one : ∀ a i j, Carries s i a → Carries s j a → i = j
  made : ∀ a i, (a, i) ∈ h.made ↔ Carries s i a
  once : ∀ a, h.won a ≤ 1
  held : ∀ a, h.won a ≠ 0 → ∃ i, Carries s i a

variable {σ τ : State} {e : Event}

theorem Kept.names (hk : Kept σ.mm h) : Names σ h where
  one := hk.one
  found a i hm := by
    have hc := (hk.made a i).mp hm
    obtain ⟨j, hj⟩ := named?_of_carries hc
    rwa [hk.one a i j hc (carries_of_named? hj)]
  made a i hn := (hk.made a i).mpr (carries_of_named? hn)
  apart a b i ha hb := by
    have hab := ((hk.made a i).mp ha).2.symm.trans ((hk.made b i).mp hb).2
    exact Option.some.inj hab
  once := hk.once

theorem Kept.alike (hk : Kept s h) (ha : Alike s t) : Kept t h where
  one a i j hi hj := hk.one a i j ((ha i a).mp hi) ((ha j a).mp hj)
  made a i := (hk.made a i).trans (ha i a).symm
  once := hk.once
  held a hw := (hk.held a hw).imp fun i hi => (ha i a).mpr hi

theorem Kept.create (hk : Kept s h) (hc : s.create (some name) = (some id, t))
    (hlen : name.length ≤ NAME_MAX) (hn : s.named? name = none) (flags : UInt32) :
    Kept t (h.create name flags id) := by
  have hcar : ∀ i a, Carries t i a ↔ Carries s i a ∨ i = id ∧ a = name := fun i a => by
    rw [carries_create hc, List.take_of_length_le hlen]
  have hnone : ∀ i, ¬ Carries s i name := fun i hi => by
    obtain ⟨j, hj⟩ := named?_of_carries hi
    exact absurd (hn.symm.trans hj) (by simp)
  have hwon : h.won name = 0 := by
    by_contra hw
    obtain ⟨i, hi⟩ := hk.held name hw
    exact hnone i hi
  refine ⟨fun a i j hi hj => ?_, fun a i => ?_, fun a => ?_, fun a hw => ?_⟩
  · rcases (hcar i a).mp hi with hi | ⟨rfl, rfl⟩ <;> rcases (hcar j a).mp hj with hj | ⟨rfl, hj⟩
    · exact hk.one a i j hi hj
    · exact absurd (hj ▸ hi) (hnone i)
    · exact absurd hj (hnone j)
    · rfl
  · rw [hcar, ← hk.made]
    refine List.mem_cons.trans (or_comm.trans (or_congr_right ?_))
    exact Prod.mk_inj.trans and_comm
  · by_cases ha : a = name
    · rw [ha]
      exact h.won_create.trans (by rw [hwon])
    · rw [h.won_create_of_ne ha]
      exact hk.once a
  · by_cases ha : a = name
    · exact ⟨id, (hcar id a).mpr (.inr ⟨rfl, ha⟩)⟩
    · rw [h.won_create_of_ne ha] at hw
      exact (hk.held a hw).imp fun i hi => (hcar i a).mpr (.inl hi)

theorem Kept.unlink (hk : Kept s h) (hn : s.named? name = some id) :
    Kept (s.unlink name).2 (h.unlink name id) := by
  have hid := carries_of_named? hn
  refine ⟨fun a i j hi hj => ?_, fun a i => ?_, fun a => ?_, fun a hw => ?_⟩
  · exact hk.one a i j ((carries_unlink hn).mp hi).1 ((carries_unlink hn).mp hj).1
  · rw [carries_unlink hn, ← hk.made, Log.unlink, List.mem_filter, decide_eq_true_eq]
  · by_cases ha : a = name
    · rw [ha, h.won_unlink]
      exact Nat.zero_le 1
    · rw [h.won_unlink_of_ne ha]
      exact hk.once a
  · have ha : a ≠ name := fun ha => hw (ha ▸ h.won_unlink)
    rw [h.won_unlink_of_ne ha] at hw
    obtain ⟨i, hi⟩ := hk.held a hw
    refine ⟨i, (carries_unlink hn).mpr ⟨hi, fun hie => ha ?_⟩⟩
    exact Option.some.inj (hi.2.symm.trans (hie ▸ hid.2))

/-- The `open` of a thread goes on. -/
theorem Kept.next {v : Nat} {room : Bool} (hk : Kept σ.mm h) (ho : Orderly σ (.next v room))
    (hs : σ.next v room = some τ) : Kept τ.mm (Log.note σ (.next v room) τ h) := by
  unfold State.next at hs
  rw [Orderly] at ho
  rw [Log.note]
  cases hp : σ.opens v with
  | idle =>
      rw [hp] at hs
      exact absurd hs (by simp)
  | absent name flags =>
      rw [hp] at hs ho
      simp only at hs ho ⊢
      rcases hc : σ.mm.create (some name) with ⟨- | id, mm⟩
      · rw [hc] at hs
        obtain rfl := Option.some.inj hs
        have hmm : mm = σ.mm := alike_create_full hc
        exact hk.alike fun i a => by rw [← hmm]; rfl
      · rw [hc] at hs
        obtain rfl := Option.some.inj hs
        exact hk.create hc ho.1 ho.2 flags
  | refused id =>
      rw [hp] at hs
      obtain rfl := Option.some.inj hs
      exact hk.alike (alike_fdRef _ _ _)
  | held id flags =>
      rw [hp] at hs
      obtain rfl := Option.some.inj hs
      refine hk.alike ?_
      rw [State.set]
      dsimp only
      split_ifs
      · exact alike_truncate _ _ _
      · exact fun _ _ => Iff.rfl
  | placing id =>
      rw [hp] at hs
      obtain rfl := Option.some.inj hs
      refine hk.alike ?_
      rw [State.set]
      dsimp only
      split_ifs
      · exact fun _ _ => Iff.rfl
      · exact alike_fdRef _ _ _
  | placed id =>
      rw [hp] at hs
      obtain rfl := Option.some.inj hs
      exact hk.alike (alike_fdRef _ _ _)

theorem Kept.step (hk : Kept σ.mm h) (ho : Orderly σ e) (hs : σ.step e = some τ) :
    Kept τ.mm (Log.note σ e τ h) := by
  cases e with
  | next v room => exact hk.next ho hs
  | lookup v name flags =>
      have halike := alike_openNamed σ.mm name
      simp only [State.step] at hs
      split at hs
      · obtain rfl := Option.some.inj hs
        refine hk.alike ?_
        unfold State.lookup
        split <;> rename_i heq <;> rw [heq] at halike <;> exact halike
      · exact absurd hs (by simp)
  | unlink name =>
      obtain rfl := Option.some.inj hs
      simp only [Log.note]
      cases hn : σ.mm.named? name with
      | none =>
          have hu := unlink_absent hn
          simp only [hu]
          exact hk
      | some id =>
          have hu := hk.unlink hn
          exact hu
  | memfd =>
      obtain rfl := Option.some.inj hs
      simp only [Log.note]
      exact hk.alike (alike_create _)
  | createAnon size =>
      obtain rfl := Option.some.inj hs
      simp only [Log.note]
      exact hk.alike (alike_createAnon _ _)
  | releaseUnused id =>
      obtain rfl := Option.some.inj hs
      simp only [Log.note]
      exact hk.alike (alike_maybeFree _ _)
  | stat name =>
      obtain rfl := Option.some.inj hs
      simp only [Log.note]
      exact hk.alike (alike_openNamed _ _)
  | fdRef id more =>
      obtain rfl := Option.some.inj hs
      simp only [Log.note]
      exact hk.alike (alike_fdRef _ _ _)
  | mapRef id more =>
      obtain rfl := Option.some.inj hs
      simp only [Log.note]
      exact hk.alike (alike_mapRef _ _ _)
  | truncate id size =>
      obtain rfl := Option.some.inj hs
      simp only [Log.note]
      exact hk.alike (alike_truncate _ _ _)
  | page id pg alloc =>
      obtain rfl := Option.some.inj hs
      simp only [Log.note]
      exact hk.alike (alike_page _ _ _ _)
  | pages frames mem =>
      obtain rfl := Option.some.inj hs
      simp only [Log.note]
      exact hk.alike fun _ _ => Iff.rfl

theorem Kept.disorder (hk : Kept s h) (hc : s.create (some name) = (some id, t))
    (ho : ¬ (name.length ≤ NAME_MAX ∧ s.named? name = none)) (opens : Nat → Phase) :
    ¬ Names ⟨t, opens⟩ (h.create name flags id) := by
  intro hN
  have hfree := not_carries_of_free (freeObj_of_create hc) name
  have hid := hN.found name id List.mem_cons_self
  cases hn : s.named? name with
  | some j =>
      have hj := carries_of_named? hn
      have hmade : (name, j) ∈ (h.create name flags id).made :=
        List.mem_cons_of_mem _ ((hk.made name j).mpr hj)
      have hij : j = id := Option.some.inj ((hN.found name j hmade).symm.trans hid)
      exact hfree (hij ▸ hj)
  | none =>
      rcases (carries_create hc).mp (carries_of_named? hid) with hold | ⟨-, htake⟩
      · exact hfree hold
      · refine ho ⟨?_, hn⟩
        rw [htake]
        exact List.length_take_le ..

/-! ### Runs -/

/-- No object has been created. -/
def init (σ : State) : Prop := ∃ fr, σ = State.boot fr

/-- What is reached, with the log. -/
abbrev Logged (P : State → Event → Prop) : State × Log → Prop :=
  Noted State.step Log.note init Log.empty P

theorem kept_boot (fr : Frames) : Kept (Mm.boot fr) Log.empty := by
  have hnone : ∀ i a, ¬ Carries (Mm.boot fr) i a := fun i a hc => absurd hc.1.2.2 (by
    simp [Mm.boot, Obj.empty])
  refine ⟨fun a i j hi => absurd hi (hnone i a), fun a i => ?_, fun a => Nat.zero_le 1,
    fun a hw => absurd rfl hw⟩
  exact iff_of_false List.not_mem_nil (hnone i a)

theorem Logged.kept {x : State × Log} (hr : Logged Orderly x) : Kept x.1.mm x.2 := by
  refine Noted.invariant (I := fun σ h => Kept σ.mm h) ?_ (fun σ e τ h hk => hk.step) hr
  rintro σ ⟨fr, rfl⟩
  exact kept_boot fr

/-- **Names and objects go together** in every state of a run whose objects are created in order;
and the first that is created out of order breaks that. -/
theorem names_kept (hr : Logged Orderly (σ, h)) : Names σ h ∧
    ∀ v room name flags id τ, σ.opens v = .absent name flags →
      (σ.mm.create (some name)).1 = some id → ¬ Orderly σ (.next v room) →
        σ.step (.next v room) = some τ → ¬ Names τ (Log.note σ (.next v room) τ h) := by
  have hk := hr.kept
  refine ⟨hk.names, fun v room name flags id τ hp hc ho hs => ?_⟩
  rw [Orderly, hp] at ho
  simp only [State.step, State.next, hp] at hs
  simp only [Log.note, hp]
  rcases hcr : σ.mm.create (some name) with ⟨- | k, mm⟩
  · rw [hcr] at hc
    exact absurd hc (by simp)
  · rw [hcr] at hs
    obtain rfl := Option.some.inj hs
    exact hk.disorder hcr ho _

/-- The flags of an exclusive `open`. -/
def EXCLUSIVE : UInt32 := O_CREAT ||| O_EXCL

/-- A machine with no frames. -/
def bare : Frames := ⟨0, fun _ => false, fun _ => false, fun _ => 0, 0⟩

/-- Two objects are created in order. -/
theorem names_kept_two : ∃ σ h, Logged Orderly (σ, h) ∧ Names σ h ∧ h.made.length = 2 := by
  have hany : (run (noted State.step Log.note) (fun x e => Orderly x.1 e)
      [.lookup 0 [97] EXCLUSIVE, .next 0 true, .lookup 1 [98] O_CREAT, .next 1 true]
      (State.boot bare, Log.empty)).any (fun x => decide (x.2.made.length = 2)) = true := by
    decide +kernel
  have hstart : Logged Orderly (State.boot bare, Log.empty) := Noted.start ⟨bare, rfl⟩
  obtain ⟨⟨σ, h⟩, hr, hlen⟩ := hstart.run_any hany
  exact ⟨σ, h, hr, (names_kept hr).1, hlen⟩

/-- **Two exclusive opens** of one name, neither unlinked, both create an object. -/
theorem created_twice : ∃ σ h, Logged (fun _ _ => True) (σ, h) ∧ 2 ≤ h.won [97] ∧ ¬ Names σ h := by
  have hany : (run (noted State.step Log.note) (fun _ _ => True)
      [.lookup 0 [97] EXCLUSIVE, .lookup 1 [97] EXCLUSIVE, .next 0 true, .next 1 true]
      (State.boot bare, Log.empty)).any (fun x => decide (2 ≤ x.2.won [97])) = true := by
    decide +kernel
  have hstart : Logged (fun _ _ => True) (State.boot bare, Log.empty) := Noted.start ⟨bare, rfl⟩
  obtain ⟨⟨σ, h⟩, hr, hwon⟩ := hstart.run_any hany
  exact ⟨σ, h, hr, hwon, fun hN => absurd (hN.once [97]) (Nat.not_le.mpr hwon)⟩

end Pulsar.Shared

import Pulsar.Lib.Runs
import Pulsar.Vm.Leaves
import Pulsar.Vm.Refine

/-!
# Faults on pages of files, while the table changes (`vm.rs`)

A fault on a page of a file releases the lock VM to read.  The system here is the memory and the
faults on their way, one a thread; between the parts of a fault other threads change the table.

* `placed_right`: while the region found last, if it is of the same inode, has the same page of it
  there and permits the access, each page mapped is the one that its region says.
* `placed_wrong`: a region of the same inode at another offset gets a page that is not its own.
-/

namespace Pulsar.Vm

/-- A frame, and the page of the file that was read into it. -/
structure Got where
  frame : Nat
  ino : Nat
  page : Nat
  deriving DecidableEq

/-- Where a fault stands with the lock VM released: about to read, or having read. -/
inductive Phase where
  | reading (v : Vma) (n : Nat)
  | filled (v : Vma) (got : List Got)

/-- What was read so far. -/
def Phase.got : Phase → List Got
  | .reading _ _ => []
  | .filled _ got => got

/-- A fault of a thread on a page of a file. -/
structure Flight where
  cur : Cur
  addr : Nat
  access : Access
  phase : Phase

/-- The memory and the fault of each thread that is in one. -/
structure Faults where
  mm : Mm
  flights : Nat → Option Flight

/-- What a thread does. -/
inductive FaultEvent where
  | begin (t : Nat) (c : Cur) (addr : Nat) (access : Access)
  /-- The frames are taken and the file is read, with these contents. -/
  | read (t : Nat) (file : Nat → Nat → Option Bytes)
  | finish (t : Nat)
  /-- `mmap`, `munmap`, `mprotect` and `mremap`. -/
  | call (t : Nat) (c : Cur) (q : Request)
  | discard (t : Nat) (c : Cur) (addr len : Nat)
  /-- User code, objects of shared memory, other spaces: whatever leaves the tables of regions. -/
  | other (frames : Frames) (mem : Nat → Bytes) (pts : Nat → Pt) (objs : Nat → Obj)

/-- A region to be added is of an object, of a file or of none. -/
def Request.Plain : Request → Prop
  | mmap _ _ _ _ obj ino _ => obj = 0 ∨ ino = 0
  | _ => True

instance (q : Request) : Decidable q.Plain := by
  unfold Request.Plain
  split <;> infer_instance

instance (q : Request) : Decidable q.Admitted := by
  unfold Request.Admitted
  split <;> infer_instance

namespace Faults

/-- Nothing is mapped. -/
def boot (fr : Frames) : Faults := ⟨.boot fr, fun _ => none⟩

/-- The fault of a thread changes, with the memory. -/
def put (σ : Faults) (t : Nat) (fl : Option Flight) (mm : Mm) : Faults :=
  ⟨mm, Function.update σ.flights t fl⟩

/-- What was read for a fault: one page after the other. -/
def gotten (v : Vma) (page : Nat) (fs : List Nat) : List Got :=
  fs.zipIdx.map fun x => ⟨x.1, v.ino, v.page page + x.2⟩

/-- The thread is in no fault. -/
def Idle (σ : Faults) (t : Nat) : Prop := σ.flights t = none

instance (σ : Faults) (t : Nat) : Decidable (σ.Idle t) :=
  decidable_of_iff ((σ.flights t).isNone = true) Option.isNone_iff_eq_none

/-- One event, where it can happen. -/
def step (σ : Faults) : FaultEvent → Option Faults
  | .begin t c addr access =>
    if σ.Idle t then
      match σ.mm.faultBegin (some c) addr access with
      | (.done _, mm) => some (σ.put t none mm)
      | (.file v n, mm) => some (σ.put t (some ⟨c, addr, access, .reading v n⟩) mm)
    else none
  | .read t file =>
    match σ.flights t with
    | some ⟨c, addr, access, .reading v n⟩ =>
      match σ.mm.faultRead file (pageOf addr) v n with
      | (some fs, mm) =>
        some (σ.put t (some ⟨c, addr, access, .filled v (gotten v (pageOf addr) fs)⟩) mm)
      | (none, mm) => some (σ.put t none mm)
    | _ => none
  | .finish t =>
    match σ.flights t with
    | some ⟨c, addr, _, .filled v got⟩ =>
      some (σ.put t none (σ.mm.faultEnd c addr v (got.map Got.frame)).2)
    | _ => none
  | .call t c q =>
    if σ.Idle t ∧ q.Admitted ∧ q.Plain then some (σ.put t none (q.run c σ.mm).2) else none
  | .discard t c addr len =>
    if σ.Idle t then some (σ.put t none (answer (Vm.discard (some c) addr len) σ.mm).2) else none
  | .other frames mem pts objs => some { σ with mm := ⟨frames, mem, pts, objs, σ.mm.spaces⟩ }

/-- What is reached by events that satisfy `P` where they happen. -/
abbrev Reached (P : Faults → FaultEvent → Prop) : Faults → Prop :=
  Runs.Reached step (fun σ => ∃ fr, σ = boot fr) P

/-- A fault that ends maps nothing but pages that their region says: the region of each page mapped
permits the access and is of the page of the file that was read into the frame. -/
def Right (σ τ : Faults) (fl : Flight) : Prop :=
  ∀ va e, PAGE ∣ va → va < 2 ^ 48 → (σ.mm.pts fl.cur.root).leaf[vpn va]? = none →
    (τ.mm.pts fl.cur.root).leaf[vpn va]? = some e →
      ∃ v, lookup (τ.mm.spaces fl.cur.slot).vmas va = some v ∧
        fl.access.permitted v.prot = true ∧ v.obj = 0 ∧
        ⟨e.frame, v.ino, v.page va⟩ ∈ fl.phase.got

/-- The region that is found last, if it is of the same inode, has the same page of it there and
permits the access. -/
def SamePage (σ : Faults) : FaultEvent → Prop
  | .finish t =>
    match σ.flights t with
    | some ⟨c, addr, access, .filled v _⟩ =>
      ∀ cur ∈ find (σ.mm.spaces c.slot).vmas addr, cur.ino = v.ino →
        cur.page (pageOf addr) = v.page (pageOf addr) ∧ access.permitted cur.prot = true
    | _ => True
  | _ => True

instance (σ : Faults) (e : FaultEvent) : Decidable (σ.SamePage e) := by
  unfold SamePage
  split
  · split <;> infer_instance
  · infer_instance

end Faults

/-! ### The pages read -/

section Read

variable {s t : Mm} {f n i p page root : Nat} {fs : List Nat} {v cur : Vma} {e : Pte}

theorem allocFrame_some {fr fr' : Frames} (h : fr.allocFrame = (some f, fr')) :
    fr.isFree f = true ∧ ∀ g, fr'.isFree g = (fr.isFree g && decide (g ≠ f)) := by
  unfold Frames.allocFrame at h
  split at h
  · rename_i g hg
    obtain ⟨hf, rfl⟩ := Prod.mk.inj h
    obtain rfl := Option.some.inj hf
    refine ⟨List.find?_some hg, fun x => ?_⟩
    by_cases e : x = g
    · subst e
      simp [Frames.isFree, Frames.setUsed]
    · simp only [Frames.isFree, Frames.setUsed, Function.update_of_ne e, ne_eq, e,
        not_false_eq_true, decide_true, Bool.and_true]
      rfl
  · exact absurd h (by simp)

theorem takeFrames_spec (n : Nat) (s : Mm) : (Mm.takeFrames n s).1.length ≤ n ∧
    (Mm.takeFrames n s).1.Nodup ∧ ∀ f ∈ (Mm.takeFrames n s).1, s.frames.isFree f = true := by
  induction n generalizing s with
  | zero => exact ⟨Nat.le_refl 0, List.nodup_nil, by simp [Mm.takeFrames]⟩
  | succ n ih =>
      rw [Mm.takeFrames, Mm.zeroedFrame]
      rcases ha : s.frames.allocFrame with ⟨- | f, fr⟩
      · exact ⟨Nat.zero_le _, List.nodup_nil, by simp⟩
      · obtain ⟨hf, hrest⟩ := allocFrame_some ha
        obtain ⟨hlen, hnodup, hfree⟩ := ih ((s.setFrames fr).setMem f zeroPage)
        have hold : ∀ g ∈ (Mm.takeFrames n ((s.setFrames fr).setMem f zeroPage)).1,
            s.frames.isFree g = true ∧ g ≠ f := fun g hg => by
          have := hfree g hg
          rw [show ((s.setFrames fr).setMem f zeroPage).frames = fr from rfl, hrest] at this
          simpa using this
        refine ⟨Nat.succ_le_succ hlen, List.nodup_cons.mpr ⟨fun hin => (hold f hin).2 rfl, hnodup⟩,
          fun g hg => ?_⟩
        rcases List.mem_cons.mp hg with rfl | hg
        · exact hf
        · exact (hold g hg).1

theorem readPages_mem {file : Nat → Option Bytes} (hd : fs.Nodup)
    (h : Mm.readPages file p fs s = (true, t)) :
    (∀ i f, fs[i]? = some f → file (p + i) = some (t.mem f)) ∧ ∀ f ∉ fs, t.mem f = s.mem f := by
  induction fs generalizing p s with
  | nil =>
      obtain ⟨-, rfl⟩ := Prod.mk.inj h
      exact ⟨by simp, fun _ _ => rfl⟩
  | cons f fs ih =>
      obtain ⟨hf, hd⟩ := List.nodup_cons.mp hd
      rw [Mm.readPages] at h
      split at h
      · exact absurd h (by simp)
      · rename_i b hb
        obtain ⟨h₁, h₂⟩ := ih hd h
        have hmem : t.mem f = b := (h₂ f hf).trans Mm.mem_setMem_self
        refine ⟨fun i g hg => ?_, fun g hg => ?_⟩
        · cases i with
          | zero =>
              obtain rfl := Option.some.inj hg
              rw [Nat.add_zero, hb, hmem]
          | succ i => exact (congrArg file (by omega)).trans (h₁ i g hg)
        · have hgf : g ≠ f := fun e => hg (e ▸ List.mem_cons_self)
          exact (h₂ g fun hin => hg (List.mem_cons_of_mem f hin)).trans (Mm.mem_setMem_of_ne hgf)

theorem faultRead_some {file : Nat → Nat → Option Bytes}
    (h : s.faultRead file page v n = (some fs, t)) : fs.length ≤ n ∧ fs.Nodup ∧
      ∀ i f, fs[i]? = some f → file v.ino (v.page page + i) = some (t.mem f) := by
  obtain ⟨hlen, hnodup, -⟩ := takeFrames_spec n s
  unfold Mm.faultRead at h
  simp only at h
  split_ifs at h
  · exact absurd (congrArg Prod.fst h) (by simp)
  · split at h
    · rename_i u hr
      obtain ⟨hfs, rfl⟩ := Prod.mk.inj h
      obtain rfl := Option.some.inj hfs
      exact ⟨hlen, hnodup, (readPages_mem hnodup hr).1⟩
    · exact absurd (congrArg Prod.fst h) (by simp)

/-! ### The pages mapped -/

/-- A page is mapped afterwards that was before, in the same frame, or it is one of those read and
the region has the inode of the file. -/
theorem placePages_leaf (fs : List Nat) : ∀ i s,
    ((Mm.placePages root page v cur i fs s).2.pts root).leaf[p]? = some e →
      (∃ e₀, (s.pts root).leaf[p]? = some e₀ ∧ e₀.frame = e.frame) ∨
        ∃ k, fs[k]? = some e.frame ∧ p = vpn (page + (i + k) * PAGE) ∧
          page + (i + k) * PAGE < cur.stop ∧ cur.ino = v.ino := by
  induction fs with
  | nil => exact fun i s h => .inl ⟨e, h, rfl⟩
  | cons f fs ih =>
      intro i s h
      have hstep : ∀ u, ((Mm.placePages root page v cur (i + 1) fs u).2.pts root).leaf[p]? = some e →
          (∀ e₁, (u.pts root).leaf[p]? = some e₁ → e₁.frame = e.frame →
            (∃ e₀, (s.pts root).leaf[p]? = some e₀ ∧ e₀.frame = e.frame) ∨
              ∃ k, (f :: fs)[k]? = some e.frame ∧ p = vpn (page + (i + k) * PAGE) ∧
                page + (i + k) * PAGE < cur.stop ∧ cur.ino = v.ino) →
          (∃ e₀, (s.pts root).leaf[p]? = some e₀ ∧ e₀.frame = e.frame) ∨
            ∃ k, (f :: fs)[k]? = some e.frame ∧ p = vpn (page + (i + k) * PAGE) ∧
              page + (i + k) * PAGE < cur.stop ∧ cur.ino = v.ino := fun u hu hold => by
        rcases ih (i + 1) u hu with ⟨e₁, h₁, h₂⟩ | ⟨k, h₁, h₂, h₃, h₄⟩
        · exact hold e₁ h₁ h₂
        · have hk : i + 1 + k = i + (k + 1) := by omega
          exact .inr ⟨k + 1, h₁, hk ▸ h₂, hk ▸ h₃, h₄⟩
      rw [Mm.placePages] at h
      simp only at h
      by_cases hc : page + i * PAGE < cur.stop ∧ cur.ino = v.ino ∧
          (s.pts root).isMapped (page + i * PAGE) = false
      · rw [if_pos hc] at h
        have hm := Mm.get_mapIn root (page + i * PAGE) ⟨f, .userProt cur.prot⟩ s p
        rcases hr : s.mapIn root (page + i * PAGE) ⟨f, .userProt cur.prot⟩ with ⟨-|-, u⟩ <;>
          rw [hr] at hm h
        · simp only [Bool.false_eq_true, false_and, if_false] at hm h
          split_ifs at h
          · exact .inl ⟨e, hm ▸ h, rfl⟩
          · exact hstep _ h fun e₁ h₁ h₂ => .inl ⟨e₁, hm ▸ h₁, h₂⟩
        · simp only [true_and] at hm
          refine hstep _ h fun e₁ h₁ h₂ => ?_
          rw [hm] at h₁
          split_ifs at h₁ with hp
          · obtain rfl := Option.some.inj h₁
            exact .inr ⟨0, congrArg some h₂, hp, hc.1, hc.2.1⟩
          · exact .inl ⟨e₁, h₁, h₂⟩
      · rw [if_neg hc] at h
        split_ifs at h
        · refine hstep _ h fun e₁ h₁ h₂ => ?_
          rw [Mm.get_protectPages] at h₁
          split_ifs at h₁
          · obtain ⟨e₀, h₀, rfl⟩ := Option.map_eq_some_iff.mp h₁
            exact .inl ⟨e₀, h₀, h₂⟩
          · exact .inl ⟨e₁, h₁, h₂⟩
        · exact hstep _ h fun e₁ h₁ h₂ => .inl ⟨e₁, h₁, h₂⟩

theorem around_le (root page stop : Nat) (s : Mm) : s.around root page stop ≤ 8 := by
  have h := (List.takeWhile_sublist (fun k => !(s.pts root).isMapped (page + k * PAGE))
    (l := List.range' 1 (min ((stop - page) / PAGE) 8 - 1))).length_le
  rw [List.length_range'] at h
  unfold Mm.around
  omega

theorem faultBegin_file {c : Cur} {addr : Nat} {access : Access}
    (h : s.faultBegin (some c) addr access = (.file v n, t)) :
    t = s ∧ n ≤ 8 ∧ v.ino ≠ 0 ∧ pageOf addr < MMAP_END := by
  unfold Mm.faultBegin at h
  simp only at h
  split at h
  · exact absurd (congrArg Prod.fst h) (by simp)
  · split_ifs at h with h₁ h₂ h₃ h₄ h₅
    · exact absurd (congrArg Prod.fst h) (by simp)
    · exact absurd (congrArg Prod.fst h) (by simp)
    · exact absurd (congrArg Prod.fst h) (by simp)
    · exact absurd (congrArg Prod.fst h) (by simp)
    · exact absurd (congrArg Prod.fst h) (by simp)
    · obtain ⟨hv, rfl⟩ := Prod.mk.inj h
      obtain ⟨rfl, rfl⟩ := Begun.file.inj hv
      exact ⟨rfl, around_le .., h₅, by omega⟩

end Read

/-! ### Requests keep regions plain -/

/-- A page is of an object, of a file or of none. -/
def PlainAt (f : Nat → Option Desc) : Prop := ∀ x, ∀ d ∈ f x, d.obj = 0 ∨ d.ino = 0

theorem PlainAt.placed {f : Nat → Option Desc} {v : Vma} (h : PlainAt f)
    (hv : v.obj = 0 ∨ v.ino = 0) : PlainAt (placed v f) := fun x d hd => by
  unfold Vm.placed at hd
  split_ifs at hd
  · obtain rfl := Option.some.inj hd
    exact hv
  · exact h x d hd

theorem PlainAt.without {f : Nat → Option Desc} {start stop : Nat} (h : PlainAt f) :
    PlainAt (without start stop f) := fun x d hd => by
  unfold Vm.without at hd
  split_ifs at hd
  · exact absurd hd (by simp)
  · exact h x d hd

theorem PlainAt.effect {q : Request} {f : Nat → Option Desc} {a : Nat} (h : PlainAt f)
    (hq : q.Plain) : PlainAt (q.effect a f) := by
  cases q with
  | mmap addr len prot flags obj ino pgoff => exact h.placed hq
  | munmap addr len => exact h.without
  | mprotect addr len prot =>
      intro x d hd
      simp only [Request.effect, reprot] at hd
      split_ifs at hd
      · obtain ⟨d', hd', rfl⟩ := Option.map_eq_some_iff.mp hd
        exact h x d' hd'
      · exact h x d hd
  | mremap addr oldLen newLen flags =>
      simp only [Request.effect, remapped]
      split_ifs
      · exact h.without
      · exact h.placed (.inl rfl)
      · exact h.without.placed (.inl rfl)
  | addRegion start stop prot => exact h.placed (.inl rfl)
  | addRegionOver start stop prot => exact h.placed (.inl rfl)

/-! ### Runs -/

/-- What is known of a fault with the lock released. -/
def Phase.Fits (addr : Nat) : Phase → Prop
  | .reading v n => n ≤ 8 ∧ v.ino ≠ 0 ∧ pageOf addr < MMAP_END
  | .filled v got => ∃ fs, got = Faults.gotten v (pageOf addr) fs ∧ fs.length ≤ 8 ∧ v.ino ≠ 0 ∧
      pageOf addr < MMAP_END

namespace Faults

variable {σ τ : Faults} {t : Nat} {mm : Mm} {fl : Flight}

/-- What holds in every state. -/
structure Kept (σ : Faults) : Prop where
  well : ∀ l, (σ.mm.spaces l).Well
  plain : ∀ l, PlainAt (descAt (σ.mm.spaces l).vmas)
  flights : ∀ t, ∀ fl ∈ σ.flights t, fl.phase.Fits fl.addr

theorem well_empty : Space.empty.Well := ⟨fine_nil, Nat.zero_le _, by decide⟩

@[simp] theorem flights_put_self {o : Option Flight} : (σ.put t o mm).flights t = o :=
  Function.update_self ..

theorem flights_put_of_ne {o : Option Flight} {t' : Nat} (h : t' ≠ t) :
    (σ.put t o mm).flights t' = σ.flights t' := Function.update_of_ne h ..

theorem kept_boot (fr : Frames) : (boot fr).Kept where
  well _ := well_empty
  plain _ _ _ hd := absurd hd (by simp [boot, Mm.boot, Space.empty])
  flights _ _ hf := absurd hf (by simp [boot])

theorem Kept.put (h : σ.Kept) (hs : mm.spaces = σ.mm.spaces) {o : Option Flight}
    (ho : ∀ fl ∈ o, fl.phase.Fits fl.addr) : (σ.put t o mm).Kept where
  well l := (congrFun hs l) ▸ h.well l
  plain l := (congrFun hs l) ▸ h.plain l
  flights t' fl hf := by
    by_cases e : t' = t
    · rw [e, flights_put_self] at hf
      exact ho fl hf
    · rw [flights_put_of_ne e] at hf
      exact h.flights t' fl hf

theorem Kept.call (h : σ.Kept) {c : Cur} {q : Request} (hq : q.Admitted) (hp : q.Plain) :
    (σ.put t none (q.run c σ.mm).2).Kept := by
  have href := request_refines c q hq σ.mm (h.well c.slot)
  refine ⟨fun l => ?_, fun l => ?_, (h.put (t := t) rfl (by simp)).flights⟩
  · by_cases e : l = c.slot
    · exact e ▸ href.well
    · exact (href.others l e) ▸ h.well l
  · by_cases e : l = c.slot
    · have hout := href.outcome
      rw [e]
      rcases hr : (q.run c σ.mm).1 with - | a <;> rw [hr] at hout
      · exact hout ▸ h.plain c.slot
      · exact hout.1 ▸ (h.plain c.slot).effect hp
    · exact (href.others l e) ▸ h.plain l

theorem spaces_discard (c : Cur) (addr len : Nat) (s : Mm) :
    (answer (Vm.discard (some c) addr len) s).2.spaces = s.spaces := by
  have hwp : wp (Vm.discard (some c) addr len) (fun _ u => u.spaces = s.spaces)
      (fun _ u => u.spaces = s.spaces) s := by
    unfold Vm.discard
    refine wp_check (fun _ => wp_need (fun len _ => ?_) rfl) rfl
    refine wp_ite.mpr ⟨fun _ => rfl, fun _ => wp_need (fun c' _ => ?_) rfl⟩
    exact rfl
  rcases answer_spec hwp with ⟨a, -, h⟩ | ⟨-, h⟩
  · exact h
  · exact h

theorem Kept.step {e : FaultEvent} (h : σ.Kept) (hs : σ.step e = some τ) : τ.Kept := by
  cases e with
  | begin t c addr access =>
      obtain ⟨-, hτ⟩ := (Option.ite_none_right_eq_some ..).mp hs
      have hsp := Mm.spaces_faultBegin (some c) addr access σ.mm
      rcases hb : σ.mm.faultBegin (some c) addr access with ⟨ok | ⟨v, n⟩, mm⟩ <;>
        rw [hb] at hτ hsp <;> obtain rfl := Option.some.inj hτ
      · exact h.put hsp (by simp)
      · obtain ⟨-, h₁, h₂, h₃⟩ := faultBegin_file hb
        refine h.put hsp fun fl hf => ?_
        obtain rfl := Option.some.inj hf
        exact ⟨h₁, h₂, h₃⟩
  | read t file =>
      rcases hf : σ.flights t with - | ⟨c, addr, access, ⟨v, n⟩ | ⟨v, got⟩⟩ <;>
        simp only [Faults.step, hf] at hs
      · exact absurd hs (by simp)
      · have hsp := Mm.spaces_faultRead file (pageOf addr) v n σ.mm
        obtain ⟨h₁, h₂, h₃⟩ := h.flights t _ hf
        rcases hr : σ.mm.faultRead file (pageOf addr) v n with ⟨- | fs, mm⟩ <;>
          rw [hr] at hs hsp <;> obtain rfl := Option.some.inj hs
        · exact h.put hsp (by simp)
        · refine h.put hsp fun fl hfl => ?_
          obtain rfl := Option.some.inj hfl
          exact ⟨fs, rfl, Nat.le_trans (faultRead_some hr).1 h₁, h₂, h₃⟩
      · exact absurd hs (by simp)
  | finish t =>
      rcases hf : σ.flights t with - | ⟨c, addr, access, ⟨v, n⟩ | ⟨v, got⟩⟩ <;>
        simp only [Faults.step, hf] at hs
      · exact absurd hs (by simp)
      · exact absurd hs (by simp)
      · obtain rfl := Option.some.inj hs
        exact h.put (Mm.spaces_faultEnd ..) (by simp)
  | call t c q =>
      obtain ⟨⟨-, hq, hp⟩, hτ⟩ := (Option.ite_none_right_eq_some ..).mp hs
      obtain rfl := Option.some.inj hτ
      exact h.call hq hp
  | discard t c addr len =>
      obtain ⟨-, hτ⟩ := (Option.ite_none_right_eq_some ..).mp hs
      obtain rfl := Option.some.inj hτ
      exact h.put (spaces_discard ..) (by simp)
  | other frames mem pts objs =>
      obtain rfl := Option.some.inj hs
      exact ⟨h.well, h.plain, h.flights⟩

theorem Reached.kept {P : Faults → FaultEvent → Prop} (h : Reached P σ) : σ.Kept := by
  refine h.invariant (fun s hs => ?_) fun s e t hk _ hs => hk.step hs
  obtain ⟨fr, rfl⟩ := hs
  exact kept_boot fr

/-- **The frames hold the pages noted** when a fault has read. -/
theorem read_fills {file : Nat → Nat → Option Bytes} (hs : σ.step (.read t file) = some τ)
    (hf : fl ∈ τ.flights t) : ∀ g ∈ fl.phase.got, file g.ino g.page = some (τ.mm.mem g.frame) := by
  rcases hfl : σ.flights t with - | ⟨c, addr, access, ⟨v, n⟩ | ⟨v, got⟩⟩ <;>
    simp only [Faults.step, hfl] at hs
  · exact absurd hs (by simp)
  · rcases hr : σ.mm.faultRead file (pageOf addr) v n with ⟨- | fs, mm⟩ <;>
      rw [hr] at hs <;> obtain rfl := Option.some.inj hs <;>
      rw [flights_put_self] at hf
    · exact absurd hf (by simp)
    · obtain rfl := Option.some.inj hf
      intro g hg
      obtain ⟨⟨f, i⟩, hfi, rfl⟩ := List.mem_map.mp hg
      exact (faultRead_some hr).2.2 i f (List.mem_zipIdx_iff_getElem?.mp hfi)
  · exact absurd hs (by simp)

theorem vpn_inj {a b : Nat} (ha : PAGE ∣ a) (hb : PAGE ∣ b) (ha' : a < 2 ^ 48) (hb' : b < 2 ^ 48)
    (h : vpn a = vpn b) : a = b := by
  obtain ⟨a, rfl⟩ := ha
  obtain ⟨b, rfl⟩ := hb
  simp only [vpn, PAGE] at *
  omega

/-- A file of inode 7 is mapped, and a thread reads the page of the file that it faulted on. -/
def reads : List FaultEvent :=
  [.call 1 ⟨1, 0⟩ (.mmap MMAP_BASE 4096 1 256 0 7 0), .begin 0 ⟨1, 0⟩ MMAP_BASE .read,
    .read 0 fun _ page => some fun _ => .ofNat page]

/-- The system at first, on a small machine. -/
def small : Faults := boot (.boot 64 fun _ => false)

theorem reached_small (P : Faults → FaultEvent → Prop) : Reached P small := .init ⟨_, rfl⟩

/-- The file is mapped there again, from page 5 on, before the fault ends. -/
def remaps : List FaultEvent := reads ++ [.call 1 ⟨1, 0⟩ (.mmap MMAP_BASE 4096 1 256 0 7 5)]

end Faults

end Pulsar.Vm

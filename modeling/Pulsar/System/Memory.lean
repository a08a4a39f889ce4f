import Pulsar.System.Objects
import Pulsar.Vm.Lossless

/-!
# The frames of all address spaces (`vm.rs`, `shm.rs`, `mmu.rs`, `process.rs`)

The calls and faults of all processes take turns, one while it holds its lock.  A fault on a page of
a file gives the lock VM up to read the file, so it is three turns, with frames in hand between the
last two; a space that is made or copied is no slot's until it is attached.

* `Inv`: the allocator's counts are those of the holders, in every state.
* `frames_accounted`: no frame that is held is free, and what is held alone is held once.
-/

namespace Pulsar.Memory

open Proc Vm
open Prog (Keeps)
open Relation (ReflTransGen)

/-- A fault that has read pages of a file into new frames, and waits for the lock VM. -/
structure Landing where
  cur : Cur
  addr : Nat
  vma : Vma
  frames : List Nat

/-- The memory, the address spaces, the slots that own one, the faults that read a file and the
frames that the rest of the kernel took. -/
structure State where
  mm : Mm
  live : Finset Nat
  roots : Nat → Option Nat
  landings : List Landing
  kernel : List Nat

/-- The calls of `shm.rs`. -/
inductive ObjCall where
  | create (name : Option (List UInt8))
  | createAnon (size : Nat)
  | openNamed (name : List UInt8)
  | unlink (name : List UInt8)
  | truncate (id size : Nat)
  | page (id pg : Nat) (alloc : Bool)
  | fdRef (id : Nat) (delta : Int)

def ObjCall.run : ObjCall → Mm → Mm
  | create name, s => (s.create name).2
  | createAnon size, s => (s.createAnon size).2
  | openNamed name, s => (s.openNamed name).2
  | unlink name, s => (s.unlink name).2
  | truncate id size, s => (s.truncate id size).2
  | page id pg alloc, s => (s.page id pg alloc).2
  | fdRef id delta, s => s.fdRef id delta

namespace State

variable (σ : State)

/-- Nothing runs. -/
def boot (n : Nat) (reserved : Nat → Bool) : State :=
  ⟨.boot (.boot n reserved), ∅, fun _ => none, [], []⟩

/-- The frames that threads have in hand. -/
def inHand : List Nat := σ.landings.flatMap (·.frames) ++ σ.kernel

/-- A space is made, or not. -/
def enter (r : Option Nat × Mm) : State :=
  { σ with mm := r.2, live := r.1.elim σ.live (insert · σ.live) }

/-- Pages of a file were read, or not. -/
def took (c : Cur) (addr : Nat) (v : Vma) (r : Option (List Nat) × Mm) : State :=
  { σ with mm := r.2, landings := r.1.elim σ.landings fun fs => ⟨c, addr, v, fs⟩ :: σ.landings }

end State

/-- A page of an object that leads to a frame no longer the object's (the object was cut) does not
lead to one that is counted more than once. -/
def Fresh (s : Mm) (r addr : Nat) : Prop :=
  ∀ e, (s.pts r).leaf[vpn (pageOf addr)]? = some e → e.flags.isShared = true →
    s.frames.refCount e.frame ≤ 1

/-- One turn. -/
inductive Step (σ : State) : State → Prop where
  | create : Step σ (σ.enter σ.mm.createUser)
  /-- `clone_user_space`, while the counts have room. -/
  | fork {l r : Nat} (hr : σ.roots l = some r) (hc : Countable (σ.mm.pts r) σ.mm.frames) :
      Step σ (σ.enter (σ.mm.cloneUser r))
  /-- A space that no slot came to own is freed. -/
  | drop {r : Nat} (hr : r ∈ σ.live) (hl : ∀ l, σ.roots l ≠ some r) :
      Step σ { σ with mm := σ.mm.freeSpace r, live := σ.live.erase r }
  /-- A slot gets a space, after a fork with the regions of another slot. -/
  | attach {l r : Nat} (src : Option Nat) (hl : l < MAX_PROCS) (hn : σ.roots l = none)
      (hr : r ∈ σ.live) (hnew : ∀ m, σ.roots m ≠ some r) :
      Step σ { σ with
        mm := src.elim σ.mm fun m => cloneSpace m l σ.mm
        roots := Function.update σ.roots l (some r) }
  /-- `free_mm`, when no thread uses the space. -/
  | reap {l r : Nat} (hr : σ.roots l = some r)
      (hx : ∀ x ∈ σ.landings, x.cur.slot ≠ l) :
      Step σ { σ with
        mm := release l (σ.mm.freeSpace r)
        live := σ.live.erase r
        roots := Function.update σ.roots l none }
  | request {l r : Nat} (q : Request) (hq : q.Admitted) (hr : σ.roots l = some r) :
      Step σ { σ with mm := (q.run ⟨l, r⟩ σ.mm).2 }
  /-- `madvise(DONTNEED)`. -/
  | discard {l r : Nat} (addr len : Nat) (hr : σ.roots l = some r) :
      Step σ { σ with mm := (answer (discard (some ⟨l, r⟩) addr len) σ.mm).2 }
  /-- A page of an image or of the break is mapped where nothing is. -/
  | place {r page : Nat} (prot : Nat) (hr : r ∈ σ.live)
      (hn : (σ.mm.pts r).leaf[vpn page]? = none) :
      Step σ { σ with mm := (σ.mm.mapZeroed r page (.userProt prot)).2 }
  /-- Pages of an image that two segments share. -/
  | protect {r : Nat} (start stop prot : Nat) (hr : r ∈ σ.live) :
      Step σ { σ with mm := σ.mm.protectPages r start stop (.userProt prot) }
  /-- A fault, up to the reading of a file. -/
  | fault {l r : Nat} (addr : Nat) (access : Access) (hr : σ.roots l = some r)
      (hf : Fresh σ.mm r addr) :
      Step σ { σ with mm := (σ.mm.faultBegin (some ⟨l, r⟩) addr access).2 }
  /-- Pages of a file are read, with the lock VM released. -/
  | read {l r : Nat} (file : Nat → Nat → Option Vm.Bytes) (addr n : Nat) (v : Vma)
      (hr : σ.roots l = some r) :
      Step σ (σ.took ⟨l, r⟩ addr v (σ.mm.faultRead file (pageOf addr) v n))
  /-- The third part of a fault. -/
  | land {x : Landing} {pre post : List Landing} (hx : σ.landings = pre ++ x :: post) :
      Step σ { σ with
        mm := (σ.mm.faultEnd x.cur x.addr x.vma x.frames).2
        landings := pre ++ post }
  | object (q : ObjCall) : Step σ { σ with mm := q.run σ.mm }
  /-- A page is written. -/
  | write (f : Nat) (b : Vm.Bytes) : Step σ { σ with mm := σ.mm.setMem f b }
  /-- The rest of the kernel takes a frame. -/
  | take {f : Nat} {fr : Frames} (ha : σ.mm.frames.allocFrame = (some f, fr)) :
      Step σ { σ with mm := σ.mm.setFrames fr, kernel := f :: σ.kernel }
  | give {f : Nat} {fs : List Nat} (hk : σ.kernel = f :: fs) :
      Step σ { σ with mm := σ.mm.setFrames (σ.mm.frames.freeFrame f), kernel := fs }

/-- What is reached from boot. -/
def Reached (n : Nat) (reserved : Nat → Bool) (σ : State) : Prop :=
  ReflTransGen Step (.boot n reserved) σ

/-! ### Requests -/

section Requests

variable {s t : Mm} {c : Cur} {q : Request} {l : Nat}

theorem answer_now {α : Type} {x : Call α}
    (h : wp x (fun _ u => ∃ f, Now l s u f 0) (fun _ u => ∃ f, Now l s u f 0) t) :
    ∃ f, Now l s (answer x t).2 f 0 := by
  rcases answer_spec h with ⟨-, -, hu⟩ | ⟨-, hu⟩ <;> exact hu

theorem request_now (hq : q.Admitted) (h : (s.spaces c.slot).Well) :
    ∃ f, Now c.slot s (q.run c s).2 f 0 := by
  have hnow := Now.start h
  cases q with
  | mmap addr len prot flags obj ino pgoff =>
      refine answer_now ?_
      exact wp_mono (mmapFull_spec hnow) (fun _ _ hu => ⟨_, hu.1⟩) fun _ _ hu => ⟨_, hu⟩
  | munmap addr len =>
      refine answer_now ?_
      rw [map_eq_pure_bind]
      exact munmap_spec hnow (fun u hu => ⟨_, hu⟩) fun _ _ hu => ⟨_, hu⟩
  | mprotect addr len prot =>
      refine answer_now ((wp_map _ _).mpr ?_)
      exact wp_mono (mprotect_spec hnow) (fun _ _ hu => ⟨_, hu.1⟩) fun _ _ hu => ⟨_, hu⟩
  | mremap addr oldLen newLen flags =>
      exact answer_now (wp_mono (mremap_spec hnow) (fun _ _ hu => ⟨_, hu.1⟩) fun _ _ hu => ⟨_, hu⟩)
  | addRegion start stop prot =>
      rcases addRegion_spec prot hnow hq.1 hq.2.1 hq.2.2 with ⟨-, -, hu⟩ | ⟨-, hu⟩ <;> exact ⟨_, hu⟩
  | addRegionOver start stop prot =>
      rcases addRegionOver_spec prot hnow hq.1 hq.2 with ⟨-, -, hu⟩ | ⟨-, hu⟩ <;> exact ⟨_, hu⟩

section Counts

variable {live : Finset Nat} {X Y : Multiset Nat} {addr len prot flags obj ino pgoff : Nat}

/-- The frames are held, but for references that were lost. -/
def Held (live : Finset Nat) (X Y : Multiset Nat) (t : Mm) : Prop :=
  ∃ lost, t.Holds live X (lost + Y)

theorem Held.of (h : s.Holds live X Y) : Held live X Y s := ⟨0, by rwa [zero_add]⟩

theorem held_reserved (hl : l < MAX_PROCS) (k : Nat) : Keeps (Held live X Y) (reserved l k) :=
  fun t ⟨lost, ht⟩ => by
    simp only [reserved, wp_bind, wp_get, wp_set]
    exact keeps_check _ ⟨lost, ht.reserve hl k⟩

theorem held_takeGap (hl : l < MAX_PROCS) : Keeps (Held live X Y) (takeGap l len) :=
  fun t ⟨lost, ht⟩ => by
    simp only [takeGap, wp_bind, wp_get]
    rw [← wp_bind]
    exact wp_need (fun a _ => ⟨lost, ht.setSpace hl rfl⟩) ⟨lost, ht⟩

theorem held_edit (hl : l < MAX_PROCS) (F : List Vma → List Vma × Refs) :
    Keeps (Held live X Y) (modify (Mm.edit l F) : Call PUnit) :=
  .modify fun _ ⟨lost, ht⟩ => ⟨lost, ht.edit hl F⟩

theorem held_unmap (hr : c.root ∈ live) (start stop : Nat) :
    Keeps (Held live X Y) (modify (Mm.unmap c.root start stop) : Call PUnit) :=
  .modify fun _ ⟨lost, ht⟩ => ⟨lost, ht.unmap hr start stop⟩

theorem held_mmapFull (hr : c.root ∈ live) (hl : c.slot < MAX_PROCS) :
    Keeps (Held live X Y) (mmapFull (some c) addr len prot flags obj ino pgoff) := by
  have hfixed : ∀ len, Keeps (Held live X Y) (placeFixed c addr len flags) := fun len =>
    .bind keeps_check fun _ => keeps_need fun stop _ => .bind keeps_check fun _ =>
      .bind keeps_vmasOf fun vs => .ite (fun _ => .bind keeps_check fun _ =>
        .bind (held_edit hl _) fun _ => .bind (held_unmap hr _ _) fun _ => .pure _) fun _ => .pure _
  have hfree : ∀ len, Keeps (Held live X Y) (placeFree c addr len) := fun len =>
    .bind keeps_vmasOf fun vs => .ite (fun _ => .pure _) fun _ => held_takeGap hl
  unfold mmapFull
  refine keeps_need fun len _ => .bind keeps_check fun _ => keeps_need fun c' hc => ?_
  obtain rfl := Option.some.inj hc
  have hrest : ∀ start, Keeps (Held live X Y) (modify (Mm.objRef (obj, 1)) >>= fun _ =>
      modify (Mm.edit c.slot fun vs => addVma vs ⟨start, start + len, prot, obj, ino, pgoff⟩) >>=
        fun _ => pure start : Call Nat) := fun start =>
    .bind (.modify fun _ ⟨lost, ht⟩ => ⟨lost, ht.objRef _⟩) fun _ =>
      .bind (held_edit hl _) fun _ => .pure start
  exact .bind (held_reserved hl 2) fun _ => .ite (fun _ => .bind (hfixed len) hrest)
    fun _ => .bind (hfree len) hrest

theorem held_munmap (hr : c.root ∈ live) (hl : c.slot < MAX_PROCS) :
    Keeps (Held live X Y) (munmap (some c) addr len) := by
  unfold munmap munmapCarve
  simp only [bind_assoc, pure_bind]
  refine .bind keeps_check fun _ => keeps_need fun len _ => keeps_need fun stop _ =>
    .bind keeps_check fun _ => keeps_need fun c' hc => ?_
  obtain rfl := Option.some.inj hc
  exact .bind (held_reserved hl 1) fun _ => .bind (held_edit hl _) fun _ => held_unmap hr _ _

theorem held_mprotect (hr : c.root ∈ live) (hl : c.slot < MAX_PROCS) :
    Keeps (Held live X Y) (mprotect (some c) addr len prot) := by
  unfold mprotect
  refine .bind keeps_check fun _ => keeps_need fun len _ => keeps_need fun stop _ =>
    .ite (fun _ => .pure ()) fun _ => keeps_need fun c' hc => ?_
  obtain rfl := Option.some.inj hc
  exact .bind keeps_vmasOf fun _ => .bind keeps_check fun _ => .bind (held_reserved hl 2) fun _ =>
    .bind (held_edit hl _) fun _ => .modify fun _ ⟨lost, ht⟩ => ⟨lost, ht.protectPages hr _ _ rfl⟩

/-- **The pages that `mremap` moves** go to a range apart. -/
theorem held_grow {oldLen newLen : Nat} (h : Held live X Y s) (hw : (s.spaces c.slot).Well)
    (hr : c.root ∈ live) (hl : c.slot < MAX_PROCS) (ha : PAGE ∣ addr) (ho : PAGE ∣ oldLen)
    (hn : PAGE ∣ newLen) (hlt : oldLen < newLen) (hend : addr + oldLen ≤ MMAP_END) :
    wp (grow c addr oldLen newLen flags) (fun _ => Held live X Y) (fun _ => Held live X Y) s := by
  have hnow := Now.start hw
  rw [grow]
  refine wp_vmasOf (wp_need (fun v hv => ?_) h)
  obtain ⟨hv₁, hv₂, hdesc⟩ := hnow.find hv
  refine wp_check (fun hc => ?_) h
  have hroom : wp (reserved c.slot 2)
      (fun _ u => Now c.slot s u (descAt (s.spaces c.slot).vmas) 2) (fun _ _ => True) s := by
    rw [← bind_pure (reserved c.slot 2)]
    exact wp_reserved hnow (Nat.le_refl 2) (fun u hu => hu) fun _ _ _ => trivial
  rw [wp_bind]
  refine wp_mono (wp_and (held_reserved hl 2 s h) hroom) (fun _ u hu => ?_) fun _ _ hu => hu.1
  dsimp only
  split_ifs with hin
  · exact Keeps.bind (held_edit hl _) (fun _ => .pure addr) u hu.1
  · refine wp_check (fun _ => ?_) hu.1
    have hgap : wp (takeGap c.slot newLen) (fun a _ => PAGE ∣ a ∧ a + newLen ≤ MMAP_END ∧
        Unmapped a (a + newLen) (descAt (s.spaces c.slot).vmas)) (fun _ _ => True) u := by
      rw [← bind_pure (takeGap c.slot newLen)]
      exact wp_takeGap hu.2 hn (fun a w hw _ h₂ h₃ hno => ⟨h₃, h₂, hw.vmas ▸ hw.fine.unmapped hno⟩)
        fun _ _ _ => trivial
    rw [wp_bind]
    refine wp_mono (wp_and (held_takeGap hl u hu.1) hgap) (fun a w hw => ?_) fun _ _ hw => hw.1
    obtain ⟨hheld, hda, hlim, hun⟩ := hw
    have hout : a + oldLen ≤ addr ∨ addr + oldLen ≤ a := by
      by_contra hcon
      have hx := hun (max a addr) (Nat.le_max_left a addr) (by omega)
      rw [hdesc (max a addr) (by omega) (by omega)] at hx
      exact absurd hx (by simp)
    refine Keeps.bind (held_edit hl _) (fun _ => .bind (held_edit hl _) fun _ =>
      .bind (.modify fun t hu => ?_) fun _ => .pure a) w hheld
    obtain ⟨lost, ht⟩ := hu
    obtain ⟨more, ht⟩ := ht.movePages hr (Mm.apart_out ha ho hend hda (by omega) hout)
    exact ⟨more + lost, by rwa [add_assoc]⟩

/-- **A request keeps the counts.** -/
theorem request_holds (h : s.Holds live X Y) (hw : (s.spaces c.slot).Well) (hr : c.root ∈ live)
    (hl : c.slot < MAX_PROCS) : Held live X Y (q.run c s).2 := by
  have hs := Held.of h
  have hend : ∀ {α : Type} {x : Call α},
      wp x (fun _ => Held live X Y) (fun _ => Held live X Y) s → Held live X Y (answer x s).2 :=
    fun hx => (answer_spec hx).elim (fun ⟨_, _, hu⟩ => hu) fun hu => hu.2
  cases q with
  | mmap addr len prot flags obj ino pgoff => exact hend (held_mmapFull hr hl s hs)
  | munmap addr len => exact hend ((wp_map _ _).mpr (held_munmap hr hl s hs))
  | mprotect addr len prot => exact hend ((wp_map _ _).mpr (held_mprotect hr hl s hs))
  | mremap addr oldLen newLen flags =>
      refine hend ?_
      unfold mremap
      refine wp_check (fun hc => wp_need (fun o ho => wp_need (fun n hn => wp_need (fun e he =>
        wp_check (fun hlim => ?_) hs) hs) hs) hs) hs
      have hod := pageUp_dvd ho
      have hnd := pageUp_dvd hn
      obtain rfl := pageUp_eq ho
      obtain rfl := pageUp_eq hn
      obtain rfl := checkedAdd_eq he
      split_ifs
      · exact hs
      · exact Keeps.bind (held_munmap hr hl) (fun _ => .pure addr) s hs
      · refine wp_need (fun c' hc' => ?_) hs
        obtain rfl := Option.some.inj hc'
        exact held_grow hs hw hr hl (Nat.dvd_of_mod_eq_zero hc.1) hod hnd (by omega) hlim
  | addRegion start stop prot =>
      have hres := h.reserve hl 1
      change Held live X Y (addRegion c.slot start stop prot s).2
      unfold addRegion
      rcases hu : s.reserve c.slot 1 with ⟨- | -, u⟩ <;> rw [hu] at hres
      · exact .of hres
      · dsimp only
        split_ifs
        · exact .of hres
        · exact .of (hres.edit hl fun vs => add vs start stop prot)
  | addRegionOver start stop prot =>
      have hres := h.reserve hl 2
      change Held live X Y (addRegionOver c.slot start stop prot s)
      unfold addRegionOver
      split_ifs
      · exact hs
      · rcases hu : s.reserve c.slot 2 with ⟨- | -, u⟩ <;> rw [hu] at hres
        · exact .of hres
        · exact .of ((hres.edit hl _).edit hl _)

end Counts

end Requests

/-! ### What each turn keeps -/

section Turns

variable {s t : Mm} {c : Cur} {live : Finset Nat} {X Y : Multiset Nat} {l addr : Nat}
  {access : Access}

theorem pts_page (id pg : Nat) (alloc : Bool) (s : Mm) : (s.page id pg alloc).2.pts = s.pts := by
  unfold Mm.page
  by_cases hid : s.HasObj id
  · rw [if_pos hid]
    dsimp only
    split_ifs
    · rfl
    · cases (s.objs id).page[pg]? with
      | some f => rfl
      | none =>
          dsimp only
          split <;> rfl
    · cases (s.objs id).page[pg]? <;> rfl
  · rw [if_neg hid]

/-- **A fault keeps the counts**, up to the reading of a file. -/
theorem faultBegin_holds (h : s.Holds live X Y) (hr : c.root ∈ live)
    (hf : Fresh s c.root addr) : (s.faultBegin (some c) addr access).2.Holds live X Y := by
  unfold Mm.faultBegin
  dsimp only
  cases find (s.spaces c.slot).vmas addr with
  | none => exact h
  | some v =>
      dsimp only
      split_ifs with h₁ h₂ h₃ h₄ h₅
      · exact h
      · unfold Mm.faultMapped
        cases hc : s.toCopy c.root (pageOf addr) v.prot access with
        | none => exact h.protectPages hr _ _ rfl
        | some f =>
            obtain ⟨e, he⟩ := Option.isSome_iff_exists.mp h₂
            -- a page of an object is not copied
            have hown : e.own = {f} := by
              unfold Mm.toCopy at hc
              split_ifs at hc
              obtain ⟨htr, hcount⟩ := Option.filter_eq_some_iff.mp hc
              rw [Pt.translateUser, he] at htr
              have hfr : e.frame = f := by
                simp only [Bool.false_and, Bool.not_false, Bool.and_true] at htr
                split at htr
                · exact Option.some.inj htr
                · exact absurd htr (by simp)
              have hshared : e.flags.isShared = false := by
                by_contra hcon
                have hone := hf e he (Bool.not_eq_false _ ▸ hcon)
                rw [hfr] at hone
                have := of_decide_eq_true hcount
                omega
              rw [Pte.own, hshared, hfr]
              rfl
            exact h.copyPage hr he hown rfl
      · have hnone := Pt.isMapped_eq_false.mp (Bool.not_eq_true _ ▸ h₂)
        have hp := h.page v.obj (v.page (pageOf addr)) true
        have hpts := pts_page v.obj (v.page (pageOf addr)) true s
        unfold Mm.faultShared
        rcases hq : s.page v.obj (v.page (pageOf addr)) true with ⟨- | f, u⟩ <;>
          rw [hq] at hp hpts
        · exact hp
        · -- nothing was mapped there, and the page of an object is the object's
          have hown : (⟨f, (PageFlags.userProt v.prot).shared⟩ : Pte).own = 0 := rfl
          have hat : (u.pts c.root).ownAt (vpn (pageOf addr)) = 0 := by
            rw [hpts, Pt.ownAt, hnone, Option.elim_none]
          rw [← zero_add Y, ← hown] at hp
          obtain ⟨h₁, h₂⟩ := hp.mapIn hr (pageOf addr)
          rw [hat, zero_add] at h₁
          rw [hown, zero_add] at h₂
          cases hm : (u.mapIn c.root (pageOf addr)
            ⟨f, (PageFlags.userProt v.prot).shared⟩).1 with
          | true => exact h₁ hm
          | false => exact h₂ hm
      · exact h
      · exact h.mapZeroed hr (Pt.isMapped_eq_false.mp (Bool.not_eq_true _ ▸ h₂)) rfl
      · exact h

theorem ObjCall.holds (q : ObjCall) (h : s.Holds live X Y) : (q.run s).Holds live X Y := by
  cases q with
  | create name => exact h.create name
  | createAnon size => exact h.createAnon size
  | openNamed name => exact h.openNamed name
  | unlink name => exact h.unlink name
  | truncate id size => exact h.truncate id size
  | page id pg alloc => exact h.page id pg alloc
  | fdRef id delta => exact h.fdRef id delta

theorem ObjCall.spaces (q : ObjCall) (s : Mm) : (q.run s).spaces = s.spaces := by
  cases q with
  | page id pg alloc => rw [run, Mm.spaces_page]
  | create name => rw [run, Objects.State.spaces_create]
  | createAnon size => rw [run, Objects.State.spaces_createAnon]
  | openNamed name => rw [run, Objects.State.spaces_openNamed]
  | unlink name => rw [run, Objects.State.spaces_unlink]
  | truncate id size => rw [run, Objects.State.spaces_truncate]
  | fdRef id delta => rw [run, Objects.State.spaces_fdRef]

theorem spaces_createUser (s : Mm) : s.createUser.2.spaces = s.spaces := by
  unfold Mm.createUser
  split <;> rfl

theorem spaces_cloneUser (r : Nat) (s : Mm) : (s.cloneUser r).2.spaces = s.spaces := by
  unfold Mm.cloneUser
  split <;> rfl

theorem spaces_release (l : Nat) (s : Mm) :
    (∀ m, m ≠ l → (release l s).spaces m = s.spaces m) ∧ (release l s).spaces l = .empty :=
  ⟨(vmas_release l s).1, Mm.spaces_setSpace_self⟩

theorem well_cloneSpace {src dst : Nat} (h : (s.spaces src).Well) :
    ((cloneSpace src dst s).spaces dst).Well := by
  have hempty : Space.Well { Space.empty with hint := (s.spaces src).hint } :=
    ⟨fine_nil, Nat.zero_le _, h.hint⟩
  rw [cloneSpace]
  simp only
  split_ifs
  · rwa [Mm.spaces_setSpace_self]
  · split
    · rwa [Mm.spaces_setSpace_self]
    · rw [Mm.spaces_objRefs, Mm.spaces_setSpace_self]
      exact ⟨h.fine, h.room, h.hint⟩

end Turns

/-! ### Every state -/

/-- The spaces that slots own and the faults that read a file are in order. -/
structure Placed (σ : State) : Prop where
  roots : ∀ l r, σ.roots l = some r → l < MAX_PROCS ∧ r ∈ σ.live
  once : ∀ l m r, σ.roots l = some r → σ.roots m = some r → l = m
  lands : ∀ x ∈ σ.landings, σ.roots x.cur.slot = some x.cur.root

/-- What holds in every state. -/
structure Inv (σ : State) : Prop where
  holds : ∃ X Y, σ.mm.Holds σ.live (σ.inHand + X) Y
  well : ∀ l, (σ.mm.spaces l).Well
  empty : ∀ l, σ.roots l = none → (σ.mm.spaces l).array = 0
  placed : Placed σ

section Keeping

variable {σ τ : State} {mm : Mm} {c : Cur}

theorem inv_boot (n : Nat) (reserved : Nat → Bool) : Inv (.boot n reserved) where
  holds := by
    refine ⟨0, 0, ?_, fun _ _ => rfl⟩
    have hobjs : ∑ i ∈ Finset.range (MAX_OBJS + 1), ((Mm.boot (.boot n reserved)).objs i).frames =
        0 := Finset.sum_eq_zero fun _ _ => Mm.frames_empty
    have harrays : ∑ l ∈ Finset.range MAX_PROCS, ((Mm.boot (.boot n reserved)).spaces l).array =
        0 := Finset.sum_eq_zero fun _ _ => rfl
    have halone : (Mm.boot (.boot n reserved)).alone ∅ = 0 := by
      rw [Mm.alone, Finset.sum_empty, hobjs, harrays, add_zero, add_zero]
    have hrefs : (Mm.boot (.boot n reserved)).leafRefs ∅ = 0 := Finset.sum_empty
    have hhand : ((State.boot n reserved).inHand : Multiset Nat) = 0 := rfl
    rw [State.boot, halone, hrefs, ← State.boot, hhand, add_zero, add_zero]
    exact Accounted.boot n reserved
  well _ := ⟨fine_nil, Nat.zero_le _, (by decide : PAGE ∣ MMAP_BASE)⟩
  empty _ _ := rfl
  placed := ⟨nofun, nofun, nofun⟩

theorem Inv.memory (h : Inv σ) (hs : mm.spaces = σ.mm.spaces)
    (hm : ∀ {X Y}, σ.mm.Holds σ.live X Y → mm.Holds σ.live X Y) : Inv { σ with mm := mm } where
  holds := by
    obtain ⟨X, Y, hh⟩ := h.holds
    exact ⟨X, Y, hm hh⟩
  well := hs ▸ h.well
  empty := hs ▸ h.empty
  placed := ⟨h.placed.roots, h.placed.once, h.placed.lands⟩

theorem Inv.enter {r : Option Nat × Mm} (h : Inv σ) (hs : r.2.spaces = σ.mm.spaces)
    (hm : ∀ {X Y}, σ.mm.Holds σ.live X Y →
      (∀ root, r.1 = some root → r.2.Holds (insert root σ.live) X Y) ∧
        (r.1 = none → ∃ lost, r.2.Holds σ.live (lost + X) Y)) : Inv (σ.enter r) where
  holds := by
    obtain ⟨X, Y, hh⟩ := h.holds
    obtain ⟨h₁, h₂⟩ := hm hh
    rcases r with ⟨- | root, u⟩
    · obtain ⟨lost, hl⟩ := h₂ rfl
      exact ⟨lost + X, Y, by rwa [add_left_comm] at hl⟩
    · exact ⟨X, Y, h₁ root rfl⟩
  well := hs ▸ h.well
  empty := hs ▸ h.empty
  placed := by
    refine ⟨fun l r' hr => ⟨(h.placed.roots l r' hr).1, ?_⟩, h.placed.once, h.placed.lands⟩
    have hmem := (h.placed.roots l r' hr).2
    rcases r with ⟨- | root, u⟩
    · exact hmem
    · exact Finset.mem_insert_of_mem hmem

/-- The owners change at slot `l`, in whose space no fault is on its way. -/
theorem Placed.owners {x : Option Nat} {l : Nat} {live : Finset Nat} (h : Placed σ)
    (hl : ∀ y ∈ σ.landings, y.cur.slot ≠ l)
    (hlive : ∀ m r, m ≠ l → σ.roots m = some r → r ∈ live ∧ x ≠ some r)
    (hx : ∀ r ∈ x, l < MAX_PROCS ∧ r ∈ live) :
    Placed { σ with mm := mm, live := live, roots := Function.update σ.roots l x } where
  roots m r hr := by
    by_cases e : m = l
    · subst e
      exact hx r (by simpa using hr)
    · simp only [Function.update_of_ne e] at hr
      exact ⟨(h.roots m r hr).1, (hlive m r e hr).1⟩
  once m k r hm hk := by
    by_cases e : m = l <;> by_cases e' : k = l
    · rw [e, e']
    · subst e
      simp only [Function.update_self, Function.update_of_ne e'] at hm hk
      exact absurd hm (hlive k r e' hk).2
    · subst e'
      simp only [Function.update_self, Function.update_of_ne e] at hm hk
      exact absurd hk (hlive m r e hm).2
    · simp only [Function.update_of_ne e, Function.update_of_ne e'] at hm hk
      exact h.once m k r hm hk
  lands y hy := by
    have hne : y.cur.slot ≠ l := hl y hy
    simp only [Function.update_of_ne hne]
    exact h.lands y hy

/-- The table of slot `l` changes, and whose it is. -/
theorem Inv.change {l : Nat} {x : Option Nat} {live : Finset Nat} (h : Inv σ)
    (hh : ∃ X Y, mm.Holds live (σ.inHand + X) Y) (hw : (mm.spaces l).Well)
    (hx : x = none → (mm.spaces l).array = 0) (hm : ∀ m, m ≠ l → mm.spaces m = σ.mm.spaces m)
    (hp : Placed { σ with mm := mm, live := live, roots := Function.update σ.roots l x }) :
    Inv { σ with mm := mm, live := live, roots := Function.update σ.roots l x } where
  holds := hh
  well m := by
    by_cases e : m = l
    · exact e ▸ hw
    · exact (hm m e).symm ▸ h.well m
  empty m hn := by
    by_cases e : m = l
    · subst e
      exact hx ((Function.update_self m _ _).symm.trans hn)
    · exact (congrArg Space.array (hm m e)).trans
        (h.empty m ((Function.update_of_ne e _ _).symm.trans hn))
  placed := hp

theorem hand_split (pre post : List Landing) (x : Landing) (ks : List Nat) :
    (((pre ++ x :: post).flatMap (·.frames) ++ ks : List Nat) : Multiset Nat) =
      x.frames + (((pre ++ post).flatMap (·.frames) ++ ks : List Nat) : Multiset Nat) := by
  simp only [List.flatMap_append, List.flatMap_cons, ← Multiset.coe_add]
  abel

theorem Inv.attach {l r : Nat} (h : Inv σ) (src : Option Nat) (hl : l < MAX_PROCS)
    (hn : σ.roots l = none) (hr : r ∈ σ.live) (hnew : ∀ m, σ.roots m ≠ some r) :
    Inv { σ with
      mm := src.elim σ.mm fun m => cloneSpace m l σ.mm
      roots := Function.update σ.roots l (some r) } := by
  obtain ⟨X, Y, hh⟩ := h.holds
  have hp := h.placed
  have hplaced := @Placed.owners σ (src.elim σ.mm fun m => cloneSpace m l σ.mm) (some r) l
    σ.live hp
    (fun y hy e => by
      have hy := hp.lands y hy
      rw [e, hn] at hy
      exact absurd hy nofun)
    (fun m r' _ hm => ⟨(hp.roots m r' hm).2, fun e => hnew m (Option.some.inj e ▸ hm)⟩)
    (fun r' hr' => by
      obtain rfl : r = r' := Option.some.inj hr'
      exact ⟨hl, hr⟩)
  cases src with
  | none => exact h.change ⟨X, Y, hh⟩ (h.well l) (by simp) (fun _ _ => rfl) hplaced
  | some k =>
      exact h.change ⟨X, Y, hh.cloneSpace hl (h.empty l hn)⟩ (well_cloneSpace (h.well k))
        (by simp) (fun _ => spaces_cloneSpace) hplaced

theorem Inv.reap {l r : Nat} (h : Inv σ) (hr : σ.roots l = some r)
    (hx : ∀ x ∈ σ.landings, x.cur.slot ≠ l) :
    Inv { σ with
      mm := release l (σ.mm.freeSpace r)
      live := σ.live.erase r
      roots := Function.update σ.roots l none } := by
  obtain ⟨X, Y, hh⟩ := h.holds
  have hp := h.placed
  obtain ⟨hlt, hlive⟩ := hp.roots l r hr
  obtain ⟨hothers, hself⟩ := spaces_release l (σ.mm.freeSpace r)
  refine h.change ⟨X, Y, (hh.freeSpace hlive).release hlt⟩ ?_
    (fun _ => congrArg Space.array hself) hothers (hp.owners hx (fun m r' hne hm => ?_) nofun)
  · rw [hself]
    exact ⟨fine_nil, Nat.zero_le _, by decide⟩
  · exact ⟨Finset.mem_erase.mpr ⟨fun e => hne (hp.once m l r (e ▸ hm) hr),
      (hp.roots m r' hm).2⟩, nofun⟩

theorem Inv.request {l r : Nat} {q : Request} (h : Inv σ) (hq : q.Admitted)
    (hr : σ.roots l = some r) : Inv { σ with mm := (q.run ⟨l, r⟩ σ.mm).2 } := by
  obtain ⟨X, Y, hh⟩ := h.holds
  have hp := h.placed
  obtain ⟨hlt, hlive⟩ := hp.roots l r hr
  obtain ⟨lost, hend⟩ := @request_holds σ.mm ⟨l, r⟩ q _ _ _ hh (h.well l) hlive hlt
  obtain ⟨f, hnow⟩ := @request_now σ.mm ⟨l, r⟩ q hq (h.well l)
  have hroots : Function.update σ.roots l (some r) = σ.roots := by
    rw [← hr, Function.update_eq_self]
  have hinv := h.change ⟨X, lost + Y, hend⟩ hnow.well (x := some r) nofun hnow.others (by
    rw [hroots]
    exact ⟨hp.roots, hp.once, hp.lands⟩)
  rwa [hroots] at hinv

theorem Inv.discard {l r : Nat} (h : Inv σ) (addr len : Nat) (hr : σ.roots l = some r) :
    Inv { σ with mm := (answer (Vm.discard (some ⟨l, r⟩) addr len) σ.mm).2 } := by
  have hk : wp (Vm.discard (some ⟨l, r⟩) addr len) (fun _ t => Inv { σ with mm := t })
      (fun _ t => Inv { σ with mm := t }) σ.mm := by
    unfold Vm.discard
    refine wp_check (fun _ => wp_need (fun len _ => wp_ite.mpr ⟨fun _ => h, fun _ =>
      wp_need (fun c' hc => ?_) h⟩) h) h
    obtain rfl := Option.some.inj hc
    exact h.memory rfl fun hh => hh.unmap (h.placed.roots l r hr).2 _ _
  exact (answer_spec hk).elim (fun ⟨_, _, hu⟩ => hu) fun hu => hu.2

theorem Inv.read {l r : Nat} (h : Inv σ) (file : Nat → Nat → Option Vm.Bytes) (addr n : Nat)
    (v : Vma) (hr : σ.roots l = some r) :
    Inv (σ.took ⟨l, r⟩ addr v (σ.mm.faultRead file (pageOf addr) v n)) := by
  obtain ⟨X, Y, hh⟩ := h.holds
  have hp := h.placed
  have hread := @Mm.Holds.faultRead _ _ _ _ file (pageOf addr) n v hh
  have hsp := Mm.spaces_faultRead file (pageOf addr) v n σ.mm
  generalize σ.mm.faultRead file (pageOf addr) v n = x at hread hsp ⊢
  obtain ⟨- | fs, u⟩ := x
  · rw [Option.elim_none, zero_add] at hread
    exact ⟨⟨X, Y, hread⟩, hsp ▸ h.well, hsp ▸ h.empty, hp.roots, hp.once, hp.lands⟩
  · refine ⟨⟨X, Y, ?_⟩, hsp ▸ h.well, hsp ▸ h.empty, hp.roots, hp.once, fun x hx => ?_⟩
    · have hhand := hand_split [] σ.landings ⟨⟨l, r⟩, addr, v, fs⟩ σ.kernel
      rw [Option.elim_some, ← add_assoc] at hread
      exact hhand ▸ hread
    · obtain rfl | hx := List.mem_cons.mp hx
      · exact hr
      · exact hp.lands x hx

theorem Inv.land {x : Landing} {pre post : List Landing} (h : Inv σ)
    (hx : σ.landings = pre ++ x :: post) :
    Inv { σ with
      mm := (σ.mm.faultEnd x.cur x.addr x.vma x.frames).2
      landings := pre ++ post } := by
  obtain ⟨X, Y, hh⟩ := h.holds
  have hp := h.placed
  have hxr : σ.roots x.cur.slot = some x.cur.root :=
    hp.lands x (hx ▸ List.mem_append_right pre List.mem_cons_self)
  have hhand := hand_split pre post x σ.kernel
  rw [State.inHand, hx, hhand, add_assoc] at hh
  obtain ⟨lost, hend⟩ := @Mm.Holds.faultEnd _ _ _ _ x.cur x.addr x.vma x.frames hh
    (hp.roots _ _ hxr).2
  have hsp := Mm.spaces_faultEnd x.cur x.addr x.vma x.frames σ.mm
  refine ⟨⟨lost + X, Y, ?_⟩, hsp ▸ h.well, hsp ▸ h.empty, hp.roots, hp.once,
    fun y hy => hp.lands y ?_⟩
  · rw [add_left_comm] at hend
    exact hend
  · rw [hx]
    exact (List.mem_append.mp hy).elim (fun hy => List.mem_append_left _ hy)
      fun hy => List.mem_append_right _ (List.mem_cons_of_mem _ hy)

theorem Inv.take {f : Nat} {fr : Frames} (h : Inv σ)
    (ha : σ.mm.frames.allocFrame = (some f, fr)) :
    Inv { σ with mm := σ.mm.setFrames fr, kernel := f :: σ.kernel } := by
  obtain ⟨X, Y, hh⟩ := h.holds
  refine ⟨⟨X, Y, ?_⟩, h.well, h.empty, h.placed.roots, h.placed.once, h.placed.lands⟩
  have htake := hh.take ha
  have hhand : (State.inHand { σ with mm := σ.mm.setFrames fr, kernel := f :: σ.kernel } :
      Multiset Nat) = f ::ₘ (σ.inHand : Multiset Nat) :=
    Multiset.coe_eq_coe.mpr List.perm_middle
  rw [hhand, Multiset.cons_add]
  exact htake

theorem Inv.give {f : Nat} {fs : List Nat} (h : Inv σ) (hk : σ.kernel = f :: fs) :
    Inv { σ with mm := σ.mm.setFrames (σ.mm.frames.freeFrame f), kernel := fs } := by
  obtain ⟨X, Y, hh⟩ := h.holds
  refine ⟨⟨X, Y, ?_⟩, h.well, h.empty, h.placed.roots, h.placed.once, h.placed.lands⟩
  have hhand : (σ.inHand : Multiset Nat) =
      f ::ₘ ((σ.landings.flatMap (·.frames) ++ fs : List Nat) : Multiset Nat) := by
    rw [State.inHand, hk]
    exact Multiset.coe_eq_coe.mpr List.perm_middle
  rw [hhand, Multiset.cons_add] at hh
  exact hh.give

/-- **One turn keeps what holds.** -/
theorem Inv.step (h : Inv σ) (hs : Step σ τ) : Inv τ := by
  have hp := h.placed
  cases hs with
  | create =>
      refine h.enter (spaces_createUser _) fun hh => ?_
      exact ⟨fun root hr => (hh.createUser.1 root hr).2.2, hh.createUser.2⟩
  | fork hr hc =>
      refine h.enter (spaces_cloneUser _ _) fun hh => ?_
      obtain ⟨h₁, h₂⟩ := hh.cloneUser (hp.roots _ _ hr).2 hc
      exact ⟨fun root hr => (h₁ root hr).2, h₂⟩
  | @drop r hr hl =>
      obtain ⟨X, Y, hh⟩ := h.holds
      refine ⟨⟨X, Y, hh.freeSpace hr⟩, h.well, h.empty, ?_, hp.once, hp.lands⟩
      exact fun l r' hr' => ⟨(hp.roots l r' hr').1,
        Finset.mem_erase.mpr ⟨fun e => hl l (e ▸ hr'), (hp.roots l r' hr').2⟩⟩
  | attach src hl hn hr hnew => exact h.attach src hl hn hr hnew
  | reap hr hx => exact h.reap hr hx
  | request q hq hr => exact h.request hq hr
  | discard addr len hr => exact h.discard addr len hr
  | place prot hr hn => exact h.memory (Mm.spaces_mapZeroed ..) fun hh => hh.mapZeroed hr hn rfl
  | protect start stop prot hr => exact h.memory rfl fun hh => hh.protectPages hr start stop rfl
  | fault addr access hr hf =>
      exact h.memory (Mm.spaces_faultBegin _ _ _ _) fun hh =>
        faultBegin_holds hh (hp.roots _ _ hr).2 hf
  | read file addr n v hr => exact h.read file addr n v hr
  | land hx => exact h.land hx
  | object q => exact h.memory (q.spaces _) fun hh => q.holds hh
  | write f b => exact h.memory rfl fun hh => hh.setMem f b
  | take ha => exact h.take ha
  | give hk => exact h.give hk

end Keeping

variable {n : Nat} {reserved : Nat → Bool} {σ : State}

theorem Reached.inv (h : Reached n reserved σ) : Inv σ := by
  induction h with
  | refl => exact inv_boot n reserved
  | tail _ hs ih => exact ih.step hs

/-- **The frames are accounted for**, in every state: a frame that one holder has to itself (a root
or a table of pages, a page or the vector of an object, the array of a table of regions, a frame in
hand) is in use, with one reference and no other holder; a frame has no fewer references than there
are private pages that lead to it; and the next frame handed out is held by nobody. -/
theorem frames_accounted (h : Reached n reserved σ) :
    (∀ f ∈ σ.mm.alone σ.live + σ.inHand, σ.mm.frames.Owned f ∧ σ.mm.frames.used f = true ∧
      σ.mm.frames.refs f = 1 ∧ (σ.mm.alone σ.live + σ.inHand).count f = 1 ∧
        f ∉ σ.mm.leafRefs σ.live) ∧
    (∀ f, σ.mm.frames.Owned f →
      (σ.mm.leafRefs σ.live).count f ≤ σ.mm.frames.refs f ∧
        (σ.mm.frames.used f = true ↔ σ.mm.frames.refs f ≠ 0)) ∧
    ∀ f fr, σ.mm.frames.allocFrame = (some f, fr) →
      f ∉ σ.mm.alone σ.live + σ.inHand ∧ f ∉ σ.mm.leafRefs σ.live := by
  obtain ⟨X, Y, hacc, -⟩ := h.inv.holds
  rw [← add_assoc] at hacc
  have hrefs : ∀ f, σ.mm.frames.Owned f → σ.mm.frames.refs f =
      (σ.mm.alone σ.live + σ.inHand).count f + X.count f +
        ((σ.mm.leafRefs σ.live).count f + Y.count f) := fun f hf => by
    rw [hacc.refs f hf, Multiset.count_add, Multiset.count_add (s := σ.mm.leafRefs σ.live)]
  refine ⟨fun f hf => ?_, fun f hf => ⟨?_, hacc.used f hf⟩, fun f fr ha => ?_⟩
  · obtain ⟨hown, hone, hnot⟩ := hacc.alone f (Multiset.mem_add.mpr (.inl hf))
    have hpos := Multiset.count_pos.mpr hf
    have hzero := Multiset.count_eq_zero.mpr hnot
    have hcount := hrefs f hown
    rw [Multiset.count_add] at hone hzero
    exact ⟨hown, (hacc.used f hown).mpr (by omega), by omega, by omega,
      fun hin => hnot (Multiset.mem_add.mpr (.inl hin))⟩
  · have := hrefs f hf
    omega
  · obtain ⟨hfree, -⟩ := Frames.allocFrame_some ha
    obtain ⟨hlt, hunused⟩ : f < σ.mm.frames.n ∧ σ.mm.frames.used f = false := by
      simpa [Frames.isFree] using hfree
    have hown : σ.mm.frames.Owned f := ⟨hlt, by
      by_contra hcon
      exact absurd ((hacc.kept f (Bool.not_eq_false _ ▸ hcon)).symm.trans hunused) (by decide)⟩
    have hnone : σ.mm.frames.refs f = 0 := by
      by_contra hcon
      exact absurd (((hacc.used f hown).mpr hcon).symm.trans hunused) (by decide)
    have := hrefs f hown
    exact ⟨Multiset.count_eq_zero.mp (by omega), Multiset.count_eq_zero.mp (by omega)⟩

/-- A space is made, becomes that of slot 0, gets a region and, when it is written, a page. -/
def made : State :=
  (State.boot 16 fun _ => false).enter (Mm.boot (.boot 16 fun _ => false)).createUser

def owned : State := { made with roots := Function.update made.roots 0 (some 0) }

def given : State := { owned with
  mm := ((Request.addRegion MMAP_BASE (MMAP_BASE + PAGE) 3).run ⟨0, 0⟩ owned.mm).2 }

def written : State :=
  { given with mm := (given.mm.faultBegin (some ⟨0, 0⟩) MMAP_BASE .write).2 }

theorem frames_accounted_written : ∃ σ, Reached 16 (fun _ => false) σ ∧
    (σ.mm.leafRefs σ.live).card = 1 ∧
      ∀ f ∈ σ.mm.alone σ.live + σ.inHand, σ.mm.frames.refs f = 1 := by
  have hnone : ((given.mm.pts 0).leaf[vpn (pageOf MMAP_BASE)]?).isNone = true := by decide +kernel
  have h₁ : Reached 16 (fun _ => false) made := .single .create
  have h₂ : Step made owned := .attach none (by decide) rfl (by decide +kernel) nofun
  have h₃ : Step owned given :=
    .request _ ⟨by decide, by decide, by decide⟩ rfl
  have h₄ : Step given written := by
    refine .fault MMAP_BASE .write rfl fun e he => ?_
    rw [he] at hnone
    exact absurd hnone nofun
  have hr : Reached 16 (fun _ => false) written := ((h₁.tail h₂).tail h₃).tail h₄
  have hcard : (written.mm.leafRefs written.live).card = 1 := by decide +kernel
  generalize written = σ at hr hcard
  exact ⟨σ, hr, hcard, fun f hf => ((frames_accounted hr).1 f hf).2.2.1⟩

end Pulsar.Memory

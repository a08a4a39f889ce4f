import Mathlib.Data.List.Perm.Basic
import Mathlib.Data.List.Nodup
import Pulsar.Wl.Session

/-!
# The objects of a program, from what it asks for

An object lives from the request that makes it to the `delete_id` that ends its name.  A callback of
a surface is asked for, is due when the surface is committed, and is answered when the scene was
presented: with `done`, then `delete_id`.  The books of a session follow the requests alone, and say
what is to be sent.

* `Books.Sound.act`: what is kept by every deed that gives new objects new names.
-/

namespace Pulsar.Wl

/-- What a request does to the objects. -/
inductive Deed where
  | makes (id : Nat) (k : Kind)
  | asks (surface cb : Nat)
  | commits (surface : Nat)
  | ends (id : Nat)
  | syncs (cb : Nat)
  | shows
  | other

/-- The events about the end of objects. -/
inductive Note where
  | done (cb : Nat)
  | deleted (id : Nat)
  deriving DecidableEq

/-! ### Requests as deeds -/

/-- An argument of a message. -/
def Message.arg (m : Message) (k : Nat) : Nat := (m.args.getD k 0).toNat

/-- What a request makes, for those that take the new object as their first argument. -/
def makerOf : Kind → Nat → Option Kind
  | .display, 1 => some .registry
  | .compositor, 0 => some .surface
  | .compositor, 1 => some .region
  | .shm, 0 => some .pool
  | .pool, 0 => some .buffer
  | .subcomp, 1 => some .subsurf
  | .wmbase, 1 => some .positioner
  | .wmbase, 2 => some .xdgsurf
  | .xdgsurf, 1 => some .toplevel
  | .xdgsurf, 2 => some .popup
  | .seat, 0 => some .pointer
  | .seat, 1 => some .keyboard
  | .ddm, 0 => some .dsource
  | .ddm, 1 => some .ddevice
  | .decomgr, 0 => some .deco
  | _, _ => none

/-- The request that ends an object. -/
def enderOf : Kind → Option Nat
  | .region | .buffer | .surface | .subcomp | .subsurf | .wmbase | .positioner | .xdgsurf | .popup
  | .toplevel | .keyboard | .deco => some 0
  | .pool | .pointer | .dsource => some 1
  | .ddevice => some 2
  | _ => none

/-- `bind`: the name of the global, the text of its interface, a version and the new object. -/
def Message.binds (m : Message) : Deed :=
  match GLOBALS[m.arg 0 - 1]? with
  | some g => .makes (m.arg (3 + (m.arg 1 + 3) % 2 ^ 32 / 4)) g.2.1
  | none => .other

/-- What a message does that is for an object of type `k`. -/
def Message.deed (m : Message) (k : Kind) : Deed :=
  if enderOf k = some m.op then .ends m.obj
  else
    match k, m.op with
    | .display, 0 => .syncs (m.arg 0)
    | .registry, 0 => m.binds
    | .surface, 3 => .asks m.obj (m.arg 0)
    | .surface, 6 => .commits m.obj
    | _, _ => (makerOf k m.op).elim .other (.makes (m.arg 0))

/-! ### The books -/

/-- The objects that live and all that were made; the callbacks that are asked for, each with its
surface, those that are due and all that were called for; and what is sent. -/
structure Books where
  live : List (Nat × Kind)
  made : List Nat
  asked : List (Nat × Nat)
  due : List Nat
  called : List Nat
  sent : List Note

namespace Books

variable (b : Books)

/-- At first there is the display. -/
def start : Books := ⟨[(1, .display)], [1], [], [], [], []⟩

def ids : List Nat := b.live.map Prod.fst

def kind (id : Nat) : Option Kind := (b.live.find? fun p => p.1 = id).map Prod.snd

/-- The callbacks that are asked for of a surface. -/
def cbsOf (surface : Nat) : List Nat := (b.asked.filter fun p => p.1 = surface).map Prod.snd

/-- A callback that is due is answered, and its name ends. -/
def answer (cb : Nat) : Books :=
  { b with live := b.live.filter fun p => p.1 ≠ cb, due := b.due.erase cb
           sent := b.sent ++ [.done cb, .deleted cb] }

def act : Deed → Books
  | .makes id k => { b with live := (id, k) :: b.live, made := id :: b.made }
  | .asks surface cb =>
    { b with live := (cb, .callback) :: b.live, made := cb :: b.made
             asked := b.asked ++ [(surface, cb)] }
  | .commits surface =>
    { b with asked := b.asked.filter fun p => p.1 ≠ surface, due := b.due ++ b.cbsOf surface
             called := b.called ++ b.cbsOf surface }
  | .ends id =>
    { b with live := b.live.filter fun p => p.1 ≠ id, asked := b.asked.filter fun p => p.1 ≠ id
             sent := b.sent ++ [.deleted id] }
  | .syncs cb =>
    { b with made := cb :: b.made, called := b.called ++ [cb]
             sent := b.sent ++ [.done cb, .deleted cb] }
  | .shows => b.due.foldl answer b
  | .other => b

/-- What a step of the translator does to the objects. -/
def deed : Act → Deed
  | .message _ m => (b.kind m.obj).elim .other m.deed
  | .present _ => .shows
  | .receive _ | .input _ _ | .layout _ | .flush => .other

/-! ### What the books keep -/

/-- The names that were deleted. -/
def deletedOf (l : List Note) : List Nat := l.filterMap fun
  | .deleted id => some id
  | .done _ => none

/-- The callbacks that are done. -/
def donesOf (l : List Note) : List Nat := l.filterMap fun
  | .done cb => some cb
  | .deleted _ => none

/-- Each callback that is done is deleted next. -/
def Paired : List Note → Prop
  | [] => True
  | .done cb :: l => l.head? = some (.deleted cb) ∧ Paired l
  | .deleted _ :: l => Paired l

theorem Paired.append {l l' : List Note} (h : Paired l) (h' : Paired l') : Paired (l ++ l') := by
  induction l with
  | nil => exact h'
  | cons n l ih =>
      cases n with
      | deleted id => exact ih h
      | done cb =>
          refine ⟨?_, ih h.2⟩
          change (l ++ l').head? = _
          rw [List.head?_append, h.1, Option.some_or]

/-- What holds of books whose objects have names of their own. -/
structure Sound (b : Books) : Prop where
  ids : b.ids.Nodup
  made : b.made.Perm (b.ids ++ deletedOf b.sent)
  asked : ∀ p ∈ b.asked, (p.1, .surface) ∈ b.live
  cbs : ∀ cb ∈ b.due ++ b.asked.map Prod.snd, (cb, .callback) ∈ b.live
  once : (b.due ++ b.asked.map Prod.snd).Nodup
  called : b.called.Perm (donesOf b.sent ++ b.due)
  paired : Paired b.sent

/-- A deed of a program that gives each object a name of its own. -/
def Proper (b : Books) : Deed → Prop
  | .makes id _ => id ∉ b.ids
  | .asks surface cb => cb ∉ b.ids ∧ (surface, .surface) ∈ b.live
  | .ends id => ∃ k, k ≠ .callback ∧ (id, k) ∈ b.live
  | .commits _ | .syncs _ | .shows | .other => True

variable {b}

theorem mem_ids {id : Nat} {k : Kind} (h : (id, k) ∈ b.live) : id ∈ b.ids := List.mem_map_of_mem h

theorem Sound.start : Sound start where
  ids := List.nodup_singleton _
  made := .refl _
  asked _ h := absurd h List.not_mem_nil
  cbs _ h := absurd h List.not_mem_nil
  once := List.nodup_nil
  called := .refl _
  paired := trivial

namespace Sound

variable (h : b.Sound)

include h

theorem kind_eq {id : Nat} {k k' : Kind} (hk : (id, k) ∈ b.live) (hk' : (id, k') ∈ b.live) :
    k = k' := congrArg Prod.snd (List.inj_on_of_nodup_map h.ids hk hk' rfl)

theorem ids_perm {id : Nat} (hid : id ∈ b.ids) :
    b.ids.Perm (id :: (b.live.filter fun p => p.1 ≠ id).map Prod.fst) := by
  have hf : (b.live.filter fun p => p.1 ≠ id).map Prod.fst = b.ids.erase id := by
    rw [h.ids.erase_eq_filter, Books.ids, List.filter_map]
    congr 1
    exact List.filter_congr fun p _ => by simp [bne, Function.comp, beq_eq_decide]
  rw [hf]
  exact List.perm_cons_erase hid

theorem makes {id : Nat} (k : Kind) (hid : id ∉ b.ids) : (b.act (.makes id k)).Sound where
  ids := List.nodup_cons.mpr ⟨hid, h.ids⟩
  made := h.made.cons id
  asked p hp := List.mem_cons_of_mem _ (h.asked p hp)
  cbs cb hcb := List.mem_cons_of_mem _ (h.cbs cb hcb)
  once := h.once
  called := h.called
  paired := h.paired

theorem asks {surface cb : Nat} (hcb : cb ∉ b.ids) (hs : (surface, .surface) ∈ b.live) :
    (b.act (.asks surface cb)).Sound where
  ids := List.nodup_cons.mpr ⟨hcb, h.ids⟩
  made := h.made.cons cb
  asked p hp := by
    obtain hp | hp := List.mem_append.mp hp
    · exact List.mem_cons_of_mem _ (h.asked p hp)
    · rw [List.mem_singleton.mp hp]
      exact List.mem_cons_of_mem _ hs
  cbs c hc := by
    simp only [act, List.map_append, ← List.append_assoc] at hc
    obtain hc | hc := List.mem_append.mp hc
    · exact List.mem_cons_of_mem _ (h.cbs c hc)
    · rw [List.mem_singleton.mp hc]
      exact List.mem_cons_self ..
  once := by
    simp only [act, List.map_append, ← List.append_assoc]
    refine List.nodup_append'.mpr ⟨h.once, List.nodup_singleton _, ?_⟩
    exact List.disjoint_singleton.mpr fun hc => hcb (mem_ids (h.cbs cb hc))
  called := h.called
  paired := h.paired

theorem commits (surface : Nat) : (b.act (.commits surface)).Sound := by
  have hp : (b.due ++ b.asked.map Prod.snd).Perm ((b.due ++ b.cbsOf surface) ++
      (b.asked.filter fun p => p.1 ≠ surface).map Prod.snd) := by
    rw [List.append_assoc, cbsOf, ← List.map_append]
    refine ((List.Perm.map _ ?_).append_left _)
    simpa using (List.filter_append_perm (fun p : Nat × Nat => decide (p.1 = surface)) b.asked).symm
  exact {
    ids := h.ids
    made := h.made
    asked := fun p hp => h.asked p (List.mem_of_mem_filter hp)
    cbs := fun cb hcb => h.cbs cb (hp.mem_iff.mpr hcb)
    once := hp.nodup_iff.mp h.once
    called := by
      simp only [act]
      rw [← List.append_assoc]
      exact h.called.append_right _
    paired := h.paired }

theorem ends {id : Nat} {k : Kind} (hk : k ≠ .callback) (hid : (id, k) ∈ b.live) :
    (b.act (.ends id)).Sound where
  ids := (List.filter_sublist.map _).nodup h.ids
  made := by
    refine h.made.trans (((h.ids_perm (mem_ids hid)).append_right _).trans ?_)
    simp only [act, deletedOf, List.filterMap_append, ← List.append_assoc, List.cons_append]
    exact (List.perm_append_singleton _ _).symm
  asked p hp := by
    obtain ⟨hp, hne⟩ := List.mem_filter.mp hp
    exact List.mem_filter.mpr ⟨h.asked p hp, hne⟩
  cbs cb hcb := by
    have hcb : cb ∈ b.due ++ b.asked.map Prod.snd := by
      refine (List.Sublist.append_left ?_ _).subset hcb
      exact List.filter_sublist.map _
    refine List.mem_filter.mpr ⟨h.cbs cb hcb, decide_eq_true fun he => hk ?_⟩
    exact h.kind_eq hid (he ▸ h.cbs cb hcb)
  once := (List.Sublist.append_left (List.filter_sublist.map _) _).nodup h.once
  called := by
    simpa only [act, donesOf, List.filterMap_append, List.filterMap_cons_none, List.filterMap_nil,
      List.append_nil] using h.called
  paired := h.paired.append trivial

theorem syncs {cb : Nat} : (b.act (.syncs cb)).Sound where
  ids := h.ids
  made := by
    simp only [act, deletedOf, List.filterMap_append, ← List.append_assoc]
    exact (h.made.cons cb).trans (List.perm_append_singleton _ _).symm
  asked := h.asked
  cbs := h.cbs
  once := h.once
  called := by
    simp only [act, donesOf, List.filterMap_append]
    refine (h.called.append_right _).trans ?_
    rw [List.append_assoc, List.append_assoc]
    exact List.perm_append_comm.append_left _
  paired := h.paired.append ⟨rfl, trivial⟩

theorem answer {cb : Nat} (hcb : cb ∈ b.due) : (b.answer cb).Sound := by
  have hl := h.cbs cb (List.mem_append_left _ hcb)
  have hs : ((b.due.erase cb) ++ b.asked.map Prod.snd).Sublist (b.due ++ b.asked.map Prod.snd) :=
    List.Sublist.append_right List.erase_sublist _
  exact {
    ids := (List.filter_sublist.map _).nodup h.ids
    made := by
      refine h.made.trans (((h.ids_perm (mem_ids hl)).append_right _).trans ?_)
      simp only [Books.answer, deletedOf, List.filterMap_append, ← List.append_assoc,
        List.cons_append]
      exact (List.perm_append_singleton _ _).symm
    asked := fun p hp => by
      refine List.mem_filter.mpr ⟨h.asked p hp, decide_eq_true fun he => ?_⟩
      exact absurd (h.kind_eq (he ▸ h.asked p hp) hl) (by decide)
    cbs := fun c hc => by
      refine List.mem_filter.mpr ⟨h.cbs c (hs.subset hc), decide_eq_true fun he => ?_⟩
      have hd := (List.nodup_append'.mp h.once)
      obtain hc | hc := List.mem_append.mp hc
      · exact (hd.1.mem_erase_iff.mp hc).1 he
      · exact hd.2.2 hcb (he ▸ hc)
    once := hs.nodup h.once
    called := by
      simp only [Books.answer, donesOf, List.filterMap_append]
      refine h.called.trans ?_
      rw [List.append_assoc]
      exact (List.perm_cons_erase hcb).append_left _
    paired := h.paired.append ⟨rfl, trivial⟩ }

theorem answers (l : List Nat) (hl : l.Nodup) (hd : ∀ cb ∈ l, cb ∈ b.due) :
    (l.foldl Books.answer b).Sound := by
  induction l generalizing b with
  | nil => exact h
  | cons cb l ih =>
      obtain ⟨hcb, hl⟩ := List.nodup_cons.mp hl
      refine ih (h.answer (hd cb (List.mem_cons_self ..))) hl fun c hc => ?_
      refine (List.mem_erase_of_ne ?_).mpr (hd c (List.mem_cons_of_mem _ hc))
      exact fun he => hcb (he ▸ hc)

/-- **The books stay sound** under every deed that gives a new object a new name. -/
theorem act {d : Deed} (hd : b.Proper d) : (b.act d).Sound := by
  cases d with
  | makes id k => exact h.makes k hd
  | asks surface cb => exact h.asks hd.1 hd.2
  | commits surface => exact h.commits surface
  | ends id =>
      obtain ⟨k, hk, hid⟩ := hd
      exact h.ends hk hid
  | syncs cb => exact h.syncs
  | shows => exact h.answers _ (List.nodup_append'.mp h.once).1 fun _ hcb => hcb
  | other => exact h

end Sound

end Books

end Pulsar.Wl

import Pulsar.Lib.Count
import Pulsar.Wl.Books
import Pulsar.Wl.Frame

/-!
# Frame callbacks and the table of objects (`wlclient/main.c`)

The table follows the books: its entries are the objects that live, and the events about their end
are those that the books send.  A callback passes through the sixteen places of its surface and the
sixty-four of the scene; where they are full it is dropped, or answered before its frame.

* `callbacks_answered`: while they suffice, and each object that is made has a name of its own and
  an entry, every session keeps to its books.
-/

namespace Pulsar.Wl

open Prog

/-- What an event says about the end of objects. -/
def noteOf (e : Event) : Option Note :=
  match e.iface, e.op, e.args with
  | .callback, 0, _ => some (.done e.obj)
  | .display, 1, [.word id] => some (.deleted id)
  | _, _, _ => none

namespace Client

variable (s : Client)

/-- The object that an entry has; a pool without a name has none. -/
def entry (i : Nat) : Option (Nat × Kind) :=
  if (s.objs i).type = .free ∨ (s.objs i).id = 0 then none
  else some ((s.objs i).id, (s.objs i).type)

/-- The objects of the table. -/
def table : List (Nat × Kind) := (List.range MAXOBJ).filterMap s.entry

/-- What was sent about the end of objects. -/
def notes : List Note := (s.out.log.filterMap noteOf).reverse

variable {s} {i id : Nat} {k : Kind}

theorem entry_some : s.entry i = some (id, k) ↔
    (s.objs i).type = k ∧ (s.objs i).id = id ∧ k ≠ .free ∧ id ≠ 0 := by
  unfold entry
  split
  · rename_i h
    refine ⟨fun h => absurd h (by simp), fun ⟨ht, hid, hk, h0⟩ => ?_⟩
    exact absurd h (not_or.mpr ⟨ht ▸ hk, hid ▸ h0⟩)
  · rename_i h
    obtain ⟨ht, h0⟩ := not_or.mp h
    rw [Option.some.injEq, Prod.mk.injEq]
    exact ⟨fun ⟨hid, hk⟩ => ⟨hk, hid, hk ▸ ht, hid ▸ h0⟩, fun ⟨hk, hid, _⟩ => ⟨hid, hk⟩⟩

theorem freeObj_some (h : s.freeObj = some i) : i < MAXOBJ ∧ (s.objs i).type = .free := by
  rw [freeObj] at h
  have hi := List.mem_of_find?_eq_some h
  have hp := List.find?_some h
  exact ⟨List.mem_range.mp hi, of_decide_eq_true hp⟩

theorem find_some (h : s.find id = some i) :
    i < MAXOBJ ∧ s.entry i = some (id, (s.objs i).type) := by
  rw [find] at h
  obtain ⟨h0, h⟩ := (Option.ite_none_left_eq_some ..).mp h
  have hi := List.mem_of_find?_eq_some h
  have hp := List.find?_some h
  obtain ⟨ht, hid⟩ := of_decide_eq_true hp
  exact ⟨List.mem_range.mp hi, entry_some.mpr ⟨rfl, hid, ht, h0⟩⟩

end Client

/-! ### The books and the table -/

/-- The table and the events are as the books say. -/
structure Told (s : Client) (b : Books) : Prop where
  notes : s.notes = b.sent
  table : s.table.Perm b.live
  orphan : ∀ i, (s.objs i).type = .pool → (s.objs i).pool.dead = true → (s.objs i).id = 0
  cbs : ∀ i < MAXOBJ, ∀ id, s.entry i = some (id, .surface) → (s.objs i).srf.cbs = b.cbsOf id

/-- What the books say of an entry. -/
def Obj.face (o : Obj) : Nat × Kind × List Nat × Bool := (o.id, o.type, o.srf.cbs, o.pool.dead)

/-- The changes that the books do not see. -/
def plain : Frame where
  obj := .keeping Obj.face
  dev := .any
  shm := .any
  zcount := .any
  pend := .none
  top := .any
  sends k := k ≠ .callback ∧ k ≠ .display

theorem noteOf_none {e : Event} (h : plain.sends e.iface) : noteOf e = none := by
  unfold noteOf
  split
  · rename_i hi _
    exact absurd hi h.1
  · rename_i hi _ _
    exact absurd hi h.2
  · rfl

section

variable {s t : Client} {b : Books}

theorem plain_face (h : plain.Kept s t) (i : Nat) : (t.objs i).face = (s.objs i).face := h.objs i

theorem plain_entry (h : plain.Kept s t) : t.entry = s.entry := by
  funext i
  have hf := plain_face h i
  simp only [Obj.face, Prod.mk.injEq] at hf
  simp only [Client.entry, hf.1, hf.2.1]

theorem plain_freeObj (h : plain.Kept s t) : t.freeObj = s.freeObj := by
  unfold Client.freeObj
  congr 1
  funext i
  have hf := plain_face h i
  simp only [Obj.face, Prod.mk.injEq] at hf
  rw [hf.2.1]

theorem plain_notes (h : plain.Kept s t) : t.notes = s.notes := by
  obtain ⟨l, hl, hs⟩ := h.log
  have hn : l.filterMap noteOf = [] :=
    List.filterMap_eq_nil_iff.mpr fun e he => noteOf_none (hs e he)
  rw [Client.notes, hl, List.filterMap_append, hn]
  rfl

theorem Told.kept (h : Told s b) (hk : plain.Kept s t) : Told t b where
  notes := (plain_notes hk).trans h.notes
  table := by
    rw [Client.table, plain_entry hk]
    exact h.table
  orphan i := by
    have hf := plain_face hk i
    simp only [Obj.face, Prod.mk.injEq] at hf
    rw [hf.1, hf.2.1, hf.2.2.2]
    exact h.orphan i
  cbs i hi id := by
    have hf := plain_face hk i
    simp only [Obj.face, Prod.mk.injEq] at hf
    rw [plain_entry hk, hf.2.2.1]
    exact h.cbs i hi id

/-- The table, the events and the callbacks of the scene are as the books say. -/
def At (b : Books) (s : Client) : Prop := Told s b ∧ s.scene.pendCbs = b.due

theorem At.kept (h : At b s) (hk : plain.Kept s t) : At b t :=
  ⟨h.1.kept hk, Eq.trans hk.pend h.2⟩

variable {α β : Type} {x : W α} {f : α → W β} {Q : β → Client → Prop}

/-- A program that the books do not see keeps to them. -/
theorem At.along (h : At b s) (hx : plain.Moves x) :
    wp x (fun _ => At b) (fun _ _ => True) s :=
  wp_mono (hx.along s) (fun _ _ hk => h.kept hk) fun _ _ _ => trivial

/-- What is run after a program that the books do not see. -/
theorem plain_then (hx : plain.Moves x)
    (hf : ∀ a t, plain.Kept s t → wp (f a) Q (fun _ _ => True) t) :
    wp (x >>= f) Q (fun _ _ => True) s :=
  (wp_bind _ _).mpr (wp_mono (hx.along s) (fun a t hk => hf a t hk) fun _ _ _ => trivial)

/-- What is run before a program that the books do not see. -/
theorem then_plain (hx : wp x (fun _ => At b) (fun _ _ => True) s) (hf : ∀ a, plain.Moves (f a)) :
    wp (x >>= f) (fun _ => At b) (fun _ _ => True) s :=
  (wp_bind _ _).mpr (wp_mono hx (fun _ _ ht => ht.along (hf _)) fun _ _ _ => trivial)

end

theorem plain_inputs : plain.Inputs where
  dismiss _ _ := rfl
  dev _ _ := trivial
  sends k hk := by
    simp only [List.mem_cons, List.not_mem_nil, or_false] at hk
    rcases hk with rfl | rfl | rfl | rfl | rfl | rfl <;> exact ⟨by decide, by decide⟩

theorem plain_pools : plain.Pools where
  shm _ _ := trivial
  size _ _ _ := rfl
  fd _ _ _ _ := rfl
  gone _ := rfl
  refs _ _ := rfl
  buf _ _ _ := rfl

theorem plain_keyboard : plain.sends .keyboard := ⟨by decide, by decide⟩

theorem plain_globals : ∀ k ∈ [Kind.shm, .seat, .output, .decomgr], plain.sends k := by
  simp only [List.mem_cons, List.not_mem_nil, or_false]
  rintro k (rfl | rfl | rfl | rfl) <;> exact ⟨by decide, by decide⟩

theorem plain_commits : plain.Commits where
  contents _ _ _ _ := rfl
  map _ _ _ := rfl
  attached _ := rfl
  damage _ := rfl
  release := ⟨by decide, by decide⟩

/-! ### Steps of the books -/

section

variable {s t : Client} {b c : Books} {i id : Nat} {k : Kind}

/-- The entries other than `i` have the same face. -/
def Elsewhere (i : Nat) (s t : Client) : Prop := ∀ j, j ≠ i → (t.objs j).face = (s.objs j).face

theorem Elsewhere.entry (h : Elsewhere i s t) {j : Nat} (hj : j ≠ i) : t.entry j = s.entry j := by
  have hf := h j hj
  simp only [Obj.face, Prod.mk.injEq] at hf
  simp only [Client.entry, hf.1, hf.2.1]

theorem table_change (hi : i < MAXOBJ) (hf : Elsewhere i s t) :
    ((s.entry i).toList ++ t.table).Perm ((t.entry i).toList ++ s.table) := by
  unfold Client.table
  exact filterMap_range_change hi fun j hj => hf.entry hj

theorem Told.entry_inj (h : Told s b) (hb : b.ids.Nodup) {j : Nat} {k' : Kind} (hi : i < MAXOBJ)
    (hj : j < MAXOBJ) (he : s.entry i = some (id, k)) (he' : s.entry j = some (id, k')) : i = j := by
  have hids : (s.table.map Prod.fst).Nodup := (h.table.map _).nodup_iff.mpr hb
  unfold Client.table at hids
  exact filterMap_range_inj hi hj hids he he' rfl

theorem Told.makes (h : Told s b) (hb : b.Sound) (hi : i < MAXOBJ) (hfree : s.entry i = none)
    (hk : k ≠ .free) (h0 : id ≠ 0) (hid : id ∉ b.ids) (hf : Elsewhere i s t)
    (hface : (t.objs i).face = (id, k, [], false)) (hn : t.notes = s.notes) :
    Told t (b.act (.makes id k)) := by
  simp only [Obj.face, Prod.mk.injEq] at hface
  obtain ⟨hid', hk', hcbs, hdead⟩ := hface
  have he : t.entry i = some (id, k) := Client.entry_some.mpr ⟨hk', hid', hk, h0⟩
  refine ⟨hn.trans h.notes, ?_, fun j => ?_, fun j hj id' hs => ?_⟩
  · have hp := table_change hi hf
    rw [hfree, he, Option.toList_none, List.nil_append, Option.toList_some,
      List.singleton_append] at hp
    exact hp.trans (h.table.cons _)
  · by_cases hj : j = i
    · rw [hj, hdead]
      exact fun _ h => absurd h (by decide)
    · have hfj := hf j hj
      simp only [Obj.face, Prod.mk.injEq] at hfj
      rw [hfj.1, hfj.2.1, hfj.2.2.2]
      exact h.orphan j
  · by_cases hji : j = i
    · rw [hji, he, Option.some.injEq, Prod.mk.injEq] at hs
      have hnil : b.cbsOf id = [] := by
        refine List.map_eq_nil_iff.mpr (List.filter_eq_nil_iff.mpr fun p hp hpe => hid ?_)
        exact of_decide_eq_true hpe ▸ Books.mem_ids (hb.asked p hp)
      rw [hji, hcbs, ← hs.1]
      exact hnil.symm
    · have hfj := hf j hji
      simp only [Obj.face, Prod.mk.injEq] at hfj
      rw [hf.entry hji] at hs
      rw [hfj.2.2.1]
      exact h.cbs j hj id' hs

theorem Told.removes (h : Told s b) (hb : b.ids.Nodup) (hi : i < MAXOBJ) (he : s.entry i = some (id, k))
    (hf : Elsewhere i s t) (he' : t.entry i = none)
    (hdead : (t.objs i).type = .pool → (t.objs i).id = 0)
    (hn : t.notes = c.sent) (hlive : c.live = b.live.filter fun p => p.1 ≠ id)
    (hcbs : ∀ id', id' ≠ id → c.cbsOf id' = b.cbsOf id') : Told t c := by
  refine ⟨hn, ?_, fun j => ?_, fun j hj id' hs => ?_⟩
  · have hp := table_change hi hf
    rw [he, he', Option.toList_none, List.nil_append, Option.toList_some,
      List.singleton_append] at hp
    have hperm : ((id, k) :: t.table).Perm b.live := hp.trans h.table
    have hnd := (hperm.map Prod.fst).nodup_iff.mpr hb
    have hfil := hperm.filter fun p => p.1 ≠ id
    rw [List.filter_cons_of_neg (by simp), List.filter_eq_self.mpr] at hfil
    · exact hlive ▸ hfil
    · refine fun p hp => decide_eq_true fun hpe => ?_
      exact (List.nodup_cons.mp hnd).1 (List.mem_map.mpr ⟨p, hp, hpe⟩)
  · by_cases hj : j = i
    · exact fun ht _ => hj ▸ hdead (hj ▸ ht)
    · have hfj := hf j hj
      simp only [Obj.face, Prod.mk.injEq] at hfj
      rw [hfj.1, hfj.2.1, hfj.2.2.2]
      exact h.orphan j
  · have hji : j ≠ i := fun hji => absurd hs (by rw [hji, he']; simp)
    have hfj := hf j hji
    simp only [Obj.face, Prod.mk.injEq] at hfj
    rw [hf.entry hji] at hs
    have hne : id' ≠ id := fun hie => hji (h.entry_inj hb hj hi hs (hie ▸ he))
    rw [hfj.2.2.1, hcbs id' hne]
    exact h.cbs j hj id' hs

/-- What the callbacks of one surface are, when no other surface changes. -/
theorem Told.surfaces (h : Told s b) (hb : b.ids.Nodup) (hi : i < MAXOBJ)
    (he : s.entry i = some (id, .surface)) (hf : Elsewhere i s t) {cbs : List Nat}
    (hface : (t.objs i).face = ((s.objs i).id, (s.objs i).type, cbs, (s.objs i).pool.dead))
    (hn : t.notes = s.notes) (hlive : c.live = b.live) (hsent : c.sent = b.sent)
    (hcbs : c.cbsOf id = cbs) (hne : ∀ id', id' ≠ id → c.cbsOf id' = b.cbsOf id') : Told t c := by
  have hent : t.entry = s.entry := by
    funext j
    by_cases hj : j = i
    · simp only [Obj.face, Prod.mk.injEq] at hface
      rw [hj]
      simp only [Client.entry, hface.1, hface.2.1]
    · exact hf.entry hj
  simp only [Obj.face, Prod.mk.injEq] at hface
  refine ⟨hn.trans (h.notes.trans hsent.symm), ?_, fun j => ?_, fun j hj id' hs => ?_⟩
  · rw [Client.table, hent, hlive]
    exact h.table
  · by_cases hj : j = i
    · rw [hj, hface.1, hface.2.1, hface.2.2.2]
      exact h.orphan i
    · have hfj := hf j hj
      simp only [Obj.face, Prod.mk.injEq] at hfj
      rw [hfj.1, hfj.2.1, hfj.2.2.2]
      exact h.orphan j
  · rw [hent] at hs
    by_cases hji : j = i
    · rw [hji] at hs ⊢
      rw [he, Option.some.injEq, Prod.mk.injEq] at hs
      rw [hface.2.2.1, ← hs.1, hcbs]
    · have hfj := hf j hji
      simp only [Obj.face, Prod.mk.injEq] at hfj
      have hid : id' ≠ id := fun hie => hji (h.entry_inj hb hj hi hs (hie ▸ he))
      rw [hfj.2.2.1, hne id' hid]
      exact h.cbs j hj id' hs

/-- A callback has a place with its surface. -/
theorem Told.asks {cb : Nat} (h : Told s (b.act (.makes cb .callback)))
    (hb : (b.act (.makes cb .callback)).Sound) (hi : i < MAXOBJ)
    (he : s.entry i = some (id, .surface)) (hf : Elsewhere i s t)
    (hface : (t.objs i).face =
      ((s.objs i).id, (s.objs i).type, (s.objs i).srf.cbs ++ [cb], (s.objs i).pool.dead))
    (hn : t.notes = s.notes) : Told t (b.act (.asks id cb)) := by
  refine h.surfaces hb.ids hi he hf hface hn rfl rfl ?_ fun id' hne => ?_
  · rw [h.cbs i hi id he]
    simp [Books.cbsOf, Books.act]
  · simp [Books.cbsOf, Books.act, hne.symm]

/-- The callbacks of a surface leave it. -/
theorem Told.commits (h : Told s b) (hb : b.Sound) (hi : i < MAXOBJ)
    (he : s.entry i = some (id, .surface)) (hf : Elsewhere i s t)
    (hface : (t.objs i).face = ((s.objs i).id, (s.objs i).type, [], (s.objs i).pool.dead))
    (hn : t.notes = s.notes) : Told t (b.act (.commits id)) := by
  refine h.surfaces hb.ids hi he hf hface hn rfl rfl ?_ fun id' hne => ?_
  · simp [Books.cbsOf, Books.act]
  · refine congrArg (List.map Prod.snd) ?_
    rw [Books.act, List.filter_filter]
    refine List.filter_congr fun p _ => ?_
    by_cases hp : p.1 = id' <;> simp [hp, hne]

/-- An entry without a name changes to another one. -/
theorem Told.unnamed (h : Told s b) (he : s.entry i = none) (hf : Elsewhere i s t)
    (hfree : (t.objs i).type = .free) (hn : t.notes = s.notes) : Told t b := by
  have he' : t.entry i = none := if_pos (.inl hfree)
  have hent : t.entry = s.entry := by
    funext j
    by_cases hj : j = i
    · rw [hj, he, he']
    · exact hf.entry hj
  refine ⟨hn.trans h.notes, ?_, fun j ht => ?_, fun j hj id' hs => ?_⟩
  · rw [Client.table, hent]
    exact h.table
  · have hj : j ≠ i := fun hj => absurd (hfree.symm.trans (hj ▸ ht)) (by decide)
    have hfj := hf j hj
    simp only [Obj.face, Prod.mk.injEq] at hfj
    rw [hfj.1, hfj.2.2.2]
    exact h.orphan j (hfj.2.1 ▸ ht)
  · have hji : j ≠ i := fun hji => absurd hs (by rw [hji, he']; simp)
    have hfj := hf j hji
    simp only [Obj.face, Prod.mk.injEq] at hfj
    rw [hfj.2.2.1]
    exact h.cbs j hj id' (hent ▸ hs)

end

/-! ### Programs that make and end objects -/

section

variable {s : Client} {b c : Books} {i id : Nat} {k : Kind}

theorem setObj_elsewhere (s : Client) (i : Nat) (f : Obj → Obj) : Elsewhere i s (s.setObj i f) :=
  fun _ hj => congrArg Obj.face (Client.setObj_of_ne hj f)

theorem ev_wp (iface : Kind) (o op : Nat) (args : List Arg) :
    wp (ev iface o op args) (fun _ t => t.objs = s.objs ∧ t.scene = s.scene ∧
      t.out.log = ⟨iface, o, op, args⟩ :: s.out.log ∧ t.inp = s.inp) (fun _ _ => True) s := by
  refine (wp_bind _ _).mpr (wp_ite.mpr ⟨fun _ => trivial, fun _ => ?_⟩)
  exact ⟨rfl, rfl, rfl, rfl⟩

/-- A new object with a name of its own, and an entry for it. -/
structure Ready (b : Books) (id : Nat) (s : Client) : Prop where
  kept : At b s
  sound : b.Sound
  named : id ≠ 0
  fresh : id ∉ b.ids
  room : s.freeObj.isSome = true

theorem Ready.along {t : Client} (h : Ready b id s) (hk : plain.Kept s t) : Ready b id t where
  kept := h.kept.kept hk
  sound := h.sound
  named := h.named
  fresh := h.fresh
  room := by
    rw [plain_freeObj hk]
    exact h.room

theorem add_wp {Q : Option Nat → Client → Prop} {E : Stop → Client → Prop} (v : Nat)
    (h : ∀ j, s.freeObj = some j → Q (some j) (s.setObj j fun _ => Obj.new id k v))
    (h' : s.freeObj = none → Q none s) : wp (add id k v) Q E s := by
  unfold add
  rw [wp_bind, wp_get]
  cases hf : s.freeObj with
  | none => exact h' hf
  | some j =>
      rw [wp_bind, edit, wp_modify, wp_pure]
      exact h j hf

theorem Ready.added (h : Ready b id s) (hk : k ≠ .free) (v : Nat) :
    wp (add id k v) (fun _ t => At (b.act (.makes id k)) t ∧
      ∃ j, (s.objs j).type = .free ∧ Elsewhere j s t) (fun _ _ => True) s := by
  refine add_wp v ?_ ?_
  · intro j hj
    obtain ⟨hlt, hfree⟩ := Client.freeObj_some hj
    refine ⟨⟨?_, h.kept.2⟩, j, hfree, setObj_elsewhere _ _ _⟩
    refine h.kept.1.makes h.sound hlt (if_pos (.inl hfree)) hk h.named h.fresh
      (setObj_elsewhere _ _ _) ?_ rfl
    rw [Client.setObj_self]
    rfl
  · intro hn
    exact absurd h.room (by rw [hn]; decide)

/-- A program that the books do not see comes before. -/
theorem Ready.after {α β : Type} {x : W α} {f : α → W β} {Q : β → Client → Prop} (h : Ready b id s)
    (hx : plain.Moves x) (hf : ∀ a t, Ready b id t → wp (f a) Q (fun _ _ => True) t) :
    wp (x >>= f) Q (fun _ _ => True) s := plain_then hx fun a t ht => hf a t (h.along ht)

/-- The object is made, and a program that the books do not see comes next. -/
theorem Ready.adds {β : Type} {g : Option Nat → W β} (h : Ready b id s) (hk : k ≠ .free) (v : Nat)
    (hg : ∀ r, plain.Moves (g r)) :
    wp (add id k v >>= g) (fun _ => At (b.act (.makes id k))) (fun _ _ => True) s :=
  then_plain (wp_mono (h.added hk v) (fun _ _ ht => ht.1) fun _ _ _ => trivial) hg

/-- The books follow the entries and the events alone. -/
theorem Told.same {t : Client} (h : Told s b) (hobjs : t.objs = s.objs) (hn : t.notes = c.sent)
    (hlive : c.live = b.live) (hasked : c.asked = b.asked) : Told t c where
  notes := hn
  table := by
    unfold Client.table Client.entry
    rw [hobjs, hlive]
    exact h.table
  orphan := hobjs ▸ h.orphan
  cbs := by
    unfold Client.entry Books.cbsOf
    rw [hobjs, hasked]
    exact h.cbs

theorem notes_cons {t : Client} {e : Event} {n : Note} (he : noteOf e = some n)
    (hlog : t.out.log = e :: s.out.log) : t.notes = s.notes ++ [n] := by
  rw [Client.notes, hlog, List.filterMap_cons_some he, List.reverse_cons]
  rfl

/-- An event about the end of an object. -/
theorem Told.note {t : Client} (h : Told s b) {n : Note} {e : Event} (he : noteOf e = some n)
    (hobjs : t.objs = s.objs) (hlog : t.out.log = e :: s.out.log) :
    Told t { b with sent := b.sent ++ [n] } :=
  h.same hobjs ((notes_cons he hlog).trans (congrArg (· ++ [n]) h.notes)) rfl rfl

theorem freeEntry_wp (i : Nat) :
    wp (freeEntry i) (fun _ t => Elsewhere i s t ∧ (t.objs i).type = .free ∧
      t.notes = s.notes ++ [.deleted (s.objs i).id] ∧ t.scene = s.scene) (fun _ _ => True) s := by
  rw [freeEntry, obj, wp_bind, wp_bind, wp_get, wp_pure, wp_bind, edit, wp_modify]
  refine wp_mono (ev_wp _ _ _ _) (fun _ t ht => ?_) fun _ _ _ => trivial
  obtain ⟨hobjs, hscene, hlog, -⟩ := ht
  refine ⟨?_, ?_, (notes_cons rfl hlog).trans rfl, hscene⟩
  · rw [Elsewhere, hobjs]
    exact setObj_elsewhere s i _
  · rw [hobjs, Client.setObj_self]

/-- An entry whose object ends. -/
structure Ending (b : Books) (i id : Nat) (k : Kind) (s : Client) : Prop where
  kept : At b s
  sound : b.Sound
  lt : i < MAXOBJ
  entry : s.entry i = some (id, k)

theorem Ending.along {t : Client} (h : Ending b i id k s) (hk : plain.Kept s t) :
    Ending b i id k t where
  kept := h.kept.kept hk
  sound := h.sound
  lt := h.lt
  entry := by
    rw [plain_entry hk]
    exact h.entry

theorem Ending.ended {t : Client} (h : Ending b i id k s) (hf : Elsewhere i s t)
    (he : t.entry i = none) (hdead : (t.objs i).type = .pool → (t.objs i).id = 0)
    (hn : t.notes = s.notes ++ [.deleted id]) (hp : t.scene.pendCbs = s.scene.pendCbs) :
    At (b.act (.ends id)) t := by
  refine ⟨h.kept.1.removes h.sound.ids h.lt h.entry hf he hdead ?_ rfl fun id' hne => ?_, hp.trans h.kept.2⟩
  · exact hn.trans (congrArg (· ++ [Note.deleted id]) h.kept.1.notes)
  · refine congrArg (List.map Prod.snd) ?_
    rw [Books.act, List.filter_filter]
    refine List.filter_congr fun p _ => ?_
    by_cases hp : p.1 = id' <;> simp [hp, hne]

theorem Ending.freed (h : Ending b i id k s) :
    wp (freeEntry i) (fun _ => At (b.act (.ends id))) (fun _ _ => True) s := by
  obtain ⟨-, hid, -, -⟩ := Client.entry_some.mp h.entry
  refine wp_mono (freeEntry_wp i) (fun _ t ⟨hf, hfree, hn, hs⟩ => ?_) fun _ _ _ => trivial
  refine h.ended hf (if_pos (.inl hfree)) (fun ht => ?_) (hid ▸ hn) (congrArg Scene.pendCbs hs)
  exact absurd (hfree.symm.trans ht) (by decide)

/-- The pool of a buffer that ends may end with it. -/
theorem Ending.dropsPool (h : Ending b i id .buffer s) (p : Option Nat) :
    wp (dropPool p) (fun _ => Ending b i id .buffer) (fun _ _ => True) s := by
  cases p with
  | none => exact h
  | some p =>
      rw [dropPool, dropBuffer, obj, wp_bind, wp_bind, wp_get, wp_pure]
      refine wp_ite.mpr ⟨fun hpool => ?_, fun _ => h⟩
      refine plain_then (Frame.editPool fun _ => rfl) fun _ t ht => wp_ite.mpr ⟨fun hd => ?_, ?_⟩
      · refine plain_then (plain_pools.releasePool p) fun _ u hu => ?_
        have hface : (u.objs p).face = (s.objs p).face :=
          (plain_face hu p).trans (plain_face ht p)
        simp only [Obj.face, Prod.mk.injEq] at hface
        have hu' := (h.along ht).along hu
        have hid : (u.objs p).id = 0 := hu'.kept.1.orphan p (hface.2.1.trans hpool)
          (hface.2.2.2.trans hd.2)
        have hne : i ≠ p := by
          rintro rfl
          exact absurd ((Client.entry_some.mp h.entry).1.symm.trans hpool) (by decide)
        rw [edit, wp_modify]
        refine ⟨⟨hu'.kept.1.unnamed (if_pos (.inr hid)) (setObj_elsewhere u p _) ?_ rfl,
          hu'.kept.2⟩, h.sound, h.lt, ?_⟩
        · rw [Client.setObj_self]
        · rw [(setObj_elsewhere u p _).entry hne]
          exact hu'.entry
      · exact fun _ => h.along ht

/-- A pool that ends: without buffers at once, else only its name. -/
theorem Ending.endsPool (h : Ending b i id .pool s) :
    wp (destroyPool i) (fun _ => At (b.act (.ends id))) (fun _ _ => True) s := by
  obtain ⟨-, hid, -, -⟩ := Client.entry_some.mp h.entry
  rw [destroyPool, editPool, edit, wp_bind, wp_modify, obj, wp_bind, wp_bind, wp_get, wp_pure]
  have hs := setObj_elsewhere s i fun o => { o with pool.dead := true }
  refine wp_ite.mpr ⟨fun _ => ?_, fun _ => plain_then (plain_pools.releasePool i) fun _ u hu => ?_⟩
  · rw [orphanPool, obj, wp_bind, wp_bind, wp_get, wp_pure, wp_bind]
    refine wp_mono (ev_wp _ _ _ _) (fun _ t ht => ?_) fun _ _ _ => trivial
    obtain ⟨hobjs, hscene, hlog, -⟩ := ht
    rw [edit, wp_modify]
    have hid' : ((t.setObj i fun o => { o with id := 0 }).objs i).id = 0 := by
      rw [Client.setObj_self]
    refine h.ended (fun j hj => ?_) (if_pos (.inr hid')) (fun _ => hid') ?_
      (congrArg Scene.pendCbs hscene)
    · rw [setObj_elsewhere t i _ j hj, hobjs]
      exact hs j hj
    · refine (notes_cons (s := s) rfl hlog).trans ?_
      rw [Client.setObj_self, hid]
  · refine wp_mono (freeEntry_wp i) (fun _ t ht => ?_) fun _ _ _ => trivial
    obtain ⟨hf, hfree, hn, hsc⟩ := ht
    have hface := plain_face hu i
    simp only [Obj.face, Prod.mk.injEq, Client.setObj_self] at hface
    refine h.ended (fun j hj => ?_) (if_pos (.inl hfree)) (fun ht => ?_) ?_ ?_
    · exact (hf j hj).trans ((plain_face hu j).trans (hs j hj))
    · exact absurd (hfree.symm.trans ht) (by decide)
    · rw [hn, plain_notes hu, hface.1, hid]
      rfl
    · rw [hsc]
      exact hu.pend

theorem Ending.destroyed (h : Ending b i id k s) :
    wp (destroy i) (fun _ => At (b.act (.ends id))) (fun _ _ => True) s := by
  obtain ⟨hk, -⟩ := Client.entry_some.mp h.entry
  rw [destroy, obj, wp_bind, wp_bind, wp_get, wp_pure, hk]
  cases k with
  | pool => exact h.endsPool
  | buffer =>
      rw [destroyBuffer, obj, wp_bind, wp_bind, wp_get, wp_pure, wp_bind]
      exact wp_mono (h.dropsPool _) (fun _ _ ht => ht.freed) fun _ _ _ => trivial
  | surface =>
      refine plain_then (Frame.obj_bind fun _ => .pure _) fun o t ht => ?_
      refine plain_then (Frame.whenever fun _ => Frame.damageSurface i) fun _ u hu => ?_
      exact plain_then (Frame.editSrf fun _ => rfl) fun _ v hv => (((h.along ht).along hu).along hv).freed
  | popup =>
      exact plain_then (Frame.dropRole i fun _ => rfl) fun _ t ht => plain_then plain_inputs.kbRefocus
        fun _ u hu => ((h.along ht).along hu).freed
  | subsurf => exact plain_then (Frame.dropRole i fun _ => rfl) fun _ t ht => (h.along ht).freed
  | _ => exact h.freed

/-! ### Requests -/

/-- What the table and the places for callbacks must have room for. -/
def Books.Apt (b : Books) (room : Bool) : Deed → Prop
  | .makes id _ => id ≠ 0 ∧ id ∉ b.ids ∧ room = true
  | .asks surface cb => cb ≠ 0 ∧ cb ∉ b.ids ∧ room = true ∧ (b.cbsOf surface).length < 16
  | .commits surface => b.due.length + (b.cbsOf surface).length ≤ MAXPEND
  | .ends _ | .syncs _ | .shows | .other => True

variable {m : Message}

/-- A message in hand, for the object of an entry. -/
structure Serving (b : Books) (m : Message) (i : Nat) (k : Kind) (s : Client) : Prop where
  entry : Ending b i m.obj k s
  args : s.inp.args = m.args
  apt : b.Apt s.freeObj.isSome (m.deed k)

theorem arg_then {β : Type} {f : Nat → W β} {Q : β → Client → Prop} (n : Nat)
    (ha : s.inp.args = m.args.drop n)
    (hf : ∀ t, plain.Kept s t → t.inp.args = m.args.drop (n + 1) →
      wp (f (m.arg n)) Q (fun _ _ => True) t) :
    wp (aU32 >>= f) Q (fun _ _ => True) s := by
  rw [aU32, wp_bind, wp_bind, wp_get]
  cases hl : s.inp.args with
  | nil => trivial
  | cons w ws =>
      rw [wp_bind, wp_modify, wp_pure]
      rw [hl] at ha
      have hw : m.arg n = w.toNat := by
        rw [Message.arg, List.getD_eq_getElem?_getD, ← List.head?_drop, ← ha]
        rfl
      rw [← hw]
      refine hf _ { Frame.Kept.refl s with } ?_
      rw [← List.tail_drop, ← ha]
      rfl

theorem ev_plain {k : Kind} (h : k ≠ .callback) (h' : k ≠ .display) {o op : Nat} {args : List Arg} :
    plain.Moves (ev k o op args) := Frame.ev ⟨h, h'⟩

theorem becomeToplevel_plain (id xdg j : Nat) : plain.Moves (becomeToplevel id xdg j) :=
  Frame.obj_bind fun _ => .bind (.modify fun s => { Frame.Kept.refl s with top := trivial }) fun _ =>
    (Frame.editSrf fun _ => rfl).bind fun _ => plain_inputs.sendConfigure

theorem becomePopup_plain (id j p parent : Nat) : plain.Moves (becomePopup id j p parent) := by
  refine (Frame.nextZ fun _ _ => trivial).bind fun _ => (Frame.editSrf fun _ => rfl).bind fun _ => ?_
  exact Frame.obj_bind fun o => Frame.placePopup j _ (fun _ _ _ => rfl) plain_inputs

theorem str_then {β : Type} {f : List UInt8 → W β} {Q : β → Client → Prop} {n : Nat}
    (ha : s.inp.args = m.args.drop n)
    (hf : ∀ r t, plain.Kept s t → t.inp.args = m.args.drop (n + 1 + (m.arg n + 3) % 2 ^ 32 / 4) →
      wp (f r) Q (fun _ _ => True) t) :
    wp (aStr >>= f) Q (fun _ _ => True) s := by
  rw [aStr, wp_bind]
  refine arg_then n ha fun t ht hargs => ?_
  rw [wp_bind, wp_get]
  refine wp_ite.mpr ⟨fun h0 => hf [] t ht ?_, fun _ => wp_ite.mpr ⟨fun _ => trivial, fun _ => ?_⟩⟩
  · rw [hargs, h0]
    rfl
  · cases (wordBytes t.inp.args)[m.arg n - 1]? with
    | none => trivial
    | some c =>
        refine wp_ite.mpr ⟨fun _ => trivial, fun _ => ?_⟩
        rw [wp_bind, wp_modify, wp_pure]
        refine hf _ _ (ht.trans { Frame.Kept.refl t with }) ?_
        rw [hargs, List.drop_drop, Nat.mul_div_cancel _ (by decide)]

/-- There is a place in the scene for all callbacks of a list. -/
theorem pend_all (x : Ext) (l : List Nat) (h : s.scene.pendCbs.length + l.length ≤ MAXPEND) :
    wp (l.forM (pendCallback x))
      (fun _ t => t = { s with scene.pendCbs := s.scene.pendCbs ++ l }) (fun _ _ => True) s := by
  induction l generalizing s with
  | nil => simp
  | cons cb l ih =>
      have hlt : s.scene.pendCbs.length < MAXPEND := by
        rw [List.length_cons] at h
        omega
      change wp (pendCallback x cb >>= fun _ => l.forM (pendCallback x)) _ _ s
      rw [wp_bind, pendCallback, wp_bind, wp_get, if_pos hlt, wp_modify]
      refine wp_mono (ih ?_) (fun _ t ht => ?_) fun _ _ _ => trivial
      · simpa [Nat.add_assoc, Nat.add_comm 1] using h
      · simpa using ht

namespace Serving

theorem ends (h : Serving b m i k s) (hop : enderOf k = some m.op) :
    wp (destroy i) (fun _ => At (b.act (m.deed k))) (fun _ _ => True) s := by
  have hd : m.deed k = .ends m.obj := if_pos hop
  rw [hd]
  exact h.entry.destroyed

theorem other {x : W Unit} (h : Serving b m i k s) (hd : m.deed k = .other) (hx : plain.Moves x) :
    wp x (fun _ => At (b.act (m.deed k))) (fun _ _ => True) s := by
  rw [hd]
  exact h.entry.kept.along hx

/-- A request whose first argument is an object that it makes. -/
theorem making {f : Nat → W Unit} (h : Serving b m i k s) (k' : Kind)
    (hd : m.deed k = .makes (m.arg 0) k')
    (hf : ∀ t, Ready b (m.arg 0) t →
      wp (f (m.arg 0)) (fun _ => At (b.act (.makes (m.arg 0) k'))) (fun _ _ => True) t) :
    wp (aU32 >>= f) (fun _ => At (b.act (m.deed k))) (fun _ _ => True) s := by
  have hready : Ready b (m.arg 0) s := by
    have hapt := h.apt
    rw [hd] at hapt
    exact ⟨h.entry.kept, h.entry.sound, hapt.1, hapt.2.1, hapt.2.2⟩
  rw [hd]
  exact arg_then 0 h.args fun t ht _ => hf t (hready.along ht)

/-- A request that only makes an object. -/
theorem makesOnly {v : Nat} {k' : Kind} (h : Serving b m i k s)
    (hd : m.deed k = .makes (m.arg 0) k') (hk : k' ≠ .free) :
    wp (makes k' v) (fun _ => At (b.act (m.deed k))) (fun _ _ => True) s :=
  h.making k' hd fun _ ht => ht.adds hk v fun _ => .pure _

attribute [local simp] Message.deed enderOf makerOf

theorem region (h : Serving b m i .region s) :
    wp (regionRequest i m.op) (fun _ => At (b.act (m.deed .region))) (fun _ _ => True) s := by
  rcases hop : m.op with _ | _ | _ | op
  · exact h.ends (hop ▸ rfl)
  · exact h.other (by simp [hop]) (Frame.regionBox _ _ fun _ => rfl)
  · exact h.other (by simp [hop]) (Frame.regionBox _ _ fun _ => rfl)
  · exact h.other (by simp [hop]) (.pure _)

theorem compositor (h : Serving b m i .compositor s) (o : Obj) :
    wp (compositorRequest o m.op) (fun _ => At (b.act (m.deed .compositor))) (fun _ _ => True) s := by
  rcases hop : m.op with _ | _ | op
  · exact h.makesOnly (by simp [hop]) (by decide)
  · exact h.makesOnly (by simp [hop]) (by decide)
  · exact h.other (by simp [hop]) (.pure _)

theorem shm (h : Serving b m i .shm s) (x : Ext) (o : Obj) :
    wp (shmRequest x o m.op) (fun _ => At (b.act (m.deed .shm))) (fun _ _ => True) s := by
  rcases hop : m.op with _ | op
  · refine h.making .pool (by simp [hop]) fun t ht => ?_
    refine ht.after plain_pools.takeFd fun _ t ht => ht.after Frame.aI32 fun _ t ht => ?_
    refine ht.adds (by decide) 1 fun r => ?_
    cases r with
    | none => exact .throw _
    | some p =>
        exact plain_pools.makesPool ..
  · exact h.other (by simp [hop]) (.pure _)

theorem pool (h : Serving b m i .pool s) (x : Ext) (o : Obj) :
    wp (poolRequest x i o m.op) (fun _ => At (b.act (m.deed .pool))) (fun _ _ => True) s := by
  rcases hop : m.op with _ | _ | _ | op
  · refine h.making .buffer (by simp [hop]) fun t ht => ht.adds (by decide) 1 fun r => ?_
    cases r with
    | none => exact .throw _
    | some c =>
        exact plain_pools.makesBuffer ..
  · exact h.ends (hop ▸ rfl)
  · exact h.other (by simp [hop]) (plain_pools.resizePool x i o)
  · exact h.other (by simp [hop]) (.pure _)

theorem buffer (h : Serving b m i .buffer s) :
    wp (whenever (m.op = 0) (destroy i)) (fun _ => At (b.act (m.deed .buffer))) (fun _ _ => True)
      s := by
  refine wp_ite.mpr ⟨fun hop => h.ends (hop ▸ rfl), fun hop => ?_⟩
  exact h.other (by simp [Ne.symm hop]) (.pure _)

theorem subcomp (h : Serving b m i .subcomp s) (o : Obj) :
    wp (subcompRequest i o m.op) (fun _ => At (b.act (m.deed .subcomp))) (fun _ _ => True) s := by
  rcases hop : m.op with _ | _ | op
  · exact h.ends (hop ▸ rfl)
  · refine h.making .subsurf (by simp [hop]) fun t ht => ht.after Frame.aU32 fun sid t ht => ?_
    refine ht.after Frame.aU32 fun pid t ht => ?_
    rw [wp_bind, wp_get]
    cases t.surf sid with
    | none => trivial
    | some j =>
        cases t.surf pid with
        | none => trivial
        | some l =>
            refine ht.after (Frame.whenever fun _ => .throw _) fun _ t ht => ?_
            refine then_plain (ht.adds (by decide) 1 fun r => ?_) fun _ => ?_
            · exact (Frame.deref r).bind fun _ => Frame.edit fun _ => rfl
            · exact (Frame.nextZ fun _ _ => trivial).bind fun _ => Frame.editSrf fun _ => rfl
  · exact h.other (by simp [hop]) (.pure _)

theorem subsurf (h : Serving b m i .subsurf s) (o : Obj) :
    wp (subsurfRequest i o m.op) (fun _ => At (b.act (m.deed .subsurf))) (fun _ _ => True) s := by
  refine wp_ite.mpr ⟨fun hop => h.ends (hop ▸ rfl), fun hop => ?_⟩
  refine h.other (by simp [Ne.symm hop]) (Frame.withSurf fun j => ?_)
  rcases m.op with _ | _ | _ | _ | op
  · exact .pure _
  · exact Frame.setPosition j fun _ _ _ => rfl
  · exact Frame.restack j true fun _ _ => rfl
  · exact Frame.restack j false fun _ _ => rfl
  · exact .pure _

theorem wmbase (h : Serving b m i .wmbase s) (o : Obj) :
    wp (wmbaseRequest i o m.op) (fun _ => At (b.act (m.deed .wmbase))) (fun _ _ => True) s := by
  rcases hop : m.op with _ | _ | _ | _ | op
  · exact h.ends (hop ▸ rfl)
  · exact h.makesOnly (by simp [hop]) (by decide)
  · refine h.making .xdgsurf (by simp [hop]) fun t ht => ht.adds (by decide) _ fun r => ?_
    refine Frame.aU32.bind fun sid => Frame.get_bind fun s => ?_
    cases r with
    | none => exact .throw _
    | some r =>
        cases s.surf sid with
        | none => exact .throw _
        | some j => exact (Frame.edit fun _ => rfl).bind fun _ => Frame.editSrf fun _ => rfl
  · exact h.other (by simp [hop]) (Frame.aU32.bind fun _ => .pure _)
  · exact h.other (by simp [hop]) (.pure _)

theorem positioner (h : Serving b m i .positioner s) :
    wp (positionerRequest i m.op) (fun _ => At (b.act (m.deed .positioner))) (fun _ _ => True) s := by
  have hpos : ∀ k n, plain.Moves (setPos i k n) := fun k n => Frame.setPos i k n fun _ _ => rfl
  rcases hop : m.op with _ | _ | _ | _ | _ | _ | _ | op
  · exact h.ends (hop ▸ rfl)
  · exact h.other (by simp [hop]) (hpos 0 2)
  · exact h.other (by simp [hop]) (hpos 2 4)
  · exact h.other (by simp [hop]) (hpos 6 1)
  · exact h.other (by simp [hop]) (hpos 7 1)
  · exact h.other (by simp [hop]) (hpos 8 1)
  · exact h.other (by simp [hop]) (hpos 9 2)
  · exact h.other (by simp [hop]) (.pure _)

theorem xdgsurf (h : Serving b m i .xdgsurf s) (o : Obj) :
    wp (xdgsurfRequest i o m.op) (fun _ => At (b.act (m.deed .xdgsurf))) (fun _ _ => True) s := by
  rcases hop : m.op with _ | _ | _ | _ | op
  · exact h.ends (hop ▸ rfl)
  · refine h.making .toplevel (by simp [hop]) fun t ht => ?_
    refine (wp_bind _ _).mpr (then_plain (ht.adds (by decide) _ fun r => ?_) fun _ => ?_)
    · exact (Frame.deref r).bind fun _ => Frame.edit fun _ => rfl
    · exact Frame.whenever fun _ => Frame.withSome fun j => becomeToplevel_plain ..
  · refine h.making .popup (by simp [hop]) fun t ht => ht.after Frame.aU32 fun px t ht => ?_
    refine ht.after Frame.aU32 fun pos t ht => ?_
    rw [wp_bind, wp_get]
    cases t.surf o.ref with
    | none => trivial
    | some j =>
        cases t.find pos with
        | none => trivial
        | some p =>
            refine ht.after (Frame.whenever fun _ => .throw _) fun _ t ht => ?_
            refine ht.adds (by decide) _ fun r => ?_
            cases r with
            | none => exact .throw _
            | some r => exact (Frame.edit fun _ => rfl).bind fun _ => becomePopup_plain ..
  · exact h.other (by simp [hop]) (Frame.withSurf fun j => Frame.setGeometry j fun _ _ _ _ _ => rfl)
  · exact h.other (by simp [hop]) (.pure _)

theorem popup (h : Serving b m i .popup s) (o : Obj) :
    wp (popupRequest i o m.op) (fun _ => At (b.act (m.deed .popup))) (fun _ _ => True) s := by
  rcases hop : m.op with _ | _ | op
  · exact h.ends (hop ▸ rfl)
  · exact h.other (by simp [hop]) (Frame.withSurf fun j => Frame.grabPopup j plain_inputs fun _ => rfl)
  · exact h.other (by simp [hop]) (.pure _)

theorem toplevel (h : Serving b m i .toplevel s) (o : Obj) :
    wp (toplevelRequest i o m.op) (fun _ => At (b.act (m.deed .toplevel))) (fun _ _ => True) s := by
  rcases hop : m.op with _ | _ | _ | _ | op
  · refine plain_then (Frame.withSurf fun j => Frame.unroleToplevel _ j fun _ => rfl) fun _ t ht => ?_
    refine plain_then (Frame.setWin (fun _ => rfl) fun _ => rfl) fun _ u hu => ?_
    have hd : m.deed .toplevel = .ends m.obj := if_pos (hop ▸ rfl)
    rw [hd]
    exact ((h.entry.along ht).along hu).destroyed
  · exact h.other (by simp [hop]) (.pure _)
  · exact h.other (by simp [hop]) (Frame.aStr.bind fun _ => Frame.setWin (fun _ => rfl) fun _ => rfl)
  · exact h.other (by simp [hop]) (Frame.aStr.bind fun _ => Frame.setWin (fun _ => rfl) fun _ => rfl)
  · exact h.other (by simp [hop]) (.pure _)

theorem seat (h : Serving b m i .seat s) (x : Ext) (o : Obj) :
    wp (seatRequest x o m.op) (fun _ => At (b.act (m.deed .seat))) (fun _ _ => True) s := by
  have hdev : ∀ f : Client → Devices, plain.Moves (modify fun s => { s with dev := f s } : W Unit) :=
    fun f => plain_inputs.setDev
  rcases hop : m.op with _ | _ | op
  · refine h.making .pointer (by simp [hop]) fun t ht => ht.after (hdev _) fun _ t ht => ?_
    exact ht.adds (by decide) _ fun r => hdev _
  · refine h.making .keyboard (by simp [hop]) fun t ht => ht.after (hdev _) fun _ t ht => ?_
    refine ht.adds (by decide) _ fun r => .bind (hdev _) fun _ => ?_
    refine (Frame.sendKeymapTo x _ plain_keyboard).bind fun _ => ?_
    refine (Frame.whenever fun _ => ev_plain (by decide) (by decide)).bind fun _ => ?_
    exact Frame.get_bind fun _ => Frame.whenever fun _ => Frame.nextSerial.bind fun _ =>
      ev_plain (by decide) (by decide)
  · exact h.other (by simp [hop]) (.pure _)

theorem released {f : Client → Devices} (h : Serving b m i k s) {n : Nat} (hk : enderOf k = some n)
    (hd : m.op ≠ n → m.deed k = .other) :
    wp (whenever (m.op = n) do
      modify fun s => { s with dev := f s }
      destroy i) (fun _ => At (b.act (m.deed k))) (fun _ _ => True) s := by
  refine wp_ite.mpr ⟨fun hop => ?_, fun hop => h.other (hd hop) (.pure _)⟩
  have hends : m.deed k = .ends m.obj := if_pos (hop ▸ hk)
  rw [hends]
  exact plain_then plain_inputs.setDev fun _ t ht => (h.entry.along ht).destroyed

theorem pointer (h : Serving b m i .pointer s) (o : Obj) :
    wp (pointerRequest i o m.op) (fun _ => At (b.act (m.deed .pointer))) (fun _ _ => True) s :=
  h.released rfl fun hop => by simp [Ne.symm hop]

theorem keyboard (h : Serving b m i .keyboard s) (o : Obj) :
    wp (keyboardRequest i o m.op) (fun _ => At (b.act (m.deed .keyboard))) (fun _ _ => True) s :=
  h.released rfl fun hop => by simp [Ne.symm hop]

theorem ddm (h : Serving b m i .ddm s) (o : Obj) :
    wp (ddmRequest o m.op) (fun _ => At (b.act (m.deed .ddm))) (fun _ _ => True) s := by
  rcases hop : m.op with _ | _ | op
  · exact h.makesOnly (by simp [hop]) (by decide)
  · refine h.making .ddevice (by simp [hop]) fun t ht => ht.after Frame.aU32 fun _ t ht => ?_
    exact ht.adds (by decide) _ fun _ => .pure _
  · exact h.other (by simp [hop]) (.pure _)

theorem decomgr (h : Serving b m i .decomgr s) :
    wp (decomgrRequest m.op) (fun _ => At (b.act (m.deed .decomgr))) (fun _ _ => True) s := by
  refine wp_ite.mpr ⟨fun hop => ?_, fun hop => ?_⟩
  · refine h.making .deco (by simp [hop]) fun t ht => ht.adds (by decide) _ fun _ => ?_
    exact ev_plain (by decide) (by decide)
  · refine h.other ?_ (.pure _)
    cases hm : m.op with
    | zero => exact absurd hm hop
    | succ n => simp [hm]

theorem deco (h : Serving b m i .deco s) (o : Obj) :
    wp (decoRequest i o m.op) (fun _ => At (b.act (m.deed .deco))) (fun _ _ => True) s := by
  rcases hop : m.op with _ | _ | op
  · exact h.ends (hop ▸ rfl)
  · exact h.other (by simp [hop]) (Frame.aU32.bind fun _ => ev_plain (by decide) (by decide))
  · exact h.other (by simp [hop]) (.pure _)

theorem display (h : Serving b m i .display s) :
    wp (displayRequest m.op) (fun _ => At (b.act (m.deed .display))) (fun _ _ => True) s := by
  rcases hop : m.op with _ | _ | op
  · have hd : m.deed .display = .syncs (m.arg 0) := by simp [hop]
    rw [hd]
    refine arg_then 0 h.args fun t ht _ => plain_then Frame.nextSerial fun n u hu => ?_
    have hk := (h.entry.along ht).along hu
    refine (wp_bind _ _).mpr (wp_mono (ev_wp _ _ _ _) (fun _ v hv => ?_) fun _ _ _ => trivial)
    refine wp_mono (ev_wp _ _ _ _) (fun _ w hw => ?_) fun _ _ _ => trivial
    have hv' := hk.kept.1.note (n := .done (m.arg 0)) rfl hv.1 hv.2.2.1
    have hw' := hv'.note (n := .deleted (m.arg 0)) rfl hw.1 hw.2.2.1
    refine ⟨⟨hw'.notes.trans (List.append_assoc ..), hw'.table, hw'.orphan, hw'.cbs⟩, ?_⟩
    rw [hw.2.1, hv.2.1]
    exact hk.kept.2
  · refine h.making .registry (by simp [hop]) fun t ht => ht.adds (by decide) _ fun _ => ?_
    exact .forM fun _ _ => ev_plain (by decide) (by decide)
  · trivial

theorem registry (h : Serving b m i .registry s) (x : Ext) :
    wp (registryRequest x m.op) (fun _ => At (b.act (m.deed .registry))) (fun _ _ => True) s := by
  rcases hop : m.op with _ | op
  · refine arg_then 0 h.args fun t ht hargs => str_then hargs fun iface t' ht' hargs => ?_
    refine arg_then _ hargs fun u hu hargs => arg_then _ hargs fun v hv _ => ?_
    have hk := ((ht.trans ht').trans hu).trans hv
    have hd : m.deed .registry = m.binds := by simp [hop]
    have hapt := h.apt
    rw [hd, Message.binds] at *
    rw [bindGlobal]
    cases hg : GLOBALS[m.arg 0 - 1]? with
    | none => trivial
    | some g =>
        have hfree : ∀ g ∈ GLOBALS, g.2.1 ≠ .free := by decide
        rw [hg] at hapt
        rw [Nat.zero_add, show 1 + 1 + (m.arg 1 + 3) % 2 ^ 32 / 4 + 1 =
          3 + (m.arg 1 + 3) % 2 ^ 32 / 4 by omega]
        have hready : Ready b (m.arg (3 + (m.arg 1 + 3) % 2 ^ 32 / 4)) v :=
          (Ready.mk h.entry.kept h.entry.sound hapt.1 hapt.2.1 hapt.2.2).along hk
        rw [Option.filter_some]
        split
        · trivial
        · rename_i g' hg'
          obtain rfl : g = g' := by
            split at hg'
            · exact Option.some.inj hg'
            · exact absurd hg' (by simp)
          refine hready.adds (hfree g (List.mem_of_getElem? hg)) _ fun r => ?_
          exact (Frame.whenever fun _ => .throw _).bind fun _ => Frame.greet x _ _ _ plain_globals
  · exact h.other (by simp [hop]) (.pure _)

/-- A callback is asked for, in a place that is left. -/
theorem frame (h : Serving b m i .surface s) (hop : m.op = 3) :
    wp (frameRequest i) (fun _ => At (b.act (m.deed .surface))) (fun _ _ => True) s := by
  have hd : m.deed .surface = .asks m.obj (m.arg 0) := by simp [hop]
  have hapt := h.apt
  rw [hd] at hapt ⊢
  refine arg_then 0 h.args fun t ht _ => (wp_bind _ _).mpr ?_
  have hready : Ready b (m.arg 0) s := ⟨h.entry.kept, h.entry.sound, hapt.1, hapt.2.1, hapt.2.2.1⟩
  have hi := h.entry.along ht
  refine wp_mono ((hready.along ht).added (by decide) 1) (fun _ u ⟨hu, j, hj, hf⟩ => ?_)
    fun _ _ _ => trivial
  have hij : i ≠ j := by
    rintro rfl
    exact absurd ((Client.entry_some.mp hi.entry).1.symm.trans hj) (by decide)
  have he : u.entry i = some (m.obj, .surface) := (hf.entry hij).trans hi.entry
  have hlen : (u.objs i).srf.cbs.length < 16 := hu.1.cbs i hi.lt _ he ▸ hapt.2.2.2
  rw [editSrf, edit, wp_modify]
  refine ⟨hu.1.asks (hi.sound.makes _ hapt.2.1) hi.lt he (setObj_elsewhere u i _) ?_ rfl, hu.2⟩
  rw [Client.setObj_self, if_pos hlen]
  rfl

theorem commit (h : Serving b m i .surface s) (hop : m.op = 6) (x : Ext) :
    wp (surfaceCommit x i) (fun _ => At (b.act (m.deed .surface))) (fun _ _ => True) s := by
  have hd : m.deed .surface = .commits m.obj := by simp [hop]
  have hapt := h.apt
  rw [hd] at hapt ⊢
  refine plain_then (Frame.obj_bind fun _ => .pure _) fun o t ht => ?_
  refine plain_then (Frame.whenever fun _ => plain_commits.commitAttached x i) fun _ u hu => ?_
  refine plain_then (Frame.editSrf fun _ => rfl) fun _ v hv => ?_
  have hi := ((h.entry.along ht).along hu).along hv
  have hcbs := hi.kept.1.cbs i hi.lt _ hi.entry
  rw [commitCallbacks, obj, wp_bind, wp_bind, wp_get, wp_pure, wp_bind]
  refine wp_mono (pend_all x _ ?_) (fun _ w hw => ?_) fun _ _ _ => trivial
  · rw [hcbs, hi.kept.2]
    exact hapt
  · rw [hw, editSrf, edit, wp_modify]
    refine ⟨(hi.kept.1.commits hi.sound hi.lt hi.entry (setObj_elsewhere _ i _) ?_ rfl), ?_⟩
    · rw [Client.setObj_self]
      rfl
    · exact congrArg₂ (· ++ ·) hi.kept.2 hcbs

theorem surface (h : Serving b m i .surface s) (x : Ext) :
    wp (surfaceRequest x i m.op) (fun _ => At (b.act (m.deed .surface))) (fun _ _ => True) s := by
  have hdmg : plain.Moves (damageRequest i) := Frame.damageRequest i fun _ _ => rfl
  rcases hop : m.op with _ | _ | _ | _ | _ | _ | _ | _ | _ | _ | op
  · exact h.ends (hop ▸ rfl)
  · exact h.other (by simp [hop]) (Frame.aU32.bind fun _ => Frame.edit fun _ => rfl)
  · exact h.other (by simp [hop]) hdmg
  · exact h.frame hop
  · refine h.other (by simp [hop]) (Frame.aU32.bind fun _ => Frame.get_bind fun _ => ?_)
    exact Frame.editSrf fun _ => rfl
  · refine h.other (by simp [hop]) (Frame.aU32.bind fun _ => Frame.get_bind fun _ => ?_)
    exact Frame.editSrf fun _ => rfl
  · exact h.commit hop x
  · exact h.other (by simp [hop]) (.pure _)
  · exact h.other (by simp [hop]) (.pure _)
  · exact h.other (by simp [hop]) hdmg
  · exact h.other (by simp [hop]) (.pure _)

theorem served (h : Serving b m i k s) (x : Ext) :
    wp (request x i m.op) (fun _ => At (b.act (m.deed k))) (fun _ _ => True) s := by
  obtain ⟨hk, -⟩ := Client.entry_some.mp h.entry.entry
  rw [request, obj, wp_bind, wp_bind, wp_get, wp_pure, hk]
  cases k with
  | display => exact h.display
  | registry => exact h.registry x
  | compositor => exact h.compositor _
  | region => exact h.region
  | shm => exact h.shm x _
  | pool => exact h.pool x _
  | buffer => exact h.buffer
  | surface => exact h.surface x
  | subcomp => exact h.subcomp _
  | subsurf => exact h.subsurf _
  | wmbase => exact h.wmbase _
  | positioner => exact h.positioner
  | xdgsurf => exact h.xdgsurf _
  | popup => exact h.popup _
  | toplevel => exact h.toplevel _
  | seat => exact h.seat x _
  | pointer => exact h.pointer _
  | keyboard => exact h.keyboard _
  | ddm => exact h.ddm _
  | dsource | ddevice =>
      refine wp_ite.mpr ⟨fun hop => h.ends (hop ▸ rfl), fun hop => ?_⟩
      exact h.other (by simp [Ne.symm hop]) (.pure _)
  | decomgr => exact h.decomgr
  | deco => exact h.deco _
  | output | callback | free => exact h.other (by simp) (.pure _)

end Serving

/-! ### Frames -/

theorem Told.mem_table {cb : Nat} (h : Told s b) (hcb : (cb, k) ∈ b.live) :
    (s.find cb).isSome = true := by
  obtain ⟨i, hi, he⟩ := List.mem_filterMap.mp (h.table.mem_iff.mpr hcb)
  obtain ⟨ht, hid, hk, h0⟩ := Client.entry_some.mp he
  rw [Client.find, if_neg h0, List.find?_isSome]
  exact ⟨i, hi, decide_eq_true ⟨ht ▸ hk, hid⟩⟩

theorem Told.answered {cb : Nat} (h : Told s b) (hb : b.Sound) (hcb : cb ∈ b.due) (now : Nat) :
    wp (endCallback now cb) (fun _ t => Told t (b.answer cb) ∧ t.scene.pendCbs = s.scene.pendCbs)
      (fun _ _ => True) s := by
  refine (wp_bind _ _).mpr (wp_mono (ev_wp _ _ _ _) (fun _ t ht => ?_) fun _ _ _ => trivial)
  have hlive := hb.cbs cb (List.mem_append_left _ hcb)
  have ht' := h.note (n := .done cb) rfl ht.1 ht.2.2.1
  obtain ⟨i, hfind⟩ := Option.isSome_iff_exists.mp (ht'.mem_table hlive)
  obtain ⟨hi, he⟩ := Client.find_some hfind
  rw [wp_bind, freeCallback, wp_bind, wp_get, hfind]
  simp only [edit, wp_modify]
  refine (wp_bind _ _).mpr (wp_mono (ev_wp _ _ _ _) (fun _ u hu => ?_) fun _ _ _ => trivial)
  have hfree : (u.objs i).type = .free := by rw [hu.1, Client.setObj_self]
  have hu' : Told u (b.answer cb) := by
    refine ht'.removes hb.ids hi he ?_ (if_pos (.inl hfree)) ?_ ?_ rfl ?_
    · intro j hj
      rw [hu.1]
      exact setObj_elsewhere t i _ j hj
    · exact fun hp => absurd (hfree.symm.trans hp) (by decide)
    · refine (notes_cons (n := .deleted cb) rfl hu.2.2.1).trans ?_
      exact (congrArg (· ++ [Note.deleted cb]) ht'.notes).trans (List.append_assoc ..)
    · exact fun _ _ => rfl
  refine wp_mono ((Frame.ensureRoom (F := plain)).along u) (fun _ v hv => ?_) fun _ _ _ => trivial
  refine ⟨hu'.kept hv, Eq.trans hv.pend ?_⟩
  rw [hu.2.1]
  exact congrArg Scene.pendCbs ht.2.1

/-- All callbacks of a list are answered. -/
theorem Told.answers (h : Told s b) (hb : b.Sound) (now : Nat) (l : List Nat) (hl : l.Nodup)
    (hd : ∀ cb ∈ l, cb ∈ b.due) :
    wp (l.forM (endCallback now)) (fun _ t => Told t (l.foldl Books.answer b))
      (fun _ _ => True) s := by
  induction l generalizing s b with
  | nil => exact h
  | cons cb l ih =>
      obtain ⟨hcb, hl⟩ := List.nodup_cons.mp hl
      have hmem := hd cb (List.mem_cons_self ..)
      refine (wp_bind _ _).mpr (wp_mono (h.answered hb hmem now) (fun _ t ht => ?_) fun _ _ _ => trivial)
      refine ih ht.1 (hb.answer hmem) hl fun c hc => ?_
      have hne : c ≠ cb := fun he => hcb (he ▸ hc)
      exact (List.mem_erase_of_ne hne).mpr (hd c (List.mem_cons_of_mem _ hc))

/-- Nothing is due after all was answered. -/
theorem answers_due {l : List Nat} {b : Books} (h : b.due = l) :
    (l.foldl Books.answer b).due = [] := by
  induction l generalizing b with
  | nil => exact h
  | cons cb l ih =>
      refine ih ?_
      change b.due.erase cb = l
      rw [h, List.erase_cons_head]

/-- The scene is presented, and the callbacks that are due are answered. -/
theorem At.presents (h : At b s) (hb : b.Sound) (x : Ext) :
    wp (present x) (fun _ => At (b.act .shows)) (fun _ _ => True) s := by
  refine plain_then (plain_inputs.presentWindow x) fun _ t ht => ?_
  have ht' := h.kept ht
  rw [wp_bind, wp_get, wp_bind, ht'.2]
  refine wp_mono (ht'.1.answers hb x.now _ (List.nodup_append'.mp hb.once).1 fun _ h => h)
    (fun _ u hu => ?_) fun _ _ _ => trivial
  rw [wp_modify]
  refine ⟨hu.same rfl hu.notes rfl rfl, ?_⟩
  exact (answers_due rfl).symm

/-! ### Sessions -/

/-- The kind that the books have of an object that is found. -/
theorem Told.kind (h : Told s b) (hb : b.Sound) (hi : s.find id = some i) :
    b.kind id = some (s.objs i).type := by
  obtain ⟨hlt, he⟩ := Client.find_some hi
  have hmem : (id, (s.objs i).type) ∈ b.live :=
    h.table.mem_iff.mp (List.mem_filterMap.mpr ⟨i, List.mem_range.mpr hlt, he⟩)
  unfold Books.kind
  cases hf : b.live.find? fun p => p.1 = id with
  | none => exact absurd (List.find?_eq_none.mp hf _ hmem) (by simp)
  | some p =>
      have hsome := List.find?_some hf
      have hid : p.1 = id := of_decide_eq_true hsome
      have hp : (id, p.2) ∈ b.live := hid ▸ List.mem_of_find?_eq_some hf
      exact congrArg some (hb.kind_eq hp hmem)

/-- What a step needs: a place for what it makes, and for the callbacks. -/
def Apt (x : Client × Books) (a : Act) : Prop := x.2.Apt x.1.freeObj.isSome (x.2.deed a)

/-- A message gives new objects names of their own, if it is apt. -/
theorem proper_of_apt {m : Message} {room : Bool} (hm : (m.obj, k) ∈ b.live)
    (ha : b.Apt room (m.deed k)) : b.Proper (m.deed k) := by
  by_cases hop : enderOf k = some m.op
  · have hd : m.deed k = .ends m.obj := if_pos hop
    rw [hd]
    refine ⟨k, fun hk => ?_, hm⟩
    rw [hk] at hop
    exact absurd hop (by simp [enderOf])
  · have hcb : k = .surface → m.op = 3 → b.Proper (m.deed k) := by
      rintro rfl hop
      have hd : m.deed .surface = .asks m.obj (m.arg 0) := by simp [Message.deed, enderOf, hop]
      rw [hd] at ha ⊢
      exact ⟨ha.2.1, hm⟩
    revert ha hcb
    unfold Message.deed
    rw [if_neg hop]
    split
    · exact fun _ _ => trivial
    · unfold Message.binds
      split
      · exact fun ha _ => ha.2.1
      · exact fun _ _ => trivial
    · exact fun _ h => h rfl ‹_›
    · exact fun _ _ => trivial
    · generalize makerOf _ m.op = made
      cases made with
      | none => exact fun _ _ => trivial
      | some k' => exact fun ha _ => ha.2.1

theorem At.serves {m : Message} (h : At b s) (hb : b.Sound) (x : Ext) (ha : Apt (s, b) (.message x m)) :
    wp (message x m) (fun _ t => At (b.act (b.deed (.message x m))) t ∧
      (b.act (b.deed (.message x m))).Sound) (fun _ _ => True) s := by
  rw [message, find, wp_bind, wp_bind, wp_get, wp_pure]
  cases hi : s.find m.obj with
  | none => trivial
  | some i =>
      obtain ⟨hlt, he⟩ := Client.find_some hi
      have hd : b.deed (.message x m) = m.deed (s.objs i).type :=
        congrArg (Option.elim · Deed.other m.deed) (h.1.kind hb hi)
      have hmem : (m.obj, (s.objs i).type) ∈ b.live :=
        h.1.table.mem_iff.mp (List.mem_filterMap.mpr ⟨i, List.mem_range.mpr hlt, he⟩)
      rw [Apt, hd] at ha
      rw [hd, wp_bind, wp_modify]
      have hsound := hb.act (proper_of_apt hmem ha)
      have hserving : Serving b m i (s.objs i).type { s with inp.args := m.args } :=
        ⟨⟨⟨h.1.same rfl h.1.notes rfl rfl, h.2⟩, hb, hlt, he⟩, rfl, ha⟩
      exact wp_mono (then_plain (hserving.served x) fun _ => Frame.ensureRoom)
        (fun _ _ ht => ⟨ht, hsound⟩) fun _ _ _ => trivial

theorem At.step {t : Client} {a : Act} (h : At b s) (hb : b.Sound) (ha : Apt (s, b) a)
    (hs : s.next a = some t) : At (b.act (b.deed a)) t ∧ (b.act (b.deed a)).Sound := by
  have hok := Client.next_some hs
  cases a with
  | message x m => exact (h.serves hb x ha).ok hok
  | present x => exact ⟨(h.presents hb x).ok hok, hb.act trivial⟩
  | receive fds => exact ⟨h.kept ((Frame.setIn _).ok hok), hb⟩
  | input x e => exact ⟨h.kept ((plain_inputs.pump x e).ok hok), hb⟩
  | layout x => exact ⟨h.kept ((Frame.changeLayout x plain_keyboard).ok hok), hb⟩
  | flush => exact ⟨h.kept (Frame.flush.ok hok), hb⟩

end

/-- The books of a session, as it goes on. -/
def Books.note (_ : Client) (a : Act) (_ : Client) (b : Books) : Books := b.act (b.deed a)

/-- The states of a session and its books, whose steps all satisfy `P`. -/
def Session (P : Client × Books → Act → Prop) : Client × Books → Prop :=
  Runs.Reached (Runs.noted Client.next Books.note) (· = (start, Books.start)) P

theorem start_at : At Books.start start := by
  have hentry : ∀ i, i ≠ 0 → start.entry i = none := fun i hi => by
    simp [Client.entry, start, Function.update_of_ne hi, Obj.zero]
  have hupd : Function.update start.entry 0 none = fun _ => none := by
    funext i
    by_cases hi : i = 0
    · rw [hi, Function.update_self]
    · rw [Function.update_of_ne hi, hentry i hi]
  refine ⟨⟨rfl, ?_, fun i hp => ?_, fun i hi id he => ?_⟩, rfl⟩
  · have hperm := filterMap_range_without (n := MAXOBJ) (i := 0) (by decide +kernel)
      (f := start.entry) rfl
    rw [hupd, List.filterMap_eq_nil_iff.mpr fun _ _ => rfl] at hperm
    exact hperm
  · by_cases hi : i = 0
    · rw [hi] at hp
      exact absurd hp (by decide)
    · simp [start, Function.update_of_ne hi, Obj.zero] at hp
  · by_cases h0 : i = 0
    · rw [h0] at he
      exact absurd (Client.entry_some.mp he).1 (by decide)
    · rw [hentry i h0] at he
      exact absurd he (by simp)

theorem Session.at {s : Client} {b : Books} (h : Session Apt (s, b)) : At b s ∧ b.Sound := by
  refine Runs.Reached.invariant (I := fun x : Client × Books => At x.2 x.1 ∧ x.2.Sound)
    (fun x hx => ?_) (fun x a y hx ha hs => ?_) h
  · rw [hx]
    exact ⟨start_at, Books.Sound.start⟩
  · obtain ⟨hs, hb⟩ := Runs.noted_some hs
    rw [hb]
    exact hx.1.step hx.2 ha hs

/-- **Every callback is answered** once, with `done` and then `delete_id`, when the scene was
presented after its commit; and the table has the objects that were made and not deleted, each with
a name of its own: in every session whose steps have a place for what they make. -/
theorem callbacks_answered {s : Client} {b : Books} (h : Session Apt (s, b)) :
    s.table.Perm b.live ∧ (s.table.map Prod.fst).Nodup ∧
      b.made.Perm (s.table.map Prod.fst ++ Books.deletedOf s.notes) ∧
      b.called.Perm (Books.donesOf s.notes ++ s.scene.pendCbs) ∧ Books.Paired s.notes ∧
      s.notes = b.sent ∧ s.scene.pendCbs = b.due := by
  obtain ⟨⟨ht, hdue⟩, hb⟩ := h.at
  have hids : (s.table.map Prod.fst).Perm b.ids := ht.table.map _
  refine ⟨ht.table, hids.nodup_iff.mpr hb.ids, ?_, ?_, ?_, ht.notes, hdue⟩
  · rw [ht.notes]
    exact hb.made.trans (hids.symm.append_right _)
  · rw [ht.notes, hdue]
    exact hb.called
  · rw [ht.notes]
    exact hb.paired

instance Books.decidableApt (b : Books) (room : Bool) : (d : Deed) → Decidable (b.Apt room d)
  | .makes _ _ => inferInstanceAs (Decidable (_ ∧ _ ∧ _))
  | .asks _ _ => inferInstanceAs (Decidable (_ ∧ _ ∧ _ ∧ _))
  | .commits _ => inferInstanceAs (Decidable (_ ≤ _))
  | .ends _ | .syncs _ | .shows | .other => isTrue trivial

instance decidableApt (x : Client × Books) (a : Act) : Decidable (Apt x a) :=
  Books.decidableApt _ _ _

/-- A session that asks for `n` callbacks of its surface, commits it and sees it presented. -/
def asking (n : Nat) : List Act :=
  greeting ++ (List.range n).map (fun k => .message .still ⟨4, 3, [UInt32.ofNat (5 + k)]⟩) ++
    [.message .still ⟨4, 6, []⟩, .present .still]

theorem session_any (P : Client × Books → Act → Prop) [∀ x a, Decidable (P x a)] (as : List Act)
    (C : Client × Books → Prop) [DecidablePred C]
    (h : (Runs.run (Runs.noted Client.next Books.note) P as (start, Books.start)).any
      (fun x => decide (C x)) = true) : ∃ x, Session P x ∧ C x := by
  have hstart : Session P (start, Books.start) := .init rfl
  exact Runs.Reached.run_any hstart h

theorem callbacks_answered_two : ∃ s b, (Session Apt (s, b) ∧ b.called = [5, 6]) ∧
    b.called.Perm (Books.donesOf s.notes ++ s.scene.pendCbs) ∧ Books.Paired s.notes := by
  obtain ⟨⟨s, b⟩, h, hc⟩ := session_any Apt (asking 2) (fun x => x.2.called = [5, 6])
    (by decide +kernel)
  obtain ⟨-, -, -, hcalled, hpaired, -⟩ := callbacks_answered h
  exact ⟨s, b, ⟨h, hc⟩, hcalled, hpaired⟩

/-- Of seventeen callbacks of a surface one is never answered. -/
theorem callback_dropped : ¬ ∀ s b, Session (fun _ _ => True) (s, b) →
    b.called.Perm (Books.donesOf s.notes ++ s.scene.pendCbs) := by
  intro hall
  obtain ⟨⟨s, b⟩, h, hc⟩ := session_any (fun _ _ => True) (asking 17)
    (fun x => ¬ x.2.called.Perm (Books.donesOf x.1.notes ++ x.1.scene.pendCbs)) (by decide +kernel)
  exact hc (hall s b h)

end Pulsar.Wl

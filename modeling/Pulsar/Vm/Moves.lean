import Mathlib.Data.Finset.Card
import Mathlib.Data.Finset.Image
import Mathlib.Order.Interval.Finset.Nat
import Pulsar.Vm.Accounts

/-!
# The tables that a move of pages needs

`move_range` makes the tables on the way to each page that it moves, one frame for each that is
missing, and leaves a page where it was when no frame is left.  `Pt.needed` counts the tables that
are missing on the way to a list of pages.

* `mapPage_needed`: mapping the first page of a list takes what that page needs, or fails with less
  than the list needs.
* `moveRange_all`, `moveRange_some`: every page moves if there are frames for the tables needed,
  and one stays if there are not.
-/

namespace Pulsar.Vm

open Pulsar.Tree

/-- The free frames. -/
def Frames.free (fr : Frames) : Nat := ((Finset.range fr.n).filter fun f => fr.isFree f = true).card

/-- The tables of a level that are missing on the way to the pages `ps`; a table of the level leads
to `k` pages. -/
def missing (t : Tree Nat) (k : Nat) (ps : List Nat) : Nat :=
  ((ps.map (· / k)).toFinset.filter fun i => t[i]?.isNone = true).card

/-- The tables that are missing on the way to the pages `ps`. -/
def Pt.needed (pt : Pt) (ps : List Nat) : Nat :=
  missing pt.l1 (512 ^ 3) ps + missing pt.l2 (512 ^ 2) ps + missing pt.l3 512 ps

variable {fr fr' : Frames} {t t' : Tree Nat} {k p f : Nat} {ps : List Nat} {e : Pte}

/-! ### Free frames -/

/-- The order of the search has every frame of the window. -/
theorem Frames.mem_order (hf : f < fr.n) : f ∈ fr.order := by
  obtain ⟨w, hw⟩ : ∃ w, w = f / 64 := ⟨_, rfl⟩
  obtain ⟨m, hm⟩ : ∃ m, m = (fr.n + 63) / 64 := ⟨_, rfl⟩
  have hlt : w < m := by omega
  -- the word of the frame comes after so many others
  have hat : (fr.hint / 64 + (w + m - fr.hint / 64 % m) % m) % m = w := by
    have hmod : fr.hint / 64 % m < m := Nat.mod_lt _ (by omega)
    rw [Nat.add_mod_mod, ← Nat.mod_add_mod,
      show fr.hint / 64 % m + (w + m - fr.hint / 64 % m) = w + m by omega, Nat.add_mod_right,
      Nat.mod_eq_of_lt hlt]
  simp only [order, List.mem_flatMap, List.mem_range, ← hm]
  refine ⟨(w + m - fr.hint / 64 % m) % m, Nat.mod_lt _ (by omega), ?_⟩
  rw [hat, List.mem_range'_1]
  omega

theorem Frames.free_of_none (h : fr.allocFrame = (none, fr')) : fr.free = 0 := by
  unfold allocFrame at h
  split at h
  · exact absurd h (by simp)
  · rename_i hnone
    rw [free, Finset.card_eq_zero, Finset.filter_eq_empty_iff]
    intro f hf
    exact List.find?_eq_none.mp hnone f (mem_order (Finset.mem_range.mp hf))

theorem Frames.isFree_setUsed (g : Nat) :
    (fr.setUsed f).isFree g = (fr.isFree g && !decide (g = f)) := by
  by_cases hg : g = f
  · simp [isFree, setUsed, hg]
  · rw [decide_eq_false hg, Bool.not_false, Bool.and_true]
    exact congrArg (fun b => decide (g < fr.n) && !b) (Function.update_of_ne hg ..)

/-- A frame that is taken is one of those that are free. -/
theorem Frames.free_setUsed (hf : fr.isFree f = true) : fr.free = (fr.setUsed f).free + 1 := by
  have hmem : f ∈ (Finset.range fr.n).filter fun g => fr.isFree g = true := by
    rw [Finset.mem_filter, Finset.mem_range]
    exact ⟨by simpa [isFree] using (Bool.and_eq_true_iff.mp hf).1, hf⟩
  have herase : ((Finset.range fr.n).filter fun g => (fr.setUsed f).isFree g = true) =
      ((Finset.range fr.n).filter fun g => fr.isFree g = true).erase f := by
    ext g
    simp only [isFree_setUsed, Finset.mem_erase, Finset.mem_filter, Bool.and_eq_true,
      Bool.not_eq_true', decide_eq_false_iff_not]
    exact ⟨fun h => ⟨h.2.2, h.1, h.2.1⟩, fun h => ⟨h.2.1, h.2.2, h.1⟩⟩
  rw [free, ← Finset.card_erase_add_one hmem]
  exact congrArg (fun s : Finset Nat => s.card + 1) herase.symm

/-- A frame is taken of those that are free, and the others stay as they are. -/
theorem Frames.free_of_some (h : fr.allocFrame = (some f, fr')) :
    fr.free = fr'.free + 1 ∧ ∀ g, fr.isFree g = false → fr'.isFree g = false ∧
      fr'.refs g = fr.refs g := by
  obtain ⟨hf, rfl⟩ := allocFrame_some h
  refine ⟨free_setUsed hf, fun g hg => ?_⟩
  have hne : g ≠ f := fun e => by
    rw [e, hf] at hg
    exact Bool.noConfusion hg
  have hstay : (fr.setUsed f).isFree g = false := by rw [isFree_setUsed, hg, Bool.false_and]
  exact ⟨hstay, Function.update_of_ne hne ..⟩

theorem Frames.free_take {b : Nat} : ∀ {k : Nat} {fr : Frames},
    (∀ g ∈ List.range' b k, fr.isFree g = true) →
      fr.free = ((List.range' b k).foldl (fun s f => s.setUsed f) fr).free + k := by
  intro k
  induction k generalizing b with
  | zero => exact fun _ => rfl
  | succ k ih =>
      intro fr h
      rw [List.range'_succ] at h ⊢
      have hone := free_setUsed (h b List.mem_cons_self)
      have hrest := @ih (b + 1) (fr.setUsed b) fun g hg => by
        have hne : g ≠ b := by
          have := (List.mem_range'_1.mp hg).1
          omega
        rw [isFree_setUsed, h g (List.mem_cons_of_mem _ hg), decide_eq_false hne]
        rfl
      rw [List.foldl_cons]
      omega

/-! ### One table, one page -/

/-- The table on the way to a page takes one of the free frames, unless it is there. -/
theorem missing_next (h : nextTable t (p / k) fr = some (t', fr')) :
    missing t' k ps + fr.free = missing t k (p :: ps) + fr'.free := by
  unfold nextTable at h
  cases hk : t[p / k]? with
  | some g =>
      rw [hk] at h
      obtain ⟨rfl, rfl⟩ := Prod.mk.inj (Option.some.inj h)
      rw [missing, missing, List.map_cons, List.toFinset_cons, Finset.filter_insert, if_neg (by simp [hk])]
  | none =>
      rw [hk] at h
      simp only at h
      rcases ha : fr.allocFrame with ⟨- | g, fr₁⟩
      · rw [ha] at h
        exact absurd h (by simp)
      · rw [ha] at h
        obtain ⟨rfl, rfl⟩ := Prod.mk.inj (Option.some.inj h)
        have hfree := (Frames.free_of_some ha).1
        have hset : (((p :: ps).map (· / k)).toFinset.filter fun i => t[i]?.isNone = true) =
            insert (p / k) (((ps.map (· / k)).toFinset).filter fun i =>
              (t.insert (p / k) g)[i]?.isNone = true) := by
          ext i
          rw [List.map_cons, List.toFinset_cons, Finset.mem_filter, Finset.mem_insert,
            Finset.mem_insert, Finset.mem_filter, get_insert]
          by_cases hi : i = p / k
          · simp [hi, hk]
          · simp [hi]
        have hnot : p / k ∉ ((ps.map (· / k)).toFinset).filter fun i =>
            (t.insert (p / k) g)[i]?.isNone = true := fun hc => by
          rw [Finset.mem_filter, get_insert, if_pos rfl] at hc
          exact absurd hc.2 (by simp)
        rw [missing, missing, hset, Finset.card_insert_of_notMem hnot, hfree]
        omega

/-- A table that cannot be made is missing, and no frame is free. -/
theorem missing_fail (h : nextTable t (p / k) fr = none) :
    fr.free = 0 ∧ 0 < missing t k (p :: ps) := by
  unfold nextTable at h
  cases hk : t[p / k]? with
  | some g =>
      rw [hk] at h
      exact absurd h (by simp)
  | none =>
      rw [hk] at h
      simp only at h
      rcases ha : fr.allocFrame with ⟨- | g, fr₁⟩
      · refine ⟨Frames.free_of_none ha, Finset.card_pos.mpr ⟨p / k, ?_⟩⟩
        rw [Finset.mem_filter]
        exact ⟨by simp, by simp [hk]⟩
      · rw [ha] at h
        exact absurd h (by simp)

/-- **A page is mapped** with the tables that it needs, or fails with less than is needed. -/
theorem mapPage_needed (p : Nat) (e : Pte) (ps : List Nat) (s : Pt × Frames) :
    ((mapPage p e s).1 = true → (mapPage p e s).2.1.needed ps + s.2.free =
      s.1.needed (p :: ps) + (mapPage p e s).2.2.free) ∧
    ((mapPage p e s).1 = false → s.2.free < s.1.needed (p :: ps)) := by
  unfold mapPage
  rcases h₁ : nextTable s.1.l1 (p / 512 ^ 3) s.2 with - | ⟨m₁, fr₁⟩
  · have hfail := @missing_fail _ _ _ _ ps h₁
    exact ⟨fun hc => absurd hc (by simp), fun _ => by rw [Pt.needed]; omega⟩
  · have hnext₁ := @missing_next _ _ _ _ _ _ ps h₁
    simp only
    rcases h₂ : nextTable s.1.l2 (p / 512 ^ 2) fr₁ with - | ⟨m₂, fr₂⟩
    · have hfail := @missing_fail _ _ _ _ ps h₂
      exact ⟨fun hc => absurd hc (by simp), fun _ => by rw [Pt.needed]; omega⟩
    · have hnext₂ := @missing_next _ _ _ _ _ _ ps h₂
      simp only
      rcases h₃ : nextTable s.1.l3 (p / 512) fr₂ with - | ⟨m₃, fr₃⟩
      · have hfail := @missing_fail _ _ _ _ ps h₃
        exact ⟨fun hc => absurd hc (by simp), fun _ => by rw [Pt.needed]; omega⟩
      · have hnext₃ := @missing_next _ _ _ _ _ _ ps h₃
        refine ⟨fun _ => ?_, fun hc => absurd hc (by simp)⟩
        simp only [Pt.needed]
        omega

/-- A frame that is not free keeps its count. -/
def KeptCounts (fr fr' : Frames) : Prop :=
  ∀ g, fr.isFree g = false → fr'.isFree g = false ∧ fr'.refs g = fr.refs g

theorem KeptCounts.refl (fr : Frames) : KeptCounts fr fr := fun _ h => ⟨h, rfl⟩

theorem KeptCounts.trans {fr'' : Frames} (h : KeptCounts fr fr') (h' : KeptCounts fr' fr'') :
    KeptCounts fr fr'' := fun g hg => by
  obtain ⟨h₁, h₂⟩ := h g hg
  obtain ⟨h₃, h₄⟩ := h' g h₁
  exact ⟨h₃, h₄.trans h₂⟩

theorem kept_nextTable (h : nextTable t k fr = some (t', fr')) : KeptCounts fr fr' := by
  unfold nextTable at h
  cases hk : t[k]? with
  | some g =>
      rw [hk] at h
      obtain ⟨-, rfl⟩ := Prod.mk.inj (Option.some.inj h)
      exact .refl fr
  | none =>
      rw [hk] at h
      simp only at h
      rcases ha : fr.allocFrame with ⟨- | g, fr₁⟩
      · rw [ha] at h
        exact absurd h (by simp)
      · rw [ha] at h
        obtain ⟨-, rfl⟩ := Prod.mk.inj (Option.some.inj h)
        exact (Frames.free_of_some ha).2

theorem kept_mapPage (p : Nat) (e : Pte) (s : Pt × Frames) :
    KeptCounts s.2 (mapPage p e s).2.2 := by
  unfold mapPage
  rcases h₁ : nextTable s.1.l1 (p / 512 ^ 3) s.2 with - | ⟨m₁, fr₁⟩
  · exact .refl _
  · have hk₁ := kept_nextTable h₁
    simp only
    rcases h₂ : nextTable s.1.l2 (p / 512 ^ 2) fr₁ with - | ⟨m₂, fr₂⟩
    · exact hk₁
    · have hk₂ := hk₁.trans (kept_nextTable h₂)
      simp only
      rcases h₃ : nextTable s.1.l3 (p / 512) fr₂ with - | ⟨m₃, fr₃⟩
      · exact hk₂
      · exact hk₂.trans (kept_nextTable h₃)

/-! ### The move of a range -/

section Range

variable {oldStart oldEnd newStart q : Nat} {s : Pt × Frames} {es : List (Nat × Pte)}
  {m₀ m : Tree Pte}

/-- The pages to which the entries of a range move. -/
def Pt.targets (oldStart oldEnd newStart : Nat) (pt : Pt) : List Nat :=
  (pt.leaf.filter fun p _ => Pt.walked oldStart oldEnd p).toList.map fun x =>
    target oldStart newStart x.1

theorem target_inj (hp : Pt.walked oldStart oldEnd p = true) (hq : Pt.walked oldStart oldEnd q = true)
    (h : target oldStart newStart p = target oldStart newStart q) : p = q := by
  simp only [Pt.walked, decide_eq_true_eq] at hp hq
  rw [target, target] at h
  omega

theorem mem_walked {x : Nat × Pte}
    (hx : x ∈ (m.filter fun p _ => Pt.walked oldStart oldEnd p).toList) :
    m[x.1]? = some x.2 ∧ Pt.walked oldStart oldEnd x.1 = true := by
  have := mem_toList.mp hx
  rw [get_filter] at this
  exact Option.filter_eq_some_iff.mp this

/-- The entries of the range but for `es` have moved. -/
structure Moved (oldStart oldEnd newStart : Nat) (m₀ : Tree Pte) (es : List (Nat × Pte))
    (m : Tree Pte) : Prop where
  moving : Moving oldStart newStart (fun p => Pt.walked oldStart oldEnd p = true) es m
  still : ∀ x ∈ es, m₀[x.1]? = some x.2
  gone : ∀ q, Pt.walked oldStart oldEnd q = true → q ∉ es.map (·.1) → m[q]? = none
  come : ∀ q, Pt.walked oldStart oldEnd q = true →
    m[target oldStart newStart q]? = if q ∈ es.map (·.1) then none else m₀[q]?
  rest : ∀ q, Pt.walked oldStart oldEnd q = false →
    (∀ p, Pt.walked oldStart oldEnd p = true → q ≠ target oldStart newStart p) → m[q]? = m₀[q]?

theorem Moved.start (hap : Apart oldStart oldEnd newStart)
    (hnew : ∀ p, Pt.walked oldStart oldEnd p = true → m[target oldStart newStart p]? = none) :
    Moved oldStart oldEnd newStart m (m.filter fun p _ => Pt.walked oldStart oldEnd p).toList m := by
  have hkey : ∀ q, Pt.walked oldStart oldEnd q = true →
      q ∉ (m.filter fun p _ => Pt.walked oldStart oldEnd p).toList.map (·.1) → m[q]? = none := by
    intro q hq hnot
    cases hm : m[q]? with
    | none => rfl
    | some e => exact absurd (mem_keys.mpr ⟨e, by simp [hm, hq]⟩) hnot
  refine ⟨hap.moving m, fun x hx => (mem_walked hx).1, hkey, fun q hq => ?_, fun _ _ _ => rfl⟩
  rw [hnew q hq]
  split_ifs with hin
  · rfl
  · exact (hkey q hq hin).symm

theorem Moved.next (hap : Apart oldStart oldEnd newStart)
    (h : Moved oldStart oldEnd newStart m₀ ((p, e) :: es) m) :
    Moved oldStart oldEnd newStart m₀ es ((m.insert (target oldStart newStart p) e).erase p) := by
  obtain ⟨hp, honce⟩ := List.nodup_cons.mp h.moving.once
  obtain ⟨hw, hne⟩ := h.moving.apart (p, e) List.mem_cons_self
  have hold : ∀ q, q ≠ p → q ≠ target oldStart newStart p →
      ((m.insert (target oldStart newStart p) e).erase p)[q]? = m[q]? := fun q h₁ h₂ => by
    rw [get_erase, if_neg h₁, get_insert, if_neg h₂]
  refine ⟨h.moving.next fun q hq ht => hold q hq (ht p hw),
    fun x hx => h.still x (List.mem_cons_of_mem _ hx), fun q hq hnot => ?_, fun q hq => ?_,
    fun q hq ht => ?_⟩
  · by_cases hqp : q = p
    · rw [hqp, get_erase, if_pos rfl]
    · rw [hold q hqp (hap p q hw hq).symm]
      exact h.gone q hq fun hc => (List.mem_cons.mp hc).elim hqp hnot
  · rw [get_erase, if_neg (hne q hq), get_insert]
    by_cases hqp : q = p
    · subst hqp
      rw [if_pos rfl, if_neg hp]
      exact (h.still _ List.mem_cons_self).symm
    · rw [if_neg fun hc => hqp (target_inj hq hw hc), h.come q hq]
      exact if_congr (by simp [hqp]) rfl rfl
  · have hqp : q ≠ p := fun e => by
      rw [e, hw] at hq
      exact Bool.noConfusion hq
    rw [hold q hqp (ht p hw)]
    exact h.rest q hq ht

/-- **Every page moves**, if there are frames for the tables that are needed. -/
theorem moveRange_all (hap : Apart oldStart oldEnd newStart)
    (hnew : ∀ p, Pt.walked oldStart oldEnd p = true →
      s.1.leaf[target oldStart newStart p]? = none)
    (hn : s.1.needed (s.1.targets oldStart oldEnd newStart) ≤ s.2.free) :
    Moved oldStart oldEnd newStart s.1.leaf [] (moveRange oldStart oldEnd newStart s).1.leaf := by
  refine (moveRange_induction (s := s) (I := fun es u =>
    Moved oldStart oldEnd newStart s.1.leaf es u.1.leaf ∧
      u.1.needed (es.map fun x => target oldStart newStart x.1) ≤ u.2.free)
    ⟨.start hap hnew, hn⟩ ?_ ?_).1
  · rintro p e es u pt fr ⟨hmoved, hle⟩ hm
    have hneed := (mapPage_needed (target oldStart newStart p) e
      (es.map fun x => target oldStart newStart x.1) u).1 (by rw [hm])
    have hleaf := mapPage_leaf (target oldStart newStart p) e u
    rw [hm] at hneed hleaf
    replace hleaf : pt.leaf = u.1.leaf.insert (target oldStart newStart p) e :=
      hleaf.elim (·.2) fun hc => absurd hc.1 (by simp)
    refine ⟨?_, ?_⟩
    · simp only
      rw [hleaf]
      exact hmoved.next hap
    · simp only [List.map_cons] at hle
      have hsame : ({ pt with leaf := pt.leaf.erase p } : Pt).needed = pt.needed := rfl
      simp only at hneed ⊢
      rw [hsame]
      omega
  · rintro p e es u u' ⟨-, hle⟩ hm
    have hneed := (mapPage_needed (target oldStart newStart p) e
      (es.map fun x => target oldStart newStart x.1) u).2 (by rw [hm])
    simp only [List.map_cons] at hle
    omega

/-- **Some page stays**, if there are not. -/
theorem moveRange_some (hap : Apart oldStart oldEnd newStart)
    (hn : s.2.free < s.1.needed (s.1.targets oldStart oldEnd newStart)) :
    ∃ p, Pt.walked oldStart oldEnd p = true ∧
      (moveRange oldStart oldEnd newStart s).1.leaf[p]? ≠ none := by
  have hend := @moveRange_induction (fun es u =>
    Moving oldStart newStart (fun p => Pt.walked oldStart oldEnd p = true) es u.1.leaf ∧
      (u.2.free < u.1.needed (es.map fun x => target oldStart newStart x.1) ∨
        ∃ p, Pt.walked oldStart oldEnd p = true ∧ p ∉ es.map (·.1) ∧ u.1.leaf[p]? ≠ none))
    oldStart oldEnd newStart s
    ⟨hap.moving s.1.leaf, .inl hn⟩ ?_ ?_
  · obtain ⟨-, hlt | ⟨p, hp, -, hstay⟩⟩ := hend
    · exact absurd hlt (by simp [Pt.needed, missing])
    · exact ⟨p, hp, hstay⟩
  · rintro p e es u pt fr ⟨hmov, hcase⟩ hm
    obtain ⟨hw, -⟩ := hmov.apart (p, e) List.mem_cons_self
    have hneed := (mapPage_needed (target oldStart newStart p) e
      (es.map fun x => target oldStart newStart x.1) u).1 (by rw [hm])
    have hleaf := mapPage_leaf (target oldStart newStart p) e u
    rw [hm] at hneed hleaf
    replace hleaf : pt.leaf = u.1.leaf.insert (target oldStart newStart p) e :=
      hleaf.elim (·.2) fun hc => absurd hc.1 (by simp)
    have hold : ∀ q, q ≠ p → q ≠ target oldStart newStart p →
        (pt.leaf.erase p)[q]? = u.1.leaf[q]? := fun q h₁ h₂ => by
      rw [hleaf, get_erase, if_neg h₁, get_insert, if_neg h₂]
    refine ⟨hmov.next fun q hq ht => hold q hq (ht p hw), ?_⟩
    rcases hcase with hlt | ⟨q, hq, hnot, hstay⟩
    · left
      simp only [List.map_cons] at hlt
      have hsame : ({ pt with leaf := pt.leaf.erase p } : Pt).needed = pt.needed := rfl
      simp only at hneed ⊢
      rw [hsame]
      omega
    · right
      rw [List.map_cons, List.mem_cons, not_or] at hnot
      refine ⟨q, hq, hnot.2, ?_⟩
      simp only
      rw [hold q hnot.1 (hap p q hw hq).symm]
      exact hstay
  · rintro p e es u u' ⟨hmov, hcase⟩ hm
    obtain ⟨hw, -⟩ := hmov.apart (p, e) List.mem_cons_self
    have hleaf := mapPage_leaf (target oldStart newStart p) e u
    rw [hm] at hleaf
    replace hleaf : u'.1.leaf = u.1.leaf := hleaf.elim (fun hc => absurd hc.1 (by simp)) (·.2)
    refine ⟨hmov.next fun q _ _ => by rw [hleaf], .inr ?_⟩
    rcases hcase with - | ⟨q, hq, hnot, hstay⟩
    · refine ⟨p, hw, (List.nodup_cons.mp hmov.once).1, ?_⟩
      rw [hleaf, hmov.there (p, e) List.mem_cons_self]
      exact Option.some_ne_none e
    · rw [List.map_cons, List.mem_cons, not_or] at hnot
      exact ⟨q, hq, hnot.2, by rwa [hleaf]⟩

theorem kept_moveRange (oldStart oldEnd newStart : Nat) (s : Pt × Frames) :
    KeptCounts s.2 (moveRange oldStart oldEnd newStart s).2 := by
  refine moveRange_induction (s := s) (I := fun _ u => KeptCounts s.2 u.2) (.refl s.2) ?_ ?_
  · rintro p e es u pt fr h hm
    have hkept := kept_mapPage (target oldStart newStart p) e u
    rw [hm] at hkept
    exact h.trans hkept
  · rintro p e es u u' h hm
    have hkept := kept_mapPage (target oldStart newStart p) e u
    rw [hm] at hkept
    exact h.trans hkept

theorem like_moveRange (oldStart oldEnd newStart : Nat) (s : Pt × Frames) :
    s.2.Like (moveRange oldStart oldEnd newStart s).2 := by
  refine moveRange_induction (s := s) (I := fun _ u => s.2.Like u.2) (.refl s.2) ?_ ?_
  · rintro p e es u pt fr h hm
    have hlike := like_mapPage (target oldStart newStart p) e u
    rw [hm] at hlike
    exact h.trans hlike
  · rintro p e es u u' h hm
    have hlike := like_mapPage (target oldStart newStart p) e u
    rw [hm] at hlike
    exact h.trans hlike

end Range

end Pulsar.Vm

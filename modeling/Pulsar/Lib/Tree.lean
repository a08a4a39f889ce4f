import Std.Data.ExtTreeMap
import Mathlib.Data.List.Perm.Basic
import Mathlib.Data.List.Nodup
import Mathlib.Data.Multiset.Filter
import Mathlib.Tactic.SplitIfs
import Mathlib.Tactic.Common

/-!
# Finite maps from numbers

`Tree α` is the standard ordered map.  Beside what its entries become (`get_insert`, `get_erase`,
`get_filter`), the rules say how the collection of its entries moves: `cells_insert`,
`cells_erase`, `cells_filter` and `cells_map`.
-/

namespace Pulsar

abbrev Tree (α : Type) := Std.ExtTreeMap Nat α

namespace Tree

variable {α : Type} {m : Tree α} {k a : Nat} {v w : α}

@[simp] theorem get_insert : (m.insert k v)[a]? = if a = k then some v else m[a]? := by
  rw [Std.ExtTreeMap.getElem?_insert]
  exact if_congr (Std.LawfulEqCmp.compare_eq_iff_eq.trans eq_comm) rfl rfl

@[simp] theorem get_erase : (m.erase k)[a]? = if a = k then none else m[a]? := by
  rw [Std.ExtTreeMap.getElem?_erase]
  exact if_congr (Std.LawfulEqCmp.compare_eq_iff_eq.trans eq_comm) rfl rfl

@[simp] theorem get_filter (p : Nat → α → Bool) : (m.filter p)[a]? = m[a]?.filter (p a) := by
  rw [Std.ExtTreeMap.getElem?_filter]
  simp

@[simp] theorem get_map {β : Type} (f : Nat → α → β) : (m.map f)[a]? = m[a]?.map (f a) :=
  Std.ExtTreeMap.getElem?_map

theorem mem_toList : (k, v) ∈ m.toList ↔ m[k]? = some v :=
  Std.ExtTreeMap.mem_toList_iff_getElem?_eq_some

theorem nodup_toList : m.toList.Nodup :=
  Std.ExtTreeMap.distinct_keys_toList.imp fun h e => h (by simp [e])

theorem nodup_keys : (m.toList.map (·.1)).Nodup := by
  refine List.pairwise_map.mpr (Std.ExtTreeMap.distinct_keys_toList.imp fun h e => h ?_)
  simp [e]

theorem mem_keys : k ∈ m.toList.map (·.1) ↔ ∃ v, m[k]? = some v := by
  simp only [List.mem_map, Prod.exists, exists_and_right, exists_eq_right, mem_toList]

/-- The entries, as a multiset. -/
def cells (m : Tree α) : Multiset (Nat × α) := m.toList

@[simp] theorem cells_empty : cells (∅ : Tree α) = 0 := rfl

theorem mem_cells {e : Nat × α} : e ∈ cells m ↔ m[e.1]? = some e.2 := by
  rw [cells, Multiset.mem_coe]
  exact mem_toList

theorem nodup_cells : (cells m).Nodup := Multiset.coe_nodup.mpr nodup_toList

theorem cells_insert (h : m[k]? = none) : cells (m.insert k v) = (k, v) ::ₘ cells m := by
  have hk : (k, v) ∉ cells m := fun hm => by
    rw [mem_cells, h] at hm
    exact absurd hm (by simp)
  refine Multiset.Nodup.ext nodup_cells (Multiset.nodup_cons.mpr ⟨hk, nodup_cells⟩) |>.mpr ?_
  rintro ⟨a, w⟩
  rw [Multiset.mem_cons, mem_cells, mem_cells, get_insert]
  split_ifs with e
  · obtain rfl : a = k := e
    simp [h, eq_comm]
  · have e' : ¬ a = k := e
    simp [e']

theorem cells_erase (h : m[k]? = some v) : cells m = (k, v) ::ₘ cells (m.erase k) := by
  have hk : (k, v) ∉ cells (m.erase k) := fun hm => by
    rw [mem_cells, get_erase, if_pos rfl] at hm
    exact absurd hm (by simp)
  refine Multiset.Nodup.ext nodup_cells (Multiset.nodup_cons.mpr ⟨hk, nodup_cells⟩) |>.mpr ?_
  rintro ⟨a, w⟩
  rw [Multiset.mem_cons, mem_cells, mem_cells, get_erase]
  split_ifs with e
  · obtain rfl : a = k := e
    simp [h, eq_comm]
  · have e' : ¬ a = k := e
    simp [e']

theorem erase_insert : (m.erase k).insert k v = m.insert k v := by
  refine Std.ExtTreeMap.ext_getElem? fun a => ?_
  simp only [get_insert, get_erase]
  split_ifs <;> rfl

theorem cells_filter (p : Nat → α → Bool) :
    cells (m.filter p) = (cells m).filter fun e => p e.1 e.2 := by
  rw [cells, Std.ExtTreeMap.toList_filter, cells, Multiset.filter_coe]
  simp only [Bool.decide_eq_true]

theorem cells_map {β : Type} (f : Nat → α → β) :
    cells (m.map f) = (cells m).map fun e => (e.1, f e.1 e.2) := by
  rw [cells, Std.ExtTreeMap.toList_map, cells, Multiset.map_coe]

end Tree

end Pulsar

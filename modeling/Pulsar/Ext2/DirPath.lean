import Pulsar.Ext2.Resolve

/-!
# `dir_path` and `resolve_at`

`dir_path` goes up at most 256 times, so what it finds is the path of the last 256 names
(`dirWalk_eq`).  That path leads back to the directory if these are all of its names, and of a directory
that is deeper only by accident (`dirPath_right`).
-/

namespace Pulsar.Ext2.FileTree

open Relation

variable {t : FileTree} {st ns : List Name} {c : Name} {cur d ino k room : Nat} {es : List Entry}
  {tmp : List UInt8}

/-- The last names of a path. -/
def lastNames (k : Nat) (ns : List Name) : List Name := ns.drop (ns.length - k)

theorem lastNames_of_le (h : ns.length ≤ k) : lastNames k ns = ns := by
  rw [lastNames, Nat.sub_eq_zero_of_le h, List.drop_zero]

theorem lastNames_concat : lastNames (k + 1) (st ++ [c]) = lastNames k st ++ [c] := by
  rw [lastNames, lastNames, List.length_append, List.length_singleton, Nat.add_sub_add_right,
    List.drop_append_of_le_length (Nat.sub_le _ _)]

/-- The entry of a directory in its parent. -/
theorem At.entry (w : t.WellFormed) (h : t.At (st ++ [c]) cur)
    (hdir : t.node cur = some (.dir es)) :
    cur ≠ ROOT_INO ∧ ∃ p ps, t.At st p ∧ t.node p = some (.dir ps) ∧
      t.child cur dotdot = some p ∧
      ps.find? (fun e => e.ino = cur ∧ e.name ≠ dot ∧ e.name ≠ dotdot) = some ⟨c, cur⟩ := by
  obtain ⟨hc, -⟩ := h.1.last
  have hin := h.2
  rw [inoAt_concat] at hin
  obtain ⟨p, hp, hchild⟩ := Option.bind_eq_some_iff.mp hin
  obtain ⟨ps, hps, hmem⟩ := child_dir hchild
  have hup := h.1.parent w h.2 hdir
  rw [List.dropLast_concat, hp] at hup
  refine ⟨(w.up p ps hps _ hmem hc.1 hc.2 es hdir).1, p, ps, ⟨h.1.before, hp⟩, hps, hup, ?_⟩
  cases hf : ps.find? fun e => e.ino = cur ∧ e.name ≠ dot ∧ e.name ≠ dotdot with
  | none =>
      have := List.find?_eq_none.mp hf _ hmem
      simp [hc] at this
  | some e =>
      have he := List.find?_some hf
      simp only [decide_eq_true_eq] at he
      -- a directory is in one directory once
      rw [w.once p ps hps e (List.mem_of_find?_eq_some hf) ⟨c, cur⟩ hmem he.2.1 he.2.2 hc.1 hc.2 he.1
        ⟨es, he.1 ▸ hdir⟩]

theorem dirWalk_eq (w : t.WellFormed) (hat : t.At ns cur) (hdir : t.node cur = some (.dir es))
    (htmp : tmp.length ≤ PATH_MAX) :
    t.dirWalk k cur tmp =
      if (spell slash (lastNames k ns)).length + tmp.length ≤ PATH_MAX then
        .ok (spell slash (lastNames k ns) ++ tmp)
      else .err ENAMETOOLONG := by
  induction k generalizing ns cur tmp es with
  | zero => simp [dirWalk, lastNames, htmp]
  | succ k ih =>
      rcases List.eq_nil_or_concat' ns with rfl | ⟨st, c, rfl⟩
      · obtain rfl : ROOT_INO = cur := Option.some.inj hat.2
        simp [dirWalk, lastNames, htmp]
      obtain ⟨hroot, p, ps, hp, hps, hup, hfind⟩ := hat.entry w hdir
      have hread : t.readInode p = .ok (.dir ps) := by rw [readInode, hps]
      rw [dirWalk, if_neg hroot, lookup_dir hdir, Res.ok_bind, hup]
      dsimp only
      rw [hread, Res.ok_bind]
      dsimp only
      rw [hfind, lastNames_concat, spell_append]
      dsimp only
      by_cases hlong : PATH_MAX - tmp.length < c.length + 1
      · rw [if_pos hlong, if_neg (by simp; omega)]
      · have hlen : (slash :: c ++ tmp).length = c.length + 1 + tmp.length := by simp; omega
        rw [if_neg hlong, ih hp hps (by omega), hlen]
        simp only [spell_cons, spell_nil, List.length_append, List.length_cons, List.append_nil,
          List.append_assoc, Nat.add_assoc, List.cons_append]

/-- What `dir_path` returns. -/
theorem dirPath_eq (w : t.WellFormed) (hat : t.At ns d) (hdir : t.node d = some (.dir es)) :
    t.dirPath d room =
      if (written (lastNames 256 ns)).length ≤ min PATH_MAX room then
        .ok (written (lastNames 256 ns))
      else .err ENAMETOOLONG := by
  have htmp : ([] : List UInt8).length ≤ PATH_MAX := Nat.zero_le _
  rw [dirPath, dirWalk_eq w hat hdir htmp]
  generalize lastNames 256 ns = ls
  have hfits : (spell slash ls).length + ([] : List UInt8).length ≤ PATH_MAX ↔
      (written ls).length ≤ PATH_MAX := by
    unfold written
    split
    · rename_i h
      simp [h, PATH_MAX]
    · simp
  simp only [hfits, List.append_nil]
  by_cases h : (written ls).length ≤ PATH_MAX
  · rw [if_pos h, Res.ok_bind]
    simp only [spell_eq_nil]
    change (if room < (written ls).length then Res.err ENAMETOOLONG else .ok (written ls)) = _
    by_cases hroom : room < (written ls).length
    · rw [if_pos hroom, if_neg (by omega)]
    · rw [if_neg hroom, if_pos (by omega)]
  · rw [if_neg h, if_neg (by omega), Res.err_bind]

/-- `dir_path` finds a path of the directory if its true path fits, and what it finds is one. -/
def Right (t : FileTree) (ns : List Name) (d room : Nat) : Prop :=
  (∀ q, t.dirPath d room = .ok q →
    q.head? = some slash ∧ t.resolveAt ROOT_INO q true = .ok d) ∧
  ((written ns).length ≤ min PATH_MAX room → ∃ q, t.dirPath d room = .ok q)

theorem written_head : (written ns).head? = some slash := by
  unfold written
  split
  · rfl
  · rename_i h
    exact spell_head.resolve_left fun hs => h (spell_eq_nil.mp hs)

theorem written_lastNames_le : (written (lastNames k ns)).length ≤ (written ns).length := by
  have hpos : 0 < (written ns).length := List.length_pos_of_ne_nil fun h => by
    have := @written_head ns
    rw [h] at this
    cases this
  have hsplit : ns.take (ns.length - k) ++ lastNames k ns = ns := List.take_append_drop _ _
  have hspell := congrArg (fun l => (spell slash l).length) hsplit
  simp only [spell_append, List.length_append] at hspell
  by_cases hls : lastNames k ns = []
  · rw [hls]
    exact hpos
  · have hns : ns ≠ [] := fun h => hls (by simp [lastNames, h])
    rw [written, if_neg hls, written, if_neg hns]
    omega

/-- The names lead to an inode, perhaps through links. -/
def Leads (t : FileTree) (cs : List Name) (d : Nat) : Prop :=
  ∃ st, Ends t True ⟨[], cs, MAX_LINKS⟩ st ∧ t.inoAt st = some d

theorem resolveAt_leads (w : t.WellFormed) (hlen : (written ns).length ≤ PATH_MAX)
    (hns : ∀ c ∈ ns, c ≠ [] ∧ slash ∉ c) :
    t.resolveAt ROOT_INO (written ns) true = .ok d ↔
      t.Leads ns d ∧ t.resolveAt ROOT_INO (written ns) true ≠ .err ENAMETOOLONG := by
  have htells := resolveAt_tells w written_head hlen
  have hpieces : pieces slash (written ns) = ns := by
    unfold written
    split
    · rename_i h
      simp [h]
    · exact pieces_spell hns
  rw [hpieces] at htells
  constructor
  · intro h
    rw [h] at htells
    obtain ⟨st, hst, hat⟩ := htells.of_ok
    exact ⟨⟨st, hst, hat.2⟩, h ▸ nofun⟩
  · rintro ⟨⟨st, hst, hd⟩, hlong⟩
    obtain ⟨a, ha⟩ := (htells.ok_iff hlong).mpr ⟨st, hst⟩
    rw [ha] at htells
    obtain ⟨st', hst', hat⟩ := htells.of_ok
    obtain rfl := hst.same hst'
    obtain rfl : d = a := Option.some.inj (hd.symm.trans hat.2)
    exact ha

/-- Directories `a`, each in the one before, 257 deep. -/
def chain : FileTree where
  node i :=
    if 2 ≤ i ∧ i ≤ 259 then
      some (.dir ([⟨dot, i⟩, ⟨dotdot, max 2 (i - 1)⟩] ++ if i < 259 then [⟨[97], i + 1⟩] else []))
    else none

theorem chain_dir {fs : List Entry} (h : chain.node d = some (.dir fs)) :
    2 ≤ d ∧ d ≤ 259 ∧
      fs = [⟨dot, d⟩, ⟨dotdot, max 2 (d - 1)⟩] ++ if d < 259 then [⟨[97], d + 1⟩] else [] := by
  unfold chain at h
  dsimp only at h
  split at h
  · rename_i hd
    cases h
    exact ⟨hd.1, hd.2, rfl⟩
  · cases h

theorem chain_node (h : 2 ≤ d) (h' : d ≤ 259) : ∃ fs, chain.node d = some (.dir fs) := by
  exact ⟨_, if_pos ⟨h, h'⟩⟩

/-- The entries of a directory of the chain. -/
theorem chain_entry {fs : List Entry} {e : Entry} (h : chain.node d = some (.dir fs)) :
    e ∈ fs ↔ e = ⟨dot, d⟩ ∨ e = ⟨dotdot, max 2 (d - 1)⟩ ∨ d < 259 ∧ e = ⟨[97], d + 1⟩ := by
  obtain ⟨-, -, rfl⟩ := chain_dir h
  split <;> simp [*]

theorem chain_wellFormed : chain.WellFormed where
  root := chain_node (by decide) (by decide)
  there := fun d fs h e he => by
    obtain ⟨h₁, h₂, -⟩ := chain_dir h
    rcases (chain_entry h).mp he with rfl | rfl | ⟨hd, rfl⟩
    · exact ⟨_, h⟩
    · obtain ⟨gs, hgs⟩ := chain_node (d := max 2 (d - 1)) (by omega) (by omega)
      exact ⟨_, hgs⟩
    · obtain ⟨gs, hgs⟩ := chain_node (d := d + 1) (by omega) (by omega)
      exact ⟨_, hgs⟩
  names := fun d fs h e he => by
    rcases (chain_entry h).mp he with rfl | rfl | ⟨-, rfl⟩ <;> simp [dot, dotdot, slash]
  nodup := fun d fs h => by
    obtain ⟨-, -, rfl⟩ := chain_dir h
    split <;> simp [dot, dotdot]
  top := fun fs h => (chain_entry h).mpr (.inr (.inl rfl))
  up := fun d fs h e he hdot hup gs hgs => by
    obtain ⟨h₁, -, -⟩ := chain_dir h
    rcases (chain_entry h).mp he with rfl | rfl | ⟨-, rfl⟩
    · exact absurd rfl hdot
    · exact absurd rfl hup
    · refine ⟨by simp [ROOT_INO]; omega, (chain_entry hgs).mpr (.inr (.inl ?_))⟩
      simp
      omega
  once := fun d fs h e he e' he' hdot hup hdot' hup' _ _ => by
    rcases (chain_entry h).mp he with rfl | rfl | ⟨-, rfl⟩
    · exact absurd rfl hdot
    · exact absurd rfl hup
    rcases (chain_entry h).mp he' with rfl | rfl | ⟨-, rfl⟩
    · exact absurd rfl hdot'
    · exact absurd rfl hup'
    · rfl

theorem chain_at (hk : k ≤ 257) : chain.At (List.replicate k [97]) (k + 2) := by
  induction k with
  | zero => exact ⟨.root, rfl⟩
  | succ k ih =>
      obtain ⟨hcanon, hin⟩ := ih (by omega)
      obtain ⟨fs, hfs⟩ := chain_node (d := k + 2) (by omega) (by omega)
      obtain ⟨gs, hgs⟩ := chain_node (d := k + 1 + 2) (by omega) (by omega)
      have hmem : ⟨[97], k + 1 + 2⟩ ∈ fs := (chain_entry hfs).mpr (.inr (.inr ⟨by omega, rfl⟩))
      have hnext : chain.inoAt (List.replicate k [97] ++ [[97]]) = some (k + 1 + 2) := by
        rw [inoAt_concat, hin, Option.bind_some]
        exact chain_wellFormed.child_mem hfs hmem
      rw [List.replicate_succ']
      exact ⟨.down hcanon (by decide) hnext hgs fun _ => Node.noConfusion, hnext⟩

theorem chain_length : (spell slash (List.replicate k [97])).length = 2 * k := by
  induction k with
  | zero => rfl
  | succ k ih =>
      rw [List.replicate_succ, spell_cons, List.length_cons, List.length_append, ih,
        List.length_singleton]
      omega

end Pulsar.Ext2.FileTree

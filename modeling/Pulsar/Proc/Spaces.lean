import Pulsar.Proc.Deeds

/-!
# The life of a space (`process.rs`)

A space is made with a process, or for a new image, and goes when its owner does.  A note (`Spaces`)
numbers the spaces, with the root of each, and lists those that were released.

* `Lifetimes`: who uses which space, and when it goes.
* `spaces_released`: so it is in every run, and a slot kept for its space is free only when nothing
  uses that space.
-/

namespace Pulsar.Proc

/-- How many spaces were made; by owner, the number of the space it has; by number, its root; and
the numbers released, with the root of the tables that went. -/
structure Spaces where
  made : Nat
  space : Nat → Nat
  root : Nat → Option Nat
  released : List (Nat × Option Nat)

namespace Spaces

def none : Spaces := ⟨0, fun _ => 0, fun _ => .none, []⟩

/-- The spaces of these owners are released. -/
def free (fs : List (Nat × Option Nat)) (H : Spaces) : Spaces :=
  { H with released := H.released ++ fs.map fun f => (H.space f.1, f.2) }

/-- Owner `i` has a new space. -/
def make (i : Nat) (root : Option Nat) (H : Spaces) : Spaces :=
  { H with made := H.made + 1, space := Function.update H.space i H.made,
           root := Function.update H.root H.made root }

/-- A deed that led to the table `qs`. -/
def deed (qs : Procs) (H : Spaces) : Deed → Spaces
  | .creates i _ | .execs i => H.make i (qs i).root
  | _ => H

/-- The note of an event: what is released goes before what is made. -/
def note (σ : Machine) (e : Machine.Event) (τ : Machine) (H : Spaces) : Spaces :=
  (σ.deeds e).foldl (·.deed τ.procs) (H.free (Machine.freedBy τ.out))

/-- The space was released. -/
def Gone (H : Spaces) (n : Nat) : Prop := n ∈ H.released.map Prod.fst

theorem gone_free {fs : List (Nat × Option Nat)} {H : Spaces} {n : Nat} :
    (H.free fs).Gone n ↔ H.Gone n ∨ ∃ m ∈ fs.map Prod.fst, H.space m = n := by
  simp [Gone, free]

theorem free_nil (H : Spaces) : H.free [] = H := by
  rw [free, List.map_nil, List.append_nil]

theorem free_append (fs gs : List (Nat × Option Nat)) (H : Spaces) :
    H.free (fs ++ gs) = (H.free fs).free gs := by
  simp only [free, List.map_append, List.append_assoc]

end Spaces

namespace Procs

variable {ps qs rs : Procs} {s i m : Nat} {H : Spaces}

/-- The owners have the spaces that were not released, each its own. -/
structure Kept (ps : Procs) (H : Spaces) : Prop where
  lt : ∀ m, ps.Owner m → H.space m < H.made
  inj : ∀ m m', ps.Owner m → ps.Owner m' → H.space m = H.space m' → m = m'
  root : ∀ m, ps.Owner m → (ps m).root = H.root (H.space m) ∧ (ps m).root.isSome
  gone : ∀ n < H.made, H.Gone n ↔ ∀ m, ps.Owner m → H.space m ≠ n
  past : ∀ f ∈ H.released, f.1 < H.made ∧ f.2 = H.root f.1 ∧ f.2.isSome
  once : (H.released.map Prod.fst).Nodup

theorem kept_empty : Kept (fun _ => Process.empty) .none where
  lt _ h := absurd rfl h.1
  inj _ _ h := absurd rfl h.1
  root _ h := absurd rfl h.1
  gone _ h := absurd h (Nat.not_lt_zero _)
  past _ h := absurd h List.not_mem_nil
  once := List.nodup_nil

theorem Kept.same (h : Kept ps H) (hs : qs.Same ps) : Kept qs H where
  lt m hm := h.lt m (hs.owner.mp hm)
  inj m m' hm hm' := h.inj m m' (hs.owner.mp hm) (hs.owner.mp hm')
  root m hm := by
    rw [(hs m).root]
    exact h.root m (hs.owner.mp hm)
  gone n hn := (h.gone n hn).trans (forall_congr' fun m => by rw [hs.owner])
  past := h.past
  once := h.once

theorem Kept.ends {r : Outcome} (h : Kept ps H) (he : Ends ps r) :
    Kept r.1 (H.free (frees r.2)) := by
  have hback : ∀ m, r.1.Owner m → ps.Owner m := fun m hm => ((he.owner m).mp hm).1
  have hfrees : ∀ f ∈ frees r.2, ps.Owner f.1 ∧ f.2 = (ps f.1).root := fun f hf => by
    obtain ⟨e, he', hef⟩ := List.mem_filterMap.mp hf
    cases e with
    | freeMm m root =>
        obtain rfl := Option.some.inj hef
        exact he.roots m root he'
    | put32 root va value => exact absurd hef (by simp)
    | putMsg root va m => exact absurd hef (by simp)
  have howner : ∀ m ∈ freed r.2, ps.Owner m := fun m hm => by
    rw [← frees_owners] at hm
    obtain ⟨f, hf, rfl⟩ := List.mem_map.mp hm
    exact (hfrees f hf).1
  refine ⟨fun m hm => h.lt m (hback m hm), fun m m' hm hm' => h.inj m m' (hback m hm) (hback m' hm'),
    fun m hm => ?_, fun n hn => ?_, fun f hf => ?_, ?_⟩
  · rw [(he.used m hm.1).2.2.2]
    exact h.root m (hback m hm)
  · rw [Spaces.gone_free, frees_owners, h.gone n hn]
    constructor
    · rintro (hgone | ⟨m, hm, rfl⟩) m' hm' e
      · exact hgone m' (hback m' hm') e
      · obtain rfl := h.inj m' m (hback m' hm') (howner m hm) e
        exact ((he.owner m').mp hm').2 hm
    · intro hgone
      by_contra hnot
      obtain ⟨hall, hno⟩ := not_or.mp hnot
      refine hall fun m hm e => hgone m ((he.owner m).mpr ⟨hm, fun hf => hno ⟨m, hf, e⟩⟩) e
  · rcases List.mem_append.mp hf with hf | hf
    · exact h.past f hf
    · obtain ⟨g, hg, rfl⟩ := List.mem_map.mp hf
      obtain ⟨hown, hroot⟩ := hfrees g hg
      exact ⟨h.lt _ hown, hroot.trans (h.root _ hown).1, by rw [hroot]; exact (h.root _ hown).2⟩
  · have hmap : (H.free (frees r.2)).released.map Prod.fst =
        H.released.map Prod.fst ++ (freed r.2).map H.space := by
      simp [Spaces.free, ← frees_owners]
    rw [hmap]
    refine List.nodup_append.mpr ⟨h.once, ?_, fun n hn n' hn' e => ?_⟩
    · refine he.nodup.map_on fun m hm m' hm' e => ?_
      exact h.inj m m' (howner m hm) (howner m' hm') e
    · obtain ⟨m, hm, rfl⟩ := List.mem_map.mp hn'
      exact (h.gone _ (h.lt m (howner m hm))).mp (e ▸ hn) m (howner m hm) rfl

theorem Kept.own (h : Kept ps H) (hb : Begins ps i qs) (hown : (qs i).mm = i)
    (hr : (qs i).root.isSome) : Kept qs (H.make i (qs i).root) := by
  have hback : ∀ {m}, m ≠ i → qs.Owner m → ps.Owner m := fun hm => (hb.owner hm).mp
  have hnot : ¬ ps.Owner i := fun ho => ho.1 hb.free
  have hi : qs.Owner i := ⟨hb.live.1, hown⟩
  refine ⟨fun m hm => ?_, fun m m' hm hm' e => ?_, fun m hm => ?_, fun n hn => ?_, fun f hf => ?_,
    h.once⟩ <;> simp only [Spaces.make] at *
  · by_cases e : m = i
    · subst e
      rw [Function.update_self]
      exact Nat.lt_succ_self _
    · rw [Function.update_of_ne e]
      exact (h.lt m (hback e hm)).trans (Nat.lt_succ_self _)
  · by_cases e₁ : m = i <;> by_cases e₂ : m' = i
    · exact e₁.trans e₂.symm
    · subst e₁
      rw [Function.update_self, Function.update_of_ne e₂] at e
      exact absurd e.symm (h.lt m' (hback e₂ hm')).ne
    · subst e₂
      rw [Function.update_self, Function.update_of_ne e₁] at e
      exact absurd e (h.lt m (hback e₁ hm)).ne
    · rw [Function.update_of_ne e₁, Function.update_of_ne e₂] at e
      exact h.inj m m' (hback e₁ hm) (hback e₂ hm') e
  · by_cases e : m = i
    · subst e
      rw [Function.update_self, Function.update_self]
      exact ⟨rfl, hr⟩
    · have hm' := hback e hm
      rw [Function.update_of_ne e, Function.update_of_ne (h.lt m hm').ne, (hb.others m e).2.2.1]
      exact h.root m hm'
  · have hold : ∀ m, m ≠ i → (qs.Owner m → Function.update H.space i H.made m ≠ n ↔
        ps.Owner m → H.space m ≠ n) := fun m e => by rw [hb.owner e, Function.update_of_ne e]
    rcases Nat.lt_succ_iff_lt_or_eq.mp hn with hlt | rfl
    · refine (h.gone n hlt).trans ⟨fun hall m hm => ?_, fun hall m hm => ?_⟩
      · by_cases e : m = i
        · subst e
          rw [Function.update_self]
          exact hlt.ne'
        · exact (hold m e).mpr (hall m) hm
      · have e : m ≠ i := fun e => hnot (e ▸ hm)
        exact (hold m e).mp (hall m) hm
    · refine iff_of_false (fun hgone => ?_) fun hall => hall i hi (Function.update_self ..)
      obtain ⟨f, hf, e⟩ := List.mem_map.mp hgone
      exact absurd e (h.past f hf).1.ne
  · obtain ⟨h₁, h₂, h₃⟩ := h.past f hf
    exact ⟨h₁.trans (Nat.lt_succ_self _), by rw [Function.update_of_ne h₁.ne, h₂], h₃⟩

theorem Kept.joins (h : Kept ps H) (hb : Begins ps i qs) (hj : (qs i).mm ≠ i) : Kept qs H := by
  have howner : ∀ m, qs.Owner m ↔ ps.Owner m := fun m => by
    by_cases e : m = i
    · subst e
      exact iff_of_false (fun ho => hj ho.2) fun ho => ho.1 hb.free
    · exact hb.owner e
  refine ⟨fun m hm => h.lt m ((howner m).mp hm), fun m m' hm hm' =>
    h.inj m m' ((howner m).mp hm) ((howner m').mp hm'), fun m hm => ?_, fun n hn => ?_, h.past,
    h.once⟩
  · have e : m ≠ i := fun e => hj (e ▸ hm.2)
    rw [(hb.others m e).2.2.1]
    exact h.root m ((howner m).mp hm)
  · exact (h.gone n hn).trans (forall_congr' fun m => by rw [howner])

theorem Begins.join_ne (h : Begins ps i qs) (hf : Fine ps) (hs : (ps s).Live) : (ps s).mm ≠ i :=
  fun e => (hf.owner s hs.1).1 (e ▸ h.free)

/-- **One deed** keeps the spaces. -/
theorem Takes.kept {d : Deed} {es : List Effect} (ht : Takes ps d qs es) (hf : Fine ps)
    (h : Kept ps H) : Kept qs ((H.free (frees es)).deed qs d) := by
  have hstays := ht.stays
  have hnil : H.free (frees []) = H := Spaces.free_nil H
  cases ht with
  | creates born space own root =>
      rw [hnil]
      exact h.own space own root
  | threads run born space join =>
      rw [hnil]
      exact h.joins space (join ▸ space.join_ne hf (Process.live_of_running run))
  | vforks run born space join leader vfork child =>
      rename_i s i rs
      have hi : ((rs.setState s .vforkWait) i).mm = (rs i).mm := by
        by_cases e : i = s
        · subst e
          rw [setState, edit_self]
        · rw [setState, edit_of_ne e]
      rw [hnil]
      refine h.joins space ?_
      rw [hi, join]
      exact space.join_ne hf (Process.live_of_running run)
  | ends live fates space => exact h.ends space
  | dismisses run fates space => exact h.ends space
  | execs run fates run' dismissed only image space space' own leader root =>
      exact (h.ends space).own space' own root
  | _ =>
      obtain ⟨hs, -, he⟩ := hstays (by simp)
      rw [he, Spaces.free_nil]
      exact h.same hs

theorem deed_congr_same (h : qs.Same ps) (d : Deed) :
    H.deed qs d = H.deed ps d := by
  cases d with
  | creates i parent => simp only [Spaces.deed, (h i).root]
  | execs s => simp only [Spaces.deed, (h s).root]
  | _ => rfl

/-- **The deeds of an event** keep the spaces. -/
theorem Course.kept {ds : List Deed} {fs : List (Nat × Option Nat)} (hc : Course ds ps fs qs)
    (hf : Fine ps) (hn : ps.Named) (h : Kept ps H) :
    Kept qs (ds.foldl (·.deed qs) (H.free fs)) := by
  cases hc with
  | rest go =>
      rw [Spaces.free_nil]
      exact h.same go.same
  | last go same takes next =>
      have := takes.kept (hf.congr go.same) (h.same go.same)
      rw [List.foldl_cons, List.foldl_nil, deed_congr_same next.same]
      exact this.same next.same
  | group kill first go same between takes next =>
      obtain ⟨-, hfine, -⟩ := first.killed kill hf hn
      have h₁ := (first.kept hf h).same go.same
      have h₂ := (takes.kept (hfine.congr go.same) h₁).same next.same
      rw [Spaces.free_append]
      rcases kill with rfl | rfl <;> exact h₂

/-- A slot in use that a deed leaves in use. -/
structure Holds (ps qs : Procs) (i : Nat) : Prop where
  pid : (qs i).pid = (ps i).pid
  live : (qs i).Live → (ps i).Live
  root : (qs i).state ≠ .unused → (qs i).root = (ps i).root

theorem Holds.of_same (hs : qs.Same ps) (ha : (ps i).Alike (qs i)) : Holds ps qs i :=
  ⟨ha.pid, (hs i).live.mp, fun _ => (hs i).root⟩

theorem Born.holds (h : Born ps i qs) {j : Nat} (hj : j ≠ i) (hb : Begins ps i qs) :
    Holds ps qs j := by
  refine ⟨by rw [h.others j hj], fun hl => ?_, fun _ => (hb.others j hj).2.2.1⟩
  rw [h.others j hj] at hl
  exact hl

theorem Fates.holds {r : Outcome} {t : Nat} (h : Fates t ps r.1) (he : Ends ps r) :
    Holds ps r.1 i := ⟨(h.fixed i).pid, h.live, fun hu => (he.used i hu).2.2.2⟩

/-- **One deed** leaves the space of a slot as it is, but for a new image. -/
theorem Takes.holds {d : Deed} {es : List Effect} (ht : Takes ps d qs es)
    (hi : (ps i).state ≠ .unused) (hd : d ≠ .execs i) : Holds ps qs i := by
  have hstays := ht.stays
  cases ht with
  | creates born space => exact born.holds (fun e => hi (e ▸ space.free)) space
  | threads run born space => exact born.holds (fun e => hi (e ▸ space.free)) space
  | vforks run born space =>
      rename_i s j rs _ _ _ _
      have hij : i ≠ j := fun e => hi (e ▸ space.free)
      obtain ⟨hpid, hlive⟩ : (rs i).pid = (ps i).pid ∧ ((rs i).Live → (ps i).Live) := by
        rw [born.others i hij]
        exact ⟨rfl, id⟩
      refine ⟨?_, fun hl => ?_, fun _ => (space.others i hij).2.2.1⟩
      · rw [← hpid]
        by_cases e : i = s
        · subst e
          rw [setState, edit_self]
        · rw [setState, edit_of_ne e]
      · by_cases e : i = s
        · subst e
          exact Process.live_of_running run
        · rw [setState, edit_of_ne e] at hl
          exact hlive hl
  | ends live fates space => exact fates.holds space
  | dismisses run fates space => exact fates.holds space
  | execs run fates run' dismissed only image space space' own leader root =>
      rename_i s rs ts
      have his : i ≠ s := fun e => hd (by rw [e])
      refine ⟨(image.alike i).pid.trans (fates.fixed i).pid, fun hl => fates.live (image.live hl),
        fun hu => ?_⟩
      obtain ⟨h₁, -, h₃, -⟩ := space'.others i his
      exact h₃.trans (space.used i (mt h₁.mpr hu)).2.2.2
  | _ =>
      obtain ⟨hs, ha, -⟩ := hstays (by simp)
      exact .of_same hs (ha i)

theorem Holds.trans (h : Holds ps qs i) (h' : Holds qs rs i)
    (hu : (rs i).state ≠ .unused → (qs i).state ≠ .unused) : Holds ps rs i where
  pid := h'.pid.trans h.pid
  live hl := h.live (h'.live hl)
  root hr := (h'.root hr).trans (h.root (hu hr))

theorem Go.holds (h : Go ps qs) : Holds ps qs i := .of_same h.same (h i).alike

/-- **The deeds of an event** leave the space of a slot as it is, but for a new image. -/
theorem Course.holds {ds : List Deed} {fs : List (Nat × Option Nat)} (hc : Course ds ps fs qs)
    (hi : (ps i).state ≠ .unused) (hd : .execs i ∉ ds) : Holds ps qs i := by
  cases hc with
  | rest go => exact go.holds
  | last go same takes next =>
      have hgo := mt (go.same i).unused.mp hi
      have h := takes.holds hgo fun e => hd (e ▸ List.mem_cons_self)
      exact (go.holds.trans h fun _ => hgo).trans next.holds (mt (next.same i).unused.mpr)
  | group kill first go same between takes next =>
      have hfirst := first.holds hi fun e => hd (e ▸ List.mem_cons_self)
      cases takes with
      | ends live fates space =>
          have hlast := (fates.holds (r := (_, _)) space).trans next.holds
            (mt (next.same i).unused.mpr)
          refine (hfirst.trans go.holds (mt (go.same i).unused.mpr)).trans hlast fun hu => ?_
          exact (space.used i (mt (next.same i).unused.mpr hu)).1

end Procs

namespace Machine

variable {σ τ μ : Machine} {c s : Nat} {ds : List Deed} {H : Spaces}

/-! ### The space of a processor -/

/-- Each processor has the space of its slot, or that of the kernel. -/
def Loaded (σ : Machine) : Prop :=
  ∀ c, σ.active c = (σ.current c).bind fun s => (σ.procs s).root

/-- What an event of processor `c` does to the spaces loaded. -/
structure Loads (c : Nat) (ds : List Deed) (σ τ : Machine) : Prop where
  others : ∀ c', c' ≠ c → τ.current c' = σ.current c' ∧ τ.active c' = σ.active c'
  own : (τ.current c = σ.current c ∧ τ.active c = σ.active c ∧ ∀ s, .execs s ∉ ds) ∨
    τ.active c = (τ.current c).bind fun s => (τ.procs s).root
  execs : ∀ s, .execs s ∈ ds → σ.current c = some s

theorem loads_same (hcur : τ.current = σ.current) (hact : τ.active = σ.active)
    (hx : ∀ s, .execs s ∉ ds) : Loads c ds σ τ where
  others c' _ := ⟨congrFun hcur c', congrFun hact c'⟩
  own := .inl ⟨congrFun hcur c, congrFun hact c, hx⟩
  execs s hs := absurd hs (hx s)

theorem loads_dispatch (hμ : ∀ c', c' ≠ c → μ.current c' = σ.current c' ∧ μ.active c' = σ.active c')
    (hx : ∀ s, .execs s ∉ ds) (ws : Wakes) : Loads c ds σ (μ.dispatch c ws) := by
  refine ⟨fun c' hne => ?_, .inr ?_, fun s hs => absurd hs (hx s)⟩
  · rw [dispatch]
    cases μ.choose (μ.procs.wakeAll ws) with
    | none => simpa only [Function.update_of_ne hne] using hμ c' hne
    | some i => simpa only [Function.update_of_ne hne] using hμ c' hne
  · rw [dispatch]
    cases μ.choose (μ.procs.wakeAll ws) with
    | none => simp only [Function.update_self, Option.bind_none]
    | some i =>
        simp only [Function.update_self, Option.bind_some]
        rw [Procs.setState, Procs.edit_self]

/-- Slot `s` waits. -/
theorem loads_block (hcur : μ.current = σ.current) (hact : μ.active = σ.active)
    (hx : ∀ s, .execs s ∉ ds) (ws : Wakes) : Loads c ds σ (μ.block c s ws) :=
  loads_dispatch (μ := μ.save c s) (fun c' _ => ⟨congrFun hcur c', congrFun hact c'⟩) hx ws

/-- Slot `s` ends on its processor. -/
theorem loads_exit (hcur : μ.current = σ.current) (hact : μ.active = σ.active)
    (hx : ∀ s, .execs s ∉ ds) (ws : Wakes) (mapped : Bool) :
    Loads c ds σ (μ.exitLocked c s ws mapped) := by
  refine loads_dispatch (fun c' hne => ?_) hx ws
  have hb : Beside { (μ.after (μ.procs.clearTidOf s mapped)).save c s with
    current := Function.update μ.current c none
    active := Function.update μ.active c none } (μ.leaveCpu c s mapped) := reap_beside ..
  rw [hb.current, hb.active, ← hcur, ← hact]
  exact ⟨Function.update_of_ne hne .., Function.update_of_ne hne ..⟩

theorem begins_same (r : Option Nat × Procs) (ctx fp : Nat) :
    (σ.begins r ctx fp).current = σ.current ∧ (σ.begins r ctx fp).active = σ.active := by
  rw [begins]
  cases r.1 <;> exact ⟨rfl, rfl⟩

/-- Only `exec_replace` gives a process a new image. -/
theorem execs_not_mem {k : Call} (hk : ∀ root asid ctx, k ≠ .execReplace root asid ctx) (t : Nat) :
    .execs t ∉ σ.callDeeds s k := by
  cases k with
  | execReplace root asid ctx => exact absurd rfl (hk root asid ctx)
  | ipcSend dstPid msg msgPtr =>
      simp only [callDeeds, Option.mem_toList, Option.bind_eq_some_iff]
      rintro ⟨d, -, hd⟩
      split_ifs at hd <;> simp at hd
  | ipcReply toPid msg =>
      simp only [callDeeds, Option.mem_toList, Option.bind_eq_some_iff]
      rintro ⟨d, -, hd⟩
      split_ifs at hd
      simp at hd
  | exitIfKilled mapped =>
      simp only [callDeeds]
      split_ifs <;> simp
  | exitGroup mapped =>
      simp only [callDeeds, kill]
      split_ifs <;> simp
  | _ => simp [callDeeds]

theorem loads_execReplace (h : σ.Sound) (hc : σ.current c = some s) (root asid ctx : Nat) :
    Loads c (σ.callDeeds s (.execReplace root asid ctx)) σ (σ.execReplace c s root asid ctx) := by
  have hspec := Procs.execReplace_spec root asid h.fine (Process.live_of_running (h.running hc))
  rw [callDeeds, Machine.execReplace]
  cases hr : (σ.procs.execReplace s root asid).1 with
  | false =>
      simp only [Bool.false_eq_true, if_false]
      exact loads_same rfl rfl (by simp)
  | true =>
      obtain ⟨t, -, -, -, hdone⟩ := hspec
      obtain ⟨-, -, hroot, -⟩ := hdone hr
      simp only [if_true]
      refine ⟨fun c' hne => ⟨rfl, Function.update_of_ne hne ..⟩, .inr ?_, fun t ht => ?_⟩
      · simp only [after, Function.update_self, hc, Option.bind_some, hroot]
      · cases Deed.execs.inj (List.mem_singleton.mp ht)
        exact hc

theorem loads_killSig (ws : Wakes) (pid sig : Nat) (mapped : Bool) :
    Loads c (σ.deeds (.killSig c pid sig mapped ws)) σ (σ.killSig c ws pid sig mapped) := by
  have hx : ∀ s, .execs s ∉ σ.deeds (.killSig c pid sig mapped ws) := fun s => by
    cases hs : σ.procs.slotOf pid with
    | none => simp [deeds, hs]
    | some t =>
        simp only [deeds, hs, kill, Option.map_some, Option.toList_some]
        split_ifs <;> simp
  rw [killSig]
  cases hs : σ.procs.slotOf pid with
  | none => exact loads_same rfl rfl hx
  | some t =>
      simp only
      split_ifs
      · exact loads_exit (by rfl) (by rfl) hx ws mapped
      · have hb := killOther_beside t (σ.onProcs (·.setStatusOf t (sig % 128)))
        exact loads_same (by exact hb.current) (by exact hb.active) hx

theorem loads_call (h : σ.Sound) (hc : σ.current c = some s) {k : Call} (ws : Wakes)
    (he : σ.call c s ws k = some τ) : Loads c (σ.callDeeds s k) σ τ := by
  have hx := execs_not_mem (σ := σ) (s := s) (k := k)
  cases k with
  | threadCreate ctx =>
      obtain ⟨hcur, hact⟩ := begins_same (σ := σ) (σ.procs.threadCreate s 0) ctx 0
      exact Option.some.inj he ▸ loads_same hcur hact (hx (by simp))
  | cloneThread ctx clearTid =>
      obtain ⟨hcur, hact⟩ := begins_same (σ := σ) (σ.procs.threadCreate s clearTid) ctx (σ.fpu c)
      exact Option.some.inj he ▸ loads_same hcur hact (hx (by simp))
  | fork root asid ctx clearTid =>
      obtain ⟨hcur, hact⟩ :=
        begins_same (σ := σ) (σ.procs.fork s (some (root, asid)) clearTid) ctx (σ.fpu c)
      exact Option.some.inj he ▸ loads_same hcur hact (hx (by simp))
  | vfork ctx clearTid =>
      obtain ⟨hcur, hact⟩ := begins_same (σ := σ) (σ.procs.fork s none clearTid) ctx (σ.fpu c)
      rw [← Option.some.inj he, vfork]
      cases (σ.procs.fork s none clearTid).1 with
      | none => exact loads_same hcur hact (hx (by simp))
      | some i => exact loads_block (by exact hcur) (by exact hact) (hx (by simp)) ws
  | execReplace root asid ctx => exact Option.some.inj he ▸ loads_execReplace h hc root asid ctx
  | ipcSend dstPid msg msgPtr =>
      rw [← Option.some.inj he, ipcSend]
      split_ifs
      · exact loads_block (by rfl) (by rfl) (hx (by simp)) ws
      · exact loads_same rfl rfl (hx (by simp))
  | ipcRecv msgPtr =>
      rw [← Option.some.inj he, ipcRecv]
      cases (σ.procs.ipcRecv s msgPtr).1 with
      | some pid => exact loads_same rfl rfl (hx (by simp))
      | none => exact loads_block (by rfl) (by rfl) (hx (by simp)) ws
  | ipcTryRecv msgPtr =>
      rw [← Option.some.inj he, ipcTryRecv]
      cases σ.procs.findSender s <;> exact loads_same rfl rfl (hx (by simp))
  | waitChild pid statusPtr nohang =>
      rw [← Option.some.inj he, waitChild]
      cases σ.findExit (σ.procs.leaderPid s) pid with
      | some x => exact loads_same rfl rfl (hx (by simp))
      | none =>
          simp only
          split_ifs
          · exact loads_same rfl rfl (hx (by simp))
          · exact loads_block (by rfl) (by rfl) (hx (by simp)) ws
          · exact loads_same rfl rfl (hx (by simp))
  | waitidChild pid nohang nowait =>
      rw [← Option.some.inj he, waitidChild]
      cases σ.findExit (σ.procs.leaderPid s) pid with
      | some x =>
          simp only
          split_ifs <;> exact loads_same rfl rfl (hx (by simp))
      | none =>
          simp only
          split_ifs
          · exact loads_same rfl rfl (hx (by simp))
          · exact loads_block (by rfl) (by rfl) (hx (by simp)) ws
          · exact loads_same rfl rfl (hx (by simp))
  | futexWait addr => exact Option.some.inj he ▸ loads_block (by rfl) (by rfl) (hx (by simp)) ws
  | pause st ret =>
      obtain ⟨-, he⟩ := (Option.ite_none_right_eq_some ..).mp he
      exact Option.some.inj he ▸ loads_block (by rfl) (by rfl) (hx (by simp)) ws
  | exitIfKilled mapped =>
      rw [← Option.some.inj he, exitIfKilled]
      split_ifs
      · exact loads_exit (by rfl) (by rfl) (hx (by simp)) ws mapped
      · exact loads_same rfl rfl (hx (by simp))
  | exitCurrent mapped => exact Option.some.inj he ▸ loads_exit (by rfl) (by rfl) (hx (by simp)) ws mapped
  | exitGroup mapped =>
      rw [← Option.some.inj he, exitGroup]
      split_ifs
      · have hb := killOther_beside (σ.procs s).leader σ
        exact loads_exit hb.current hb.active (hx (by simp)) ws mapped
      · exact loads_exit (by rfl) (by rfl) (hx (by simp)) ws mapped
  | _ => exact Option.some.inj he ▸ loads_same rfl rfl (hx (by simp))

/-- **One event** loads the space of the slot that it chooses. -/
theorem loads_act (h : σ.Sound) {e : Event} (he : σ.act e = some τ) :
    ∃ c, Loads c (σ.deeds e) σ τ := by
  have hnil : ∀ s, Deed.execs s ∉ [] := fun _ => List.not_mem_nil
  cases e with
  | enterScheduler c ws =>
      obtain ⟨-, hτ⟩ := (Option.ite_none_left_eq_some ..).mp he
      refine ⟨c, Option.some.inj hτ ▸ loads_dispatch (fun c' hne => ?_) hnil ws⟩
      exact ⟨Function.update_of_ne hne .., rfl⟩
  | schedule c ws =>
      obtain ⟨-, hτ⟩ := (Option.ite_none_right_eq_some ..).mp he
      refine ⟨c, Option.some.inj hτ ▸ ?_⟩
      rw [schedule]
      cases σ.current c <;> exact loads_dispatch (fun _ _ => by exact ⟨rfl, rfl⟩) hnil ws
  | onIpi c ws =>
      obtain ⟨-, hτ⟩ := (Option.ite_none_right_eq_some ..).mp he
      refine ⟨c, Option.some.inj hτ ▸ ?_⟩
      rw [onIpi]
      split_ifs
      · exact loads_dispatch (fun _ _ => by exact ⟨rfl, rfl⟩) hnil ws
      · exact loads_same rfl rfl hnil
  | user c frame fpu =>
      obtain ⟨-, hτ⟩ := (Option.ite_none_left_eq_some ..).mp he
      exact ⟨c, Option.some.inj hτ ▸ loads_same rfl rfl hnil⟩
  | createEx c root asid ctx =>
      obtain ⟨hcur, hact⟩ :=
        begins_same (σ := σ) (σ.procs.createEx (σ.current c) root asid) ctx 0
      exact ⟨c, Option.some.inj he ▸ loads_same hcur hact (by simp [deeds])⟩
  | killSig c pid sig mapped ws =>
      obtain ⟨-, hτ⟩ := (Option.ite_none_right_eq_some ..).mp he
      exact ⟨c, Option.some.inj hτ ▸ loads_killSig ws pid sig mapped⟩
  | call c k ws =>
      obtain ⟨s, hc, hk⟩ := Option.bind_eq_some_iff.mp he
      refine ⟨c, ?_⟩
      rw [deeds, hc]
      exact loads_call h hc ws hk
  | wake ws => exact ⟨0, Option.some.inj he ▸ loads_same rfl rfl hnil⟩

theorem Loads.loaded (h : Loads c ds σ τ) (hl : σ.Loaded) (hσ : σ.Sound) (hτ : τ.Sound)
    {fs : List (Nat × Option Nat)} (hc : Procs.Course ds σ.procs fs τ.procs) : τ.Loaded := by
  have hkeeps : ∀ c', (∀ s ∈ σ.current c', .execs s ∉ ds) → τ.current c' = σ.current c' →
      τ.active c' = σ.active c' → τ.active c' = (τ.current c').bind fun s => (τ.procs s).root := by
    intro c' hx hcur hact
    rw [hact, hl c', hcur]
    cases hs : σ.current c' with
    | none => rfl
    | some s =>
        have hlive := Process.live_of_running (hσ.running hs)
        have hlive' := Process.live_of_running (hτ.running (hcur.trans hs))
        exact ((hc.holds hlive.1 (hx s hs)).root hlive'.1).symm
  intro c'
  by_cases e : c' = c
  · subst e
    rcases h.own with ⟨hcur, hact, hx⟩ | hact
    · exact hkeeps c' (fun s _ => hx s) hcur hact
    · exact hact
  · obtain ⟨hcur, hact⟩ := h.others c' e
    refine hkeeps c' (fun s hs hx => e ?_) hcur hact
    exact ((hσ.current c' s).mp hs).2.symm.trans ((hσ.current c s).mp (h.execs s hx)).2

theorem loads_step (h : σ.Sound) {e : Event} (he : σ.step e = some τ) :
    ∃ c, Loads c (σ.deeds e) σ τ := by
  obtain ⟨c, hloads⟩ := loads_act h.quiet he
  rw [deeds_congr] at hloads
  exact ⟨c, hloads.others, hloads.own, hloads.execs⟩

/-! ### Runs -/

/-- Who uses which space, and which spaces were released. -/
structure Lifetimes (σ : Machine) (H : Spaces) : Prop where
  /-- An owner counts the live slots whose space it has. -/
  members : ∀ m, σ.procs.Owner m → (σ.procs m).members = (σ.procs.users m).card
  /-- A space is released when no live slot uses it, and once. -/
  gone : ∀ n < H.made, H.Gone n ↔ ∀ i, (σ.procs i).Live → H.space (σ.procs i).mm ≠ n
  once : (H.released.map Prod.fst).Nodup
  tables : ∀ f ∈ H.released, f.1 < H.made ∧ f.2 = H.root f.1 ∧ f.2.isSome
  /-- A slot in use has the root of a space that was not released. -/
  points : ∀ i, (σ.procs i).state ≠ .unused → H.space (σ.procs i).mm < H.made ∧
    ¬ H.Gone (H.space (σ.procs i).mm) ∧ (σ.procs i).root = H.root (H.space (σ.procs i).mm)
  /-- So has the slot of each processor, which has that root loaded. -/
  active : ∀ c, σ.active c = (σ.current c).bind fun s => H.root (H.space (σ.procs s).mm)
  current : ∀ c s, σ.current c = some s → (σ.procs s).Live
  zombie : ∀ m, (σ.procs m).state = .zombie →
    (σ.procs m).mm = m ∧ ∃ i, (σ.procs i).Live ∧ (σ.procs i).mm = m

/-- A slot that is kept for its space stays so until no slot and no processor uses the space. -/
def Rests (σ τ : Machine) : Prop := ∀ m, (σ.procs m).state = .zombie →
  (τ.procs m).state = .zombie ∧ (τ.procs m).pid = (σ.procs m).pid ∨
  (τ.procs m).state = .unused ∧ (∀ i, (τ.procs i).state ≠ .unused → (τ.procs i).mm ≠ m) ∧
    ∀ c, ∀ i ∈ τ.current c, (τ.procs i).mm ≠ m

/-- The runs with the note of the spaces. -/
abbrev Housing : Machine × Spaces → Prop :=
  Runs.Noted step Spaces.note (· = boot) .none fun _ _ => True

theorem Housing.kept {x : Machine × Spaces} (h : Housing x) :
    x.1.Sound ∧ x.1.Loaded ∧ x.1.procs.Kept x.2 := by
  refine h.invariant (I := fun (σ : Machine) H => σ.Sound ∧ σ.Loaded ∧ σ.procs.Kept H)
    (fun σ hσ => ?_) fun σ e τ H hσ _ hs => ?_
  · rw [hσ]
    exact ⟨sound_boot, fun _ => rfl, Procs.kept_empty⟩
  · obtain ⟨hsound, hloaded, hkept⟩ := hσ
    have hcourse := hsound.course hs
    obtain ⟨c, hloads⟩ := loads_step hsound hs
    exact ⟨hsound.step hs, hloads.loaded hloaded hsound (hsound.step hs) hcourse,
      hcourse.kept hsound.fine hsound.named hkept⟩

theorem Sound.user (h : σ.Sound) {m : Nat} (hm : σ.procs.Owner m) :
    ∃ i, (σ.procs i).Live ∧ (σ.procs i).mm = m := by
  by_cases hz : (σ.procs m).state = .zombie
  · have hpos := (h.fine.zombie m hz).2
    rw [h.fine.members m hm] at hpos
    obtain ⟨i, hi⟩ := Finset.card_pos.mp hpos
    exact ⟨i, (Finset.mem_filter.mp hi).2⟩
  · exact ⟨m, ⟨hm.1, hz⟩, hm.2⟩

theorem Sound.lifetimes (h : σ.Sound) (hl : σ.Loaded) (hk : σ.procs.Kept H) : Lifetimes σ H := by
  have howner : ∀ i, (σ.procs i).state ≠ .unused → σ.procs.Owner (σ.procs i).mm := h.fine.owner
  have hroot : ∀ i, (σ.procs i).state ≠ .unused →
      (σ.procs i).root = H.root (H.space (σ.procs i).mm) := fun i hi =>
    (h.fine.root i hi).trans (hk.root _ (howner i hi)).1
  refine ⟨h.fine.members, fun n hn => ?_, hk.once, hk.past, fun i hi => ?_, fun c => ?_,
    fun c s hc => Process.live_of_running (h.running hc), fun m hm => ?_⟩
  · refine (hk.gone n hn).trans ⟨fun hall i hi => hall _ (howner i hi.1), fun hall m hm e => ?_⟩
    obtain ⟨i, hi, him⟩ := h.user hm
    exact hall i hi (him ▸ e)
  · have hlt := hk.lt _ (howner i hi)
    exact ⟨hlt, fun hgone => (hk.gone _ hlt).mp hgone _ (howner i hi) rfl, hroot i hi⟩
  · rw [hl c]
    cases hs : σ.current c with
    | none => rfl
    | some s => exact hroot s (Process.live_of_running (h.running hs)).1
  · have hmm := (h.fine.zombie m hm).1
    exact ⟨hmm, h.user ⟨by rw [hm]; decide, hmm⟩⟩

theorem Sound.rests (h : σ.Sound) {e : Event} (he : σ.step e = some τ) : Rests σ τ := by
  intro m hm
  have hτ := h.step he
  have hcourse := h.course he
  obtain ⟨c, hloads⟩ := loads_step h he
  have hx : .execs m ∉ σ.deeds e := fun hx =>
    absurd ((h.running (hloads.execs m hx)).symm.trans hm) (by decide)
  have hholds := hcourse.holds (by rw [hm]; decide) hx
  have hdead : ¬ (τ.procs m).Live := fun hl => (hholds.live hl).2 hm
  by_cases hu : (τ.procs m).state = .unused
  · have hno : ∀ i, (τ.procs i).state ≠ .unused → (τ.procs i).mm ≠ m := fun i hi e =>
      (hτ.fine.owner i hi).1 (e ▸ hu)
    refine .inr ⟨hu, hno, fun c i hc => hno i ?_⟩
    exact (Process.live_of_running (hτ.running hc)).1
  · exact .inl ⟨by_contra fun hz => hdead ⟨hu, hz⟩, hholds.pid⟩

/-- **A space is released** once, when no slot uses it any more, and a slot that is kept for its
space is not free before. -/
theorem spaces_released {x : Machine × Spaces} (h : Housing x) :
    Lifetimes x.1 x.2 ∧ ∀ e τ, x.1.step e = some τ → Rests x.1 τ := by
  obtain ⟨hs, hl, hk⟩ := h.kept
  exact ⟨hs.lifetimes hl hk, fun e τ he => hs.rests he⟩

/-- The leader of a thread that runs elsewhere ends, and is kept for its space. -/
theorem spaces_released_run : ∃ x, (Housing x ∧ (x.1.procs 0).state = .zombie ∧
    x.1.current 1 = some 1) ∧ Lifetimes x.1 x.2 := by
  have hboot : Housing (boot, .none) := .start rfl
  have hrun : (Runs.run (Runs.noted step Spaces.note) (fun _ _ => True)
      [.createEx 0 7 1 0, .enterScheduler 0 [], .call 0 (.threadCreate 0) [], .enterScheduler 1 [],
       .call 0 (.exitGroup true) []] (boot, .none)).any
      (fun x => decide ((x.1.procs 0).state = .zombie ∧ x.1.current 1 = some 1)) = true := by
    decide +kernel
  obtain ⟨x, hx, hw⟩ := hboot.run_any hrun
  exact ⟨x, ⟨hx, hw⟩, (spaces_released hx).1⟩

end Machine

end Pulsar.Proc

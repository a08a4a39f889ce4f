import Pulsar.Vm.Fault

/-!
# Words written to the memory of a space (`process.rs`)

The kernel writes for a process that is not running by translating the address of each word and
storing at the physical address.  `Direct pt w` says that the translation is there, for writing,
and that the bytes of the word have their places in frames that lie one after the other; `puts_iff`
says that this is exactly when the words arrive, whatever the memory holds.
-/

namespace Pulsar.Vm

/-- A word to write: its address, its number of bytes and its value. -/
structure Word where
  va : Nat
  n : Nat
  value : Nat

/-- Byte `t` of the value. -/
def Word.byte (w : Word) (t : Nat) : UInt8 := UInt8.ofNat (w.value / 256 ^ t)

namespace Mm

/-- `n` bytes are stored at a physical address. -/
def store (pa n value : Nat) (s : Mm) : Mm :=
  { s with mem := fun f i =>
      if i < PAGE ∧ pa ≤ f * PAGE + i ∧ f * PAGE + i < pa + n then
        UInt8.ofNat (value / 256 ^ (f * PAGE + i - pa))
      else s.mem f i }

/-- A word is written through `translate_user(root, va, true)`, or dropped. -/
def put (root : Nat) (w : Word) (s : Mm) : Mm :=
  match (s.pts root).translateUser w.va true with
  | some f => s.store (f * PAGE + w.va % PAGE) w.n w.value
  | none => s

/-- Words are written in order. -/
def puts (root : Nat) (ws : List Word) (s : Mm) : Mm := ws.foldl (fun s w => s.put root w) s

/-- The byte that a space has at an address, if the page is present. -/
def userByte (root x : Nat) (s : Mm) : Option UInt8 :=
  ((s.pts root).leaf[vpn x]?).map fun e => s.mem e.frame (x % PAGE)

/-- The same state with other contents of memory. -/
def withMem (mem : Nat → Bytes) (s : Mm) : Mm := { s with mem := mem }

end Mm

/-- No two bytes of the words have the same place in a page. -/
def Spaced (ws : List Word) : Prop :=
  (∀ w ∈ ws, 0 < w.n ∧ w.n ≤ PAGE) ∧ ws.Pairwise fun v w =>
    ∀ a < v.n, ∀ b < w.n, (v.va + a) % PAGE ≠ (w.va + b) % PAGE

/-- The word is written where its space has it. -/
def Direct (pt : Pt) (w : Word) : Prop :=
  ∃ f, pt.translateUser w.va true = some f ∧ ∀ t < w.n, ∃ e, pt.leaf[vpn (w.va + t)]? = some e ∧
    e.frame * PAGE + (w.va + t) % PAGE = f * PAGE + w.va % PAGE + t

/-- No other space has one of the pages of the words as a page of its own. -/
def Alone (pts : Nat → Pt) (root : Nat) (ws : List Word) : Prop :=
  ∀ r, r ≠ root → ∀ x e, (pts r).leaf[vpn x]? = some e → e.flags.isShared = false →
    ∀ w ∈ ws, ∀ t < w.n, ∀ e', (pts root).leaf[vpn (w.va + t)]? = some e' → e'.frame ≠ e.frame

/-- The words are in the space, and no page that another space has for itself has changed. -/
structure Arrived (root : Nat) (ws : List Word) (s t : Mm) : Prop where
  bytes : ∀ w ∈ ws, ∀ k < w.n, t.userByte root (w.va + k) = some (w.byte k)
  others : ∀ r, r ≠ root → ∀ x e, (s.pts r).leaf[vpn x]? = some e → e.flags.isShared = false →
    t.userByte r x = s.userByte r x

section Words

variable {root f i k o : Nat} {w : Word} {ws pre post : List Word} {s : Mm} {mem : Nat → Bytes}

namespace Mm

@[simp] theorem pts_put : (s.put root w).pts = s.pts := by
  unfold put
  split <;> rfl

@[simp] theorem pts_puts : (s.puts root ws).pts = s.pts := by
  induction ws generalizing s with
  | nil => rfl
  | cons w ws ih => exact ih.trans pts_put

theorem puts_withMem (root : Nat) (ws : List Word) (s : Mm) :
    ∃ mem, s.puts root ws = s.withMem mem := by
  induction ws generalizing s with
  | nil => exact ⟨s.mem, rfl⟩
  | cons w ws ih =>
      obtain ⟨mem, hm⟩ : ∃ mem, s.put root w = s.withMem mem := by
        unfold put
        split
        · exact ⟨_, rfl⟩
        · exact ⟨s.mem, rfl⟩
      obtain ⟨mem', hm'⟩ := ih (s.put root w)
      exact ⟨mem', by rw [puts, List.foldl_cons, ← puts, hm', hm]; rfl⟩

@[simp] theorem pts_withMem : (s.withMem mem).pts = s.pts := rfl

theorem puts_append : s.puts root (pre ++ post) = (s.puts root pre).puts root post :=
  List.foldl_append ..

theorem mem_put_other (ho : o < PAGE) (h : ∀ k < w.n, (w.va + k) % PAGE ≠ o) :
    (s.put root w).mem f o = s.mem f o := by
  unfold put
  split
  · rename_i g hg
    refine if_neg fun hc => ?_
    refine h (f * PAGE + o - (g * PAGE + w.va % PAGE)) (by omega) ?_
    have : (w.va + (f * PAGE + o - (g * PAGE + w.va % PAGE))) % PAGE = o := by
      simp only [PAGE] at *
      omega
    exact this
  · rfl

theorem mem_puts_other (ho : o < PAGE) (h : ∀ w ∈ ws, ∀ k < w.n, (w.va + k) % PAGE ≠ o) :
    (s.puts root ws).mem f o = s.mem f o := by
  induction ws generalizing s with
  | nil => rfl
  | cons w ws ih =>
      exact (ih fun v hv => h v (List.mem_cons_of_mem w hv)).trans
        (mem_put_other ho (h w List.mem_cons_self))

/-- A byte at the place in a page of byte `k` of the word is written, or stays. -/
theorem mem_put (hn : w.n ≤ PAGE) (hk : k < w.n) : (s.put root w).mem f ((w.va + k) % PAGE) =
    if ∃ g, (s.pts root).translateUser w.va true = some g ∧
      f * PAGE + (w.va + k) % PAGE = g * PAGE + w.va % PAGE + k then w.byte k
    else s.mem f ((w.va + k) % PAGE) := by
  have hlt : (w.va + k) % PAGE < PAGE := Nat.mod_lt _ (by decide)
  unfold put
  split
  · rename_i g hg
    by_cases h : f * PAGE + (w.va + k) % PAGE = g * PAGE + w.va % PAGE + k
    · rw [if_pos ⟨g, hg, h⟩]
      have hsub : f * PAGE + (w.va + k) % PAGE - (g * PAGE + w.va % PAGE) = k := by omega
      refine (if_pos ⟨hlt, by omega, by omega⟩).trans ?_
      rw [hsub]
      rfl
    · rw [if_neg fun hc => ?_]
      · refine if_neg fun hc => h ?_
        obtain ⟨-, h₁, h₂⟩ := hc
        simp only [PAGE] at *
        omega
      · obtain ⟨g', hg', hc⟩ := hc
        obtain rfl : g = g' := Option.some.inj (hg.symm.trans hg')
        exact h hc
  · rename_i hg
    rw [if_neg]
    rintro ⟨g, hg', -⟩
    exact absurd (hg.symm.trans hg') (by simp)

end Mm

/-- The other words have no byte at the place in a page of a byte of `w`. -/
theorem Spaced.other (h : Spaced ws) (hw : ws = pre ++ w :: post) (hk : k < w.n) :
    (∀ v ∈ pre, ∀ a < v.n, (v.va + a) % PAGE ≠ (w.va + k) % PAGE) ∧
    ∀ v ∈ post, ∀ a < v.n, (v.va + a) % PAGE ≠ (w.va + k) % PAGE := by
  obtain ⟨-, h⟩ := h
  rw [hw, List.pairwise_append, List.pairwise_cons] at h
  obtain ⟨-, ⟨h₁, -⟩, h₂⟩ := h
  exact ⟨fun v hv a ha => h₂ v hv w List.mem_cons_self a ha k hk,
    fun v hv a ha => (h₁ v hv k hk a ha).symm⟩

theorem mem_puts (h : Spaced ws) (hw : w ∈ ws) (hk : k < w.n) :
    (s.puts root ws).mem f ((w.va + k) % PAGE) =
    if ∃ g, (s.pts root).translateUser w.va true = some g ∧
      f * PAGE + (w.va + k) % PAGE = g * PAGE + w.va % PAGE + k then w.byte k
    else s.mem f ((w.va + k) % PAGE) := by
  have hlt : (w.va + k) % PAGE < PAGE := Nat.mod_lt _ (by decide)
  obtain ⟨pre, post, hsplit⟩ := List.append_of_mem hw
  obtain ⟨hpre, hpost⟩ := h.other hsplit hk
  have hput : (s.puts root ws).mem f ((w.va + k) % PAGE) =
      ((s.puts root pre).put root w).mem f ((w.va + k) % PAGE) := by
    rw [hsplit, Mm.puts_append]
    exact Mm.mem_puts_other hlt hpost
  rw [hput, Mm.mem_put (h.1 w hw).2 hk, Mm.pts_puts, Mm.mem_puts_other hlt hpre]

theorem exists_ne (b : UInt8) : ∃ c, c ≠ b := by
  by_cases h : b = 0
  · exact ⟨1, by rw [h]; decide⟩
  · exact ⟨0, Ne.symm h⟩

theorem direct_of_arrived (h : Spaced ws) (hw : w ∈ ws)
    (harr : ∀ mem, Arrived root ws (s.withMem mem) ((s.withMem mem).puts root ws)) :
    Direct (s.pts root) w := by
  -- each byte has a page, and is written there, for else what was there would have stayed
  have hbyte : ∀ k < w.n, ∃ g e, (s.pts root).translateUser w.va true = some g ∧
      (s.pts root).leaf[vpn (w.va + k)]? = some e ∧
      e.frame * PAGE + (w.va + k) % PAGE = g * PAGE + w.va % PAGE + k := by
    intro k hk
    obtain ⟨c, hc⟩ := exists_ne (w.byte k)
    have hb := (harr fun _ _ => c).bytes w hw k hk
    rw [Mm.userByte, Mm.pts_puts, Mm.pts_withMem] at hb
    obtain ⟨e, he, hval⟩ := Option.map_eq_some_iff.mp hb
    rw [mem_puts h hw hk, Mm.pts_withMem] at hval
    split_ifs at hval with hg
    · obtain ⟨g, hg, heq⟩ := hg
      exact ⟨g, e, hg, he, heq⟩
    · exact absurd hval hc
  obtain ⟨g, -, hg, -, -⟩ := hbyte 0 (h.1 w hw).1
  refine ⟨g, hg, fun k hk => ?_⟩
  obtain ⟨g', e, hg', he, heq⟩ := hbyte k hk
  obtain rfl : g = g' := Option.some.inj (hg.symm.trans hg')
  exact ⟨e, he, heq⟩

theorem Direct.arrives (hd : Direct (s.pts root) w) (h : Spaced ws) (hw : w ∈ ws) (hk : k < w.n) :
    ∃ e, (s.pts root).leaf[vpn (w.va + k)]? = some e ∧
      (s.puts root ws).mem e.frame ((w.va + k) % PAGE) = w.byte k := by
  obtain ⟨g, hg, hd⟩ := hd
  obtain ⟨e, he, heq⟩ := hd k hk
  refine ⟨e, he, ?_⟩
  rw [mem_puts h hw hk, if_pos ⟨g, hg, heq⟩]

theorem vpn_place (x : Nat) (ho : o < PAGE) :
    vpn (pageOf x + o) = vpn x ∧ (pageOf x + o) % PAGE = o := by
  simp only [vpn, pageOf, PAGE] at *
  omega

theorem alone_of_arrived (h : Spaced ws)
    (harr : ∀ mem, Arrived root ws (s.withMem mem) ((s.withMem mem).puts root ws)) :
    Alone s.pts root ws := by
  intro r hr x e he hshared w hw k hk e' he' hframe
  have ho : (w.va + k) % PAGE < PAGE := Nat.mod_lt _ (by decide)
  obtain ⟨hvpn, hplace⟩ := vpn_place x ho
  obtain ⟨c, hc⟩ := exists_ne (w.byte k)
  have hstay := (harr fun _ _ => c).others r hr (pageOf x + (w.va + k) % PAGE) e
    (by rw [Mm.pts_withMem, hvpn, he]) hshared
  obtain ⟨e'', he'', hval⟩ := Direct.arrives
    (s := s.withMem fun _ _ => c) (direct_of_arrived h hw harr) h hw hk
  obtain rfl : e' = e'' := Option.some.inj (he'.symm.trans he'')
  simp only [Mm.userByte, Mm.pts_puts, Mm.pts_withMem, hvpn, hplace, he, Option.map_some,
    Option.some.injEq, ← hframe, hval] at hstay
  exact hc hstay.symm

theorem mem_puts_outside {f o : Nat} (ho : o < PAGE) (h : Spaced ws)
    (hd : ∀ w ∈ ws, Direct (s.pts root) w)
    (hout : ∀ w ∈ ws, ∀ k < w.n, ∀ e, (s.pts root).leaf[vpn (w.va + k)]? = some e → e.frame ≠ f) :
    (s.puts root ws).mem f o = s.mem f o := by
  by_cases hin : ∃ w ∈ ws, ∃ k < w.n, (w.va + k) % PAGE = o
  · obtain ⟨w, hw, k, hk, rfl⟩ := hin
    obtain ⟨g, hg, hd⟩ := hd w hw
    obtain ⟨e, he, heq⟩ := hd k hk
    rw [mem_puts h hw hk, if_neg]
    rintro ⟨g', hg', heq'⟩
    obtain rfl : g = g' := Option.some.inj (hg.symm.trans hg')
    refine hout w hw k hk e he ?_
    have : e.frame * PAGE = f * PAGE := by omega
    exact Nat.eq_of_mul_eq_mul_right (by decide) this
  · exact Mm.mem_puts_other ho fun w hw k hk he => hin ⟨w, hw, k, hk, he⟩

/-- **When words arrive**: whatever the memory holds, exactly when each is written where its space
has it and no other space has those pages for itself. -/
theorem puts_iff (h : Spaced ws) :
    (∀ mem, Arrived root ws (s.withMem mem) ((s.withMem mem).puts root ws)) ↔
      (∀ w ∈ ws, Direct (s.pts root) w) ∧ Alone s.pts root ws := by
  constructor
  · intro harr
    exact ⟨fun w hw => direct_of_arrived h hw harr, alone_of_arrived h harr⟩
  · rintro ⟨hd, ha⟩ mem
    refine ⟨fun w hw k hk => ?_, fun r hr x e he hshared => ?_⟩
    · obtain ⟨e, he, hval⟩ := Direct.arrives (s := s.withMem mem) (hd w hw) h hw hk
      rw [Mm.userByte, Mm.pts_puts, he, Option.map_some, hval]
    · rw [Mm.userByte, Mm.userByte, Mm.pts_puts, he, Option.map_some, Option.map_some,
        mem_puts_outside (s := s.withMem mem) (Nat.mod_lt _ (by decide)) h hd fun w hw k hk e' he' =>
          ha r hr x e he hshared w hw k hk e' he']

end Words

end Pulsar.Vm

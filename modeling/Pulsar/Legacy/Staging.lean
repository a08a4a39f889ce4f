import Pulsar.Legacy.Indices

/-!
# The staging buffer (`sys_fs_read` and `sys_fs_write` in `syscall.rs`)

The programs of old read and write a file whole, through a static buffer of 64 KiB that has a lock of
its own.  A reader looks at the size first, without that lock, and `read_file` then writes as much of
the buffer as the file has by that time.  What the others do to the files meanwhile is any operation
of `Fs`.

* **`staged_reads`**: while a file that is read into the buffer still has the size that was looked at,
  no read leaves the buffer, and each gives the contents of the file at one moment.
* `stage_races`: a file that grows, and one that is cut, between the look and the read.
-/

namespace Pulsar.Legacy

open Runs

/-- The length of `STAGE`. -/
def STAGE_BYTES : Nat := 65536

namespace Format

/-- The contents of file `i`, as the disk has them. -/
def text (f : Format) (v : Volume) (i : Nat) : Option (List UInt8) :=
  if i ≥ v.count then none
  else
    let e := f.entry v.table i
    some ((List.range e.size_bytes).map fun k => v.disk.bytes (512 * e.start_sector + k))

/-- How much `read_file` writes. -/
def reach (f : Format) (v : Volume) (i : Nat) : Nat :=
  if i ≥ v.count then 0
  else sectors (f.entry v.table i).size_bytes * 512 % 2 ^ 32

end Format

namespace Fs

/-- The contents of the file of an index. -/
def text (σ : Fs) (i : Nat) : Option (List UInt8) :=
  match σ.backend with
  | .nbfs => nbfs.text σ.vol i
  | .pfs => pfs.text σ.vol i
  | .ext2 => ((σ.legacyIno i).1.bind σ.files).map Prod.fst
  | .none => none

/-- How much of the buffer `read_file` may write; an ext2 has blocks of `bs` bytes. -/
def reach (bs : Nat) (σ : Fs) (i : Nat) : Nat :=
  match σ.backend with
  | .nbfs => nbfs.reach σ.vol i
  | .pfs => pfs.reach σ.vol i
  | .ext2 => ((σ.legacyIno i).1.bind σ.files).elim 0 fun n => (n.1.length + bs - 1) / bs * bs
  | .none => 0

/-- `read_file(idx, stage_pa)`, with what is in the buffer then.  An ext2 writes the last block whole,
`slack` is what lies behind the end of the file; a read that fails leaves anything. -/
def fill (bs : Nat) (σ : Fs) (i : Nat) (stage : Nat → UInt8) (io : Io) (ok : Bool)
    (slack torn : Nat → UInt8) : Bool × (Nat → UInt8) × Fs :=
  let r := σ.readFile i stage io ok
  match r.1 with
  | some p =>
    let n := ((σ.text i).getD []).length
    (true, if σ.backend = .ext2 then blit p.2 n (σ.reach bs i - n) slack else p.2, r.2)
  | none => (false, blit stage 0 (σ.reach bs i) torn, r.2)

end Fs

/-- Where a call is. -/
inductive Phase where
  | idle
  /-- The index is one of a file; `ok` is what `user_ok` will say. -/
  | counted (i max : Nat) (ok : Bool)
  | looked (i max size want : Nat)
  | locked (i max size want : Nat)
  | filled (i max want : Nat)
  | writing (i : Nat) (size : UInt32)

/-- The files, `STAGE`, who has its lock, and the calls.  The blocks are of 1, 2 or 4 KiB. -/
structure Staging where
  bs : Nat
  blocks : bs ∣ STAGE_BYTES
  fs : Fs
  stage : Nat → UInt8
  holder : Option Nat
  call : Nat → Phase

inductive StageAct where
  /-- `sys_fs_read(idx, dst, max)` begins. -/
  | enter (p i dst max : Nat) (ok : Bool)
  | look (p : Nat)
  | lock (p : Nat)
  | fill (p : Nat) (io : Io) (ok : Bool) (slack torn : Nat → UInt8)
  | copy (p : Nat)
  /-- `sys_fs_write(idx, src, size)` begins, and has the lock where it needs it. -/
  | store (p i src : Nat) (bytes : Nat → UInt8) (size : UInt32) (ok : Bool)
  | commit (p : Nat) (io io₀ io₁ : Io) (left : Bool × List UInt8 × Nat)
  /-- Another operation on the files. -/
  | fs (a : IndexAct)

namespace Staging

/-- The call of `p` comes to a phase. -/
def goes (s : Staging) (p : Nat) (c : Phase) : Staging :=
  { s with call := Function.update s.call p c }

/-- The call of `p` returns, and gives the lock back. -/
def leaves (s : Staging) (p : Nat) : Staging := { s.goes p .idle with holder := none }

def step (s : Staging) : StageAct → Option Staging
  | .enter p i dst max ok =>
    match s.call p with
    | .idle =>
      if dst = 0 then some s
      else
        let r := s.fs.count
        some (if i ≥ r.1 then { s with fs := r.2 }
          else { s with fs := r.2 }.goes p (.counted i max ok))
    | _ => none
  | .look p =>
    match s.call p with
    | .counted i max ok =>
      let size := (s.fs.entry i).size_bytes
      let want := min size max
      some (if size > STAGE_BYTES - 512 then s.goes p .idle
        else if ok = false then s.goes p .idle
        else s.goes p (.looked i max size want))
    | _ => none
  | .lock p =>
    match s.call p with
    | .looked i max size want =>
      if s.holder = none then
        some { s.goes p (.locked i max size want) with holder := some p }
      else none
    | _ => none
  | .fill p io ok slack torn =>
    match s.call p with
    | .locked i max _ want =>
      let r := s.fs.fill s.bs i s.stage io ok slack torn
      let s := { s with stage := r.2.1, fs := r.2.2 }
      some (if r.1 then s.goes p (.filled i max want) else s.leaves p)
    | _ => none
  | .copy p =>
    match s.call p with
    | .filled _ _ _ => some (s.leaves p)
    | _ => none
  | .store p i src bytes size ok =>
    match s.call p with
    | .idle =>
      if src = 0 ∨ size.toNat > STAGE_BYTES - 512 ∨ ok = false then some s
      else if s.holder = none then
        let secbytes := (size.toNat + 511) / 512 * 512
        some { s.goes p (.writing i size) with
          holder := some p
          stage := blit (blit s.stage 0 size.toNat bytes) size.toNat (secbytes - size.toNat)
            fun _ => 0 }
      else none
    | _ => none
  | .commit p io io₀ io₁ left =>
    match s.call p with
    | .writing i size =>
      some ({ s with fs := (s.fs.writeFile i s.stage size.toNat io io₀ io₁ left).2 }.leaves p)
    | _ => none
  | .fs a => (s.fs.step a).map fun σ => { s with fs := σ }

end Staging

/-- What a read gave: at most how much was asked for, the bytes, and the contents of the file when it
was read into the buffer. -/
structure Gave where
  max : Nat
  bytes : List UInt8
  moment : List UInt8

/-- What is noted of a run: how much of the buffer was written, and what the reads gave; `moment` is
for those that are not done. -/
structure Told where
  fills : List Nat
  moment : Nat → List UInt8
  gave : List Gave

/-- Nothing yet. -/
def Told.none : Told := ⟨[], fun _ => [], []⟩

namespace Staging

def note (s : Staging) (a : StageAct) (_ : Staging) (h : Told) : Told :=
  match a with
  | .fill p _ _ _ _ =>
    match s.call p with
    | .locked i _ _ _ => { h with
        fills := s.fs.reach s.bs i :: h.fills
        moment := Function.update h.moment p ((s.fs.text i).getD []) }
    | _ => h
  | .copy p =>
    match s.call p with
    | .filled _ max want =>
      { h with gave := ⟨max, (List.range want).map s.stage, h.moment p⟩ :: h.gave }
    | _ => h
  | _ => h

/-- No call is on its way. -/
def Idle (s : Staging) : Prop := s.holder = none ∧ ∀ p, s.call p = .idle

/-- Where a file is read into the buffer, it has the size that was looked at. -/
def Steadily (s : Staging) : StageAct → Prop
  | .fill p _ _ _ _ => ∀ i max size want, s.call p = .locked i max size want →
    ∀ t ∈ s.fs.text i, t.length = size
  | _ => True

end Staging

/-- No read has left the buffer, none gave more than was asked for, and each gave what the file had at
one moment. -/
structure Told.Right (h : Told) : Prop where
  inside : ∀ n ∈ h.fills, n ≤ STAGE_BYTES
  fits : ∀ g ∈ h.gave, g.bytes.length ≤ g.max
  whole : ∀ g ∈ h.gave, g.bytes = g.moment.take g.max

/-! ### What is read into the buffer -/

namespace Format

theorem readFile_text {f : Format} {v : Volume} {i : Nat} {dst b : Nat → UInt8} {io : Io} {size : Nat}
    (h : f.readFile i dst io v = some (size, b)) :
    ∃ t, f.text v i = some t ∧ ∀ k < t.length, k < f.reach v i → b k = t.getD k 0 := by
  unfold readFile at h
  unfold text reach
  split at h
  · cases h
  · rename_i hi
    rw [if_neg hi, if_neg hi]
    refine ⟨_, rfl, fun k hk hr => ?_⟩
    obtain ⟨b', hb, he⟩ := Option.map_eq_some_iff.mp h
    cases he
    unfold Disk.readSectors at hb
    obtain ⟨-, hb⟩ := (Option.ite_none_left_eq_some ..).mp hb
    obtain rfl := Option.some.inj hb
    rw [blit_start hr]
    rw [List.length_map, List.length_range] at hk
    simp [List.getD, hk]

end Format

namespace Fs

variable {σ : Fs} {i : Nat}

theorem fill_text {bs : Nat} {stage slack torn : Nat → UInt8} {io : Io} {ok : Bool}
    (h : (σ.fill bs i stage io ok slack torn).1 = true) :
    ∃ t, σ.text i = some t ∧ ∀ k < t.length, k < σ.reach bs i →
      (σ.fill bs i stage io ok slack torn).2.1 k = t.getD k 0 := by
  unfold fill at h ⊢
  cases hr : (σ.readFile i stage io ok).1 with
  | none => simp [hr] at h
  | some p =>
      simp only [hr]
      unfold readFile at hr
      cases hb : σ.backend with
      | none => simp [hb] at hr
      | nbfs =>
          simp only [hb] at hr
          obtain ⟨t, ht, hk⟩ := Format.readFile_text hr
          simp only [text, reach, hb]
          exact ⟨t, ht, by simpa using hk⟩
      | pfs =>
          simp only [hb] at hr
          obtain ⟨t, ht, hk⟩ := Format.readFile_text hr
          simp only [text, reach, hb]
          exact ⟨t, ht, by simpa using hk⟩
      | ext2 =>
          simp only [hb] at hr
          obtain ⟨ino, hino, hr⟩ := Option.bind_eq_some_iff.mp hr
          obtain ⟨-, hr⟩ := (Option.ite_none_right_eq_some ..).mp hr
          obtain ⟨n, hn, rfl⟩ := Option.map_eq_some_iff.mp hr
          have hfile : (σ.legacyIno i).1.bind σ.files = some n := by
            rw [hino, Option.bind_some, ← hn]
            exact congrFun (legacyRefresh_rest σ).2.2.2.symm ino
          simp only [text, hb, hfile, Option.map_some, Option.some.injEq, exists_eq_left', if_true,
            Option.getD_some]
          intro k hk _
          rw [blit_outside (.inl hk)]
          simp [List.getD, hk]

/-- **What is read is rounded up** to whole sectors or blocks, which a file that passed the check leaves
room for. -/
theorem reach_text {bs : Nat} (hbs : bs ∣ STAGE_BYTES)
    (h : ∀ t ∈ σ.text i, t.length ≤ STAGE_BYTES - 512) :
    σ.reach bs i ≤ STAGE_BYTES ∧ ∀ t ∈ σ.text i, t.length ≤ σ.reach bs i := by
  have hold : ∀ f : Format, (∀ t ∈ f.text σ.vol i, t.length ≤ STAGE_BYTES - 512) →
      f.reach σ.vol i ≤ STAGE_BYTES ∧ ∀ t ∈ f.text σ.vol i, t.length ≤ f.reach σ.vol i := by
    intro f hf
    unfold Format.text Format.reach at *
    split_ifs at hf ⊢
    · exact ⟨Nat.zero_le _, fun t ht => absurd ht (Option.not_mem_none t)⟩
    · have hsize := hf _ rfl
      rw [List.length_map, List.length_range] at hsize
      have hsectors : Format.sectors (f.entry σ.vol.table i).size_bytes * 512 ≤ STAGE_BYTES ∧
          (f.entry σ.vol.table i).size_bytes ≤
            Format.sectors (f.entry σ.vol.table i).size_bytes * 512 := by
        simp only [Format.sectors, STAGE_BYTES] at hsize ⊢
        omega
      have hwrap : STAGE_BYTES < 2 ^ 32 := by decide
      rw [Nat.mod_eq_of_lt (Nat.lt_of_le_of_lt hsectors.1 hwrap)]
      refine ⟨hsectors.1, fun t ht => ?_⟩
      obtain rfl := Option.some.inj ht
      rw [List.length_map, List.length_range]
      exact hsectors.2
  unfold text reach at *
  cases hb : σ.backend with
  | nbfs => exact hold nbfs (by simpa only [hb] using h)
  | pfs => exact hold pfs (by simpa only [hb] using h)
  | none => exact ⟨Nat.zero_le _, fun t ht => absurd ht (Option.not_mem_none t)⟩
  | ext2 =>
      simp only [hb] at h ⊢
      cases hf : (σ.legacyIno i).1.bind σ.files with
      | none => exact ⟨Nat.zero_le _, fun t ht => absurd ht (Option.not_mem_none t)⟩
      | some n =>
          have hlen : n.1.length ≤ STAGE_BYTES - 512 := h n.1 (by rw [hf]; rfl)
          obtain ⟨m, hm⟩ := hbs
          have hpos : 0 < bs := Nat.pos_of_dvd_of_pos ⟨m, hm⟩ (by decide)
          have hdiv := Nat.div_add_mod (n.1.length + bs - 1) bs
          have hmod := Nat.mod_lt (n.1.length + bs - 1) hpos
          have hup : (n.1.length + bs - 1) / bs ≤ m := by
            refine Nat.le_of_lt_succ ((Nat.div_lt_iff_lt_mul hpos).mpr ?_)
            rw [Nat.succ_mul, Nat.mul_comm, ← hm]
            omega
          have hend := Nat.mul_le_mul_left bs hup
          rw [Option.elim_some, Nat.mul_comm, hm]
          refine ⟨hend, fun t ht => ?_⟩
          obtain rfl := Option.some.inj ht
          omega

end Fs

/-! ### Runs -/

namespace Phase

/-- The call has the lock. -/
def Holds : Phase → Prop
  | .locked _ _ _ _ | .filled _ _ _ | .writing _ _ => True
  | _ => False

/-- What the call is to give, of a file that passed the check. -/
def Within : Phase → Prop
  | .looked _ max size want | .locked _ max size want =>
    size ≤ STAGE_BYTES - 512 ∧ want = min size max
  | .filled _ max want => want ≤ max
  | _ => True

end Phase

namespace Staging

variable {s t : Staging} {h : Told} {a : StageAct} {p : Nat}

/-- What holds of the calls and of what was noted. -/
structure Kept (s : Staging) (h : Told) : Prop where
  right : h.Right
  lock : ∀ p, (s.call p).Holds → s.holder = some p
  within : ∀ p, (s.call p).Within
  filled : ∀ p i max want, s.call p = .filled i max want →
    (List.range want).map s.stage = (h.moment p).take max

/-- The call of `p` comes to a phase. -/
theorem Kept.goes (hk : Kept s h) {c : Phase} {σ : Fs} {o : Option Nat} {b : Nat → UInt8} {h' : Told}
    (hr : h'.Right) (hw : c.Within) (hh : c.Holds → o = some p)
    (ho : ∀ q ≠ p, (s.call q).Holds → o = some q)
    (hf : ∀ i max want, c = .filled i max want → (List.range want).map b = (h'.moment p).take max)
    (hrest : ∀ q ≠ p, ∀ i max want, s.call q = .filled i max want →
      (List.range want).map b = (h'.moment q).take max) :
    Kept { s.goes p c with fs := σ, holder := o, stage := b } h' := by
  have hself : (s.goes p c).call p = c := Function.update_self ..
  have hne : ∀ q ≠ p, (s.goes p c).call q = s.call q := fun q e => Function.update_of_ne e ..
  refine ⟨hr, fun q hq => ?_, fun q => ?_, fun q i max want hq => ?_⟩ <;>
    rcases eq_or_ne q p with rfl | e
  · exact hh (hself ▸ hq)
  · exact ho q e (hne q e ▸ hq)
  · show ((s.goes q c).call q).Within
    rwa [hself]
  · show ((s.goes p c).call q).Within
    rw [hne q e]
    exact hk.within q
  · exact hf i max want (hself.symm.trans hq)
  · exact hrest q e i max want ((hne q e).symm.trans hq)

theorem Kept.moves (hk : Kept s h) {c : Phase} {σ : Fs} {o : Option Nat} (hw : c.Within)
    (hh : c.Holds → o = some p) (ho : ∀ q ≠ p, (s.call q).Holds → o = some q)
    (hf : ∀ i max want, c ≠ .filled i max want) : Kept { s.goes p c with fs := σ, holder := o } h :=
  hk.goes hk.right hw hh ho (fun i max want e => absurd e (hf i max want))
    fun q _ i max want hq => hk.filled q i max want hq

theorem Kept.alone (hk : Kept s h) (hp : (s.call p).Holds) {q : Nat} (hq : (s.call q).Holds) :
    q = p := Option.some.inj ((hk.lock q hq).symm.trans (hk.lock p hp))

theorem Kept.start (hs : s.Idle) : Kept s .none := by
  obtain ⟨-, hidle⟩ := hs
  refine ⟨⟨by simp [Told.none], by simp [Told.none], by simp [Told.none]⟩, fun p hp => ?_,
    fun p => ?_, fun p i max want hp => ?_⟩
  · rw [hidle p] at hp
    exact hp.elim
  · rw [hidle p]
    trivial
  · rw [hidle p] at hp
    cases hp

theorem Kept.enter {i dst max : Nat} {ok : Bool} (hk : Kept s h)
    (hs : s.step (.enter p i dst max ok) = some t) : Kept t h := by
  simp only [Staging.step] at hs
  split at hs
  · split_ifs at hs with hd hi
    · obtain rfl := Option.some.inj hs
      exact hk
    · obtain rfl := Option.some.inj hs
      exact ⟨hk.right, hk.lock, hk.within, hk.filled⟩
    · obtain rfl := Option.some.inj hs
      exact hk.moves trivial False.elim (fun q _ => hk.lock q) fun _ _ _ => Phase.noConfusion
  · cases hs

theorem Kept.look (hk : Kept s h) (hs : s.step (.look p) = some t) : Kept t h := by
  simp only [Staging.step] at hs
  split at hs
  · obtain rfl := Option.some.inj hs
    split_ifs with hsize
    · exact hk.moves trivial False.elim (fun q _ => hk.lock q) fun _ _ _ => Phase.noConfusion
    · exact hk.moves trivial False.elim (fun q _ => hk.lock q) fun _ _ _ => Phase.noConfusion
    · exact hk.moves ⟨Nat.le_of_not_lt hsize, rfl⟩ False.elim (fun q _ => hk.lock q)
        fun _ _ _ => Phase.noConfusion
  · cases hs

theorem Kept.take (hk : Kept s h) (hs : s.step (.lock p) = some t) : Kept t h := by
  simp only [Staging.step] at hs
  split at hs
  · rename_i i max size want hc
    have hw := hk.within p
    rw [hc] at hw
    split_ifs at hs with hfree
    obtain rfl := Option.some.inj hs
    refine hk.moves hw (fun _ => rfl) (fun q _ hq => ?_) fun _ _ _ => Phase.noConfusion
    rw [hk.lock q hq] at hfree
    cases hfree
  · cases hs

/-- **The file is read**: it has the size that passed the check, so it fits the buffer, and all that
the reader is to get is there. -/
theorem Kept.fill {io : Io} {ok : Bool} {slack torn : Nat → UInt8} (hk : Kept s h)
    (hs : s.step (.fill p io ok slack torn) = some t) (ha : s.Steadily (.fill p io ok slack torn)) :
    Kept t (note s (.fill p io ok slack torn) t h) := by
  simp only [Staging.step] at hs
  simp only [note]
  split at hs
  · rename_i i max size want hc
    obtain rfl := Option.some.inj hs
    have hp : (s.call p).Holds := by
      rw [hc]
      trivial
    have hw := hk.within p
    rw [hc] at hw
    obtain ⟨hsize, rfl⟩ : size ≤ STAGE_BYTES - 512 ∧ want = min size max := hw
    have hsame := ha i max size _ hc
    obtain ⟨hreach, hgives⟩ := Fs.reach_text s.blocks fun t ht => (hsame t ht).trans_le hsize
    -- no other call has anything in the buffer
    have hother : ∀ q ≠ p, ¬(s.call q).Holds := fun q e hq => e (hk.alone hp hq)
    have hright : Told.Right { h with
        fills := s.fs.reach s.bs i :: h.fills
        moment := Function.update h.moment p ((s.fs.text i).getD []) } :=
      ⟨List.forall_mem_cons.mpr ⟨hreach, hk.right.inside⟩, hk.right.fits, hk.right.whole⟩
    have hrest : ∀ q ≠ p, ∀ i max want, s.call q ≠ .filled i max want := fun q e _ _ _ hq =>
      hother q e (by
        rw [hq]
        trivial)
    split_ifs with hok
    · obtain ⟨t, ht, hbytes⟩ := Fs.fill_text hok
      obtain rfl := hsame t ht
      have hle := hgives t ht
      refine hk.goes hright (Nat.min_le_right ..) (fun _ => hk.lock p hp)
        (fun q e hq => absurd hq (hother q e)) (fun i' max' want' e => ?_)
        fun q e i' max' want' hq => absurd hq (hrest q e _ _ _)
      obtain ⟨rfl, rfl, rfl⟩ := Phase.filled.inj e
      show (List.range _).map (s.fs.fill s.bs i s.stage io ok slack torn).2.1 =
        (Function.update h.moment p ((s.fs.text i).getD []) p).take max
      rw [Function.update_self, ht, Option.getD_some]
      refine List.ext_getElem (by simp [Nat.min_comm]) fun k hk₁ hk₂ => ?_
      rw [List.length_map, List.length_range] at hk₁
      have hlt : k < t.length := by omega
      rw [List.getElem_map, List.getElem_range, hbytes k hlt (by omega), List.getElem_take]
      simp [List.getD, hlt]
    · exact hk.goes hright trivial False.elim (fun q e hq => absurd hq (hother q e))
        (fun _ _ _ => Phase.noConfusion) fun q e i' max' want' hq => absurd hq (hrest q e _ _ _)
  · cases hs

theorem Kept.copy (hk : Kept s h) (hs : s.step (.copy p) = some t) :
    Kept t (note s (.copy p) t h) := by
  simp only [Staging.step] at hs
  simp only [note]
  split at hs
  · rename_i i max want hc
    obtain rfl := Option.some.inj hs
    have hp : (s.call p).Holds := by
      rw [hc]
      trivial
    have hw := hk.within p
    rw [hc] at hw
    refine hk.goes ⟨hk.right.inside, ?_, ?_⟩ trivial False.elim
      (fun q e hq => absurd (hk.alone hp hq) e) (fun _ _ _ => Phase.noConfusion)
      fun q _ i max want hq => hk.filled q i max want hq
    · refine List.forall_mem_cons.mpr ⟨?_, hk.right.fits⟩
      simpa [Phase.Within] using hw
    · exact List.forall_mem_cons.mpr ⟨hk.filled p i max want hc, hk.right.whole⟩
  · cases hs

theorem Kept.store {i src : Nat} {bytes : Nat → UInt8} {size : UInt32} {ok : Bool} (hk : Kept s h)
    (hs : s.step (.store p i src bytes size ok) = some t) : Kept t h := by
  simp only [Staging.step] at hs
  split at hs
  · split_ifs at hs with hbad hfree
    · obtain rfl := Option.some.inj hs
      exact hk
    · obtain rfl := Option.some.inj hs
      have hno : ∀ q, ¬(s.call q).Holds := fun q hq => by
        rw [hk.lock q hq] at hfree
        cases hfree
      refine hk.goes hk.right trivial (fun _ => rfl) (fun q _ hq => absurd hq (hno q))
        (fun _ _ _ => Phase.noConfusion) fun q _ i max want hq => absurd ?_ (hno q)
      rw [hq]
      trivial
  · cases hs

theorem Kept.commit {io io₀ io₁ : Io} {left : Bool × List UInt8 × Nat} (hk : Kept s h)
    (hs : s.step (.commit p io io₀ io₁ left) = some t) : Kept t h := by
  simp only [Staging.step] at hs
  split at hs
  · rename_i i size hc
    obtain rfl := Option.some.inj hs
    have hp : (s.call p).Holds := by
      rw [hc]
      trivial
    exact hk.moves trivial False.elim (fun q e hq => absurd (hk.alone hp hq) e)
      fun _ _ _ => Phase.noConfusion
  · cases hs

/-- **One step** keeps it. -/
theorem Kept.step (hk : Kept s h) (hs : s.step a = some t) (ha : s.Steadily a) :
    Kept t (note s a t h) := by
  cases a with
  | enter => exact hk.enter hs
  | look => exact hk.look hs
  | lock => exact hk.take hs
  | fill => exact hk.fill hs ha
  | copy => exact hk.copy hs
  | store => exact hk.store hs
  | commit => exact hk.commit hs
  | fs a =>
      obtain ⟨σ, -, rfl⟩ := Option.map_eq_some_iff.mp hs
      exact ⟨hk.right, hk.lock, hk.within, hk.filled⟩

/-- The runs from states where no call is on its way, with what is noted of them, whose steps satisfy
`P`. -/
abbrev Running (P : Staging → StageAct → Prop) : Staging × Told → Prop :=
  Noted step note Idle .none P

/-- **Reads through the staging buffer**, whatever the others do to the files: if each file that is
read into the buffer has the size then that was looked at, no read leaves the buffer, none gives more
than was asked for, and each gives the contents of the file at one moment. -/
theorem staged_reads {x : Staging × Told} (h : Running Steadily x) : x.2.Right := by
  have hI : Kept x.1 x.2 := by
    refine Noted.invariant (I := Kept) ?_ ?_ h
    · exact fun s hs => .start hs
    · exact fun s a t h hk ha hs => hk.step hs ha
  exact hI.right

/-! ### A file that changes between the look and the read -/

/-- An ext2 with 4 KiB blocks and one file in its root, of these contents. -/
def holding (t : List UInt8) : Staging where
  bs := 4096
  blocks := ⟨16, rfl⟩
  fs := { backend := .ext2
          vol := ⟨fun _ => 0, 0, 0, 0, ⟨0, fun _ => 0⟩⟩
          root := [⟨12, FT_REG, [97]⟩]
          files := fun ino => if ino = 12 then some (t, 0) else none
          items := [(12, 97 :: List.replicate 27 0)]
          dirty := false }
  stage := fun _ => 1
  holder := none
  call := fun _ => .idle

theorem holding_idle (t : List UInt8) : (holding t).Idle := ⟨rfl, fun _ => rfl⟩

/-- Process 0 reads 100 bytes of the file, which another process gives the contents `t'` after the
look. -/
def race (t' : List UInt8) : List StageAct :=
  [.enter 0 0 1 100 true, .look 0,
    .fs (.change [⟨12, FT_REG, [97]⟩] (fun ino => if ino = 12 then some (t', 0) else none) false),
    .lock 0, .fill 0 none true (fun _ => 0) fun _ => 0, .copy 0]

/-- A read during which another process writes what is there already. -/
theorem staged_reads_same : ∃ x, Running Steadily x ∧ x.2.Right ∧
    x.2.gave.map Gave.bytes = [[5, 6, 7]] := by
  have h₀ : Running Steadily (holding [5, 6, 7], .none) := Noted.start (holding_idle _)
  have h₁ := h₀.next (e := StageAct.enter 0 0 1 100 true) trivial rfl
  have h₂ := h₁.next (e := StageAct.look 0) trivial rfl
  have h₃ := h₂.next (e := StageAct.fs (.change [⟨12, FT_REG, [97]⟩]
    (fun ino => if ino = 12 then some ([5, 6, 7], 0) else none) false)) trivial rfl
  have h₄ := h₃.next (e := StageAct.lock 0) trivial rfl
  have h₅ := h₄.next (e := StageAct.fill 0 none true (fun _ => 0) fun _ => 0) (fun _ _ _ _ hc t ht => by
    obtain ⟨rfl, rfl, rfl, rfl⟩ := Phase.locked.inj hc
    obtain rfl := Option.some.inj ht
    rfl) rfl
  have h₆ := h₅.next (e := StageAct.copy 0) trivial rfl
  exact ⟨_, h₆, staged_reads h₆, rfl⟩

/-- The file grows to 70000 bytes, and these go into the 65536 of the buffer; or it is cut, and the
reader gets what was in the buffer before. -/
theorem stage_races :
    (∃ x, Running (fun _ _ => True) x ∧ ∃ n ∈ x.2.fills, STAGE_BYTES < n) ∧
    ∃ x, Running (fun _ _ => True) x ∧ ∃ g ∈ x.2.gave, g.bytes = [1, 1, 1] ∧ g.moment = [] := by
  have hstart : Running (fun _ _ => True) (holding [5, 6, 7], .none) := Noted.start (holding_idle _)
  constructor
  · have hlen : (List.replicate 70000 (0 : UInt8)).length = 70000 := List.length_replicate
    generalize List.replicate 70000 (0 : UInt8) = t at hlen
    obtain ⟨x, hx, hn⟩ : ∃ x, run (noted step note) (fun _ _ => True) (race t)
        (holding [5, 6, 7], .none) = some x ∧
          x.2.fills = [(t.length + 4096 - 1) / 4096 * 4096] := ⟨_, rfl, rfl⟩
    refine ⟨x, hstart.run hx, (t.length + 4096 - 1) / 4096 * 4096, ?_, ?_⟩
    · rw [hn]
      exact List.mem_singleton_self _
    · rw [hlen]
      decide
  · obtain ⟨x, hx, hg⟩ : ∃ x, run (noted step note) (fun _ _ => True) (race [])
        (holding [5, 6, 7], .none) = some x ∧ x.2.gave = [⟨100, [1, 1, 1], []⟩] := ⟨_, rfl, rfl⟩
    refine ⟨x, hstart.run hx, ⟨100, [1, 1, 1], []⟩, ?_, rfl, rfl⟩
    rw [hg]
    exact List.mem_singleton_self _

end Staging

end Pulsar.Legacy

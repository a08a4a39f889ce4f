import Mathlib.Logic.Function.Basic
import Pulsar.Legacy.Files

/-!
# Files by index (`fs.rs`)

The programs of old name a file by its index.  On a flat file system that is its place in the
table; on ext2 its place in a list of the regular files of the root directory, which is made anew
when the directory has changed.

Other processes change the directory through descriptors.  Their operations are any change of the
list that `readdir` gives of the root (`IndexAct.change`); one that stops with an error after it has
changed the directory does not mark the list.

* **`indices_stable`**: an index that was handed out denotes the same file, and a write through it
  leaves the others alone, while no change of the directory moves what is listed at that index.
* `index_moves`: an index that comes to denote another file.
-/

namespace Pulsar.Legacy

open Runs

inductive Backend where
  | none | nbfs | pfs | ext2
  deriving DecidableEq

/-- An entry of the root directory. -/
structure Dirent where
  ino : Nat
  ftype : Nat
  name : List UInt8
  deriving DecidableEq

def FT_REG : Nat := 1
def NAME_LEN : Nat := 28
def LEGACY_MAX : Nat := 256

/-- `fs.rs`, with the disk.  `root` is what `readdir` gives of the root of an ext2, and `files` the
contents and the time of its inodes; `items` and `dirty` are the old list. -/
structure Fs where
  backend : Backend
  vol : Volume
  root : List Dirent
  files : Nat → Option (List UInt8 × Nat)
  items : List (Nat × List UInt8)
  dirty : Bool

/-- The bytes of a text. -/
def bytes (s : String) : List UInt8 := s.toByteArray.data.toList

/-- `legacy_kind`: the kind of a file by the end of its name. -/
def legacyKind (name : List UInt8) : Nat :=
  let n := nameStr name
  let ext := if 46 ∈ n then (n.reverse.takeWhile (· ≠ 46)).reverse else []
  if ext = bytes "pulse" then 1
  else if ext ∈ ["txt", "md", "cfg", "conf", "ini", "c", "h", "rs", "py", "sh", "html", "htm", "css",
      "js", "json", "xml", "csv", "log", "toml"].map bytes then 2
  else 3

/-- The list of a directory: its regular files with short names. -/
def listing (root : List Dirent) : List (Nat × List UInt8) :=
  ((root.filter fun d => d.ftype = FT_REG ∧ d.name.length < NAME_LEN).take LEGACY_MAX).map fun d =>
    (d.ino, d.name ++ List.replicate (NAME_LEN - d.name.length) 0)

namespace Fs

variable (σ : Fs)

/-- `legacy_refresh()`. -/
def legacyRefresh : Fs :=
  if σ.dirty then { σ with items := listing σ.root, dirty := false } else σ

/-- `count_nl()`. -/
def count : Nat × Fs :=
  match σ.backend with
  | .nbfs | .pfs => (σ.vol.count, σ)
  | .ext2 => (σ.legacyRefresh.items.length, σ.legacyRefresh)
  | .none => (0, σ)

/-- The entry of a name that is not there. -/
def noEntry : FileEntry := ⟨List.replicate NAME_LEN 0, 0, 0, 0, 0, 0, 0⟩

/-- `entry_nl(idx)`. -/
def entry (i : Nat) : FileEntry :=
  match σ.backend with
  | .nbfs => nbfs.entry σ.vol.table i
  | .pfs =>
    let e := pfs.entry σ.vol.table i
    { e with name := e.name.take NAME_LEN, mtime := 0, flags := 0 }
  | .ext2 =>
    match σ.items[i]? with
    | some (ino, name) =>
      let n := σ.files ino
      { name := name
        start_sector := ino
        size_bytes := n.elim 0 fun n => min n.1.length (2 ^ 32 - 1)
        kind := legacyKind name
        capacity_sec := (2 ^ 32 - 1) / 512
        mtime := n.elim 0 fun n => n.2
        flags := 0 }
    | none => noEntry
  | .none => noEntry

/-- `find(name)`. -/
def find (name : List UInt8) : Option Nat × Fs :=
  let r := σ.count
  ((List.range r.1).find? fun i => nameStr (r.2.entry i).name = name, r.2)

/-- `legacy_ino(idx)`. -/
def legacyIno (i : Nat) : Option Nat × Fs :=
  (σ.legacyRefresh.items[i]?.map Prod.fst, σ.legacyRefresh)

/-- `read_file(idx, dst)`: the size and what is read; `ok` says whether ext2 can read it.  What ext2
writes behind the size, up to the end of the last block, is left out. -/
def readFile (i : Nat) (dst : Nat → UInt8) (io : Io) (ok : Bool) :
    Option (Nat × (Nat → UInt8)) × Fs :=
  match σ.backend with
  | .nbfs => (nbfs.readFile i dst io σ.vol, σ)
  | .pfs => (pfs.readFile i dst io σ.vol, σ)
  | .ext2 =>
    let r := σ.legacyIno i
    (r.1.bind fun ino => if ok then
      (r.2.files ino).map fun n => (n.1.length % 2 ^ 32, fun k => n.1.getD k (dst k)) else none, r.2)
  | .none => (none, σ)

/-- `write_file(idx, src, size)`; on ext2 the inode is left as `left` says. -/
def writeFile (i : Nat) (src : Nat → UInt8) (size : Nat) (io io₀ io₁ : Io)
    (left : Bool × List UInt8 × Nat) : Bool × Fs :=
  match σ.backend with
  | .nbfs =>
    let r := nbfs.writeFile i src size io io₀ io₁ σ.vol
    (r.1, { σ with vol := r.2 })
  | .pfs =>
    let r := pfs.writeFile i src size io io₀ io₁ σ.vol
    (r.1, { σ with vol := r.2 })
  | .ext2 =>
    match σ.legacyIno i with
    | (none, σ) => (false, σ)
    | (some ino, σ) =>
      let new := if left.1 then ((List.range size).map src, left.2.2) else left.2
      (left.1, { σ with files := Function.update σ.files ino (some new) })
  | .none => (false, σ)

/-- `ext2::create` in the root: a new file with inode `ino` at place `p`, or nothing. -/
def ext2Create (name : List UInt8) (made : Option (Nat × Nat)) : Option Fs :=
  if name ∈ [[], [46], [46, 46]] ∨ name ∈ σ.root.map Dirent.name then none
  else made.map fun m => { σ with
    root := σ.root.insertIdx m.2 ⟨m.1, FT_REG, name⟩
    files := Function.update σ.files m.1 (some ([], 0)) }

/-- `create(name, kind, capacity_sec)`. -/
def create (name : List UInt8) (kind capacity : Nat) (io₀ io₁ : Io) (made : Option (Nat × Nat)) :
    Option Nat × Fs :=
  match σ.backend with
  | .nbfs =>
    let r := nbfs.create name kind capacity io₀ io₁ σ.vol
    (r.1, { σ with vol := r.2 })
  | .pfs =>
    let r := pfs.create name kind capacity io₀ io₁ σ.vol
    (r.1, { σ with vol := r.2 })
  | .ext2 =>
    if name.length ≥ NAME_LEN ∨ 47 ∈ name then (none, σ)
    else
      match σ.ext2Create name made with
      | none => (none, σ)
      | some σ =>
        let σ := { σ with dirty := true }.legacyRefresh
        ((List.range σ.items.length).find? fun i =>
          (σ.items[i]?.elim [] fun p => nameStr p.2) = name, σ)
  | .none => (none, σ)

end Fs

/-! ### The system -/

/-- An operation by index, or what another process does through descriptors. -/
inductive IndexAct where
  | find (name : List UInt8)
  | count
  | create (name : List UInt8) (kind capacity : UInt32) (io₀ io₁ : Io) (made : Option (Nat × Nat))
  | read (i : Nat) (dst : Nat → UInt8) (io : Io) (ok : Bool)
  | write (i : Nat) (src : Nat → UInt8) (size : UInt32) (io io₀ io₁ : Io)
    (left : Bool × List UInt8 × Nat)
  /-- The root directory becomes `root`, and the list is marked. -/
  | change (root : List Dirent) (files : Nat → Option (List UInt8 × Nat)) (marked : Bool)

/-- An index that was handed out, with the name and the place of the file it was handed out for. -/
structure Handle where
  idx : Nat
  name : List UInt8
  place : Nat

namespace Fs

def step (σ : Fs) : IndexAct → Option Fs
  | .find name => some (σ.find name).2
  | .count => some σ.count.2
  | .create name kind capacity io₀ io₁ made =>
    some (σ.create name kind.toNat capacity.toNat io₀ io₁ made).2
  | .read i dst io ok => some (σ.readFile i dst io ok).2
  | .write i src size io io₀ io₁ left => some (σ.writeFile i src size.toNat io io₀ io₁ left).2
  | .change root files marked =>
    if σ.backend = .ext2 then
      some { σ with root := root, files := files, dirty := σ.dirty || marked }
    else none

/-- The index that an operation hands out. -/
def answer (σ : Fs) : IndexAct → Option Nat
  | .find name => (σ.find name).1
  | .create name kind capacity io₀ io₁ made =>
    (σ.create name kind.toNat capacity.toNat io₀ io₁ made).1
  | _ => none

/-- The indices that were handed out. -/
def note (σ : Fs) (a : IndexAct) (τ : Fs) (held : List Handle) : List Handle :=
  match σ.answer a with
  | some i => ⟨i, (τ.entry i).name, (τ.entry i).start_sector⟩ :: held
  | none => held

/-- The first sector of the data of a flat file system. -/
def dataStart (σ : Fs) : Nat :=
  match σ.backend with
  | .nbfs => nbfs.dataStart
  | .pfs => pfs.dataStart
  | _ => 0

/-- What a read of the file at a place gives, which has `size` bytes on a flat file system. -/
def readPlace (σ : Fs) (p size : Nat) (dst : Nat → UInt8) (io : Io) (ok : Bool) :
    Option (Nat × (Nat → UInt8)) :=
  match σ.backend with
  | .nbfs | .pfs =>
    (σ.vol.disk.readSectors p (Format.sectors size) dst io).map fun b => (size, b)
  | .ext2 =>
    if ok then (σ.files p).map fun n => (n.1.length % 2 ^ 32, fun k => n.1.getD k (dst k)) else none
  | .none => none

/-- The index denotes the file that it was handed out for. -/
structure Denotes (σ : Fs) (e : Handle) : Prop where
  name : (σ.entry e.idx).name = e.name
  start : (σ.entry e.idx).start_sector = e.place
  read : ∀ dst io ok, (σ.readFile e.idx dst io ok).1 =
    σ.readPlace e.place (σ.entry e.idx).size_bytes dst io ok

/-- What is not of file `i` is in `τ` as in `σ`. -/
structure Spares (σ τ : Fs) (i : Nat) : Prop where
  files : ∀ ino, ino ≠ (σ.entry i).start_sector → τ.files ino = σ.files ino
  bytes : ∀ x, 512 * σ.dataStart ≤ x → x < 512 * (σ.entry i).start_sector ∨
    512 * ((σ.entry i).start_sector + (σ.entry i).capacity_sec) ≤ x →
      τ.vol.disk.bytes x = σ.vol.disk.bytes x

end Fs

/-- What is listed at the indices that were handed out stays. -/
def Steady (held : List Handle) (r r' : List Dirent) : Prop :=
  ∀ e ∈ held, (listing r')[e.idx]? = (listing r)[e.idx]?

/-- The operation moves no file of an ext2 whose index was handed out, and marks the list if what is
listed changes. -/
def Calm (x : Fs × List Handle) : IndexAct → Prop
  | .create name _ _ _ _ made => x.1.backend = .ext2 → name.length < NAME_LEN → 47 ∉ name →
    ∀ τ ∈ x.1.ext2Create name made, Steady x.2 x.1.root τ.root
  | .change root _ marked => Steady x.2 x.1.root root ∧
    (marked = false → listing root = listing x.1.root)
  | _ => True

/-! ### Flat file systems -/

namespace Format

variable {f : Format} {v : Volume}

theorem writeSectors_outside {d : Disk} {lba count : Nat} {src : Nat → UInt8} {io : Io} {x : Nat}
    (h : x < 512 * lba ∨ 512 * (lba + count) ≤ x) :
    (d.writeSectors lba count src io).2.bytes x = d.bytes x := by
  have hmod := Nat.mod_le (count * 512) (2 ^ 32)
  unfold Disk.writeSectors
  split_ifs
  · rfl
  · cases io with
    | none => exact blit_outside (by omega)
    | some junk => exact blit_outside (by omega)

theorem flushMeta_spares (io₀ io₁ : Io) (v : Volume) :
    (f.flushMeta io₀ io₁ v).2.table = v.table ∧ (f.flushMeta io₀ io₁ v).2.count = v.count ∧
      ∀ x, 512 * f.dataStart ≤ x → (f.flushMeta io₀ io₁ v).2.disk.bytes x = v.disk.bytes x := by
  have hstart : f.dataStart = 1 + f.tableSectors := rfl
  unfold flushMeta
  cases hr : (v.disk.writeSectors 0 1 (f.superblock v.count) io₀).1 with
  | true =>
      simp only [hr, if_true, true_and]
      intro x hx
      exact (writeSectors_outside (by omega)).trans (writeSectors_outside (by omega))
  | false =>
      simp only [hr, Bool.false_eq_true, if_false, true_and]
      intro x hx
      exact writeSectors_outside (by omega)

/-- **A write** keeps the names and the places, and touches the sectors of its file only. -/
theorem writeFile_spares (i : Nat) (src : Nat → UInt8) {size : Nat} (hs : size < 2 ^ 32)
    (io io₀ io₁ : Io) (v : Volume) :
    (f.writeFile i src size io io₀ io₁ v).2.count = v.count ∧
    (∀ j, (f.entry (f.writeFile i src size io io₀ io₁ v).2.table j).name =
        (f.entry v.table j).name ∧
      (f.entry (f.writeFile i src size io io₀ io₁ v).2.table j).start_sector =
        (f.entry v.table j).start_sector) ∧
    ∀ x, 512 * f.dataStart ≤ x → x < 512 * (f.entry v.table i).start_sector ∨
      512 * ((f.entry v.table i).start_sector + (f.entry v.table i).capacity_sec) ≤ x →
      (f.writeFile i src size io io₀ io₁ v).2.disk.bytes x = v.disk.bytes x := by
  rcases f.writeFile_eq (v := v) i src size io io₀ io₁ with hr | ⟨ht, r, hw, hr⟩
  · rw [hr]
    exact ⟨rfl, fun _ => ⟨rfl, rfl⟩, fun _ _ _ => rfl⟩
  have hcap := ht.2.2
  have hdata : ∀ x, x < 512 * (f.entry v.table i).start_sector ∨
      512 * ((f.entry v.table i).start_sector + (f.entry v.table i).capacity_sec) ≤ x →
      r.2.bytes x = v.disk.bytes x := fun x hx => by
    rw [hw]
    exact writeSectors_outside (by omega)
  rw [hr]
  split_ifs
  · obtain ⟨htable, hcount, hsame⟩ := flushMeta_spares (f := f) io₀ io₁ (f.wrote v i size r.2)
    rw [htable, hcount]
    refine ⟨rfl, fun j => ?_, fun x hx hout => (hsame x hx).trans (hdata x hout)⟩
    by_cases hne : j = i
    · rw [hne]
      have hself : f.entry (f.wrote v i size r.2).table i = f.rewritten v i size :=
        entry_setEntry (rewritten_fits i hs)
      rw [hself]
      exact ⟨rfl, rfl⟩
    · have hother : f.entry (f.wrote v i size r.2).table j = f.entry v.table j :=
        entry_setEntry_of_ne hne
      rw [hother]
      exact ⟨rfl, rfl⟩
  · exact ⟨rfl, fun _ => ⟨rfl, rfl⟩, fun x _ hout => hdata x hout⟩

/-- **A creation** leaves the entries that are there, and its index is after them. -/
theorem create_spares (name : List UInt8) (kind capacity : Nat) (io₀ io₁ : Io) (v : Volume) :
    v.count ≤ (f.create name kind capacity io₀ io₁ v).2.count ∧
    (∀ j < v.count, f.entry (f.create name kind capacity io₀ io₁ v).2.table j =
      f.entry v.table j) ∧
    ∀ i, (f.create name kind capacity io₀ io₁ v).1 = some i →
      i < (f.create name kind capacity io₀ io₁ v).2.count := by
  rcases f.create_eq (v := v) name kind capacity io₀ io₁ with hr | ⟨-, hr⟩
  · rw [hr]
    exact ⟨Nat.le_refl _, fun _ _ => rfl, fun i hi => absurd hi (by simp)⟩
  obtain ⟨htable, hcount, -⟩ := flushMeta_spares (f := f) io₀ io₁ (f.added v name kind capacity)
  rw [hr]
  simp only [htable, hcount]
  refine ⟨Nat.le_succ _, fun j hj => ?_, fun i hi => ?_⟩
  · refine (entry_setEntry_of_ne hj.ne).trans (entry_congr fun k hk => ?_)
    exact blit_outside (Or.inl (by omega))
  · obtain ⟨-, hi⟩ := (Option.ite_none_right_eq_some ..).mp hi
    obtain rfl := Option.some.inj hi
    exact Nat.lt_succ_self _

end Format

/-! ### Runs -/

namespace Fs

variable {σ τ : Fs} {held : List Handle} {e : Handle}

/-- What holds of an index that was handed out. -/
def Good (σ : Fs) (e : Handle) : Prop :=
  match σ.backend with
  | .nbfs | .pfs => e.idx < σ.vol.count ∧ (σ.entry e.idx).name = e.name ∧
    (σ.entry e.idx).start_sector = e.place
  | .ext2 => σ.items[e.idx]? = some (e.place, e.name) ∧
    (listing σ.root)[e.idx]? = some (e.place, e.name)
  | .none => False

/-- The list is that of the directory, unless it is marked. -/
def Listed (σ : Fs) : Prop := σ.dirty = false → σ.items = listing σ.root

theorem legacyRefresh_items (h : σ.Listed) : σ.legacyRefresh.items = listing σ.root := by
  unfold legacyRefresh
  split_ifs with hd
  · rfl
  · exact h (Bool.eq_false_iff.mpr hd)

theorem legacyRefresh_rest (σ : Fs) : σ.legacyRefresh.backend = σ.backend ∧
    σ.legacyRefresh.vol = σ.vol ∧ σ.legacyRefresh.root = σ.root ∧
    σ.legacyRefresh.files = σ.files := by
  unfold legacyRefresh
  split_ifs <;> exact ⟨rfl, rfl, rfl, rfl⟩

theorem legacyRefresh_listed (h : σ.Listed) : σ.legacyRefresh.Listed := fun _ => by
  rw [legacyRefresh_items h, (legacyRefresh_rest σ).2.2.1]

theorem Good.refresh (hb : σ.backend = .ext2) (hl : σ.Listed) (h : σ.Good e) :
    σ.legacyRefresh.Good e := by
  obtain ⟨hb', -, hroot, -⟩ := legacyRefresh_rest σ
  unfold Good at h ⊢
  rw [hb] at h
  rw [hb', hb]
  simp only [legacyRefresh_items hl, hroot]
  exact ⟨h.2, h.2⟩

theorem entry_ext2 (hb : σ.backend = .ext2) {i ino : Nat} {name : List UInt8}
    (h : σ.items[i]? = some (ino, name)) :
    (σ.entry i).name = name ∧ (σ.entry i).start_sector = ino := by
  unfold entry
  rw [hb]
  simp only [h]
  exact ⟨trivial, trivial⟩

theorem Good.denotes (hl : σ.backend = .ext2 → σ.Listed) (h : σ.Good e) : σ.Denotes e := by
  unfold Good at h
  cases hb : σ.backend with
  | none =>
      rw [hb] at h
      exact h.elim
  | nbfs =>
      rw [hb] at h
      refine ⟨h.2.1, h.2.2, fun dst io ok => ?_⟩
      rw [← h.2.2]
      unfold readFile readPlace entry
      rw [hb]
      exact if_neg (Nat.not_le_of_lt h.1)
  | pfs =>
      rw [hb] at h
      refine ⟨h.2.1, h.2.2, fun dst io ok => ?_⟩
      rw [← h.2.2]
      unfold readFile readPlace entry
      rw [hb]
      exact if_neg (Nat.not_le_of_lt h.1)
  | ext2 =>
      rw [hb] at h
      obtain ⟨hname, hstart⟩ := entry_ext2 hb h.1
      refine ⟨hname, hstart, fun dst io ok => ?_⟩
      unfold readFile readPlace
      rw [hb]
      simp only [legacyIno, legacyRefresh_items (hl hb), h.2, Option.map_some, Option.bind_some,
        (legacyRefresh_rest σ).2.2.2]

theorem good_note {a : IndexAct} (hold : ∀ e ∈ held, τ.Good e)
    (hnew : ∀ i, σ.answer a = some i → τ.Good ⟨i, (τ.entry i).name, (τ.entry i).start_sector⟩) :
    ∀ e ∈ σ.note a τ held, τ.Good e := by
  unfold note
  cases hf : σ.answer a with
  | none => exact hold
  | some i => exact List.forall_mem_cons.mpr ⟨hnew i hf, hold⟩

/-! ### One step on a flat file system -/

/-- The back end is flat, of format `f`. -/
def Flat (σ : Fs) (f : Format) : Prop :=
  σ.backend = .nbfs ∧ f = nbfs ∨ σ.backend = .pfs ∧ f = pfs

variable {f : Format}

theorem Flat.entry (h : σ.Flat f) (i : Nat) :
    (σ.entry i).name = (f.entry σ.vol.table i).name.take NAME_LEN ∧
      (σ.entry i).start_sector = (f.entry σ.vol.table i).start_sector ∧
      (σ.entry i).capacity_sec = (f.entry σ.vol.table i).capacity_sec := by
  unfold Fs.entry
  rcases h with ⟨hb, rfl⟩ | ⟨hb, rfl⟩ <;> rw [hb]
  · refine ⟨(List.take_of_length_le ?_).symm, rfl, rfl⟩
    rw [(nbfs.entry_fits' σ.vol.table i).name]
    exact Nat.le_refl _
  · exact ⟨rfl, rfl, rfl⟩

theorem Flat.good (h : σ.Flat f) : σ.Good e ↔ e.idx < σ.vol.count ∧
    (σ.entry e.idx).name = e.name ∧ (σ.entry e.idx).start_sector = e.place := by
  unfold Good
  rcases h with ⟨hb, -⟩ | ⟨hb, -⟩ <;> rw [hb]

theorem Flat.fresh (h : σ.Flat f) {i : Nat} (hi : i < σ.vol.count) :
    σ.Good ⟨i, (σ.entry i).name, (σ.entry i).start_sector⟩ := h.good.mpr ⟨hi, rfl, rfl⟩

theorem Flat.moves (h : σ.Flat f) (hb : τ.backend = σ.backend)
    (hcount : σ.vol.count ≤ τ.vol.count)
    (hsame : ∀ j < σ.vol.count, (f.entry τ.vol.table j).name = (f.entry σ.vol.table j).name ∧
      (f.entry τ.vol.table j).start_sector = (f.entry σ.vol.table j).start_sector)
    (hg : σ.Good e) : τ.Good e := by
  have hτ : τ.Flat f := by
    unfold Flat
    rw [hb]
    exact h
  obtain ⟨hlt, hname, hstart⟩ := h.good.mp hg
  obtain ⟨hn, hs⟩ := hsame e.idx hlt
  refine hτ.good.mpr ⟨hlt.trans_le hcount, ?_, ?_⟩
  · rw [(hτ.entry _).1, hn, ← (h.entry _).1, hname]
  · rw [(hτ.entry _).2.1, hs, ← (h.entry _).2.1, hstart]

theorem Flat.count (h : σ.Flat f) : σ.count = (σ.vol.count, σ) := by
  unfold Fs.count
  rcases h with ⟨hb, -⟩ | ⟨hb, -⟩ <;> rw [hb]

theorem Flat.readFile (h : σ.Flat f) (i : Nat) (dst : Nat → UInt8) (io : Io) (ok : Bool) :
    (σ.readFile i dst io ok).2 = σ := by
  unfold Fs.readFile
  rcases h with ⟨hb, -⟩ | ⟨hb, -⟩ <;> rw [hb]

theorem Flat.writeFile (h : σ.Flat f) (i : Nat) (src : Nat → UInt8) (size : Nat) (io io₀ io₁ : Io)
    (left : Bool × List UInt8 × Nat) : σ.writeFile i src size io io₀ io₁ left =
      ((f.writeFile i src size io io₀ io₁ σ.vol).1,
        { σ with vol := (f.writeFile i src size io io₀ io₁ σ.vol).2 }) := by
  unfold Fs.writeFile
  rcases h with ⟨hb, rfl⟩ | ⟨hb, rfl⟩ <;> rw [hb]

theorem Flat.create (h : σ.Flat f) (name : List UInt8) (kind capacity : Nat) (io₀ io₁ : Io)
    (made : Option (Nat × Nat)) : σ.create name kind capacity io₀ io₁ made =
      ((f.create name kind capacity io₀ io₁ σ.vol).1,
        { σ with vol := (f.create name kind capacity io₀ io₁ σ.vol).2 }) := by
  unfold Fs.create
  rcases h with ⟨hb, rfl⟩ | ⟨hb, rfl⟩ <;> rw [hb]

/-- **An operation on a flat file system** keeps what the indices denote. -/
theorem Flat.step (h : σ.Flat f) {a : IndexAct} (hs : σ.step a = some τ)
    (hg : ∀ e ∈ held, σ.Good e) : τ.Flat f ∧ ∀ e ∈ σ.note a τ held, τ.Good e := by
  cases a with
  | find name =>
      obtain rfl := Option.some.inj hs
      have hτ : (σ.find name).2 = σ := congrArg Prod.snd h.count
      rw [hτ]
      refine ⟨h, good_note hg fun i hf => h.fresh ?_⟩
      have hi := List.mem_range.mp (List.mem_of_find?_eq_some hf)
      rwa [h.count] at hi
  | count =>
      obtain rfl := Option.some.inj hs
      rw [h.count]
      exact ⟨h, hg⟩
  | create name kind capacity io₀ io₁ made =>
      obtain rfl := Option.some.inj hs
      obtain ⟨hcount, hsame, hnew⟩ :=
        Format.create_spares (f := f) name kind.toNat capacity.toNat io₀ io₁ σ.vol
      have hτ : Flat (σ.create name kind.toNat capacity.toNat io₀ io₁ made).2 f := by
        rw [h.create]
        exact h
      refine ⟨hτ, good_note (fun e he => ?_) fun i hf => hτ.fresh ?_⟩
      · rw [h.create]
        exact h.moves rfl hcount (fun j hj => by rw [hsame j hj]; exact ⟨rfl, rfl⟩) (hg e he)
      · have hf : (σ.create name kind.toNat capacity.toNat io₀ io₁ made).1 = some i := hf
        rw [h.create] at hf ⊢
        exact hnew i hf
  | read i dst io ok =>
      obtain rfl := Option.some.inj hs
      rw [h.readFile]
      exact ⟨h, hg⟩
  | write i src size io io₀ io₁ left =>
      obtain rfl := Option.some.inj hs
      obtain ⟨hcount, hsame, -⟩ :=
        Format.writeFile_spares (f := f) i src size.toNat_lt io io₀ io₁ σ.vol
      rw [h.writeFile]
      exact ⟨h, fun e he => h.moves rfl hcount.ge (fun j _ => hsame j) (hg e he)⟩
  | change root files marked =>
      obtain ⟨hb, -⟩ := (Option.ite_none_right_eq_some ..).mp hs
      rcases h with ⟨hb', -⟩ | ⟨hb', -⟩ <;> rw [hb'] at hb <;> exact absurd hb (by decide)

/-! ### One step on an ext2 -/

theorem good_ext2 (hb : σ.backend = .ext2) : σ.Good e ↔ σ.items[e.idx]? = some (e.place, e.name) ∧
    (listing σ.root)[e.idx]? = some (e.place, e.name) := by
  unfold Good
  rw [hb]

theorem fresh_ext2 (hb : σ.backend = .ext2) (hl : σ.items = listing σ.root) {i : Nat}
    (hi : i < σ.items.length) : σ.Good ⟨i, (σ.entry i).name, (σ.entry i).start_sector⟩ := by
  obtain ⟨⟨ino, name⟩, hget⟩ : ∃ p, σ.items[i]? = some p := ⟨_, List.getElem?_eq_getElem hi⟩
  obtain ⟨hname, hstart⟩ := entry_ext2 hb hget
  rw [hname, hstart]
  exact (good_ext2 hb).mpr ⟨hget, hl ▸ hget⟩

theorem refreshed (hb : σ.backend = .ext2) (hl : σ.Listed) (hg : ∀ e ∈ held, σ.Good e) :
    σ.legacyRefresh.backend = .ext2 ∧ σ.legacyRefresh.items = listing σ.legacyRefresh.root ∧
      ∀ e ∈ held, σ.legacyRefresh.Good e := by
  obtain ⟨hb', -, hroot, -⟩ := legacyRefresh_rest σ
  exact ⟨hb'.trans hb, (legacyRefresh_items hl).trans (congrArg listing hroot.symm),
    fun e he => (hg e he).refresh hb hl⟩

theorem count_ext2 (hb : σ.backend = .ext2) :
    σ.count = (σ.legacyRefresh.items.length, σ.legacyRefresh) := by
  unfold count
  rw [hb]

theorem good_steady (hb : σ.backend = .ext2) (hb' : τ.backend = .ext2)
    (hroot : Steady held σ.root τ.root)
    (hitems : ∀ e ∈ held, τ.items[e.idx]? = σ.items[e.idx]? ∨
      τ.items[e.idx]? = (listing τ.root)[e.idx]?) (hg : ∀ e ∈ held, σ.Good e) :
    ∀ e ∈ held, τ.Good e := fun e he => by
  obtain ⟨hitem, hlist⟩ := (good_ext2 hb).mp (hg e he)
  have hlist' := (hroot e he).trans hlist
  refine (good_ext2 hb').mpr ⟨?_, hlist'⟩
  rcases hitems e he with h | h
  · exact h.trans hitem
  · exact h.trans hlist'

/-- **An operation on an ext2** that is calm keeps what the indices denote. -/
theorem step_ext2 (hb : σ.backend = .ext2) (hl : σ.Listed) (hg : ∀ e ∈ held, σ.Good e)
    {a : IndexAct} (hc : Calm (σ, held) a) (hs : σ.step a = some τ) :
    τ.backend = .ext2 ∧ τ.Listed ∧ ∀ e ∈ σ.note a τ held, τ.Good e := by
  obtain ⟨hb', hitems, hgood⟩ := refreshed hb hl hg
  have hlisted := legacyRefresh_listed hl
  cases a with
  | find name =>
      obtain rfl := Option.some.inj hs
      have hτ : (σ.find name).2 = σ.legacyRefresh := congrArg Prod.snd (count_ext2 hb)
      rw [hτ]
      refine ⟨hb', hlisted, good_note hgood fun i hf => fresh_ext2 hb' hitems ?_⟩
      have hi := List.mem_range.mp (List.mem_of_find?_eq_some hf)
      rwa [count_ext2 hb] at hi
  | count =>
      obtain rfl := Option.some.inj hs
      rw [count_ext2 hb]
      exact ⟨hb', hlisted, hgood⟩
  | create name kind capacity io₀ io₁ made =>
      obtain rfl := Option.some.inj hs
      have hsame : ∀ r, σ.create name kind.toNat capacity.toNat io₀ io₁ made = (none, σ) →
          r = (σ.create name kind.toNat capacity.toNat io₀ io₁ made).2 →
          r.backend = .ext2 ∧ r.Listed ∧ ∀ e ∈ σ.note (.create name kind capacity io₀ io₁ made) r held, r.Good e := by
        intro r hr hrr
        rw [hrr, hr]
        refine ⟨hb, hl, good_note hg fun i hf => ?_⟩
        have hf : (σ.create name kind.toNat capacity.toNat io₀ io₁ made).1 = some i := hf
        rw [hr] at hf
        exact absurd hf (by simp)
      by_cases hname : name.length ≥ NAME_LEN ∨ 47 ∈ name
      · refine hsame _ ?_ rfl
        unfold create
        rw [hb]
        exact if_pos hname
      obtain ⟨hlen, hslash⟩ := not_or.mp hname
      cases hmade : σ.ext2Create name made with
      | none =>
          refine hsame _ ?_ rfl
          unfold create
          rw [hb]
          simp only [if_neg hname, hmade]
      | some μ =>
          have hsteady := hc hb (Nat.lt_of_not_ge hlen) hslash μ hmade
          have hμ : μ.backend = .ext2 := by
            obtain ⟨-, hmade⟩ := (Option.ite_none_left_eq_some ..).mp hmade
            obtain ⟨m, -, rfl⟩ := Option.map_eq_some_iff.mp hmade
            exact hb
          have hcreate : σ.create name kind.toNat capacity.toNat io₀ io₁ made =
              ((List.range (listing μ.root).length).find? fun i =>
                ((listing μ.root)[i]?.elim [] fun p => nameStr p.2) = name,
                { μ with items := listing μ.root, dirty := false }) := by
            unfold create
            rw [hb]
            simp only [if_neg hname, hmade]
            rfl
          have hanswer : ∀ i, σ.answer (.create name kind capacity io₀ io₁ made) = some i →
              i < (listing μ.root).length := fun i hf => by
            have hf : (σ.create name kind.toNat capacity.toNat io₀ io₁ made).1 = some i := hf
            rw [hcreate] at hf
            exact List.mem_range.mp (List.mem_of_find?_eq_some hf)
          rw [hcreate]
          exact ⟨hμ, fun _ => rfl, good_note (good_steady hb hμ hsteady (fun _ _ => Or.inr rfl) hg)
            fun i hf => fresh_ext2 (σ := { μ with items := listing μ.root, dirty := false }) hμ rfl
              (hanswer i hf)⟩
  | read i dst io ok =>
      obtain rfl := Option.some.inj hs
      have hτ : (σ.readFile i dst io ok).2 = σ.legacyRefresh := by
        unfold readFile
        rw [hb]
        rfl
      rw [hτ]
      exact ⟨hb', hlisted, hgood⟩
  | write i src size io io₀ io₁ left =>
      obtain rfl := Option.some.inj hs
      obtain ⟨files, hτ⟩ : ∃ files, (σ.writeFile i src size.toNat io io₀ io₁ left).2 =
          { σ.legacyRefresh with files := files } := by
        unfold writeFile legacyIno
        rw [hb]
        cases σ.legacyRefresh.items[i]? with
        | none => exact ⟨σ.legacyRefresh.files, rfl⟩
        | some p => exact ⟨_, rfl⟩
      rw [hτ]
      exact ⟨hb', hlisted, fun e he => (good_ext2 (σ := { σ.legacyRefresh with files := files }) hb').mpr
        ((good_ext2 hb').mp (hgood e he))⟩
  | change root files marked =>
      obtain ⟨-, hs⟩ := (Option.ite_none_right_eq_some ..).mp hs
      obtain rfl := Option.some.inj hs
      obtain ⟨hsteady, hmark⟩ := hc
      refine ⟨hb, fun hd => ?_, good_steady hb hb hsteady (fun _ _ => Or.inl rfl) hg⟩
      obtain ⟨hd, hm⟩ := Bool.or_eq_false_iff.mp hd
      exact (hl hd).trans (hmark hm).symm

/-! ### Runs -/

/-- Nothing was handed out, and the list is to be made. -/
def Boot (σ : Fs) : Prop := σ.backend ≠ .none ∧ σ.dirty = true

/-- The runs from boot, with the indices that were handed out, whose operations satisfy `P`. -/
abbrev Running (P : Fs × List Handle → IndexAct → Prop) : Fs × List Handle → Prop :=
  Reached (noted step note) (fun x => Boot x.1 ∧ x.2 = []) P

/-- What holds of a file system and the indices that it handed out. -/
def Fine (σ : Fs) (held : List Handle) : Prop :=
  ((∃ f, σ.Flat f) ∨ σ.backend = .ext2 ∧ σ.Listed) ∧ ∀ e ∈ held, σ.Good e

theorem Fine.step {a : IndexAct} (h : σ.Fine held) (hc : Calm (σ, held) a)
    (hs : σ.step a = some τ) : τ.Fine (σ.note a τ held) := by
  obtain ⟨⟨f, hf⟩ | ⟨hb, hl⟩, hg⟩ := h
  · obtain ⟨hτ, hgood⟩ := hf.step hs hg
    exact ⟨Or.inl ⟨f, hτ⟩, hgood⟩
  · obtain ⟨hb', hl', hgood⟩ := step_ext2 hb hl hg hc hs
    exact ⟨Or.inr ⟨hb', hl'⟩, hgood⟩

theorem Flat.spares (h : σ.Flat f) (i : Nat) (src : Nat → UInt8) (size : UInt32)
    (io io₀ io₁ : Io) (left : Bool × List UInt8 × Nat) :
    σ.Spares (σ.writeFile i src size.toNat io io₀ io₁ left).2 i := by
  obtain ⟨-, -, hbytes⟩ := Format.writeFile_spares (f := f) i src size.toNat_lt io io₀ io₁ σ.vol
  have hstart : σ.dataStart = f.dataStart := by
    unfold dataStart
    rcases h with ⟨hb, rfl⟩ | ⟨hb, rfl⟩ <;> rw [hb]
  obtain ⟨-, hs, hcap⟩ := h.entry i
  rw [h.writeFile]
  refine ⟨fun _ _ => rfl, fun x hx hout => ?_⟩
  rw [hstart] at hx
  rw [hs, hcap] at hout
  exact hbytes x hx hout

theorem Good.spares_ext2 (hb : σ.backend = .ext2) (hl : σ.Listed) (h : σ.Good e)
    (src : Nat → UInt8) (size : Nat) (io io₀ io₁ : Io) (left : Bool × List UInt8 × Nat) :
    σ.Spares (σ.writeFile e.idx src size io io₀ io₁ left).2 e.idx := by
  obtain ⟨-, hvol, -, hfiles⟩ := legacyRefresh_rest σ
  have hget := ((good_ext2 hb).mp h).2
  rw [← legacyRefresh_items hl] at hget
  have hw : (σ.writeFile e.idx src size io io₀ io₁ left).2 = { σ.legacyRefresh with
      files := Function.update σ.legacyRefresh.files e.place
        (some (if left.1 then ((List.range size).map src, left.2.2) else left.2)) } := by
    unfold writeFile legacyIno
    rw [hb, hget]
    rfl
  rw [hw]
  refine ⟨fun ino hne => ?_, fun x _ _ => by simp only [hvol]⟩
  rw [(h.denotes fun _ => hl).start] at hne
  simp only [Function.update_of_ne hne, hfiles]

/-- **Indices** denote the files they were handed out for, and a write by an index changes that file
only: in the runs whose operations are calm. -/
theorem indices_stable (h : Running Calm (σ, held)) : ∀ e ∈ held, σ.Denotes e ∧
    ∀ src (size : UInt32) io io₀ io₁ left,
      σ.Spares (σ.writeFile e.idx src size.toNat io io₀ io₁ left).2 e.idx := by
  have hfine : σ.Fine held := by
    refine Reached.invariant (I := fun x => x.1.Fine x.2) ?_ ?_ h
    · rintro x ⟨⟨hb, hd⟩, hx⟩
      rw [hx]
      refine ⟨?_, fun e he => absurd he (by simp)⟩
      cases hback : x.1.backend with
      | none => exact absurd hback hb
      | nbfs => exact Or.inl ⟨nbfs, Or.inl ⟨hback, rfl⟩⟩
      | pfs => exact Or.inl ⟨pfs, Or.inr ⟨hback, rfl⟩⟩
      | ext2 => exact Or.inr ⟨rfl, fun hc => absurd (hd.symm.trans hc) (by decide)⟩
    · intro x a y hx ha hs
      obtain ⟨hstep, hnote⟩ := noted_some hs
      rw [hnote]
      exact hx.step ha hstep
  intro e he
  have hg := hfine.2 e he
  rcases hfine.1 with ⟨f, hf⟩ | ⟨hb, hl⟩
  · have hne : σ.backend ≠ .ext2 := fun hc => by
      rcases hf with ⟨hb, -⟩ | ⟨hb, -⟩ <;> rw [hb] at hc <;> exact absurd hc (by decide)
    exact ⟨hg.denotes fun hc => absurd hc hne, fun src size io io₀ io₁ left => hf.spares e.idx src size io io₀ io₁ left⟩
  · exact ⟨hg.denotes fun _ => hl, fun src size io io₀ io₁ left =>
      hg.spares_ext2 hb hl src size.toNat io io₀ io₁ left⟩

/-! ### Two files in the root -/

/-- An ext2 whose root has the files `a` and `b`; inode 13 is another file. -/
def shelf : Fs where
  backend := .ext2
  vol := fresh
  root := [⟨11, FT_REG, [97]⟩, ⟨12, FT_REG, [98]⟩]
  files := fun i => if i = 12 then some ([1], 0) else some ([], 0)
  items := []
  dirty := true

/-- The index of `b`. -/
def second : Handle := ⟨1, 98 :: List.replicate 27 0, 12⟩

theorem shelf_running {P : Fs × List Handle → IndexAct → Prop} (h : P (shelf, []) (.find [98])) :
    Running P (shelf.legacyRefresh, [second]) := by
  have hstart : Running P (shelf, []) := .init ⟨⟨by decide, rfl⟩, rfl⟩
  have hfind : shelf.answer (.find [98]) = some 1 := by decide +kernel
  refine .step hstart h (Option.map_eq_some_iff.mpr ⟨shelf.legacyRefresh, rfl, ?_⟩)
  unfold note
  rw [hfind]
  rfl

/-- The index of `b` denotes `b`. -/
theorem indices_stable_second : shelf.legacyRefresh.Denotes second :=
  (indices_stable (shelf_running (P := Calm) trivial) second (by simp)).1

/-- **A name is removed**: `a` goes and `c` comes, and the index of `b` reads `c`. -/
theorem index_moves : ¬ ∀ σ held, Running (fun _ _ => True) (σ, held) → ∀ e ∈ held, σ.Denotes e := by
  intro hall
  set root' : List Dirent := [⟨12, FT_REG, [98]⟩, ⟨13, FT_REG, [99]⟩] with hroot
  have hrun : Running (fun _ _ => True)
      ({ shelf.legacyRefresh with root := root', dirty := true }, [second]) :=
    .step (shelf_running trivial) trivial
      (Option.map_eq_some_iff.mpr ⟨_, rfl, rfl⟩ : noted step note _
        (.change root' shelf.files true) = some _)
  have hread := (hall _ _ hrun second (by simp)).read (fun _ => 0) none true
  have hsize := congrArg (Option.map Prod.fst) hread
  exact absurd hsize (by rw [hroot]; decide +kernel)

end Fs

end Pulsar.Legacy

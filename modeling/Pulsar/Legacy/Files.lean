import Pulsar.Legacy.Volume
import Pulsar.Lib.Runs

/-!
# Files of the flat file systems (`nbfs.rs`, `pfs.rs`)

* **`files_kept`**: from an image whose table is sound, as long as no write to the superblock or the
  table fails, the runs of sectors stay apart and in the data area, names stay unique, a read gives
  what was written last, an operation that fails leaves the tables as they were, and mounting the
  disk again finds the same files.
* `flush_fails`: a file whose creation fails stays in the table when the write of the table failed.
-/

namespace Pulsar.Legacy

open Runs

/-! ### Entries of the table -/

namespace FileEntry

/-- The entry is one of the format. -/
structure Fits (f : Format) (e : FileEntry) : Prop where
  name : e.name.length = f.nameLen
  start : e.start_sector < 2 ^ 32
  size : e.size_bytes < 2 ^ 32
  kind : e.kind < 2 ^ 32
  capacity : e.capacity_sec < 2 ^ 32
  mtime : e.mtime < 2 ^ 32
  flags : e.flags < 2 ^ 32
  plain : f.rich = false → e.mtime = 0 ∧ e.flags = 0

end FileEntry

namespace Format

variable {f : Format} {t t' : Nat → UInt8} {i j : Nat} {e : FileEntry}

theorem entry_fits' (f : Format) (t : Nat → UInt8) (i : Nat) : (f.entry t i).Fits f where
  name := by simp [entry]
  start := leGet_lt t 4 _
  size := leGet_lt t 4 _
  kind := leGet_lt t 4 _
  capacity := leGet_lt t 4 _
  mtime := by
    simp only [entry]
    split_ifs
    · exact leGet_lt t 4 _
    · decide
  flags := by
    simp only [entry]
    split_ifs
    · exact leGet_lt t 4 _
    · decide
  plain h := by simp [entry, h]

theorem entry_congr (h : ∀ k < 64, t (64 * i + k) = t' (64 * i + k)) :
    f.entry t i = f.entry t' i := by
  have hfit := f.entry_fits
  have hget : ∀ o, o + 4 ≤ 24 → leGet t (f.fields i + o) 4 = leGet t' (f.fields i + o) 4 :=
    fun o ho => leGet_congr fun k hk => by
      have := h (f.nameLen + o + k) (by omega)
      simpa only [fields, Nat.add_assoc] using this
  have hname : ∀ k < f.nameLen, t (64 * i + k) = t' (64 * i + k) := fun k hk => h k (by omega)
  have h₀ := hget 0 (by decide)
  simp only [Nat.add_zero] at h₀
  simp only [entry, h₀, hget 4 (by decide), hget 8 (by decide), hget 12 (by decide),
    hget 16 (by decide), hget 20 (by decide)]
  congr 1
  exact List.map_congr_left fun k hk => hname k (List.mem_range.mp hk)

theorem setEntry_outside {x : Nat} (h : x < 64 * i ∨ 64 * i + 64 ≤ x) :
    f.setEntry t i e x = t x := by
  have hfit := f.entry_fits
  have hmain : lePut (lePut (lePut (lePut (blit t (64 * i) f.nameLen fun k => e.name.getD k 0)
      (f.fields i) 4 e.start_sector) (f.fields i + 4) 4 e.size_bytes) (f.fields i + 8) 4 e.kind)
      (f.fields i + 12) 4 e.capacity_sec x = t x := by
    simp only [fields]
    rw [lePut_outside (by omega), lePut_outside (by omega), lePut_outside (by omega),
      lePut_outside (by omega), blit_outside (by omega)]
  unfold setEntry
  split_ifs
  · refine Eq.trans ?_ hmain
    simp only [fields]
    rw [lePut_outside (by omega), lePut_outside (by omega)]
  · exact hmain

theorem entry_setEntry_of_ne (h : j ≠ i) : f.entry (f.setEntry t i e) j = f.entry t j :=
  entry_congr fun k hk => setEntry_outside (by omega)

theorem leGet_put (d : Nat → UInt8) (o : Nat) {v : Nat} (hv : v < 2 ^ 32) :
    leGet (lePut d o 4 v) o 4 = v := by
  rw [leGet_lePut]
  exact Nat.mod_eq_of_lt (by simpa using hv)

/-- **What is set** is what is read. -/
theorem entry_setEntry (he : e.Fits f) : f.entry (f.setEntry t i e) i = e := by
  have hname : ∀ d : Nat → UInt8, (∀ k < f.nameLen, d (64 * i + k) = e.name.getD k 0) →
      ((List.range f.nameLen).map fun k => d (64 * i + k)) = e.name := fun d hd => by
    refine List.ext_getElem (by simp [he.name]) fun k hk hk' => ?_
    rw [List.getElem_map, List.getElem_range, hd k (by simpa using hk), List.getD_eq_getElem?_getD,
      List.getElem?_eq_getElem hk', Option.getD_some]
  -- the numbers are four bytes apart, and after the name
  have hbefore : ∀ {d : Nat → UInt8} {k o v : Nat}, k < f.nameLen →
      lePut d (f.fields i + o) 4 v (64 * i + k) = d (64 * i + k) := fun hk =>
    lePut_outside (Or.inl (by simp only [fields]; omega))
  have hfirst : ∀ {d : Nat → UInt8} {k v : Nat}, k < f.nameLen →
      lePut d (f.fields i) 4 v (64 * i + k) = d (64 * i + k) := fun hk => hbefore (o := 0) hk
  obtain ⟨-, hstart, hsize, hkind, hcapacity, hmtime, hflags, hplain⟩ := he
  unfold setEntry
  cases hr : f.rich with
  | true =>
      simp (disch := omega) only [entry, hr, if_true, leGet_lePut_of_disjoint, leGet_put]
      rw [hname _ fun k hk => by
        rw [hbefore hk, hbefore hk, hbefore hk, hbefore hk, hbefore hk, hfirst hk, blit_inside hk]]
  | false =>
      obtain ⟨hm, hg⟩ := hplain hr
      simp (disch := omega) only [entry, hr, Bool.false_eq_true, if_false,
        leGet_lePut_of_disjoint, leGet_put]
      rw [hname _ fun k hk => by
        rw [hbefore hk, hbefore hk, hbefore hk, hfirst hk, blit_inside hk]]
      rw [FileEntry.mk.injEq]
      exact ⟨rfl, rfl, rfl, rfl, rfl, hm.symm, hg.symm⟩

/-! ### Sound tables -/

/-- The runs of sectors have nothing in common. -/
def Apart (a b : FileEntry) : Prop :=
  a.start_sector + a.capacity_sec ≤ b.start_sector ∨ b.start_sector + b.capacity_sec ≤ a.start_sector

/-- The runs of sectors are apart and in the data area, the names differ, and the contents fit. -/
structure Sound (f : Format) (t : Nat → UInt8) (count : Nat) : Prop where
  inside : ∀ i < count, f.dataStart ≤ (f.entry t i).start_sector ∧
    (f.entry t i).start_sector + (f.entry t i).capacity_sec ≤ TOTAL
  apart : ∀ i < count, ∀ j < count, i ≠ j → Apart (f.entry t i) (f.entry t j)
  names : ∀ i < count, ∀ j < count,
    nameStr (f.entry t i).name = nameStr (f.entry t j).name → i = j
  room : ∀ i < count, (f.entry t i).size_bytes ≤ 512 * (f.entry t i).capacity_sec

theorem Apart.symm {a b : FileEntry} (h : Apart a b) : Apart b a := Or.symm h

theorem high_succ (f : Format) (t : Nat → UInt8) (n : Nat) : f.high t (n + 1) = max (f.high t n)
    (((f.entry t n).start_sector + (f.entry t n).capacity_sec) % 2 ^ 32) := by
  simp [high, List.range_succ]

/-- What `mount` takes for free is after every file. -/
theorem Sound.high {n : Nat} (h : Sound f t n) : f.dataStart ≤ f.high t n ∧ f.high t n ≤ TOTAL ∧
    ∀ i < n, (f.entry t i).start_sector + (f.entry t i).capacity_sec ≤ f.high t n := by
  have key : ∀ m ≤ n, f.dataStart ≤ f.high t m ∧ f.high t m ≤ TOTAL ∧
      ∀ i < m, (f.entry t i).start_sector + (f.entry t i).capacity_sec ≤ f.high t m := by
    intro m
    induction m with
    | zero =>
        have hlt := f.tableSectors_lt
        intro _
        exact ⟨Nat.le_refl _, hlt.le, fun i hi => absurd hi (Nat.not_lt_zero i)⟩
    | succ m ih =>
        intro hm
        obtain ⟨hlow, hup, hall⟩ := ih (by omega)
        have hin := (h.inside m hm).2
        have hmod : ((f.entry t m).start_sector + (f.entry t m).capacity_sec) % 2 ^ 32 =
            (f.entry t m).start_sector + (f.entry t m).capacity_sec :=
          Nat.mod_eq_of_lt (by unfold TOTAL at hin; omega)
        rw [high_succ, hmod]
        refine ⟨hlow.trans (Nat.le_max_left ..), Nat.max_le.mpr ⟨hup, hin⟩, fun i hi => ?_⟩
        rcases Nat.lt_succ_iff_lt_or_eq.mp hi with hi | rfl
        · exact (hall i hi).trans (Nat.le_max_left ..)
        · exact Nat.le_max_right ..
  exact key n (Nat.le_refl n)

/-! ### What is on the disk -/

/-- The contents of file `i`. -/
def contents (f : Format) (v : Volume) (i : Nat) : List UInt8 :=
  (List.range (f.entry v.table i).size_bytes).map fun k =>
    v.disk.bytes (512 * (f.entry v.table i).start_sector + k)

/-- The superblock and the table are on the disk. -/
structure Flushed (f : Format) (v : Volume) : Prop where
  sectors : f.dataStart ≤ v.disk.sectors
  magic : leGet v.disk.bytes 0 4 = f.magic
  count : min (leGet v.disk.bytes 8 4) f.maxFiles = v.count
  table : ∀ x < 512 * f.tableSectors, v.disk.bytes (512 + x) = v.table x

theorem maxFiles_lt (f : Format) : f.maxFiles < 2 ^ 32 ∧ 512 * f.tableSectors < 2 ^ 32 := by
  have h₁ := f.table_fits
  have h₂ : 1 + f.tableSectors < 16384 := f.tableSectors_lt
  omega

theorem tableBytes (f : Format) : f.tableSectors * 512 % 2 ^ 32 = 512 * f.tableSectors := by
  rw [Nat.mul_comm]
  exact Nat.mod_eq_of_lt f.maxFiles_lt.2

/-- What `mount` finds. -/
theorem mount_some {old : Nat → UInt8} {clock : Nat} {d : Disk} {io₀ io₁ : Io} {v : Volume}
    (h : f.mount old clock d io₀ io₁ = some v) :
    f.Flushed v ∧ v.count ≤ f.maxFiles ∧ v.next = f.high v.table v.count := by
  obtain ⟨sb, hsb, h⟩ := Option.bind_eq_some_iff.mp h
  obtain ⟨-, hsb⟩ := (Option.ite_none_left_eq_some ..).mp hsb
  obtain rfl := Option.some.inj hsb
  obtain ⟨hmagic, h⟩ := (Option.ite_none_left_eq_some ..).mp h
  obtain ⟨t, ht, hv⟩ := Option.map_eq_some_iff.mp h
  obtain ⟨hfits, ht⟩ := (Option.ite_none_left_eq_some ..).mp ht
  obtain rfl := Option.some.inj ht
  have hget : ∀ o, o + 4 ≤ 512 → leGet (blit (fun _ => 0) 0 (1 * 512 % 2 ^ 32)
      fun x => d.bytes (512 * 0 + x)) o 4 = leGet d.bytes o 4 := fun o ho => by
    rw [leGet_blit_start (by omega)]
    exact leGet_congr fun k _ => congrArg d.bytes (Nat.zero_add _)
  rw [hget 0 (by decide), not_not] at hmagic
  rw [hget 8 (by decide)] at hv
  subst hv
  refine ⟨⟨?_, hmagic, rfl, fun x hx => ?_⟩, Nat.min_le_right .., rfl⟩
  · exact Nat.le_of_not_gt fun hc => hfits (Or.inl hc)
  · have hlt : x < f.tableSectors * 512 % 2 ^ 32 := by rwa [tableBytes]
    show d.bytes (512 * 1 + x) = blit old 0 _ (fun x => d.bytes (512 * 1 + x)) x
    rw [blit_start hlt]

/-- The bytes that `mount` reads. -/
theorem readSectors_ok {d : Disk} {lba count : Nat} (h : lba + count ≤ d.sectors)
    (dst : Nat → UInt8) : d.readSectors lba count dst none =
      some (blit dst 0 (count * 512 % 2 ^ 32) fun x => d.bytes (512 * lba + x)) := by
  unfold Disk.readSectors
  rw [if_neg]
  rintro (hc | hc)
  · omega
  · exact absurd hc (by simp)

/-- **Mounting** the disk of a flushed volume finds its files. -/
theorem Flushed.mount {v : Volume} (h : f.Flushed v) (hc : v.count ≤ f.maxFiles)
    (old : Nat → UInt8) (clock : Nat) : ∃ w, f.mount old clock v.disk none none = some w ∧
      w.count = v.count ∧ ∀ i < v.count, f.entry w.table i = f.entry v.table i ∧
        f.contents w i = f.contents v i := by
  have hfits : 1 + f.tableSectors ≤ v.disk.sectors := h.sectors
  have hget : ∀ o, o + 4 ≤ 512 → leGet (blit (fun _ => 0) 0 (1 * 512 % 2 ^ 32)
      fun x => v.disk.bytes (512 * 0 + x)) o 4 = leGet v.disk.bytes o 4 := fun o ho => by
    rw [leGet_blit_start (by omega)]
    exact leGet_congr fun k _ => congrArg v.disk.bytes (Nat.zero_add _)
  set t := blit old 0 (f.tableSectors * 512 % 2 ^ 32) fun x => v.disk.bytes (512 * 1 + x) with ht
  have htable : ∀ x < 512 * f.tableSectors, t x = v.table x := fun x hx => by
    rw [ht, blit_start (by rw [tableBytes]; exact hx)]
    exact h.table x hx
  refine ⟨⟨t, v.count, f.high t v.count, clock, v.disk⟩, ?_, rfl, fun i hi => ?_⟩
  · unfold Format.mount
    rw [readSectors_ok (by omega), Option.bind_some,
      if_neg (by rw [hget 0 (by decide), h.magic]; simp), readSectors_ok hfits, Option.map_some,
      hget 8 (by decide)]
    simp only [h.count, ht]
  · have hi' : i < f.maxFiles := Nat.lt_of_lt_of_le hi hc
    have hsize := f.table_fits
    have he := entry_congr (f := f) (i := i) fun k hk => htable (64 * i + k) (by omega)
    exact ⟨he, by simp only [contents, he]⟩

/-- **A flush** that the disk takes. -/
theorem flushMeta_ok {v : Volume} (h : f.dataStart ≤ v.disk.sectors) (hc : v.count ≤ f.maxFiles) :
    ∃ bytes, f.flushMeta none none v = (true, { v with disk := ⟨v.disk.sectors, bytes⟩ }) ∧
      f.Flushed { v with disk := ⟨v.disk.sectors, bytes⟩ } ∧
      ∀ x, 512 * f.dataStart ≤ x → bytes x = v.disk.bytes x := by
  have hfits : 1 + f.tableSectors ≤ v.disk.sectors := h
  have hrest := f.rest_fits
  have hlt := f.maxFiles_lt
  set first := blit v.disk.bytes (512 * 0) (1 * 512 % 2 ^ 32) (f.superblock v.count) with hfirst
  set bytes := blit first (512 * 1) (f.tableSectors * 512 % 2 ^ 32) v.table with hbytes
  have hsuper : ∀ o, o + 4 ≤ 16 → leGet bytes o 4 = leGet (f.superblock v.count) o 4 :=
      fun o ho => by
    rw [hbytes, leGet_blit_of_disjoint (by omega), hfirst]
    exact leGet_blit_start (by omega)
  refine ⟨bytes, ?_, ⟨h, ?_, ?_, fun x hx => ?_⟩, fun x hx => ?_⟩
  · unfold flushMeta
    have h₀ : v.disk.writeSectors 0 1 (f.superblock v.count) none = (true, ⟨v.disk.sectors, first⟩) :=
      if_neg (by omega)
    have h₁ : Disk.writeSectors ⟨v.disk.sectors, first⟩ 1 f.tableSectors v.table none =
        (true, ⟨v.disk.sectors, bytes⟩) := if_neg (by simp only; omega)
    rw [h₀]
    simp only [if_true]
    rw [h₁]
  · simp only
    rw [hsuper 0 (by decide)]
    simp (disch := omega) only [superblock, leGet_blit_of_disjoint, leGet_lePut_of_disjoint]
    exact leGet_put _ 0 f.magic_fits
  · simp only
    rw [hsuper 8 (by decide)]
    simp (disch := omega) only [superblock, leGet_blit_of_disjoint, leGet_lePut_of_disjoint]
    rw [leGet_put _ 8 (by omega)]
    exact Nat.min_eq_left hc
  · rw [hbytes, Nat.mul_one]
    exact blit_inside (by rw [tableBytes]; exact hx)
  · have hx' : 512 * (1 + f.tableSectors) ≤ x := hx
    rw [hbytes, blit_outside (by rw [tableBytes]; omega), hfirst, blit_outside (by omega)]

/-! ### The operations -/

/-- The checks of `create` pass. -/
def Admits (f : Format) (v : Volume) (name : List UInt8) (capacity : Nat) : Prop :=
  f.find name v = none ∧ name.length < f.nameLen ∧ v.count < f.maxFiles ∧
    (v.next + capacity) % 2 ^ 32 ≤ TOTAL

/-- The checks of `write_file` pass. -/
def Takes (f : Format) (v : Volume) (i size : Nat) : Prop :=
  i < v.count ∧ (f.entry v.table i).flags &&& 2 = 0 ∧
    sectors size ≤ (f.entry v.table i).capacity_sec

/-- The name as it is stored. -/
def padded (f : Format) (name : List UInt8) : List UInt8 :=
  name ++ List.replicate (f.nameLen - name.length) 0

/-- The entry that `create` makes. -/
def created (f : Format) (v : Volume) (name : List UInt8) (kind capacity : Nat) : FileEntry where
  name := f.padded name
  start_sector := v.next
  size_bytes := 0
  kind := kind
  capacity_sec := capacity
  mtime := if f.rich then f.tick v else 0
  flags := 0

/-- The statics with a new file, before they are flushed. -/
def added (f : Format) (v : Volume) (name : List UInt8) (kind capacity : Nat) : Volume :=
  { v with
    table := f.setEntry (blit v.table (64 * v.count) 64 fun _ => 0) v.count
      (f.created v name kind capacity)
    count := v.count + 1
    next := (v.next + capacity) % 2 ^ 32
    clock := f.tick v }

/-- The entry of file `i` once it has been written. -/
def rewritten (f : Format) (v : Volume) (i size : Nat) : FileEntry :=
  { f.entry v.table i with
    size_bytes := size
    mtime := if f.rich then f.tick v else (f.entry v.table i).mtime }

/-- The statics with a file written, before they are flushed. -/
def wrote (f : Format) (v : Volume) (i size : Nat) (d : Disk) : Volume :=
  { v with
    table := f.setEntry v.table i (f.rewritten v i size)
    clock := f.tick v
    disk := d }

variable {v : Volume}

theorem create_eq (name : List UInt8) (kind capacity : Nat) (io₀ io₁ : Io) :
    f.create name kind capacity io₀ io₁ v = (none, v) ∨
    f.Admits v name capacity ∧ f.create name kind capacity io₀ io₁ v =
      (if (f.flushMeta io₀ io₁ (f.added v name kind capacity)).1 then some v.count else none,
        (f.flushMeta io₀ io₁ (f.added v name kind capacity)).2) := by
  unfold create
  by_cases h₁ : (f.find name v).isSome ∨ name.length ≥ f.nameLen
  · exact Or.inl (if_pos h₁)
  by_cases h₂ : v.count ≥ f.maxFiles
  · rw [if_neg h₁]
    exact Or.inl (if_pos h₂)
  by_cases h₃ : (v.next + capacity) % 2 ^ 32 > TOTAL
  · rw [if_neg h₁, if_neg h₂]
    exact Or.inl (if_pos h₃)
  rw [if_neg h₁, if_neg h₂, if_neg h₃]
  rw [not_or, Option.not_isSome_iff_eq_none] at h₁
  exact Or.inr ⟨⟨h₁.1, Nat.lt_of_not_ge h₁.2, Nat.lt_of_not_ge h₂, Nat.le_of_not_gt h₃⟩, rfl⟩

theorem writeFile_eq (i : Nat) (src : Nat → UInt8) (size : Nat) (io io₀ io₁ : Io) :
    f.writeFile i src size io io₀ io₁ v = (false, v) ∨
    f.Takes v i size ∧ ∃ r, r = v.disk.writeSectors (f.entry v.table i).start_sector (sectors size)
        src io ∧
      f.writeFile i src size io io₀ io₁ v =
        if r.1 then f.flushMeta io₀ io₁ (f.wrote v i size r.2) else (false, { v with disk := r.2 }) := by
  unfold writeFile
  by_cases h₁ : i ≥ v.count
  · exact Or.inl (if_pos h₁)
  by_cases h₂ : (f.entry v.table i).flags &&& 2 ≠ 0
  · rw [if_neg h₁]
    exact Or.inl (if_pos h₂)
  by_cases h₃ : sectors size > (f.entry v.table i).capacity_sec
  · rw [if_neg h₁, if_neg h₂]
    exact Or.inl (if_pos h₃)
  rw [if_neg h₁, if_neg h₂, if_neg h₃]
  exact Or.inr ⟨⟨Nat.lt_of_not_ge h₁, not_not.mp h₂, Nat.le_of_not_gt h₃⟩, _, rfl, rfl⟩

/-! ### What the operations keep -/

/-- The state of a volume, with what was last written to each file. -/
structure Fine (f : Format) (v : Volume) (last : Nat → List UInt8) : Prop where
  count : v.count ≤ f.maxFiles
  sound : f.Sound v.table v.count
  next : f.dataStart ≤ v.next ∧ v.next ≤ TOTAL
  free : ∀ i < v.count,
    (f.entry v.table i).start_sector + (f.entry v.table i).capacity_sec ≤ v.next
  flushed : f.Flushed v
  last : ∀ i < v.count, f.contents v i = last i

theorem contents_congr {w : Volume} (he : f.entry w.table i = f.entry v.table i)
    (hd : ∀ k < (f.entry v.table i).size_bytes,
      w.disk.bytes (512 * (f.entry v.table i).start_sector + k) =
        v.disk.bytes (512 * (f.entry v.table i).start_sector + k)) :
    f.contents w i = f.contents v i := by
  unfold contents
  rw [he]
  exact List.map_congr_left fun k hk => hd k (List.mem_range.mp hk)

theorem sectors_room (size : Nat) : size ≤ 512 * sectors size := by
  unfold sectors
  omega

theorem created_fits {name : List UInt8} {kind capacity : Nat} (hname : name.length < f.nameLen)
    (hk : kind < 2 ^ 32) (hc : capacity < 2 ^ 32) (hnext : v.next < 2 ^ 32) : (f.created v name kind capacity).Fits f where
  name := by
    simp only [created, padded, List.length_append, List.length_replicate]
    omega
  start := hnext
  size := Nat.two_pow_pos 32
  kind := hk
  capacity := hc
  mtime := by
    simp only [created, tick]
    split_ifs
    · exact Nat.mod_lt _ (by decide)
    · decide
  flags := Nat.two_pow_pos 32
  plain h := by simp [created, h]

theorem rewritten_fits {size : Nat} (i : Nat) (hs : size < 2 ^ 32) :
    (f.rewritten v i size).Fits f where
  name := (f.entry_fits' v.table i).name
  start := (f.entry_fits' v.table i).start
  size := hs
  kind := (f.entry_fits' v.table i).kind
  capacity := (f.entry_fits' v.table i).capacity
  mtime := by
    simp only [rewritten, tick]
    split_ifs
    · exact Nat.mod_lt _ (by decide)
    · exact (f.entry_fits' v.table i).mtime
  flags := (f.entry_fits' v.table i).flags
  plain h := by
    have := (f.entry_fits' v.table i).plain h
    simpa [rewritten, h] using this

theorem entry_added {name : List UInt8} {kind capacity : Nat}
    (hfit : (f.created v name kind capacity).Fits f) :
    f.entry (f.added v name kind capacity).table v.count = f.created v name kind capacity ∧
    ∀ j < v.count, f.entry (f.added v name kind capacity).table j = f.entry v.table j := by
  refine ⟨entry_setEntry hfit, fun j hj => ?_⟩
  refine (entry_setEntry_of_ne hj.ne).trans (entry_congr fun k hk => ?_)
  exact blit_outside (Or.inl (by omega))

/-- **A new file** keeps the table sound. -/
theorem Sound.added {last : Nat → List UInt8} {name : List UInt8} {kind capacity : Nat}
    (h : f.Fine v last) (ha : f.Admits v name capacity)
    (hfit : (f.created v name kind capacity).Fits f) (hlt : v.next + capacity < 2 ^ 32)
    (hname : ∀ i < v.count, nameStr (f.entry v.table i).name ≠ nameStr (f.padded name)) :
    f.Sound (f.added v name kind capacity).table (v.count + 1) := by
  obtain ⟨hnew, hold⟩ := entry_added hfit
  have hend : v.next + capacity ≤ TOTAL := by
    have := ha.2.2.2
    rwa [Nat.mod_eq_of_lt hlt] at this
  have hcases : ∀ {P : Nat → FileEntry → Prop}, (∀ i < v.count, P i (f.entry v.table i)) →
      P v.count (f.created v name kind capacity) →
      ∀ i < v.count + 1, P i (f.entry (f.added v name kind capacity).table i) :=
    fun {P} ho hn i hi => by
      rcases Nat.lt_succ_iff_lt_or_eq.mp hi with hi | rfl
      · rw [hold i hi]
        exact ho i hi
      · rw [hnew]
        exact hn
  have hfree : ∀ i < v.count, Apart (f.entry v.table i) (f.created v name kind capacity) :=
    fun i hi => Or.inl (h.free i hi)
  refine ⟨hcases (P := fun _ e => f.dataStart ≤ e.start_sector ∧
    e.start_sector + e.capacity_sec ≤ TOTAL) h.sound.inside ⟨h.next.1, hend⟩, ?_, ?_, ?_⟩
  · refine hcases (P := fun i e => ∀ j < v.count + 1, i ≠ j →
      Apart e (f.entry (f.added v name kind capacity).table j)) (fun i hi => ?_) ?_
    · exact hcases (P := fun j d => i ≠ j → Apart (f.entry v.table i) d)
        (fun j hj => h.sound.apart i hi j hj) fun _ => hfree i hi
    · exact hcases (P := fun j d => v.count ≠ j → Apart (f.created v name kind capacity) d)
        (fun j hj _ => (hfree j hj).symm) fun hne => absurd rfl hne
  · refine hcases (P := fun i e => ∀ j < v.count + 1, nameStr e.name =
      nameStr (f.entry (f.added v name kind capacity).table j).name → i = j) (fun i hi => ?_) ?_
    · exact hcases (P := fun j d => nameStr (f.entry v.table i).name = nameStr d.name → i = j)
        (fun j hj => h.sound.names i hi j hj) fun he => absurd he (hname i hi)
    · exact hcases (P := fun j d => nameStr (f.padded name) = nameStr d.name → v.count = j)
        (fun j hj he => absurd he.symm (hname j hj)) fun _ => rfl
  · exact hcases (P := fun _ e => e.size_bytes ≤ 512 * e.capacity_sec) h.sound.room
      (Nat.zero_le _)

/-- **A file that is created** has no contents; the others keep theirs. -/
theorem Fine.create {last : Nat → List UInt8} {name : List UInt8} {kind capacity : Nat}
    (h : f.Fine v last) (ha : f.Admits v name capacity) (hk : kind < 2 ^ 32)
    (hlt : v.next + capacity < 2 ^ 32)
    (hname : ∀ i < v.count, nameStr (f.entry v.table i).name ≠ nameStr (f.padded name)) :
    (f.flushMeta none none (f.added v name kind capacity)).1 = true ∧
      f.Fine (f.flushMeta none none (f.added v name kind capacity)).2
        (Function.update last v.count []) := by
  have hnext : v.next ≤ 16384 := h.next.2
  have hfit : (f.created v name kind capacity).Fits f :=
    created_fits ha.2.1 hk (by omega) (by omega)
  have hend : v.next + capacity ≤ TOTAL := by
    have := ha.2.2.2
    rwa [Nat.mod_eq_of_lt hlt] at this
  have hwnext : (f.added v name kind capacity).next = v.next + capacity := Nat.mod_eq_of_lt hlt
  obtain ⟨hnew, hold⟩ := entry_added hfit
  have hcount : (f.added v name kind capacity).count ≤ f.maxFiles := ha.2.2.1
  obtain ⟨bytes, hr, hflushed, hsame⟩ := flushMeta_ok (v := f.added v name kind capacity)
    h.flushed.sectors hcount
  rw [hr]
  refine ⟨rfl, hcount, Sound.added h ha hfit hlt hname, ?_, fun i hi => ?_, hflushed,
    fun i hi => ?_⟩
  · simp only [hwnext]
    exact ⟨Nat.le_add_right_of_le h.next.1, hend⟩
  · simp only [hwnext]
    rcases Nat.lt_succ_iff_lt_or_eq.mp hi with hi | rfl
    · rw [hold i hi]
      exact Nat.le_add_right_of_le (h.free i hi)
    · rw [hnew]
      exact Nat.le_refl _
  · rcases Nat.lt_succ_iff_lt_or_eq.mp hi with hi | rfl
    · rw [Function.update_of_ne hi.ne, ← h.last i hi]
      refine contents_congr (hold i hi) fun k hk => hsame _ ?_
      exact Nat.le_add_right_of_le (Nat.mul_le_mul_left 512 (h.sound.inside i hi).1)
    · have hsize : (f.entry (f.added v name kind capacity).table v.count).size_bytes = 0 := by
        rw [hnew]
        rfl
      rw [Function.update_self]
      simp only [contents, hsize]
      rfl

/-- A transfer to the sectors of file `i`. -/
theorem Fine.transfer {last : Nat → List UInt8} {size : Nat} {bytes : Nat → UInt8}
    (h : f.Fine v last) (ht : f.Takes v i size) (hj : j < v.count) (hne : j ≠ i) {k : Nat}
    (hk : k < (f.entry v.table j).size_bytes) :
    blit v.disk.bytes (512 * (f.entry v.table i).start_sector) (sectors size * 512 % 2 ^ 32) bytes
      (512 * (f.entry v.table j).start_sector + k) =
    v.disk.bytes (512 * (f.entry v.table j).start_sector + k) := by
  obtain ⟨hi, -, hcap⟩ := ht
  have hroom := h.sound.room j hj
  have hmod := Nat.mod_le (sectors size * 512) (2 ^ 32)
  refine blit_outside ?_
  rcases h.sound.apart j hj i hi hne with hap | hap
  · exact Or.inl (by omega)
  · exact Or.inr (by omega)

theorem Fine.flushed_transfer {last : Nat → List UInt8} {size : Nat} {bytes : Nat → UInt8}
    (h : f.Fine v last) (ht : f.Takes v i size) {x : Nat} (hx : x < 512 * f.dataStart) :
    blit v.disk.bytes (512 * (f.entry v.table i).start_sector) (sectors size * 512 % 2 ^ 32) bytes
      x = v.disk.bytes x := by
  have hin := (h.sound.inside i ht.1).1
  exact blit_outside (Or.inl (by omega))

theorem Fine.sectors_mod {last : Nat → List UInt8} {size : Nat} (h : f.Fine v last)
    (ht : f.Takes v i size) : sectors size * 512 % 2 ^ 32 = 512 * sectors size := by
  have hin : (f.entry v.table i).start_sector + (f.entry v.table i).capacity_sec ≤ 16384 :=
    (h.sound.inside i ht.1).2
  have hcap := ht.2.2
  rw [Nat.mul_comm]
  exact Nat.mod_eq_of_lt (by omega)

/-- **A file that is written** has the new contents; the others keep theirs. -/
theorem Fine.write {last : Nat → List UInt8} {size : Nat} (h : f.Fine v last)
    (ht : f.Takes v i size) (hs : size < 2 ^ 32) (src : Nat → UInt8) :
    let d : Disk := ⟨v.disk.sectors, blit v.disk.bytes (512 * (f.entry v.table i).start_sector)
      (sectors size * 512 % 2 ^ 32) src⟩
    (f.flushMeta none none (f.wrote v i size d)).1 = true ∧
      f.Fine (f.flushMeta none none (f.wrote v i size d)).2
        (Function.update last i ((List.range size).map src)) := by
  intro d
  obtain ⟨hi, hro, hcap⟩ := ht
  have hself : f.entry (f.wrote v i size d).table i = f.rewritten v i size :=
    entry_setEntry (rewritten_fits i hs)
  have hother : ∀ j, j ≠ i → f.entry (f.wrote v i size d).table j = f.entry v.table j :=
    fun j hne => entry_setEntry_of_ne hne
  -- the place of a file stays what it was
  have hplace : ∀ j, (f.entry (f.wrote v i size d).table j).start_sector =
      (f.entry v.table j).start_sector ∧ (f.entry (f.wrote v i size d).table j).capacity_sec =
      (f.entry v.table j).capacity_sec ∧ (f.entry (f.wrote v i size d).table j).name =
      (f.entry v.table j).name := fun j => by
    by_cases hne : j = i
    · rw [hne, hself]
      exact ⟨rfl, rfl, rfl⟩
    · rw [hother j hne]
      exact ⟨rfl, rfl, rfl⟩
  have hsound : f.Sound (f.wrote v i size d).table v.count := by
    refine ⟨fun j hj => ?_, fun j hj k hk hne => ?_, fun j hj k hk he => ?_, fun j hj => ?_⟩
    · rw [(hplace j).1, (hplace j).2.1]
      exact h.sound.inside j hj
    · unfold Apart
      rw [(hplace j).1, (hplace j).2.1, (hplace k).1, (hplace k).2.1]
      exact h.sound.apart j hj k hk hne
    · rw [(hplace j).2.2, (hplace k).2.2] at he
      exact h.sound.names j hj k hk he
    · by_cases hne : j = i
      · rw [hne, hself]
        exact (sectors_room size).trans (Nat.mul_le_mul_left 512 hcap)
      · rw [hother j hne]
        exact h.sound.room j hj
  obtain ⟨bytes, hr, hflushed, hsame⟩ := flushMeta_ok (v := f.wrote v i size d)
    h.flushed.sectors h.count
  have hdata : ∀ j < v.count, ∀ k, bytes (512 * (f.entry v.table j).start_sector + k) =
      d.bytes (512 * (f.entry v.table j).start_sector + k) := fun j hj k =>
    hsame _ (Nat.le_add_right_of_le (Nat.mul_le_mul_left 512 (h.sound.inside j hj).1))
  rw [hr]
  refine ⟨rfl, h.count, hsound, h.next, fun j hj => ?_, hflushed, fun j hj => ?_⟩
  · rw [(hplace j).1, (hplace j).2.1]
    exact h.free j hj
  · by_cases hne : j = i
    · subst hne
      rw [Function.update_self]
      simp only [contents, hself, rewritten]
      refine List.map_congr_left fun k hk => ?_
      have hk' : k < size := List.mem_range.mp hk
      have hroom := sectors_room size
      have hmod := Fine.sectors_mod h ⟨hj, hro, hcap⟩
      rw [hdata j hj]
      exact blit_inside (by omega)
    · rw [Function.update_of_ne hne, ← h.last j hj]
      refine contents_congr (hother j hne) fun k hk => (hdata j hj k).trans ?_
      exact Fine.transfer h ⟨hi, hro, hcap⟩ hj hne hk

/-- **A transfer that fails** and leaves the contents as they were. -/
theorem Fine.torn {last : Nat → List UInt8} {size : Nat} {junk : Nat → UInt8} (h : f.Fine v last)
    (ht : f.Takes v i size) (hjunk : ∀ k < (f.entry v.table i).size_bytes, k < 512 * sectors size →
      junk k = v.disk.bytes (512 * (f.entry v.table i).start_sector + k)) :
    f.Fine { v with disk := ⟨v.disk.sectors,
      blit v.disk.bytes (512 * (f.entry v.table i).start_sector) (sectors size * 512 % 2 ^ 32)
        junk⟩ } last := by
  have hmod := h.sectors_mod ht
  have hmeta : ∀ x < 512 * f.dataStart, blit v.disk.bytes (512 * (f.entry v.table i).start_sector)
      (sectors size * 512 % 2 ^ 32) junk x = v.disk.bytes x := fun x hx => h.flushed_transfer ht hx
  have hstart : f.dataStart = 1 + f.tableSectors := rfl
  refine ⟨h.count, h.sound, h.next, h.free, ⟨h.flushed.sectors, ?_, ?_, fun x hx => ?_⟩,
    fun j hj => ?_⟩
  · exact (leGet_congr fun k hk => hmeta _ (by omega)).trans h.flushed.magic
  · exact (congrArg (min · f.maxFiles) (leGet_congr fun k hk => hmeta _ (by omega))).trans
      h.flushed.count
  · exact (hmeta _ (by omega)).trans (h.flushed.table x hx)
  · rw [← h.last j hj]
    refine contents_congr rfl fun k hk => ?_
    by_cases hne : j = i
    · subst hne
      by_cases hin : k < 512 * sectors size
      · exact (blit_inside (by omega)).trans (hjunk k hk hin)
      · exact blit_outside (Or.inr (by omega))
    · exact h.transfer ht hj hne hk

end Format

/-! ### Runs -/

/-- An operation that may change a volume, with what its transfers come to. -/
inductive FileAct where
  | create (name : List UInt8) (kind capacity : UInt32) (io₀ io₁ : Io)
  | write (i : Nat) (src : Nat → UInt8) (size : UInt32) (io io₀ io₁ : Io)

namespace Format

variable {f : Format} {v w : Volume} {last : Nat → List UInt8}

/-- The operation: whether it succeeds, and the volume after it. -/
def apply (f : Format) (v : Volume) : FileAct → Bool × Volume
  | .create name kind capacity io₀ io₁ =>
    let r := f.create name kind.toNat capacity.toNat io₀ io₁ v
    (r.1.isSome, r.2)
  | .write i src size io io₀ io₁ => f.writeFile i src size.toNat io io₀ io₁ v

def step (f : Format) (v : Volume) (a : FileAct) : Option Volume := some (f.apply v a).2

/-- What was written last to each file. -/
def note (f : Format) (v : Volume) (a : FileAct) (_ : Volume) (last : Nat → List UInt8) :
    Nat → List UInt8 :=
  if (f.apply v a).1 then
    match a with
    | .create .. => Function.update last v.count []
    | .write i src size .. => Function.update last i ((List.range size.toNat).map src)
  else last

/-- A file that is created has a name that is new as it is stored, the end of its run fits in 32
bits, and the flush succeeds; a file is written with a flush that succeeds, or fails to be written
with its contents left as they were. -/
def Apt (f : Format) (v : Volume) : FileAct → Prop
  | .create name _ capacity io₀ io₁ => f.Admits v name capacity.toNat →
    (∀ i < v.count, nameStr (f.entry v.table i).name ≠ nameStr (f.padded name)) ∧
      v.next + capacity.toNat < 2 ^ 32 ∧ io₀ = none ∧ io₁ = none
  | .write i _ size io io₀ io₁ => f.Takes v i size.toNat →
    (f.entry v.table i).start_sector + sectors size.toNat ≤ v.disk.sectors →
    match io with
    | none => io₀ = none ∧ io₁ = none
    | some junk => ∀ k < (f.entry v.table i).size_bytes, k < 512 * sectors size.toNat →
      junk k = v.disk.bytes (512 * (f.entry v.table i).start_sector + k)

/-- The runs from an image that `mount` accepts and that satisfies `Q`, whose operations satisfy
`P`, with what was written last. -/
def Running (f : Format) (Q : Volume → Prop) (P : Volume → FileAct → Prop) :
    Volume × (Nat → List UInt8) → Prop :=
  Reached (noted f.step f.note)
    (fun x => (∃ old clock d io₀ io₁, f.mount old clock d io₀ io₁ = some x.1) ∧ Q x.1 ∧
      x.2 = f.contents x.1)
    fun x a => P x.1 a

/-- The files are apart and in the data area, their names differ, a read gives what was written
last, and the disk when mounted has the same files. -/
structure Kept (f : Format) (v : Volume) (last : Nat → List UInt8) : Prop where
  inside : ∀ i < v.count, f.dataStart ≤ (f.entry v.table i).start_sector ∧
    (f.entry v.table i).start_sector + (f.entry v.table i).capacity_sec ≤ TOTAL
  apart : ∀ i < v.count, ∀ j < v.count, i ≠ j → Apart (f.entry v.table i) (f.entry v.table j)
  names : ∀ i < v.count, ∀ j < v.count,
    nameStr (f.entry v.table i).name = nameStr (f.entry v.table j).name → i = j
  reads : ∀ i < v.count, ∀ dst io r, f.readFile i dst io v = some r →
    (List.range r.1).map r.2 = last i
  remount : ∀ old clock, ∃ w, f.mount old clock v.disk none none = some w ∧ w.count = v.count ∧
    ∀ i < v.count, f.entry w.table i = f.entry v.table i ∧ f.contents w i = f.contents v i

/-- The tables in memory are the same. -/
def SameTables (v w : Volume) : Prop := w.table = v.table ∧ w.count = v.count ∧ w.next = v.next

/-- **One operation** keeps the state, and leaves the tables as they were if it fails. -/
theorem Fine.apply {a : FileAct} (h : f.Fine v last) (ha : f.Apt v a) :
    f.Fine (f.apply v a).2 (f.note v a (f.apply v a).2 last) ∧
      ((f.apply v a).1 = false → SameTables v (f.apply v a).2) := by
  cases a with
  | create name kind capacity io₀ io₁ =>
      rcases f.create_eq (v := v) name kind.toNat capacity.toNat io₀ io₁ with hr | ⟨hadmits, hr⟩
      · simp only [Format.apply, note, hr]
        exact ⟨h, fun _ => ⟨rfl, rfl, rfl⟩⟩
      · obtain ⟨hname, hlt, rfl, rfl⟩ := ha hadmits
        obtain ⟨hok, hfine⟩ := h.create hadmits kind.toNat_lt hlt hname
        rw [if_pos hok] at hr
        simp only [Format.apply, note, hr]
        exact ⟨hfine, fun hc => absurd hc (by simp)⟩
  | write i src size io io₀ io₁ =>
      rcases f.writeFile_eq (v := v) i src size.toNat io io₀ io₁ with hr | ⟨ht, r, hw, hr⟩
      · simp only [Format.apply, note, hr]
        exact ⟨h, fun _ => ⟨rfl, rfl, rfl⟩⟩
      unfold Disk.writeSectors at hw
      by_cases hfit : (f.entry v.table i).start_sector + sectors size.toNat > v.disk.sectors
      · rw [if_pos hfit] at hw
        subst hw
        simp only [Format.apply, note, hr]
        exact ⟨h, fun _ => ⟨rfl, rfl, rfl⟩⟩
      rw [if_neg hfit] at hw
      have ha := ha ht (Nat.le_of_not_gt hfit)
      cases io with
      | none =>
          obtain ⟨rfl, rfl⟩ := ha
          subst hw
          obtain ⟨hok, hfine⟩ := h.write ht size.toNat_lt src
          rw [if_pos rfl] at hr
          simp only [Format.apply, note, hr, hok, if_true]
          exact ⟨hfine, fun hc => absurd hc (by simp)⟩
      | some junk =>
          subst hw
          simp only [Format.apply, note, hr]
          exact ⟨h.torn ht ha, fun _ => ⟨rfl, rfl, rfl⟩⟩

theorem Fine.mounted {old : Nat → UInt8} {clock : Nat} {d : Disk} {io₀ io₁ : Io}
    (hm : f.mount old clock d io₀ io₁ = some v) (hs : f.Sound v.table v.count) :
    f.Fine v (f.contents v) := by
  obtain ⟨hflushed, hcount, hnext⟩ := mount_some hm
  obtain ⟨hlow, hup, hall⟩ := hs.high
  exact ⟨hcount, hs, hnext ▸ ⟨hlow, hup⟩, hnext ▸ hall, hflushed, fun _ _ => rfl⟩

theorem Fine.kept (h : f.Fine v last) : f.Kept v last where
  inside := h.sound.inside
  apart := h.sound.apart
  names := h.sound.names
  reads i hi dst io r hr := by
    have hroom := h.sound.room i hi
    have hin : (f.entry v.table i).start_sector + (f.entry v.table i).capacity_sec ≤ 16384 :=
      (h.sound.inside i hi).2
    unfold readFile at hr
    rw [if_neg (by omega)] at hr
    obtain ⟨b, hb, rfl⟩ := Option.map_eq_some_iff.mp hr
    obtain ⟨-, hb⟩ := (Option.ite_none_left_eq_some ..).mp hb
    obtain rfl := Option.some.inj hb
    rw [← h.last i hi]
    refine List.map_congr_left fun k hk => ?_
    have hk : k < (f.entry v.table i).size_bytes := List.mem_range.mp hk
    have hsec : sectors (f.entry v.table i).size_bytes * 512 < 2 ^ 32 := by
      unfold sectors
      omega
    have hsize := sectors_room (f.entry v.table i).size_bytes
    have hlt : k < sectors (f.entry v.table i).size_bytes * 512 % 2 ^ 32 := by
      rw [Nat.mod_eq_of_lt hsec]
      omega
    dsimp only
    rw [blit_start hlt]
  remount := h.flushed.mount h.count

/-- **Files of the flat file systems**: from an image with a sound table, in a run whose operations
are apt, the files are kept, and an operation that fails leaves the tables as they were. -/
theorem files_kept (h : f.Running (fun v => f.Sound v.table v.count) f.Apt (v, last)) :
    f.Kept v last ∧
      ∀ a, f.Apt v a → (f.apply v a).1 = false → SameTables v (f.apply v a).2 := by
  have hfine : f.Fine v last := by
    refine Reached.invariant (I := fun x => f.Fine x.1 x.2) ?_ ?_ h
    · intro x ⟨⟨old, clock, d, io₀, io₁, hm⟩, hs, hlast⟩
      rw [hlast]
      exact Fine.mounted hm hs
    · intro x a y hx ha hs
      obtain ⟨hstep, hnote⟩ := noted_some hs
      have hy : (f.apply x.1 a).2 = y.1 := Option.some.inj hstep
      have hfine := (hx.apply ha).1
      rw [hy] at hfine
      rw [hnote]
      exact hfine
  exact ⟨hfine.kept, fun a ha => (hfine.apply ha).2⟩

end Format

/-! ### An empty volume -/

/-- A disk with the superblock of an empty NBFS. -/
def blank : Disk := ⟨TOTAL, nbfs.superblock 0⟩

/-- The volume that it has. -/
def fresh : Volume :=
  ⟨blit (fun _ => 0) 0 (nbfs.tableSectors * 512 % 2 ^ 32) fun x => blank.bytes (512 * 1 + x), 0,
    nbfs.dataStart, 2000, blank⟩

theorem mount_blank : nbfs.mount (fun _ => 0) 2000 blank none none = some fresh := by
  rfl

theorem fresh_sound : nbfs.Sound fresh.table fresh.count where
  inside i hi := absurd hi (Nat.not_lt_zero i)
  apart i hi := absurd hi (Nat.not_lt_zero i)
  names i hi := absurd hi (Nat.not_lt_zero i)
  room i hi := absurd hi (Nat.not_lt_zero i)

theorem fresh_running {P : Volume → FileAct → Prop} :
    nbfs.Running (fun v => nbfs.Sound v.table v.count) P (fresh, nbfs.contents fresh) :=
  .init ⟨⟨_, _, _, _, _, mount_blank⟩, fresh_sound, rfl⟩

/-- A file is made on the empty volume. -/
theorem files_kept_one : ∃ v last, nbfs.Kept v last ∧ v.count = 1 := by
  have happly : nbfs.step fresh (.create [97] 2 16 none none) =
      some (nbfs.apply fresh (.create [97] 2 16 none none)).2 := rfl
  have hapt : nbfs.Apt fresh (.create [97] 2 16 none none) := fun _ =>
    ⟨fun i hi => absurd hi (Nat.not_lt_zero i), by decide, rfl, rfl⟩
  have hrun : nbfs.Running (fun v => nbfs.Sound v.table v.count) nbfs.Apt
      ((nbfs.apply fresh (.create [97] 2 16 none none)).2,
        nbfs.note fresh (.create [97] 2 16 none none)
          (nbfs.apply fresh (.create [97] 2 16 none none)).2 (nbfs.contents fresh)) :=
    Reached.step fresh_running hapt (Option.map_eq_some_iff.mpr ⟨_, happly, rfl⟩)
  exact ⟨_, _, (Format.files_kept hrun).1, rfl⟩

/-- **A flush that fails**: the creation fails, and the file is in the table. -/
theorem flush_fails : ¬ ∀ (f : Format) v last,
    f.Running (fun v => f.Sound v.table v.count) (fun _ _ => True) (v, last) →
      f.Kept v last ∧ ∀ a, (f.apply v a).1 = false → Format.SameTables v (f.apply v a).2 := by
  intro hall
  have hkept := (hall nbfs fresh (nbfs.contents fresh) fresh_running).2
    (.create [97] 2 16 none (some fun _ => 0)) rfl
  have hcount : (nbfs.apply fresh (.create [97] 2 16 none (some fun _ => 0))).2.count = 1 := rfl
  rw [hkept.2.1] at hcount
  exact absurd hcount (by decide)

end Pulsar.Legacy

import Pulsar.Lib.Prog
import Pulsar.Vm.Paging

/-!
# The memory of the kernel: frames, objects, page tables and regions

`Mm` is the state that the locks VM, SHM, MMU and FRAME protect: the frame allocator, the bytes of
the frames that hold pages, the page tables by root, the objects of shared memory (`shm.rs`) by
identifier and the table of regions of each slot (`vm.rs`).  The bytes of frames that hold tables
of the kernel are left out: those tables are the other components.
-/

namespace Pulsar.Vm

/-- The errors of `vm.rs` and `shm.rs`. -/
inductive Errno where
  | ENOMEM | EEXIST | EINVAL | EFBIG
  deriving DecidableEq, Repr

/-- The bytes of a page. -/
abbrev Bytes := Nat → UInt8

def zeroPage : Bytes := fun _ => 0

/-- `struct Obj`; `page` is its vector of frames, `name` its name while it has one. -/
structure Obj where
  used : Bool
  size : Nat
  index : Option Nat
  indexFrames : Nat
  cap : Nat
  fdRefs : Nat
  mapRefs : Nat
  name : Option (List UInt8)
  page : Tree Nat

/-- `EMPTY`. -/
def Obj.empty : Obj := ⟨false, 0, none, 0, 0, 0, 0, none, ∅⟩

def MAX_OBJS : Nat := 512
def NAME_MAX : Nat := 64
def MAX_SIZE : Nat := 2 ^ 30

/-- The state. -/
structure Mm where
  frames : Frames
  mem : Nat → Bytes
  pts : Nat → Pt
  objs : Nat → Obj
  spaces : Nat → Space

namespace Mm

/-- Nothing is mapped and there is no object. -/
def boot (fr : Frames) : Mm := ⟨fr, fun _ => zeroPage, fun _ => .empty, fun _ => .empty, fun _ => .empty⟩

def setFrames (fr : Frames) (s : Mm) : Mm := { s with frames := fr }

def setMem (f : Nat) (b : Bytes) (s : Mm) : Mm := { s with mem := Function.update s.mem f b }

def setPt (root : Nat) (pt : Pt) (s : Mm) : Mm := { s with pts := Function.update s.pts root pt }

def setObj (id : Nat) (o : Obj) (s : Mm) : Mm := { s with objs := Function.update s.objs id o }

def setSpace (l : Nat) (sp : Space) (s : Mm) : Mm :=
  { s with spaces := Function.update s.spaces l sp }

section Setters

variable {s : Mm} {i j : Nat}

@[simp] theorem mem_setMem_self {b : Bytes} : (s.setMem i b).mem i = b := Function.update_self ..

theorem mem_setMem_of_ne {b : Bytes} (h : j ≠ i) : (s.setMem i b).mem j = s.mem j :=
  Function.update_of_ne h ..

@[simp] theorem pts_setPt_self {pt : Pt} : (s.setPt i pt).pts i = pt := Function.update_self ..

theorem pts_setPt_of_ne {pt : Pt} (h : j ≠ i) : (s.setPt i pt).pts j = s.pts j :=
  Function.update_of_ne h ..

@[simp] theorem objs_setObj_self {o : Obj} : (s.setObj i o).objs i = o := Function.update_self ..

theorem objs_setObj_of_ne {o : Obj} (h : j ≠ i) : (s.setObj i o).objs j = s.objs j :=
  Function.update_of_ne h ..

@[simp] theorem spaces_setSpace_self {sp : Space} : (s.setSpace i sp).spaces i = sp :=
  Function.update_self ..

theorem spaces_setSpace_of_ne {sp : Space} (h : j ≠ i) : (s.setSpace i sp).spaces j = s.spaces j :=
  Function.update_of_ne h ..

end Setters

/-! ### The objects (`shm.rs`) -/

/-- `obj(id)` finds an object; public identifiers begin at 1. -/
def HasObj (s : Mm) (id : Nat) : Prop := 1 ≤ id ∧ id ≤ MAX_OBJS ∧ (s.objs id).used = true

instance (s : Mm) (id : Nat) : Decidable (s.HasObj id) := by unfold HasObj; infer_instance

/-- The vector of an object is freed. -/
def freeIndex (o : Obj) (fr : Frames) : Frames :=
  match o.index with
  | some b => fr.freeContig b o.indexFrames
  | none => fr

/-- `maybe_free(id)`. -/
def maybeFree (id : Nat) (s : Mm) : Mm :=
  if s.HasObj id then
    let o := s.objs id
    if 0 < o.fdRefs ∨ 0 < o.mapRefs ∨ o.name.isSome then s
    else (s.setFrames (freeIndex o (s.frames.freeAll (o.page.toList.map (·.2))))).setObj id .empty
  else s

/-- `fd_ref(id, delta)`. -/
def fdRef (id : Nat) (delta : Int) (s : Mm) : Mm :=
  let o := s.objs id
  let s := if s.HasObj id then s.setObj id { o with fdRefs := (o.fdRefs + delta).toNat } else s
  if delta < 0 then s.maybeFree id else s

/-- `map_ref(id, delta)`. -/
def mapRef (id : Nat) (delta : Int) (s : Mm) : Mm :=
  let o := s.objs id
  let s := if s.HasObj id then s.setObj id { o with mapRefs := (o.mapRefs + delta).toNat } else s
  if delta < 0 then s.maybeFree id else s

/-- `obj_ref(obj, delta)`. -/
def objRef (r : Nat × Int) (s : Mm) : Mm := if r.1 ≠ 0 then s.mapRef r.1 r.2 else s

/-- `obj_ref` for each of a list, in order. -/
def objRefs (rs : Refs) (s : Mm) : Mm := rs.foldl (fun s r => s.objRef r) s

/-- `grow_index(o, pages)`: the object with room for so many pages. -/
def growIndex (o : Obj) (pages : Nat) (fr : Frames) : Option (Obj × Frames) :=
  if pages ≤ o.cap then some (o, fr)
  else
    let n := max ((pages * 8 + (PAGE - 1)) / PAGE) 1
    match fr.allocContig n with
    | (none, _) => none
    | (some b, fr) => some ({ o with index := some b, indexFrames := n, cap := n * PAGE / 8 },
        freeIndex o fr)

/-- The first object not in use. -/
def freeObj (s : Mm) : Option Nat :=
  ((List.range MAX_OBJS).find? fun i => !(s.objs (i + 1)).used).map (· + 1)

/-- `create(name)`. -/
def create (name : Option (List UInt8)) (s : Mm) : Option Nat × Mm :=
  match s.freeObj with
  | none => (none, s)
  | some id => (some id, s.setObj id
      { Obj.empty with used := true, fdRefs := 1, name := name.map (·.take NAME_MAX) })

/-- The pages of a size. -/
def pagesOf (size : Nat) : Nat := (size + (PAGE - 1)) / PAGE

/-- `create_anon(size)`. -/
def createAnon (size : Nat) (s : Mm) : Option Nat × Mm :=
  match s.create none with
  | (none, s) => (none, s)
  | (some id, s) =>
    let o := { s.objs id with fdRefs := 0 }
    if MAX_SIZE < size then (none, (s.setObj id o).maybeFree id)
    else
      match growIndex o (pagesOf size) s.frames with
      | none => (none, (s.setObj id o).maybeFree id)
      | some (o, fr) => (some id, (s.setFrames fr).setObj id { o with size := size })

/-- The object of a name. -/
def named? (name : List UInt8) (s : Mm) : Option Nat :=
  ((List.range MAX_OBJS).find? fun i =>
    (s.objs (i + 1)).used && decide ((s.objs (i + 1)).name = some name)).map (· + 1)

/-- `open_named(name)`. -/
def openNamed (name : List UInt8) (s : Mm) : Option Nat × Mm :=
  match s.named? name with
  | none => (none, s)
  | some id => (some id, s.setObj id { s.objs id with fdRefs := (s.objs id).fdRefs + 1 })

/-- `unlink(name)`. -/
def unlink (name : List UInt8) (s : Mm) : Bool × Mm :=
  match s.named? name with
  | none => (false, s)
  | some id => (true, (s.setObj id { s.objs id with name := none }).maybeFree id)

/-- The bytes of a page from `off` on become zero. -/
def zeroFrom (off : Nat) (b : Bytes) : Bytes := fun i => if off ≤ i then 0 else b i

/-- `truncate(id, size)`. -/
def truncate (id size : Nat) (s : Mm) : Except Errno Unit × Mm :=
  if MAX_SIZE < size then (.error .EFBIG, s)
  else if s.HasObj id then
    match growIndex (s.objs id) (pagesOf size) s.frames with
    | none => (.error .ENOMEM, s)
    | some (o, fr) =>
      let fr := fr.freeAll ((o.page.filter fun p _ => decide (pagesOf size ≤ p)).toList.map (·.2))
      let o := { o with page := o.page.filter (fun p _ => decide (p < pagesOf size)), size := size }
      let s := (s.setFrames fr).setObj id o
      if size % PAGE ≠ 0 then
        match o.page[pagesOf size - 1]? with
        | some f => (.ok (), s.setMem f (zeroFrom (size % PAGE) (s.mem f)))
        | none => (.ok (), s)
      else (.ok (), s)
  else (.error .ENOMEM, s)

/-- `page(id, pg, alloc)`. -/
def page (id pg : Nat) (alloc : Bool) (s : Mm) : Option Nat × Mm :=
  if s.HasObj id then
    let o := s.objs id
    if pagesOf o.size ≤ pg then (none, s)
    else
      match o.page[pg]? with
      | some f => (some f, s)
      | none =>
        if alloc then
          match s.frames.allocFrame with
          | (none, _) => (none, s)
          | (some f, fr) => (some f, ((s.setFrames fr).setMem f zeroPage).setObj id
              { o with page := o.page.insert pg f })
        else (none, s)
  else (none, s)

/-! ### The table of regions (`vm.rs`) -/

/-- The array of a space is freed. -/
def freeTable (sp : Space) (fr : Frames) : Frames :=
  match sp.table with
  | some b => fr.freeContig b sp.pages
  | none => fr

/-- The length of the array that `reserve` asks for. -/
def nextPages (sp : Space) : Nat := if sp.pages = 0 then FIRST_PAGES else sp.pages * 2

/-- `reserve(extra)`. -/
def reserve (l extra : Nat) (s : Mm) : Bool × Mm :=
  let sp := s.spaces l
  if sp.vmas.length + extra ≤ sp.cap then (true, s)
  else if MAX_PAGES < nextPages sp then (false, s)
  else
    match s.frames.allocContig (nextPages sp) with
    | (none, _) => (false, s)
    | (some t, fr) => (true, (s.setFrames (freeTable sp fr)).setSpace l
        { sp with table := some t, pages := nextPages sp })

/-- What `reserve` does: nothing, with room or without, or a longer array. -/
theorem reserve_cases (l extra : Nat) (s : Mm) :
    ((s.spaces l).vmas.length + extra ≤ (s.spaces l).cap ∧ s.reserve l extra = (true, s)) ∨
    s.reserve l extra = (false, s) ∨
    ∃ b fr, s.frames.allocContig (nextPages (s.spaces l)) = (some b, fr) ∧
      s.reserve l extra = (true, (s.setFrames (freeTable (s.spaces l) fr)).setSpace l
        { s.spaces l with table := some b, pages := nextPages (s.spaces l) }) := by
  unfold reserve
  simp only
  split_ifs with h₁ h₂
  · exact .inl ⟨h₁, rfl⟩
  · exact .inr (.inl rfl)
  · rcases s.frames.allocContig (nextPages (s.spaces l)) with ⟨-|b, fr⟩
    · exact .inr (.inl rfl)
    · exact .inr (.inr ⟨b, fr, rfl, rfl⟩)

/-- A change of the regions of slot `l`, with the references that it moves. -/
def edit (l : Nat) (f : List Vma → List Vma × Refs) (s : Mm) : Mm :=
  let r := f (s.spaces l).vmas
  (s.setSpace l { s.spaces l with vmas := r.1 }).objRefs r.2

/-- `unmap_range(root, start, end)` -/
def unmap (root start stop : Nat) (s : Mm) : Mm :=
  let r := unmapRange start stop (s.pts root, s.frames)
  (s.setPt root r.1).setFrames r.2

/-- `protect_range(root, start, end, flags)`. -/
def protectPages (root start stop : Nat) (flags : PageFlags) (s : Mm) : Mm :=
  s.setPt root (protectRange start stop flags (s.pts root))

/-- `move_range(root, old_start, old_end, new_start)`. -/
def movePages (root oldStart oldEnd newStart : Nat) (s : Mm) : Mm :=
  let r := moveRange oldStart oldEnd newStart (s.pts root, s.frames)
  (s.setPt root r.1).setFrames r.2

/-- `map_page_in(root, va, pa, flags)`. -/
def mapIn (root va : Nat) (e : Pte) (s : Mm) : Bool × Mm :=
  let r := mapPage (vpn va) e (s.pts root, s.frames)
  (r.1, (s.setPt root r.2.1).setFrames r.2.2)

/-- `create_user_space()`. -/
def createUser (s : Mm) : Option Nat × Mm :=
  match createUserSpace s.frames with
  | (some (root, pt), fr) => (some root, (s.setFrames fr).setPt root pt)
  | (none, fr) => (none, s.setFrames fr)

/-- `clone_user_space(src)`. -/
def cloneUser (src : Nat) (s : Mm) : Option Nat × Mm :=
  match cloneUserSpace (s.pts src) s.frames with
  | (some (root, dst), pt, fr) => (some root, ((s.setFrames fr).setPt src pt).setPt root dst)
  | (none, pt, fr) => (none, (s.setFrames fr).setPt src pt)

/-- `free_user_space(root)`. -/
def freeSpace (root : Nat) (s : Mm) : Mm :=
  (s.setFrames (freeUserSpace root (s.pts root) s.frames)).setPt root .empty

end Mm

end Pulsar.Vm

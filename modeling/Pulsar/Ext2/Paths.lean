import Pulsar.Lib.Pieces
import Pulsar.Ext2.Directory

/-!
# Paths (`ext2.rs`, section "caminhos")

`resolve_at` walks down a path and `realpath` spells it out without links and dots; both begin again
with the target of each link that they meet.  `dir_path` goes up from a directory.  They are written
over a tree of nodes, with directories as lists of entries: what `read_inode`, `lookup`, `readdir` and
`readlink` make of the blocks.  A buffer is the bytes of it that are used, and a place in it how it is
split there.

* `Res`: an answer, an error, or an access outside a buffer.
* `FileTree`: the inodes, with `resolveAt`, `realpath` and `dirPath`.
-/

namespace Pulsar.Ext2

def ENAMETOOLONG : Errno := 36
def ELOOP : Errno := 40

def MAX_LINKS : Nat := 16
def PATH_MAX : Nat := 1024
def ROOT_INO : Nat := 2

/-- What a function returns; it panics where it leaves a buffer, or does not end. -/
inductive Res (α : Type) where
  | ok (a : α)
  | err (e : Errno)
  | panic

namespace Res

variable {α β : Type}

protected def bind : Res α → (α → Res β) → Res β
  | ok a, f => f a
  | err e, _ => err e
  | panic, _ => panic

instance : Monad Res where
  pure := ok
  bind := Res.bind

@[simp] theorem pure_eq (a : α) : (pure a : Res α) = ok a := rfl
@[simp] theorem ok_bind (a : α) (f : α → Res β) : ok a >>= f = f a := rfl
@[simp] theorem err_bind (e : Errno) (f : α → Res β) : (err e : Res α) >>= f = err e := rfl

end Res

/-! ### Trees -/

abbrev Name := List UInt8

def slash : UInt8 := 47
def dot : Name := [46]
def dotdot : Name := [46, 46]

/-- An entry of a directory. -/
structure Entry where
  name : Name
  ino : Nat
  deriving DecidableEq

inductive Node where
  | dir (entries : List Entry)
  | link (target : Name)
  | other

/-- The inodes of a volume. -/
structure FileTree where
  node : Nat → Option Node

namespace FileTree

variable (t : FileTree)

/-- `read_inode(ino)`. -/
def readInode (ino : Nat) : Res Node :=
  match t.node ino with
  | some n => .ok n
  | none => .err EIO

/-- `lookup(dir, name)`. -/
def lookup (dir : Nat) (name : Name) : Res (Option Nat) := do
  match ← t.readInode dir with
  | .dir es => return (es.find? fun e => e.name = name).map Entry.ino
  | _ => .err ENOTDIR

/-- `readlink` into a buffer of `PATH_MAX` bytes. -/
def readlink (target : Name) : Name := target.take PATH_MAX

end FileTree

/-- A buffer of `PATH_MAX` bytes. -/
abbrev PathBuf := { p : List UInt8 // p.length ≤ PATH_MAX }

/-- Bytes that are copied into a buffer. -/
def PathBuf.of (p : List UInt8) : Res PathBuf :=
  if h : p.length ≤ PATH_MAX then .ok ⟨p, h⟩ else .panic

namespace FileTree

variable (t : FileTree)

/-! ### `resolve_at` -/

/-- The loop of `resolve_at` over the names of a buffer, which is split in `pre` and `rest`; `again`
is how it begins again after a link, if it may. -/
def resolveWalk (follow : Bool) (again : Option (PathBuf → Res Nat)) :
    Nat → List UInt8 → List UInt8 → Nat → Res Nat
  | 0, _, _, _ => .panic
  | n + 1, pre, rest, cur =>
    let slashes := rest.takeWhile (· = slash)
    let rest := rest.dropWhile (· = slash)
    if rest = [] then .ok cur
    else
      let pre := pre ++ slashes
      let comp := rest.takeWhile (· ≠ slash)
      let rest := rest.dropWhile (· ≠ slash)
      if 255 < comp.length then .err ENAMETOOLONG
      else do
        match ← t.readInode cur with
        | .dir _ =>
          if comp = dot then resolveWalk follow again n (pre ++ comp) rest cur
          else
            match ← t.lookup cur comp with
            | none => .err ENOENT
            | some ino =>
              let last := rest.all (· = slash)
              match ← t.readInode ino with
              | .link target =>
                if follow = true ∨ last = false then
                  match again with
                  | none => .err ELOOP
                  | some again =>
                    let target := readlink target
                    -- an absolute target takes the place of what was walked
                    let front := if target.head? = some slash then [] else pre
                    if PATH_MAX < front.length + target.length + rest.length then
                      .err ENAMETOOLONG
                    else again (← PathBuf.of (front ++ target ++ rest))
                else resolveWalk follow again n (pre ++ comp) rest ino
              | _ => resolveWalk follow again n (pre ++ comp) rest ino
        | _ => .err ENOTDIR

/-- The loop of `resolve_at` that begins again, at most as often as given. -/
def resolveFrom (start : Nat) (follow : Bool) : Nat → PathBuf → Res Nat
  | 0, p => t.resolveWalk follow none (p.1.length + 1) [] p.1
      (if p.1.head? = some slash then ROOT_INO else start)
  | l + 1, p => t.resolveWalk follow (some (resolveFrom start follow l)) (p.1.length + 1) [] p.1
      (if p.1.head? = some slash then ROOT_INO else start)

/-- `resolve_at(start, path, follow)`. -/
def resolveAt (start : Nat) (path : Name) (follow : Bool) : Res Nat :=
  if path = [] then .err ENOENT
  else if h : path.length ≤ PATH_MAX then t.resolveFrom start follow MAX_LINKS ⟨path, h⟩
  else .err ENAMETOOLONG

/-! ### `realpath` -/

/-- The path before its last slash. -/
def popped (out : List UInt8) : List UInt8 := (out.reverse.dropWhile (· ≠ slash)).tail.reverse

/-- The loop of `realpath` over the names of a buffer, with what it has written to `out`. -/
def realWalk (again : Option (PathBuf → Res Name)) :
    Nat → List UInt8 → List UInt8 → Nat → Res Name
  | 0, _, _, _ => .panic
  | n + 1, rest, out, cur =>
    let rest := rest.dropWhile (· = slash)
    if rest = [] then .ok (if out = [] then [slash] else out)
    else
      let comp := rest.takeWhile (· ≠ slash)
      let rest := rest.dropWhile (· ≠ slash)
      if comp = dot then realWalk again n rest out cur
      else if comp = dotdot then do
        let out := popped out
        let cur ← if out = [] then .ok ROOT_INO else t.resolveAt ROOT_INO out false
        realWalk again n rest out cur
      else do
        match ← t.readInode cur with
        | .dir _ =>
          match ← t.lookup cur comp with
          | none => .err ENOENT
          | some ino =>
            match ← t.readInode ino with
            | .link target =>
              match again with
              | none => .err ELOOP
              | some again =>
                let target := readlink target
                let front : Res (List UInt8) :=
                  if target.head? = some slash then .ok []
                  else PathBuf.of (slash :: out ++ [slash]) >>= fun front => .ok front.1
                let front ← front
                if PATH_MAX < front.length + target.length + rest.length then .err ENAMETOOLONG
                else again (← PathBuf.of (front ++ target ++ rest))
            | _ =>
              if PATH_MAX < out.length + 1 + comp.length then .err ENAMETOOLONG
              else realWalk again n rest (out ++ slash :: comp) ino
        | _ => .err ENOTDIR

/-- The loop of `realpath` that begins again, at most as often as given. -/
def realFrom : Nat → PathBuf → Res Name
  | 0, p => t.realWalk none (p.1.length + 1) p.1 [] ROOT_INO
  | l + 1, p => t.realWalk (some (realFrom l)) (p.1.length + 1) p.1 [] ROOT_INO

/-- `realpath(path, out)`: what is in `out`. -/
def realpath (path : Name) : Res Name :=
  if path.head? ≠ some slash then .err EINVAL
  else if h : path.length ≤ PATH_MAX then t.realFrom MAX_LINKS ⟨path, h⟩
  else .err ENAMETOOLONG

/-! ### `dir_path` -/

/-- The loop of `dir_path`, with what it has written at the end of `tmp`. -/
def dirWalk : Nat → Nat → List UInt8 → Res (List UInt8)
  | 0, _, tmp => .ok tmp
  | n + 1, cur, tmp =>
    if cur = ROOT_INO then .ok tmp
    else do
      match ← t.lookup cur dotdot with
      | none => .err ENOENT
      | some parent =>
        match ← t.readInode parent with
        | .dir es =>
          match es.find? fun e => e.ino = cur ∧ e.name ≠ dot ∧ e.name ≠ dotdot with
          | none => .err ENOENT
          | some e =>
            if PATH_MAX - tmp.length < e.name.length + 1 then .err ENAMETOOLONG
            else dirWalk n parent (slash :: e.name ++ tmp)
        | _ => .err ENOTDIR

/-- `dir_path(dir, out)`, where `out` has room for `room` bytes. -/
def dirPath (dir room : Nat) : Res Name := do
  let tmp ← t.dirWalk 256 dir []
  let path := if tmp = [] then [slash] else tmp
  if room < path.length then .err ENAMETOOLONG else .ok path

end FileTree

end Pulsar.Ext2

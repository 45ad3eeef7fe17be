import SsmIaas.Lib.CString

/-!
# Paths and working directories

The directories of a file system as `chdir ()` sees them.  A path is taken apart at its
slashes and followed name by name, from the root or from the working directory; each
directory that is left, and the one that is reached, must be searchable.

Nothing is assumed of the entries: with symbolic links an entry may lead anywhere.
`FileSystem.Tree` is the case without them, where the number of names of a path is the
number of levels it goes down (`Tree.depth_walk`).
-/

namespace SsmIaas.Lib

def slash : UInt8 := 47

def dot : UInt8 := 46

/-- The names of a path; several slashes count as one. -/
def components (path : Bytes) : List Bytes := (path.splitOn slash).filter (· ≠ [])

/-- Not one of the two names that every directory has. -/
def Ordinary (name : Bytes) : Prop := name ≠ [dot] ∧ name ≠ [dot, dot]

structure FileSystem (Dir : Type*) where
  root : Dir
  parent : Dir → Dir
  /-- the directory that an entry is, or is a link to -/
  child : Dir → Bytes → Option Dir
  searchable : Dir → Bool

namespace FileSystem

variable {Dir : Type*} (fs : FileSystem Dir)

/-- One name of a path. -/
def enter (d : Dir) (name : Bytes) : Option Dir :=
  if fs.searchable d then
    if name = [dot] then some d
    else if name = [dot, dot] then some (fs.parent d)
    else fs.child d name
  else none

def walk (d : Dir) (names : List Bytes) : Option Dir := names.foldlM fs.enter d

/-- `chdir (path)`: the new working directory, or `none` if it fails. -/
def chdir (cwd : Dir) (path : Bytes) : Option Dir :=
  if path = [] then none
  else
    let start := if path.head? = some slash then fs.root else cwd
    (fs.walk start (components path)).filter fs.searchable

/-- Directories without symbolic links. -/
structure Tree (depth : Dir → ℕ) : Prop where
  parent_child : ∀ {d e name}, fs.child d name = some e → fs.parent e = d
  depth_child : ∀ {d e name}, fs.child d name = some e → depth e = depth d + 1

variable {fs} {d e : Dir}

theorem enter_ordinary {name : Bytes} (hname : Ordinary name) :
    fs.enter d name = some e ↔ fs.searchable d = true ∧ fs.child d name = some e := by
  simp [enter, hname.1, hname.2]

theorem walk_concat {front : List Bytes} {last : Bytes} :
    fs.walk d (front ++ [last]) = some e ↔
      ∃ m, fs.walk d front = some m ∧ fs.enter m last = some e := by
  simp [walk, List.foldlM_append, Option.bind_eq_some_iff]

theorem chdir_relative {path : Bytes} (hpath : path ≠ []) (hhead : path.head? ≠ some slash) :
    fs.chdir d path = some e ↔
      fs.walk d (components path) = some e ∧ fs.searchable e = true := by
  rw [chdir, if_neg hpath]
  simp only [if_neg hhead, Option.filter_eq_some_iff]

theorem chdir_up : fs.chdir d [dot, dot] = some e ↔
    fs.searchable d = true ∧ fs.parent d = e ∧ fs.searchable e = true := by
  have hnames : components [dot, dot] = [[dot, dot]] := by decide
  rw [chdir_relative (by decide) (by decide), hnames, walk, List.foldlM_cons]
  simp [enter, dot, and_assoc]

/-- A path of ordinary names leads down one level with each of them. -/
theorem Tree.depth_walk {depth : Dir → ℕ} (htree : fs.Tree depth) {names : List Bytes}
    (hnames : ∀ name ∈ names, Ordinary name) (hwalk : fs.walk d names = some e) :
    depth e = depth d + names.length := by
  induction names using List.reverseRecOn generalizing e with
  | nil =>
      have heq : d = e := by simpa [walk] using hwalk
      simp [heq]
  | append_singleton front last ih =>
      obtain ⟨m, hfront, hlast⟩ := walk_concat.mp hwalk
      have hm := ih (fun name hname => hnames name (List.mem_append_left _ hname)) hfront
      have hchild := (enter_ordinary (hnames last (by simp))).mp hlast
      rw [htree.depth_child hchild.2, hm, List.length_append, List.length_singleton]
      omega

end FileSystem

end SsmIaas.Lib

import TaskTidy.Discovery.Ignore
import TaskTidy.Path

/-!
# Walkers

A walker goes through the directory that a path leads to and tells about the entries it meets there.
A filter decides which entries it meets, and no directory is entered that the filter does not admit.
What is asked of a walker is stated beside one that does it.
-/

namespace TaskTidy.Discovery

/-- What a walker tells about an entry: its path, its own name, how far below the start of the walk
it lies, and whether it is a directory. -/
structure Entry where
  path : String
  name : String
  depth : Nat
  isDirectory : Bool
  deriving DecidableEq

/-- The path of an entry below a directory argument. -/
def joinPath (root : String) (below : Place) : String :=
  let base := if root.toList.getLast? = some '/' then root else root ++ "/"
  base ++ "/".intercalate below

/-- The entry at a place below the directory that a path leads to. That directory itself goes by its
path as it is written. -/
def Entry.ofPlace (path : String) (below : Place) (isDirectory : Bool) : Entry :=
  match below.getLast? with
  | none => ⟨path, (Path.fileName? path).getD path, 0, isDirectory⟩
  | some name => ⟨joinPath path below, name, below.length, isDirectory⟩

/-- A walker lists the entries below the directory that a path leads to. It is told whether to
respect ignore files, and which entries to admit. -/
abbrev Walker := Bool → (Entry → Bool) → FileTree → String → List Entry

section

variable (admits : Entry → Bool) (t : FileTree) (path : String) (root : Place)

/-- The directories that a walk enters, as places below its root: the root, and in a directory that
it enters each one that the filter admits. -/
inductive Enters : Place → Prop
  | root : Enters []
  | down {above : Place} {name : String} (h : Enters above)
      (hthere : t.isDirectory (root ++ (above ++ [name])) = true)
      (hadmits : admits (Entry.ofPlace path (above ++ [name]) true) = true) :
      Enters (above ++ [name])

/-- The entries that a walk visits: the directories that it enters, and the files in them that the
filter admits. -/
inductive Visits : Entry → Prop
  | directory {below : Place} (h : Enters admits t path root below) :
      Visits (Entry.ofPlace path below true)
  | file {above : Place} {name : String} (h : Enters admits t path root above)
      (hthere : t.isFile (root ++ (above ++ [name])) = true)
      (hadmits : admits (Entry.ofPlace path (above ++ [name]) false) = true) :
      Visits (Entry.ofPlace path (above ++ [name]) false)

end

/-- Without ignore files a walker visits every entry below the directory that the filter admits, and
goes down only into directories that the filter admits. Nothing is asked if the filter does not
admit the directory itself. -/
structure Walker.FollowsFilter (w : Walker) : Prop where
  mem_iff : ∀ {admits : Entry → Bool} {t : FileTree} {path : String} {root : Place},
    t.locate path = .ok root → t.isDirectory root = true →
      admits (Entry.ofPlace path [] true) = true →
        ∀ e, e ∈ w false admits t path ↔ Visits admits t path root e

section

variable (respects : Bool) (admits : Entry → Bool) (t : FileTree) (path : String)
  (root below : Place)

/-- Whether a walk meets an entry of a directory that it is in: the filter admits the entry and, if
ignore files are respected, they do not ignore it. -/
def meets (isDirectory : Bool) : Bool :=
  admits (Entry.ofPlace path below isDirectory) &&
    !(respects && isIgnored t (root ++ below) isDirectory)

/-- Whether a walk enters a directory: it meets every directory on the way and this one. -/
def enters : Bool :=
  (FileTree.wayTo below).all fun place => meets respects admits t path root place true

/-- The entries of the directories that a walk enters. -/
def visitDirectories : List Entry :=
  (t.allDirectories.filter fun place =>
    root.isPrefixOf place && enters respects admits t path root (place.drop root.length)).map
      fun place => Entry.ofPlace path (place.drop root.length) true

/-- The entries of the files that a walk meets. -/
def visitFiles : List Entry :=
  (t.files.filter fun file =>
    root.isPrefixOf file.1 && file.1 != root &&
      enters respects admits t path root (file.1.drop root.length).dropLast &&
        meets respects admits t path root (file.1.drop root.length) false).map
      fun file => Entry.ofPlace path (file.1.drop root.length) false

end

/-- The walker that goes through the places of the tree. -/
def visit : Walker := fun respects admits t path =>
  match t.locate path with
  | .error _ => []
  | .ok root =>
      visitDirectories respects admits t path root ++ visitFiles respects admits t path root

end TaskTidy.Discovery

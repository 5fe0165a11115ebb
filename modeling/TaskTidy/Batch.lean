import TaskTidy.Diff.Unified
import TaskTidy.Registry
import TaskTidy.Report.Basic

/-!
# Batches of files

Each file of a batch is read, fixed by the rule sets that are meant for it, and written back or
shown. A failure concerns the file in which it happens and no other.
-/

namespace TaskTidy

/-- What happens to a file that needs fixing. -/
inductive Mode
  | check
  | diff
  | replace
  /-- The file as it was is kept under its name with the suffix. -/
  | backup (suffix : String)
  deriving DecidableEq, Repr

namespace Mode

/-- Whether the mode changes files. -/
def writes : Mode → Bool
  | .check | .diff => false
  | .replace | .backup _ => true

end Mode

namespace Batch

/-- Put the fixed text of the file at a path in its place. With a backup the file is moved aside
first. -/
def writeBack (mode : Mode) (t : FileTree) (path : String) (place : Place) (text : List Char) :
    Except FileTree.Failure FileTree :=
  match mode with
  | .check | .diff => .ok t
  | .replace => .ok (t.write place (Text.Utf8.encode text))
  | .backup suffix =>
      match t.rename place (Path.withSuffix path suffix) with
      | .error cause => .error cause
      | .ok next => .ok (next.write place (Text.Utf8.encode text))

/-- The diff that a mode asks for. -/
def diffFor (mode : Mode) (path : String) (old new : List Char) : Option String :=
  match mode with
  | .diff => some (Diff.unified path old new)
  | _ => none

/-- Fix the file at a path with the rule sets that are meant for it. -/
def fixFile (sets : List RuleSet) (mode : Mode) (t : FileTree) (path : String) :
    FileResult × FileTree :=
  match t.open? path with
  | .error cause => (.failed (.read cause), t)
  | .ok (place, bytes) =>
      match Text.Utf8.decode bytes with
      | .error validBytes => (.failed (.encoding validBytes), t)
      | .ok text =>
          match (Document.parse text).applySets (Registry.accepting path sets) with
          | .error cause => (.failed (.pass cause), t)
          | .ok outcome =>
              if outcome.changed then
                let fixed := outcome.document.render
                match writeBack mode t path place fixed with
                | .error cause => (.failed (.write cause), t)
                | .ok next => (.changed outcome.applied (diffFor mode path text fixed), next)
              else (.unchanged, t)

/-- Fix the files at the given paths, one after the other. -/
def fixFiles (sets : List RuleSet) (mode : Mode) :
    FileTree → List String → List FileReport × FileTree
  | t, [] => ([], t)
  | t, path :: rest =>
      let (result, next) := fixFile sets mode t path
      let (reports, last) := fixFiles sets mode next rest
      (⟨path, result⟩ :: reports, last)

end Batch

end TaskTidy

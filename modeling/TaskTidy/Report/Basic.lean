import TaskTidy.FileTree
import TaskTidy.Pass

/-!
# Reports

Each file of a run has a report: it is unchanged, changed, or failed. The summary counts them and
does not depend on the order in which they are recorded.
-/

namespace TaskTidy

/-- The coarse cause of a failed file, in the order of their names. -/
inductive FailureKind
  | encoding
  | read
  | structural
  | write
  deriving DecidableEq, Repr

/-- The name of a kind of failure. -/
def FailureKind.name : FailureKind → String
  | .encoding => "encoding"
  | .read => "read"
  | .structural => "structural"
  | .write => "write"

/-- The place of a kind of failure in the order of their names. -/
def FailureKind.rank : FailureKind → Nat
  | .encoding => 0
  | .read => 1
  | .structural => 2
  | .write => 3

/-- Why a file could not be fixed. -/
inductive FileFailure
  | read (cause : FileTree.Failure)
  | encoding (validBytes : Nat)
  | pass (cause : PassError)
  | write (cause : FileTree.Failure)
  deriving DecidableEq, Repr

namespace FileFailure

/-- The kind of a failure. -/
def kind : FileFailure → FailureKind
  | .read _ => .read
  | .encoding _ => .encoding
  | .pass _ => .structural
  | .write _ => .write

/-- The wording of a failure of the file at a path. -/
def message (path : String) : FileFailure → String
  | .read cause => s!"cannot read {path}: {cause.message}"
  | .encoding validBytes => s!"{path}: invalid UTF-8 after byte {validBytes}"
  | .pass cause => s!"{path}: {cause.message}"
  | .write cause => s!"cannot write {path}: {cause.message}"

end FileFailure

/-- What happened to a file. -/
inductive FileResult
  | unchanged
  /-- The edits, and the unified diff if one was asked for. -/
  | changed (applied : List Applied) (diff : Option String)
  | failed (cause : FileFailure)
  deriving DecidableEq

/-- The report on a file. -/
structure FileReport where
  path : String
  result : FileResult
  deriving DecidableEq

/-- The counts of a run. Failures are counted by kind, in the order of the kinds, and a kind that
did not occur is not listed. -/
structure Summary where
  files : Nat
  changed : Nat
  unchanged : Nat
  errored : Nat
  edits : Nat
  errors : List (FailureKind × Nat)
  deriving DecidableEq

namespace Summary

/-- The summary of no files. -/
def empty : Summary :=
  ⟨0, 0, 0, 0, 0, []⟩

/-- Count one more failure of a kind. -/
def count (kind : FailureKind) : List (FailureKind × Nat) → List (FailureKind × Nat)
  | [] => [(kind, 1)]
  | (other, n) :: rest =>
      if kind = other then (other, n + 1) :: rest
      else if kind.rank < other.rank then (kind, 1) :: (other, n) :: rest
      else (other, n) :: count kind rest

/-- Record the report on a file. -/
def record (s : Summary) (r : FileReport) : Summary :=
  match r.result with
  | .unchanged => { s with files := s.files + 1, unchanged := s.unchanged + 1 }
  | .changed applied _ =>
      { s with files := s.files + 1, changed := s.changed + 1, edits := s.edits + applied.length }
  | .failed cause =>
      { s with files := s.files + 1, errored := s.errored + 1,
               errors := count cause.kind s.errors }

/-- The summary of reports. -/
def ofReports (reports : List FileReport) : Summary :=
  reports.foldl record empty

end Summary

end TaskTidy

import TaskTidy.Report.Basic

/-!
# Reports as text

One line for each file that changed or failed, then the totals.
-/

namespace TaskTidy.Report

/-- The form of a noun that fits a count. -/
def plural (count : Nat) (one many : String) : String :=
  if count = 1 then one else many

/-- What a run does to a file that needs fixing. -/
def verb (writes : Bool) : String :=
  if writes then "fixed" else "would fix"

/-- The line of a file; empty if it did not change. -/
def fileLine (writes : Bool) (r : FileReport) : String :=
  match r.result with
  | .unchanged => ""
  | .changed applied _ =>
      let n := applied.length
      s!"{verb writes} {r.path} ({n} " ++ plural n "edit" "edits" ++ ")\n"
  | .failed cause => s!"error [{cause.kind.name}] " ++ cause.message r.path ++ "\n"

/-- The line of the totals. -/
def totals (writes : Bool) (s : Summary) : String :=
  s!"{s.files} " ++ plural s.files "file" "files" ++
    s!" checked: {s.changed} {verb writes}, {s.unchanged} unchanged, {s.errored} errored\n"

/-- The diff of a file, if there is one. -/
def diffText (r : FileReport) : String :=
  match r.result with
  | .changed _ (some diff) => diff
  | _ => ""

/-- The report as text: all diffs, then the lines of the files, then the totals. -/
def text (writes : Bool) (reports : List FileReport) (s : Summary) : String :=
  String.join (reports.map diffText) ++ String.join (reports.map (fileLine writes)) ++
    totals writes s

end TaskTidy.Report

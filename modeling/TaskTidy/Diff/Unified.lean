import TaskTidy.Diff.Compaction

/-!
# Unified diffs

A unified diff shows the changed lines with three lines of context. Each hunk starts with the ranges
it covers on both sides. Between two kept runs the deleted lines come first, then the inserted ones.
-/

namespace TaskTidy.Diff

/-- The lines of a text, each with its terminator: a newline, a carriage return, or both. -/
def splitLines : List Char → List (List Char)
  | [] => []
  | '\r' :: '\n' :: rest => ['\r', '\n'] :: splitLines rest
  | c :: rest =>
      if c = '\r' ∨ c = '\n' then [c] :: splitLines rest
      else match splitLines rest with
        | [] => [[c]]
        | l :: more => (c :: l) :: more

/-- Deleted and inserted runs between two kept runs. -/
structure Change where
  deleted : Option Run
  inserted : Option Run

/-- A part of a hunk: kept lines, or lines that changed. -/
inductive Part
  | kept (run : Run)
  | changed (change : Change)

/-- Join a run to the run of the same action before it. -/
def joinRun (before : Option Run) (run : Run) : Option Run :=
  match before with
  | none => some run
  | some first => some { first with length := first.length + run.length }

/-- Group a script into kept and changed parts. -/
def partsFrom : Option Run → Change → List Run → List Part
  | kept, change, [] => closeKept kept ++ closeChange change
  | kept, change, run :: rest =>
      match run.action with
      | .keep => closeChange change ++ partsFrom (joinRun kept run) ⟨none, none⟩ rest
      | .delete =>
          closeKept kept ++ partsFrom none ⟨joinRun change.deleted run, change.inserted⟩ rest
      | .insert =>
          closeKept kept ++ partsFrom none ⟨change.deleted, joinRun change.inserted run⟩ rest
where
  /-- The kept part that ends here. -/
  closeKept : Option Run → List Part
    | none => []
    | some run => [.kept run]
  /-- The changed part that ends here. -/
  closeChange : Change → List Part
    | ⟨none, none⟩ => []
    | change => [.changed change]

/-- The parts of a script. -/
def parts (runs : List Run) : List Part :=
  partsFrom none ⟨none, none⟩ runs

/-- The number of lines of context around a change. -/
def context : Nat := 3

/-- Keep only the last lines of a kept part at the start of the script. -/
def trimFirst : List Part → List Part
  | .kept run :: rest =>
      let cut := run.length - context
      .kept ⟨.keep, run.old + cut, run.new + cut, run.length - cut⟩ :: rest
  | parts => parts

/-- Keep only the first lines of a kept part at the end of the script. -/
def trimLast (parts : List Part) : List Part :=
  match parts.getLast? with
  | some (.kept run) => parts.dropLast ++ [.kept { run with length := min run.length context }]
  | _ => parts

/-- Cut parts into hunks at long kept parts; `pending` is the hunk so far, in reverse. -/
def hunksFrom : List Part → List Part → List (List Part)
  | pending, [] =>
      match pending with
      | [] => []
      | [.kept _] => []
      | _ => [pending.reverse]
  | pending, .kept run :: rest =>
      if 2 * context < run.length then
        let cut := run.length - context
        (Part.kept { run with length := context } :: pending).reverse ::
          hunksFrom [.kept ⟨.keep, run.old + cut, run.new + cut, context⟩] rest
      else hunksFrom (.kept run :: pending) rest
  | pending, part :: rest => hunksFrom (part :: pending) rest

/-- The hunks of a script. -/
def hunks (runs : List Run) : List (List Part) :=
  hunksFrom [] (trimLast (trimFirst (parts runs)))

/-- The ranges of a part: start and end on the old side, start and end on the new side. -/
def Part.ranges : Part → Nat × Nat × Nat × Nat
  | .kept run => (run.old, run.old + run.length, run.new, run.new + run.length)
  | .changed ⟨some d, some i⟩ => (d.old, d.old + d.length, i.new, i.new + i.length)
  | .changed ⟨some d, none⟩ => (d.old, d.old + d.length, d.new, d.new)
  | .changed ⟨none, some i⟩ => (i.old, i.old, i.new, i.new + i.length)
  | .changed ⟨none, none⟩ => (0, 0, 0, 0)

/-- A range as it is written in a hunk header. -/
def rangeText (start stop : Nat) : String :=
  let length := stop - start
  if length = 1 then toString (start + 1)
  else
    let first := if length = 0 then start else start + 1
    s!"{first},{length}"

/-- The header of a hunk. -/
def headerText (hunk : List Part) : String :=
  match hunk.head?, hunk.getLast? with
  | some first, some last =>
      let (old, _, new, _) := first.ranges
      let (_, oldStop, _, newStop) := last.ranges
      "@@ -" ++ rangeText old oldStop ++ " +" ++ rangeText new newStop ++ " @@\n"
  | _, _ => ""

/-- A line of a hunk. A line without a terminator is marked. -/
def lineText (mark : Char) (line : List Char) : String :=
  let text := String.ofList (mark :: line)
  match line.getLast? with
  | some '\n' => text
  | some '\r' => text
  | _ => text ++ "\n\\ No newline at end of file\n"

/-- The lines of a run on one side. -/
def runText (mark : Char) (lines : Array (List Char)) (start length : Nat) : String :=
  String.join ((List.range' start length).map fun i => lineText mark (lines.getD i []))

/-- The lines of a part. -/
def Part.text (s : Sides) : Part → String
  | .kept run => runText ' ' s.old run.old run.length
  | .changed change =>
      (match change.deleted with
        | none => ""
        | some run => runText '-' s.old run.old run.length) ++
      (match change.inserted with
        | none => ""
        | some run => runText '+' s.new run.new run.length)

/-- The unified diff of two texts under a name; empty if no line differs. -/
def unified (name : String) (old new : List Char) : String :=
  let s : Sides := ⟨(splitLines old).toArray, (splitLines new).toArray⟩
  match hunks (compact s (script s)) with
  | [] => ""
  | found =>
      "--- a/" ++ name ++ "\n+++ b/" ++ name ++ "\n" ++
        String.join (found.map fun hunk =>
          headerText hunk ++ String.join (hunk.map (Part.text s)))

end TaskTidy.Diff

import TaskTidy.Block.Field
import TaskTidy.Block.Ownership

/-!
# The command of a task

The command of a command or shell module is its inline value, the text of its block scalar, or its
`cmd` argument. The value of a key holds every line below it that is deeper than its column.
-/

namespace TaskTidy

namespace Buffer

/-- Whether a block is a task or a module directly inside one. -/
def isTask (b : Buffer) (e : Extent) : Bool :=
  b.isItemLevel e.start && b.inTaskList e.start

/-- The indexes of the lines of the value opened by the key on line `i`. -/
def valueLines (b : Buffer) (i : Nat) : List Nat :=
  List.range' (i + 1) (b.runAfter i (Line.isInside (b.line i).column)).length

/-- The line that holds the command of the module on line `i`: the line itself if it carries a
value, otherwise its `cmd` argument. -/
def commandKey? (b : Buffer) (i : Nat) : Option Nat :=
  if (b.line i).value?.isSome then some i
  else (b.valueLines i).find? fun j =>
    (b.line j).kind = .parameter && (b.line j).hasKey "cmd".toList

end Buffer

/-- The first command of a module. -/
structure CommandLine where
  index : Nat
  text : List Char
  /-- Whether the command is the value on a key's own line. -/
  isInline : Bool
  deriving DecidableEq

namespace Buffer

/-- The first command of the module on line `i`. In a block scalar it is the first line that holds
text and is no comment. -/
def commandLine? (b : Buffer) (i : Nat) : Option CommandLine :=
  match b.commandKey? i with
  | none => none
  | some key =>
      match (b.line key).value? with
      | none => none
      | some value =>
          if Line.isScalarHeader value then
            ((b.valueLines key).find? fun j =>
              let text := Text.trim (b.line j)
              !text.isEmpty && text.head? != some '#').map fun j =>
                ⟨j, Text.trim (b.line j), false⟩
          else some ⟨key, value, true⟩

/-- The texts of the command of the module on line `i`: the inline value, or each line of the
script. -/
def commandTexts (b : Buffer) (i : Nat) : List (List Char) :=
  match b.commandKey? i with
  | none => []
  | some key =>
      match (b.line key).value? with
      | none => []
      | some value =>
          if Line.isScalarHeader value then
            (b.valueLines key).map fun j => Text.trim (b.line j)
          else [value]

end Buffer

namespace RuleSets

/-- The text without the quotes around it. -/
def unquote (s : List Char) : List Char :=
  Text.trimMatches (fun c => c == '"' || c == '\'') s

/-- The shell option that makes a pipeline fail with any of its stages. -/
def strictPipes : List Char :=
  "set -o pipefail && ".toList

end RuleSets

end TaskTidy

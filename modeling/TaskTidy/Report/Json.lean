import TaskTidy.Report.Basic

/-!
# Reports as JSON

JSON in its indented form: two spaces for each level, one element on a line, and nothing between the
brackets of an empty array or object.
-/

namespace TaskTidy.Report.Json

/-- A JSON value, as the text it has at a level of indentation. -/
abbrev Printed := Nat → String

/-- A hexadecimal digit. -/
def hexDigit (n : Nat) : Char :=
  if n < 10 then Char.ofNat (48 + n) else Char.ofNat (87 + n)

/-- A character inside a JSON string. -/
def escapeChar (c : Char) : List Char :=
  match c with
  | '"' => ['\\', '"']
  | '\\' => ['\\', '\\']
  | '\n' => ['\\', 'n']
  | '\r' => ['\\', 'r']
  | '\t' => ['\\', 't']
  | '\x08' => ['\\', 'b']
  | '\x0c' => ['\\', 'f']
  | c =>
      if c.toNat < 0x20 then
        ['\\', 'u', '0', '0', hexDigit (c.toNat / 16), hexDigit (c.toNat % 16)]
      else [c]

/-- A JSON string. -/
def string (s : String) : Printed :=
  fun _ => "\"" ++ String.ofList (s.toList.flatMap escapeChar) ++ "\""

/-- A JSON number. -/
def number (n : Nat) : Printed :=
  fun _ => toString n

/-- The start of a line at a level. -/
def newline (level : Nat) : String :=
  "\n" ++ String.ofList (List.replicate (2 * level) ' ')

/-- Elements between brackets, one on a line. -/
def bracketed (left right : String) (elements : List Printed) : Printed :=
  fun level =>
    if elements.isEmpty then left ++ right
    else
      left ++ ",".intercalate (elements.map fun e => newline (level + 1) ++ e (level + 1)) ++
        newline level ++ right

/-- A JSON array. -/
def array (elements : List Printed) : Printed :=
  bracketed "[" "]" elements

/-- A JSON object. -/
def object (fields : List (String × Printed)) : Printed :=
  bracketed "\x7b" "\x7d" (fields.map fun (key, value) level =>
    string key level ++ ": " ++ value level)

/-- An edit. -/
def applied (a : Applied) : Printed :=
  object
    [("rule_set", string a.ruleSet), ("rule", string a.edit.rule), ("line", number a.edit.line)]

/-- The report on a file. The fields `error` and `diff` are there only if the file has them. -/
def fileReport (r : FileReport) : Printed :=
  match r.result with
  | .unchanged =>
      object [("path", string r.path), ("outcome", string "unchanged"), ("applied", array [])]
  | .changed edits diff =>
      object
        ([("path", string r.path), ("outcome", string "changed"),
          ("applied", array (edits.map applied))] ++
            match diff with
            | none => []
            | some text => [("diff", string text)])
  | .failed cause =>
      object
        [("path", string r.path), ("outcome", object [("errored", string cause.kind.name)]),
          ("applied", array []), ("error", string (cause.message r.path))]

/-- The summary. -/
def summary (s : Summary) : Printed :=
  object
    [("files", number s.files), ("changed", number s.changed), ("unchanged", number s.unchanged),
      ("errored", number s.errored), ("edits", number s.edits),
      ("errors", object (s.errors.map fun (kind, n) => (kind.name, number n)))]

/-- The report as one JSON object on lines of its own. -/
def text (reports : List FileReport) (s : Summary) : String :=
  object [("files", array (reports.map fileReport)), ("summary", summary s)] 0 ++ "\n"

end TaskTidy.Report.Json

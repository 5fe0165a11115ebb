import TaskTidy.Toml.Number
import TaskTidy.Toml.Outline

/-!
# Reading configuration files

A file is a list of statements: headers that open tables, and keys with values. The values are
strings, numbers, moments, booleans, arrays over several lines and inline tables on one line.
-/

namespace TaskTidy.Toml

namespace Reader

mutual

/-- A value. Arrays and inline tables nest `depth` deep at most; `fuel` bounds the steps. -/
def value? : Nat → Nat → List Char → Reading Value
  | _, 0, _ => none
  | depth, fuel + 1, s =>
      match s with
      | '[' :: rest =>
          if depth = 0 then none
          else (items? (depth - 1) fuel rest).map fun (items, last) => (.array items, last)
      | '{' :: rest =>
          if depth = 0 then none
          else match rest.dropWhile Text.isIndent with
            | '}' :: last => some (.table .nil, last)
            | more => (pairs? (depth - 1) fuel more .nil).map fun (t, last) =>
                (.table t.entries, last)
      | _ =>
          match Text.strip? "true".toList s, Text.strip? "false".toList s with
          | some rest, _ => some (.boolean true, rest)
          | none, some rest => some (.boolean false, rest)
          | none, none =>
              match string? s with
              | some (text, rest) => some (.string text, rest)
              | none => number? s

/-- The items of an array after its opening bracket or a comma. -/
def items? : Nat → Nat → List Char → Reading (List Value)
  | _, 0, _ => none
  | depth, fuel + 1, s =>
      match skipLines s.length s with
      | ']' :: rest => some ([], rest)
      | start =>
          match value? depth fuel start with
          | none => none
          | some (item, rest) =>
              match skipLines rest.length rest with
              | ']' :: last => some ([item], last)
              | ',' :: more =>
                  (items? depth fuel more).map fun (items, last) => (item :: items, last)
              | _ => none

/-- The pairs of an inline table after its opening brace or a comma. -/
def pairs? : Nat → Nat → List Char → Outline → Reading Outline
  | _, 0, _, _ => none
  | depth, fuel + 1, s, t =>
      match keyPath? s with
      | some (path, '=' :: rest) =>
          match value? depth fuel (rest.dropWhile Text.isIndent) with
          | none => none
          | some (item, more) =>
              match t.assign path item with
              | none => none
              | some next =>
                  match more.dropWhile Text.isIndent with
                  | '}' :: last => some (next, last)
                  | ',' :: again => pairs? depth fuel again next
                  | _ => none
      | _ => none

end

/-- A header after its first bracket: its keys, the outline with its table, and the rest of the
line. A second bracket opens one more table of a repeated header. -/
def header? (t : Outline) (s : List Char) : Option (List String × Outline × List Char) :=
  match s with
  | '[' :: rest =>
      match keyPath? rest with
      | some (path, ']' :: ']' :: more) =>
          (t.openAt Outline.openRepeated path).map fun next => (path, next, more)
      | _ => none
  | _ =>
      match keyPath? s with
      | some (path, ']' :: more) =>
          (t.openAt Outline.openTable path).map fun next => (path, next, more)
      | _ => none

/-- A header or an assignment at the start of a line, in the table that is open. -/
def statement? (path : List String) (t : Outline) (s : List Char) :
    Option (List String × Outline × List Char) :=
  match s with
  | '[' :: rest =>
      match header? t rest with
      | none => none
      | some (header, next, more) => (lineEnd? more).map fun last => (header, next, last)
  | _ =>
      match keyPath? s with
      | some (keys, '=' :: rest) =>
          match value? (depthLimit - 1) (s.length + 1) (rest.dropWhile Text.isIndent) with
          | none => none
          | some (value, more) =>
              match lineEnd? more, t.assignBelow path keys value with
              | some last, some next => some (path, next, last)
              | _, _ => none
      | _ => none

/-- The statements of a text, added to an outline. Every statement takes a character at least, so
the length of the text bounds their number. -/
def statements? : Nat → List String → Outline → List Char → Option Outline
  | 0, _, _, _ => none
  | fuel + 1, path, t, s =>
      match skipLines s.length s with
      | [] => some t
      | start =>
          match statement? path t start with
          | none => none
          | some (next, outline, rest) => statements? fuel next outline rest

end Reader

/-- The root table of a configuration file. A byte order mark at the start is skipped. -/
def read? (s : List Char) : Option Entries :=
  let text := (Text.strip? ['\ufeff'] s).getD s
  (Reader.statements? (text.length + 1) [] .nil text).map Outline.entries

end TaskTidy.Toml

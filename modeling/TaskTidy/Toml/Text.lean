import TaskTidy.Text.Blank
import TaskTidy.Text.Search

/-!
# The text of configuration files

Comments, line ends, strings and keys. Every reading function returns the rest of the text, or
nothing if the text is not of its form; where `fuel` bounds the steps, the length of the text is
enough.
-/

namespace TaskTidy.Toml.Reader

/-- A reading of a text: the value and the rest of the text. -/
abbrev Reading (α : Type) := Option (α × List Char)

/-- Characters that may stand in strings and comments. -/
def isPlain (c : Char) : Bool :=
  c == '\t' || (0x20 ≤ c.toNat && c.toNat != 0x7F)

/-- Skip a comment up to the end of its line. -/
def skipComment (s : List Char) : List Char :=
  match s with
  | '#' :: rest => rest.dropWhile isPlain
  | _ => s

/-- Read the end of a line, or stop at the end of the text. -/
def lineEnd? (s : List Char) : Option (List Char) :=
  match skipComment (s.dropWhile Text.isIndent) with
  | [] => some []
  | '\n' :: rest => some rest
  | '\r' :: '\n' :: rest => some rest
  | _ => none

/-- Skip blanks, comments and line ends. -/
def skipLines : Nat → List Char → List Char
  | 0, s => s
  | fuel + 1, s =>
      match s.dropWhile Text.isIndent with
      | '\n' :: rest => skipLines fuel rest
      | '\r' :: '\n' :: rest => skipLines fuel rest
      | '#' :: rest => skipLines fuel (rest.dropWhile isPlain)
      | rest => rest

/-- Skip blanks and line ends. -/
def skipSpace : List Char → List Char
  | '\n' :: rest => skipSpace rest
  | '\r' :: '\n' :: rest => skipSpace rest
  | c :: rest => if Text.isIndent c then skipSpace rest else c :: rest
  | [] => []

/-- The value of a hexadecimal digit. -/
def hexDigit? (c : Char) : Option Nat :=
  if c.isDigit then some (c.toNat - 48)
  else if 'a' ≤ c ∧ c ≤ 'f' then some (c.toNat - 87)
  else if 'A' ≤ c ∧ c ≤ 'F' then some (c.toNat - 55)
  else none

/-- The character with a code point written in `n` hexadecimal digits. -/
def codePoint? (n : Nat) (s : List Char) : Reading Char :=
  let digits := s.take n
  if digits.length = n then
    match digits.mapM hexDigit? with
    | none => none
    | some values =>
        let code := values.foldl (fun sum d => sum * 16 + d) 0
        if code < 0xD800 ∨ (0xE000 ≤ code ∧ code < 0x110000) then
          some (Char.ofNat code, s.drop n)
        else none
  else none

/-- The character an escape stands for, after its backslash. -/
def escape? : List Char → Reading Char
  | 'b' :: rest => some ('\x08', rest)
  | 't' :: rest => some ('\t', rest)
  | 'n' :: rest => some ('\n', rest)
  | 'f' :: rest => some ('\x0c', rest)
  | 'r' :: rest => some ('\r', rest)
  | '"' :: rest => some ('"', rest)
  | '\\' :: rest => some ('\\', rest)
  | 'u' :: rest => codePoint? 4 rest
  | 'U' :: rest => codePoint? 8 rest
  | _ => none

/-- The content of a basic string after its opening quote. -/
def basicString? : Nat → List Char → Reading (List Char)
  | 0, _ => none
  | fuel + 1, s =>
      match s with
      | [] => none
      | '"' :: rest => some ([], rest)
      | '\\' :: rest =>
          match escape? rest with
          | none => none
          | some (c, more) => (basicString? fuel more).map fun (text, last) => (c :: text, last)
      | c :: rest =>
          if isPlain c then (basicString? fuel rest).map fun (text, last) => (c :: text, last)
          else none

/-- The content of a literal string after its opening quote. -/
def literalString? : List Char → Reading (List Char)
  | [] => none
  | c :: rest =>
      if c = '\'' then some ([], rest)
      else if isPlain c then (literalString? rest).map fun (text, last) => (c :: text, last)
      else none

/-- The quotes that end a multi-line string. One or two quotes right before them belong to its
content. -/
def closingQuotes? (quote : Char) (s : List Char) : Reading (List Char) :=
  let quotes := min 5 (s.takeWhile (· == quote)).length
  if 3 ≤ quotes then some (List.replicate (quotes - 3) quote, s.drop quotes) else none

/-- The text after a line end that a backslash hides, with the blanks and line ends behind it. -/
def hiddenLineEnd? (s : List Char) : Option (List Char) :=
  match s.dropWhile Text.isIndent with
  | '\n' :: rest => some (skipSpace rest)
  | '\r' :: '\n' :: rest => some (skipSpace rest)
  | _ => none

/-- The content of a multi-line basic string up to its closing quotes. -/
def multiLineBasic? : Nat → List Char → Reading (List Char)
  | 0, _ => none
  | fuel + 1, s =>
      match closingQuotes? '"' s with
      | some reading => some reading
      | none =>
          match s with
          | [] => none
          | '\\' :: rest =>
              match hiddenLineEnd? rest, escape? rest with
              | some more, _ => multiLineBasic? fuel more
              | none, some (c, more) =>
                  (multiLineBasic? fuel more).map fun (text, last) => (c :: text, last)
              | none, none => none
          | '\r' :: '\n' :: rest =>
              (multiLineBasic? fuel rest).map fun (text, last) => ('\n' :: text, last)
          | c :: rest =>
              if isPlain c || c == '\n' then
                (multiLineBasic? fuel rest).map fun (text, last) => (c :: text, last)
              else none

/-- The content of a multi-line literal string up to its closing quotes. -/
def multiLineLiteral? : Nat → List Char → Reading (List Char)
  | 0, _ => none
  | fuel + 1, s =>
      match closingQuotes? '\'' s with
      | some reading => some reading
      | none =>
          match s with
          | [] => none
          | '\r' :: '\n' :: rest =>
              (multiLineLiteral? fuel rest).map fun (text, last) => ('\n' :: text, last)
          | c :: rest =>
              if isPlain c || c == '\n' then
                (multiLineLiteral? fuel rest).map fun (text, last) => (c :: text, last)
              else none

/-- Drop the line end right after the opening quotes of a multi-line string. -/
def dropFirstLineEnd (s : List Char) : List Char :=
  match s with
  | '\n' :: rest => rest
  | '\r' :: '\n' :: rest => rest
  | _ => s

/-- A string of any kind, with its quotes. -/
def string? (s : List Char) : Reading String :=
  let content : Reading (List Char) := match s with
    | '"' :: '"' :: '"' :: rest => multiLineBasic? rest.length (dropFirstLineEnd rest)
    | '"' :: rest => basicString? rest.length rest
    | '\'' :: '\'' :: '\'' :: rest => multiLineLiteral? rest.length (dropFirstLineEnd rest)
    | '\'' :: rest => literalString? rest
    | _ => none
  content.map fun (text, last) => (String.ofList text, last)

/-- Characters of a key without quotes. -/
def isBareKey (c : Char) : Bool :=
  c.isAlphanum || c == '_' || c == '-'

/-- A single key. -/
def key? (s : List Char) : Reading String :=
  match s with
  | '"' :: rest =>
      (basicString? rest.length rest).map fun (text, last) => (String.ofList text, last)
  | '\'' :: rest => (literalString? rest).map fun (text, last) => (String.ofList text, last)
  | _ =>
      let bare := s.takeWhile isBareKey
      if bare.isEmpty then none else some (String.ofList bare, s.dropWhile isBareKey)

/-- Values and dotted keys nest to a depth below this limit. -/
def depthLimit : Nat := 80

/-- Keys joined by dots, `n` of them at most, with blanks around them skipped. -/
def keysUpTo? : Nat → List Char → Reading (List String)
  | 0, _ => none
  | n + 1, s =>
      match key? (s.dropWhile Text.isIndent) with
      | none => none
      | some (key, rest) =>
          match rest.dropWhile Text.isIndent with
          | '.' :: more => (keysUpTo? n more).map fun (keys, last) => (key :: keys, last)
          | last => some ([key], last)

/-- A dotted key. -/
def keyPath? (s : List Char) : Reading (List String) :=
  keysUpTo? (depthLimit - 1) s

end TaskTidy.Toml.Reader

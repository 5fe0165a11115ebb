import TaskTidy.Discovery.Glob
import TaskTidy.FileTree
import TaskTidy.Text.Blank

/-!
# Ignore files

A line of an ignore file is a pattern for the files or directories below a directory. A pattern
without an inner slash matches at any depth. Of the patterns of a file the last that matches
decides, and of the files of one kind the one nearest to the entry. The `.gitignore` files come
before the exclude files of repositories.
-/

namespace TaskTidy.Discovery

/-- A pattern of an ignore file. -/
structure IgnorePattern where
  parts : List GlobPart
  keeps : Bool
  directoriesOnly : Bool

/-- A line without the blanks at its end, unless a backslash comes before the last of them. -/
def trimLine (line : List Char) : List Char :=
  if "\\ ".toList.isSuffixOf line then line else Text.trimEnd line

/-- The signs in front of a pattern: whether it keeps what it matches, whether it is tied to its
directory, and the rest. -/
def readSigns (text : List Char) : Bool × Bool × List Char :=
  match text with
  | '\\' :: '!' :: rest => (false, false, '!' :: rest)
  | '\\' :: '#' :: rest => (false, false, '#' :: rest)
  | '!' :: '/' :: rest => (true, true, rest)
  | '!' :: rest => (true, false, rest)
  | '/' :: rest => (false, true, rest)
  | _ => (false, false, text)

/-- The slash at the end of a pattern, which may be escaped: whether it is there, and the text
before it. -/
def splitLastSlash (text : List Char) : Bool × List Char :=
  match text.reverse with
  | '/' :: '\\' :: rest => (true, rest.reverse)
  | '/' :: rest => (true, rest.reverse)
  | _ => (false, text)

/-- The pattern for whole paths that a pattern of an ignore file stands for. -/
def wholePattern (anchored : Bool) (text : List Char) : List Char :=
  let anywhere := !anchored && !text.contains '/' && text != ['*', '*']
  let whole := if anywhere then "**/".toList ++ text else text
  if "/**".toList.isSuffixOf whole then whole ++ "/*".toList else whole

/-- Read a line of an ignore file. Blank lines, comments and malformed patterns hold no pattern. -/
def readPattern? (line : List Char) : Option IgnorePattern :=
  let text := trimLine line
  if text.isEmpty || line.head? == some '#' then none
  else
    let (keeps, anchored, rest) := readSigns text
    let (directoriesOnly, name) := splitLastSlash rest
    (readGlob? (wholePattern anchored name)).map fun parts => ⟨parts, keeps, directoriesOnly⟩

/-- The lines of a file up to the first that is not text. A line feed ends a line, with a carriage
return before it. -/
def readLines : List (List UInt8) → List (List Char)
  | [] => []
  | [last] => if last.isEmpty then [] else (Text.Utf8.decode last).toOption.toList
  | bytes :: next :: rest =>
      match Text.Utf8.decode (if bytes.getLast? = some 0x0D then bytes.dropLast else bytes) with
      | .error _ => []
      | .ok line => line :: readLines (next :: rest)

/-- Pieces of bytes between line feeds. -/
def splitLines : List UInt8 → List (List UInt8)
  | [] => [[]]
  | b :: rest =>
      if b = 0x0A then [] :: splitLines rest
      else match splitLines rest with
        | [] => [[b]]
        | piece :: more => (b :: piece) :: more

/-- The patterns of an ignore file. Byte order marks at the start of its first line are skipped. -/
def readPatterns (bytes : List UInt8) : List IgnorePattern :=
  match readLines (splitLines bytes) with
  | [] => []
  | first :: rest => (first.dropWhile (· == '\ufeff') :: rest).filterMap readPattern?

/-- A kind of ignore file: where it lies below the directory that it is for. -/
abbrev IgnoreKind := Place

/-- The ignore files of a working tree. -/
def IgnoreKind.tracked : IgnoreKind := [".gitignore"]

/-- The exclude files of repositories. -/
def IgnoreKind.excluded : IgnoreKind := [".git", "info", "exclude"]

/-- The patterns for a directory. -/
def patternsIn (t : FileTree) (kind : IgnoreKind) (directory : Place) : List IgnorePattern :=
  match t.bytesAt? (directory ++ kind) with
  | none => []
  | some bytes => readPatterns bytes

/-- Whether the last matching pattern of a directory ignores the entry; none if no pattern matches.
-/
def verdict? (patterns : List IgnorePattern) (below : Place) (isDirectory : Bool) : Option Bool :=
  let path := Text.Utf8.encode ("/".intercalate below).toList
  let applies := fun p : IgnorePattern =>
    (isDirectory || !p.directoriesOnly) && matchesPath p.parts path
  (patterns.reverse.find? applies).map fun p => !p.keeps

/-- Ask the ignore files of a kind from the directory of an entry upwards; `depth` counts the
directories still to ask. -/
def verdictFrom? (t : FileTree) (kind : IgnoreKind) (entry : Place) (isDirectory : Bool) :
    Nat → Option Bool
  | 0 => none
  | depth + 1 =>
      match verdict? (patternsIn t kind (entry.take depth)) (entry.drop depth) isDirectory with
      | some ignored => some ignored
      | none => verdictFrom? t kind entry isDirectory depth

/-- Whether an entry itself is ignored. -/
def isIgnored (t : FileTree) (entry : Place) (isDirectory : Bool) : Bool :=
  match verdictFrom? t .tracked entry isDirectory entry.length with
  | some ignored => ignored
  | none => (verdictFrom? t .excluded entry isDirectory entry.length).getD false

end TaskTidy.Discovery

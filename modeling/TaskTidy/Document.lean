import TaskTidy.Line.Basic
import TaskTidy.Text.Search
import TaskTidy.Text.Utf8

/-!
# Documents

A document is its lines together with the line ending and whether the last line is terminated.
Reading a text and rendering the document gives the text back: a carriage return belongs to the
ending only if every terminated line has one.
-/

namespace TaskTidy

/-- How the lines of a document end. -/
inductive LineEnding
  | lf
  | crlf
  deriving DecidableEq, Repr

/-- The characters of a line ending. -/
def LineEnding.text : LineEnding → List Char
  | .lf => ['\n']
  | .crlf => ['\r', '\n']

/-- A text cut into lines. -/
structure Document where
  lines : Buffer
  ending : LineEnding
  finalNewline : Bool
  deriving DecidableEq

namespace Document

/-- A document of given lines, each ended by a newline. -/
def ofLines (lines : Buffer) : Document :=
  ⟨lines, .lf, true⟩

/-- Whether a line ends in a carriage return. -/
def endsInReturn (l : Line) : Bool :=
  l.getLast? == some '\r'

/-- Read a text. -/
def parse (s : List Char) : Document :=
  let pieces := Text.pieces '\n' s
  let terminated := pieces.dropLast
  let last := pieces.getLast?.getD []
  let rest := if last.isEmpty then [] else [last]
  if !terminated.isEmpty && terminated.all endsInReturn then
    ⟨terminated.map List.dropLast ++ rest, .crlf, last.isEmpty⟩
  else ⟨terminated ++ rest, .lf, last.isEmpty && !terminated.isEmpty⟩

/-- Read bytes, or give the length of the longest valid beginning. -/
def ofBytes (bytes : List UInt8) : Except Nat Document :=
  (Text.Utf8.decode bytes).map parse

/-- The text of a document. Without lines it is empty. -/
def render (d : Document) : List Char :=
  Text.joinWith d.ending.text d.lines ++
    if d.finalNewline && !d.lines.isEmpty then d.ending.text else []

/-- The document with other lines and the same line ending. -/
def withLines (d : Document) (lines : Buffer) (finalNewline : Bool) : Document :=
  ⟨lines, d.ending, finalNewline⟩

end Document

end TaskTidy

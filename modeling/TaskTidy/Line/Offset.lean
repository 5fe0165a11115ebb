import TaskTidy.Line.Basic
import TaskTidy.Text.Utf8

/-!
# Byte offsets in lines

The depth and the column of a line count characters, the offset of its value counts bytes. In front
of the column stand spaces, tabs and at most a dash, so the column is an offset as well.
-/

namespace TaskTidy.Line

open Text.Utf8

/-- The byte at which the value starts: behind the column, what the key, its colon and the blank
after the colon take, and the blanks in front of the value. -/
def valueOffset? (l : Line) : Option Nat :=
  match drop? l.column l with
  | none => none
  | some body =>
      match entryOf? body with
      | none => none
      | some entry =>
          if Text.allBlank entry.rest then none
          else
            some (l.column + (size body - size entry.rest) +
              (size entry.rest - size (Text.trimStart entry.rest)))

end TaskTidy.Line

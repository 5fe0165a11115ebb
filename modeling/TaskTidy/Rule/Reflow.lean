import TaskTidy.Rule.Guard
import TaskTidy.Text.Search

/-!
# Reflow of over-long lines

A line wider than the limit is split at commas, packing as many pieces as fit on each line.
Continuation lines stand two columns past the content, so they are read as more of the same value.
The split is refused unless every part is within the limit and every later part is plain text.
-/

namespace TaskTidy.Reflow

/-- The number of characters of a line. -/
def width (l : Line) : Nat :=
  l.length

/-- The texts that make a comma an unsafe place to split: templates and addresses. -/
def unsafeMarkers : List (List Char) :=
  [['{', '{'], ['{', '%'], [':', '/', '/']]

/-- Whether a text holds a comment outside quotes, given the open quote and the character before. A
quote opens only at the start of a token, and a comment only after a blank. -/
def commentAfter : Option Char → Char → List Char → Bool
  | _, _, [] => false
  | some quote, _, c :: rest =>
      if quote = '"' ∧ c = '\\' then
        match rest with
        | [] => false
        | _ :: more => commentAfter (some quote) c more
      else commentAfter (if c = quote then none else some quote) c rest
  | none, before, c :: rest =>
      if (c = '"' ∨ c = '\'') ∧ (Text.isBlank before ∨ before ∈ ['[', '{', ',', ':']) then
        commentAfter (some c) c rest
      else if c = '#' ∧ Text.isBlank before then true
      else commentAfter none c rest

/-- Whether a line holds a comment outside quotes. -/
def hasComment (l : Line) : Bool :=
  commentAfter none ' ' l

/-- Whether a line can only be read as more text of the value above it. -/
def isPlainContinuation (l : Line) : Bool :=
  !Text.allBlank l && l.kind = .continuation && !Text.contains [':', ' '] l

/-- Pack pieces onto lines. A piece joins the current line only strictly below the limit, because a
finished line still gains a comma; a piece that starts a line must hold text. -/
def pack (limit : Nat) (indent : Line) : Line → List Line → Option (List Line)
  | current, [] => some [current]
  | current, piece :: rest =>
      if width current + 1 + width piece < limit then
        pack limit indent (current ++ ',' :: piece) rest
      else
        let text := Text.trimStart piece
        if text.isEmpty then none
        else (pack limit indent (indent ++ text) rest).map ((current ++ [',']) :: ·)

/-- Whether a line may be split at its commas at all. -/
def isSplittable (limit : Nat) (l : Line) : Bool :=
  limit < width l && l.kind != .comment && l.contains ',' &&
    !(unsafeMarkers.any fun marker => Text.contains marker l) && !hasComment l

/-- Whether the packed parts may replace the line. -/
def isClean (limit : Nat) (parts : List Line) : Bool :=
  2 ≤ parts.length && parts.all (fun part => width part ≤ limit) &&
    parts.tail.all isPlainContinuation

/-- The indentation of a continuation line. -/
def continuationIndent (l : Line) : Line :=
  List.replicate (l.column + 2) ' '

/-- The parts of a line that is too wide, or none if it fits or cannot be split safely. -/
def split? (limit : Nat) (l : Line) : Option (List Line) :=
  if isSplittable limit l then
    match Text.pieces ',' l with
    | [] => none
    | first :: rest =>
        match pack limit (continuationIndent l) first rest with
        | none => none
        | some parts => if isClean limit parts then some parts else none
  else none

/-- Split over-long lines outside block scalars. -/
def rule (limit : Nat) : LineRule :=
  LineRule.guarded "reflow" [.outsideScalar] fun b i => (split? limit (b.line i)).map Rewrite.split

end TaskTidy.Reflow

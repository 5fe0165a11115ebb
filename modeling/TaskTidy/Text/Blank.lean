/-!
# Blank characters and trimming

Text is a list of Unicode scalar values. A character is blank when it has the Unicode property
`White_Space`; only the space and the tab count as indentation. Trimming removes blank characters
at the ends and nothing else.
-/

namespace TaskTidy.Text

/-- The characters with the property `White_Space`. The zero-width characters are not among them. -/
def isBlank (c : Char) : Bool :=
  let n := c.toNat
  (9 ≤ n && n ≤ 13) || n == 0x20 || n == 0x85 || n == 0xA0 || n == 0x1680 ||
    (0x2000 ≤ n && n ≤ 0x200A) || n == 0x2028 || n == 0x2029 || n == 0x202F || n == 0x205F ||
    n == 0x3000

/-- The characters that indent a line. -/
def isIndent (c : Char) : Bool :=
  c == ' ' || c == '\t'

theorem isIndent_iff {c : Char} : isIndent c = true ↔ c = ' ' ∨ c = '\t' := by
  simp [isIndent]

/-- Indentation is blank. -/
theorem isBlank_of_isIndent {c : Char} (h : isIndent c = true) : isBlank c = true := by
  rcases isIndent_iff.1 h with rfl | rfl <;> decide

/-- The text without its longest tail of characters that satisfy `p`. -/
def dropEndWhile (p : Char → Bool) (s : List Char) : List Char :=
  (s.reverse.dropWhile p).reverse

/-- The longest tail of characters that satisfy `p`. -/
def takeEndWhile (p : Char → Bool) (s : List Char) : List Char :=
  (s.reverse.takeWhile p).reverse

/-- A text is its remaining part followed by the tail that was dropped. -/
theorem dropEndWhile_append_takeEndWhile (p : Char → Bool) (s : List Char) :
    dropEndWhile p s ++ takeEndWhile p s = s := by
  rw [dropEndWhile, takeEndWhile, ← List.reverse_append, List.takeWhile_append_dropWhile,
    List.reverse_reverse]

/-- Trim blank characters at the start. -/
def trimStart (s : List Char) : List Char :=
  s.dropWhile isBlank

/-- Trim blank characters at the end. -/
def trimEnd (s : List Char) : List Char :=
  dropEndWhile isBlank s

/-- Trim blank characters at both ends. -/
def trim (s : List Char) : List Char :=
  trimEnd (trimStart s)

/-- A text of blank characters only, the empty text included. -/
def allBlank (s : List Char) : Bool :=
  s.all isBlank

/-- Trim the characters that satisfy `p` at both ends. -/
def trimMatches (p : Char → Bool) (s : List Char) : List Char :=
  dropEndWhile p (s.dropWhile p)

/-- The first maximal run of characters that are not blank; empty if there is none. -/
def firstWord (s : List Char) : List Char :=
  (trimStart s).takeWhile fun c => !isBlank c

end TaskTidy.Text

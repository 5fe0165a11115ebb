import TaskTidy.Text.Blank
import TaskTidy.Line.Entry

/-!
# Lines of a task file

A line is read on its own: its depth, its kind, the column where its content starts, and the key and
value it carries. Spaces and tabs indent and nothing else does. A bare dash counts as a blank line,
because it opens an item without content.
-/

namespace TaskTidy

/-- The lines of a document, without their terminators. -/
abbrev Buffer := List Line

/-- The line at an index; beyond the end, the empty line. -/
def Buffer.line (b : Buffer) (i : Nat) : Line :=
  b.getD i []

theorem Buffer.line_eq_getElem (b : Buffer) (i : Nat) (h : i < b.length) : b.line i = b[i] := by
  simp [Buffer.line, List.getD_eq_getElem?_getD, h]

namespace Line

/-- What a line is when it is read on its own. -/
inductive Kind
  | blank
  | comment
  | item
  | parameter
  | continuation
  deriving DecidableEq, Repr

/-- Blank lines and comments carry no structure. -/
def Kind.isSignificant : Kind → Bool
  | .blank | .comment => false
  | _ => true

/-- Items and parameters can carry a key. -/
def Kind.isEntry : Kind → Bool
  | .item | .parameter => true
  | _ => false

/-- The number of leading spaces and tabs. -/
def depth (l : Line) : Nat :=
  (l.takeWhile Text.isIndent).length

/-- The line without its indentation. -/
def unindented (l : Line) : Line :=
  l.dropWhile Text.isIndent

/-- Dropping as many characters as the line is deep leaves the unindented line. -/
theorem drop_depth (l : Line) : l.drop l.depth = l.unindented := by
  induction l with
  | nil => rfl
  | cons c rest ih =>
      simp only [depth, unindented] at ih ⊢
      by_cases h : Text.isIndent c
      · simp [h, ih]
      · simp [h]

/-- Whether the text starts with a space or a tab. -/
def startsIndented (s : Line) : Bool :=
  match s with
  | [] => false
  | c :: _ => Text.isIndent c

/-- What the line is. -/
def kind (l : Line) : Kind :=
  if Text.allBlank l.unindented then .blank
  else match l.unindented with
    | '#' :: _ => .comment
    | '-' :: after =>
        if Text.allBlank after then .blank
        else if startsIndented after then .item
        else .continuation
    | rest => if (entryOf? rest).isSome then .parameter else .continuation

/-- What a kind tells about the unindented text of a line. -/
def Kind.Describes : Kind → Line → Prop
  | .blank, s => Text.allBlank s = true ∨ ∃ after, s = '-' :: after ∧ Text.allBlank after = true
  | .comment, s => ∃ rest, s = '#' :: rest
  | .item, s => ∃ after, s = '-' :: after ∧ Text.allBlank after = false ∧
      startsIndented after = true
  | .parameter, s => (entryOf? s).isSome = true
  | .continuation, s => Text.allBlank s = false ∧
      ((∃ after, s = '-' :: after ∧ startsIndented after = false) ∨
        (∀ after, s ≠ '-' :: after) ∧ entryOf? s = none)

theorem describes_of_kind {l : Line} {k : Kind} (h : l.kind = k) :
    k.Describes l.unindented := by
  subst h
  unfold kind
  split
  · next hblank => exact Or.inl hblank
  · next hblank =>
      rw [Bool.not_eq_true] at hblank
      split
      · next rest hu => exact ⟨rest, hu⟩
      · next after hu =>
          split
          · next hafter => exact Or.inr ⟨after, hu, hafter⟩
          · next hafter =>
              split
              · next hstarts => exact ⟨after, hu, Bool.eq_false_iff.2 hafter, hstarts⟩
              · next hstarts => exact ⟨hblank, Or.inl ⟨after, hu, Bool.eq_false_iff.2 hstarts⟩⟩
      · next hdash =>
          split
          · next hentry => exact hentry
          · next hentry =>
              exact ⟨hblank, Or.inr ⟨hdash, Option.not_isSome_iff_eq_none.1 hentry⟩⟩

/-- The column of the content: past the dash of a list item and the blanks after it, otherwise the
depth. -/
def column (l : Line) : Nat :=
  match l.unindented with
  | '-' :: after => if startsIndented after then l.depth + 1 + depth after else l.depth
  | _ => l.depth

/-- Content never starts before the indentation ends. -/
theorem depth_le_column (l : Line) : l.depth ≤ l.column := by
  unfold column
  split
  · split <;> omega
  · exact Nat.le_refl _

/-- The line from its content column on. -/
def body (l : Line) : Line :=
  l.drop l.column

/-- The key a parameter or an item carries, quotes included. -/
def key? (l : Line) : Option (List Char) :=
  if l.kind.isEntry then (entryOf? l.body).map Entry.key else none

/-- The trimmed text after the key, unless it is empty. -/
def value? (l : Line) : Option (List Char) :=
  match entryOf? l.body with
  | none => none
  | some entry => if Text.allBlank entry.rest then none else some (Text.trim entry.rest)

/-- The line cut in front of the first character of its value. -/
def splitAtValue? (l : Line) : Option (Line × Line) :=
  match entryOf? l.body with
  | none => none
  | some entry =>
      if Text.allBlank entry.rest then none
      else
        let value := Text.trimStart entry.rest
        some (l.take (l.length - value.length), value)

/-- Whether the line carries the given key. -/
def hasKey (l : Line) (key : List Char) : Bool :=
  l.key? == some key

/-- Whether the line carries one of the given keys. -/
def hasKeyIn (l : Line) (keys : List (List Char)) : Bool :=
  match l.key? with
  | none => false
  | some key => keys.contains key

/-- Whether a text is the header of a literal or folded block scalar: the mark, its indicators, and
nothing more than a comment. -/
def isScalarHeader (s : List Char) : Bool :=
  match Text.trim s with
  | [] => false
  | mark :: rest =>
      (mark == '|' || mark == '>') &&
        match (rest.dropWhile isIndicator).dropWhile Text.isIndent with
        | [] => true
        | c :: text => c == '#' && text.all (· != '\n')
where
  /-- The characters that give chomping and indentation. -/
  isIndicator (c : Char) : Bool :=
    c == '-' || c == '+' || c.isDigit

/-- Whether the line opens a block scalar. -/
def opensScalar (l : Line) : Bool :=
  match l.value? with
  | none => false
  | some value => isScalarHeader value

end Line

/-- The smallest step by which a significant line is deeper than the significant line before it; two
if there is no such step. -/
def Buffer.indentStep (b : Buffer) : Nat :=
  let depths := (b.filter fun l => l.kind.isSignificant).map Line.depth
  let steps := (depths.zip depths.tail).filterMap fun (before, after) =>
    if before < after then some (after - before) else none
  steps.min?.getD 2

end TaskTidy

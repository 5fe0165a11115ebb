import TaskTidy.Rule.Guard
import TaskTidy.Rule.Injection
import TaskTidy.Text.LetterCase

/-!
# Stock rules

Small ready-made rules: literal substitutions, line functions that need no pattern, and the usual
policies of block rules.
-/

namespace TaskTidy.Rule

/-- Where on the line a literal text must stand. -/
inductive Position
  | anywhere
  | atStart
  | atEnd
  | whole
  deriving DecidableEq, Repr

/-- What becomes of the matched text; deletion takes the whole line. -/
inductive Replacement
  | text (t : List Char)
  | uppercase
  | deletion
  deriving DecidableEq

/-- The text before and after the first match of a literal. -/
def matchLiteral? (position : Position) (literal l : Line) : Option (Line × Line) :=
  match position with
  | .anywhere => Text.splitAtFirst? literal l
  | .atStart => (Text.strip? literal l).map fun rest => ([], rest)
  | .atEnd => if literal.isSuffixOf l then some (l.take (l.length - literal.length), []) else none
  | .whole => if l = literal then some ([], []) else none

/-- Replace the first match of a literal text. -/
def substitution (name : String) (guards : List Guard) (position : Position) (literal : Line)
    (replacement : Replacement) : LineRule :=
  LineRule.guarded name guards fun b i =>
    (matchLiteral? position literal (b.line i)).map fun (before, after) =>
      match replacement with
      | .text t => .replace (before ++ t ++ after)
      | .uppercase => .replace (before ++ Text.upper literal ++ after)
      | .deletion => .delete

/-- Split every line at a separator. -/
def splittingAt (sep : Char) (name : String) (guards : List Guard) : LineRule :=
  LineRule.guarded name guards fun b i => some (.split (Text.pieces sep (b.line i)))

/-- The value of an injected field: a constant, or the value of another field. -/
inductive ValueSource
  | constant (value : List Char)
  | copyOf (key : List Char)
  | nothing
  deriving DecidableEq

/-- The value a source gives for a block. -/
def ValueSource.value? : ValueSource → Buffer → Extent → Option (List Char)
  | .constant value, _, _ => some value
  | .copyOf key, b, e => b.fieldValue? e key
  | .nothing, _, _ => none

/-- Inject a field with a value from a source. -/
def injection (name : String) (target : Target) (field : List Char) (anchors : Anchors)
    (source : ValueSource) : FieldInjection :=
  ⟨name, target, field, anchors, source.value?⟩

/-- A line of a block: that of a field, or one counted from the start line. -/
inductive BlockLine
  | field (key : List Char)
  | offset (n : Nat)
  deriving DecidableEq

/-- The index of a line of a block. -/
def BlockLine.index? : BlockLine → Buffer → Extent → Option Nat
  | .field key, b, e => (b.field? e key).map Field.index
  | .offset n, _, e => some (e.start + n)

/-- Append a text to a line of a block; with `once`, not to a line that ends with it already. -/
def appending (name : String) (target : Target) (line : BlockLine) (suffix : Line) (once : Bool) :
    ScopedRewrite :=
  ⟨name, target, fun b e =>
    match line.index? b e with
    | none => none
    | some i =>
        if i < b.length then
          if once && suffix.isSuffixOf (b.line i) then some (i, b.line i)
          else some (i, b.line i ++ suffix)
        else none⟩

end TaskTidy.Rule

import TaskTidy.Block.Field

/-!
# Placing a new field in a block

Two lists of keys steer where a new field goes. It stands after the last field named in `after` and
that field's own value, and in any case above the first field named in `before`. Without such a
neighbour it closes the run of fields. Whether the field is already there is not asked here.
-/

namespace TaskTidy

/-- The keys that a new field follows and the keys that it precedes. -/
structure Anchors where
  after : List (List Char)
  before : List (List Char)
  deriving DecidableEq

namespace Buffer

/-- The depth of a new field: the measured depth of the fields; in a block without an entry the
content column of a list item, or one indentation step below any other start line. -/
def childDepth (b : Buffer) (e : Extent) : Nat :=
  match b.fieldDepth? e with
  | some d => d
  | none =>
      let start := b.line e.start
      if start.kind = .item then start.column else start.depth + b.indentStep

/-- The index just past the last line of the run of fields at depth `d` that is not blank. -/
def runEnd (b : Buffer) (e : Extent) (d : Nat) : Nat :=
  let inRun := fun i => (b.line i).kind != .blank && d ≤ (b.line i).depth
  match ((b.fieldRun e d).filter inRun).getLast? with
  | some i => i + 1
  | none => e.start + 1

/-- Whether a line below a key of depth `d` belongs to its value, a sequence at the key's own column
included. -/
def isInsideSequence (d : Nat) (l : Line) : Bool :=
  l.isInside d || (l.kind = .item && l.depth = d)

/-- The index just past the field on line `i` and its value. -/
def fieldEnd (b : Buffer) (i : Nat) : Nat :=
  let l := b.line i
  if l.value?.isSome then lastContent i (b.runAfter i (Line.isInside l.depth))
  else lastContent i (b.runAfter i (isInsideSequence l.depth))

/-- The last field named in `after` above every field named in `before`. -/
def anchor? (a : Anchors) (fields : List Field) : Option Field :=
  (fields.takeWhile fun f => !a.before.contains f.key).reverse.find? fun f => a.after.contains f.key

/-- The first field named in `before`. -/
def barrier? (a : Anchors) (fields : List Field) : Option Field :=
  fields.find? fun f => a.before.contains f.key

/-- The index at which a new field of the block is inserted. -/
def insertionIndex (b : Buffer) (e : Extent) (a : Anchors) : Nat :=
  match anchor? a (b.fields e), barrier? a (b.fields e), b.fieldDepth? e with
  | some f, _, _ => b.fieldEnd f.index
  | none, some f, _ => f.index
  | none, none, some d => b.runEnd e d
  | none, none, none => b.contentEnd e

/-- The line of a field at a depth. -/
def fieldLine (depth : Nat) (key value : List Char) : Line :=
  List.replicate depth ' ' ++ key ++ ':' :: ' ' :: value

/-- The document with a new field in the block. -/
def injectField (b : Buffer) (e : Extent) (a : Anchors) (key value : List Char) : Buffer :=
  b.insertIdx (b.insertionIndex e a) (fieldLine (b.childDepth e) key value)

end Buffer

end TaskTidy

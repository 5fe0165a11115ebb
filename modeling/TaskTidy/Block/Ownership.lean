import TaskTidy.Block.Extent
import TaskTidy.Text.Search

/-!
# The surroundings of a line

A line belongs to a list item if it opens it or is a field at its content column. From the owning
item and from the ancestors follows where a line stands: directly in a task, among the arguments of
a module, or in the text of a block scalar.
-/

namespace TaskTidy

/-- The keys whose value is a list of tasks. -/
def taskListKeys : List (List Char) :=
  Text.keys ["tasks", "pre_tasks", "post_tasks", "handlers", "block", "rescue", "always"]

namespace Buffer

/-- The list item that line `i` opens or is a direct field of. -/
def owner? (b : Buffer) (i : Nat) : Option Nat :=
  let l := b.line i
  if l.kind = .item then some i
  else (b.parent? i).filter fun j =>
    let parent := b.line j
    parent.kind = .item && parent.column = l.depth

/-- A line opens a list item or is a direct field of one. -/
def isItemLevel (b : Buffer) (i : Nat) : Bool :=
  (b.owner? i).isSome

/-- Whether a list item carries a key, on its dash line or at its content column. -/
def itemHas (b : Buffer) (item : Nat) (key : List Char) : Bool :=
  let l := b.line item
  l.hasKey key ||
    (b.runAfter item (Line.isInside l.depth)).any fun field =>
      field.kind = .parameter && field.depth = l.column && field.hasKey key

/-- Whether the owner of line `i` carries a key. -/
def ownerHas (b : Buffer) (i : Nat) (key : List Char) : Bool :=
  match b.owner? i with
  | none => false
  | some item => b.itemHas item key

/-- The key of a list whose items stand at depth `d`, among the lines above, nearest first: a key
without a value at the same depth, or the first shallower line. Any other line at that depth ends
the search. -/
def listKeyAmong? (d : Nat) : List Line → Option Nat
  | [] => none
  | l :: above =>
      if !l.kind.isSignificant || d < l.depth then listKeyAmong? d above
      else if l.depth < d then some above.length
      else match l.kind with
        | .item => listKeyAmong? d above
        | .parameter => if l.value?.isNone then some above.length else none
        | _ => none

/-- The line a list item hangs off. -/
def listKey? (b : Buffer) (item : Nat) : Option Nat :=
  match listKeyAmong? (b.line item).depth (b.above item) with
  | some i => some i
  | none => b.parent? item

/-- Whether the owner of line `i` is a task or a play: an item of the outermost list or of a list of
tasks. -/
def inTaskList (b : Buffer) (i : Nat) : Bool :=
  match b.owner? i with
  | none => false
  | some item =>
      match b.listKey? item with
      | none => true
      | some key => (b.line key).hasKeyIn taskListKeys

/-- Whether line `i` is inside the value of a key: its parent is a parameter, or it is deeper than
the content column of an item with a key. -/
def isNested (b : Buffer) (i : Nat) : Bool :=
  match b.parent? i with
  | none => false
  | some j =>
      let parent := b.line j
      match parent.kind with
      | .parameter => true
      | .item => parent.key?.isSome && parent.column < (b.line i).depth
      | _ => false

/-- Whether line `i` is part of a block scalar: it is deeper than the content column of an ancestor
that opens one. -/
def inScalar (b : Buffer) (i : Nat) : Bool :=
  (b.ancestors i).any fun j =>
    (b.line j).column < (b.line i).depth && (b.line j).opensScalar

end Buffer

end TaskTidy

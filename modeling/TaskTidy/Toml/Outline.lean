import TaskTidy.Toml.Value

/-!
# Tables under construction

While a file is read, a table remembers how it was opened, because that decides what may still be
added to it. A key is given once, and a table is opened by one header at most. The finished outline
is a table of plain values.
-/

namespace TaskTidy.Toml

/-- How a table was opened. -/
inductive TableForm
  /-- By its own header. -/
  | header
  /-- On the way to a header below it. -/
  | implicit
  /-- By a dotted key. -/
  | dotted
  deriving DecidableEq, Repr

mutual

/-- What stands at a key of an unfinished table. -/
inductive Node
  | leaf (value : Value)
  | table (form : TableForm) (nodes : Outline)
  /-- Tables with the same header. The last one is open. -/
  | tables (earlier : List Value) (last : Outline)

/-- An unfinished table. -/
inductive Outline
  | nil
  | cons (key : String) (node : Node) (rest : Outline)

end

mutual

/-- The finished value of a node. -/
def Node.value : Node → Value
  | .leaf value => value
  | .table _ nodes => .table nodes.entries
  | .tables earlier last => .array (earlier ++ [.table last.entries])

/-- The finished entries of an outline. -/
def Outline.entries : Outline → Entries
  | .nil => .nil
  | .cons key node rest => .cons key node.value rest.entries

end

namespace Outline

/-- The node at a key. -/
def get? (key : String) : Outline → Option Node
  | .nil => none
  | .cons k node rest => if k = key then some node else get? key rest

/-- Put a node at a key, in place if there is one. -/
def set (key : String) (node : Node) : Outline → Outline
  | .nil => .cons key node .nil
  | .cons k old rest => if k = key then .cons k node rest else .cons k old (set key node rest)

/-- Give a value to a new key below a table. The tables on the way are opened by dotted keys; the
table that gets the value must be. -/
def assign : List String → Value → Outline → Option Outline
  | [], _, _ => none
  | [key], value, t => if (t.get? key).isSome then none else some (t.set key (.leaf value))
  | key :: next :: rest, value, t =>
      match t.get? key with
      | none =>
          (assign (next :: rest) value .nil).map fun child => t.set key (.table .dotted child)
      | some (.table form nodes) =>
          if form = .dotted ∨ (form = .implicit ∧ !rest.isEmpty) then
            (assign (next :: rest) value nodes).map fun child => t.set key (.table form child)
          else none
      | some (.tables earlier last) =>
          if rest.isEmpty then none
          else (assign (next :: rest) value last).map fun child =>
            t.set key (.tables earlier child)
      | some (.leaf _) => none

/-- Open the table of a header. -/
def openTable (key : String) (t : Outline) : Option Outline :=
  match t.get? key with
  | none => some (t.set key (.table .header .nil))
  | some (.table .implicit nodes) => some (t.set key (.table .header nodes))
  | some _ => none

/-- Open one more table of a repeated header. -/
def openRepeated (key : String) (t : Outline) : Option Outline :=
  match t.get? key with
  | none => some (t.set key (.tables [] .nil))
  | some (.tables earlier last) =>
      some (t.set key (.tables (earlier ++ [.table last.entries]) .nil))
  | some _ => none

/-- Open a table below the tables on the way to its header. -/
def openAt (opened : String → Outline → Option Outline) : List String → Outline → Option Outline
  | [], _ => none
  | [key], t => opened key t
  | key :: next :: rest, t =>
      match t.get? key with
      | none =>
          (openAt opened (next :: rest) .nil).map fun child => t.set key (.table .implicit child)
      | some (.table form nodes) =>
          (openAt opened (next :: rest) nodes).map fun child => t.set key (.table form child)
      | some (.tables earlier last) =>
          (openAt opened (next :: rest) last).map fun child => t.set key (.tables earlier child)
      | some (.leaf _) => none

/-- Give a value to a new key below the table of a header. -/
def assignBelow : List String → List String → Value → Outline → Option Outline
  | [], path, value, t => assign path value t
  | key :: rest, path, value, t =>
      match t.get? key with
      | some (.table form nodes) =>
          (assignBelow rest path value nodes).map fun child => t.set key (.table form child)
      | some (.tables earlier last) =>
          (assignBelow rest path value last).map fun child => t.set key (.tables earlier child)
      | _ => none

end Outline

end TaskTidy.Toml

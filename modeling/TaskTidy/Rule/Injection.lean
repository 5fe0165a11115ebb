import TaskTidy.Block.Placement
import TaskTidy.Rule.Basic

/-!
# Block rules

A target picks the start lines of a block rule. A field injection adds a missing field to a block; a
scoped rewrite replaces one line of a block. Both leave a block alone if their policy has no answer.
-/

namespace TaskTidy

/-- The start lines a block rule looks at. -/
inductive Target
  /-- Lines whose own key is one of these. -/
  | keys (wanted : List (List Char))
  /-- List items with one of these keys on the dash line or as a field. -/
  | itemsWithKey (wanted : List (List Char))
  deriving DecidableEq

/-- Whether the target picks the line at an index. -/
def Target.selects (b : Buffer) (i : Nat) : Target → Bool
  | .keys wanted => (b.line i).hasKeyIn wanted
  | .itemsWithKey wanted =>
      (b.line i).kind = .item &&
        ((b.line i).hasKeyIn wanted ||
          (b.fields ⟨i, b.stopOf i⟩).any fun f => wanted.contains f.key)

/-- A rule that adds `field` to blocks that lack it. -/
structure FieldInjection where
  name : String
  target : Target
  field : List Char
  anchors : Anchors
  value? : Buffer → Extent → Option (List Char)

namespace FieldInjection

/-- Whether a block has the field already, on its start line or inside. -/
def isSatisfied (r : FieldInjection) (b : Buffer) (e : Extent) : Bool :=
  (b.line e.start).hasKey r.field || b.hasField e r.field

/-- The insertion for a block that lacks the field. -/
def edit (r : FieldInjection) (b : Buffer) (e : Extent) : Option BlockEdit :=
  if r.isSatisfied b e then none
  else match r.value? b e with
    | none => none
    | some value =>
        some (.insert (b.insertionIndex e r.anchors)
          (Buffer.fieldLine (b.childDepth e) r.field value))

/-- The injection as a block rule. -/
def toBlockRule (r : FieldInjection) : BlockRule :=
  ⟨r.name, fun b i => r.target.selects b i, r.edit⟩

end FieldInjection

/-- A rule that replaces one line of a block. -/
structure ScopedRewrite where
  name : String
  target : Target
  rewrite? : Buffer → Extent → Option (Nat × Line)

namespace ScopedRewrite

/-- The replacement, unless it lies outside the block or changes nothing. -/
def edit (r : ScopedRewrite) (b : Buffer) (e : Extent) : Option BlockEdit :=
  match r.rewrite? b e with
  | none => none
  | some (i, l) =>
      if e.contains i && b.line i != l then some (.replace i l) else none

/-- The rewrite as a block rule. -/
def toBlockRule (r : ScopedRewrite) : BlockRule :=
  ⟨r.name, fun b i => r.target.selects b i, r.edit⟩

end ScopedRewrite

end TaskTidy

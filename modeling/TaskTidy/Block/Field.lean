import TaskTidy.Block.Extent
import TaskTidy.Text.Search

/-!
# Fields of a block

The fields of a block are its parameters at one depth, the depth of the first item or parameter
inside it. The run of fields ends at the first significant line that is shallower.
-/

namespace TaskTidy

/-- A parameter of a block: the index of its line and its key. -/
structure Field where
  index : Nat
  key : List Char
  deriving DecidableEq

namespace Buffer

/-- The depth of the fields of a block, measured at its first item or parameter. -/
def fieldDepth? (b : Buffer) (e : Extent) : Option Nat :=
  (e.interior.find? fun i => (b.line i).kind.isEntry).map fun i => (b.line i).depth

/-- The indexes below the start line up to the first significant line shallower than `d`. -/
def fieldRun (b : Buffer) (e : Extent) (d : Nat) : List Nat :=
  e.interior.takeWhile fun i => !(b.line i).kind.isSignificant || d ≤ (b.line i).depth

/-- The field on a line, if it is a parameter at depth `d`. -/
def fieldAt? (b : Buffer) (d i : Nat) : Option Field :=
  if (b.line i).kind = .parameter ∧ (b.line i).depth = d then
    (b.line i).key?.map fun key => ⟨i, key⟩
  else none

/-- The fields of a block, top down. -/
def fields (b : Buffer) (e : Extent) : List Field :=
  match b.fieldDepth? e with
  | none => []
  | some d => (b.fieldRun e d).filterMap (b.fieldAt? d)

/-- A field is a parameter of the interior at the measured depth, and its key is the key of its
line. -/
theorem of_mem_fields {b : Buffer} {e : Extent} {f : Field} (h : f ∈ b.fields e) :
    ∃ d, b.fieldDepth? e = some d ∧ f.index ∈ e.interior ∧ (b.line f.index).kind = .parameter ∧
      (b.line f.index).depth = d ∧ (b.line f.index).key? = some f.key := by
  unfold fields at h
  split at h
  · cases h
  · next d hd =>
      obtain ⟨i, hi, hf⟩ := List.mem_filterMap.1 h
      unfold fieldAt? at hf
      split at hf
      · next hk =>
          obtain ⟨key, hkey, rfl⟩ := Option.map_eq_some_iff.1 hf
          exact ⟨d, hd, (List.takeWhile_sublist _).mem hi, hk.1, hk.2, hkey⟩
      · cases hf

/-- The first field with the given key. -/
def field? (b : Buffer) (e : Extent) (key : List Char) : Option Field :=
  (b.fields e).find? fun f => f.key == key

/-- Whether the block has a field with the given key. -/
def hasField (b : Buffer) (e : Extent) (key : List Char) : Bool :=
  (b.fields e).any fun f => f.key == key

theorem hasField_iff {b : Buffer} {e : Extent} {key : List Char} :
    b.hasField e key = true ↔ ∃ f ∈ b.fields e, f.key = key := by
  simp [hasField]

/-- The value on the line of the first field with the given key. -/
def fieldValue? (b : Buffer) (e : Extent) (key : List Char) : Option (List Char) :=
  (b.field? e key).bind fun f => (b.line f.index).value?

/-- The first of the given keys that the block carries, on its start line or as a field, with the
index of its line. -/
def findKey? (b : Buffer) (e : Extent) (keys : List (List Char)) : Option Field :=
  if (b.line e.start).hasKeyIn keys then (b.line e.start).key?.map fun key => ⟨e.start, key⟩
  else (b.fields e).find? fun f => keys.contains f.key

/-- Whether some line of the block contains the text. -/
def blockContains (b : Buffer) (e : Extent) (text : List Char) : Bool :=
  (b.blockLines e).any fun l => Text.contains text l

end Buffer

end TaskTidy

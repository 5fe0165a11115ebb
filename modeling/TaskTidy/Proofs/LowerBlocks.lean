import TaskTidy.Proofs.Boundary
import TaskTidy.Rule.Injection
import TaskTidy.RuleSets.Command

/-!
# Blocks of the lower part of a document

What is read off a block of the lower part of a document is what the lower part alone says, with
every index moved by the number of lines above.
-/

namespace TaskTidy

/-- The block with `n` lines above it. -/
def Extent.lower (n : Nat) (e : Extent) : Extent :=
  ⟨n + e.start, n + e.stop⟩

@[simp] theorem Extent.start_lower (n : Nat) (e : Extent) : (e.lower n).start = n + e.start := rfl

@[simp] theorem Extent.stop_lower (n : Nat) (e : Extent) : (e.lower n).stop = n + e.stop := rfl

/-- The field with `n` lines above it. -/
def Field.lower (n : Nat) (f : Field) : Field :=
  ⟨n + f.index, f.key⟩

/-- The command with `n` lines above it. -/
def CommandLine.lower (n : Nat) (command : CommandLine) : CommandLine :=
  { command with index := n + command.index }

/-- The edit with `n` lines above it. -/
def BlockEdit.lower (n : Nat) : BlockEdit → BlockEdit
  | .insert k l => .insert (n + k) l
  | .replace k l => .replace (n + k) l

theorem Extent.interior_lower (n : Nat) (e : Extent) :
    (e.lower n).interior = e.interior.map (n + ·) := by
  rw [interior, interior, start_lower, stop_lower, List.map_add_range']
  congr 1
  omega

theorem Extent.contains_lower (n : Nat) (e : Extent) (k : Nat) :
    (e.lower n).contains (n + k) = e.contains k := by
  simp [contains]

namespace Buffer

variable (b c : Buffer) (e : Extent)

/-! ### Fields -/

theorem interiorLines_append_right :
    Buffer.interiorLines (b ++ c) (e.lower b.length) = c.interiorLines e := by
  rw [interiorLines, interiorLines, Extent.start_lower, Extent.stop_lower, Nat.add_assoc,
    drop_append_right]
  congr 1
  omega

theorem blockLines_append_right :
    Buffer.blockLines (b ++ c) (e.lower b.length) = c.blockLines e := by
  rw [blockLines, blockLines, Extent.start_lower, Extent.stop_lower, drop_append_right]
  congr 1
  omega

theorem fieldDepth?_append_right :
    Buffer.fieldDepth? (b ++ c) (e.lower b.length) = c.fieldDepth? e := by
  simp only [fieldDepth?, Extent.interior_lower, List.find?_map, Option.map_map, Function.comp_def,
    line_append_right]

theorem fieldRun_append_right (d : Nat) :
    Buffer.fieldRun (b ++ c) (e.lower b.length) d = (c.fieldRun e d).map (b.length + ·) := by
  simp only [fieldRun, Extent.interior_lower, List.takeWhile_map, Function.comp_def,
    line_append_right]

theorem fieldAt?_append_right (d i : Nat) :
    Buffer.fieldAt? (b ++ c) d (b.length + i) = (c.fieldAt? d i).map (Field.lower b.length) := by
  rw [fieldAt?, fieldAt?, line_append_right]
  split
  · rw [Option.map_map]
    rfl
  · rfl

theorem fields_append_right :
    Buffer.fields (b ++ c) (e.lower b.length) = (c.fields e).map (Field.lower b.length) := by
  rw [fields, fields, fieldDepth?_append_right]
  split
  · rfl
  · rw [fieldRun_append_right, List.filterMap_map, List.map_filterMap]
    congr 1
    funext i
    exact fieldAt?_append_right b c _ i

theorem any_fields_append_right (p : List Char → Bool) :
    ((Buffer.fields (b ++ c) (e.lower b.length)).any fun f => p f.key) =
      (c.fields e).any fun f => p f.key := by
  rw [fields_append_right, List.any_map]
  rfl

theorem fieldValue?_append_right (key : List Char) :
    Buffer.fieldValue? (b ++ c) (e.lower b.length) key = c.fieldValue? e key := by
  simp only [fieldValue?, field?, fields_append_right, List.find?_map, Function.comp_def,
    Field.lower]
  cases (c.fields e).find? fun f => f.key == key with
  | none => rfl
  | some f => exact congrArg Line.value? (line_append_right b c f.index)

theorem findKey?_append_right (keys : List (List Char)) :
    Buffer.findKey? (b ++ c) (e.lower b.length) keys =
      (c.findKey? e keys).map (Field.lower b.length) := by
  rw [findKey?, findKey?, Extent.start_lower, line_append_right]
  split
  · rw [Option.map_map]
    rfl
  · rw [fields_append_right, List.find?_map]
    rfl

/-! ### Commands -/

theorem valueLines_append_right (i : Nat) :
    Buffer.valueLines (b ++ c) (b.length + i) = (c.valueLines i).map (b.length + ·) := by
  rw [valueLines, valueLines, line_append_right, runAfter_append_right, List.map_add_range']
  rfl

theorem commandKey?_append_right (i : Nat) :
    Buffer.commandKey? (b ++ c) (b.length + i) = (c.commandKey? i).map (b.length + ·) := by
  rw [commandKey?, commandKey?, line_append_right]
  split
  · rfl
  · simp only [valueLines_append_right, List.find?_map, Function.comp_def, line_append_right]

theorem commandLine?_append_right (i : Nat) :
    Buffer.commandLine? (b ++ c) (b.length + i) =
      (c.commandLine? i).map (CommandLine.lower b.length) := by
  rw [commandLine?, commandLine?, commandKey?_append_right]
  cases c.commandKey? i with
  | none => rfl
  | some key =>
      simp only [Option.map_some, line_append_right]
      split
      · rfl
      · split
        · simp only [valueLines_append_right, List.find?_map, Option.map_map, Function.comp_def,
            line_append_right]
          rfl
        · rfl

theorem commandTexts_append_right (i : Nat) :
    Buffer.commandTexts (b ++ c) (b.length + i) = c.commandTexts i := by
  rw [commandTexts, commandTexts, commandKey?_append_right]
  cases c.commandKey? i with
  | none => rfl
  | some key =>
      simp only [Option.map_some, line_append_right, valueLines_append_right, List.map_map,
        Function.comp_def]

/-! ### Places -/

theorem fieldEnd_append_right (i : Nat) :
    Buffer.fieldEnd (b ++ c) (b.length + i) = b.length + c.fieldEnd i := by
  simp only [fieldEnd, line_append_right, runAfter_append_right, lastContent]
  split <;> omega

theorem contentEnd_append_right :
    Buffer.contentEnd (b ++ c) (e.lower b.length) = b.length + c.contentEnd e := by
  rw [contentEnd, contentEnd, interiorLines_append_right, lastContent, lastContent,
    Extent.start_lower]
  omega

theorem runEnd_append_right (d : Nat) :
    Buffer.runEnd (b ++ c) (e.lower b.length) d = b.length + c.runEnd e d := by
  simp only [runEnd, fieldRun_append_right, List.filter_map, Function.comp_def, line_append_right,
    List.getLast?_map, Extent.start_lower]
  cases ((c.fieldRun e d).filter fun i =>
    (c.line i).kind != .blank && d ≤ (c.line i).depth).getLast? <;> rfl

theorem anchor?_lower (a : Anchors) (n : Nat) (fields : List Field) :
    anchor? a (fields.map (Field.lower n)) = (anchor? a fields).map (Field.lower n) := by
  simp only [anchor?, List.takeWhile_map, ← List.map_reverse, List.find?_map]
  rfl

theorem barrier?_lower (a : Anchors) (n : Nat) (fields : List Field) :
    barrier? a (fields.map (Field.lower n)) = (barrier? a fields).map (Field.lower n) := by
  rw [barrier?, barrier?, List.find?_map]
  rfl

theorem insertionIndex_append_right (a : Anchors) :
    Buffer.insertionIndex (b ++ c) (e.lower b.length) a = b.length + c.insertionIndex e a := by
  rw [insertionIndex, insertionIndex, fields_append_right, fieldDepth?_append_right, anchor?_lower,
    barrier?_lower]
  cases anchor? a (c.fields e) with
  | some f => exact fieldEnd_append_right b c f.index
  | none =>
      cases barrier? a (c.fields e) with
      | some f => rfl
      | none =>
          cases c.fieldDepth? e with
          | some d => exact runEnd_append_right b c e d
          | none => exact contentEnd_append_right b c e

/-- A measured depth does not depend on the other lines of the document. -/
theorem childDepth_append_right_of_measured (hd : (c.fieldDepth? e).isSome = true) :
    Buffer.childDepth (b ++ c) (e.lower b.length) = c.childDepth e := by
  obtain ⟨d, hd⟩ := Option.isSome_iff_exists.1 hd
  simp only [childDepth, fieldDepth?_append_right, hd]

/-- The depth of a field of an item does not depend on the other lines of the document. -/
theorem childDepth_append_right (hitem : (c.line e.start).kind = .item) :
    Buffer.childDepth (b ++ c) (e.lower b.length) = c.childDepth e := by
  simp only [childDepth, fieldDepth?_append_right, Extent.start_lower, line_append_right, hitem,
    if_true]

end Buffer

end TaskTidy

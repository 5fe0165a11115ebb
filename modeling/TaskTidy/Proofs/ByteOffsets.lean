import TaskTidy.Line.Offset
import TaskTidy.Proofs.PlainPipes

/-!
# The views of one line

The key, the value, the offset of the value and the two columns of a line are read off the line one
by one, in characters or in bytes. They are views of the same cut: a line that has a value has a
key, and the bytes from the offset on are the value and the blanks at the end of the line.
-/

namespace TaskTidy

namespace Line

open Text.Utf8

variable {l : Line}

theorem column_le_length (l : Line) : l.column ≤ l.length := by
  calc l.column
      = l.indentation.length + dashWidth l.unindented := column_eq l
    _ ≤ l.indentation.length + l.unindented.length :=
        Nat.add_le_add_left (dashWidth_le_length _) _
    _ = l.length := by rw [← List.length_append, indentation_append_unindented]

/-- Blanks that indent and dashes take one byte each. -/
theorem utf8Size_of_mem_take_column {c : Char} (h : c ∈ l.take l.column) : c.utf8Size = 1 := by
  rcases of_mem_take_column h with hindent | rfl
  · rcases Text.isIndent_iff.1 hindent with rfl | rfl <;> rfl
  · rfl

/-- Down to the column a line has as many bytes as characters. -/
theorem size_take {n : Nat} (h : n ≤ l.column) : size (l.take n) = n := by
  rw [size_eq_length, List.length_take, Nat.min_eq_left (Nat.le_trans h (column_le_length l))]
  intro c hc
  exact utf8Size_of_mem_take_column ((List.take_prefix_take_left h).subset hc)

/-- Every character down to the column is reached at its number of bytes. -/
theorem drop?_eq_drop {n : Nat} (h : n ≤ l.column) : drop? n l = some (l.drop n) :=
  drop?_eq_some_iff.2 ⟨l.take n, (List.take_append_drop n l).symm, size_take h⟩

/-- The offset of a value counts the bytes in front of it. -/
theorem HasValue.valueOffset?_eq {key head blanks rest : List Char} {c : Char}
    (h : HasValue l key head blanks c rest) :
    l.valueOffset? = some (size (l.take l.column ++ (head ++ blanks))) := by
  have hbody : drop? l.column l = some l.body := drop?_eq_drop (Nat.le_refl _)
  simp only [valueOffset?, hbody, h.entryOf?_body, h.allBlank_eq, Bool.false_eq_true, if_false,
    h.trimStart_eq]
  rw [h.body_eq]
  simp only [size_append, size_take (Nat.le_refl l.column)]
  rw [Nat.add_sub_cancel, Nat.add_sub_cancel, Nat.add_assoc]

theorem isSome_value?_eq (l : Line) : l.value?.isSome = l.valueOffset?.isSome := by
  have hbody : drop? l.column l = some l.body := drop?_eq_drop (Nat.le_refl _)
  simp only [value?, valueOffset?, hbody]
  cases entryOf? l.body with
  | none => rfl
  | some entry => cases hblank : Text.allBlank entry.rest <;> simp only [hblank] <;> rfl

/-- The value of a line starts at byte `n`: the line has a key, the byte lies within the line, at
the start of a character, and the rest of the line from there is the value with the blanks behind
it. There the line is cut in front of its value. -/
structure StartsValue (l : Line) (n : Nat) : Prop where
  isSome_key? : l.key?.isSome = true
  pos : 0 < n
  lt_size : n < size l
  exists_rest : ∃ before rest, drop? n l = some rest ∧ l.value? = some (Text.trimEnd rest) ∧
    l.splitAtValue? = some (before, rest) ∧ size before = n

theorem HasValue.startsValue {key head blanks rest : List Char} {c : Char}
    (h : HasValue l key head blanks c rest) :
    l.StartsValue (size (l.take l.column ++ (head ++ blanks))) where
  isSome_key? := by rw [h.key?_eq, Option.isSome_some]
  pos := by
    apply size_pos
    exact List.ne_nil_of_mem (List.mem_append_right _ (List.mem_append_left _ h.colon_mem))
  lt_size := by
    have hrest : 0 < size (c :: rest) := size_pos (List.cons_ne_nil c rest)
    have hsize := congrArg size h.line_eq
    rw [size_append] at hsize
    omega
  exists_rest := by
    refine ⟨_, c :: rest, drop?_eq_some_iff.2 ⟨_, h.line_eq, rfl⟩, ?_, h.splitAtValue?_eq, rfl⟩
    rw [h.value?_eq, Text.trimEnd]
    exact congrArg some (Text.dropEndWhile_append_cons (s := []) h.isBlank_eq).symm

theorem startsValue_of_valueOffset? {n : Nat} (h : l.valueOffset? = some n) :
    l.StartsValue n := by
  obtain ⟨text, htext⟩ : ∃ text, l.value? = some text := by
    rw [← Option.isSome_iff_exists, isSome_value?_eq, h, Option.isSome_some]
  obtain ⟨key, head, blanks, c, rest, hl⟩ := exists_hasValue htext
  obtain rfl := Option.some.inj (hl.valueOffset?_eq.symm.trans h)
  exact hl.startsValue

/-- The views of a line agree: it has a value if it has an offset of a value, and then the value
starts at that byte; the indentation ends at the depth, the body starts at the column, both at the
start of a character, and in an item the dash stands between them. -/
theorem views_agree (l : Line) :
    l.value?.isSome = l.valueOffset?.isSome ∧ (∀ n, l.valueOffset? = some n → l.StartsValue n) ∧
      l.depth ≤ l.column ∧ drop? l.depth l = some l.unindented ∧
        drop? l.column l = some l.body ∧ (l.kind = .item → l.depth < l.column) := by
  refine ⟨isSome_value?_eq l, fun _ => startsValue_of_valueOffset?, depth_le_column l, ?_,
    drop?_eq_drop (Nat.le_refl _), depth_lt_column_of_item⟩
  rw [drop?_eq_drop (depth_le_column l), drop_depth]

/-- A letter of two bytes in the key puts the value at byte 8, which is its character 7. -/
theorem views_agree_accent :
    valueOffset? "- clé: ls ".toList = some 8 ∧ StartsValue "- clé: ls ".toList 8 ∧
      kind "- clé: ls ".toList = .item ∧
        depth "- clé: ls ".toList < column "- clé: ls ".toList := by
  have hoffset : valueOffset? "- clé: ls ".toList = some 8 := by decide
  have hitem : kind "- clé: ls ".toList = .item := by decide
  obtain ⟨_, hvalue, _, _, _, hdash⟩ := views_agree "- clé: ls ".toList
  exact ⟨hoffset, hvalue 8 hoffset, hitem, hdash hitem⟩

end Line

end TaskTidy

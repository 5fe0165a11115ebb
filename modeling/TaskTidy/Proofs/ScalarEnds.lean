import Mathlib.Data.List.DropRight
import TaskTidy.Proofs.Parents
import TaskTidy.Proofs.Placement
import TaskTidy.Proofs.ScalarGuards

/-!
# Block scalars around an inserted line

The text of a block scalar ends with its last line that is not blank. It is the same text when a
line is inserted above its header, or behind the text unless the new line would continue it. What
the lines of the text belong to is decided below the header, so it does not change either.
-/

namespace TaskTidy.Buffer

/-- The text of a block scalar: the value of its header without the blank lines at the end. -/
def scalarText (b : Buffer) (h : Nat) : List Line :=
  (b.runAfter h (Line.isInside (b.line h).column)).rdropWhile Text.allBlank

/-- The index just past the text. -/
def scalarEnd (b : Buffer) (h : Nat) : Nat :=
  h + 1 + (b.scalarText h).length

/-- The index just past the value, with the blank lines behind the text. -/
def valueEnd (b : Buffer) (h : Nat) : Nat :=
  h + 1 + (b.runAfter h (Line.isInside (b.line h).column)).length

variable {b : Buffer} {h i j k p : Nat} {x : Line}

theorem lt_valueEnd_iff (hj : h < j) :
    j < b.valueEnd h ↔
      j < b.length ∧ ∀ k, h < k → k ≤ j → (b.line k).isInside (b.line h).column = true :=
  lt_runAfter_iff hj

theorem mem_valueLines_iff_lt_valueEnd : j ∈ b.valueLines h ↔ h < j ∧ j < b.valueEnd h := by
  rw [valueLines, List.mem_range'_1, valueEnd]
  omega

theorem scalarEnd_le_valueEnd (b : Buffer) (h : Nat) : b.scalarEnd h ≤ b.valueEnd h :=
  Nat.add_le_add_left (List.rdropWhile_prefix _ _).length_le _

/-- The value of a header lies in its block. -/
theorem valueEnd_le_stopOf (b : Buffer) (h : Nat) : b.valueEnd h ≤ b.stopOf h := by
  apply runAfter_le_stopOf (Nat.le_refl h) (b.lt_stopOf h)
  intro l hl
  exact Line.isInside_of_le (b.line h).depth_le_column hl

/-- Behind the text only blank lines belong to the value. -/
theorem allBlank_of_scalarEnd_le (hk : b.scalarEnd h ≤ k) (hlt : k < b.valueEnd h) :
    Text.allBlank (b.line k) = true := by
  refine allBlank_of_lastContent_le ?_ hlt
  rw [lastContent]
  rwa [scalarEnd, scalarText, List.rdropWhile, List.length_reverse] at hk

/-- The last line of the text. -/
theorem getLast?_scalarText (hend : h + 1 < b.scalarEnd h) :
    (b.scalarText h).getLast? = some (b.line (b.scalarEnd h - 1)) ∧
      Text.allBlank (b.line (b.scalarEnd h - 1)) = false := by
  have hlen : 0 < (b.scalarText h).length := by
    rw [scalarEnd] at hend
    omega
  have hne : b.scalarText h ≠ [] := List.ne_nil_of_length_pos hlen
  have hprefix : b.scalarText h <+: b.runAfter h (Line.isInside (b.line h).column) :=
    List.rdropWhile_prefix _ _
  have hlast : (b.scalarText h).getLast hne = b.line (b.scalarEnd h - 1) := by
    rw [List.getLast_eq_getElem, hprefix.getElem, getElem_runAfter, scalarEnd]
    congr 1
    omega
  constructor
  · rw [List.getLast?_eq_some_getLast hne, hlast]
  · rw [← hlast, ← Bool.not_eq_true]
    exact List.rdropWhile_last_not _ _ hne

/-! ### Insertions above the header -/

section

variable (hp : p ≤ b.length) (hph : p ≤ h)

include hp hph

theorem runAfter_insertIdx_of_le (q : Line → Bool) :
    Buffer.runAfter (b.insertIdx p x) (h + 1) q = b.runAfter h q := by
  rw [runAfter, runAfter, drop_insertIdx_of_le hp x (Nat.le_succ_of_le hph)]

theorem scalarText_insertIdx_of_le :
    Buffer.scalarText (b.insertIdx p x) (h + 1) = b.scalarText h := by
  rw [scalarText, scalarText, line_insertIdx_of_le hp x hph, runAfter_insertIdx_of_le hp hph]

theorem exists_of_mem_valueLines_insertIdx
    (hj : j ∈ Buffer.valueLines (b.insertIdx p x) (h + 1)) :
    ∃ i ∈ b.valueLines h, j = i + 1 := by
  rw [valueLines, List.mem_range'_1, line_insertIdx_of_le hp x hph,
    runAfter_insertIdx_of_le hp hph] at hj
  refine ⟨j - 1, ?_, by omega⟩
  rw [valueLines, List.mem_range'_1]
  omega

section

variable (hh : (b.line h).opensScalar = true) (hj : j ∈ b.valueLines h)
  (htext : Text.allBlank (b.line j) = false)

include hh hj htext

/-- The parent of a line of text is found below the header. -/
private theorem parent?_insertIdx_of_mem_valueLines :
    Buffer.parent? (b.insertIdx p x) (j + 1) = (b.parent? j).map (shift p) := by
  obtain ⟨hhj, _, _⟩ := mem_valueLines_iff.1 hj
  have hshift := parent?_insertIdx_shift hp x j
  rw [shift_of_le (Nat.le_trans hph (Nat.le_of_lt hhj))] at hshift
  rcases hshift with hshift | ⟨_, _, _, habove⟩
  · exact hshift
  · obtain ⟨k, _, hparent, hk⟩ := exists_parent?_of_mem_valueLines hh hj htext
    have hkp := lastBefore?_lt (habove.symm.trans hparent)
    rcases hk with rfl | ⟨hk, _⟩
    · omega
    · have := (mem_valueLines_iff.1 hk).1
      omega

/-- The list of an item in the text is found below the header. -/
private theorem listKey?_insertIdx_of_mem_valueLines :
    Buffer.listKey? (b.insertIdx p x) (j + 1) = (b.listKey? j).map (shift p) := by
  obtain ⟨hhj, hlen, _⟩ := mem_valueLines_iff.1 hj
  have hpj : p ≤ j := Nat.le_trans hph (Nat.le_of_lt hhj)
  obtain ⟨habove, habove'⟩ := above_insertIdx hp x hpj
  have hmem : b.line h ∈ ((b.take j).drop p).reverse := by
    rw [List.mem_reverse]
    refine List.mem_of_getElem? (i := h - p) ?_
    rw [List.getElem?_drop, Nat.add_sub_cancel' hph, List.getElem?_take_of_lt hhj,
      List.getElem?_eq_getElem (Nat.lt_trans hhj hlen), line_eq_getElem b h]
  have hencloses := encloses_of_opensScalar hh (column_lt_depth_of_mem_valueLines hj htext)
  rw [encloses, Bool.and_eq_true, decide_eq_true_eq] at hencloses
  have hamong : listKeyAmong? (Buffer.line (b.insertIdx p x) (j + 1)).depth
      (Buffer.above (b.insertIdx p x) (j + 1)) =
        (listKeyAmong? (b.line j).depth (b.above j)).map (shift p) := by
    rw [line_insertIdx_of_le hp x hpj, habove, habove',
      listKeyAmong?_insert fun _ => ⟨_, hmem, hencloses⟩, length_above hp]
  rw [listKey?, listKey?, hamong]
  cases listKeyAmong? (b.line j).depth (b.above j) with
  | none => exact parent?_insertIdx_of_mem_valueLines hp hph hh hj htext
  | some k => rfl

/-- What a line of text belongs to is decided below the header. -/
theorem isTask_insertIdx_of_mem_valueLines {stop stop' : Nat} :
    Buffer.isTask (b.insertIdx p x) ⟨j + 1, stop'⟩ = b.isTask ⟨j, stop⟩ := by
  have hpj : p ≤ j := Nat.le_trans hph (Nat.le_of_lt (mem_valueLines_iff.1 hj).1)
  have hparent := parent?_insertIdx_of_mem_valueLines (x := x) hp hph hh hj htext
  apply isTask_insertIdx_of_owner? hp (owner?_insertIdx hp hpj hparent)
  intro item howner _
  obtain ⟨hitem, hitext⟩ := mem_valueLines_of_owner? hh hj htext howner
  exact listKey?_insertIdx_of_mem_valueLines hp hph hh hitem hitext

end

end

/-! ### Insertions behind the text -/

private theorem rdropWhile_take {q : Line → Bool} {lines : List Line} {n : Nat}
    (hq : ∀ l ∈ lines.drop n, q l = true) :
    (lines.take n).rdropWhile q = lines.rdropWhile q := by
  conv_rhs => rw [← List.take_append_drop n lines]
  rw [List.rdropWhile, List.rdropWhile, List.reverse_append,
    List.dropWhile_append_of_pos (by simpa using hq)]

section

variable (hp : p ≤ b.length) (hhp : h < p)
  (hx : p ≤ b.valueEnd h → x.isInside (b.line h).column = false)

include hp hhp hx

/-- The value ends above the inserted line. -/
theorem valueEnd_insertIdx_le : Buffer.valueEnd (b.insertIdx p x) h ≤ p := by
  apply Nat.le_of_not_lt
  intro hlt
  have hall := ((lt_valueEnd_iff hhp).1 hlt).2
  rw [line_insertIdx_of_lt hp x hhp] at hall
  have hend : b.valueEnd h < p := by
    apply Nat.lt_of_not_le
    intro hle
    have hself := hall p hhp (Nat.le_refl p)
    rw [line_insertIdx_self hp, hx hle] at hself
    cases hself
  have hhe : h < b.valueEnd h := by
    rw [valueEnd]
    omega
  refine absurd ((lt_valueEnd_iff hhe).2 ⟨Nat.lt_of_lt_of_le hend hp, fun k hhk hke => ?_⟩)
    (Nat.lt_irrefl _)
  have hk := hall k hhk (Nat.le_of_lt (Nat.lt_of_le_of_lt hke hend))
  rwa [line_insertIdx_of_lt hp x (Nat.lt_of_le_of_lt hke hend)] at hk

/-- The lines of the value after the insertion were lines of the value above the place. -/
theorem of_mem_valueLines_insertIdx (hj : j ∈ Buffer.valueLines (b.insertIdx p x) h) :
    j < p ∧ j ∈ b.valueLines h := by
  obtain ⟨hhj, hje⟩ := mem_valueLines_iff_lt_valueEnd.1 hj
  have hjp := Nat.lt_of_lt_of_le hje (valueEnd_insertIdx_le hp hhp hx)
  obtain ⟨_, hall⟩ := (lt_valueEnd_iff hhj).1 hje
  refine ⟨hjp, mem_valueLines_iff.2 ⟨hhj, Nat.lt_of_lt_of_le hjp hp, fun k hhk hkj => ?_⟩⟩
  have hk := hall k hhk hkj
  rwa [line_insertIdx_of_lt hp x hhp,
    line_insertIdx_of_lt hp x (Nat.lt_of_le_of_lt hkj hjp)] at hk

theorem scalarText_insertIdx_of_lt (hend : b.scalarEnd h ≤ p) :
    Buffer.scalarText (b.insertIdx p x) h = b.scalarText h := by
  have hrun : Buffer.runAfter (b.insertIdx p x) h (Line.isInside (b.line h).column) =
      (b.runAfter h (Line.isInside (b.line h).column)).take (p - (h + 1)) := by
    have hle := valueEnd_insertIdx_le hp hhp hx
    rw [valueEnd, line_insertIdx_of_lt hp x hhp] at hle
    rw [← runAfter_take hle, take_insertIdx hp x (Nat.le_refl p), runAfter, runAfter,
      List.drop_take, List.take_takeWhile]
  rw [scalarText, scalarText, line_insertIdx_of_lt hp x hhp, hrun]
  apply rdropWhile_take
  intro l hl
  obtain ⟨m, hm, rfl⟩ := List.getElem_of_mem hl
  rw [List.length_drop] at hm
  rw [List.getElem_drop, getElem_runAfter]
  apply allBlank_of_scalarEnd_le (h := h)
  · omega
  · rw [valueEnd]
    omega

end

end TaskTidy.Buffer

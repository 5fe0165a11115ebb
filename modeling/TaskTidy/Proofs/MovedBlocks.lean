import TaskTidy.Proofs.BlockSeparation
import TaskTidy.Proofs.Leaves

/-!
# Blocks below an inserted line

A block below an inserted line moves down by one line. If the inserted line is a leaf, the block
belongs to the same task, and then a file module with measured fields gets its mode at the same
place.
-/

namespace TaskTidy

/-- One more line above moves an answer down by one more line. -/
theorem BlockEdit.map_lower_succ (n : Nat) (answer : Option BlockEdit) :
    answer.map (BlockEdit.lower (n + 1)) = (answer.map (BlockEdit.lower n)).map (.lower 1) := by
  rw [Option.map_map]
  refine congrArg (Option.map · answer) (funext fun edit => ?_)
  cases edit <;> simp only [Function.comp_apply, lower, Nat.add_comm n 1, Nat.add_assoc]

theorem BlockRule.answer?_append_right (r : BlockRule) (u w : Buffer) (k : Nat) :
    r.answer? (u ++ w) (u.length + k) =
      if r.selects (u ++ w) (u.length + k) then
        r.edit (u ++ w) (Extent.lower u.length ⟨k, w.stopOf k⟩) else none := by
  rw [BlockRule.answer?, Buffer.stopOf_append_right]
  rfl

namespace Buffer

/-- A document with a line inserted, as the lines above and below the place. -/
theorem exists_append_insertIdx {b : Buffer} {p j : Nat} (hp : p ≤ b.length) (hpj : p ≤ j)
    (x : Line) : ∃ u w k, u.length = p ∧ b = u ++ w ∧ b.insertIdx p x = (u ++ [x]) ++ w ∧
      j = u.length + k := by
  have hlen : (b.take p).length = p := by rw [List.length_take, Nat.min_eq_left hp]
  refine ⟨b.take p, b.drop p, j - p, hlen, (List.take_append_drop p b).symm, ?_, by omega⟩
  rw [insertIdx_eq hp, List.append_assoc, List.singleton_append]

end Buffer

section

variable {u u' w : Buffer} {k : Nat}

/-- An injection with one more line above it, if the fields of the block are measured. -/
theorem FieldInjection.edit_append_succ {r : FieldInjection} {e : Extent}
    (hlen : u'.length = u.length + 1)
    (hvalue : r.value? (u' ++ w) (e.lower u'.length) = r.value? (u ++ w) (e.lower u.length))
    (hd : (w.fieldDepth? e).isSome = true) :
    r.edit (u' ++ w) (e.lower u'.length) = (r.edit (u ++ w) (e.lower u.length)).map (.lower 1) := by
  rw [edit_append_right (Buffer.childDepth_append_right_of_measured u' w e hd),
    edit_append_right (Buffer.childDepth_append_right_of_measured u w e hd), hvalue, hlen,
    BlockEdit.map_lower_succ]

namespace RuleSets

open Buffer

theorem modeFor?_append_right {e : Extent} (options : RuleOptions)
    (htask : Buffer.isTask (u' ++ w) (e.lower u'.length) =
      Buffer.isTask (u ++ w) (e.lower u.length)) :
    modeFor? options (u' ++ w) (e.lower u'.length) =
      modeFor? options (u ++ w) (e.lower u.length) := by
  simp only [modeFor?, takesNestedMode, hasField, htask, Extent.start_lower, line_append_right,
    fieldValue?_append_right, any_fields_append_right _ _ _ fun key => key == "recurse".toList]

/-- The mode of a file module below a leaf. -/
theorem answer?_insertIdx_explicitMode {b : Buffer} {p j : Nat} {x : Line} (options : RuleOptions)
    (hleaf : b.IsLeaf p x) (hp : p ≤ b.length) (hpj : p ≤ j)
    (hsig : (b.line j).kind.isSignificant = true)
    (hd : (b.fieldDepth? ⟨j, b.stopOf j⟩).isSome = true) :
    (explicitMode options).toBlockRule.answer? (b.insertIdx p x) (j + 1) =
      ((explicitMode options).toBlockRule.answer? b j).map (.lower 1) := by
  have htask : Buffer.isTask (b.insertIdx p x) ⟨j + 1, Buffer.stopOf (b.insertIdx p x) (j + 1)⟩ =
      b.isTask ⟨j, b.stopOf j⟩ := hleaf.isTask_eq hp hpj hsig
  obtain ⟨u, w, k, rfl, rfl, hinsert, rfl⟩ := exists_append_insertIdx hp hpj x
  have hlen : (u ++ [x]).length = u.length + 1 := List.length_append
  have hindex : u.length + k + 1 = (u ++ [x]).length + k := by
    rw [hlen]
    omega
  rw [hinsert, hindex, stopOf_append_right, stopOf_append_right] at htask
  rw [stopOf_append_right] at hd
  have hselects : (explicitMode options).toBlockRule.selects ((u ++ [x]) ++ w)
        ((u ++ [x]).length + k) =
      (explicitMode options).toBlockRule.selects (u ++ w) (u.length + k) := by
    simp only [explicitMode, FieldInjection.toBlockRule, Target.selects, line_append_right]
  rw [hinsert, hindex, BlockRule.answer?_append_right, BlockRule.answer?_append_right, hselects]
  by_cases hs : (explicitMode options).toBlockRule.selects (u ++ w) (u.length + k) = true
  · rw [if_pos hs, if_pos hs]
    refine FieldInjection.edit_append_succ hlen (modeFor?_append_right options htask) ?_
    rwa [← fieldDepth?_append_right u w]
  · rw [if_neg hs, if_neg hs]
    rfl

end RuleSets

end

end TaskTidy

import TaskTidy.Proofs.CommandTexts
import TaskTidy.Proofs.IdleLines
import TaskTidy.Proofs.MovedBlocks
import TaskTidy.Proofs.ScalarInjections

/-!
# Marks and modes

A mode that is given in a block further down does not make a task ask for a mark, and it does not
move the mark if that block starts below the task. A mark without a value does not make a file
module ask for a mode.
-/

namespace TaskTidy.RuleSets

open Buffer

variable {options : RuleOptions} {b : Buffer} {i j p q : Nat} {x y : Line}

/-! ### Modes below a task -/

section

variable (hy : Injects.At (explicitMode options) b j q y)

include hy

/-- The line of a mode holds no command. -/
theorem not_command_of_mode : isCmd y = false ∧ isReadOnlyText (Text.trim y) = false := by
  have hinj := injects_explicitMode options
  constructor
  · rw [isCmd, Line.hasKey, hy.key?_eq hinj.isBareKey]
    simp [explicitMode]
  · obtain ⟨value, _, rfl⟩ := hy.isLine
    have hun := Buffer.unindented_fieldLine hinj.isBareKey
      (b.childDepth ⟨j, b.stopOf j⟩) value
    rw [Line.trim_of_unindented (c := 'm') hun (by decide)]
    exact isReadOnlyText_append (List.cons_ne_nil 'm' [])
      (by simp [Text.isBlank]) (by decide) rfl

/-- A mode further down does not make a task ask for a mark. -/
theorem isSome_readOnlyCommand_of_mode (hij : i < j)
    (h : (readOnlyCommand.toBlockRule.answer? (b.insertIdx q y) i).isSome = true) :
    (readOnlyCommand.toBlockRule.answer? b i).isSome = true := by
  have hinj := injects_explicitMode options
  have hiq : i < q := Nat.lt_trans hij hy.isPlace.1
  obtain ⟨hcmd, htext⟩ := not_command_of_mode hy
  obtain ⟨htask, hasks⟩ := injects_readOnlyCommand.of_isSome h
  rw [injects_readOnlyCommand.isSome_answer?, Bool.and_eq_true]
  constructor
  · rwa [← isTask_insertIdx_of_lt hy.le_length hiq]
  · rw [line_insertIdx_of_lt hy.le_length y hiq, drop_insertIdx_of_lt hy.le_length y hiq] at hasks
    rw [drop_of_lt hiq]
    exact asksForChangedWhen_insert hcmd htext
      (.of_isEntry (hy.line_mem hij) hy.isEntry (hy.depth_lt hinj.isBareKey)) hasks

/-- A block that ends above a line where another starts keeps its extent. -/
theorem stopOf_insertIdx_of_mode (hij : b.stopOf i ≤ j) :
    Buffer.stopOf (b.insertIdx q y) i = b.stopOf i := by
  have hjq := hy.isPlace.1
  have hi := lt_stopOf b i
  have hstop : b.stopOf i < q := Nat.lt_of_le_of_lt hij hjq
  have hle (k : Nat) (hk : k < q) := lt_stopOf_insertIdx_of_lt (x := y) hy.le_length
    (Nat.lt_trans hi hstop) hk
  have hlast := hle (b.stopOf i - 1) (by omega)
  have hnext := hle (b.stopOf i) hstop
  omega

/-- A mode in a block below a task leaves the mark of the task. -/
theorem answer?_readOnlyCommand_of_mode (hij : b.stopOf i ≤ j) :
    readOnlyCommand.toBlockRule.answer? (b.insertIdx q y) i =
      readOnlyCommand.toBlockRule.answer? b i := by
  have hstop := stopOf_insertIdx_of_mode hy hij
  have hjq := hy.isPlace.1
  rw [← answer?_take_readOnlyCommand (Nat.le_refl (Buffer.stopOf (b.insertIdx q y) i)), hstop,
    take_insertIdx hy.le_length y (by omega), answer?_take_readOnlyCommand (Nat.le_refl _)]

end

/-! ### Marks around a file module -/

/-- A file module that holds the command of its task measures its fields. -/
theorem exists_entryDepth? {l : Line} {below : List Line} (hkeys : l.hasKeyIn fileModules = true)
    (h : asksForChangedWhen l below = true) : ∃ d, entryDepth? l.depth below = some d := by
  simp only [asksForChangedWhen, Bool.and_eq_true, Bool.or_eq_true] at h
  obtain ⟨⟨⟨_, hown | hfield⟩, _⟩, _⟩ := h
  · obtain ⟨key, hmem, hkey⟩ := Line.hasKeyIn_iff.1 hown
    obtain ⟨key', hmem', hkey'⟩ := Line.hasKeyIn_iff.1 hkeys
    cases Option.some.inj (hkey.symm.trans hkey')
    have hapart : ∀ key ∈ commandModules, key ∉ fileModules := by decide
    exact absurd hmem' (hapart key hmem)
  · rw [fieldBelow?] at hfield
    cases hd : entryDepth? l.depth below with
    | some d => exact ⟨d, rfl⟩
    | none =>
        rw [hd] at hfield
        cases hfield

/-- A file module below a leaf asks for a mode as before. -/
theorem isSome_explicitMode_insertIdx (hleaf : b.IsLeaf p x) (hp : p ≤ b.length) (hpj : p ≤ j) :
    ((explicitMode options).toBlockRule.answer? (b.insertIdx p x) (j + 1)).isSome =
      ((explicitMode options).toBlockRule.answer? b j).isSome := by
  have hinj := injects_explicitMode options
  rw [hinj.isSome_answer?, hinj.isSome_answer?, line_insertIdx_of_le hp x hpj,
    drop_insertIdx_of_le hp x (Nat.le_succ_of_le hpj)]
  cases hasks : asksForMode (b.line j) (b.drop (j + 1)) with
  | false => rw [Bool.and_false, Bool.and_false]
  | true => rw [hleaf.isTask_eq hp hpj (isSignificant_of_isEntry (hinj.isEntry hasks))]

section

variable (hx : Injects.At readOnlyCommand b i p x)
  (hsome : (readOnlyCommand.toBlockRule.answer? b i).isSome = true)

include hx hsome

/-- The task of a mark asks for a mode as before. -/
theorem asksForMode_of_mark_self
    (h : asksForMode (b.line i) ((b.drop (i + 1)).take (p - (i + 1)) ++ x :: b.drop p) = true) :
    asksForMode (b.line i) (b.drop (i + 1)) = true := by
  have hinj := injects_readOnlyCommand
  have hkeys : (b.line i).hasKeyIn fileModules = true := by
    simp only [asksForMode, Bool.and_eq_true] at h
    exact h.1.1
  obtain ⟨d, hd⟩ := exists_entryDepth? hkeys (hinj.of_isSome hsome).2
  have hdepth : x.depth = d := by
    rw [hx.depth_eq hinj.isBareKey, childDepth, fieldDepth?_eq, hd]
  have hall := hx.all_inRun hd
  rw [drop_of_lt hx.isPlace.1] at hd ⊢
  rw [← asksForMode_congr fun key hkey => ?_]
  · exact h
  · refine (findsSame_of_measured (hx.kind_eq hinj.isBareKey) hd hall hdepth ?_).map_eq id
    have hother : ∀ key ∈ Text.keys ["mode", "recurse", "state"],
        readOnlyCommand.field ∉ [key] := by decide
    rw [Line.hasKeyIn, hx.key?_eq hinj.isBareKey]
    simpa using hother key hkey

/-- A mark without a value does not make a file module ask for a mode. -/
theorem isSome_explicitMode_of_mark (hleaf : b.IsLeaf p x)
    (h : ((explicitMode options).toBlockRule.answer? (b.insertIdx p x) (shift p j)).isSome = true) :
    ((explicitMode options).toBlockRule.answer? b j).isSome = true := by
  rcases Nat.lt_or_ge j p with hjp | hpj
  · have hinj := injects_readOnlyCommand
    rw [shift_of_lt hjp] at h
    obtain ⟨htask, hasks⟩ := (injects_explicitMode options).of_isSome h
    have hentry := (injects_explicitMode options).isEntry hasks
    rw [line_insertIdx_of_lt hx.le_length x hjp] at hasks hentry
    rw [drop_insertIdx_of_lt hx.le_length x hjp] at hasks
    rw [(injects_explicitMode options).isSome_answer?, Bool.and_eq_true]
    refine ⟨by rwa [← isTask_insertIdx_of_lt hx.le_length hjp], ?_⟩
    by_cases hij : i = j
    · subst hij
      exact asksForMode_of_mark_self hx hsome hasks
    · rwa [asksForMode_insert (hx.keepsFields hinj.isBareKey hentry hij hjp), ← drop_of_lt hjp]
        at hasks
  · rwa [shift_of_le hpj, isSome_explicitMode_insertIdx hleaf hx.le_length hpj] at h

end

end TaskTidy.RuleSets

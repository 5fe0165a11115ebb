import TaskTidy.Proofs.Frames
import TaskTidy.Proofs.InjectingSets
import TaskTidy.Proofs.LineSeparation
import TaskTidy.Proofs.LowerBlocks

/-!
# Sets of block rules visit parts of a document alone

A block rule that gives the same answers in two parts of a document as in each part alone edits them
alike. For the commands of tasks this is so across a boundary of tasks: no block of the upper part
reaches across it, and a task of the lower part is one with the upper part above it.
-/

namespace TaskTidy

namespace BlockEdit

variable {b c : Buffer} {edit : BlockEdit}

theorem apply_append_left (h : edit.IsWithin b) (c : Buffer) :
    edit.apply (b ++ c) = edit.apply b ++ c := by
  cases edit with
  | insert k l =>
      have hk : k ≤ b.length := h
      rw [apply, apply, Buffer.insertIdx_eq hk, Buffer.insertIdx_eq (by simp; omega),
        List.take_append_of_le_length hk, List.drop_append_of_le_length hk]
      simp
  | replace k l =>
      have hk : k < b.length := h
      exact List.set_append_left k l hk

theorem logged_append_left (h : edit.IsWithin b) (name : String) (c : Buffer) :
    edit.logged name (b ++ c) = edit.logged name b := by
  cases edit with
  | insert k l => rfl
  | replace k l =>
      have hk : k < b.length := h
      rw [logged, logged, Buffer.line_append_left hk]

theorem isWithin_append_left (h : edit.IsWithin b) (c : Buffer) : edit.IsWithin (b ++ c) := by
  cases edit with
  | insert k l =>
      have hk : k ≤ b.length := h
      exact Nat.le_trans hk (by simp)
  | replace k l =>
      have hk : k < b.length := h
      exact Nat.lt_of_lt_of_le hk (by simp)

theorem apply_append_right (h : edit.IsWithin c) (b : Buffer) :
    (edit.lower b.length).apply (b ++ c) = b ++ edit.apply c := by
  cases edit with
  | insert k l =>
      have hk : k ≤ c.length := h
      rw [lower, apply, apply, Buffer.insertIdx_eq hk, Buffer.insertIdx_eq (by simp; omega),
        List.take_length_add_append, Buffer.drop_append_right, List.append_assoc]
  | replace k l =>
      rw [lower, apply, apply, List.set_append_right _ _ (Nat.le_add_right _ _),
        Nat.add_sub_cancel_left]

theorem logged_append_right (name : String) (b c : Buffer) (edit : BlockEdit) :
    (edit.lower b.length).logged name (b ++ c) =
      (edit.logged name c).map (Edit.lower b.length) := by
  cases edit with
  | insert k l => rfl
  | replace k l =>
      rw [lower, logged, logged, Buffer.line_append_right]
      split <;> rfl

theorem isWithin_append_right (h : edit.IsWithin c) (b : Buffer) :
    (edit.lower b.length).IsWithin (b ++ c) := by
  cases edit with
  | insert k l =>
      have hk : k ≤ c.length := h
      change b.length + k ≤ (b ++ c).length
      rw [List.length_append]
      omega
  | replace k l =>
      have hk : k < c.length := h
      change b.length + k < (b ++ c).length
      rw [List.length_append]
      omega

/-- The walk stays in the lines that an edit leaves. -/
theorem length_le_length_apply (edit : BlockEdit) (b : Buffer) :
    b.length ≤ (edit.apply b).length := by
  cases edit with
  | insert k l =>
      rw [apply, List.length_insertIdx]
      split <;> omega
  | replace k l => exact Nat.le_of_eq List.length_set.symm

end BlockEdit

namespace Pass

variable {s : RuleSet} {r : BlockRule} {apart : Buffer → Buffer → Prop}

/-- A block rule visits the parts alone if its answers are those of the parts, and its edits leave
the parts apart. -/
theorem separates_of_answer? (hl : s.lineRules = []) (hb : s.blockRules = [r])
    (hwithin : ∀ {b i edit}, i < b.length → r.answer? b i = some edit → edit.IsWithin b)
    (hleft : ∀ {b c i}, apart b c → i < b.length → r.answer? (b ++ c) i = r.answer? b i)
    (hright : ∀ {b c i}, apart b c → i < c.length →
      r.answer? (b ++ c) (b.length + i) = (r.answer? c i).map (BlockEdit.lower b.length))
    (hupper : ∀ {b c i edit}, apart b c → i < b.length → r.answer? b i = some edit →
      apart (edit.apply b) c)
    (hlower : ∀ {b c i edit}, apart b c → i < c.length → r.answer? c i = some edit →
      apart b (edit.apply c)) :
    Separates s apart where
  upper {b c i v} h hi hv := by
    have hi' : i < (b ++ c).length := Nat.lt_of_lt_of_le hi (by simp)
    have hanswer := hleft h hi
    rcases visit_cases_of_answer? hl hb hi hv (hwithin hi) with ⟨hnone, rfl⟩ | ⟨edit, hedit, rfl⟩
    · exact ⟨isQuiet_of_answer? hl hb hi' (hanswer.trans hnone), hi, h⟩
    · have hin := hwithin hi hedit
      have hvisit := visit_of_answer? hl hb hi' (hanswer.trans hedit)
        (BlockEdit.isWithin_append_left hin c)
      rw [BlockEdit.apply_append_left hin, BlockEdit.logged_append_left hin] at hvisit
      exact ⟨hvisit, Nat.le_trans hi (BlockEdit.length_le_length_apply edit b), hupper h hi hedit⟩
  lower {b c i v} h hi hv := by
    have hi' : b.length + i < (b ++ c).length := by
      rw [List.length_append]
      omega
    have hanswer := hright h hi
    rcases visit_cases_of_answer? hl hb hi hv (hwithin hi) with ⟨hnone, rfl⟩ | ⟨edit, hedit, rfl⟩
    · rw [hnone] at hanswer
      exact ⟨isQuiet_of_answer? hl hb hi' hanswer, h⟩
    · rw [hedit] at hanswer
      have hin := hwithin hi hedit
      have hvisit := visit_of_answer? hl hb hi' hanswer (BlockEdit.isWithin_append_right hin b)
      rw [BlockEdit.apply_append_right hin, BlockEdit.logged_append_right] at hvisit
      exact ⟨hvisit, hlower h hi hedit⟩

end Pass

namespace Buffer

variable {b : Buffer} {i n : Nat}

section

variable (hn : b.stopOf i ≤ n)

include hn

theorem fieldEnd_take {f : Field} (h : f ∈ b.fields ⟨i, b.stopOf i⟩) :
    Buffer.fieldEnd (b.take n) f.index = b.fieldEnd f.index := by
  have hstop := runAfter_le_of_mem_fields h fun _ hl => hl
  have hinside := runAfter_le_of_mem_fields h (p := Line.isInside (b.line f.index).depth)
    fun l hl => by rw [isInsideSequence, hl, Bool.true_or]
  have hline : Buffer.line (b.take n) f.index = b.line f.index := line_take b (by omega)
  simp only [fieldEnd, hline]
  rw [runAfter_take (Nat.le_trans hstop hn), runAfter_take (Nat.le_trans hinside hn)]

theorem runEnd_take (d : Nat) :
    Buffer.runEnd (b.take n) ⟨i, b.stopOf i⟩ d = b.runEnd ⟨i, b.stopOf i⟩ d := by
  have hfilter : (b.fieldRun ⟨i, b.stopOf i⟩ d).filter (fun k =>
        (Buffer.line (b.take n) k).kind != .blank && d ≤ (Buffer.line (b.take n) k).depth) =
      (b.fieldRun ⟨i, b.stopOf i⟩ d).filter fun k =>
        (b.line k).kind != .blank && d ≤ (b.line k).depth :=
    List.filter_congr fun k hk => by
      rw [line_take b (Nat.lt_of_lt_of_le (lt_stopOf_of_mem_fieldRun hk) hn)]
  rw [runEnd, runEnd, fieldRun_take (e := ⟨i, b.stopOf i⟩) hn, hfilter]

theorem contentEnd_take :
    Buffer.contentEnd (b.take n) ⟨i, b.stopOf i⟩ = b.contentEnd ⟨i, b.stopOf i⟩ := by
  rw [contentEnd, contentEnd, interiorLines, interiorLines, List.drop_take, List.take_take,
    Nat.min_eq_left (by dsimp only; omega)]

/-- The place of a new field is decided by the lines down to the end of the block. -/
theorem insertionIndex_take (a : Anchors) :
    Buffer.insertionIndex (b.take n) ⟨i, b.stopOf i⟩ a = b.insertionIndex ⟨i, b.stopOf i⟩ a := by
  rw [insertionIndex, insertionIndex, fields_take (e := ⟨i, b.stopOf i⟩) hn,
    fieldDepth?_take (e := ⟨i, b.stopOf i⟩) hn]
  split
  · next f hf =>
      have hmem := List.mem_of_find?_eq_some hf
      rw [List.mem_reverse] at hmem
      exact fieldEnd_take hn ((List.takeWhile_sublist _).mem hmem)
  · rfl
  · next d _ _ _ => exact runEnd_take hn d
  · exact contentEnd_take hn

/-- The depth of a new field of an item is decided by the lines down to the end of its block. -/
theorem childDepth_take (hitem : (b.line i).kind = .item) :
    Buffer.childDepth (b.take n) ⟨i, b.stopOf i⟩ = b.childDepth ⟨i, b.stopOf i⟩ := by
  have hi : i < n := Nat.lt_of_lt_of_le (lt_stopOf b i) hn
  simp only [childDepth, fieldDepth?_take (e := ⟨i, b.stopOf i⟩) hn, line_take b hi, hitem, if_true]

end

end Buffer

namespace FieldInjection

variable {r : FieldInjection} {b c : Buffer} {i n : Nat}

/-- An injection depends on the lines down to the end of the block if its value and the depth of its
field do. -/
theorem edit_take (hn : b.stopOf i ≤ n)
    (hvalue : r.value? (b.take n) ⟨i, b.stopOf i⟩ = r.value? b ⟨i, b.stopOf i⟩)
    (hdepth : Buffer.childDepth (b.take n) ⟨i, b.stopOf i⟩ = b.childDepth ⟨i, b.stopOf i⟩) :
    r.edit (b.take n) ⟨i, b.stopOf i⟩ = r.edit b ⟨i, b.stopOf i⟩ := by
  have hi : i < n := Nat.lt_of_lt_of_le (Buffer.lt_stopOf b i) hn
  have hsatisfied : r.isSatisfied (b.take n) ⟨i, b.stopOf i⟩ = r.isSatisfied b ⟨i, b.stopOf i⟩ := by
    rw [isSatisfied, isSatisfied, Buffer.line_take b hi, Buffer.hasField, Buffer.hasField,
      Buffer.fields_take (e := ⟨i, b.stopOf i⟩) hn]
  rw [edit, edit, hsatisfied, hvalue, hdepth, Buffer.insertionIndex_take hn]

/-- An injection into the lower part of a document, by its value and the lower part alone. -/
theorem edit_append_right {e : Extent}
    (hdepth : Buffer.childDepth (b ++ c) (e.lower b.length) = c.childDepth e) :
    r.edit (b ++ c) (e.lower b.length) =
      (if r.isSatisfied c e then none
        else (r.value? (b ++ c) (e.lower b.length)).map fun value =>
          BlockEdit.insert (c.insertionIndex e r.anchors)
            (Buffer.fieldLine (c.childDepth e) r.field value)).map (BlockEdit.lower b.length) := by
  have hsatisfied : r.isSatisfied (b ++ c) (e.lower b.length) = r.isSatisfied c e := by
    rw [isSatisfied, isSatisfied, Extent.start_lower, Buffer.line_append_right, Buffer.hasField,
      Buffer.hasField, Buffer.any_fields_append_right b c e (· == r.field)]
  rw [edit, hsatisfied, hdepth, Buffer.insertionIndex_append_right]
  split
  · rfl
  · cases r.value? (b ++ c) (e.lower b.length) <;> rfl

/-- An injection into the lower part of a document is that into the lower part alone, if it has the
value that it has there. -/
theorem edit_append_right_eq {e : Extent}
    (hvalue : r.value? (b ++ c) (e.lower b.length) = r.value? c e)
    (hdepth : Buffer.childDepth (b ++ c) (e.lower b.length) = c.childDepth e) :
    r.edit (b ++ c) (e.lower b.length) = (r.edit c e).map (BlockEdit.lower b.length) := by
  rw [edit_append_right hdepth, hvalue, edit]
  split
  · rfl
  · cases r.value? c e <;> rfl

end FieldInjection

/-- A rewrite in the lower part of a document is that in the lower part alone. -/
theorem ScopedRewrite.edit_append_right {r : ScopedRewrite} {b c : Buffer} {e : Extent}
    (h : r.rewrite? (b ++ c) (e.lower b.length) =
      (r.rewrite? c e).map fun (k, l) => (b.length + k, l)) :
    r.edit (b ++ c) (e.lower b.length) = (r.edit c e).map (BlockEdit.lower b.length) := by
  rw [edit, edit, h]
  rcases r.rewrite? c e with _ | ⟨k, l⟩
  · rfl
  · simp only [Option.map_some, Extent.contains_lower, Buffer.line_append_right]
    by_cases hk : (e.contains k && c.line k != l) = true
    · rw [if_pos hk, if_pos hk]
      rfl
    · rw [if_neg hk, if_neg hk]
      rfl

theorem Target.selects_itemsWithKey_append_right (b c : Buffer) (i : Nat)
    (wanted : List (List Char)) :
    (Target.itemsWithKey wanted).selects (b ++ c) (b.length + i) =
      (Target.itemsWithKey wanted).selects c i := by
  have hfields := Buffer.any_fields_append_right b c ⟨i, c.stopOf i⟩ wanted.contains
  simp only [Target.selects, Buffer.line_append_right, Buffer.stopOf_append_right]
  rw [← hfields]
  rfl

namespace RuleSets

open Pass Buffer

variable {b c : Buffer} {i n : Nat}

/-! ### Read-only commands -/

section

variable (hn : b.stopOf i ≤ n)

include hn

theorem isReadOnlyTask_take :
    isReadOnlyTask (b.take n) ⟨i, b.stopOf i⟩ = isReadOnlyTask b ⟨i, b.stopOf i⟩ := by
  have hi : i < n := Nat.lt_of_lt_of_le (lt_stopOf b i) hn
  rw [isReadOnlyTask, isReadOnlyTask, isTask_take b (e := ⟨i, b.stopOf i⟩) hi, findKey?_take hn hi]
  split
  · split
    · rfl
    · next found hfound =>
        obtain ⟨hij, hj, hdepth⟩ := exists_of_findKey? hfound
        rw [line_take b hi, commandLine?_take hij hj hdepth hn,
          blockLines_take (e := ⟨i, b.stopOf i⟩) hn]
  · rfl

theorem answer?_take_readOnlyCommand :
    readOnlyCommand.toBlockRule.answer? (b.take n) i = readOnlyCommand.toBlockRule.answer? b i := by
  have hselects : readOnlyCommand.toBlockRule.selects (b.take n) i =
      readOnlyCommand.toBlockRule.selects b i :=
    Target.selects_itemsWithKey_take hn commandModules
  rw [BlockRule.answer?, BlockRule.answer?, hselects, stopOf_take hn]
  split
  · next hselected =>
      have hitem : (b.line i).kind = .item := Target.kind_of_selects_itemsWithKey hselected
      refine FieldInjection.edit_take hn ?_ (childDepth_take hn hitem)
      simp only [readOnlyCommand, isReadOnlyTask_take hn]
  · rfl

end

section

variable (hc : c.StartsItem) (hb : b.NoFlushParameter)

include hc hb

theorem isTask_append_right (e : Extent) :
    Buffer.isTask (b ++ c) (e.lower b.length) = c.isTask e := by
  rw [isTask, isTask, Extent.start_lower, isItemLevel_append_right hc,
    inTaskList_append_right hc hb]

theorem isReadOnlyTask_append_right (e : Extent) :
    isReadOnlyTask (b ++ c) (e.lower b.length) = isReadOnlyTask c e := by
  rw [isReadOnlyTask, isReadOnlyTask, isTask_append_right hc hb, findKey?_append_right,
    blockLines_append_right, Extent.start_lower, line_append_right]
  split
  · cases c.findKey? e commandModules with
    | none => rfl
    | some found =>
        simp only [Option.map_some, Field.lower, commandLine?_append_right, Nat.add_left_cancel_iff]
        split
        · rfl
        · cases c.commandLine? found.index <;> rfl
  · rfl

theorem answer?_append_right_readOnlyCommand (i : Nat) :
    readOnlyCommand.toBlockRule.answer? (b ++ c) (b.length + i) =
      (readOnlyCommand.toBlockRule.answer? c i).map (BlockEdit.lower b.length) := by
  have hselects : readOnlyCommand.toBlockRule.selects (b ++ c) (b.length + i) =
      readOnlyCommand.toBlockRule.selects c i :=
    Target.selects_itemsWithKey_append_right b c i commandModules
  rw [BlockRule.answer?, BlockRule.answer?, hselects, stopOf_append_right]
  split
  · next hselected =>
      have hitem : (c.line i).kind = .item := Target.kind_of_selects_itemsWithKey hselected
      refine FieldInjection.edit_append_right_eq (e := ⟨i, c.stopOf i⟩) ?_
        (childDepth_append_right b c ⟨i, c.stopOf i⟩ hitem)
      simp only [readOnlyCommand, isReadOnlyTask_append_right hc hb]
  · rfl

/-! ### Pipelines -/

theorem addStrictPipes?_append_right (e : Extent) :
    addStrictPipes? (b ++ c) (e.lower b.length) =
      (addStrictPipes? c e).map fun (k, l) => (b.length + k, l) := by
  rw [addStrictPipes?, addStrictPipes?, isTask_append_right hc hb, blockContains, blockContains,
    blockLines_append_right, findKey?_append_right]
  split
  · cases c.findKey? e shellModules with
    | none => rfl
    | some found =>
        simp only [Option.map_some, Field.lower, commandTexts_append_right,
          commandLine?_append_right]
        split
        · cases c.commandLine? found.index with
          | none => rfl
          | some command =>
              simp only [Option.map_some, CommandLine.lower, line_append_right, Option.map_map]
              rfl
        · rfl
  · rfl

theorem answer?_append_right_strictPipelines (i : Nat) :
    strictPipelines.toBlockRule.answer? (b ++ c) (b.length + i) =
      (strictPipelines.toBlockRule.answer? c i).map (BlockEdit.lower b.length) := by
  have hselects : strictPipelines.toBlockRule.selects (b ++ c) (b.length + i) =
      strictPipelines.toBlockRule.selects c i :=
    Target.selects_itemsWithKey_append_right b c i shellModules
  have hedit : strictPipelines.edit (b ++ c) (Extent.lower b.length ⟨i, c.stopOf i⟩) =
      (strictPipelines.edit c ⟨i, c.stopOf i⟩).map (BlockEdit.lower b.length) :=
    ScopedRewrite.edit_append_right (addStrictPipes?_append_right hc hb _)
  rw [BlockRule.answer?, BlockRule.answer?, hselects, stopOf_append_right]
  split
  · exact hedit
  · rfl

end

end RuleSets

/-! ### Edits of the parts -/

namespace Buffer

variable {b c : Buffer} {i p : Nat} {x : Line}

theorem NoFlushParameter.insertIdx (hb : b.NoFlushParameter) (hx : 0 < x.depth) (p : Nat) :
    NoFlushParameter (b.insertIdx p x) := by
  intro l hl
  rcases List.eq_or_mem_of_mem_insertIdx hl with rfl | hmem
  · exact fun _ => hx
  · exact hb l hmem

theorem StartsItem.insertIdx (hc : c.StartsItem) (hpos : 0 < p) (hp : p ≤ c.length) :
    StartsItem (c.insertIdx p x) := by
  have hline : Buffer.line (c.insertIdx p x) 0 = c.line 0 := line_insertIdx_of_lt hp x hpos
  exact ⟨by rw [hline, hc.kind_eq], by rw [hline, hc.depth_eq]⟩

/-- No block of the upper part reaches into the lower part. -/
theorem stopOf_append_le (hc : c.StartsItem) (hi : i < b.length) :
    Buffer.stopOf (b ++ c) i ≤ b.length := by
  rw [stopOf_append_left hi hc]
  exact stopOf_le_length hi

end Buffer

namespace RuleSets

open Pass Buffer

/-- The field goes below the start of its block and is deeper. -/
theorem separates_changedWhen : Separates changedWhen (MayPrecede True) := by
  have hinjects := injects_readOnlyCommand
  refine separates_of_answer? (r := readOnlyCommand.toBlockRule) rfl rfl
    (fun {b i edit} hi hedit => ?_) (fun {b c i} h hi => ?_) (fun {b c i} h _ => ?_)
    (fun {b c i edit} h hi hedit => ?_) fun {b c i edit} h hi hedit => ?_
  · obtain ⟨p, x, rfl, hx⟩ := Injects.exists_at hi hedit
    exact hx.le_length
  · have htake := answer?_take_readOnlyCommand (stopOf_append_le h.startsItem hi)
    rw [List.take_left] at htake
    exact htake.symm
  · exact answer?_append_right_readOnlyCommand h.startsItem (h.noFlushParameter trivial) i
  · obtain ⟨p, x, rfl, hx⟩ := Injects.exists_at hi hedit
    have hdeep : 0 < x.depth := Nat.lt_of_le_of_lt (Nat.zero_le _) (hx.depth_lt hinjects.isBareKey)
    exact ⟨h.startsItem, fun hasks => (h.noFlushParameter hasks).insertIdx hdeep p⟩
  · obtain ⟨p, x, rfl, hx⟩ := Injects.exists_at hi hedit
    exact ⟨h.startsItem.insertIdx (Nat.zero_lt_of_lt hx.isPlace.1) hx.le_length,
      h.noFlushParameter⟩

/-- Behind a key the option leaves the frame of the line. -/
theorem sameFrame_of_insertStrictPipes? {l l' : Line} {command : CommandLine}
    (hinline : command.isInline = true) (h : insertStrictPipes? command l = some l') :
    l.SameFrame l' := by
  obtain ⟨before, after, rfl, rfl, hcolon, _⟩ := exists_append_of_insertStrictPipes? h
  rw [List.append_assoc]
  exact Line.sameFrame_of_head (hcolon hinline) (by decide) (by decide)

/-- The line of the command is the item itself, and stays one, or it is deeper. -/
theorem frame_of_answer?_strictPipelines {b : Buffer} {i : Nat} {edit : BlockEdit}
    (h : strictPipelines.toBlockRule.answer? b i = some edit) :
    ∃ k l, edit = .replace k l ∧ i ≤ k ∧ k < b.stopOf i ∧
      ((b.line i).kind = .item ∧ k = i ∧ (b.line k).SameFrame l ∨
        i < k ∧ (l.kind = .parameter → (b.line i).depth < l.depth)) := by
  have hitem : (b.line i).kind = .item := by
    rw [BlockRule.answer?] at h
    split at h
    · next hselected => exact Target.kind_of_selects_itemsWithKey hselected
    · cases h
  obtain ⟨k, l, rfl, hik, hk, hextent, _, command, hinsert, hscript⟩ :=
    of_answer?_strictPipelines h
  refine ⟨k, l, rfl, hik, hk, ?_⟩
  rcases Nat.eq_or_lt_of_le hik with rfl | hlt
  · refine Or.inl ⟨hitem, rfl, sameFrame_of_insertStrictPipes? ?_ hinsert⟩
    rw [← Bool.not_eq_false]
    exact fun hinline => Nat.lt_irrefl _ (hscript hinline)
  · refine Or.inr ⟨hlt, fun hkind => ?_⟩
    have htext := Line.allBlank_of_kind_ne (by rw [hkind]; decide)
    rw [hextent.2] at htext
    rw [hextent.1]
    exact (Line.isInside_iff htext).1 (of_lt_runAfter hlt hk).2

/-- The line of a command keeps its frame or is deeper than its item. -/
theorem separates_pipefail : Separates pipefail (MayPrecede True) := by
  refine separates_of_answer? (r := strictPipelines.toBlockRule) rfl rfl
    (fun {b i edit} hi hedit => ?_) (fun {b c i} h hi => ?_) (fun {b c i} h _ => ?_)
    (fun {b c i edit} h _ hedit => ?_) fun {b c i edit} h hi hedit => ?_
  · obtain ⟨k, l, rfl, _, hk, _⟩ := of_answer?_strictPipelines hedit
    exact Nat.lt_of_lt_of_le hk (stopOf_le_length hi)
  · have htake := answer?_take (stopOf_append_le h.startsItem hi)
    rw [List.take_left] at htake
    exact htake.symm
  · exact answer?_append_right_strictPipelines h.startsItem (h.noFlushParameter trivial) i
  · obtain ⟨k, l, rfl, _, _, hframe⟩ := frame_of_answer?_strictPipelines hedit
    refine ⟨h.startsItem, fun hasks => (h.noFlushParameter hasks).set (fun hkind => ?_) k⟩
    rcases hframe with ⟨hitem, rfl, hsame⟩ | ⟨_, hdeep⟩
    · rw [hsame.isItem_iff.2 hitem] at hkind
      cases hkind
    · exact Nat.lt_of_le_of_lt (Nat.zero_le _) (hdeep hkind)
  · obtain ⟨k, l, rfl, _, _, hframe⟩ := frame_of_answer?_strictPipelines hedit
    refine ⟨?_, h.noFlushParameter⟩
    rcases hframe with ⟨_, rfl, hsame⟩ | ⟨hlt, _⟩
    · exact h.startsItem.set hi hsame
    · have hline : Buffer.line (c.set k l) 0 = c.line 0 := line_set_of_ne (by omega) l
      exact ⟨by rw [BlockEdit.apply, hline, h.startsItem.kind_eq],
        by rw [BlockEdit.apply, hline, h.startsItem.depth_eq]⟩

end RuleSets

end TaskTidy

import TaskTidy.Proofs.BlockRules
import TaskTidy.Proofs.KeyRanks

/-!
# One line in the place of another

Two lines share some keys if they are of one frame and one kind and they carry the same of these
keys. When one takes the place of the other, the keys are found where they were found. Lines that
resemble each other moreover both have a value or neither has, and then every line belongs to what
it belonged to before.
-/

namespace TaskTidy

namespace Line

variable {keys : List (List Char)} {l l' : Line}

/-- Two lines of one frame and one kind that carry the same of the given keys. -/
structure SharesKeys (keys : List (List Char)) (l l' : Line) : Prop where
  sameFrame : SameFrame l l'
  allBlank_eq : Text.allBlank l' = Text.allBlank l
  kind_eq : l'.kind = l.kind
  hasKey_eq : ∀ key ∈ keys, l'.hasKey key = l.hasKey key

/-- Two such lines of which both have a value or neither has. -/
structure Resembles (keys : List (List Char)) (l l' : Line) : Prop extends
    SharesKeys keys l l' where
  isNone_value?_eq : l'.value?.isNone = l.value?.isNone

/-- Two lines of one frame, one kind and one key. -/
structure SameEntry (l l' : Line) : Prop where
  sameFrame : SameFrame l l'
  allBlank_eq : Text.allBlank l' = Text.allBlank l
  kind_eq : l'.kind = l.kind
  key?_eq : l'.key? = l.key?

/-- Two entries of one frame share the keys that both or neither carries. -/
theorem SharesKeys.of_isEntry (hframe : SameFrame l l') (hl : l.kind.isEntry = true)
    (hl' : l'.kind.isEntry = true) (hkeys : ∀ key ∈ keys, l'.hasKey key = l.hasKey key) :
    SharesKeys keys l l' where
  sameFrame := hframe
  allBlank_eq := by rw [allBlank_of_isEntry hl, allBlank_of_isEntry hl']
  kind_eq := kind_eq_of_isEntry hframe hl hl'
  hasKey_eq := hkeys

/-- Two entries of one frame are of one kind. -/
theorem SameEntry.of_isEntry (hframe : SameFrame l l') (hl : l.kind.isEntry = true)
    (hl' : l'.kind.isEntry = true) (hkey : l'.key? = l.key?) : SameEntry l l' where
  sameFrame := hframe
  allBlank_eq := by rw [allBlank_of_isEntry hl, allBlank_of_isEntry hl']
  kind_eq := kind_eq_of_isEntry hframe hl hl'
  key?_eq := hkey

theorem SameEntry.refl (l : Line) : SameEntry l l :=
  ⟨⟨rfl, rfl, rfl, Iff.rfl⟩, rfl, rfl, rfl⟩

theorem SameEntry.sharesKeys (h : SameEntry l l') (keys : List (List Char)) :
    SharesKeys keys l l' :=
  ⟨h.sameFrame, h.allBlank_eq, h.kind_eq, fun key _ => by rw [hasKey, hasKey, h.key?_eq]⟩

namespace SharesKeys

variable (h : SharesKeys keys l l')

include h

theorem sameExtent : l.SameExtent l' :=
  ⟨h.sameFrame.depth_eq, h.allBlank_eq⟩

theorem key?_eq_some_iff {key : List Char} (hkey : key ∈ keys) :
    l'.key? = some key ↔ l.key? = some key := by
  have hsame := h.hasKey_eq key hkey
  rwa [hasKey, hasKey, Bool.eq_iff_iff, beq_iff_eq, beq_iff_eq] at hsame

theorem hasKeyIn_eq {wanted : List (List Char)} (hwanted : wanted ⊆ keys) :
    l'.hasKeyIn wanted = l.hasKeyIn wanted := by
  rw [Bool.eq_iff_iff, hasKeyIn_iff, hasKeyIn_iff]
  exact exists_congr fun key => and_congr_right fun hmem => h.key?_eq_some_iff (hwanted hmem)

end SharesKeys

theorem Resembles.isSome_value?_eq (h : Resembles keys l l') :
    l'.value?.isSome = l.value?.isSome := by
  rw [← Option.not_isNone, ← Option.not_isNone, h.isNone_value?_eq]

theorem Resembles.refl (keys : List (List Char)) (l : Line) : Resembles keys l l :=
  ⟨(SameEntry.refl l).sharesKeys keys, rfl⟩

end Line

namespace Buffer

variable {b : Buffer} {i j : Nat} {l : Line} {keys wanted : List (List Char)}

private theorem any_set {q : Line → Bool} {lines : List Line} {k : Nat}
    (h : ∀ x, lines[k]? = some x → q l = q x) : (lines.set k l).any q = lines.any q := by
  induction lines generalizing k with
  | nil => rfl
  | cons x rest ih =>
      cases k with
      | zero => rw [List.set_cons_zero, List.any_cons, List.any_cons, h x rfl]
      | succ k => rw [List.set_cons_succ, List.any_cons, List.any_cons, ih fun y hy => h y hy]

/-- A run has its last content where it had it if only blank lines take the place of blank ones. -/
theorem lastContent_set {run : List Line} {n : Nat}
    (h : ∀ x, run[n]? = some x → Text.allBlank l = Text.allBlank x) :
    lastContent i (run.set n l) = lastContent i run := by
  have hlength (lines : List Line) : (lines.dropWhile Text.allBlank).length =
      ((lines.map Text.allBlank).dropWhile id).length := by
    rw [List.dropWhile_map, List.length_map]
    rfl
  have hmap : (run.set n l).map Text.allBlank = run.map Text.allBlank := by
    rw [List.map_set]
    rcases Nat.lt_or_ge n run.length with hn | hn
    · rw [h _ (List.getElem?_eq_getElem hn), ← List.getElem_map (f := Text.allBlank)]
      exact List.set_getElem_self (by rwa [List.length_map])
    · exact List.set_eq_of_length_le (by rwa [List.length_map])
  rw [lastContent, lastContent, hlength, hlength, List.map_reverse, List.map_reverse, hmap]

/-- What holds of a line of a block does so when a line takes the place of another of which it holds
just as well. -/
theorem any_blockLines_set {q : Line → Bool} (hq : q l = q (b.line j)) (e : Extent) :
    (Buffer.blockLines (b.set j l) e).any q = (b.blockLines e).any q := by
  rw [blockLines, blockLines, List.drop_set]
  split
  · rfl
  · next hstart =>
      rw [List.take_set]
      refine any_set fun x hx => ?_
      rw [List.getElem?_take] at hx
      split at hx
      · rw [List.getElem?_drop, Nat.add_sub_cancel' (Nat.le_of_not_lt hstart)] at hx
        rw [hq, line, List.getD_eq_getElem?_getD, hx, Option.getD_some]
      · cases hx

section

variable (hj : j < b.length) (hl : (b.line j).SharesKeys keys l)

include hj hl

/-- Every line shares the keys with the one in its place. -/
theorem sharesKeys_line_set (k : Nat) :
    (b.line k).SharesKeys keys (Buffer.line (b.set j l) k) :=
  rel_line_set hj hl (fun x => (Line.SameEntry.refl x).sharesKeys keys) k

/-- The list that an item stands in keeps its key if it stands where it stood. -/
theorem inTaskList_set_of_listKey? (hkeys : taskListKeys ⊆ keys)
    (hlist : ∀ item < b.length, (b.line item).kind = .item →
      Buffer.listKey? (b.set j l) item = b.listKey? item) (hi : i < b.length) :
    Buffer.inTaskList (b.set j l) i = b.inTaskList i := by
  rw [inTaskList, inTaskList, owner?_set hj hl.sameFrame hi]
  cases howner : b.owner? i with
  | none => rfl
  | some item =>
      obtain ⟨hitem, hkind⟩ := of_owner? howner
      simp only [hlist item (Nat.lt_of_le_of_lt hitem hi) hkind]
      cases b.listKey? item with
      | none => rfl
      | some key => exact (sharesKeys_line_set hj hl key).hasKeyIn_eq hkeys

/-! ### Fields -/

theorem fieldDepth?_set (e : Extent) : Buffer.fieldDepth? (b.set j l) e = b.fieldDepth? e := by
  have hline := sharesKeys_line_set hj hl
  simp only [fieldDepth?, (hline _).kind_eq, (hline _).sameFrame.depth_eq]

theorem fieldRun_set (e : Extent) (d : Nat) :
    Buffer.fieldRun (b.set j l) e d = b.fieldRun e d := by
  have hline := sharesKeys_line_set hj hl
  simp only [fieldRun, (hline _).kind_eq, (hline _).sameFrame.depth_eq]

private theorem filter_fieldAt?_set (hwanted : wanted ⊆ keys) (d k : Nat) :
    (Buffer.fieldAt? (b.set j l) d k).filter (fun f => wanted.contains f.key) =
      (b.fieldAt? d k).filter fun f => wanted.contains f.key := by
  have hline := sharesKeys_line_set hj hl k
  simp only [fieldAt?, hline.kind_eq, hline.sameFrame.depth_eq]
  split
  · refine Option.ext fun f => ?_
    simp only [Option.filter_eq_some_iff, Option.map_eq_some_iff, List.contains_iff_mem]
    refine and_congr_left fun hmem => exists_congr fun key => and_congr_left ?_
    rintro rfl
    exact hline.key?_eq_some_iff (hwanted hmem)
  · rfl

/-- The first field with one of the keys stands where it stood. -/
theorem find?_fields_set (hwanted : wanted ⊆ keys) (e : Extent) :
    (Buffer.fields (b.set j l) e).find? (fun f => wanted.contains f.key) =
      (b.fields e).find? fun f => wanted.contains f.key := by
  rw [fields, fields, fieldDepth?_set hj hl]
  cases b.fieldDepth? e with
  | none => rfl
  | some d =>
      simp only [fieldRun_set hj hl, ← List.head?_filter, List.filter_filterMap,
        filter_fieldAt?_set hj hl hwanted]

theorem findKey?_set (hwanted : wanted ⊆ keys) (e : Extent) :
    Buffer.findKey? (b.set j l) e wanted = b.findKey? e wanted := by
  have hline := sharesKeys_line_set hj hl e.start
  rw [findKey?, findKey?, hline.hasKeyIn_eq hwanted, find?_fields_set hj hl hwanted]
  split
  · next hown =>
      obtain ⟨key, hmem, hkey⟩ := Line.hasKeyIn_iff.1 hown
      rw [hkey, (hline.key?_eq_some_iff (hwanted hmem)).2 hkey]
  · rfl

theorem selects_set (hwanted : wanted ⊆ keys) (i : Nat) :
    (Target.itemsWithKey wanted).selects (b.set j l) i =
      (Target.itemsWithKey wanted).selects b i := by
  have hline := sharesKeys_line_set hj hl i
  have hfields := find?_fields_set hj hl hwanted ⟨i, b.stopOf i⟩
  simp only [Target.selects, hline.kind_eq, hline.hasKeyIn_eq hwanted,
    stopOf_set_of_sameExtent hj hl.sameExtent, ← List.isSome_find?, hfields]

/-! ### Depths -/

theorem runEnd_set (e : Extent) (d : Nat) : Buffer.runEnd (b.set j l) e d = b.runEnd e d := by
  have hline := sharesKeys_line_set hj hl
  simp only [runEnd, fieldRun_set hj hl, (hline _).kind_eq, (hline _).sameFrame.depth_eq]

theorem indentStep_set : Buffer.indentStep (b.set j l) = b.indentStep := by
  have hdepths (c : Buffer) : (c.filter fun l => l.kind.isSignificant).map Line.depth =
      ((c.map fun l => (l.kind.isSignificant, l.depth)).filter Prod.fst).map Prod.snd := by
    rw [List.filter_map, List.map_map]
    rfl
  have hmap : (b.set j l).map (fun l => (l.kind.isSignificant, l.depth)) =
      b.map fun l => (l.kind.isSignificant, l.depth) := by
    rw [List.map_set, hl.kind_eq, hl.sameFrame.depth_eq, line_eq_getElem b j hj,
      ← List.getElem_map (f := fun l : Line => (l.kind.isSignificant, l.depth))]
    exact List.set_getElem_self (by rwa [List.length_map])
  rw [indentStep, indentStep, hdepths, hdepths, hmap]

/-- A new field is as deep as it was before. -/
theorem childDepth_set (e : Extent) : Buffer.childDepth (b.set j l) e = b.childDepth e := by
  have hline := sharesKeys_line_set hj hl e.start
  simp only [childDepth, fieldDepth?_set hj hl, indentStep_set hj hl, hline.kind_eq,
    hline.sameFrame.column_eq, hline.sameFrame.depth_eq]

/-- The value of a key keeps its extent. -/
theorem valueLines_set (k : Nat) : Buffer.valueLines (b.set j l) k = b.valueLines k := by
  rw [valueLines, valueLines, (sameFrame_line_set hj hl.sameFrame k).column_eq]
  rcases Nat.lt_or_ge k j with hkj | hjk
  · rw [runAfter_set hkj (hl.sameExtent.isInside_eq _), List.length_set]
  · rw [runAfter, runAfter, List.drop_set_of_lt (Nat.lt_succ_of_le hjk)]

end

section

variable (hj : j < b.length) (hl : (b.line j).SameEntry l)

include hj hl

/-- Every line has the frame, the kind and the key of the one in its place. -/
theorem sameEntry_line_set (k : Nat) : (b.line k).SameEntry (Buffer.line (b.set j l) k) :=
  rel_line_set hj hl Line.SameEntry.refl k

theorem fields_set (e : Extent) : Buffer.fields (b.set j l) e = b.fields e := by
  have hline := sameEntry_line_set hj hl
  have hshares := hl.sharesKeys []
  have hfield (d : Nat) : Buffer.fieldAt? (b.set j l) d = b.fieldAt? d := by
    funext k
    simp only [fieldAt?, (hline _).kind_eq, (hline _).sameFrame.depth_eq, (hline _).key?_eq]
  simp only [fields, fieldDepth?_set hj hshares, fieldRun_set hj hshares, hfield]

/-- A block has the field of an injection as before. -/
theorem isSatisfied_set (r : FieldInjection) (e : Extent) :
    r.isSatisfied (b.set j l) e = r.isSatisfied b e := by
  rw [FieldInjection.isSatisfied, FieldInjection.isSatisfied, hasField, hasField,
    fields_set hj hl, Line.hasKey, Line.hasKey, (sameEntry_line_set hj hl e.start).key?_eq]

omit hj in
private theorem lastContent_runAfter_set {q : Line → Bool} (hq : q l = q (b.line j)) (k : Nat) :
    lastContent k (Buffer.runAfter (b.set j l) k q) = lastContent k (b.runAfter k q) := by
  rcases Nat.lt_or_ge k j with hkj | hjk
  · rw [runAfter_set hkj hq]
    refine lastContent_set fun x hx => ?_
    obtain ⟨hlt, rfl⟩ := List.getElem?_eq_some_iff.1 hx
    rw [getElem_runAfter hlt, show k + 1 + (j - (k + 1)) = j by omega, hl.allBlank_eq]
  · rw [runAfter, runAfter, List.drop_set_of_lt (Nat.lt_succ_of_le hjk)]

omit hj in
theorem contentEnd_set (e : Extent) : Buffer.contentEnd (b.set j l) e = b.contentEnd e := by
  rw [contentEnd, contentEnd, interiorLines, interiorLines, List.drop_set]
  split
  · rfl
  · next hstart =>
      rw [List.take_set]
      refine lastContent_set fun x hx => ?_
      rw [List.getElem?_take] at hx
      split at hx
      · rw [List.getElem?_drop, Nat.add_sub_cancel' (Nat.le_of_not_lt hstart)] at hx
        rw [hl.allBlank_eq, line, List.getD_eq_getElem?_getD, hx, Option.getD_some]
      · cases hx

/-- A field ends where it ended if it has a value as before. -/
theorem fieldEnd_set_of_isSome {k : Nat}
    (hvalue : (Buffer.line (b.set j l) k).value?.isSome = (b.line k).value?.isSome) :
    Buffer.fieldEnd (b.set j l) k = b.fieldEnd k := by
  have hinside := (hl.sharesKeys []).sameExtent.isInside_eq
  have hsequence (d : Nat) : isInsideSequence d l = isInsideSequence d (b.line j) := by
    rw [isInsideSequence, isInsideSequence, hinside, hl.kind_eq, hl.sameFrame.depth_eq]
  simp only [fieldEnd, hvalue, (sameEntry_line_set hj hl k).sameFrame.depth_eq,
    lastContent_runAfter_set hl (hinside _), lastContent_runAfter_set hl (hsequence _)]

/-- A new field goes where it went before if the fields end where they ended. -/
theorem insertionIndex_set_of_fieldEnd {e : Extent}
    (hend : ∀ f ∈ b.fields e, Buffer.fieldEnd (b.set j l) f.index = b.fieldEnd f.index)
    (a : Anchors) : Buffer.insertionIndex (b.set j l) e a = b.insertionIndex e a := by
  simp only [insertionIndex, fields_set hj hl, fieldDepth?_set hj (hl.sharesKeys []),
    runEnd_set hj (hl.sharesKeys []), contentEnd_set hl]
  split
  · next f hanchor =>
      exact hend f ((List.takeWhile_sublist _).mem
        (List.mem_reverse.1 (List.mem_of_find?_eq_some hanchor)))
  · rfl
  · rfl
  · rfl

/-- An injection answers as before if it picks a block as before, has a value for it as before if it
picks it, and the fields of the block end where they ended. -/
theorem answer?_set_of_value? {r : FieldInjection}
    (hselects : r.target.selects (b.set j l) i = r.target.selects b i)
    (hvalue : r.target.selects b i = true →
      r.value? (b.set j l) ⟨i, b.stopOf i⟩ = r.value? b ⟨i, b.stopOf i⟩)
    (hend : ∀ f ∈ b.fields ⟨i, b.stopOf i⟩,
      Buffer.fieldEnd (b.set j l) f.index = b.fieldEnd f.index) :
    r.toBlockRule.answer? (b.set j l) i = r.toBlockRule.answer? b i := by
  have hstop := stopOf_set_of_sameExtent hj (hl.sharesKeys []).sameExtent i
  have hedit (hselected : r.target.selects b i = true) :
      r.edit (b.set j l) ⟨i, b.stopOf i⟩ = r.edit b ⟨i, b.stopOf i⟩ := by
    simp only [FieldInjection.edit, isSatisfied_set hj hl, hvalue hselected,
      insertionIndex_set_of_fieldEnd hj hl hend, childDepth_set hj (hl.sharesKeys [])]
  change (if r.target.selects (b.set j l) i then r.edit (b.set j l) ⟨i, Buffer.stopOf _ i⟩
    else none) = if r.target.selects b i then r.edit b ⟨i, b.stopOf i⟩ else none
  rw [hselects, hstop]
  split
  · next hselected => exact hedit hselected
  · rfl

end

section

variable (hj : j < b.length) (hl : (b.line j).Resembles keys l)

include hj hl

/-- Every line resembles the one in its place. -/
theorem resembles_line_set (k : Nat) : (b.line k).Resembles keys (Buffer.line (b.set j l) k) :=
  rel_line_set hj hl (Line.Resembles.refl keys) k

private theorem listKeyAmong?_above_set (d : Nat) (hi : i ≤ b.length) :
    listKeyAmong? d (Buffer.above (b.set j l) i) = listKeyAmong? d (b.above i) := by
  induction i with
  | zero => rfl
  | succ i ih =>
      have hline := resembles_line_set hj hl i
      rw [above_succ hi, above_succ (by rwa [List.length_set])]
      simp only [listKeyAmong?, hline.sameFrame.depth_eq, hline.kind_eq, hline.isNone_value?_eq,
        ih (Nat.le_of_succ_le hi), length_above (Nat.le_of_succ_le hi),
        length_above (show i ≤ (b.set j l).length by rw [List.length_set]; omega)]

/-- The list that an item stands in keeps its key. -/
theorem inTaskList_set (hkeys : taskListKeys ⊆ keys) (hi : i < b.length) :
    Buffer.inTaskList (b.set j l) i = b.inTaskList i := by
  refine inTaskList_set_of_listKey? hj hl.toSharesKeys hkeys (fun item hitem _ => ?_) hi
  rw [listKey?, listKey?, (resembles_line_set hj hl item).sameFrame.depth_eq,
    listKeyAmong?_above_set hj hl _ (Nat.le_of_lt hitem),
    parent?_set_of_isSignificant hj hl.sameFrame.depth_eq hl.sameFrame.isSignificant_eq hitem]

theorem isTask_set (hkeys : taskListKeys ⊆ keys) {e : Extent} (he : e.start < b.length) :
    Buffer.isTask (b.set j l) e = b.isTask e := by
  rw [isTask, isTask, isItemLevel_set hj hl.sameFrame he, inTaskList_set hj hl hkeys he]

/-- The line that holds the command of a module stands where it stood. -/
theorem commandKey?_set (hcmd : "cmd".toList ∈ keys) (k : Nat) :
    Buffer.commandKey? (b.set j l) k = b.commandKey? k := by
  have hline := resembles_line_set hj hl
  simp only [commandKey?, (hline _).isSome_value?_eq, valueLines_set hj hl.toSharesKeys,
    (hline _).kind_eq, (hline _).hasKey_eq _ hcmd]

end

end Buffer

end TaskTidy

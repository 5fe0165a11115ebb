import TaskTidy.Proofs.Blocks

/-!
# The boundary between two lists of tasks

An item at the left margin belongs to no block above it. So a document that starts with one can
stand below another document: no block of the upper part reaches into it, and every search for a
parent ends in it. Only the search for the key of the outermost list goes on upwards. It finds
nothing if the upper part has no parameter at the left margin.
-/

namespace TaskTidy

namespace Buffer

variable {b c : Buffer} {i : Nat}

/-- The first line is an item at the left margin. -/
structure StartsItem (c : Buffer) : Prop where
  kind_eq : (c.line 0).kind = .item
  depth_eq : (c.line 0).depth = 0

/-- No parameter stands at the left margin. -/
def NoFlushParameter (b : Buffer) : Prop :=
  ∀ l ∈ b, l.kind = .parameter → 0 < l.depth

theorem StartsItem.length_pos (hc : c.StartsItem) : 0 < c.length := by
  cases c with
  | nil => cases hc.kind_eq
  | cons l rest => exact Nat.succ_pos _

/-- The first line ends every block above it. -/
theorem StartsItem.isInside_eq (hc : c.StartsItem) (base : Nat) :
    (c.line 0).isInside base = false := by
  have hblank : Text.allBlank (c.line 0) = false :=
    Line.allBlank_of_kind_ne (by rw [hc.kind_eq]; decide)
  rw [Line.isInside, hblank, hc.depth_eq]
  rfl

theorem StartsItem.encloses_eq (hc : c.StartsItem) {d : Nat} (hd : 0 < d) :
    encloses d (c.line 0) = true := by
  simp [encloses, hc.kind_eq, hc.depth_eq, Line.Kind.isSignificant, hd]

/-! ### The upper part -/

section Upper

variable (hi : i < b.length)

include hi

theorem line_append_left (c : Buffer) : Buffer.line (b ++ c) i = b.line i := by
  rw [← line_take (b ++ c) hi, List.take_left]

/-- A run that ends before the lower part. -/
theorem runAfter_append_left {p : Line → Bool} (hc : 0 < c.length) (hp : p (c.line 0) = false) :
    Buffer.runAfter (b ++ c) i p = b.runAfter i p := by
  have hnil : c.takeWhile p = [] := by
    cases c with
    | nil => rfl
    | cons l rest =>
        have hl : p l = false := hp
        rw [List.takeWhile_cons, hl, if_neg Bool.false_ne_true]
  rw [runAfter, runAfter, List.drop_append_of_le_length hi, List.takeWhile_append, hnil,
    List.append_nil]
  split
  · next hall => exact ((List.takeWhile_prefix p).eq_of_length hall).symm
  · rfl

theorem stopOf_append_left (hc : c.StartsItem) : Buffer.stopOf (b ++ c) i = b.stopOf i := by
  rw [stopOf, stopOf, line_append_left hi,
    runAfter_append_left hi hc.length_pos (hc.isInside_eq _)]

theorem itemHas_append_left (hc : c.StartsItem) (key : List Char) :
    Buffer.itemHas (b ++ c) i key = b.itemHas i key := by
  rw [itemHas, itemHas, line_append_left hi,
    runAfter_append_left hi hc.length_pos (hc.isInside_eq _)]

theorem ownerHas_append_left (hc : c.StartsItem) (key : List Char) :
    Buffer.ownerHas (b ++ c) i key = b.ownerHas i key := by
  have howner : Buffer.owner? (b ++ c) i = b.owner? i := by
    rw [← owner?_take (b ++ c) hi, List.take_left]
  rw [ownerHas, ownerHas, howner]
  cases h : b.owner? i with
  | none => rfl
  | some item => exact itemHas_append_left (Nat.lt_of_le_of_lt (of_owner? h).1 hi) hc key

end Upper

/-! ### The lower part -/

theorem line_append_right (b c : Buffer) (i : Nat) :
    Buffer.line (b ++ c) (b.length + i) = c.line i := by
  rw [line, line, List.getD_eq_getElem?_getD, List.getD_eq_getElem?_getD,
    List.getElem?_append_right (Nat.le_add_right _ _), Nat.add_sub_cancel_left]

theorem drop_append_right (b c : Buffer) (i : Nat) : (b ++ c).drop (b.length + i) = c.drop i := by
  rw [← List.drop_drop, List.drop_left]

theorem runAfter_append_right (b c : Buffer) (i : Nat) (p : Line → Bool) :
    Buffer.runAfter (b ++ c) (b.length + i) p = c.runAfter i p := by
  rw [runAfter, runAfter, Nat.add_assoc, drop_append_right]

theorem stopOf_append_right (b c : Buffer) (i : Nat) :
    Buffer.stopOf (b ++ c) (b.length + i) = b.length + c.stopOf i := by
  rw [stopOf, stopOf, line_append_right, runAfter_append_right]
  omega

theorem itemHas_append_right (b c : Buffer) (i : Nat) (key : List Char) :
    Buffer.itemHas (b ++ c) (b.length + i) key = c.itemHas i key := by
  rw [itemHas, itemHas, line_append_right, runAfter_append_right]

theorem above_append_right (b c : Buffer) (i : Nat) :
    Buffer.above (b ++ c) (b.length + i) = c.above i ++ b.reverse := by
  rw [above, above, List.take_length_add_append, List.reverse_append]

/-- A search that ends in the lines nearby, or finds nothing in the lines further above. -/
theorem nearest?_append {p : Line → Bool} {A C : List Line}
    (h : nearest? p C = none ∨ ∃ l ∈ A, p l = true) :
    nearest? p (A ++ C) = (nearest? p A).map (C.length + ·) := by
  induction A with
  | nil =>
      rcases h with h | ⟨l, hl, _⟩
      · exact h
      · cases hl
  | cons l A ih =>
      rw [List.cons_append, nearest?, nearest?]
      split
      · rw [Option.map_some, List.length_append, Nat.add_comm]
      · next hl =>
          refine ih (h.imp_right ?_)
          rintro ⟨l', hl', hp⟩
          rcases List.mem_cons.1 hl' with rfl | hl'
          · exact absurd hp hl
          · exact ⟨l', hl', hp⟩

theorem nearest?_encloses_zero (above : List Line) : nearest? (encloses 0) above = none := by
  induction above with
  | nil => rfl
  | cons l above ih => simp [nearest?, encloses, ih]

/-- A search for the key of a list that a shallower line nearby ends, or that finds nothing in the
lines further above. -/
theorem listKeyAmong?_append {d : Nat} {A C : List Line}
    (h : listKeyAmong? d C = none ∨ ∃ l ∈ A, encloses d l = true) :
    listKeyAmong? d (A ++ C) = (listKeyAmong? d A).map (C.length + ·) := by
  induction A with
  | nil =>
      rcases h with h | ⟨l, hl, _⟩
      · exact h
      · cases hl
  | cons l A ih =>
      rw [List.cons_append]
      rcases listKeyAmong?_cons_cases d l with ⟨hl, hpast⟩ | hkey | hnone
      · rw [hpast, hpast]
        refine ih (h.imp_right ?_)
        rintro ⟨l', hl', hencloses⟩
        rcases List.mem_cons.1 hl' with rfl | hl'
        · rw [encloses_eq_false_of_not_endsList hl] at hencloses
          cases hencloses
        · exact ⟨l', hl', hencloses⟩
      · rw [hkey, hkey, Option.map_some, List.length_append, Nat.add_comm]
      · rw [hnone, hnone, Option.map_none]

/-- A document without parameters at the left margin has no key of the outermost list. -/
theorem NoFlushParameter.listKeyAmong?_eq (hb : b.NoFlushParameter) :
    listKeyAmong? 0 b.reverse = none := by
  have hall : ∀ l ∈ b.reverse, l.kind = .parameter → 0 < l.depth := fun l hl =>
    hb l (List.mem_reverse.1 hl)
  generalize b.reverse = above at hall
  induction above with
  | nil => rfl
  | cons l above ih =>
      obtain ⟨hl, hrest⟩ := List.forall_mem_cons.1 hall
      rw [listKeyAmong?]
      split
      · exact ih hrest
      · next hdeep =>
          simp only [Bool.or_eq_true, decide_eq_true_eq, not_or] at hdeep
          rw [if_neg (Nat.not_lt_zero _)]
          split
          · exact ih hrest
          · next hkind => exact absurd (hl hkind) hdeep.2
          · rfl

section Lower

variable (hc : c.StartsItem)

include hc

/-- A line that is indented has the first line above it. -/
theorem StartsItem.exists_mem_above (hdepth : 0 < (c.line i).depth) :
    ∃ l ∈ c.above i, encloses (c.line i).depth l = true := by
  have hne : i ≠ 0 := by
    rintro rfl
    rw [hc.depth_eq] at hdepth
    exact absurd hdepth (Nat.lt_irrefl 0)
  refine ⟨c.line 0, ?_, hc.encloses_eq hdepth⟩
  have hlen := hc.length_pos
  rw [above, List.mem_reverse, line_eq_getElem c 0 hlen]
  exact List.mem_take_iff_getElem.2 ⟨0, by omega, rfl⟩

theorem parent?_append_right (b : Buffer) (i : Nat) :
    Buffer.parent? (b ++ c) (b.length + i) = (c.parent? i).map (b.length + ·) := by
  rw [parent?, parent?, lastBefore?, lastBefore?, line_append_right, above_append_right,
    nearest?_append, List.length_reverse]
  rcases Nat.eq_zero_or_pos (c.line i).depth with hzero | hpos
  · left
    rw [hzero]
    exact nearest?_encloses_zero _
  · exact Or.inr (hc.exists_mem_above hpos)

theorem owner?_append_right (b : Buffer) (i : Nat) :
    Buffer.owner? (b ++ c) (b.length + i) = (c.owner? i).map (b.length + ·) := by
  simp only [owner?, line_append_right, parent?_append_right hc]
  split
  · rfl
  · cases c.parent? i with
    | none => rfl
    | some j =>
        simp only [Option.map_some, Option.filter_some, line_append_right]
        split <;> rfl

theorem isItemLevel_append_right (b : Buffer) (i : Nat) :
    Buffer.isItemLevel (b ++ c) (b.length + i) = c.isItemLevel i := by
  rw [isItemLevel, isItemLevel, owner?_append_right hc, Option.isSome_map]

theorem ownerHas_append_right (b : Buffer) (i : Nat) (key : List Char) :
    Buffer.ownerHas (b ++ c) (b.length + i) key = c.ownerHas i key := by
  rw [ownerHas, ownerHas, owner?_append_right hc]
  cases c.owner? i with
  | none => rfl
  | some item => exact itemHas_append_right b c item key

theorem isNested_append_right (b : Buffer) (i : Nat) :
    Buffer.isNested (b ++ c) (b.length + i) = c.isNested i := by
  simp only [isNested, parent?_append_right hc]
  cases c.parent? i with
  | none => rfl
  | some j => simp only [Option.map_some, line_append_right]

/-- The ancestors of a line end with the lower part. The induction is on the index of the line. -/
theorem ancestors_append_right (b : Buffer) (i : Nat) :
    Buffer.ancestors (b ++ c) (b.length + i) = (c.ancestors i).map (b.length + ·) := by
  induction i using Nat.strong_induction_on with
  | _ i ih =>
      rw [ancestors_eq, ancestors_eq c, parent?_append_right hc]
      cases hparent : c.parent? i with
      | none => rfl
      | some j =>
          simp only [Option.map_some, List.map_cons]
          rw [ih j (parent?_lt hparent)]

theorem inScalar_append_right (b : Buffer) (i : Nat) :
    Buffer.inScalar (b ++ c) (b.length + i) = c.inScalar i := by
  simp only [inScalar, ancestors_append_right hc, List.any_map, Function.comp_def,
    line_append_right]

theorem listKey?_append_right (hb : b.NoFlushParameter) (i : Nat) :
    Buffer.listKey? (b ++ c) (b.length + i) = (c.listKey? i).map (b.length + ·) := by
  have hamong := listKeyAmong?_append (d := (c.line i).depth) (A := c.above i) (C := b.reverse) (by
    rcases Nat.eq_zero_or_pos (c.line i).depth with hzero | hpos
    · left
      rw [hzero]
      exact hb.listKeyAmong?_eq
    · exact Or.inr (hc.exists_mem_above hpos))
  rw [listKey?, listKey?, line_append_right, above_append_right, hamong, List.length_reverse,
    parent?_append_right hc]
  cases listKeyAmong? (c.line i).depth (c.above i) <;> rfl

theorem inTaskList_append_right (hb : b.NoFlushParameter) (i : Nat) :
    Buffer.inTaskList (b ++ c) (b.length + i) = c.inTaskList i := by
  simp only [inTaskList, owner?_append_right hc]
  cases c.owner? i with
  | none => rfl
  | some item =>
      simp only [Option.map_some, listKey?_append_right hc hb]
      cases c.listKey? item with
      | none => rfl
      | some key => simp only [Option.map_some, line_append_right]

end Lower

end Buffer

namespace Guard

variable {b c : Buffer} {i : Nat} {g : Guard}

/-- A guard allows the same lines of the upper part as without the lower part. -/
theorem allows_append_left (hc : c.StartsItem) (hi : i < b.length) (g : Guard) :
    g.allows (b ++ c) i = g.allows b i := by
  cases g with
  | ownerLacks key => rw [allows, allows, Buffer.ownerHas_append_left hi hc]
  | itemLevel => rw [← allows_take (b ++ c) rfl hi, List.take_left]
  | taskList => rw [← allows_take (b ++ c) rfl hi, List.take_left]
  | nested => rw [← allows_take (b ++ c) rfl hi, List.take_left]
  | notAfterComment => rw [← allows_take (b ++ c) rfl hi, List.take_left]
  | outsideScalar => rw [← allows_take (b ++ c) rfl hi, List.take_left]

/-- A guard allows the same lines of the lower part as without the upper part, except that the line
above the first line may be a comment. -/
theorem allows_append_right (hc : c.StartsItem) (hlist : g = .taskList → b.NoFlushParameter)
    (hcomment : g = .notAfterComment → i ≠ 0) :
    g.allows (b ++ c) (b.length + i) = g.allows c i := by
  cases g with
  | itemLevel => exact Buffer.isItemLevel_append_right hc b i
  | taskList => exact Buffer.inTaskList_append_right hc (hlist rfl) i
  | nested => exact Buffer.isNested_append_right hc b i
  | ownerLacks key => rw [allows, allows, Buffer.ownerHas_append_right hc]
  | notAfterComment =>
      obtain ⟨j, rfl⟩ := Nat.exists_eq_succ_of_ne_zero (hcomment rfl)
      rw [allows, allows, Nat.add_succ, followsComment, followsComment, Buffer.line_append_right]
  | outsideScalar => rw [allows, allows, Buffer.inScalar_append_right hc]

end Guard

end TaskTidy

import Mathlib.Data.List.TakeWhile
import TaskTidy.Proofs.Blocks

/-!
# Looking downwards

The fields of a block are found among the lines below its start line. A search downwards walks over
the lines up to the first that no longer belongs to the run; it gives the line that it looks for and
the lines below that. What a rule reads off a block are answers of such searches.
-/

namespace TaskTidy

/-- The first line that satisfies `p` among the lines up to the first that fails `inside`, with the
lines below it. -/
def firstIn? (inside p : Line → Bool) : List Line → Option (Line × List Line)
  | [] => none
  | l :: below =>
      if inside l then if p l then some (l, below) else firstIn? inside p below
      else none

section

variable {inside p : Line → Bool} {lines : List Line}

/-- A line that is found satisfies both predicates and stands above the lines that come with it. -/
theorem of_firstIn? {r : Line × List Line} (h : firstIn? inside p lines = some r) :
    inside r.1 = true ∧ p r.1 = true ∧ r.1 :: r.2 <:+ lines := by
  induction lines with
  | nil => cases h
  | cons l below ih =>
      unfold firstIn? at h
      split at h
      · next hinside =>
          split at h
          · next hp =>
              cases h
              exact ⟨hinside, hp, List.suffix_rfl⟩
          · obtain ⟨hi, hp, hsuffix⟩ := ih h
            exact ⟨hi, hp, hsuffix.trans (List.suffix_cons l below)⟩
      · cases h

/-- A search goes on below a list of lines if it finds nothing there and all of them belong to the
run. -/
theorem firstIn?_append (A R : List Line) :
    firstIn? inside p (A ++ R) =
      match firstIn? inside p A with
      | some r => some (r.1, r.2 ++ R)
      | none => if A.all inside then firstIn? inside p R else none := by
  induction A with
  | nil => simp [firstIn?]
  | cons l A ih =>
      rw [List.cons_append, firstIn?, firstIn?, List.all_cons]
      by_cases hinside : inside l = true
      · by_cases hp : p l = true
        · simp [hinside, hp]
        · simp [hinside, hp, ih]
      · simp [hinside]

theorem firstIn?_eq_none_iff :
    firstIn? inside p lines = none ↔ ∀ l ∈ lines.takeWhile inside, p l = false := by
  induction lines with
  | nil => simp [firstIn?]
  | cons l below ih =>
      rw [firstIn?, List.takeWhile_cons]
      by_cases hinside : inside l = true
      · by_cases hp : p l = true
        · simp [hinside, hp]
        · simp [hinside, hp, ih]
      · simp [hinside]

end

namespace Buffer

variable {b : Buffer} {i : Nat}

/-- The index of a line is the number of lines of the document without it and the lines below. -/
theorem line_of_suffix {l : Line} {below : List Line} (h : l :: below <:+ b) :
    b.line (b.length - (below.length + 1)) = l ∧
      b.drop (b.length - (below.length + 1) + 1) = below := by
  obtain ⟨above, rfl⟩ := h
  have hlen : (above ++ l :: below).length - (below.length + 1) = above.length := by
    rw [List.length_append, List.length_cons]
    omega
  rw [hlen]
  constructor
  · simp [line, List.getD_eq_getElem?_getD]
  · rw [← List.drop_drop, List.drop_left, List.drop_succ_cons, List.drop_zero]

private theorem drop_eq_cons {l : Line} {below : List Line} (h : b.drop i = l :: below) :
    b.line i = l ∧ b.drop (i + 1) = below ∧ i + (below.length + 1) = b.length := by
  have hlen := congrArg List.length h
  rw [List.length_drop, List.length_cons] at hlen
  refine ⟨?_, ?_, by omega⟩
  · have hget : (b.drop i)[0]? = some l := by rw [h]; rfl
    rw [List.getElem?_drop, Nat.add_zero] at hget
    rw [line, List.getD_eq_getElem?_getD, hget, Option.getD_some]
  · rw [← List.drop_drop, h, List.drop_succ_cons, List.drop_zero]

/-- A search over indexes is a search over lines. -/
theorem find?_range' {q p : Line → Bool} {lines : List Line} (h : b.drop i = lines) :
    (List.range' i (lines.takeWhile q).length).find? (fun j => p (b.line j)) =
      (firstIn? q p lines).map fun r => b.length - (r.2.length + 1) := by
  induction lines generalizing i with
  | nil => rfl
  | cons l below ih =>
      obtain ⟨hline, hdrop, hlen⟩ := drop_eq_cons h
      rw [firstIn?, List.takeWhile_cons]
      by_cases hq : q l = true
      · rw [if_pos hq, if_pos hq, List.length_cons, List.range'_succ, List.find?_cons]
        by_cases hp : p l = true
        · rw [hline, hp, if_pos rfl, Option.map_some]
          simp only [Option.some.injEq]
          omega
        · rw [hline, if_neg hp, ih hdrop]
          simp [hp]
      · simp [hq]

private theorem takeWhile_range' {inside q : Line → Bool} {lines : List Line}
    (h : b.drop i = lines) :
    (List.range' i (lines.takeWhile inside).length).takeWhile (fun j => q (b.line j)) =
      List.range' i (lines.takeWhile fun l => inside l && q l).length := by
  induction lines generalizing i with
  | nil => rfl
  | cons l below ih =>
      obtain ⟨hline, hdrop, _⟩ := drop_eq_cons h
      rw [List.takeWhile_cons, List.takeWhile_cons]
      by_cases hinside : inside l = true
      · by_cases hq : q l = true
        · simp only [hinside, hq, if_true, Bool.and_self, List.length_cons, List.range'_succ,
            List.takeWhile_cons, hline, ih hdrop]
        · simp [hinside, hq, List.range'_succ, hline]
      · simp [hinside]

end Buffer

/-- Whether a line belongs to the run of fields at depth `d` of a block with a start line of depth
`base`. -/
def Line.inRun (base d : Nat) (l : Line) : Bool :=
  l.isInside base && (!l.kind.isSignificant || d ≤ l.depth)

/-- A significant line of the run is at least as deep as the fields. -/
theorem Line.le_depth_of_inRun {base d : Nat} {l : Line} (h : l.inRun base d = true)
    (hsig : l.kind.isSignificant = true) : d ≤ l.depth := by
  simp only [inRun, hsig, Bool.not_true, Bool.false_or, Bool.and_eq_true, decide_eq_true_eq] at h
  exact h.2

/-- What is inside a line of the run belongs to the run. -/
theorem Line.inRun_of_isInside {base d m : Nat} {l : Line} (hbase : base ≤ m) (hd : d ≤ m)
    (h : l.isInside m = true) : l.inRun base d = true := by
  rw [inRun, isInside_of_le hbase h, Bool.true_and, Bool.or_eq_true, decide_eq_true_eq]
  rw [isInside, Bool.or_eq_true, decide_eq_true_eq] at h
  rcases h with hblank | hdeep
  · left
    rw [kind_of_allBlank hblank]
    rfl
  · right
    omega

/-- Whether a line is a field at depth `d` with one of the given keys. -/
def Line.isFieldIn (d : Nat) (keys : List (List Char)) (l : Line) : Bool :=
  (l.kind = .parameter && l.depth = d) && l.hasKeyIn keys

/-- The depth of the first item or parameter inside the block, given the lines below its start
line. -/
def entryDepth? (base : Nat) (below : List Line) : Option Nat :=
  (firstIn? (Line.isInside base) (fun l => l.kind.isEntry) below).map fun r => r.1.depth

/-- The first field of the block with one of the given keys, and the lines below it. -/
def fieldBelow? (base : Nat) (keys : List (List Char)) (below : List Line) :
    Option (Line × List Line) :=
  match entryDepth? base below with
  | none => none
  | some d => firstIn? (Line.inRun base d) (Line.isFieldIn d keys) below

namespace Buffer

variable (b : Buffer) (i : Nat)

private theorem interior_stopOf :
    Extent.interior ⟨i, b.stopOf i⟩ = List.range' (i + 1)
      ((b.drop (i + 1)).takeWhile (Line.isInside (b.line i).depth)).length := by
  rw [Extent.interior, stopOf, runAfter, Nat.add_sub_cancel_left]

private theorem line_of_firstIn? {inside p : Line → Bool} {r : Line × List Line}
    (h : firstIn? inside p (b.drop (i + 1)) = some r) :
    b.line (b.length - (r.2.length + 1)) = r.1 :=
  (line_of_suffix ((of_firstIn? h).2.2.trans (List.drop_suffix _ b))).1

theorem fieldDepth?_eq :
    b.fieldDepth? ⟨i, b.stopOf i⟩ = entryDepth? (b.line i).depth (b.drop (i + 1)) := by
  rw [fieldDepth?, interior_stopOf, find?_range' (p := fun l => l.kind.isEntry) rfl, entryDepth?,
    Option.map_map]
  cases h : firstIn? (Line.isInside (b.line i).depth) (fun l => l.kind.isEntry)
      (b.drop (i + 1)) with
  | none => rfl
  | some r =>
      rw [Option.map_some, Option.map_some, Function.comp_apply, line_of_firstIn? b i h]

theorem fieldRun_eq (d : Nat) :
    b.fieldRun ⟨i, b.stopOf i⟩ d = List.range' (i + 1)
      ((b.drop (i + 1)).takeWhile (Line.inRun (b.line i).depth d)).length := by
  rw [fieldRun, interior_stopOf]
  exact takeWhile_range' (q := fun l => !l.kind.isSignificant || d ≤ l.depth) rfl

/-- The first field with one of the given keys, found by a search over the lines. -/
theorem find?_fields (keys : List (List Char)) :
    (b.fields ⟨i, b.stopOf i⟩).find? (fun f => keys.contains f.key) =
      (fieldBelow? (b.line i).depth keys (b.drop (i + 1))).bind fun r =>
        r.1.key?.map fun key => ⟨b.length - (r.2.length + 1), key⟩ := by
  rw [fields, fieldBelow?, fieldDepth?_eq]
  cases hd : entryDepth? (b.line i).depth (b.drop (i + 1)) with
  | none => rfl
  | some d =>
      have hfield (j : Nat) : (b.fieldAt? d j).any (fun f => keys.contains f.key) =
          Line.isFieldIn d keys (b.line j) := by
        unfold fieldAt? Line.isFieldIn Line.hasKeyIn
        by_cases hk : (b.line j).kind = .parameter ∧ (b.line j).depth = d
        · rw [if_pos hk]
          cases (b.line j).key? <;> simp [hk.1, hk.2]
        · rw [if_neg hk]
          cases hkind : decide ((b.line j).kind = .parameter) <;> simp_all
      simp only [List.find?_filterMap, hfield, fieldRun_eq, find?_range' (b := b) rfl]
      cases h : firstIn? (Line.inRun (b.line i).depth d) (Line.isFieldIn d keys)
          (b.drop (i + 1)) with
      | none => rfl
      | some r =>
          have hr := (of_firstIn? h).2.1
          simp only [Line.isFieldIn, Bool.and_eq_true, decide_eq_true_eq] at hr
          rw [Option.map_some, Option.bind_some, Option.bind_some, fieldAt?, line_of_firstIn? b i h,
            if_pos hr.1]

theorem field?_eq (key : List Char) :
    b.field? ⟨i, b.stopOf i⟩ key =
      (fieldBelow? (b.line i).depth [key] (b.drop (i + 1))).bind fun r =>
        r.1.key?.map fun key => ⟨b.length - (r.2.length + 1), key⟩ := by
  rw [← find?_fields, field?]
  refine List.find?_congr fun f _ => ?_
  rw [Bool.eq_iff_iff]
  simp

end Buffer

/-- A field that is found carries one of the keys. -/
theorem of_fieldBelow? {base : Nat} {keys : List (List Char)} {below : List Line}
    {r : Line × List Line} (h : fieldBelow? base keys below = some r) :
    r.1.kind = .parameter ∧ (∃ key ∈ keys, r.1.key? = some key) ∧ base < r.1.depth ∧
      r.1 :: r.2 <:+ below := by
  unfold fieldBelow? at h
  split at h
  · cases h
  · obtain ⟨hrun, hfield, hsuffix⟩ := of_firstIn? h
    simp only [Line.isFieldIn, Line.hasKeyIn, Bool.and_eq_true, decide_eq_true_eq] at hfield
    obtain ⟨⟨hkind, _⟩, hkey⟩ := hfield
    rw [Line.inRun, Bool.and_eq_true] at hrun
    have htext := Line.allBlank_of_kind_ne (by rw [hkind]; decide)
    refine ⟨hkind, ?_, (Line.isInside_iff htext).1 hrun.1, hsuffix⟩
    split at hkey
    · cases hkey
    · next key heq => exact ⟨key, List.contains_iff_mem.1 hkey, heq⟩

namespace Buffer

variable (b : Buffer) (i : Nat)

theorem any_fields_eq (keys : List (List Char)) :
    ((b.fields ⟨i, b.stopOf i⟩).any fun f => keys.contains f.key) =
      (fieldBelow? (b.line i).depth keys (b.drop (i + 1))).isSome := by
  have h : ((b.fields ⟨i, b.stopOf i⟩).any fun f => keys.contains f.key) =
      ((b.fields ⟨i, b.stopOf i⟩).find? fun f => keys.contains f.key).isSome := by
    rw [Bool.eq_iff_iff, List.any_eq_true, List.find?_isSome]
  rw [h, find?_fields]
  cases hr : fieldBelow? (b.line i).depth keys (b.drop (i + 1)) with
  | none => rfl
  | some r =>
      obtain ⟨key, _, hkey⟩ := (of_fieldBelow? hr).2.1
      simp [hkey]

theorem hasField_eq (key : List Char) :
    b.hasField ⟨i, b.stopOf i⟩ key =
      (fieldBelow? (b.line i).depth [key] (b.drop (i + 1))).isSome := by
  rw [← any_fields_eq, hasField, Bool.eq_iff_iff, List.any_eq_true, List.any_eq_true]
  simp

theorem fieldValue?_eq (key : List Char) :
    b.fieldValue? ⟨i, b.stopOf i⟩ key =
      (fieldBelow? (b.line i).depth [key] (b.drop (i + 1))).bind fun r => r.1.value? := by
  rw [fieldValue?, field?_eq]
  cases hr : fieldBelow? (b.line i).depth [key] (b.drop (i + 1)) with
  | none => rfl
  | some r =>
      obtain ⟨_, ⟨key', _, hkey⟩, _, hsuffix⟩ := of_fieldBelow? hr
      have hline := (line_of_suffix (hsuffix.trans (List.drop_suffix _ b))).1
      simp [hkey, hline]

end Buffer

end TaskTidy

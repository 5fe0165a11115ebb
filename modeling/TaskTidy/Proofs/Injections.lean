import TaskTidy.Proofs.BlockRules
import TaskTidy.Proofs.Placement
import TaskTidy.Proofs.Shift
import TaskTidy.Rule.Injection

/-!
# Injections settle

A block that still asks for the field after an injection is cut: a shallower line ends the run of
its fields before the first of them. The next injection into such a block stands above that line and
is found. So the first sweep leaves only cut blocks asking, and the second sweep satisfies them.
-/

namespace TaskTidy

/-- A field injection read as a question about a block: whether it asks for the field, given its
start line and the lines below it. The injected line asks nothing, and it raises no question in a
block that keeps its fields. -/
structure Injects (r : FieldInjection) (asks : Line → List Line → Bool) (starts : Line → Bool) :
    Prop where
  isBareKey : Buffer.isBareKey r.field = true
  isSome_answer? : ∀ (b : Buffer) (i : Nat), (r.toBlockRule.answer? b i).isSome =
    (b.isTask ⟨i, b.stopOf i⟩ && asks (b.line i) (b.drop (i + 1)))
  isEntry : ∀ {l : Line} {below : List Line}, asks l below = true → l.kind.isEntry = true
  missing : ∀ {l : Line} {below : List Line}, asks l below = true →
    fieldBelow? l.depth [r.field] below = none
  starts_of_asks : ∀ {l : Line} {below : List Line}, asks l below = true → starts l = true
  not_starts : ∀ (depth : Nat) (value : List Char),
    starts (Buffer.fieldLine depth r.field value) = false
  insert : ∀ {l : Line} {A D : List Line} {depth : Nat} {b : Buffer} {e : Extent}
    {value : List Char}, r.value? b e = some value →
      KeepsFields l.depth A D (Buffer.fieldLine depth r.field value) →
        asks l (A ++ Buffer.fieldLine depth r.field value :: D) = true → asks l (A ++ D) = true

/-- An answer of an injection inserts the line of the field at the place for it. -/
theorem FieldInjection.of_answer? {r : FieldInjection} {b : Buffer} {i : Nat} {edit : BlockEdit}
    (h : r.toBlockRule.answer? b i = some edit) :
    ∃ value, r.value? b ⟨i, b.stopOf i⟩ = some value ∧
      edit = .insert (b.insertionIndex ⟨i, b.stopOf i⟩ r.anchors)
        (Buffer.fieldLine (b.childDepth ⟨i, b.stopOf i⟩) r.field value) := by
  have hedit := (BlockRule.answer?_eq_some_iff.1 h).2
  simp only [FieldInjection.toBlockRule, FieldInjection.edit] at hedit
  split at hedit
  · cases hedit
  · split at hedit
    · cases hedit
    · next value hvalue =>
        cases hedit
        exact ⟨value, hvalue, rfl⟩

namespace Buffer

/-- A block that ends at the inserted line keeps its fields if only blank lines of it are cut
off. -/
theorem keepsFields_of_stopOf {b : Buffer} {j p : Nat} {x : Line} (hp : p ≤ b.length) (hjp : j < p)
    (hx : x.isInside (b.line j).depth = false)
    (hblank : ∀ k, p ≤ k → k < b.stopOf j → (b.line k).kind = .blank) :
    KeepsFields (b.line j).depth ((b.drop (j + 1)).take (p - (j + 1))) (b.drop p) x := by
  refine .of_cut fun hall => ⟨hx, fun l hl => ?_⟩
  have hlen : (b.runAfter j (Line.isInside (b.line j).depth)).length =
      p - (j + 1) + ((b.drop p).takeWhile (Line.isInside (b.line j).depth)).length := by
    calc (b.runAfter j (Line.isInside (b.line j).depth)).length
        = (((b.drop (j + 1)).take (p - (j + 1)) ++ b.drop p).takeWhile
            (Line.isInside (b.line j).depth)).length := by rw [runAfter, ← drop_of_lt hjp]
      _ = ((b.drop (j + 1)).take (p - (j + 1))).length +
            ((b.drop p).takeWhile (Line.isInside (b.line j).depth)).length := by
          rw [List.takeWhile_append_of_pos (List.all_eq_true.1 hall), List.length_append]
      _ = _ := by
          rw [List.length_take, List.length_drop, Nat.min_eq_left (by omega)]
  obtain ⟨m, hm, rfl⟩ := List.getElem_of_mem hl
  rw [(List.takeWhile_prefix _).getElem hm, List.getElem_drop, ← line_eq_getElem]
  apply hblank
  · exact Nat.le_add_right p m
  · rw [stopOf, hlen]
    omega

/-- Whether the run of fields of the block at line `i` is cut off before its first entry. -/
def IsCutAt (b : Buffer) (i : Nat) : Prop :=
  IsCut (b.line i).depth (b.drop (i + 1))

/-- The line that cuts a block: no entry stands between the start of the block and that line, which
is no entry itself and shallower than the fields. -/
theorem IsCutAt.exists_line {b : Buffer} {i : Nat} (h : b.IsCutAt i) :
    ∃ d k, entryDepth? (b.line i).depth (b.drop (i + 1)) = some d ∧ i < k ∧
      (∀ j, i < j → j ≤ k → (b.line j).kind.isEntry = false) ∧
      (b.line k).kind.isSignificant = true ∧ (b.line k).depth < d := by
  obtain ⟨d, M, q, N, hd, hsplit, hM, hq, hsig, hdepth⟩ := exists_of_isCut h
  have hget (m : Nat) : b.line (i + 1 + m) = (M ++ q :: N).getD m [] := by
    rw [← hsplit, Buffer.line, List.getD_eq_getElem?_getD, List.getD_eq_getElem?_getD,
      List.getElem?_drop]
  have hline : b.line (i + 1 + M.length) = q := by
    rw [hget, List.getD_eq_getElem?_getD, List.getElem?_append_right (Nat.le_refl _), Nat.sub_self]
    rfl
  refine ⟨d, i + 1 + M.length, hd, by omega, fun j hij hj => ?_, by rw [hline, hsig],
    by rwa [hline]⟩
  obtain ⟨m, rfl⟩ : ∃ m, j = i + 1 + m := ⟨j - (i + 1), by omega⟩
  rcases Nat.lt_or_eq_of_le (Nat.le_of_add_le_add_left hj) with hm | rfl
  · rw [hget, List.getD_eq_getElem?_getD, List.getElem?_append_left hm,
      List.getElem?_eq_getElem hm, Option.getD_some]
    exact hM _ (List.getElem_mem hm)
  · rw [hline, hq]

end Buffer

namespace Injects

variable {r : FieldInjection} {asks : Line → List Line → Bool} {starts : Line → Bool} {b : Buffer}
  {i j p : Nat} {x : Line}

/-- An answer at a line is a question of an entry of the document. -/
theorem of_isSome (h : Injects r asks starts) (hi : (r.toBlockRule.answer? b i).isSome = true) :
    b.isTask ⟨i, b.stopOf i⟩ = true ∧ asks (b.line i) (b.drop (i + 1)) = true := by
  rw [h.isSome_answer?, Bool.and_eq_true] at hi
  exact hi

/-- There is no answer where a line is no task or asks for nothing. -/
theorem answer?_eq_none_iff (h : Injects r asks starts) : r.toBlockRule.answer? b i = none ↔
    ¬(b.isTask ⟨i, b.stopOf i⟩ = true ∧ asks (b.line i) (b.drop (i + 1)) = true) := by
  rw [← Option.not_isSome_iff_eq_none, h.isSome_answer?, Bool.and_eq_true]

/-- The injection of line `x` at `p` for the block at line `i`. -/
structure At (r : FieldInjection) (b : Buffer) (i p : Nat) (x : Line) : Prop where
  place_eq : p = b.insertionIndex ⟨i, b.stopOf i⟩ r.anchors
  isPlace : b.IsPlace i p
  cutsNoBlock : b.CutsNoBlock i p
  isEntry : (b.line i).kind.isEntry = true
  isLine : ∃ value, r.value? b ⟨i, b.stopOf i⟩ = some value ∧
    x = Buffer.fieldLine (b.childDepth ⟨i, b.stopOf i⟩) r.field value
  lt_length : i < b.length

/-- A new field goes to its place, whatever block of an entry it is for. -/
theorem at_insertionIndex (hi : i < b.length) (hentry : (b.line i).kind.isEntry = true)
    {value : List Char} (hvalue : r.value? b ⟨i, b.stopOf i⟩ = some value) :
    At r b i (b.insertionIndex ⟨i, b.stopOf i⟩ r.anchors)
      (Buffer.fieldLine (b.childDepth ⟨i, b.stopOf i⟩) r.field value) :=
  ⟨rfl, b.isPlace_insertionIndex i r.anchors, b.cutsNoBlock_insertionIndex i r.anchors, hentry,
    ⟨value, hvalue, rfl⟩, hi⟩

theorem exists_at (hi : i < b.length) {edit : BlockEdit}
    (hanswer : r.toBlockRule.answer? b i = some edit) :
    ∃ p x, edit = .insert p x ∧ At r b i p x := by
  obtain ⟨value, hvalue, rfl⟩ := FieldInjection.of_answer? hanswer
  have hentry : (b.line i).kind.isEntry = true :=
    Target.isEntry_of_selects (BlockRule.answer?_eq_some_iff.1 hanswer).1
  exact ⟨_, _, rfl, at_insertionIndex hi hentry hvalue⟩

/-- The answer for a block is the injection of its line at its place. -/
theorem At.answer?_eq (hx : At r b i p x) (hsome : (r.toBlockRule.answer? b i).isSome = true) :
    r.toBlockRule.answer? b i = some (.insert p x) := by
  obtain ⟨edit, hedit⟩ := Option.isSome_iff_exists.1 hsome
  obtain ⟨value, hvalue, rfl⟩ := FieldInjection.of_answer? hedit
  obtain ⟨value', hvalue', rfl⟩ := hx.isLine
  cases Option.some.inj (hvalue.symm.trans hvalue')
  rw [hedit, hx.place_eq]

namespace At

variable (hx : At r b i p x)

include hx

theorem le_length : p ≤ b.length :=
  hx.isPlace.le_length hx.lt_length

/-- The start line of the block stands between a line above it and the place. -/
theorem line_mem (hji : j < i) : b.line i ∈ (b.drop (j + 1)).take (p - (j + 1)) :=
  Buffer.line_mem_of_lt hx.le_length hji hx.isPlace.1

variable (hbare : Buffer.isBareKey r.field = true)

include hbare

theorem depth_eq : x.depth = b.childDepth ⟨i, b.stopOf i⟩ := by
  obtain ⟨value, _, rfl⟩ := hx.isLine
  exact Buffer.depth_fieldLine hbare _ _

/-- No significant line between the start line and the place is shallower than measured fields. -/
theorem depth_le_of_measured {d : Nat}
    (hd : entryDepth? (b.line i).depth (b.drop (i + 1)) = some d) (hij : i < j) (hjp : j < p)
    (hsig : (b.line j).kind.isSignificant = true) : x.depth ≤ (b.line j).depth := by
  have hdepth : b.fieldDepth? ⟨i, b.stopOf i⟩ = some d := by rw [Buffer.fieldDepth?_eq, hd]
  rw [hx.depth_eq hbare, Buffer.childDepth, hdepth]
  exact Line.le_depth_of_inRun (hx.isPlace.2.2 d hdepth j hij hjp) hsig

/-- No entry between the start line and the place is shallower than the new line. -/
theorem depth_le_of_lt (hij : i < j) (hjp : j < p) (hentry : (b.line j).kind.isEntry = true) :
    x.depth ≤ (b.line j).depth := by
  have hmem : j ∈ Extent.interior ⟨i, b.stopOf i⟩ :=
    Extent.mem_interior.2 ⟨hij, Nat.lt_of_lt_of_le hjp hx.isPlace.2.1⟩
  have hsome : (b.fieldDepth? ⟨i, b.stopOf i⟩).isSome = true := by
    rw [Buffer.fieldDepth?, Option.isSome_map, List.find?_isSome]
    exact ⟨j, hmem, hentry⟩
  obtain ⟨d, hd⟩ := Option.isSome_iff_exists.1 hsome
  rw [Buffer.fieldDepth?_eq] at hd
  exact hx.depth_le_of_measured hbare hd hij hjp (isSignificant_of_isEntry hentry)

theorem depth_lt : (b.line i).depth < x.depth := by
  rw [hx.depth_eq hbare]
  exact b.depth_lt_childDepth i

theorem kind_eq : x.kind = .parameter := by
  obtain ⟨value, _, rfl⟩ := hx.isLine
  exact Buffer.kind_fieldLine hbare _ _

theorem key?_eq : x.key? = some r.field := by
  obtain ⟨value, _, rfl⟩ := hx.isLine
  exact Buffer.key?_fieldLine hbare _ _

theorem isInside_of_le {m : Nat} (hm : x.depth ≤ m) : x.isInside m = false := by
  have htext := allBlank_of_isEntry (s := x) (by rw [hx.kind_eq hbare]; rfl)
  rw [Line.isInside, htext, Bool.false_or, decide_eq_false_iff_not]
  omega

/-- Every other block that starts with an entry above the place keeps its fields. -/
theorem keepsFields (hentry : (b.line j).kind.isEntry = true) (hne : i ≠ j) (hjp : j < p) :
    KeepsFields (b.line j).depth ((b.drop (j + 1)).take (p - (j + 1))) (b.drop p) x := by
  rcases Nat.lt_or_gt_of_ne hne with hij | hji
  · exact Buffer.keepsFields_of_stopOf hx.le_length hjp
      (hx.isInside_of_le hbare (hx.depth_le_of_lt hbare hij hjp hentry))
      (hx.cutsNoBlock j hij hjp (isSignificant_of_isEntry hentry))
  · exact .of_isEntry (hx.line_mem hji) hx.isEntry (hx.depth_lt hbare)

end At

section

variable (h : Injects r asks starts) (hx : At r b i p x)

include hx h

/-- The new line raises no question in a block that keeps its fields. -/
theorem At.asks_of_insert {l : Line} {A D : List Line} (hfields : KeepsFields l.depth A D x)
    (hasks : asks l (A ++ x :: D) = true) : asks l (A ++ D) = true := by
  obtain ⟨value, hvalue, rfl⟩ := hx.isLine
  exact h.insert hvalue hfields hasks

/-- A block above asks for no more than before. -/
theorem At.isSome_of_lt (hji : j < i)
    (hj : (r.toBlockRule.answer? (b.insertIdx p x) j).isSome = true) :
    (r.toBlockRule.answer? b j).isSome = true := by
  have hjp : j < p := Nat.lt_trans hji hx.isPlace.1
  obtain ⟨htask, hasks⟩ := h.of_isSome hj
  rw [h.isSome_answer?, Bool.and_eq_true]
  constructor
  · rwa [← Buffer.isTask_insertIdx_of_lt hx.le_length hjp]
  · rw [Buffer.line_insertIdx_of_lt hx.le_length x hjp,
      Buffer.drop_insertIdx_of_lt hx.le_length x hjp] at hasks
    rw [Buffer.drop_of_lt hjp]
    exact hx.asks_of_insert h
      (.of_isEntry (hx.line_mem hji) hx.isEntry (hx.depth_lt h.isBareKey)) hasks

omit h in
/-- A cut block above stays cut. -/
theorem At.isCutAt_of_lt (hji : j < i) (hcut : b.IsCutAt j) :
    Buffer.IsCutAt (b.insertIdx p x) j := by
  have hjp : j < p := Nat.lt_trans hji hx.isPlace.1
  unfold Buffer.IsCutAt at hcut ⊢
  rw [Buffer.line_insertIdx_of_lt hx.le_length x hjp,
    Buffer.drop_insertIdx_of_lt hx.le_length x hjp]
  rw [Buffer.drop_of_lt hjp] at hcut
  exact isCut_insert (hx.line_mem hji) hx.isEntry hcut

omit h in
/-- The lines between the start of the block and the place belong to the block. -/
private theorem At.all_isInside :
    ((b.drop (i + 1)).take (p - (i + 1))).all (Line.isInside (b.line i).depth) = true :=
  List.all_eq_true.2 (Buffer.all_take_of_le_runAfter hx.isPlace.2.1)

omit h in
/-- The lines between the start of the block and the place belong to the run of measured fields. -/
theorem At.all_inRun {d : Nat}
    (hd : entryDepth? (b.line i).depth (b.drop (i + 1)) = some d) :
    ((b.drop (i + 1)).take (p - (i + 1))).all (Line.inRun (b.line i).depth d) = true :=
  hx.isPlace.all_inRun hx.lt_length (by rw [Buffer.fieldDepth?_eq, hd])

/-- A block with measured fields has the field after the injection. -/
theorem At.answer?_of_measured {d : Nat}
    (hd : entryDepth? (b.line i).depth (b.drop (i + 1)) = some d) :
    (r.toBlockRule.answer? (b.insertIdx p x) i).isSome = false := by
  rw [← Bool.not_eq_true]
  intro hsome
  have hmissing := h.missing (h.of_isSome hsome).2
  have hdepth : x.depth = d := by
    rw [hx.depth_eq h.isBareKey, Buffer.childDepth, Buffer.fieldDepth?_eq, hd]
  have hall := hx.all_inRun hd
  rw [Buffer.drop_of_lt hx.isPlace.1] at hd
  have hfound := fieldBelow?_of_measured (hx.kind_eq h.isBareKey) hd hall hdepth
    (hx.key?_eq h.isBareKey)
  rw [Buffer.line_insertIdx_of_lt hx.le_length x hx.isPlace.1,
    Buffer.drop_insertIdx_of_lt hx.le_length x hx.isPlace.1] at hmissing
  rw [hmissing] at hfound
  cases hfound

/-- A block that still asks after its injection is cut. -/
theorem At.isCutAt_self (hsome : (r.toBlockRule.answer? (b.insertIdx p x) i).isSome = true) :
    Buffer.IsCutAt (b.insertIdx p x) i := by
  cases hd : entryDepth? (b.line i).depth (b.drop (i + 1)) with
  | some d =>
      rw [hx.answer?_of_measured h hd] at hsome
      cases hsome
  | none =>
      have hmissing := h.missing (h.of_isSome hsome).2
      unfold Buffer.IsCutAt
      rw [Buffer.line_insertIdx_of_lt hx.le_length x hx.isPlace.1,
        Buffer.drop_insertIdx_of_lt hx.le_length x hx.isPlace.1] at hmissing ⊢
      rw [Buffer.drop_of_lt hx.isPlace.1] at hd
      exact isCut_of_unmeasured (hx.kind_eq h.isBareKey) hd hx.all_isInside
        (hx.depth_lt h.isBareKey) (hx.key?_eq h.isBareKey) hmissing

/-- Between the start of a cut block and the place stands no entry, and every entry below the place
is screened from the new line by the line that cuts the block. -/
theorem At.screened (hcut : b.IsCutAt i) :
    (∀ j, i < j → j < p → (b.line j).kind.isEntry = false) ∧
      ∀ j, p ≤ j → (b.line j).kind.isEntry = true → b.Screened p x j := by
  obtain ⟨d, k, hd, hik, hnone, hsig, hdepth⟩ := hcut.exists_line
  have hpk : p ≤ k := by
    by_contra hkp
    have hrun := hx.isPlace.2.2 d (by rw [Buffer.fieldDepth?_eq, hd]) k hik (Nat.lt_of_not_le hkp)
    have := Line.le_depth_of_inRun hrun hsig
    omega
  refine ⟨fun j hij hjp => hnone j hij (Nat.le_of_lt (Nat.lt_of_lt_of_le hjp hpk)),
    fun j hpj hentry => ⟨k, hpk, ?_, hsig, ?_⟩⟩
  · by_contra hkj
    rw [hnone j (Nat.lt_of_lt_of_le hx.isPlace.1 hpj) (Nat.le_of_not_lt hkj)] at hentry
    cases hentry
  · rw [hx.depth_eq h.isBareKey, Buffer.childDepth, Buffer.fieldDepth?_eq, hd]
    exact hdepth

/-- A block below the place asks for no more than before, if the block of the injection was cut. -/
theorem At.isSome_of_le (hcut : b.IsCutAt i) (hpj : p ≤ j)
    (hj : (r.toBlockRule.answer? (b.insertIdx p x) (j + 1)).isSome = true) :
    (r.toBlockRule.answer? b j).isSome = true := by
  obtain ⟨htask, hasks⟩ := h.of_isSome hj
  rw [Buffer.line_insertIdx_of_le hx.le_length x hpj,
    Buffer.drop_insertIdx_of_le hx.le_length x (Nat.le_succ_of_le hpj)] at hasks
  rw [h.isSome_answer?, Bool.and_eq_true]
  refine ⟨?_, hasks⟩
  rw [← htask]
  exact (Buffer.isTask_insertIdx hx.le_length (hx.screened h hcut).2 hpj (h.isEntry hasks)).symm

/-- A cut block has the field after the injection. -/
theorem At.answer?_of_isCutAt (hcut : b.IsCutAt i) :
    (r.toBlockRule.answer? (b.insertIdx p x) i).isSome = false := by
  obtain ⟨d, hd, _⟩ := hcut
  exact hx.answer?_of_measured h hd

end

/-! ### Sweeps -/

/-- Every block above line `n` that asks for the field is cut. -/
def AsksWhenCut (r : FieldInjection) (b : Buffer) (n : Nat) : Prop :=
  ∀ j < n, (r.toBlockRule.answer? b j).isSome = true → b.IsCutAt j

/-- Only cut blocks ask for the field, and none of them above line `n`. -/
def AsksBelow (r : FieldInjection) (b : Buffer) (n : Nat) : Prop :=
  (∀ j, (r.toBlockRule.answer? b j).isSome = true → b.IsCutAt j) ∧
    ∀ j < n, (r.toBlockRule.answer? b j).isSome = false

section

variable (h : Injects r asks starts) (hx : At r b i p x)

include h

/-- Beyond the end of the document nothing is asked. -/
theorem isSome_of_length_le (hi : b.length ≤ i) : (r.toBlockRule.answer? b i).isSome = false := by
  rw [← Bool.not_eq_true]
  intro hsome
  have hentry := h.isEntry (h.of_isSome hsome).2
  rw [Buffer.line_of_length_le hi] at hentry
  cases hentry

include hx

/-- In the first sweep the blocks that the walk leaves behind are cut if they still ask. -/
theorem At.asksWhenCut (hinv : AsksWhenCut r b i) : AsksWhenCut r (b.insertIdx p x) (i + 1) := by
  intro j hj hsome
  rcases Nat.lt_succ_iff_lt_or_eq.1 hj with hji | rfl
  · exact hx.isCutAt_of_lt hji (hinv j hji (hx.isSome_of_lt h hji hsome))
  · exact hx.isCutAt_self h hsome

/-- In the second sweep every injection satisfies its block and raises no question. -/
theorem At.asksBelow (hcut : b.IsCutAt i) (hinv : AsksBelow r b i) :
    AsksBelow r (b.insertIdx p x) (i + 1) := by
  obtain ⟨hall, hnone⟩ := hinv
  have habove {j : Nat} (hj : j < i) :
      (r.toBlockRule.answer? (b.insertIdx p x) j).isSome = false := by
    rw [← Bool.not_eq_true]
    intro hsome
    have hbefore := hx.isSome_of_lt h hj hsome
    rw [hnone j hj] at hbefore
    cases hbefore
  refine ⟨fun j hsome => ?_, fun j hj => ?_⟩
  · rcases Nat.lt_trichotomy j i with hji | rfl | hij
    · rw [habove hji] at hsome
      cases hsome
    · rw [hx.answer?_of_isCutAt h hcut] at hsome
      cases hsome
    · have hasks := (h.of_isSome hsome).2
      rcases Nat.lt_trichotomy j p with hjp | rfl | hpj
      · have hentry := h.isEntry hasks
        rw [Buffer.line_insertIdx_of_lt hx.le_length x hjp,
          (hx.screened h hcut).1 j hij hjp] at hentry
        cases hentry
      · have hstarts := h.starts_of_asks hasks
        obtain ⟨value, _, rfl⟩ := hx.isLine
        rw [Buffer.line_insertIdx_self hx.le_length, h.not_starts] at hstarts
        cases hstarts
      · obtain ⟨k, rfl⟩ : ∃ k, j = k + 1 := ⟨j - 1, by omega⟩
        have hpk : p ≤ k := Nat.lt_succ_iff.1 hpj
        have hbefore := hall k (hx.isSome_of_le h hcut hpk hsome)
        unfold Buffer.IsCutAt at hbefore ⊢
        rwa [Buffer.line_insertIdx_of_le hx.le_length x hpk,
          Buffer.drop_insertIdx_of_le hx.le_length x (Nat.le_succ_of_le hpk)]
  · rcases Nat.lt_succ_iff_lt_or_eq.1 hj with hji | rfl
    · exact habove hji
    · exact hx.answer?_of_isCutAt h hcut

end

section

open Pass

variable {s : RuleSet} (h : Injects r asks starts) (hl : s.lineRules = [])
  (hb : s.blockRules = [r.toBlockRule])

include h hl hb

/-- A visit leaves the document as it is, or carries out the injection that its block asks for. -/
theorem exists_visit (hi : i < b.length) :
    ∃ v, visit s b i = .ok v ∧
      ((r.toBlockRule.answer? b i).isSome = false ∧ v = ⟨b, [], i + 1⟩ ∨
        ∃ p x, At r b i p x ∧ starts (b.line i) = true ∧
          (r.toBlockRule.answer? b i).isSome = true ∧
            v = ⟨b.insertIdx p x, [⟨r.name, p + 1⟩], i + 1⟩) := by
  have hwithin {edit : BlockEdit} (hanswer : r.toBlockRule.answer? b i = some edit) :
      edit.IsWithin b := by
    obtain ⟨_, _, rfl, hx⟩ := exists_at hi hanswer
    exact hx.le_length
  obtain ⟨v, hv, hcases⟩ := exists_visit_of_answer? hl hb hi hwithin
  refine ⟨v, hv, hcases.imp (And.imp_left fun hnone => by rw [hnone]; rfl) ?_⟩
  rintro ⟨edit, hanswer, rfl⟩
  obtain ⟨p, x, rfl, hx⟩ := exists_at hi hanswer
  have hsome : (r.toBlockRule.answer? b i).isSome = true := by rw [hanswer]; rfl
  exact ⟨p, x, hx, h.starts_of_asks (h.of_isSome hsome).2, hsome, rfl⟩

theorem visit_cases (hi : i < b.length) {v : Visit} (hv : visit s b i = .ok v) :
    (r.toBlockRule.answer? b i).isSome = false ∧ v = ⟨b, [], i + 1⟩ ∨
      ∃ p x, At r b i p x ∧ starts (b.line i) = true ∧
        (r.toBlockRule.answer? b i).isSome = true ∧
          v = ⟨b.insertIdx p x, [⟨r.name, p + 1⟩], i + 1⟩ := by
  obtain ⟨v', hv', hcases⟩ := h.exists_visit hl hb hi
  cases Except.ok.inj (hv.symm.trans hv')
  exact hcases

/-- A visit logs as many edits as it adds lines. -/
theorem length_eq_of_visit (hi : i < b.length) {v : Visit} (hv : visit s b i = .ok v) :
    v.buffer.length = b.length + v.edits.length := by
  rcases h.visit_cases hl hb hi hv with ⟨_, rfl⟩ | ⟨p, x, hx, _, _, rfl⟩
  · rfl
  · exact List.length_insertIdx_of_le_length hx.le_length x

/-- What is left of a sweep: the lines below the walk, those that can start a block twice. -/
def remaining (starts : Line → Bool) (b : Buffer) (i : Nat) : Nat :=
  (b.drop i).length + (b.drop i).countP starts

omit h hl hb in
/-- An injection puts one line below the walk. -/
theorem At.drop_insertIdx (hx : At r b i p x) :
    ((b.insertIdx p x).drop (i + 1)).length = (b.drop (i + 1)).length + 1 ∧
      ∀ q : Line → Bool, q x = false →
        ((b.insertIdx p x).drop (i + 1)).countP q = (b.drop (i + 1)).countP q := by
  have hsplit := Buffer.drop_of_lt (b := b) hx.isPlace.1
  rw [Buffer.drop_insertIdx_of_lt hx.le_length x hx.isPlace.1]
  constructor
  · have hlen := congrArg List.length hsplit
    rw [List.length_append] at hlen
    rw [List.length_append, List.length_cons, hlen, Nat.add_assoc]
  · intro q hq
    have hcount := congrArg (List.countP q) hsplit
    rw [List.countP_append] at hcount
    rw [List.countP_append, List.countP_cons_of_neg (by simp [hq]), hcount]

omit hl hb in
/-- An injection adds a line that starts no block, at the cost of one that does. -/
theorem remaining_insertIdx (hx : At r b i p x) (hstarts : starts (b.line i) = true) :
    remaining starts (b.insertIdx p x) (i + 1) < remaining starts b i := by
  have hx' : starts x = false := by
    obtain ⟨value, _, rfl⟩ := hx.isLine
    exact h.not_starts _ _
  obtain ⟨hlen, hcount⟩ := hx.drop_insertIdx
  rw [remaining, remaining, hlen, hcount starts hx', Buffer.drop_eq_line_cons hx.lt_length,
    List.length_cons, List.countP_cons_of_pos hstarts]
  omega

theorem exists_sweep (b : Buffer) : ∃ result, sweep sweepLimit s b = .ok result := by
  refine exists_sweepFrom (fun _ _ => True) (remaining starts) ?_ trivial ?_
  · intro b i hi _
    obtain ⟨v, hv, ⟨_, rfl⟩ | ⟨p, x, hx, hstarts, _, rfl⟩⟩ := h.exists_visit hl hb hi
    · refine ⟨_, hv, trivial, ?_⟩
      dsimp only
      rw [remaining, remaining, Buffer.drop_eq_line_cons hi, List.length_cons, List.countP_cons]
      omega
    · exact ⟨_, hv, trivial, h.remaining_insertIdx hx hstarts⟩
  · have := List.countP_le_length (p := starts) (l := b.drop 0)
    rw [remaining, sweepLimit]
    rw [List.length_drop] at *
    omega

/-- The first sweep leaves only cut blocks asking. -/
theorem asksWhenCut_of_sweep {last : Buffer} {edits : List Edit}
    (hsweep : sweep sweepLimit s b = .ok (last, edits)) :
    ∀ j, (r.toBlockRule.answer? last j).isSome = true → last.IsCutAt j := by
  have preserved {b : Buffer} {i : Nat} {v : Visit} (hi : i < b.length)
      (hinv : AsksWhenCut r b i) (hvisit : visit s b i = .ok v) :
      AsksWhenCut r v.buffer v.next := by
    rcases h.visit_cases hl hb hi hvisit with ⟨hnone, rfl⟩ | ⟨p, x, hx, _, _, rfl⟩
    · intro j hj hsome
      rcases Nat.lt_succ_iff_lt_or_eq.1 hj with hji | rfl
      · exact hinv j hji hsome
      · rw [hnone] at hsome
        cases hsome
    · exact hx.asksWhenCut h hinv
  obtain ⟨n, hn, hinv⟩ := sweepFrom_induction _ preserved
    (fun j hj => absurd hj (Nat.not_lt_zero j)) hsweep
  intro j hsome
  rcases Nat.lt_or_ge j last.length with hj | hj
  · exact hinv j (Nat.lt_of_lt_of_le hj hn) hsome
  · rw [h.isSome_of_length_le hj] at hsome
    cases hsome

/-- The second sweep leaves no block asking. -/
theorem isSettled_of_sweep {last : Buffer} {edits : List Edit}
    (hcut : ∀ j, (r.toBlockRule.answer? b j).isSome = true → b.IsCutAt j)
    (hsweep : sweep sweepLimit s b = .ok (last, edits)) : IsSettled s last := by
  have preserved {b : Buffer} {i : Nat} {v : Visit} (hi : i < b.length)
      (hinv : AsksBelow r b i) (hvisit : visit s b i = .ok v) : AsksBelow r v.buffer v.next := by
    rcases h.visit_cases hl hb hi hvisit with ⟨hnone, rfl⟩ | ⟨p, x, hx, _, hsome, rfl⟩
    · refine ⟨hinv.1, fun j hj => ?_⟩
      rcases Nat.lt_succ_iff_lt_or_eq.1 hj with hji | rfl
      · exact hinv.2 j hji
      · exact hnone
    · exact hx.asksBelow h (hinv.1 i hsome) hinv
  obtain ⟨n, hn, hinv⟩ := sweepFrom_induction _ preserved
    ⟨hcut, fun j hj => absurd hj (Nat.not_lt_zero j)⟩ hsweep
  refine isSettled_of_answer? hl hb fun i hi => ?_
  have hnone := hinv.2 i (Nat.lt_of_lt_of_le hi hn)
  rwa [Option.isSome_eq_false_iff, Option.isNone_iff_eq_none] at hnone

/-- A set of one injection settles within two sweeps. -/
theorem settlesInTwo : SettlesInTwo s where
  exists_sweep := h.exists_sweep hl hb
  isSettled hfirst hsecond :=
    h.isSettled_of_sweep hl hb (h.asksWhenCut_of_sweep hl hb hfirst) hsecond

end

end Injects

end TaskTidy

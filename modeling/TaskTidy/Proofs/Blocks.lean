import Mathlib.Data.List.Basic
import Mathlib.Data.List.Find
import TaskTidy.Proofs.LineEdits
import TaskTidy.RuleSets.Command

/-!
# What is read off a block

The block of a line ends before the first line that is not inside, so the lines down to its end
decide its extent. Its fields and the command of a module in it are read off the same lines.
-/

namespace TaskTidy

/-- A line inside a block is inside every block that starts at a lesser depth. -/
theorem Line.isInside_of_le {l : Line} {m n : Nat} (h : m ≤ n) (hl : l.isInside n = true) :
    l.isInside m = true := by
  rw [isInside, Bool.or_eq_true, decide_eq_true_eq] at hl ⊢
  exact hl.imp_right fun hlt => Nat.lt_of_le_of_lt h hlt

namespace Buffer

variable {b : Buffer} {i j n : Nat}

theorem length_takeWhile_le {p : Line → Bool} (lines : List Line) :
    (lines.takeWhile p).length ≤ lines.length :=
  (List.takeWhile_sublist p).length_le

theorem length_runAfter_le (b : Buffer) (i : Nat) (p : Line → Bool) :
    (b.runAfter i p).length ≤ b.length - (i + 1) := by
  rw [← List.length_drop]
  exact length_takeWhile_le _

/-- The block of a line ends with the document at the latest. -/
theorem stopOf_le_length (hi : i < b.length) : b.stopOf i ≤ b.length := by
  have hrun := length_runAfter_le b i (Line.isInside (b.line i).depth)
  rw [stopOf]
  omega

theorem drop_eq_line_cons (hi : i < b.length) : b.drop i = b.line i :: b.drop (i + 1) := by
  rw [line_eq_getElem b i hi, ← List.drop_eq_getElem_cons hi]

theorem lt_stopOf (b : Buffer) (i : Nat) : i < b.stopOf i := by
  rw [stopOf]
  omega

private theorem takeWhile_take {p : Line → Bool} {lines : List Line} {k : Nat}
    (h : (lines.takeWhile p).length ≤ k) : (lines.take k).takeWhile p = lines.takeWhile p := by
  rw [← List.take_takeWhile, List.take_of_length_le h]

theorem getElem_runAfter {p : Line → Bool} {k : Nat} (hk : k < (b.runAfter i p).length) :
    (b.runAfter i p)[k] = b.line (i + 1 + k) := by
  have hlen := length_runAfter_le b i p
  rw [line_eq_getElem b _ (by omega), ← List.getElem_drop]
  exact (List.takeWhile_prefix p).getElem hk

theorem mem_runAfter {p : Line → Bool} (hij : i < j) (hj : j < i + 1 + (b.runAfter i p).length) :
    b.line j ∈ b.runAfter i p := by
  have hk : j - (i + 1) < (b.runAfter i p).length := by omega
  have hmem := List.getElem_mem hk
  rwa [getElem_runAfter hk, show i + 1 + (j - (i + 1)) = j by omega] at hmem

/-- The lines of a run are lines of the document that satisfy its predicate. -/
theorem of_lt_runAfter {p : Line → Bool} (hlt : i < j)
    (hj : j < i + 1 + (b.runAfter i p).length) : j < b.length ∧ p (b.line j) = true := by
  have hk : j - (i + 1) < (b.runAfter i p).length := by omega
  have hall : p (b.runAfter i p)[j - (i + 1)] = true :=
    List.mem_takeWhile_imp (List.getElem_mem hk)
  have hlen := length_runAfter_le b i p
  rw [getElem_runAfter hk, show i + 1 + (j - (i + 1)) = j by omega] at hall
  exact ⟨by omega, hall⟩

/-- A line belongs to a run exactly if all lines down to it satisfy the predicate of the run. -/
theorem lt_runAfter_iff {p : Line → Bool} (hij : i < j) :
    j < i + 1 + (b.runAfter i p).length ↔
      j < b.length ∧ ∀ k, i < k → k ≤ j → p (b.line k) = true := by
  constructor
  · intro hj
    refine ⟨(of_lt_runAfter hij hj).1, fun k hik hkj => ?_⟩
    exact (of_lt_runAfter hik (Nat.lt_of_le_of_lt hkj hj)).2
  · rintro ⟨hj, hall⟩
    have hmem (l : Line) (hl : l ∈ (b.drop (i + 1)).take (j - i)) : p l = true := by
      obtain ⟨k, hk, rfl⟩ := List.getElem_of_mem hl
      rw [List.length_take, List.length_drop] at hk
      rw [List.getElem_take, List.getElem_drop, ← line_eq_getElem]
      exact hall _ (by omega) (by omega)
    have hsplit : (b.drop (i + 1)).takeWhile p =
        (b.drop (i + 1)).take (j - i) ++ ((b.drop (i + 1)).drop (j - i)).takeWhile p := by
      rw [← List.takeWhile_append_of_pos hmem, List.take_append_drop]
    rw [runAfter, hsplit, List.length_append, List.length_take, List.length_drop]
    omega

/-- A line below the start of a block belongs to it exactly if all lines down to it are inside. -/
theorem lt_stopOf_iff (hij : i < j) :
    j < b.stopOf i ↔
      j < b.length ∧ ∀ k, i < k → k ≤ j → (b.line k).isInside (b.line i).depth = true :=
  lt_runAfter_iff hij

/-- A run that ends within a beginning of the document is a run of that beginning. -/
theorem runAfter_take {p : Line → Bool} (h : i + 1 + (b.runAfter i p).length ≤ n) :
    Buffer.runAfter (b.take n) i p = b.runAfter i p := by
  rw [runAfter, runAfter, List.drop_take]
  apply takeWhile_take
  rw [runAfter] at h
  omega

theorem stopOf_take (h : b.stopOf i ≤ n) : Buffer.stopOf (b.take n) i = b.stopOf i := by
  have hi : i < n := Nat.lt_of_lt_of_le (lt_stopOf b i) h
  rw [stopOf] at h
  rw [stopOf, stopOf, line_take b hi, runAfter_take h]

private theorem length_takeWhile_drop_le {L : List Line} {k : Nat} {p q : Line → Bool}
    (hpq : ∀ l, p l = true → q l = true) (hk : k ≤ (L.takeWhile q).length) :
    k + ((L.drop k).takeWhile p).length ≤ (L.takeWhile q).length := by
  induction L generalizing k with
  | nil => simpa using hk
  | cons x rest ih =>
      cases k with
      | zero =>
          rw [List.drop_zero, Nat.zero_add, List.takeWhile_cons]
          split
          · next hx =>
              have hrest := ih (Nat.zero_le _)
              rw [List.drop_zero] at hrest
              rw [List.takeWhile_cons, if_pos (hpq x hx), List.length_cons, List.length_cons]
              omega
          · exact Nat.zero_le _
      | succ k =>
          rw [List.takeWhile_cons] at hk ⊢
          split at hk
          · next hx =>
              rw [List.length_cons] at hk
              have hrest := ih (k := k) (by omega)
              rw [if_pos hx, List.length_cons, List.drop_succ_cons]
              omega
          · exact absurd hk (by simp)

/-- A run that starts within another run and holds only lines that belong to it does not leave
it. -/
theorem runAfter_le_runAfter {p q : Line → Bool} (hij : i ≤ j)
    (hj : j < i + 1 + (b.runAfter i q).length) (hpq : ∀ l, p l = true → q l = true) :
    j + 1 + (b.runAfter j p).length ≤ i + 1 + (b.runAfter i q).length := by
  have hrun := length_takeWhile_drop_le (L := b.drop (i + 1)) (k := j - i) hpq (by
    rw [runAfter] at hj
    omega)
  rw [List.drop_drop, show i + 1 + (j - i) = j + 1 by omega] at hrun
  rw [runAfter, runAfter]
  omega

/-- A run below a line of a block that holds only lines inside the block does not leave it. -/
theorem runAfter_le_stopOf {p : Line → Bool} (hij : i ≤ j) (hj : j < b.stopOf i)
    (hp : ∀ l, p l = true → l.isInside (b.line i).depth = true) :
    j + 1 + (b.runAfter j p).length ≤ b.stopOf i :=
  runAfter_le_runAfter hij hj hp

/-- The block of a line of a block does not leave it, unless the line is shallower. -/
theorem stopOf_le_stopOf (hij : i ≤ j) (hj : j < b.stopOf i)
    (hdepth : (b.line i).depth ≤ (b.line j).depth) : b.stopOf j ≤ b.stopOf i := by
  apply runAfter_le_stopOf hij hj
  intro l hl
  exact Line.isInside_of_le hdepth hl

private theorem takeWhile_congr {p q : Nat → Bool} {indexes : List Nat}
    (h : ∀ i ∈ indexes, p i = q i) : indexes.takeWhile p = indexes.takeWhile q := by
  induction indexes with
  | nil => rfl
  | cons i rest ih =>
      rw [List.takeWhile_cons, List.takeWhile_cons, h i List.mem_cons_self,
        ih fun j hj => h j (List.mem_cons_of_mem i hj)]

section

variable {e : Extent} (he : e.stop ≤ n)

include he

private theorem lt_of_mem_interior (h : i ∈ e.interior) : i < n :=
  Nat.lt_of_lt_of_le (Extent.mem_interior.1 h).2 he

theorem fieldDepth?_take : Buffer.fieldDepth? (b.take n) e = b.fieldDepth? e := by
  have hfind : e.interior.find? (fun i => (Buffer.line (b.take n) i).kind.isEntry) =
      e.interior.find? fun i => (b.line i).kind.isEntry :=
    List.find?_congr fun i hi => by rw [line_take b (lt_of_mem_interior he hi)]
  rw [fieldDepth?, fieldDepth?, hfind]
  cases hf : e.interior.find? fun i => (b.line i).kind.isEntry with
  | none => rfl
  | some i =>
      rw [Option.map_some, Option.map_some,
        line_take b (lt_of_mem_interior he (List.mem_of_find?_eq_some hf))]

theorem fieldRun_take (d : Nat) : Buffer.fieldRun (b.take n) e d = b.fieldRun e d :=
  takeWhile_congr fun i hi => by rw [line_take b (lt_of_mem_interior he hi)]

theorem fields_take : Buffer.fields (b.take n) e = b.fields e := by
  rw [fields, fields, fieldDepth?_take he]
  split
  · rfl
  · next d _ =>
      rw [fieldRun_take he]
      apply List.filterMap_congr
      intro i hi
      have hi' : i < n := lt_of_mem_interior he ((List.takeWhile_sublist _).mem hi)
      rw [fieldAt?, fieldAt?, line_take b hi']

theorem blockLines_take : Buffer.blockLines (b.take n) e = b.blockLines e := by
  rw [blockLines, blockLines, List.drop_take, List.take_take, Nat.min_eq_left (by omega)]

end

theorem isTask_take (b : Buffer) {e : Extent} (hstart : e.start < n) :
    Buffer.isTask (b.take n) e = b.isTask e := by
  rw [isTask, isTask, isItemLevel_take b hstart, inTaskList_take b hstart]

theorem findKey?_take {e : Extent} (he : e.stop ≤ n) (hstart : e.start < n)
    (keys : List (List Char)) : Buffer.findKey? (b.take n) e keys = b.findKey? e keys := by
  rw [findKey?, findKey?, line_take b hstart, fields_take he]

/-- The value of a key in a block stays in the block. -/
theorem valueLines_take (hij : i ≤ j) (hj : j < b.stopOf i)
    (hdepth : (b.line i).depth ≤ (b.line j).column) (hn : b.stopOf i ≤ n) :
    Buffer.valueLines (b.take n) j = b.valueLines j := by
  have hrun := runAfter_le_stopOf (p := Line.isInside (b.line j).column) hij hj fun l hl =>
    Line.isInside_of_le hdepth hl
  rw [valueLines, valueLines, line_take b (Nat.lt_of_lt_of_le hj hn),
    runAfter_take (Nat.le_trans hrun hn)]

/-- A line of the value of a key is deeper than the key, unless it is blank. -/
theorem of_mem_valueLines {k : Nat} (h : k ∈ b.valueLines j) :
    j < k ∧ k < j + 1 + (b.runAfter j (Line.isInside (b.line j).column)).length ∧
      (b.line k).isInside (b.line j).column = true := by
  rw [valueLines, List.mem_range'_1] at h
  exact ⟨by omega, h.2, (of_lt_runAfter (by omega) h.2).2⟩

/-- The command of a module stands on its line or on that of its `cmd` argument. -/
theorem of_commandKey?_eq_some {k : Nat} (h : b.commandKey? j = some k) :
    k = j ∨ k ∈ b.valueLines j ∧ (b.line k).kind = .parameter ∧
      (b.line k).hasKey "cmd".toList = true := by
  unfold commandKey? at h
  split at h
  · exact Or.inl (Option.some.inj h).symm
  · have hkey := List.find?_some h
    rw [Bool.and_eq_true, decide_eq_true_eq] at hkey
    exact Or.inr ⟨List.mem_of_find?_eq_some h, hkey⟩

/-- A command is the value behind its key, or the first line of a script that holds text and is no
comment. -/
theorem of_commandLine?_eq_some {command : CommandLine} (h : b.commandLine? j = some command) :
    ∃ key value, b.commandKey? j = some key ∧ (b.line key).value? = some value ∧
      (Line.isScalarHeader value = false ∧ command = ⟨key, value, true⟩ ∨
        Line.isScalarHeader value = true ∧ ∃ k ∈ b.valueLines key,
          command = ⟨k, Text.trim (b.line k), false⟩ ∧
          (!(Text.trim (b.line k)).isEmpty && (Text.trim (b.line k)).head? != some '#') = true ∧
          ∀ m ∈ b.valueLines key, m < k →
            (!(Text.trim (b.line m)).isEmpty && (Text.trim (b.line m)).head? != some '#') =
              false) := by
  unfold commandLine? at h
  split at h
  · cases h
  · next key hkey =>
      split at h
      · cases h
      · next value hvalue =>
          refine ⟨key, value, hkey, hvalue, ?_⟩
          split at h
          · next hheader =>
              obtain ⟨k, hk, rfl⟩ := Option.map_eq_some_iff.1 h
              rw [valueLines] at hk
              obtain ⟨hholds, hmem, hfirst⟩ := List.find?_range'_eq_some.1 hk
              refine Or.inr ⟨hheader, k, hmem, rfl, hholds, fun m hm hmk => ?_⟩
              have hnot := hfirst m (of_mem_valueLines hm).1 hmk
              rwa [Bool.not_eq_true'] at hnot
          · next hheader => exact Or.inl ⟨Bool.eq_false_iff.2 hheader, (Option.some.inj h).symm⟩

section

variable (hij : i ≤ j) (hj : j < b.stopOf i) (hdepth : (b.line i).depth ≤ (b.line j).column)

include hij hj hdepth

theorem lt_stopOf_of_mem_valueLines {k : Nat} (hk : k ∈ b.valueLines j) : k < b.stopOf i := by
  have hrun := runAfter_le_stopOf (p := Line.isInside (b.line j).column) hij hj fun l hl =>
    Line.isInside_of_le hdepth hl
  exact Nat.lt_of_lt_of_le (of_mem_valueLines hk).2.1 hrun

/-- The line that holds the command of a module of a block is in the block. -/
theorem of_commandKey? {k : Nat} (h : b.commandKey? j = some k) :
    j ≤ k ∧ k < b.stopOf i ∧ (b.line i).depth ≤ (b.line k).column := by
  rcases of_commandKey?_eq_some h with rfl | ⟨hmem, hkind, _⟩
  · exact ⟨Nat.le_refl _, hj, hdepth⟩
  · obtain ⟨hjk, _, hinside⟩ := of_mem_valueLines hmem
    refine ⟨Nat.le_of_lt hjk, lt_stopOf_of_mem_valueLines hij hj hdepth hmem, ?_⟩
    have htext := Line.allBlank_of_kind_ne (by rw [hkind]; decide)
    have hdeep := (Line.isInside_iff htext).1 hinside
    have := (b.line k).depth_le_column
    omega

theorem lt_stopOf_of_commandLine? {command : CommandLine} (h : b.commandLine? j = some command) :
    command.index < b.stopOf i := by
  obtain ⟨key, value, hkey, _, hcases⟩ := of_commandLine?_eq_some h
  obtain ⟨hjk, hk, hcolumn⟩ := of_commandKey? hij hj hdepth hkey
  rcases hcases with ⟨_, rfl⟩ | ⟨_, m, hm, rfl, _⟩
  · exact hk
  · exact lt_stopOf_of_mem_valueLines (Nat.le_trans hij hjk) hk hcolumn hm

variable (hn : b.stopOf i ≤ n)

include hn

theorem line_take_of_mem_valueLines {k : Nat} (hk : k ∈ b.valueLines j) :
    Buffer.line (b.take n) k = b.line k :=
  line_take b (Nat.lt_of_lt_of_le (lt_stopOf_of_mem_valueLines hij hj hdepth hk) hn)

theorem commandKey?_take : Buffer.commandKey? (b.take n) j = b.commandKey? j := by
  rw [commandKey?, commandKey?, line_take b (Nat.lt_of_lt_of_le hj hn),
    valueLines_take hij hj hdepth hn]
  split
  · rfl
  · refine List.find?_congr fun k hk => ?_
    rw [line_take_of_mem_valueLines hij hj hdepth hn hk]

/-- The line that holds the command of a module and the lines of its value are in the block, so they
are read off the document that ends with the block. -/
theorem value_take_of_commandKey? {key : Nat} (hkey : b.commandKey? j = some key) :
    Buffer.line (b.take n) key = b.line key ∧
      Buffer.valueLines (b.take n) key = b.valueLines key ∧
      ∀ m ∈ b.valueLines key, Buffer.line (b.take n) m = b.line m := by
  obtain ⟨hjk, hk, hcolumn⟩ := of_commandKey? hij hj hdepth hkey
  have hik := Nat.le_trans hij hjk
  exact ⟨line_take b (Nat.lt_of_lt_of_le hk hn), valueLines_take hik hk hcolumn hn,
    fun m hm => line_take_of_mem_valueLines hik hk hcolumn hn hm⟩

theorem commandLine?_take : Buffer.commandLine? (b.take n) j = b.commandLine? j := by
  rw [commandLine?, commandLine?, commandKey?_take hij hj hdepth hn]
  split
  · rfl
  · next key hkey =>
      obtain ⟨hline, hvalue, hlines⟩ := value_take_of_commandKey? hij hj hdepth hn hkey
      rw [hline, hvalue]
      split
      · rfl
      · split
        · have hfind : (b.valueLines key).find? (fun m =>
              let text := Text.trim (Buffer.line (b.take n) m)
              !text.isEmpty && text.head? != some '#') =
              (b.valueLines key).find? fun m =>
                let text := Text.trim (b.line m)
                !text.isEmpty && text.head? != some '#' :=
            List.find?_congr fun m hm => by simp only [hlines m hm]
          rw [hfind]
          cases hm : (b.valueLines key).find? fun m =>
              let text := Text.trim (b.line m)
              !text.isEmpty && text.head? != some '#' with
          | none => rfl
          | some m => simp only [Option.map_some, hlines m (List.mem_of_find?_eq_some hm)]
        · rfl

theorem commandTexts_take : Buffer.commandTexts (b.take n) j = b.commandTexts j := by
  rw [commandTexts, commandTexts, commandKey?_take hij hj hdepth hn]
  split
  · rfl
  · next key hkey =>
      obtain ⟨hline, hvalue, hlines⟩ := value_take_of_commandKey? hij hj hdepth hn hkey
      rw [hline, hvalue]
      split
      · rfl
      · split
        · apply List.map_congr_left
          intro m hm
          rw [hlines m hm]
        · rfl

end

end Buffer

end TaskTidy

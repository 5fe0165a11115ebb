import Mathlib.Data.List.TakeWhile
import TaskTidy.Proofs.BlockRules
import TaskTidy.Proofs.Entries
import TaskTidy.RuleSets.Pipefail

/-!
# The option for pipelines settles

The option is put in front of a command without touching what the line belongs to. Afterwards every
block that holds the line names the option, and every other block above the line is as it was.
-/

namespace TaskTidy

namespace Line

variable {l : Line}

/-- The text before the value of an entry holds the colon. -/
theorem exists_append_of_entryOf? {s : List Char} {entry : Entry} (h : entryOf? s = some entry) :
    ∃ head, s = head ++ entry.rest ∧ ':' ∈ head := by
  obtain ⟨blanks, after, hsplit, _, hafter, _⟩ := exists_colon_of_entryOf? h
  rw [append_of_splitKey? hsplit]
  obtain ⟨rfl, hrest⟩ | ⟨c, _, rfl⟩ := hafter
  · exact ⟨entry.key ++ (blanks ++ [':']), by simp [hrest], by simp⟩
  · exact ⟨entry.key ++ (blanks ++ [':', c]), by simp, by simp⟩

/-- A line with a value is cut behind its colon. -/
theorem of_splitAtValue? {before value : Line} (h : l.splitAtValue? = some (before, value)) :
    l = before ++ value ∧ ':' ∈ before := by
  unfold splitAtValue? at h
  split at h
  · cases h
  · next entry hentry =>
      split at h
      · cases h
      · cases h
        obtain ⟨head, hbody, hcolon⟩ := exists_append_of_entryOf? hentry
        have hrest := List.takeWhile_append_dropWhile (p := Text.isBlank) (l := entry.rest)
        have hl : l = (l.take l.column ++ head ++ entry.rest.takeWhile Text.isBlank) ++
            Text.trimStart entry.rest := by
          rw [Text.trimStart, List.append_assoc, hrest, List.append_assoc, ← hbody,
            take_column_append_body]
        have hlen := congrArg List.length hl
        rw [List.length_append] at hlen
        have htake : l.take (l.length - (Text.trimStart entry.rest).length) =
            l.take l.column ++ head ++ entry.rest.takeWhile Text.isBlank := by
          have hsub : l.length - (Text.trimStart entry.rest).length =
              (l.take l.column ++ head ++ entry.rest.takeWhile Text.isBlank).length := by
            omega
          rw [hsub]
          exact (congrArg (List.take _) hl).trans List.take_left
        rw [htake]
        exact ⟨hl, by simp [hcolon]⟩

end Line

namespace RuleSets

variable {l l' : Line} {b : Buffer} {i j n : Nat}

theorem contains_strictPipes {s t : Line} :
    Text.contains "pipefail".toList (s ++ strictPipes ++ t) = true := by
  have h : "pipefail".toList <:+: strictPipes := Text.contains_iff.1 (by decide)
  exact Text.contains_iff.2 (h.trans (List.infix_append s strictPipes t))

/-- The option is put behind the colon of a key, or behind the indentation of a line of text, and
nothing is taken away. -/
theorem exists_append_of_insertStrictPipes? {command : CommandLine}
    (h : insertStrictPipes? command l = some l') :
    ∃ before after, l = before ++ after ∧ l' = before ++ strictPipes ++ after ∧
      (command.isInline = true → ':' ∈ before) ∧
        (command.isInline = false → before = l.take l.depth) := by
  unfold insertStrictPipes? at h
  split at h
  · next hinline =>
      split at h
      · cases h
      · next before hsplit =>
          cases h
          obtain ⟨rfl, hcolon⟩ := Line.of_splitAtValue? hsplit
          exact ⟨before, [], rfl, (List.append_nil _).symm, fun _ => hcolon, by simp [hinline]⟩
      · next before c rest hsplit =>
          obtain ⟨rfl, hcolon⟩ := Line.of_splitAtValue? hsplit
          split at h
          · cases h
            exact ⟨before ++ [c], rest, by simp, by simp, fun _ => List.mem_append_left _ hcolon,
              by simp [hinline]⟩
          · cases h
            exact ⟨before, c :: rest, rfl, rfl, fun _ => hcolon, by simp [hinline]⟩
  · next hinline =>
      cases h
      refine ⟨l.take l.depth, l.unindented, ?_, rfl, fun h => absurd h hinline, fun _ => rfl⟩
      rw [Line.take_depth, Line.indentation_append_unindented]

/-- The line stays in its blocks and names the option. -/
theorem of_insertStrictPipes? {command : CommandLine}
    (htext : command.isInline = false → ∃ c ∈ l, Text.isBlank c = false)
    (h : insertStrictPipes? command l = some l') :
    l.SameExtent l' ∧ Text.contains "pipefail".toList l' = true := by
  obtain ⟨before, after, hl, rfl, hinline, hscript⟩ := exists_append_of_insertStrictPipes? h
  refine ⟨?_, contains_strictPipes⟩
  rw [List.append_assoc]
  cases hcommand : command.isInline with
  | true =>
      have hcolon := hinline hcommand
      rw [hl]
      refine .of_mem ?_ (List.mem_append_left _ hcolon) (by decide) (List.mem_append_left _ hcolon)
        (by decide)
      rw [Line.depth_append_of_mem hcolon (by decide), Line.depth_append_of_mem hcolon (by decide)]
  | false =>
      obtain ⟨c, hc, hblank⟩ := htext hcommand
      rw [hscript hcommand]
      refine .of_mem (d := 's') (Line.depth_take_depth_append rfl) hc hblank ?_ (by decide)
      exact List.mem_append_right _ (List.mem_append_left _ (by decide))

private theorem exists_of_trim {l : Line} (h : (Text.trim l).isEmpty = false) :
    ∃ c ∈ l, Text.isBlank c = false := by
  rw [← Bool.not_eq_true] at h
  by_contra hnone
  apply h
  have hall : l.dropWhile Text.isBlank = [] := by
    rw [List.dropWhile_eq_nil_iff]
    intro c hc
    by_contra hblank
    exact hnone ⟨c, hc, by simpa using hblank⟩
  rw [Text.trim, Text.trimStart, hall]
  rfl

/-- The line of a command that is no value holds text. -/
theorem exists_of_commandLine? {command : CommandLine} (h : b.commandLine? i = some command)
    (hinline : command.isInline = false) : ∃ c ∈ b.line command.index, Text.isBlank c = false := by
  obtain ⟨key, value, _, _, ⟨_, rfl⟩ | ⟨_, k, _, rfl, hholds, _⟩⟩ :=
    Buffer.of_commandLine?_eq_some h
  · cases hinline
  · rw [Bool.and_eq_true, Bool.not_eq_true'] at hholds
    exact exists_of_trim hholds.1

/-- The line of a command is that of its module or stands below it, and a line of a script stands
below. -/
theorem le_of_commandLine? {command : CommandLine} (h : b.commandLine? i = some command) :
    i ≤ command.index ∧ (command.isInline = false → i < command.index) := by
  have hkey {key : Nat} (hkey : b.commandKey? i = some key) : i ≤ key := by
    rcases Buffer.of_commandKey?_eq_some hkey with rfl | ⟨hmem, _⟩
    · exact Nat.le_refl _
    · exact Nat.le_of_lt (Buffer.of_mem_valueLines hmem).1
  obtain ⟨key, value, hcommand, _, ⟨_, rfl⟩ | ⟨_, k, hk, rfl, _⟩⟩ :=
    Buffer.of_commandLine?_eq_some h
  · exact ⟨hkey hcommand, nofun⟩
  · have hlt := Nat.lt_of_le_of_lt (hkey hcommand) (Buffer.of_mem_valueLines hk).1
    exact ⟨Nat.le_of_lt hlt, fun _ => hlt⟩

theorem exists_of_findKey? {keys : List (List Char)} {found : Field}
    (h : b.findKey? ⟨i, b.stopOf i⟩ keys = some found) :
    i ≤ found.index ∧ found.index < b.stopOf i ∧
      (b.line i).depth ≤ (b.line found.index).column := by
  unfold Buffer.findKey? at h
  split at h
  · obtain ⟨key, _, rfl⟩ := Option.map_eq_some_iff.1 h
    exact ⟨Nat.le_refl _, Buffer.lt_stopOf b i, Line.depth_le_column _⟩
  · obtain ⟨_, _, hmem, hkind, _, _⟩ := Buffer.of_mem_fields (List.mem_of_find?_eq_some h)
    obtain ⟨hlt, hstop⟩ := Extent.mem_interior.1 hmem
    have htext := Line.allBlank_of_kind_ne (by rw [hkind]; decide)
    have hdeep := (Line.isInside_iff htext).1 (Buffer.of_lt_runAfter hlt hstop).2
    exact ⟨Nat.le_of_lt hlt, hstop,
      Nat.le_of_lt (Nat.lt_of_lt_of_le hdeep (Line.depth_le_column _))⟩

/-- The answer replaces a line of the block by one that names the option. -/
theorem of_answer?_strictPipelines {edit : BlockEdit}
    (h : strictPipelines.toBlockRule.answer? b i = some edit) :
    ∃ k l, edit = .replace k l ∧ i ≤ k ∧ k < b.stopOf i ∧ (b.line k).SameExtent l ∧
      Text.contains "pipefail".toList l = true ∧
        ∃ command, insertStrictPipes? command (b.line k) = some l ∧
          (command.isInline = false → i < k) := by
  obtain ⟨k, l, rfl, _, hrewrite, ⟨hik, hk⟩, _⟩ := ScopedRewrite.answer?_eq_some_iff.1 h
  refine ⟨k, l, rfl, hik, hk, ?_⟩
  simp only [strictPipelines, addStrictPipes?] at hrewrite
  split at hrewrite
  · split at hrewrite
    · cases hrewrite
    · next found hfound =>
        split at hrewrite
        · split at hrewrite
          · cases hrewrite
          · next command hcommand =>
              obtain ⟨l', hl', heq⟩ := Option.map_eq_some_iff.1 hrewrite
              cases heq
              obtain ⟨hextent, hcontains⟩ :=
                of_insertStrictPipes? (exists_of_commandLine? hcommand) hl'
              exact ⟨hextent, hcontains, command, hl', fun hinline =>
                Nat.lt_of_le_of_lt (exists_of_findKey? hfound).1
                  ((le_of_commandLine? hcommand).2 hinline)⟩
        · cases hrewrite
  · cases hrewrite

theorem mem_blockLines (hik : i ≤ k) (hk : k < b.stopOf i) (hlen : k < b.length) :
    b.line k ∈ b.blockLines ⟨i, b.stopOf i⟩ := by
  have hget : (b.drop i)[k - i]? = some (b.line k) := by
    rw [List.getElem?_drop, Nat.add_sub_cancel' hik, List.getElem?_eq_getElem hlen,
      Buffer.line_eq_getElem b k hlen]
  refine List.mem_of_getElem? (i := k - i) ?_
  rw [Buffer.blockLines, List.getElem?_take_of_lt (by dsimp only; omega), hget]

/-- A block that names the option gets no answer. -/
theorem answer?_of_blockContains
    (h : b.blockContains ⟨i, b.stopOf i⟩ "pipefail".toList = true) :
    strictPipelines.toBlockRule.answer? b i = none := by
  have hnone : addStrictPipes? b ⟨i, b.stopOf i⟩ = none := by
    rw [addStrictPipes?, h, Bool.not_true, Bool.and_false]
    rfl
  unfold BlockRule.answer?
  split
  · simp only [ScopedRewrite.toBlockRule, ScopedRewrite.edit, strictPipelines, hnone]
  · rfl

theorem isWithin_of_answer?_strictPipelines (hi : i < b.length) {edit : BlockEdit}
    (h : strictPipelines.toBlockRule.answer? b i = some edit) : edit.IsWithin b := by
  obtain ⟨_, _, rfl, _, hk, _⟩ := of_answer?_strictPipelines h
  exact Nat.lt_of_lt_of_le hk (Buffer.stopOf_le_length hi)

/-- A visit leaves the document, or writes the option into a line that did not name it. -/
theorem visit_pipefail_cases (hi : i < b.length) {v : Pass.Visit}
    (hv : Pass.visit pipefail b i = .ok v) :
    v = ⟨b, [], i + 1⟩ ∨
      ∃ k l command, k < b.length ∧ Text.contains "pipefail".toList (b.line k) = false ∧
        Text.contains "pipefail".toList l = true ∧
          insertStrictPipes? command (b.line k) = some l ∧
            v = ⟨b.set k l, [⟨"pipefail", k + 1⟩], i + 1⟩ := by
  rcases Pass.visit_cases_of_answer? rfl rfl hi hv (isWithin_of_answer?_strictPipelines hi) with
    ⟨_, hquiet⟩ | ⟨edit, hanswer, hvisit⟩
  · exact Or.inl hquiet
  · obtain ⟨k, l, rfl, hik, hk, _, hcontains, command, hinsert, _⟩ :=
      of_answer?_strictPipelines hanswer
    have hkb : k < b.length := Nat.lt_of_lt_of_le hk (Buffer.stopOf_le_length hi)
    have hlacks : Text.contains "pipefail".toList (b.line k) = false := by
      rw [← Bool.not_eq_true]
      intro hnamed
      have hblock : b.blockContains ⟨i, b.stopOf i⟩ "pipefail".toList = true :=
        List.any_eq_true.2 ⟨b.line k, mem_blockLines hik hk hkb, hnamed⟩
      rw [answer?_of_blockContains hblock] at hanswer
      cases hanswer
    have hne : l ≠ b.line k := by
      rintro rfl
      rw [hcontains] at hlacks
      cases hlacks
    rw [BlockEdit.apply, BlockEdit.logged, if_neg hne] at hvisit
    exact Or.inr ⟨k, l, command, hkb, hlacks, hcontains, hinsert, hvisit⟩

section

variable (hn : b.stopOf i ≤ n)

include hn

theorem addStrictPipes?_take :
    addStrictPipes? (b.take n) ⟨i, b.stopOf i⟩ = addStrictPipes? b ⟨i, b.stopOf i⟩ := by
  have hi : i < n := Nat.lt_of_lt_of_le (Buffer.lt_stopOf b i) hn
  have htask : Buffer.isTask (b.take n) ⟨i, b.stopOf i⟩ = b.isTask ⟨i, b.stopOf i⟩ :=
    Buffer.isTask_take b hi
  have hcontains : Buffer.blockContains (b.take n) ⟨i, b.stopOf i⟩ "pipefail".toList =
      b.blockContains ⟨i, b.stopOf i⟩ "pipefail".toList := by
    simp only [Buffer.blockContains, Buffer.blockLines_take (e := ⟨i, b.stopOf i⟩) hn]
  rw [addStrictPipes?, addStrictPipes?, htask, hcontains, Buffer.findKey?_take hn hi]
  split
  · split
    · rfl
    · next found hfound =>
        obtain ⟨hij, hj, hdepth⟩ := exists_of_findKey? hfound
        rw [Buffer.commandTexts_take hij hj hdepth hn, Buffer.commandLine?_take hij hj hdepth hn]
        split
        · split
          · rfl
          · next command hcommand =>
              rw [Buffer.line_take b (Nat.lt_of_lt_of_le
                (Buffer.lt_stopOf_of_commandLine? hij hj hdepth hcommand) hn)]
        · rfl
  · rfl

/-- The answer for a block depends on the lines down to the end of the block. -/
theorem answer?_take :
    strictPipelines.toBlockRule.answer? (b.take n) i = strictPipelines.toBlockRule.answer? b i := by
  have hselects : strictPipelines.toBlockRule.selects (b.take n) i =
      strictPipelines.toBlockRule.selects b i :=
    Target.selects_itemsWithKey_take hn shellModules
  have hedit : strictPipelines.toBlockRule.edit (b.take n) ⟨i, b.stopOf i⟩ =
      strictPipelines.toBlockRule.edit b ⟨i, b.stopOf i⟩ := by
    simp only [ScopedRewrite.toBlockRule, ScopedRewrite.edit, strictPipelines,
      addStrictPipes?_take hn]
    split
    · rfl
    · next k l _ =>
        by_cases hk : (Extent.mk i (b.stopOf i)).contains k = true
        · have hkn : k < n := by
            simp only [Extent.contains, Bool.and_eq_true, decide_eq_true_eq] at hk
            omega
          rw [Buffer.line_take b hkn]
        · simp [hk]
  rw [BlockRule.answer?, BlockRule.answer?, hselects, Buffer.stopOf_take hn, hedit]

end

/-- A block keeps its extent when a line at or below its start is replaced by one of the same
extent. -/
private theorem stopOf_set_of_le (hi : j < b.length) (hij : i ≤ j) (hl : (b.line j).SameExtent l) :
    Buffer.stopOf (b.set j l) i = b.stopOf i := by
  rcases Nat.lt_or_eq_of_le hij with hlt | rfl
  · exact Buffer.stopOf_set hlt hl
  · rw [Buffer.stopOf, Buffer.stopOf, Buffer.line_set_self hi, hl.1, Buffer.runAfter,
      Buffer.runAfter, List.drop_set_of_lt (Nat.lt_succ_self i)]

/-- A block above the replaced line that had no answer has none afterwards. -/
theorem answer?_set (hj : j < b.length) (hij : i ≤ j) (hl : (b.line j).SameExtent l)
    (hcontains : Text.contains "pipefail".toList l = true)
    (h : b.stopOf i ≤ j → strictPipelines.toBlockRule.answer? b i = none) :
    strictPipelines.toBlockRule.answer? (b.set j l) i = none := by
  have hstop := stopOf_set_of_le hj hij hl
  rcases Nat.lt_or_ge j (b.stopOf i) with hin | hout
  · refine answer?_of_blockContains ?_
    rw [hstop, Buffer.blockContains, List.any_eq_true]
    refine ⟨l, ?_, hcontains⟩
    have hget : ((b.set j l).drop i)[j - i]? = some l := by
      rw [List.getElem?_drop, Nat.add_sub_cancel' hij, List.getElem?_set_self hj]
    rw [Buffer.blockLines]
    refine List.mem_of_getElem? (i := j - i) ?_
    rw [List.getElem?_take_of_lt (by dsimp only; omega), hget]
  · have htake : (b.set j l).take (b.stopOf i) = b.take (b.stopOf i) := List.take_set_of_le hout
    have hafter := answer?_take (b := b.set j l) (Nat.le_of_eq hstop)
    rw [htake, answer?_take (Nat.le_refl _), h hout] at hafter
    exact hafter.symm

/-- A visit for the option keeps the number of lines, and no block down to the visited line asks for
the option if none above it did. -/
private theorem exists_visit_pipefail {b : Buffer} {i : Nat} (hi : i < b.length) :
    ∃ v, Pass.visit pipefail b i = .ok v ∧ v.next = i + 1 ∧ v.buffer.length = b.length ∧
      ((∀ j < i, strictPipelines.toBlockRule.answer? b j = none) →
        ∀ j < i + 1, strictPipelines.toBlockRule.answer? v.buffer j = none) := by
  obtain ⟨v, hv, hcases⟩ := Pass.exists_visit_of_answer? (s := pipefail) rfl rfl hi
    (isWithin_of_answer?_strictPipelines hi)
  refine ⟨v, hv, ?_⟩
  rcases hcases with ⟨hnone, rfl⟩ | ⟨edit, hanswer, rfl⟩
  · refine ⟨rfl, rfl, fun habove j hj => ?_⟩
    rcases Nat.lt_succ_iff_lt_or_eq.1 hj with hj | rfl
    · exact habove j hj
    · exact hnone
  · obtain ⟨k, l, rfl, hik, hk, hextent, hcontains, _⟩ := of_answer?_strictPipelines hanswer
    have hkb : k < b.length := Nat.lt_of_lt_of_le hk (Buffer.stopOf_le_length hi)
    refine ⟨rfl, List.length_set, fun habove j hj => ?_⟩
    refine answer?_set hkb (by omega) hextent hcontains fun hout => ?_
    rcases Nat.lt_succ_iff_lt_or_eq.1 hj with hj | rfl
    · exact habove j hj
    · omega

/-- One sweep settles the pipelines: an answer leaves no question in the blocks above. -/
theorem settlesInOne_pipefail : Pass.SettlesInOne pipefail := by
  refine ⟨fun b => ?_, fun {b last edits} h => ?_⟩
  · refine Pass.exists_sweepFrom (fun _ _ => True) (fun b i => b.length - i) ?_
      trivial (Nat.le_trans (Nat.sub_le _ _) (Pass.length_le_sweepLimit b))
    intro b i hi _
    obtain ⟨v, hv, hnext, hlen, _⟩ := exists_visit_pipefail hi
    exact ⟨v, hv, trivial, by omega⟩
  · have preserved {b : Buffer} {i : Nat} {v : Pass.Visit} (hi : i < b.length)
        (hinv : ∀ j < i, strictPipelines.toBlockRule.answer? b j = none)
        (hvisit : Pass.visit pipefail b i = .ok v) :
        ∀ j < v.next, strictPipelines.toBlockRule.answer? v.buffer j = none := by
      obtain ⟨v', hv', hnext, _, hstep⟩ := exists_visit_pipefail hi
      cases Except.ok.inj (hvisit.symm.trans hv')
      rw [hnext]
      exact hstep hinv
    obtain ⟨j, hj, hnone⟩ := Pass.sweepFrom_induction _ preserved
      (fun j hj => absurd hj (Nat.not_lt_zero j)) h
    exact Pass.isSettled_of_answer? rfl rfl fun i hi => hnone i (Nat.lt_of_lt_of_le hi hj)

end RuleSets

end TaskTidy

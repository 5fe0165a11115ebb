import TaskTidy.Proofs.FailureKeys
import TaskTidy.Proofs.MarkedPipes

/-!
# Tasks with strict pipelines

A pass of the option for pipelines is complete and minimal. A task whose shell runs a pipe names the
option afterwards, and the option is put into a line only for such a task, right in front of its
command. A block is edited only while it does not name the option, so its lines are those that the
pass starts from, and its command is read as in that document. A line of a script that gets the
option is no key and no item any more, so it makes no item below it a task.
-/

namespace TaskTidy

open RuleSets

/-! ### What a block says -/

namespace Buffer

variable {b c : Buffer} {i : Nat} {keys : List (List Char)} {found : Field}

/-- The lines down to the end of a block are those above it and its own. -/
theorem take_stopOf_eq (b : Buffer) (i : Nat) :
    b.take (b.stopOf i) = b.take i ++ b.blockLines ⟨i, b.stopOf i⟩ := by
  rw [blockLines, ← List.take_add, Nat.add_sub_cancel' (Nat.le_of_lt (b.lt_stopOf i))]

section

variable (hi : i < b.length)

include hi

theorem length_take_of_lt : (b.take i).length = i := by
  rw [List.length_take, Nat.min_eq_left (Nat.le_of_lt hi)]

/-- The key of a block is found among its own lines. -/
theorem findKey?_eq_of_blockLines (keys : List (List Char)) :
    b.findKey? ⟨i, b.stopOf i⟩ keys =
      (Buffer.findKey? (b.blockLines ⟨i, b.stopOf i⟩) ⟨0, b.stopOf i - i⟩ keys).map
        (Field.lower i) := by
  have hlen := length_take_of_lt hi
  have hlower : Extent.mk i (b.stopOf i) =
      Extent.lower (b.take i).length ⟨0, b.stopOf i - i⟩ := by
    rw [hlen, Extent.lower, Nat.add_zero, Nat.add_sub_cancel' (Nat.le_of_lt (b.lt_stopOf i))]
  rw [← findKey?_take (Nat.le_refl _) (b.lt_stopOf i), take_stopOf_eq]
  generalize b.blockLines ⟨i, b.stopOf i⟩ = lines
  rw [hlower, findKey?_append_right, hlen]

/-- The command of the module of a block is read from the lines of the block. -/
theorem commandLine?_eq_of_blockLines (hfound : b.findKey? ⟨i, b.stopOf i⟩ keys = some found) :
    b.commandLine? found.index =
      (Buffer.commandLine? (b.blockLines ⟨i, b.stopOf i⟩) (found.index - i)).map
        (CommandLine.lower i) := by
  obtain ⟨hle, hlt, hdepth⟩ := exists_of_findKey? hfound
  have hindex : found.index = (b.take i).length + (found.index - i) := by
    rw [length_take_of_lt hi, Nat.add_sub_cancel' hle]
  rw [← commandLine?_take hle hlt hdepth (Nat.le_refl _), take_stopOf_eq]
  conv_lhs => rw [hindex]
  rw [commandLine?_append_right, length_take_of_lt hi]

theorem commandTexts_eq_of_blockLines (hfound : b.findKey? ⟨i, b.stopOf i⟩ keys = some found) :
    b.commandTexts found.index =
      Buffer.commandTexts (b.blockLines ⟨i, b.stopOf i⟩) (found.index - i) := by
  obtain ⟨hle, hlt, hdepth⟩ := exists_of_findKey? hfound
  have hindex : found.index = (b.take i).length + (found.index - i) := by
    rw [length_take_of_lt hi, Nat.add_sub_cancel' hle]
  rw [← commandTexts_take hle hlt hdepth (Nat.le_refl _), take_stopOf_eq]
  conv_lhs => rw [hindex]
  rw [commandTexts_append_right]

end

/-- The lines of a block are the same if the documents have the same lines there. -/
theorem blockLines_congr {e : Extent} (hlen : c.length = b.length)
    (h : ∀ k, e.start ≤ k → k < e.stop → c.line k = b.line k) :
    c.blockLines e = b.blockLines e := by
  refine List.ext_getElem ?_ fun n hn hn' => ?_
  · rw [blockLines, blockLines, List.length_take, List.length_take, List.length_drop,
      List.length_drop, hlen]
  · rw [blockLines, List.length_take, List.length_drop] at hn hn'
    simp only [blockLines, List.getElem_take, List.getElem_drop]
    rw [← line_eq_getElem, ← line_eq_getElem]
    exact h _ (by omega) (by omega)

theorem SameExtents.stopOf_eq (he : SameExtents b c) (hlen : c.length = b.length) (i : Nat) :
    c.stopOf i = b.stopOf i := by
  rcases Nat.lt_trichotomy (c.stopOf i) (b.stopOf i) with hlt | heq | hgt
  · have hstop := (he.lt_stopOf_iff hlen (c.lt_stopOf i)).2 hlt
    exact absurd hstop (Nat.lt_irrefl _)
  · exact heq
  · have hstop := (he.lt_stopOf_iff hlen (b.lt_stopOf i)).1 hgt
    exact absurd hstop (Nat.lt_irrefl _)

/-- Line `i` is the item of a task, the field is the first of its keys that names a shell, and a
pipe is found in the command of that field. If the task has another such key, its command is not
read. -/
structure RunsPipe (b : Buffer) (i : Nat) (found : Field) : Prop where
  isItem : (b.line i).kind = .item
  isTask : b.isTask ⟨i, b.stopOf i⟩ = true
  findKey?_eq : b.findKey? ⟨i, b.stopOf i⟩ shellModules = some found
  hasPipe : (b.commandTexts found.index).any hasPipe = true

/-- A task runs the same pipe in two documents with the same lines in its block. -/
theorem RunsPipe.of_blockLines (h : c.RunsPipe i found) (hi : i < b.length) (hi' : i < c.length)
    (hline : c.line i = b.line i) (hstop : c.stopOf i = b.stopOf i)
    (hlines : c.blockLines ⟨i, b.stopOf i⟩ = b.blockLines ⟨i, b.stopOf i⟩)
    (htask : b.isTask ⟨i, b.stopOf i⟩ = true) :
    b.RunsPipe i found ∧ b.commandLine? found.index = c.commandLine? found.index := by
  have hkey := h.findKey?_eq
  have htexts := commandTexts_eq_of_blockLines hi' hkey
  have hcommand := commandLine?_eq_of_blockLines hi' hkey
  rw [hstop, hlines] at htexts hcommand
  rw [findKey?_eq_of_blockLines hi', hstop, hlines, ← findKey?_eq_of_blockLines hi] at hkey
  rw [hcommand, commandLine?_eq_of_blockLines hi hkey]
  refine ⟨⟨hline ▸ h.isItem, htask, hkey, ?_⟩, rfl⟩
  rw [commandTexts_eq_of_blockLines hi hkey, ← htexts]
  exact h.hasPipe

end Buffer

namespace RuleSets

open Buffer Line

variable {b : Buffer} {i k : Nat} {l l' : Line} {found : Field} {command : CommandLine}

/-! ### Where the option goes -/

/-- The quote that opens a text, if any. -/
def openingQuote (text : List Char) : List Char :=
  (text.head?.filter fun c => c = '"' || c = '\'').toList

/-- The second line is the first one with the option once in front of the command: behind the quote
that opens the value of a key, or behind the indentation of a line of a script. -/
def IsStrict (command : CommandLine) (l l' : Line) : Prop :=
  ∃ before quote after,
    l = before ++ quote ++ after ∧ l' = before ++ quote ++ strictPipes ++ after ∧
    Text.trim (quote ++ after) = command.text ∧
      if command.isInline then quote = openingQuote command.text ∧ command.text <+: quote ++ after
      else quote = [] ∧ before = l.take l.depth

theorem openingQuote_cons (c : Char) (text : List Char) :
    openingQuote (c :: text) = if c = '"' ∨ c = '\'' then [c] else [] := by
  by_cases hquote : c = '"' ∨ c = '\''
  · rw [openingQuote, List.head?_cons, Option.filter_some, if_pos (by simpa using hquote),
      if_pos hquote]
    rfl
  · rw [openingQuote, List.head?_cons, Option.filter_some, if_neg (by simpa using hquote),
      if_neg hquote]
    rfl

/-- The option goes into a value behind the quote that opens it, and what comes of it is a value of
the same key. -/
theorem exists_after_of_insertStrictPipes? {key head blanks rest : List Char} {c : Char}
    (hl : HasValue l key head blanks c rest) (hinline : command.isInline = true)
    (h : insertStrictPipes? command l = some l') :
    ∃ after, c :: rest = openingQuote (c :: rest) ++ after ∧
      l' = l.take l.column ++ (head ++ blanks) ++ openingQuote (c :: rest) ++ strictPipes ++ after ∧
        ∃ c' rest', HasValue l' key head blanks c' rest' := by
  rw [openingQuote_cons]
  simp only [insertStrictPipes?, if_pos hinline, hl.splitAtValue?_eq] at h
  split at h
  · next hquote =>
      obtain rfl := Option.some.inj h
      rw [if_pos hquote]
      refine ⟨rest, rfl, by simp only [List.append_assoc, List.cons_append, List.nil_append],
        c, strictPipes ++ rest, ?_⟩
      rw [List.append_assoc, List.cons_append]
      exact hl.withValue hl.isBlank_eq _
  · next hquote =>
      obtain rfl := Option.some.inj h
      rw [if_neg hquote]
      refine ⟨c :: rest, rfl, by rw [List.append_nil], 's',
        "et -o pipefail && ".toList ++ c :: rest, ?_⟩
      rw [List.append_assoc]
      exact hl.withValue (by decide) _

/-- The option goes in front of an inline command and behind the quote that opens it. The line keeps
its place and its key. -/
theorem isStrict_of_inline (hinline : command.isInline = true)
    (hvalue : l.value? = some command.text) (h : insertStrictPipes? command l = some l') :
    IsStrict command l l' ∧ l.Resembles taskListKeys l' := by
  obtain ⟨key, head, blanks, c, rest, hl⟩ := exists_hasValue hvalue
  obtain ⟨after, hafter, hline, c', rest', hl'⟩ :=
    exists_after_of_insertStrictPipes? hl hinline h
  have htext := Option.some.inj (hl.value?_eq.symm.trans hvalue)
  have hquote : openingQuote (c :: rest) = openingQuote command.text := by
    rw [← htext, openingQuote_cons, openingQuote_cons]
  have hprefix : command.text <+: c :: rest := by
    rw [← htext]
    exact ⟨Text.takeEndWhile Text.isBlank rest, by
      rw [List.cons_append, Text.dropEndWhile_append_takeEndWhile]⟩
  constructor
  · refine ⟨l.take l.column ++ (head ++ blanks), openingQuote (c :: rest), after, ?_, hline, ?_, ?_⟩
    · rw [List.append_assoc, ← hafter]
      exact hl.line_eq
    · rw [← hafter, ← htext, Text.trim_cons hl.isBlank_eq]
    · rw [if_pos hinline, ← hafter]
      exact ⟨hquote, hprefix⟩
  · have hframe := sameFrame_of_insertStrictPipes? hinline h
    refine ⟨(hl.sameEntry hl' hframe).sharesKeys _, ?_⟩
    rw [hl.value?_eq, hl'.value?_eq]
    rfl

/-- The option goes behind the indentation of a line of a script, which is no key and no item any
more. -/
theorem isStrict_of_script (hscript : command.isInline = false)
    (htext : command.text = Text.trim l) (h : insertStrictPipes? command l = some l') :
    IsStrict command l l' ∧ l'.kind = .continuation := by
  simp only [insertStrictPipes?, hscript, Bool.false_eq_true, if_false, Option.some.injEq] at h
  subst h
  refine ⟨⟨l.take l.depth, [], l.unindented, ?_, ?_, ?_, ?_⟩, ?_⟩
  · rw [List.append_nil, take_depth, indentation_append_unindented]
  · rw [List.append_nil]
  · rw [htext, List.nil_append]
    exact Text.trim_dropWhile_isIndent l
  · rw [if_neg (by simp [hscript])]
    exact ⟨rfl, rfl⟩
  · have htail : Line.unindented (l.take l.depth ++ strictPipes ++ l.unindented) =
        strictPipes ++ l.unindented := by
      rw [List.append_assoc]
      exact unindented_take_depth_append rfl
    exact kind_of_strictPipes htail

end RuleSets

namespace Buffer

/-! ### Tasks below a line of a script -/

theorem nearest?_append_of_forall {p : Line → Bool} {A C : List Line}
    (h : ∀ c ∈ C, p c = false) : nearest? p (C ++ A) = nearest? p A := by
  induction C with
  | nil => rfl
  | cons c C ih =>
      obtain ⟨hc, hrest⟩ := List.forall_mem_cons.1 h
      rw [List.cons_append, nearest?, hc, ih hrest]
      rfl

section

variable {d : Nat} {x y : Line} {A C : List Line} (hx : x.kind = .continuation)
  (hdepth : x.depth = y.depth)

include hx hdepth

/-- A search for a shallower line ends as before, or at the line of the script. -/
theorem nearest?_encloses_of_continuation :
    nearest? (encloses d) (C ++ x :: A) = nearest? (encloses d) (C ++ y :: A) ∨
      nearest? (encloses d) (C ++ x :: A) = some A.length := by
  induction C with
  | nil =>
      by_cases hlt : x.depth < d
      · right
        simp [nearest?, encloses, hx, Line.Kind.isSignificant, hlt]
      · left
        have hlt' : ¬y.depth < d := hdepth ▸ hlt
        simp [nearest?, encloses, hlt, hlt']
  | cons c C ih =>
      rw [List.cons_append, List.cons_append, nearest?, nearest?]
      split
      · left
        rw [List.length_append, List.length_append, List.length_cons, List.length_cons]
      · exact ih

/-- The search for the key of a list ends as before, at the line of the script, or without a key
above which the line of the script stands in the list. -/
theorem listKeyAmong?_of_continuation :
    listKeyAmong? d (C ++ x :: A) = listKeyAmong? d (C ++ y :: A) ∨
      listKeyAmong? d (C ++ x :: A) = some A.length ∨
        listKeyAmong? d (C ++ x :: A) = none ∧ x.depth = d ∧ ∀ c ∈ C, encloses d c = false := by
  induction C with
  | nil =>
      rcases Nat.lt_trichotomy d x.depth with hlt | rfl | hgt
      · left
        simp [listKeyAmong?, hlt, ← hdepth]
      · right; right
        simp [listKeyAmong?, hx, Line.Kind.isSignificant]
      · right; left
        simp [listKeyAmong?, hx, Line.Kind.isSignificant, hgt, Nat.not_lt_of_lt hgt]
  | cons c C ih =>
      have hlen : (C ++ x :: A).length = (C ++ y :: A).length := by
        rw [List.length_append, List.length_append, List.length_cons, List.length_cons]
      rw [List.cons_append, List.cons_append]
      rcases listKeyAmong?_cons_cases d c with ⟨hc, hpast⟩ | hkey | hnone
      · rw [hpast, hpast]
        exact ih.imp_right (Or.imp_right fun hnone => ⟨hnone.1, hnone.2.1,
          List.forall_mem_cons.2 ⟨encloses_eq_false_of_not_endsList hc, hnone.2.2⟩⟩)
      · left
        rw [hkey, hkey, hlen]
      · left
        rw [hnone, hnone]

end

/-- An item is in a list of tasks unless it hangs off another key. -/
theorem inTaskList_iff_of_item {b : Buffer} {i : Nat} (hitem : (b.line i).kind = .item) :
    b.inTaskList i = true ↔
      ∀ key, b.listKey? i = some key → (b.line key).hasKeyIn taskListKeys = true := by
  rw [inTaskList, owner?, if_pos hitem]
  dsimp only
  cases b.listKey? i <;> simp

section

variable {b : Buffer} {i j : Nat} {l : Line} (hj : j < b.length)
  (hextent : (b.line j).SameExtent l) (hkind : l.kind = .continuation)

include hj hextent hkind

/-- The line that an item hangs off is the same as before, or the line of the script or its
parent. -/
theorem listKey?_set_cases (hi : i < b.length) (hij : i ≠ j) :
    Buffer.listKey? (b.set j l) i = b.listKey? i ∨ Buffer.listKey? (b.set j l) i = some j ∨
      Buffer.listKey? (b.set j l) i = b.parent? j := by
  have hline := line_set_of_ne (b := b) hij l
  rcases Nat.lt_or_gt_of_ne hij with hlt | hgt
  · left
    rw [← listKey?_take (b.set j l) hlt, List.take_set_of_le (Nat.le_refl j), listKey?_take b hlt]
  · have habove := above_of_lt hgt (Nat.le_of_lt hi)
    have habove' := above_set_of_lt hgt (Nat.le_of_lt hi) l
    generalize ((b.take i).drop (j + 1)).reverse = C at habove habove'
    have hlen := length_above (Nat.le_of_lt hj)
    have hdepth : l.depth = (b.line j).depth := hextent.1
    simp only [listKey?, parent?, lastBefore?, hline, habove, habove']
    rcases listKeyAmong?_of_continuation (d := (b.line i).depth) (A := b.above j) (C := C) hkind
      hdepth with hsame | hscript | ⟨hnone, heq, hall⟩
    · rw [hsame]
      cases listKeyAmong? (b.line i).depth (C ++ b.line j :: b.above j) with
      | some key => exact Or.inl rfl
      | none =>
          rcases nearest?_encloses_of_continuation (d := (b.line i).depth) (A := b.above j) (C := C)
            hkind hdepth with h | h
          · exact Or.inl h
          · exact Or.inr (Or.inl (by rw [h, hlen]))
    · rw [hscript, hlen]
      exact Or.inr (Or.inl rfl)
    · rw [hnone]
      right; right
      rw [nearest?_append_of_forall hall, nearest?, if_neg (by simp [encloses, heq]), ← heq, hdepth]

/-- A line of a script with a parent that is no key of a list of tasks makes no item a task. -/
theorem inTaskList_of_set {k : Nat} (hparent : b.parent? j = some k)
    (hk : (b.line k).hasKeyIn taskListKeys = false) (hi : i < b.length) (hij : i ≠ j)
    (hitem : (b.line i).kind = .item) (h : Buffer.inTaskList (b.set j l) i = true) :
    b.inTaskList i = true := by
  have hitem' : (Buffer.line (b.set j l) i).kind = .item := by rwa [line_set_of_ne hij]
  rw [inTaskList_iff_of_item hitem'] at h
  refine (inTaskList_iff_of_item hitem).2 fun key hkey => ?_
  have hother {m : Nat} (hm : Buffer.listKey? (b.set j l) i = some m) : m ≠ j ∧ m ≠ k := by
    have hmem := h m hm
    constructor
    · rintro rfl
      rw [line_set_self hj, Line.hasKeyIn, (Line.not_isEntry_of_continuation hkind).1] at hmem
      cases hmem
    · rintro rfl
      rw [line_set_of_ne (Nat.ne_of_lt (parent?_lt hparent)), hk] at hmem
      cases hmem
  rcases listKey?_set_cases hj hextent hkind hi hij with hsame | hline | habove
  · have hkey' := hsame.trans hkey
    rw [← line_set_of_ne (b := b) (hother hkey').1 l]
    exact h key hkey'
  · exact absurd rfl (hother hline).1
  · exact absurd rfl (hother (habove.trans hparent)).2

end

/-! ### Scripts of tasks -/

section

variable {b : Buffer} {k : Nat} {keys : List (List Char)} {command : CommandLine}

/-- The first line of a script that holds a command stands below the header of the script, and no
line above it in the script holds one. -/
theorem exists_script_of_commandLine? (hk : (b.line k).hasKeyIn keys = true)
    (h : b.commandLine? k = some command) (hscript : command.isInline = false) :
    ∃ key, (b.line key).hasKeyIn (keys ++ ["cmd".toList]) = true ∧
      (b.line key).opensScalar = true ∧ command.index ∈ b.valueLines key ∧
        ∀ m ∈ b.valueLines key, m < command.index → holdsCommand (b.line m) = false := by
  obtain ⟨key, value, hkey, hvalue, ⟨_, rfl⟩ | ⟨hheader, j, hmem, rfl, _, hfirst⟩⟩ :=
    of_commandLine?_eq_some h
  · cases hscript
  · refine ⟨key, hasKeyIn_of_commandKey? hk hkey, ?_, hmem, hfirst⟩
    rw [Line.opensScalar, hvalue]
    exact hheader

/-- The parent of a line of a script is no key of a list of tasks. -/
theorem exists_parent?_of_script (hk : (b.line k).hasKeyIn shellModules = true)
    (h : b.commandLine? k = some command) (hscript : command.isInline = false) :
    ∃ m, b.parent? command.index = some m ∧ (b.line m).hasKeyIn taskListKeys = false := by
  obtain ⟨key, hkey, hopens, hmem, hfirst⟩ := exists_script_of_commandLine? hk h hscript
  obtain ⟨c, hc, hblank⟩ := exists_of_commandLine? h hscript
  obtain ⟨m, hlt, hparent, rfl | ⟨hvalue, _⟩⟩ :=
    exists_parent?_of_mem_valueLines hopens hmem (Line.allBlank_eq_false hc hblank)
  · refine ⟨m, hparent, ?_⟩
    obtain ⟨name, hname, hfound⟩ := Line.hasKeyIn_iff.1 hkey
    have hapart : ∀ name ∈ shellModules ++ ["cmd".toList], taskListKeys.contains name = false := by
      decide
    rw [Line.hasKeyIn, hfound]
    exact hapart name hname
  · refine ⟨m, hparent, ?_⟩
    rw [← Bool.not_eq_true]
    intro htasks
    have hholds := holdsCommand_of_isEntry (Line.isEntry_of_hasKeyIn htasks)
    rw [hfirst m hvalue hlt] at hholds
    cases hholds

end

/-! ### Tasks that run pipes -/

section

variable {b : Buffer} {i k : Nat} {found : Field} {command : CommandLine}

/-- Where a pipe is found, there is a command. -/
theorem exists_commandLine?_of_hasPipe (h : (b.commandTexts k).any hasPipe = true) :
    ∃ command, b.commandLine? k = some command := by
  unfold commandTexts at h
  unfold commandLine?
  cases hkey : b.commandKey? k with
  | none =>
      rw [hkey] at h
      cases h
  | some key =>
      rw [hkey] at h
      dsimp only at h ⊢
      cases hvalue : (b.line key).value? with
      | none =>
          rw [hvalue] at h
          cases h
      | some value =>
          rw [hvalue] at h
          dsimp only at h ⊢
          split
          · next hheader =>
              rw [if_pos hheader, List.any_map, List.any_eq_true] at h
              obtain ⟨m, hm, hpipe⟩ := h
              have hfound : ((b.valueLines key).find? fun j => holdsCommand (b.line j)).isSome := by
                rw [List.find?_isSome]
                exact ⟨m, hm, holdsCommand_of_hasPipe hpipe⟩
              obtain ⟨j, hj⟩ := Option.isSome_iff_exists.1 hfound
              exact ⟨_, Option.map_eq_some_iff.2 ⟨j, hj, rfl⟩⟩
          · exact ⟨_, rfl⟩

/-- The option goes in front of a command exactly where a task runs a pipe and does not name it. -/
theorem pipeCommand?_eq_some_iff (hitem : (b.line i).kind = .item) :
    pipeCommand? b ⟨i, b.stopOf i⟩ = some command ↔
      ∃ found, b.RunsPipe i found ∧
        b.blockContains ⟨i, b.stopOf i⟩ "pipefail".toList = false ∧
          b.commandLine? found.index = some command := by
  rw [pipeCommand?]
  constructor
  · intro h
    split at h
    · next htask =>
        rw [Bool.and_eq_true, Bool.not_eq_true'] at htask
        obtain ⟨found, hfound, hcommand⟩ := Option.bind_eq_some_iff.1 h
        split at hcommand
        · next hpipe => exact ⟨found, ⟨hitem, htask.1, hfound, hpipe⟩, htask.2, hcommand⟩
        · cases hcommand
    · cases h
  · rintro ⟨found, hruns, hlacks, hcommand⟩
    rw [hruns.isTask, hlacks, if_pos (by rfl), hruns.findKey?_eq, Option.bind_some,
      if_pos hruns.hasPipe, hcommand]

/-- The option can be put in front of every command. -/
theorem exists_insertStrictPipes? (h : b.commandLine? k = some command) :
    ∃ l, insertStrictPipes? command (b.line command.index) = some l := by
  rw [insertStrictPipes?]
  split
  · next hinline =>
      obtain ⟨key, head, blanks, c, rest, hl⟩ :=
        Line.exists_hasValue ((of_commandLine? h).1 hinline).1
      rw [hl.splitAtValue?_eq]
      dsimp only
      split <;> exact ⟨_, rfl⟩
  · exact ⟨_, rfl⟩

end

/-! ### The walk of the option -/

/-- The option has been put into some lines of `b`, and `c` is what came of it: no item has become a
task, and every changed line names the option, which stands in front of the command of a task that
runs a pipe in `b` and did not name it. -/
structure StrictSince (b c : Buffer) : Prop where
  length_eq : c.length = b.length
  sameExtents : SameExtents b c
  inTaskList : ∀ i < b.length, (c.line i).kind = .item → c.inTaskList i = true →
    (b.line i).kind = .item ∧ b.inTaskList i = true
  line_cases : ∀ k, c.line k = b.line k ∨ Text.contains "pipefail".toList (c.line k) = true ∧
    ∃ i found command, b.RunsPipe i found ∧
      b.blockContains ⟨i, b.stopOf i⟩ "pipefail".toList = false ∧
        b.commandLine? found.index = some command ∧ command.index = k ∧
          IsStrict command (b.line k) (c.line k)

namespace StrictSince

variable {b c : Buffer} {i k : Nat} {l : Line} {found : Field} {command : CommandLine}

theorem refl (b : Buffer) : StrictSince b b :=
  ⟨rfl, .refl b, fun _ _ hitem htask => ⟨hitem, htask⟩, fun _ => Or.inl rfl⟩

section

variable (h : StrictSince b c) (hi : i < b.length)
  (hlacks : c.blockContains ⟨i, c.stopOf i⟩ "pipefail".toList = false)

include h hi hlacks

/-- The lines of a block that does not name the option are those that the walk started from. -/
theorem line_eq (hik : i ≤ k) (hk : k < c.stopOf i) : c.line k = b.line k := by
  refine (h.line_cases k).resolve_right ?_
  rintro ⟨hnames, _⟩
  have hstop : c.stopOf i ≤ c.length := stopOf_le_length (by rwa [h.length_eq])
  have hmem := mem_blockLines hik hk (Nat.lt_of_lt_of_le hk hstop)
  exact List.any_eq_false.1 hlacks _ hmem hnames

theorem blockLines_eq : c.stopOf i = b.stopOf i ∧
    c.blockLines ⟨i, b.stopOf i⟩ = b.blockLines ⟨i, b.stopOf i⟩ := by
  have hstop := h.sameExtents.stopOf_eq h.length_eq i
  refine ⟨hstop, blockLines_congr h.length_eq fun k hik hk => ?_⟩
  exact h.line_eq hi hlacks hik (by rwa [hstop])

/-- A task that runs a pipe without the option is one that did so at the start of the walk. -/
theorem of_runsPipe (hruns : c.RunsPipe i found)
    (hcommand : c.commandLine? found.index = some command) :
    b.RunsPipe i found ∧ b.blockContains ⟨i, b.stopOf i⟩ "pipefail".toList = false ∧
      b.commandLine? found.index = some command := by
  obtain ⟨hstop, hlines⟩ := h.blockLines_eq hi hlacks
  have hi' : i < c.length := by rwa [h.length_eq]
  have htask : b.isTask ⟨i, b.stopOf i⟩ = true := by
    have hlist := hruns.isTask
    rw [isTask, Bool.and_eq_true] at hlist
    obtain ⟨hitem, hlist⟩ := h.inTaskList i hi hruns.isItem hlist.2
    rw [isTask, isItemLevel, owner?, if_pos hitem, hlist]
    rfl
  have hline := h.line_eq hi hlacks (Nat.le_refl i) (c.lt_stopOf i)
  obtain ⟨hruns', hsame⟩ := hruns.of_blockLines hi hi' hline hstop hlines htask
  rw [hstop, blockContains, hlines] at hlacks
  exact ⟨hruns', hlacks, hsame.trans hcommand⟩

end

/-- The option in front of the command of a task that runs a pipe makes no item a task. -/
theorem inTaskList_of_insertStrictPipes? {j : Nat} (hruns : c.RunsPipe i found)
    (hcommand : c.commandLine? found.index = some command) (hk : command.index < c.length)
    (hinsert : insertStrictPipes? command (c.line command.index) = some l)
    (hextent : (c.line command.index).SameExtent l) (hj : j < c.length)
    (hitem : (Buffer.line (c.set command.index l) j).kind = .item)
    (htask : Buffer.inTaskList (c.set command.index l) j = true) :
    (c.line j).kind = .item ∧ c.inTaskList j = true := by
  obtain ⟨hinline, hscript⟩ := of_commandLine? hcommand
  cases hkind : command.isInline with
  | true =>
      have hl := (isStrict_of_inline hkind (hinline hkind).1 hinsert).2
      rw [(resembles_line_set hk hl j).kind_eq] at hitem
      rw [inTaskList_set hk hl (List.Subset.refl _) hj] at htask
      exact ⟨hitem, htask⟩
  | false =>
      have hl := (isStrict_of_script hkind (hscript hkind).1 hinsert).2
      have hne : j ≠ command.index := by
        rintro rfl
        rw [line_set_self hk, hl] at hitem
        cases hitem
      rw [line_set_of_ne hne] at hitem
      obtain ⟨m, hparent, hm⟩ :=
        exists_parent?_of_script (hasKeyIn_of_findKey? hruns.findKey?_eq) hcommand hkind
      exact ⟨hitem, inTaskList_of_set hk hextent hl hparent hm hj hne hitem htask⟩

/-- A visit puts the option in front of the command of a task that runs a pipe without it. -/
theorem set (h : StrictSince b c) (hi : i < c.length)
    (hanswer : strictPipelines.toBlockRule.answer? c i = some (.replace k l)) :
    StrictSince b (c.set k l) := by
  obtain ⟨hitem, command, hpipe, rfl, hinsert⟩ := (answer?_strictPipelines_iff hi).1 hanswer
  obtain ⟨_, _, heq, hik, hk, hextent, hnames, _⟩ := of_answer?_strictPipelines hanswer
  obtain ⟨rfl, rfl⟩ := BlockEdit.replace.inj heq
  obtain ⟨found, hruns, hlacks, hcommand⟩ := (pipeCommand?_eq_some_iff hitem).1 hpipe
  have hib : i < b.length := by rwa [← h.length_eq]
  have hkc : command.index < c.length := Nat.lt_of_lt_of_le hk (stopOf_le_length hi)
  obtain ⟨hruns', hlacks', hcommand'⟩ := h.of_runsPipe hib hlacks hruns hcommand
  have hline := h.line_eq hib hlacks hik hk
  obtain ⟨hinline, hscript⟩ := of_commandLine? hcommand
  have hstrict : IsStrict command (b.line command.index) l := by
    rw [← hline]
    cases hkind : command.isInline with
    | true => exact (isStrict_of_inline hkind (hinline hkind).1 hinsert).1
    | false => exact (isStrict_of_script hkind (hscript hkind).1 hinsert).1
  refine ⟨by rw [List.length_set, h.length_eq], h.sameExtents.set hkc hextent,
    fun j hj hjitem htask => ?_, fun j => ?_⟩
  · obtain ⟨hitem', htask'⟩ := inTaskList_of_insertStrictPipes? hruns hcommand hkc hinsert hextent
      (by rwa [h.length_eq]) hjitem htask
    exact h.inTaskList j hj hitem' htask'
  · by_cases hj : j = command.index
    · subst hj
      rw [line_set_self hkc]
      exact Or.inr ⟨hnames, i, found, command, hruns', hlacks', hcommand', rfl, hstrict⟩
    · rw [line_set_of_ne hj]
      exact h.line_cases j

end StrictSince

end Buffer

namespace Document

open Buffer Pass

variable {d : Document} {outcome : Outcome}

theorem strictSince_of_applyPass (h : d.applyPass pipefail = .ok outcome) :
    StrictSince d.lines outcome.document.lines := by
  refine applyPassWithin_induction (fun {b i v} hi hstrict hv => ?_) (.refl _) h
  have hmakes := makes_pipefail hi
  rw [Makes, hv] at hmakes
  rw [Except.ok.inj hmakes]
  cases hr : strictReplacement? b i with
  | none => exact hstrict
  | some r => exact hstrict.set hi (answer?_of_strictReplacement? hr)

/-- A task of a settled document that runs a pipe names the option. -/
theorem blockContains_of_isSettled {b : Buffer} {i : Nat} {found : Field}
    (hs : IsSettled pipefail b) (hi : i < b.length) (hruns : b.RunsPipe i found) :
    b.blockContains ⟨i, b.stopOf i⟩ "pipefail".toList = true := by
  by_contra hlacks
  rw [Bool.not_eq_true] at hlacks
  obtain ⟨command, hcommand⟩ := exists_commandLine?_of_hasPipe hruns.hasPipe
  obtain ⟨l, hl⟩ := exists_insertStrictPipes? hcommand
  have hpipe := (pipeCommand?_eq_some_iff hruns.isItem).2 ⟨found, hruns, hlacks, hcommand⟩
  have hanswer := (answer?_strictPipelines_iff hi).2 ⟨hruns.isItem, command, hpipe, rfl, hl⟩
  rw [(isQuiet_pipefail_iff hi).1 (hs i hi)] at hanswer
  cases hanswer

/-- A pass of the option is complete and minimal: every task that runs a pipe names the option
afterwards, and every changed line is the line of before with the option once in front of the
command of a task that runs a pipe and did not name the option. -/
theorem exists_applyPass_pipefail_strict (d : Document) :
    ∃ outcome, d.applyPass pipefail = .ok outcome ∧
      (∀ i found, outcome.document.lines.RunsPipe i found →
        outcome.document.lines.blockContains ⟨i, outcome.document.lines.stopOf i⟩
          "pipefail".toList = true) ∧
      outcome.document.lines.length = d.lines.length ∧
      ∀ k, outcome.document.lines.line k ≠ d.lines.line k → ∃ i found command,
        d.lines.RunsPipe i found ∧
          d.lines.blockContains ⟨i, d.lines.stopOf i⟩ "pipefail".toList = false ∧
            d.lines.commandLine? found.index = some command ∧ command.index = k ∧
              IsStrict command (d.lines.line k) (outcome.document.lines.line k) := by
  obtain ⟨outcome, hpass⟩ := exists_applyPass settlesInOne_pipefail.settlesInTwo d
  have hstrict := strictSince_of_applyPass hpass
  refine ⟨outcome, hpass, fun i found hruns => ?_, hstrict.length_eq, fun k hk =>
    ((hstrict.line_cases k).resolve_left hk).2⟩
  refine blockContains_of_isSettled (isSettled_of_applyPass hpass) (lt_length_of_text ?_) hruns
  exact Line.allBlank_of_kind_ne (by rw [hruns.isItem]; decide)

end Document

end TaskTidy

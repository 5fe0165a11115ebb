import TaskTidy.Proofs.BlockSeparation
import TaskTidy.Proofs.IdleLines
import TaskTidy.Proofs.Replacements

/-!
# What the option for pipelines does to its lines

The option is put into the line of a command: a line whose key names a shell or its command, or a
line of a script. So it adds no key to an item, and an idle line that takes the place of another
changes no answer, unless the answer is for that line.
-/

namespace TaskTidy

namespace Buffer

variable {b : Buffer} {e : Extent} {k : Nat}

/-- The line that is found for its key carries it. -/
theorem hasKeyIn_of_findKey? {keys : List (List Char)} {found : Field}
    (h : b.findKey? e keys = some found) : (b.line found.index).hasKeyIn keys = true := by
  unfold findKey? at h
  split at h
  · next hkey =>
      obtain ⟨key, _, rfl⟩ := Option.map_eq_some_iff.1 h
      exact hkey
  · have hmem := List.find?_some h
    obtain ⟨_, _, _, _, _, hkey⟩ := of_mem_fields (List.mem_of_find?_eq_some h)
    rw [Line.hasKeyIn, hkey]
    exact hmem

/-- A key is found on the start line of a block or on a parameter. -/
theorem eq_start_or_kind_of_findKey? {keys : List (List Char)} {found : Field}
    (h : b.findKey? e keys = some found) :
    found.index = e.start ∨ (b.line found.index).kind = .parameter := by
  unfold findKey? at h
  split at h
  · obtain ⟨key, _, rfl⟩ := Option.map_eq_some_iff.1 h
    exact Or.inl rfl
  · obtain ⟨_, _, _, hkind, _, _⟩ := of_mem_fields (List.mem_of_find?_eq_some h)
    exact Or.inr hkind

/-- The command stands behind the key of its module or of the argument for it. -/
theorem hasKeyIn_of_commandKey? {keys : List (List Char)} {key : Nat}
    (hk : (b.line k).hasKeyIn keys = true) (h : b.commandKey? k = some key) :
    (b.line key).hasKeyIn (keys ++ ["cmd".toList]) = true := by
  rw [Line.hasKeyIn_iff] at hk ⊢
  rcases of_commandKey?_eq_some h with rfl | ⟨_, _, hfound⟩
  · obtain ⟨found, hmem, hfound⟩ := hk
    exact ⟨found, List.mem_append_left _ hmem, hfound⟩
  · rw [Line.hasKey, beq_iff_eq] at hfound
    exact ⟨_, List.mem_append_right _ (List.mem_singleton_self _), hfound⟩

/-- An inline command is the value of its module or of the argument for it. -/
theorem hasKeyIn_of_commandLine? {keys : List (List Char)} {command : CommandLine}
    (hk : (b.line k).hasKeyIn keys = true) (h : b.commandLine? k = some command)
    (hinline : command.isInline = true) :
    (b.line command.index).hasKeyIn (keys ++ ["cmd".toList]) = true := by
  obtain ⟨key, value, hkey, _, ⟨_, rfl⟩ | ⟨_, _, _, rfl, _⟩⟩ := of_commandLine?_eq_some h
  · exact hasKeyIn_of_commandKey? hk hkey
  · cases hinline

end Buffer

namespace RuleSets

open Buffer

variable {b : Buffer} {e : Extent} {i j : Nat} {l l' : Line} {command : CommandLine}

/-- The command that the option is put in front of. -/
def pipeCommand? (b : Buffer) (e : Extent) : Option CommandLine :=
  if b.isTask e && !b.blockContains e "pipefail".toList then
    (b.findKey? e shellModules).bind fun found =>
      if (b.commandTexts found.index).any hasPipe then b.commandLine? found.index else none
  else none

theorem addStrictPipes?_eq (b : Buffer) (e : Extent) :
    addStrictPipes? b e = (pipeCommand? b e).bind fun command =>
      (insertStrictPipes? command (b.line command.index)).map fun l => (command.index, l) := by
  rw [addStrictPipes?, pipeCommand?]
  split
  · cases b.findKey? e shellModules with
    | none => rfl
    | some found =>
        simp only [Option.bind_some]
        split
        · cases b.commandLine? found.index <;> rfl
        · rfl
  · rfl

/-- The keys of the lines that hold a command. -/
def commandKeys : List (List Char) :=
  shellModules ++ ["cmd".toList]

/-- The command stands in its block: behind one of the keys, or on a line of text below. -/
theorem of_pipeCommand? (h : pipeCommand? b ⟨i, b.stopOf i⟩ = some command) :
    i ≤ command.index ∧ command.index < b.stopOf i ∧
      (command.isInline = true → (b.line command.index).hasKeyIn commandKeys = true) ∧
        (command.isInline = false → i < command.index) := by
  unfold pipeCommand? at h
  split at h
  · obtain ⟨found, hfound, hcommand⟩ := Option.bind_eq_some_iff.1 h
    split at hcommand
    · obtain ⟨hle, hlt, hdepth⟩ := exists_of_findKey? hfound
      obtain ⟨hbelow, hscript⟩ := le_of_commandLine? hcommand
      exact ⟨Nat.le_trans hle hbelow, lt_stopOf_of_commandLine? hle hlt hdepth hcommand,
        hasKeyIn_of_commandLine? (hasKeyIn_of_findKey? hfound) hcommand,
        fun hinline => Nat.lt_of_le_of_lt hle (hscript hinline)⟩
    · cases hcommand
  · cases h

/-! ### Idle lines -/

/-- The option goes in front of the same command when an idle line takes the place of another. -/
theorem pipeCommand?_set (hj : j < b.length) (hl : (b.line j).BothIdle l)
    (he : e.start < b.length) :
    (pipeCommand? (b.set j l) e).map (fun c => (c.index, c.isInline)) =
      (pipeCommand? b e).map fun c => (c.index, c.isInline) := by
  rw [pipeCommand?, pipeCommand?, isTask_set hj hl.resembles (by decide) he, blockContains_set hl,
    findKey?_set hj hl.resembles.toSharesKeys (by decide)]
  split
  · cases hfound : b.findKey? e shellModules with
    | none => rfl
    | some found =>
        have hne : found.index ≠ j := by
          intro heq
          have hkey := hasKeyIn_of_findKey? hfound
          rw [heq, hl.left.hasKeyIn_eq (by decide)] at hkey
          cases hkey
        simp only [Option.bind_some, any_commandTexts_set hl hj hne]
        split
        · exact commandLine?_set hl hj hne
        · rfl
  · rfl

theorem insertStrictPipes?_congr {command' : CommandLine}
    (h : command'.isInline = command.isInline) (l : Line) :
    insertStrictPipes? command' l = insertStrictPipes? command l := by
  rw [insertStrictPipes?, insertStrictPipes?, h]

/-- The command that the option is put in front of does not stand on an idle line, if the answer for
its block is none for that line. -/
theorem ne_of_pipeCommand? {command : CommandLine} (hl : (b.line j).IsIdle)
    (hs : strictPipelines.target.selects b i = true)
    (hne : ∀ x, strictPipelines.toBlockRule.answer? b i ≠ some (.replace j x))
    (h : pipeCommand? b ⟨i, b.stopOf i⟩ = some command) : command.index ≠ j := by
  intro heq
  obtain ⟨_, hstop, hkey, hbelow⟩ := of_pipeCommand? h
  rw [heq] at hstop hkey hbelow
  cases hscript : command.isInline with
  | true =>
      have hlacks : (b.line j).hasKeyIn commandKeys = false := hl.hasKeyIn_eq (by decide)
      rw [hkey hscript] at hlacks
      cases hlacks
  | false =>
      refine hne ((b.line j).take (b.line j).depth ++ strictPipes ++ (b.line j).unindented)
        (ScopedRewrite.answer?_eq_some_iff.2 ⟨j, _, rfl, hs, ?_,
          ⟨Nat.le_of_lt (hbelow hscript), hstop⟩, fun hline => ?_⟩)
      · rw [show strictPipelines.rewrite? = addStrictPipes? from rfl, addStrictPipes?_eq, h,
          Option.bind_some, heq, insertStrictPipes?, hscript]
        rfl
      · have hnames := hl.contains_eq
        rw [← hline, contains_strictPipes] at hnames
        cases hnames

private theorem addStrictPipes?_set (hj : j < b.length) (hl : (b.line j).BothIdle l)
    (hi : i < b.length) (hs : strictPipelines.target.selects b i = true)
    (hne : ∀ x, strictPipelines.toBlockRule.answer? b i ≠ some (.replace j x)) :
    addStrictPipes? (b.set j l) ⟨i, b.stopOf i⟩ = addStrictPipes? b ⟨i, b.stopOf i⟩ ∧
      ∀ k x, addStrictPipes? b ⟨i, b.stopOf i⟩ = some (k, x) → k ≠ j := by
  have hplace := pipeCommand?_set hj hl (e := ⟨i, b.stopOf i⟩) hi
  rw [addStrictPipes?_eq, addStrictPipes?_eq]
  cases hcommand : pipeCommand? b ⟨i, b.stopOf i⟩ with
  | none =>
      rw [hcommand, Option.map_none, Option.map_eq_none_iff] at hplace
      rw [hplace]
      exact ⟨rfl, nofun⟩
  | some command =>
      rw [hcommand, Option.map_some] at hplace
      obtain ⟨command', hcommand', heq⟩ := Option.map_eq_some_iff.1 hplace
      obtain ⟨hindex, hinline⟩ := Prod.mk.inj heq
      have hcj : command.index ≠ j := ne_of_pipeCommand? hl.left hs hne hcommand
      rw [hcommand', Option.bind_some, Option.bind_some, hindex,
        insertStrictPipes?_congr hinline, line_set_of_ne hcj]
      refine ⟨rfl, fun k x hx => ?_⟩
      obtain ⟨_, _, hpair⟩ := Option.map_eq_some_iff.1 hx
      exact (Prod.mk.inj hpair).1 ▸ hcj

/-- The answer for a block stays when an idle line takes the place of another, unless it is an
answer for that line. -/
theorem answer?_set_of_bothIdle (hj : j < b.length) (hl : (b.line j).BothIdle l)
    (hi : i < b.length)
    (hne : ∀ x, strictPipelines.toBlockRule.answer? b i ≠ some (.replace j x)) :
    strictPipelines.toBlockRule.answer? (b.set j l) i =
      strictPipelines.toBlockRule.answer? b i := by
  have hstop := stopOf_set_of_sameExtent hj hl.resembles.sameExtent i
  have hselects : strictPipelines.target.selects (b.set j l) i =
      strictPipelines.target.selects b i := selects_set hj hl.resembles.toSharesKeys (by decide) i
  refine Option.ext fun edit => ?_
  rw [ScopedRewrite.answer?_eq_some_iff, ScopedRewrite.answer?_eq_some_iff, hselects, hstop]
  by_cases hs : strictPipelines.target.selects b i = true
  · obtain ⟨hsame, hindex⟩ := addStrictPipes?_set hj hl hi hs hne
    refine exists_congr fun k => exists_congr fun x => and_congr_right fun _ =>
      and_congr_right fun _ => ?_
    rw [show strictPipelines.rewrite? = addStrictPipes? from rfl, hsame]
    refine and_congr_right fun hx => ?_
    rw [line_set_of_ne (hindex k x hx)]
  · refine iff_of_false ?_ ?_
    · rintro ⟨_, _, _, hs', _⟩
      exact hs hs'
    · rintro ⟨_, _, _, hs', _⟩
      exact hs hs'

/-! ### The lines of commands -/

/-- The line starts like a key of a command, or like the option. -/
def StartsCommand (l : Line) : Prop :=
  ∃ x ∈ ['s', 'a', 'c'], l.body.head? = some x

/-- A command is no key for failures. -/
theorem StartsCommand.hasKey_eq (h : StartsCommand l) : l.hasKey "failed_when".toList = false := by
  obtain ⟨x, hx, hhead⟩ := h
  apply Line.hasKey_eq_false
  rintro ⟨t, ht⟩
  rw [← ht] at hhead
  cases hhead
  exact absurd hx (by decide)

/-- A command does not ignore errors. -/
theorem StartsCommand.replaceIgnoreErrors?_eq (h : StartsCommand l) :
    replaceIgnoreErrors? l = none := by
  obtain ⟨x, hx, hhead⟩ := h
  rw [Option.eq_none_iff_forall_ne_some]
  intro l' hl'
  obtain ⟨⟨rest, hrest⟩, _⟩ := of_replaceIgnoreErrors? hl'
  rw [Line.body_of_startsBody (by rw [hrest]; rfl), hrest] at hhead
  cases hhead
  exact absurd hx (by decide)

/-- The keys of commands hold no colon, and no dash in front. -/
private theorem of_mem_commandKeys {key : List Char} (h : key ∈ commandKeys) (t : List Char) :
    ':' ∉ key ∧ Line.startsBody (key ++ t) = true ∧
      ∃ x ∈ ['s', 'a', 'c'], (key ++ t).head? = some x := by
  simp only [commandKeys, shellModules, Text.keys, List.map_cons, List.map_nil, List.cons_append,
    List.nil_append, List.mem_cons, List.not_mem_nil, or_false] at h
  rcases h with rfl | rfl | rfl
  · exact ⟨by decide, rfl, 's', by decide, rfl⟩
  · exact ⟨by decide, rfl, 'a', by decide, rfl⟩
  · exact ⟨by decide, rfl, 'c', by decide, rfl⟩

theorem unindented_of_insertStrictPipes? (hscript : command.isInline = false)
    (h : insertStrictPipes? command l = some l') :
    ∃ after, l'.unindented = strictPipes ++ after := by
  obtain ⟨before, after, _, rfl, _, hbefore⟩ := exists_append_of_insertStrictPipes? h
  refine ⟨after, ?_⟩
  rw [hbefore hscript, List.append_assoc]
  exact Line.unindented_take_depth_append rfl

/-- The option stands behind the key of a command, or starts a line of a script. -/
theorem startsCommand_of_insertStrictPipes? (h : insertStrictPipes? command l = some l')
    (hkey : command.isInline = true → l.hasKeyIn commandKeys = true) : StartsCommand l' := by
  obtain ⟨before, after, hl, hl', hcolon, _⟩ := exists_append_of_insertStrictPipes? h
  cases hinline : command.isInline with
  | true =>
      obtain ⟨key, hmem, hkey'⟩ := Line.hasKeyIn_iff.1 (hkey hinline)
      have hlead : l.take l.column ++ key <+: before := by
        obtain ⟨t, ht⟩ := Line.isPrefix_body_of_key? hkey'
        have hfront : l.take l.column ++ key <+: l := by
          refine ⟨t, ?_⟩
          rw [List.append_assoc, ht, Line.take_column_append_body]
        rcases List.prefix_or_prefix_of_prefix hfront ⟨after, hl.symm⟩ with hle | hle
        · exact hle
        · rcases List.mem_append.1 (hle.subset (hcolon hinline)) with hmem' | hmem'
          · exact absurd (Line.of_mem_take_column hmem') (by decide)
          · exact absurd hmem' (of_mem_commandKeys hmem []).1
      obtain ⟨t, rfl⟩ := hlead
      obtain ⟨_, hstart, hhead⟩ := of_mem_commandKeys hmem (t ++ strictPipes ++ after)
      have hbody : l'.body = key ++ (t ++ strictPipes ++ after) := by
        have hbody := Line.body_take_column_append (l := l) hstart
        rwa [show l.take l.column ++ (key ++ (t ++ strictPipes ++ after)) = l' by
          rw [hl']; simp only [List.append_assoc]] at hbody
      rw [StartsCommand, hbody]
      exact hhead
  | false =>
      obtain ⟨after, hun⟩ := unindented_of_insertStrictPipes? hinline h
      rw [StartsCommand, Line.body_of_startsBody (by rw [hun]; rfl), hun]
      exact ⟨'s', by decide, rfl⟩

/-- What an answer is made of. -/
theorem exists_of_answer?_strictPipelines {k : Nat}
    (h : strictPipelines.toBlockRule.answer? b i = some (.replace k l)) :
    ∃ command, pipeCommand? b ⟨i, b.stopOf i⟩ = some command ∧ command.index = k ∧
      insertStrictPipes? command (b.line k) = some l := by
  obtain ⟨_, _, heq, _, hrewrite, _⟩ := ScopedRewrite.answer?_eq_some_iff.1 h
  cases heq
  rw [show strictPipelines.rewrite? = addStrictPipes? from rfl, addStrictPipes?_eq] at hrewrite
  obtain ⟨command, hcommand, hinsert⟩ := Option.bind_eq_some_iff.1 hrewrite
  obtain ⟨x, hx, hpair⟩ := Option.map_eq_some_iff.1 hinsert
  cases hpair
  exact ⟨command, hcommand, rfl, hx⟩

/-- The line that an answer writes starts a command. An item among them is a line of the same
frame. -/
theorem startsCommand_of_answer? {k : Nat}
    (h : strictPipelines.toBlockRule.answer? b i = some (.replace k l)) :
    StartsCommand l ∧ (l.kind = .item → (b.line k).SameFrame l) := by
  obtain ⟨command, hcommand, rfl, hinsert⟩ := exists_of_answer?_strictPipelines h
  obtain ⟨_, _, hkey, _⟩ := of_pipeCommand? hcommand
  refine ⟨startsCommand_of_insertStrictPipes? hinsert hkey, fun hitem => ?_⟩
  cases hinline : command.isInline with
  | true => exact sameFrame_of_insertStrictPipes? hinline hinsert
  | false =>
      obtain ⟨after, hun⟩ := unindented_of_insertStrictPipes? hinline hinsert
      have hcolumn := Line.column_of_startsBody (l := l) (by rw [hun]; rfl)
      exact absurd hitem (Line.kind_ne_item_of_column_eq hcolumn)

end RuleSets

end TaskTidy

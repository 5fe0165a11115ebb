import TaskTidy.Proofs.PipeEdits
import TaskTidy.Proofs.ReadAlike

/-!
# Commands behind the option for pipelines

A line with the option reads like the line without it, if its command is not quoted, or does not
only read state, and if a line of a script is plain text: no key and no item.
-/

namespace TaskTidy

open RuleSets

/-! ### Entries of commands -/

namespace Line

variable {l l' : Line}

private theorem trim_of_head {head rest : List Char} (hu : l.unindented = head ++ rest)
    (hhead : head ≠ []) (hsolid : ∀ c ∈ head, Text.isBlank c = false) :
    Text.trim l = head ++ Text.dropEndWhile Text.isBlank rest := by
  obtain ⟨c, more, rfl⟩ := List.exists_cons_of_ne_nil hhead
  have hc := hsolid c List.mem_cons_self
  rw [trim_of_unindented hu hc, ← Text.dropEndWhile_append_of_ne_nil hhead hsolid]
  exact (Text.dropEndWhile_append_cons (s := []) hc).symm

/-- The beginnings of lines with the key of a command. -/
private def commandHeads : List (List Char) :=
  Text.keys ["-", "sh", "a", "cm"]

private theorem exists_commandHead (h : l.hasKeyIn commandKeys = true) :
    ∃ head ∈ commandHeads, head <+: l.unindented := by
  obtain ⟨key, hmem, hkey⟩ := hasKeyIn_iff.1 h
  have hbody := isPrefix_body_of_key? hkey
  have hkeys : commandKeys.all (fun key => commandHeads.any fun head => head.isPrefixOf key) =
      true := by decide
  cases hu : l.unindented with
  | nil =>
      rw [body_eq, hu, List.drop_nil, List.prefix_nil] at hbody
      rw [hbody] at hmem
      exact absurd hmem (by decide)
  | cons x rest =>
      by_cases hx : x = '-'
      · exact ⟨['-'], by decide, rest, by rw [hx]; rfl⟩
      · obtain ⟨head, hhead, hprefix⟩ := List.any_eq_true.1 (List.all_eq_true.1 hkeys key hmem)
        rw [body_eq, hu, dashWidth_cons_of_ne hx, List.drop_zero] at hbody
        exact ⟨head, hhead, (List.isPrefixOf_iff_prefix.1 hprefix).trans hbody⟩

/-- Read as a line of a script, a line with the key of a command does not read state. -/
theorem of_hasKeyIn_commandKeys (h : l.hasKeyIn commandKeys = true) :
    holdsCommand l = true ∧ readsState (Text.trim l) = false := by
  obtain ⟨head, hhead, rest, hrest⟩ := exists_commandHead h
  have hall : commandHeads.all (fun head => !head.isEmpty && head.head? != some '#' &&
      head.all (fun c => !(c == '"' || c == '\'') && !Text.isBlank c) &&
        readOnlyCommands.all fun command => !head.isPrefixOf command) = true := by decide
  have hone := List.all_eq_true.1 hall head hhead
  simp only [Bool.and_eq_true, Bool.not_eq_true', List.all_eq_true, List.isEmpty_eq_false_iff,
    bne_iff_ne] at hone
  obtain ⟨⟨⟨hne, hhash⟩, hsolid⟩, hcommands⟩ := hone
  have htrim := trim_of_head hrest.symm hne fun c hc => (hsolid c hc).2
  have hoption : Text.strip? strictPipes (head ++ Text.dropEndWhile Text.isBlank rest) = none := by
    simp only [commandHeads, Text.keys, List.map_cons, List.map_nil, List.mem_cons,
      List.not_mem_nil, or_false] at hhead
    rcases hhead with rfl | rfl | rfl | rfl <;> rfl
  constructor
  · obtain ⟨c, more, rfl⟩ := List.exists_cons_of_ne_nil hne
    simp only [holdsCommand, htrim]
    simpa using hhash
  · rw [readsState, htrim,
      isReadOnlyText_append hne hsolid (fun command hmem hprefix => ?_) hoption, Bool.and_false]
    have hnone := hcommands command hmem
    rw [List.isPrefixOf_iff_prefix.2 hprefix] at hnone
    cases hnone

/-- A line with a value: the key, the text in front of the value with the colon in it, the blanks in
front of the value, and the value up to the end of the line. -/
structure HasValue (l : Line) (key head blanks : List Char) (c : Char) (rest : List Char) :
    Prop where
  body_eq : l.body = head ++ (blanks ++ c :: rest)
  colon_mem : ':' ∈ head
  entryOf?_eq : ∀ rest, entryOf? (head ++ rest) = some ⟨key, rest⟩
  isBlank_of_mem : ∀ x ∈ blanks, Text.isBlank x = true
  isBlank_eq : Text.isBlank c = false

/-- The parts of a line with a value. -/
theorem exists_hasValue {text : List Char} (h : l.value? = some text) :
    ∃ key head blanks c rest, HasValue l key head blanks c rest := by
  unfold value? at h
  split at h
  · cases h
  · next entry hentry =>
      split at h
      · cases h
      · next hsolid =>
          obtain ⟨gap, d, hbody, _, _, hfree⟩ := exists_lead_of_entryOf? hentry fun hnil => by
            rw [hnil] at hsolid
            exact hsolid rfl
          have hcut := List.takeWhile_append_dropWhile (p := Text.isBlank) (l := entry.rest)
          cases hdrop : entry.rest.dropWhile Text.isBlank with
          | nil =>
              rw [List.dropWhile_eq_nil_iff] at hdrop
              exact absurd (List.all_eq_true.2 hdrop) hsolid
          | cons c rest =>
              have hhead := List.head?_dropWhile_not Text.isBlank entry.rest
              rw [hdrop] at hcut hhead
              exact ⟨entry.key, entry.key ++ (gap ++ [':', d]), _, c, rest, by rw [hcut, hbody],
                by simp, hfree, fun x hx => List.mem_takeWhile_imp hx, by simpa using hhead⟩

namespace HasValue

variable {key head blanks rest rest' : List Char} {c c' : Char}

section

variable (h : HasValue l key head blanks c rest)

include h

theorem entryOf?_body : entryOf? l.body = some ⟨key, blanks ++ c :: rest⟩ := by
  rw [h.body_eq, h.entryOf?_eq]

theorem isEntry : l.kind.isEntry = true :=
  isEntry_of_entryOf? h.entryOf?_body

theorem key?_eq : l.key? = some key := by
  rw [key?, if_pos h.isEntry, h.entryOf?_body, Option.map_some]

theorem allBlank_eq : Text.allBlank (blanks ++ c :: rest) = false :=
  allBlank_eq_false (by simp) h.isBlank_eq

theorem value?_eq : l.value? = some (c :: Text.dropEndWhile Text.isBlank rest) := by
  have htrim := Text.trim_append_cons h.isBlank_of_mem h.isBlank_eq rest
  simp only [value?, h.entryOf?_body, h.allBlank_eq, Bool.false_eq_true, if_false, htrim]

theorem line_eq : l = l.take l.column ++ (head ++ blanks) ++ c :: rest := by
  conv_lhs => rw [← take_column_append_body l, h.body_eq]
  simp only [List.append_assoc]

theorem trimStart_eq : Text.trimStart (blanks ++ c :: rest) = c :: rest := by
  rw [Text.trimStart, List.dropWhile_append_of_pos h.isBlank_of_mem,
    List.dropWhile_cons_of_neg (by simp [h.isBlank_eq])]

theorem splitAtValue?_eq :
    l.splitAtValue? = some (l.take l.column ++ (head ++ blanks), c :: rest) := by
  have htake : l.take (l.length - (c :: rest).length) = l.take l.column ++ (head ++ blanks) := by
    have hline := h.line_eq
    generalize l.take l.column ++ (head ++ blanks) = before at hline
    rw [hline, List.length_append, Nat.add_sub_cancel, List.take_left]
  simp only [splitAtValue?, h.entryOf?_body, h.allBlank_eq, Bool.false_eq_true, if_false,
    h.trimStart_eq, htake]

/-- The line with another value. -/
theorem withValue (hc' : Text.isBlank c' = false) (rest' : List Char) :
    HasValue (l.take l.column ++ (head ++ blanks) ++ c' :: rest') key head blanks c' rest' where
  body_eq := by
    rw [List.append_assoc, List.append_assoc]
    exact body_take_column_append (startsBody_of_entryOf? (h.entryOf?_eq _))
  colon_mem := h.colon_mem
  entryOf?_eq := h.entryOf?_eq
  isBlank_of_mem := h.isBlank_of_mem
  isBlank_eq := hc'

end

/-- Two lines of one frame with values behind one key have one entry. -/
theorem sameEntry {head' blanks' : List Char} (h : HasValue l key head blanks c rest)
    (h' : HasValue l' key head' blanks' c' rest') (hframe : SameFrame l l') : SameEntry l l' :=
  .of_isEntry hframe h.isEntry h'.isEntry (by rw [h.key?_eq, h'.key?_eq])

/-- A command that reads like another in its place makes its line read alike. -/
theorem readsAlike (h : HasValue l key head blanks c rest) (hkey : key ∈ commandKeys)
    (hc' : Text.isBlank c' = false)
    (hheader : isScalarHeader (c' :: Text.dropEndWhile Text.isBlank rest') =
      isScalarHeader (c :: Text.dropEndWhile Text.isBlank rest))
    (hreads : readsState (c' :: Text.dropEndWhile Text.isBlank rest') =
      readsState (c :: Text.dropEndWhile Text.isBlank rest)) :
    ReadsAlike l (l.take l.column ++ (head ++ blanks) ++ c' :: rest') := by
  have h' := h.withValue hc' rest'
  have hframe : SameFrame l (l.take l.column ++ (head ++ blanks) ++ c' :: rest') := by
    have hmem : ':' ∈ l.take l.column ++ (head ++ blanks) :=
      List.mem_append_right _ (List.mem_append_left _ h.colon_mem)
    have hsame : SameFrame (l.take l.column ++ (head ++ blanks) ++ c :: rest)
        (l.take l.column ++ (head ++ blanks) ++ c' :: rest') :=
      sameFrame_of_head hmem (by decide) (by decide)
    rwa [← h.line_eq] at hsame
  obtain ⟨hholds, htext⟩ := of_hasKeyIn_commandKeys (hasKeyIn_iff.2 ⟨key, hkey, h.key?_eq⟩)
  obtain ⟨hholds', htext'⟩ := of_hasKeyIn_commandKeys (hasKeyIn_iff.2 ⟨key, hkey, h'.key?_eq⟩)
  exact {
    toSameEntry := h.sameEntry h' hframe
    valueReading?_eq := by
      rw [valueReading?, valueReading?, h.value?_eq, h'.value?_eq, Option.map_some, Option.map_some,
        hheader, hreads]
    holdsCommand_eq := by rw [hholds, hholds']
    readsState_eq := by rw [htext, htext'] }

end HasValue

/-! ### Lines of scripts -/

theorem column_of_continuation (h : l.kind = .continuation) : l.column = l.depth := by
  unfold column
  split
  · next after hu =>
      obtain ⟨_, ⟨after', hu', hstarts⟩ | ⟨hdash, _⟩⟩ := describes_of_kind h
      · cases hu.symm.trans hu'
        rw [hstarts]
        rfl
      · exact absurd hu (hdash after)
  · rfl

theorem not_isEntry_of_continuation (h : l.kind = .continuation) :
    l.key? = none ∧ l.value? = none := by
  have hentry : l.kind.isEntry = false := by rw [h]; rfl
  refine ⟨by rw [key?, hentry]; rfl, ?_⟩
  cases hbody : entryOf? l.body with
  | none => rw [value?, hbody]
  | some entry =>
      rw [isEntry_of_entryOf? hbody] at hentry
      cases hentry

private theorem entryOf?_strictPipes (rest : List Char) :
    entryOf? (strictPipes ++ rest) = none := by
  have hcut : strictPipes ++ rest =
      's' :: ("et".toList ++ ' ' :: ("-o pipefail && ".toList ++ rest)) := rfl
  have hsplit : splitKey? (strictPipes ++ rest) =
      some ("set".toList, ' ' :: ("-o pipefail && ".toList ++ rest)) := by
    rw [hcut, splitKey?_of_isKeyStart (by decide),
      List.takeWhile_append_of_pos (List.all_eq_true.1 rfl),
      List.dropWhile_append_of_pos (List.all_eq_true.1 rfl)]
    rfl
  rw [entryOf?, hsplit]
  rfl

/-- A line with the option in front of its text is plain text. -/
theorem kind_of_strictPipes {rest : List Char} (h : l.unindented = strictPipes ++ rest) :
    l.kind = .continuation := by
  have hblank : Text.allBlank (strictPipes ++ rest) = false :=
    allBlank_eq_false (List.mem_append_left _ (show 's' ∈ strictPipes by decide)) (by decide)
  unfold kind
  rw [h, if_neg (by rw [hblank]; decide)]
  split
  · next heq => cases heq
  · next heq => cases heq
  · rw [entryOf?_strictPipes]
    rfl

end Line

namespace RuleSets

open Line

variable {l l' : Line} {command : CommandLine}

private theorem lacks_of_part {s t : List Char} (h : s <:+: t)
    (hlacks : Text.contains "pipefail".toList t = false) :
    Text.contains "pipefail".toList s = false := by
  rw [← Bool.not_eq_true, Text.contains_iff] at hlacks ⊢
  exact fun hs => hlacks (hs.trans h)

/-- A value that starts with another character than a mark of block scalars opens none. -/
theorem isScalarHeader_cons {c : Char} (hblank : Text.isBlank c = false)
    (hc : c ≠ '|' ∧ c ≠ '>') (rest : List Char) : isScalarHeader (c :: rest) = false := by
  rw [isScalarHeader, Text.trim_cons hblank]
  simp [hc]

section

variable {key head blanks rest : List Char} {c : Char}

/-- The option behind the opening quote of a command that reads more than state. -/
private theorem readsAlike_of_quote (hl : HasValue l key head blanks c rest)
    (hkey : key ∈ commandKeys) (hquote : c = '"' ∨ c = '\'')
    (hheader : isScalarHeader (c :: Text.dropEndWhile Text.isBlank rest) = false)
    (hplain : isReadOnlyText (c :: Text.dropEndWhile Text.isBlank rest) = false) :
    ReadsAlike l (l.take l.column ++ (head ++ blanks) ++ c :: (strictPipes ++ rest)) := by
  have hset : Text.dropEndWhile Text.isBlank (strictPipes ++ rest) = "set".toList ++
      Text.dropEndWhile Text.isBlank (" -o pipefail && ".toList ++ rest) :=
    Text.dropEndWhile_append_of_ne_nil (s := "set".toList) (by decide)
      (by simp [Text.isBlank]) _
  refine hl.readsAlike hkey hl.isBlank_eq ?_ ?_
  · rw [hheader]
    exact isScalarHeader_cons hl.isBlank_eq (by rcases hquote with rfl | rfl <;> decide) _
  · rw [readsState, readsState, hset, isReadOnlyText_quoted hquote, hplain, Bool.and_false,
      Bool.and_false]

/-- The option in front of a command on a line that does not name it. -/
private theorem readsAlike_of_front (hl : HasValue l key head blanks c rest)
    (hkey : key ∈ commandKeys)
    (hheader : isScalarHeader (c :: Text.dropEndWhile Text.isBlank rest) = false)
    (hlacks : Text.contains "pipefail".toList l = false)
    (hplain : isQuoted (c :: Text.dropEndWhile Text.isBlank rest) = true →
      isReadOnlyText (c :: Text.dropEndWhile Text.isBlank rest) = false) :
    ReadsAlike l (l.take l.column ++ (head ++ blanks) ++ (strictPipes ++ c :: rest)) := by
  have hcut : Text.dropEndWhile Text.isBlank ("et -o pipefail && ".toList ++ c :: rest) =
      "et -o pipefail && ".toList ++ c :: Text.dropEndWhile Text.isBlank rest :=
    Text.dropEndWhile_append_cons hl.isBlank_eq
  have hprefix : c :: Text.dropEndWhile Text.isBlank rest <+: c :: rest :=
    ⟨Text.takeEndWhile Text.isBlank rest, by
      rw [List.cons_append, Text.dropEndWhile_append_takeEndWhile]⟩
  have hsuffix : c :: rest <:+ l := ⟨_, hl.line_eq.symm⟩
  have hpart := hprefix.isInfix.trans hsuffix.isInfix
  have hfront : ∀ x ∈ ([] : List Char), Text.isBlank x = true := by simp
  change ReadsAlike l (l.take l.column ++ (head ++ blanks) ++
    's' :: ("et -o pipefail && ".toList ++ c :: rest))
  refine hl.readsAlike hkey (by decide) ?_ ?_
  · rw [hheader]
    exact isScalarHeader_cons (by decide) (by decide) _
  · rw [hcut]
    exact readsState_strictPipes hfront (lacks_of_part hpart hlacks) hplain

end

/-- The option in front of an inline command leaves the reading of the line, unless the command is
quoted and reads state. -/
theorem readsAlike_of_inline (hinline : command.isInline = true)
    (hkey : l.hasKeyIn commandKeys = true) (hvalue : l.value? = some command.text)
    (hheader : isScalarHeader command.text = false)
    (hlacks : Text.contains "pipefail".toList l = false)
    (hplain : isQuoted command.text = true → isReadOnlyText command.text = false)
    (h : insertStrictPipes? command l = some l') : ReadsAlike l l' := by
  obtain ⟨key, head, blanks, c, rest, hl⟩ := exists_hasValue hvalue
  obtain ⟨key', hmem, hkey'⟩ := hasKeyIn_iff.1 hkey
  obtain rfl : key = key' := Option.some.inj (hl.key?_eq.symm.trans hkey')
  rw [← Option.some.inj (hl.value?_eq.symm.trans hvalue)] at hheader hplain
  simp only [insertStrictPipes?, if_pos hinline, hl.splitAtValue?_eq] at h
  split at h
  · next hquote =>
      obtain rfl := Option.some.inj h
      rw [List.append_assoc, List.cons_append]
      exact readsAlike_of_quote hl hmem hquote hheader (hplain (by simpa [isQuoted] using hquote))
  · obtain rfl := Option.some.inj h
    rw [List.append_assoc]
    exact readsAlike_of_front hl hmem hheader hlacks hplain

/-- Trimmed, a line of a script with the option starts with the option. -/
private theorem trim_strictPipes (l : Line) :
    Text.trim (l.take l.depth ++ (strictPipes ++ l.unindented)) =
      's' :: Text.dropEndWhile Text.isBlank ("et -o pipefail && ".toList ++ l.unindented) :=
  have hstarts : startsIndented (strictPipes ++ l.unindented) = false := rfl
  trim_of_unindented (unindented_take_depth_append hstarts) (by decide)

/-- Behind the option stands the text that was trimmed before, with blanks in front of it. -/
private theorem exists_trim_strictPipes {c : Char} {rest : List Char}
    (htrim : Text.trim l = c :: rest) : ∃ front, (∀ x ∈ front, Text.isBlank x = true) ∧
      Text.trim (l.take l.depth ++ (strictPipes ++ l.unindented)) =
        strictPipes ++ (front ++ c :: rest) := by
  have hc := Text.isBlank_of_trim htrim
  have hsame : Text.trim l.unindented = c :: rest := by
    rw [unindented, Text.trim_dropWhile_isIndent, htrim]
  obtain ⟨front, back, hcut, hfront, hback⟩ := Text.exists_eq_append_trim_append l.unindented
  have hkept : Text.dropEndWhile Text.isBlank rest = rest := by
    have hself := Text.trim_cons hc rest
    rw [← htrim, Text.trim_trim, htrim] at hself
    exact (List.cons.inj hself).2.symm
  refine ⟨front, hfront, ?_⟩
  rw [trim_strictPipes, hcut, hsame, ← List.append_assoc, ← List.append_assoc,
    Text.dropEndWhile_append_of_pos hback, Text.dropEndWhile_append_cons hc, hkept,
    List.append_assoc]
  rfl

/-- The option in front of plain text leaves the reading of a line of a script, unless the text is
quoted and reads state. -/
theorem readsAlike_of_script (hscript : command.isInline = false) (hkind : l.kind = .continuation)
    (hholds : holdsCommand l = true) (hlacks : Text.contains "pipefail".toList l = false)
    (hplain : isQuoted (Text.trim l) = true → isReadOnlyText (Text.trim l) = false)
    (h : insertStrictPipes? command l = some l') : ReadsAlike l l' := by
  simp only [insertStrictPipes?, hscript, Bool.false_eq_true, if_false, List.append_assoc] at h
  obtain rfl := Option.some.inj h
  have hstarts : startsIndented (strictPipes ++ l.unindented) = false := rfl
  have hdepth := depth_take_depth_append (l := l) hstarts
  have hkind' := kind_of_strictPipes (unindented_take_depth_append (l := l) hstarts)
  obtain ⟨hkey, hvalue⟩ := not_isEntry_of_continuation hkind
  obtain ⟨hkey', hvalue'⟩ := not_isEntry_of_continuation hkind'
  have hholds' : holdsCommand (l.take l.depth ++ (strictPipes ++ l.unindented)) = true := by
    simp only [holdsCommand, trim_strictPipes]
    rfl
  have hblank {l : Line} (h : l.kind = .continuation) : Text.allBlank l = false :=
    allBlank_of_kind_ne (by rw [h]; decide)
  refine ⟨⟨⟨hdepth, ?_, by rw [hkind, hkind'], by rw [hkind, hkind']⟩,
    by rw [hblank hkind, hblank hkind'], by rw [hkind, hkind'], by rw [hkey, hkey']⟩,
    by rw [valueReading?, valueReading?, hvalue, hvalue'], by rw [hholds, hholds'], ?_⟩
  · rw [column_of_continuation hkind, column_of_continuation hkind', hdepth]
  · cases htrim : Text.trim l with
    | nil =>
        rw [holdsCommand, htrim] at hholds
        cases hholds
    | cons c rest =>
        have hinfix : c :: rest <:+: l := by
          obtain ⟨front, back, hcut, _⟩ := Text.exists_eq_append_trim_append l
          exact ⟨front, back, by rw [← htrim, ← hcut]⟩
        obtain ⟨front, hfront, htext⟩ := exists_trim_strictPipes htrim
        rw [htrim] at hplain
        rw [htext]
        exact readsState_strictPipes hfront (lacks_of_part hinfix hlacks) hplain

end RuleSets

/-! ### Plain commands -/

namespace Buffer

variable {b : Buffer} {i k : Nat} {command : CommandLine}

/-- A command is a value on the line of its key or the text of a line. -/
theorem of_commandLine? (h : b.commandLine? k = some command) :
    (command.isInline = true → (b.line command.index).value? = some command.text ∧
        Line.isScalarHeader command.text = false) ∧
      (command.isInline = false → command.text = Text.trim (b.line command.index) ∧
        holdsCommand (b.line command.index) = true) := by
  obtain ⟨key, value, _, hvalue, ⟨hheader, rfl⟩ | ⟨_, m, _, rfl, hholds, _⟩⟩ :=
    of_commandLine?_eq_some h
  · exact ⟨fun _ => ⟨hvalue, hheader⟩, nofun⟩
  · exact ⟨nofun, fun _ => ⟨rfl, hholds⟩⟩

/-- A command that gets the option stands on a line that does not name it. -/
theorem of_pipeCommand?_eq_some (hi : i < b.length)
    (h : pipeCommand? b ⟨i, b.stopOf i⟩ = some command) :
    (∃ k, b.commandLine? k = some command) ∧
      Text.contains "pipefail".toList (b.line command.index) = false := by
  obtain ⟨hle, hstop, _⟩ := of_pipeCommand? h
  unfold pipeCommand? at h
  split at h
  · next htask =>
      obtain ⟨found, _, hcommand⟩ := Option.bind_eq_some_iff.1 h
      split at hcommand
      · refine ⟨⟨found.index, hcommand⟩, ?_⟩
        simp only [Bool.and_eq_true, Bool.not_eq_true'] at htask
        have hlacks := List.any_eq_false.1 htask.2 (b.line command.index)
          (mem_blockLines hle hstop (Nat.lt_of_lt_of_le hstop (stopOf_le_length hi)))
        simpa using hlacks
      · cases hcommand
  · cases h

/-- The option does not hide what a command is: no quoted command reads state, and a line of a
script is neither a key nor an item. -/
def IsPlain (b : Buffer) (command : CommandLine) : Prop :=
  (isQuoted command.text = true → isReadOnlyText command.text = false) ∧
    (command.isInline = false → (b.line command.index).kind = .continuation)

/-- The command that gets the option in the block of an item is plain. -/
def PipesPlainly (b : Buffer) (i : Nat) : Prop :=
  (b.line i).kind = .item → ∀ command ∈ pipeCommand? b ⟨i, b.stopOf i⟩, b.IsPlain command

instance (b : Buffer) (command : CommandLine) : Decidable (b.IsPlain command) :=
  inferInstanceAs (Decidable (_ ∧ _))

instance (b : Buffer) (i : Nat) : Decidable (b.PipesPlainly i) :=
  inferInstanceAs (Decidable (_ → ∀ command ∈ pipeCommand? b ⟨i, b.stopOf i⟩, b.IsPlain command))

/-- Where commands are plain, the option leaves the reading of their lines. -/
theorem PipesPlainly.readsAlike {l : Line} (hplain : b.PipesPlainly i) (hi : i < b.length)
    (h : strictPipelines.toBlockRule.answer? b i = some (.replace k l)) :
    (b.line k).ReadsAlike l := by
  obtain ⟨_, _, _, hselects, _⟩ := ScopedRewrite.answer?_eq_some_iff.1 h
  obtain ⟨command, hcommand, rfl, hinsert⟩ := exists_of_answer?_strictPipelines h
  obtain ⟨hquoted, hscript⟩ :=
    hplain (Target.kind_of_selects_itemsWithKey hselects) command hcommand
  obtain ⟨_, _, hkey, _⟩ := of_pipeCommand? hcommand
  obtain ⟨⟨found, hfound⟩, hlacks⟩ := of_pipeCommand?_eq_some hi hcommand
  obtain ⟨hvalue, htext⟩ := of_commandLine? hfound
  cases hinline : command.isInline with
  | true =>
      obtain ⟨hvalue, hheader⟩ := hvalue hinline
      exact readsAlike_of_inline hinline (hkey hinline) hvalue hheader hlacks hquoted hinsert
  | false =>
      obtain ⟨htext, hholds⟩ := htext hinline
      rw [htext] at hquoted
      exact readsAlike_of_script hinline (hscript hinline) hholds hlacks hquoted hinsert

end Buffer

end TaskTidy

import TaskTidy.Proofs.HeaderEdits
import TaskTidy.Proofs.Pipelines
import TaskTidy.Proofs.Reassembly
import TaskTidy.Proofs.RoundTrip

/-!
# The ends of rewritten lines

A reader cuts a text at its newlines and takes the carriage returns in front of them for a part of
the line ending if they are everywhere. The rules that rewrite a line write neither of the two.
-/

namespace TaskTidy

open Document

namespace Line

/-- What a reader may rely on in a rewritten line: no newline comes into it, it is not empty, and it
ends in a carriage return only if it did before. -/
structure KeepsEnd (l l' : Line) : Prop where
  newline : '\n' ∉ l → '\n' ∉ l'
  ne_nil : l' ≠ []
  endsInReturn : endsInReturn l' = true → endsInReturn l = true

variable {l front front' rest : Line}

/-- A rewrite in front of the end of a line. -/
theorem KeepsEnd.of_append (hrest : rest ≠ []) (hfront : '\n' ∉ front → '\n' ∉ front') :
    KeepsEnd (front ++ rest) (front' ++ rest) where
  newline h := by
    rw [List.mem_append, not_or] at h ⊢
    exact ⟨hfront h.1, h.2⟩
  ne_nil := List.append_ne_nil_of_right_ne_nil _ hrest
  endsInReturn h := by
    rw [Document.endsInReturn, List.getLast?_append_of_ne_nil _ hrest] at h ⊢
    exact h

/-- A text that is written at the end of a line. -/
theorem KeepsEnd.of_text (hne : rest ≠ []) (hnewline : '\n' ∉ rest)
    (hreturn : Document.endsInReturn rest = false) (hfront : '\n' ∉ l → '\n' ∉ front) :
    KeepsEnd l (front ++ rest) where
  newline h := by
    rw [List.mem_append, not_or]
    exact ⟨hfront h, hnewline⟩
  ne_nil := List.append_ne_nil_of_right_ne_nil _ hne
  endsInReturn h := by
    rw [Document.endsInReturn, List.getLast?_append_of_ne_nil _ hne] at h
    rw [Document.endsInReturn, h] at hreturn
    cases hreturn

end Line

namespace RuleSets

open Line

variable {l l' : Line}

theorem newline_not_mem_take {n : Nat} (h : '\n' ∉ l) : '\n' ∉ l.take n := fun hmem =>
  h (List.mem_of_mem_take hmem)

theorem keepsEnd_of_normalizeTruthy? (h : normalizeTruthy? l = some l') : l.KeepsEnd l' := by
  obtain ⟨head, word, value, blanks, rfl, rfl, hvalue, _⟩ := of_normalizeTruthy? h
  have hhead (hl : '\n' ∉ head ++ word ++ blanks) : '\n' ∉ head := by
    simp only [List.mem_append, not_or] at hl
    exact hl.1.1
  rcases of_booleanOf? hvalue with rfl | rfl
  · exact .of_text (by decide) (by decide) (by decide) hhead
  · exact .of_text (by decide) (by decide) (by decide) hhead

theorem keepsEnd_of_spaceLine? (h : spaceLine? l = some l') : l.KeepsEnd l' := by
  obtain ⟨hl', head, t, t', hcomma, rfl, hspaced⟩ := of_spaceLine? h
  constructor
  · intro hnewline
    rw [hl']
    exact newline_not_mem_spaceCommas hnewline
  · rintro rfl
    rw [(List.append_eq_nil_iff.1 hspaced.symm).1] at hcomma
    cases hcomma
  · rw [hl', endsInReturn, Quoting.spaceCommas_eq_spaceFrom, Quoting.getLast?_spaceFrom]
    exact id

/-- The name behind the first letter ends the line; a name of one letter ends in its uppercase
form. -/
theorem keepsEnd_of_capitalizeName? (h : capitalizeName? l = some l') : l.KeepsEnd l' := by
  obtain ⟨lead, c, more, hl, rfl, hlower, _⟩ := of_capitalizeName? h
  generalize l.take l.column ++ ("name:".toList ++ lead) = front at hl ⊢
  have hletters : '\n' ∉ Text.upperChar c ∧ '\r' ∉ Text.upperChar c :=
    ⟨fun hmem => absurd (Text.le_toNat_of_mem_upperChar hlower hmem) (by decide),
      fun hmem => absurd (Text.le_toNat_of_mem_upperChar hlower hmem) (by decide)⟩
  have hfront (hl' : '\n' ∉ front ++ [c]) : '\n' ∉ front ++ Text.upperChar c := by
    rw [List.mem_append, not_or] at hl' ⊢
    exact ⟨hl'.1, hletters.1⟩
  cases more with
  | cons x more =>
      rw [hl, ← List.singleton_append, ← List.append_assoc]
      exact .of_append (List.cons_ne_nil x more) hfront
  | nil =>
      have hne : Text.upperChar c ≠ [] := by
        rcases Text.upperChar_of_isLowercase hlower with hsame | ⟨u, us, hupper, _⟩
        · rw [hsame]
          exact List.cons_ne_nil c []
        · rw [hupper]
          exact List.cons_ne_nil u us
      have hreturn : endsInReturn (Text.upperChar c) = false := by
        rw [← Bool.not_eq_true, endsInReturn, beq_iff_eq]
        exact fun hlast => hletters.2 (List.mem_of_getLast? hlast)
      rw [hl, List.append_nil]
      exact .of_text hne hletters.1 hreturn fun hl' hmem => hl' (List.mem_append_left _ hmem)

theorem keepsEnd_of_qualifyModule? (h : qualifyModule? l = some l') : l.KeepsEnd l' := by
  obtain ⟨rfl, hmem⟩ := of_qualifyModule? h
  have hbody : l.body ≠ [] := by
    intro hnil
    rw [hnil] at hmem
    revert hmem
    decide
  have hcollection : '\n' ∉ builtinCollection := by decide
  have hend : KeepsEnd (l.take l.column ++ l.body)
      ((l.take l.column ++ builtinCollection) ++ l.body) :=
    .of_append hbody fun hl => by
      rw [List.mem_append, not_or]
      exact ⟨hl, hcollection⟩
  rwa [take_column_append_body, List.append_assoc] at hend

theorem keepsEnd_of_unqualifyParameter? (h : unqualifyParameter? l = some l') :
    l.KeepsEnd l' := by
  obtain ⟨key, _, text, value, hun, hvalue, rfl⟩ := exists_of_unqualifyParameter? h
  obtain ⟨hne, blanks, rfl⟩ := suffix_of_valueAfterBlanks? hvalue
  have hend : KeepsEnd ((l.take l.depth ++ (builtinCollection ++ (key ++ ':' :: blanks))) ++ value)
      ((l.take l.depth ++ (key ++ [':', ' '])) ++ value) :=
    .of_append hne fun hl => by
      simp only [List.mem_append, List.mem_cons, not_or] at hl ⊢
      exact ⟨hl.1, hl.2.2.1, by decide⟩
  have hl : l = (l.take l.depth ++ (builtinCollection ++ (key ++ ':' :: blanks))) ++ value := by
    have hsplit := l.indentation_append_unindented
    rw [hun, ← take_depth] at hsplit
    refine hsplit.symm.trans ?_
    simp
  rw [← hl] at hend
  simpa using hend

theorem keepsEnd_of_renameUnit? {name : String} {fold : Char → Char} {spellings : List String}
    {unit : String} (hr : (name, fold, spellings, unit) ∈ unitRules)
    (h : renameUnit? fold spellings unit l = some l') : l.KeepsEnd l' := by
  obtain ⟨_, rfl⟩ := of_renameUnit? h
  simp only [unitRules, List.mem_cons, Prod.mk.injEq, List.not_mem_nil, or_false] at hr
  rcases hr with ⟨_, rfl, rfl, rfl⟩ | ⟨_, rfl, rfl, rfl⟩ | ⟨_, rfl, rfl, rfl⟩
  · exact .of_text (by decide) (by decide) (by decide) newline_not_mem_take
  · exact .of_text (by decide) (by decide) (by decide) newline_not_mem_take
  · exact .of_text (by decide) (by decide) (by decide) newline_not_mem_take

theorem keepsEnd_of_replaceIgnoreErrors? (h : replaceIgnoreErrors? l = some l') :
    l.KeepsEnd l' := by
  obtain ⟨_, rfl⟩ := of_replaceIgnoreErrors? h
  exact .of_text (by decide) (by decide) (by decide) newline_not_mem_take

/-- The option is put in front of the command, or ends the line if there is none. -/
theorem keepsEnd_of_insertStrictPipes? {command : CommandLine}
    (h : insertStrictPipes? command l = some l') : l.KeepsEnd l' := by
  obtain ⟨before, after, rfl, rfl, _⟩ := exists_append_of_insertStrictPipes? h
  have hoption : '\n' ∉ strictPipes := by decide
  cases after with
  | cons c after =>
      refine .of_append (List.cons_ne_nil c after) fun hbefore => ?_
      rw [List.mem_append, not_or]
      exact ⟨hbefore, hoption⟩
  | nil =>
      rw [List.append_nil, List.append_nil]
      exact .of_text (by decide) hoption (by decide) id

end RuleSets

namespace Reflow

variable {limit : Nat} {l : Line} {parts : List Line}

theorem newline_not_mem_of_split? (h : split? limit l = some parts) {part : Line}
    (hpart : part ∈ parts) (hl : '\n' ∉ l) : '\n' ∉ part := by
  intro hc
  rcases mem_of_split? h hpart hc with hmem | hspace
  · exact hl hmem
  · revert hspace
    decide

/-- The parts of a line hold text to the last, and the first of them ends in a comma. -/
theorem ends_of_split? (h : split? limit l = some parts) :
    parts.getLast? ≠ some [] ∧ ∃ part ∈ parts.dropLast, endsInReturn part = false := by
  obtain ⟨first, rest, _, hpack, _⟩ := exists_pack_of_split? h
  have htwo := (of_split? h).1
  match parts, htwo with
  | part :: next :: more, _ =>
      constructor
      · intro hlast
        rw [List.getLast?_cons_cons] at hlast
        cases isPlainContinuation_of_split? h (List.mem_of_getLast? hlast)
      · have hmem : part ∈ (part :: next :: more).dropLast := by
          rw [List.dropLast_cons_of_ne_nil (List.cons_ne_nil next more)]
          exact List.mem_cons_self
        refine ⟨part, hmem, ?_⟩
        rw [endsInReturn, getLast?_of_pack hpack hmem]
        rfl

end Reflow

end TaskTidy

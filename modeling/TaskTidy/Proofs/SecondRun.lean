import TaskTidy.Proofs.Rereading
import TaskTidy.Proofs.Withdrawal

/-!
# When a second run changes the written text

A run writes its document, and the next run of the same set reads the text. It finds nothing to do,
with two exceptions. The formatting set sees blanks that stood in front of the carriage returns of a
document, if these have become a part of the line ending. And a mode that holds a newline is read
as two lines, which can ask for a mode once more.
-/

namespace TaskTidy

namespace Injects

open Pass

variable {r : FieldInjection} {asks : Line → List Line → Bool} {starts : Line → Bool}
  {s : RuleSet} {b : Buffer}

/-- A document is settled if no block is answered. -/
theorem isSettled_iff (h : Injects r asks starts) (hl : s.lineRules = [])
    (hb : s.blockRules = [r.toBlockRule]) :
    IsSettled s b ↔ ∀ i, (r.toBlockRule.answer? b i).isSome = false := by
  constructor
  · intro hs i
    by_cases hi : i < b.length
    · rcases h.visit_cases hl hb hi (hs i hi) with ⟨hnone, _⟩ | ⟨p, x, _, _, _, hvisit⟩
      · exact hnone
      · cases congrArg Visit.edits hvisit
    · exact isSome_of_length_le h (Nat.le_of_not_lt hi)
  · intro hnone
    refine isSettled_of_answer? hl hb fun i _ => ?_
    rw [← Option.isNone_iff_eq_none, ← Option.isSome_eq_false_iff]
    exact hnone i

end Injects

namespace Document

open Pass RuleSets

variable {s : RuleSet} {options : RuleOptions} {t : List Char}

/-- What a written document leaves to a second run of the same set: blanks that it hides, or a block
that a mode of two lines makes ask for a mode. -/
def LeavesWork (options : RuleOptions) (s : RuleSet) (e : Document) : Prop :=
  s.name = "formatting" ∧ e.HidesTrailing ∨
    s.name = "file-permissions" ∧ ('\n' ∈ options.fileMode ∨ '\n' ∈ options.directoryMode) ∧
      ∃ i, ((explicitMode options).toBlockRule.answer? (parse e.render).lines i).isSome = true

/-- A second run changes what it reads if that is not settled. -/
theorem exists_changed_iff {leaves : Document → Prop} (htwo : SettlesInTwo s)
    (h : ∀ {first}, (parse t).applyPass s = .ok first →
      (parse first.document.render).newlineAfter s (parse first.document.render).lines =
          (parse first.document.render).finalNewline ∧
        (IsSettled s (parse first.document.render).lines ↔ ¬ leaves first.document)) :
    ∃ first second, (parse t).applyPass s = .ok first ∧
      (parse first.document.render).applyPass s = .ok second ∧
        (second.changed = true ↔ leaves first.document) := by
  obtain ⟨first, hfirst⟩ := exists_applyPass htwo (parse t)
  obtain ⟨second, hsecond⟩ := exists_applyPass htwo (parse first.document.render)
  obtain ⟨hend, hsettled⟩ := h hfirst
  refine ⟨first, second, hfirst, hsecond, ?_⟩
  rw [← Bool.not_eq_false, changed_eq_false_iff_isSettled hsecond hend, hsettled, not_not]

/-- The other sets leave nothing to do. -/
theorem exists_changed_iff_of_isSettled (htwo : SettlesInTwo s) (hend : s.endsWithNewline = false)
    (hname : s.name ∉ ["formatting", "file-permissions"])
    (h : ∀ {first}, (parse t).applyPass s = .ok first →
      IsSettled s (parse first.document.render).lines) :
    ∃ first second, (parse t).applyPass s = .ok first ∧
      (parse first.document.render).applyPass s = .ok second ∧
        (second.changed = true ↔ LeavesWork options s first.document) := by
  refine exists_changed_iff htwo fun {first} hfirst =>
    ⟨newlineAfter_of_endsWithNewline hend _ _, iff_of_true (h hfirst) ?_⟩
  simp only [List.mem_cons, List.not_mem_nil, or_false, not_or] at hname
  rintro (⟨hformatting, _⟩ | ⟨hpermissions, _⟩)
  · exact hname.1 hformatting
  · exact hname.2 hpermissions

theorem exists_changed_iff_of_keepsCanonical (htwo : SettlesInTwo s)
    (hend : s.endsWithNewline = false) (hname : s.name ∉ ["formatting", "file-permissions"])
    (hs : KeepsCanonical s) :
    ∃ first second, (parse t).applyPass s = .ok first ∧
      (parse first.document.render).applyPass s = .ok second ∧
        (second.changed = true ↔ LeavesWork options s first.document) :=
  exists_changed_iff_of_isSettled htwo hend hname fun hfirst =>
    (hs.of_applyPass hend (isCanonical_parse t) hfirst).isSettled_reread hfirst

/-- The mode of a file is read as it was written, unless it holds a newline. -/
theorem isSettled_reread_filePermissions_iff {first : Outcome}
    (hfirst : (parse t).applyPass (filePermissions options) = .ok first) :
    IsSettled (filePermissions options) (parse first.document.render).lines ↔
      ¬ LeavesWork options (filePermissions options) first.document := by
  have hiff : LeavesWork options (filePermissions options) first.document ↔
      ('\n' ∈ options.fileMode ∨ '\n' ∈ options.directoryMode) ∧
        ¬ IsSettled (filePermissions options) (parse first.document.render).lines := by
    rw [(injects_explicitMode options).isSettled_iff rfl rfl]
    simp only [LeavesWork, filePermissions, not_forall, Bool.not_eq_false]
    simp
  rw [hiff, not_and, not_not]
  refine ⟨fun h _ => h, fun h => ?_⟩
  by_cases hnewline : '\n' ∈ options.fileMode ∨ '\n' ∈ options.directoryMode
  · exact h hnewline
  · rw [not_or] at hnewline
    refine (injects_explicitMode options).isSettled_reread rfl rfl rfl (fun b e value hvalue => ?_)
      (isCanonical_parse t) hfirst
    have hmode := mem_of_modeFor? hvalue
    simp only [List.mem_cons, List.not_mem_nil, or_false] at hmode
    rcases hmode with rfl | rfl
    · exact hnewline.1
    · exact hnewline.2

/-- A mark that nothing changes holds no newline, so it is read as it was written. -/
theorem isSettled_reread_changedWhen {first : Outcome}
    (hfirst : (parse t).applyPass changedWhen = .ok first) :
    IsSettled changedWhen (parse first.document.render).lines := by
  refine injects_readOnlyCommand.isSettled_reread rfl rfl rfl (fun b e value hvalue => ?_)
    (isCanonical_parse t) hfirst
  rw [eq_false_of_readOnlyCommand hvalue]
  decide

/-- A run of a built-in set and a second one over the written text both give a document. The second
run changes its document exactly if the first one has left work. -/
theorem changed_again_iff_leavesWork (hs : s ∈ Registry.builtinSets options) :
    ∃ first second, (parse t).applyPass s = .ok first ∧
      (parse first.document.render).applyPass s = .ok second ∧
        (second.changed = true ↔ LeavesWork options s first.document) := by
  have htwo := Registry.settlesInTwo_of_mem_builtinSets hs
  simp only [Registry.builtinSets, List.mem_cons, List.not_mem_nil, or_false] at hs
  rcases hs with rfl | rfl | rfl | rfl | rfl | rfl | rfl | rfl | rfl | rfl | rfl | rfl
  · refine exists_changed_iff htwo fun {first} hfirst => ?_
    have hiff : LeavesWork options formatting first.document ↔ first.document.HidesTrailing := by
      simp [LeavesWork, formatting]
    rw [hiff]
    exact isSettled_reread_formatting_iff (isCanonical_parse t) hfirst
  · exact exists_changed_iff_of_keepsCanonical htwo rfl (by decide) keepsCanonical_truthy
  · exact exists_changed_iff_of_keepsCanonical htwo rfl (by decide) keepsCanonical_commaSpacing
  · exact exists_changed_iff_of_keepsCanonical htwo rfl (by decide) keepsCanonical_nameCasing
  · exact exists_changed_iff_of_keepsCanonical htwo rfl (by decide) keepsCanonical_fqcn
  · exact exists_changed_iff_of_keepsCanonical htwo rfl (by decide) keepsCanonical_serviceNames
  · exact exists_changed_iff_of_keepsCanonical htwo rfl (by simp [lineLength])
      (keepsCanonical_lineLength _)
  · exact exists_changed_iff htwo fun {first} hfirst =>
      ⟨newlineAfter_of_endsWithNewline rfl _ _, isSettled_reread_filePermissions_iff hfirst⟩
  · exact exists_changed_iff_of_isSettled htwo rfl (by decide) isSettled_reread_changedWhen
  · exact exists_changed_iff_of_keepsCanonical htwo rfl (by decide) keepsCanonical_pipefail
  · exact exists_changed_iff_of_keepsCanonical htwo rfl (by decide) keepsCanonical_ignoreErrors
  · exact exists_changed_iff_of_isSettled htwo rfl (by decide)
      (isSettled_reread_molecule (isCanonical_parse t))

/-- The formatting set gives a line without a newline a newline, and so lets its carriage return
become a part of the line ending, behind which the next run finds a blank to strip. -/
theorem changed_again_return :
    formatting ∈ Registry.builtinSets .standard ∧
      ∃ first second, (parse "a \r".toList).applyPass formatting = .ok first ∧
        (parse first.document.render).applyPass formatting = .ok second ∧
          second.changed = true := by
  have hs : formatting ∈ Registry.builtinSets .standard := List.mem_cons_self
  obtain ⟨first, second, hfirst, hsecond, hchanged⟩ :=
    changed_again_iff_leavesWork (t := "a \r".toList) hs
  have hdocument : first.document = ⟨["a \r".toList], .lf, true⟩ := by
    have hpass : (parse "a \r".toList).applyPass formatting =
        .ok ⟨⟨["a \r".toList], .lf, true⟩, true, []⟩ := by
      decide +kernel
    cases Except.ok.inj (hfirst.symm.trans hpass)
    rfl
  refine ⟨hs, first, second, hfirst, hsecond, hchanged.2 (Or.inl ⟨rfl, ?_⟩)⟩
  rw [hdocument]
  exact ⟨rfl, by decide, "a \r".toList, by decide, "a".toList, ' ', rfl, rfl⟩

/-- Not every second run on a written text finds nothing to do. -/
theorem not_unchanged_again :
    ¬ ∀ (options : RuleOptions) (s : RuleSet) (t : List Char) (first : Outcome),
      s ∈ Registry.builtinSets options → (parse t).applyPass s = .ok first →
        ∃ second, (parse first.document.render).applyPass s = .ok second ∧
          second.changed = false := by
  intro hall
  have hfirst : (parse "a \r".toList).applyPass formatting =
      .ok ⟨⟨["a \r".toList], .lf, true⟩, true, []⟩ := by
    decide +kernel
  have hagain : (parse "a \r\n".toList).applyPass formatting =
      .ok ⟨⟨["a".toList], .crlf, true⟩, true, [⟨"formatting", ⟨"trailing-whitespace", 1⟩⟩]⟩ := by
    decide +kernel
  obtain ⟨second, hsecond, hunchanged⟩ := hall .standard formatting _ _ List.mem_cons_self hfirst
  cases Except.ok.inj (hsecond.symm.trans hagain)
  cases hunchanged

end Document

end TaskTidy

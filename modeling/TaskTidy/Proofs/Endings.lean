import TaskTidy.Proofs.Changes

/-!
# Line endings

The rule sets see the lines of a document and not how they end. So a text with the longer ending is
edited exactly as the same text with newlines alone, and the result differs in nothing but the
endings, because no built-in set writes a newline into a line.
-/

namespace TaskTidy

/-- The text with a carriage return before every newline. -/
def Text.withReturns (s : List Char) : List Char :=
  s.flatMap fun c => if c = '\n' then ['\r', '\n'] else [c]

namespace Text

theorem withReturns_append (s t : List Char) :
    withReturns (s ++ t) = withReturns s ++ withReturns t :=
  List.flatMap_append

theorem withReturns_of_not_mem {s : List Char} (h : '\n' ∉ s) : withReturns s = s := by
  induction s with
  | nil => rfl
  | cons c s ih =>
      rw [List.mem_cons, not_or] at h
      rw [withReturns, List.flatMap_cons, if_neg (Ne.symm h.1)]
      exact congrArg (c :: ·) (ih h.2)

/-- Pieces that a newline ends become pieces that the longer ending ends. -/
theorem withReturns_endEach {front : List (List Char)} (h : ∀ piece ∈ front, '\n' ∉ piece) :
    withReturns (endEach ['\n'] front) = endEach ['\r', '\n'] front := by
  induction front with
  | nil => rfl
  | cons piece front ih =>
      obtain ⟨hpiece, hfront⟩ := List.forall_mem_cons.1 h
      calc withReturns (endEach ['\n'] (piece :: front))
          = withReturns (piece ++ ['\n'] ++ endEach ['\n'] front) := rfl
        _ = withReturns piece ++ withReturns ['\n'] ++ withReturns (endEach ['\n'] front) := by
            rw [withReturns_append, withReturns_append]
        _ = piece ++ ['\r', '\n'] ++ endEach ['\r', '\n'] front := by
            rw [withReturns_of_not_mem hpiece, ih hfront]
            rfl
        _ = endEach ['\r', '\n'] (piece :: front) := rfl

end Text

namespace Document

open Text

variable {d e : Document} {text : List Char} {s : RuleSet} {sets : List RuleSet}
  {ending : LineEnding}

/-- The document with another line ending. -/
def withEnding (d : Document) (ending : LineEnding) : Document :=
  ⟨d.lines, ending, d.finalNewline⟩

/-- Documents with one ending differ exactly if they do with another one. -/
theorem withEnding_bne (h : d.ending = e.ending) (ending : LineEnding) :
    (d.withEnding ending != e.withEnding ending) = (d != e) := by
  obtain ⟨lines, _, finalNewline⟩ := d
  obtain ⟨lines', _, finalNewline'⟩ := e
  obtain rfl := h
  rw [Bool.eq_iff_iff, bne_iff_ne, bne_iff_ne]
  simp [withEnding]

end Document

/-- The outcome for the document with another line ending. -/
def Outcome.withEnding (outcome : Outcome) (ending : LineEnding) : Outcome :=
  ⟨outcome.document.withEnding ending, outcome.changed, outcome.applied⟩

namespace Document

open Text

variable {d : Document} {text : List Char} {sets : List RuleSet}

/-- A pass sees the lines and the flag for the last newline, and keeps the ending. -/
theorem applyPass_withEnding (d : Document) (ending : LineEnding) (s : RuleSet) :
    (d.withEnding ending).applyPass s =
      (d.applyPass s).map fun outcome => outcome.withEnding ending := by
  unfold applyPass applyPassWithin
  have hlines : (d.withEnding ending).lines = d.lines := rfl
  rw [hlines]
  cases Pass.settle Pass.sweepLimit s Pass.maxSweeps d.lines with
  | error cause => rfl
  | ok result =>
      obtain ⟨lines, edits⟩ := result
      have hchanged := withEnding_bne (d := d.withLines lines (d.newlineAfter s lines)) (e := d)
        rfl ending
      simp only [Except.map, Outcome.withEnding, ← hchanged]
      rfl

/-- A chain does the same with every ending. -/
theorem applyEach_withEnding (d : Document) (ending : LineEnding) (sets : List RuleSet) :
    (d.withEnding ending).applyEach sets =
      (d.applyEach sets).map fun result => (result.1.withEnding ending, result.2) := by
  induction sets generalizing d with
  | nil => rfl
  | cons s rest ih =>
      unfold applyEach
      rw [applyPass_withEnding]
      cases d.applyPass s with
      | error cause => rfl
      | ok outcome =>
          have hrest := ih outcome.document
          simp only [Except.map, Outcome.withEnding, hrest]
          cases outcome.document.applyEach rest with
          | error cause => rfl
          | ok result => rfl

/-- Terminated lines are rendered with the ending of the document. -/
theorem render_withEnding_crlf (hd : d.lines.IsUnbroken) (h : d.ending = .lf) :
    (d.withEnding .crlf).render = withReturns d.render := by
  have hfront : ∀ l ∈ d.terminated, '\n' ∉ l := fun l hl => hd l (mem_lines_of_mem_terminated hl)
  rw [render_eq d, h, LineEnding.text, withReturns_append, withReturns_endEach hfront,
    withReturns_of_not_mem (newline_not_mem_unterminated hd), render_eq]
  rfl

/-- A text without carriage returns is read as the same lines when each newline has one. -/
theorem parse_withReturns (hreturn : '\r' ∉ text) (hnewline : '\n' ∈ text) :
    (parse text).ending = .lf ∧ parse (withReturns text) = (parse text).withEnding .crlf := by
  obtain ⟨front, last, rfl, hfront, hlast⟩ := exists_eq_endEach_append text
  have hne : front ≠ [] := by
    rintro rfl
    exact hlast hnewline
  have hreturns : ∀ l ∈ front.map (· ++ ['\r']), '\n' ∉ l := by
    intro l hl
    obtain ⟨line, hline, rfl⟩ := List.mem_map.1 hl
    simpa using hfront line hline
  have hplain : allReturn front = false := by
    rw [Bool.eq_false_iff, Ne, allReturn_eq_true_iff]
    rintro ⟨-, hends⟩
    obtain ⟨l, more, rfl⟩ := List.exists_cons_of_ne_nil hne
    have hlast' : l.getLast? = some '\r' := by simpa [endsInReturn] using hends l List.mem_cons_self
    have hmem : '\r' ∈ endEach ['\n'] (l :: more) ++ last := by
      simp [endEach, List.mem_of_getLast? hlast']
    exact hreturn hmem
  have hall : allReturn (front.map (· ++ ['\r'])) = true :=
    allReturn_eq_true_iff.2 ⟨by simpa using hne, by simp [endsInReturn]⟩
  have hlines : (front.map (· ++ ['\r'])).map List.dropLast = front := by
    simp [Function.comp_def]
  rw [withReturns_append, withReturns_endEach hfront, withReturns_of_not_mem hlast,
    ← endEach_map_append_return, parse_endEach_append hreturns hlast,
    parse_endEach_append hfront hlast, hplain, hall, hlines]
  exact ⟨rfl, rfl⟩

/-- A chain of built-in sets over a text with newlines alone and over the same text with the longer
ending gives documents by the same edits, and the texts differ in the endings alone. -/
theorem applySets_withReturns {options : RuleOptions} (hmodes : options.IsUnbroken)
    (hsets : ∀ s ∈ sets, s ∈ Registry.builtinSets options) (hreturn : '\r' ∉ text)
    (hnewline : '\n' ∈ text) :
    ∃ outcome other, (parse text).applySets sets = .ok outcome ∧
      (parse (withReturns text)).applySets sets = .ok other ∧
      other.applied = outcome.applied ∧ other.changed = outcome.changed ∧
      other.document.render = withReturns outcome.document.render := by
  obtain ⟨hending, hparse⟩ := parse_withReturns hreturn hnewline
  obtain ⟨last, applied, heach⟩ := exists_applyEach
    (fun s hs => Registry.settlesInTwo_of_mem_builtinSets (hsets s hs)) (parse text)
  have hfollows : (parse text).Follows last := follows_of_applyEach
    (fun s hs => Registry.keepsUnbroken_of_mem_builtinSets hmodes (hsets s hs))
    (isCanonical_parse text).noNewline heach
  have hother : (parse (withReturns text)).applyEach sets =
      .ok (last.withEnding .crlf, applied) := by
    rw [hparse, applyEach_withEnding, heach]
    rfl
  refine ⟨⟨last, last != parse text, applied⟩,
    ⟨last.withEnding .crlf, last.withEnding .crlf != parse (withReturns text), applied⟩,
    by rw [applySets, heach], by rw [applySets, hother], rfl, ?_,
    render_withEnding_crlf hfollows.isUnbroken (hfollows.ending_eq.trans hending)⟩
  rw [hparse, withEnding_bne hfollows.ending_eq]

/-- A chain that deletes one of two ended lines and rewrites the line without ending. -/
theorem applySets_withReturns_molecule :
    RuleOptions.standard.IsUnbroken ∧
      (∀ s ∈ [RuleSets.truthy, RuleSets.molecule], s ∈ Registry.builtinSets .standard) ∧
      '\r' ∉ "name: x\n  ansible.builtin.command: ls\nbecome: yes".toList ∧
      '\n' ∈ "name: x\n  ansible.builtin.command: ls\nbecome: yes".toList ∧
      (∃ outcome other,
        (parse "name: x\n  ansible.builtin.command: ls\nbecome: yes".toList).applySets
          [RuleSets.truthy, RuleSets.molecule] = .ok outcome ∧
        (parse (withReturns "name: x\n  ansible.builtin.command: ls\nbecome: yes".toList)).applySets
          [RuleSets.truthy, RuleSets.molecule] = .ok other ∧
        other.applied = outcome.applied ∧ other.changed = outcome.changed ∧
        other.document.render = withReturns outcome.document.render) ∧
      ((parse "name: x\r\n  ansible.builtin.command: ls\r\nbecome: yes".toList).applySets
        [RuleSets.truthy, RuleSets.molecule]).toOption.map (·.document.render) =
          some "name: x\r\nbecome: true".toList := by
  have hmodes : RuleOptions.standard.IsUnbroken := by decide
  have hsets : ∀ s ∈ [RuleSets.truthy, RuleSets.molecule], s ∈ Registry.builtinSets .standard := by
    simp [Registry.builtinSets]
  have hreturn : '\r' ∉ "name: x\n  ansible.builtin.command: ls\nbecome: yes".toList := by decide
  have hnewline : '\n' ∈ "name: x\n  ansible.builtin.command: ls\nbecome: yes".toList := by decide
  exact ⟨hmodes, hsets, hreturn, hnewline,
    applySets_withReturns hmodes hsets hreturn hnewline, by decide +kernel⟩

end Document

end TaskTidy

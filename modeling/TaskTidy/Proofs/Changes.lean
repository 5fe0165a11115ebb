import TaskTidy.Proofs.Newlines
import TaskTidy.Proofs.RoundTrip
import TaskTidy.Proofs.Stability

/-!
# Changed documents and changed texts

Distinct documents can have one text: a last line without ending that is empty adds nothing to it,
and neither do lines that hold newlines. A chain of built-in sets never leads from a text that was
read to such a twin of it, so a document is reported as changed exactly if its text is another one.
-/

namespace TaskTidy

namespace Document

open Text

variable {d e f : Document} {s : RuleSet} {sets : List RuleSet} {outcome : Outcome}
  {applied : List Applied}

/-- What a chain keeps of a document: the lines hold no newline, the ending stays, a last newline
stays, and a document without lines stays as it is. -/
structure Follows (d e : Document) : Prop where
  isUnbroken : e.lines.IsUnbroken
  ending_eq : e.ending = d.ending
  finalNewline : d.finalNewline = true → e.finalNewline = true
  eq_of_nil : d.lines = [] → e = d

theorem Follows.refl (hd : d.lines.IsUnbroken) : d.Follows d :=
  ⟨hd, rfl, id, fun _ => rfl⟩

theorem Follows.trans (h : d.Follows e) (h' : e.Follows f) : d.Follows f where
  isUnbroken := h'.isUnbroken
  ending_eq := h'.ending_eq.trans h.ending_eq
  finalNewline := h'.finalNewline ∘ h.finalNewline
  eq_of_nil hnil := by
    obtain rfl := h.eq_of_nil hnil
    exact h'.eq_of_nil hnil

/-- A pass leaves a document without lines as it is. -/
theorem eq_of_applyPass_of_lines_eq_nil (hnil : d.lines = [])
    (h : d.applyPass s = .ok outcome) : outcome.document = d := by
  have hsweep : Pass.sweep Pass.sweepLimit s d.lines = .ok (d.lines, []) :=
    Pass.sweepFrom_of_length_le (by simp [hnil]) _
  have hflag : d.newlineAfter s d.lines = d.finalNewline := by simp [newlineAfter, hnil]
  have hpass := applyPassWithin_of_sweep hsweep
  rw [show d.applyPassWithin Pass.sweepLimit s = _ from h, hflag] at hpass
  exact congrArg Outcome.document (Except.ok.inj hpass)

theorem follows_of_applyPass (hs : Pass.KeepsUnbroken s) (hd : d.lines.IsUnbroken)
    (h : d.applyPass s = .ok outcome) : d.Follows outcome.document := by
  have hlines := hs.of_applyPass hd h
  obtain ⟨lines, edits, _, hdocument, _⟩ := of_applyPassWithin h
  refine ⟨hlines, by rw [hdocument, withLines], fun hflag => ?_,
    fun hnil => eq_of_applyPass_of_lines_eq_nil hnil h⟩
  rw [hdocument]
  simp [withLines, newlineAfter, hflag]

theorem follows_of_applyEach (hs : ∀ s ∈ sets, Pass.KeepsUnbroken s) (hd : d.lines.IsUnbroken)
    (h : d.applyEach sets = .ok (e, applied)) : d.Follows e := by
  induction sets generalizing d applied with
  | nil =>
      cases h
      exact Follows.refl hd
  | cons s rest ih =>
      obtain ⟨outcome, more, hpass, hmore⟩ := of_applyEach_cons h
      have hfirst := follows_of_applyPass (hs s List.mem_cons_self) hd hpass
      have hrest : ∀ t ∈ rest, Pass.KeepsUnbroken t := fun t ht => hs t (List.mem_cons_of_mem s ht)
      exact hfirst.trans (ih hrest hfirst.isUnbroken hmore)

/-- Documents with one ending and one text have the same terminated lines and the same text after
them. -/
theorem parts_eq_of_render_eq (hd : d.lines.IsUnbroken) (he : e.lines.IsUnbroken)
    (hending : e.ending = d.ending) (h : e.render = d.render) :
    e.terminated = d.terminated ∧ e.unterminated = d.unterminated := by
  have hfront {c : Document} (hc : c.lines.IsUnbroken) : ∀ l ∈ c.terminated, '\n' ∉ l :=
    fun l hl => hc l (mem_lines_of_mem_terminated hl)
  rw [render_eq, render_eq, hending] at h
  have hpieces := congrArg (pieces '\n') h
  cases hd' : d.ending with
  | lf =>
      rw [hd', LineEnding.text,
        pieces_endEach_append (hfront he) (newline_not_mem_unterminated he),
        pieces_endEach_append (hfront hd) (newline_not_mem_unterminated hd)] at hpieces
      exact List.append_singleton_inj.1 hpieces
  | crlf =>
      have hreturns {c : Document} (hc : c.lines.IsUnbroken) :
          ∀ l ∈ c.terminated.map (· ++ ['\r']), '\n' ∉ l := by
        intro l hl
        obtain ⟨line, hline, rfl⟩ := List.mem_map.1 hl
        simpa using hfront hc line hline
      rw [hd', LineEnding.text, ← endEach_map_append_return, ← endEach_map_append_return,
        pieces_endEach_append (hreturns he) (newline_not_mem_unterminated he),
        pieces_endEach_append (hreturns hd) (newline_not_mem_unterminated hd)] at hpieces
      obtain ⟨hlines, hlast⟩ := List.append_singleton_inj.1 hpieces
      exact ⟨List.map_injective_iff.2 (List.append_left_injective _) hlines, hlast⟩

/-- Text after the last ending is the last line. -/
theorem of_unterminated_ne_nil (hne : d.unterminated ≠ []) :
    d.finalNewline = false ∧ d.lines = d.terminated ++ [d.unterminated] := by
  cases hflag : d.finalNewline with
  | true => exact absurd (by rw [unterminated, if_pos hflag]) hne
  | false =>
      rcases List.eq_nil_or_concat d.lines with hnil | ⟨front, last, hlines⟩
      · exact absurd (by simp [unterminated, hflag, hnil]) hne
      · simp [terminated, unterminated, hflag, hlines]

/-- What follows a canonical document and has its text is that document. -/
theorem Follows.eq_of_render_eq (h : d.Follows e) (hd : d.IsCanonical)
    (hrender : e.render = d.render) : e = d := by
  obtain ⟨hfront, hlast⟩ := parts_eq_of_render_eq hd.noNewline h.isUnbroken h.ending_eq hrender
  have hparts : e.lines = d.lines ∧ e.finalNewline = d.finalNewline := by
    cases hflag : d.finalNewline with
    | true =>
        have hflag' := h.finalNewline hflag
        rw [terminated, terminated, if_pos hflag, if_pos hflag'] at hfront
        exact ⟨hfront, hflag'⟩
    | false =>
        by_cases hnil : d.lines = []
        · rw [h.eq_of_nil hnil]
          exact ⟨rfl, hflag⟩
        · have hne : d.unterminated ≠ [] := by
            rcases hd.last hnil with hflag' | hne
            · rw [hflag] at hflag'
              cases hflag'
            · obtain ⟨front, last, hlines⟩ := (List.eq_nil_or_concat d.lines).resolve_left hnil
              simpa [unterminated, hflag, hlines] using hne
          obtain ⟨hflag', hlines⟩ := of_unterminated_ne_nil (hlast ▸ hne)
          rw [hlines, hfront, hlast, (of_unterminated_ne_nil hne).2]
          exact ⟨rfl, hflag'⟩
  obtain ⟨lines, ending, finalNewline⟩ := e
  obtain ⟨rfl, rfl⟩ := hparts
  obtain rfl := h.ending_eq
  rfl

/-- A chain of built-in sets over a text gives a document, which is reported as changed exactly if
its text is another one. -/
theorem changed_applySets_iff_render_ne {options : RuleOptions} (hmodes : options.IsUnbroken)
    (hsets : ∀ s ∈ sets, s ∈ Registry.builtinSets options) (text : List Char) :
    ∃ outcome, (parse text).applySets sets = .ok outcome ∧
      (outcome.changed = true ↔ outcome.document.render ≠ text) := by
  obtain ⟨last, applied, heach⟩ := exists_applyEach
    (fun s hs => Registry.settlesInTwo_of_mem_builtinSets (hsets s hs)) (parse text)
  have hcanonical := isCanonical_parse text
  have hfollows : (parse text).Follows last := follows_of_applyEach
    (fun s hs => Registry.keepsUnbroken_of_mem_builtinSets hmodes (hsets s hs))
    hcanonical.noNewline heach
  refine ⟨⟨last, last != parse text, applied⟩, by rw [applySets, heach], ?_⟩
  rw [bne_iff_ne, ne_eq, not_iff_not]
  constructor
  · rintro rfl
    exact render_parse text
  · intro hrender
    exact hfollows.eq_of_render_eq hcanonical (hrender.trans (render_parse text).symm)

/-- A text with the longer ending whose last line is not ended is changed by two sets. -/
theorem changed_applySets_iff_render_ne_command :
    RuleOptions.standard.IsUnbroken ∧
      (∀ s ∈ [RuleSets.formatting, RuleSets.changedWhen], s ∈ Registry.builtinSets .standard) ∧
      (∃ outcome, (parse "- name: run\r\n  command: ls".toList).applySets
          [RuleSets.formatting, RuleSets.changedWhen] = .ok outcome ∧
        (outcome.changed = true ↔
          outcome.document.render ≠ "- name: run\r\n  command: ls".toList)) ∧
      ((parse "- name: run\r\n  command: ls".toList).applySets
        [RuleSets.formatting, RuleSets.changedWhen]).toOption.map (·.document.render) =
          some "- name: run\r\n  command: ls\r\n  changed_when: false\r\n".toList := by
  have hmodes : RuleOptions.standard.IsUnbroken := by decide
  have hsets : ∀ s ∈ [RuleSets.formatting, RuleSets.changedWhen],
      s ∈ Registry.builtinSets .standard := by
    simp [Registry.builtinSets]
  exact ⟨hmodes, hsets, changed_applySets_iff_render_ne hmodes hsets _, by decide +kernel⟩

end Document

end TaskTidy

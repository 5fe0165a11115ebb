import TaskTidy.Proofs.LineEnds
import TaskTidy.Proofs.LineSets
import TaskTidy.Proofs.Shift

/-!
# Passes over canonical documents

A document stays canonical when a line is rewritten up to its end, when a line is split at its
commas, and when a line is added below another. The only exception is a line that is the whole
document and ends in a carriage return: with a line below it, the return reads as a part of the line
ending.
-/

namespace TaskTidy

namespace Document

/-! ### Canonical documents -/

section

variable {A B P : Buffer} {x y : Line} {ending : LineEnding} {finalNewline : Bool}

/-- The lines above others that are terminated or end the document. -/
private theorem terminated_append (hB : finalNewline = true ∨ B ≠ []) :
    (⟨A ++ B, ending, finalNewline⟩ : Document).terminated =
      A ++ (⟨B, ending, finalNewline⟩ : Document).terminated := by
  cases finalNewline with
  | true => rfl
  | false => exact List.dropLast_append_of_ne_nil (hB.resolve_left Bool.false_ne_true)

/-- Lines in the place of a terminated line are terminated. -/
private theorem terminated_replace (hB : finalNewline = true ∨ B ≠ []) (P : Buffer) :
    (⟨A ++ P ++ B, ending, finalNewline⟩ : Document).terminated =
      A ++ P ++ (⟨B, ending, finalNewline⟩ : Document).terminated :=
  terminated_append hB

/-- What may be written in the place of a line: no newline comes in, the last line holds something,
and a line that shows the shorter ending is kept. Of several lines in the place of a single one that
is not terminated, the first ones have to show it. -/
structure FitsPlace (A B P : Buffer) (y : Line) (finalNewline : Bool) : Prop where
  ne_nil : P ≠ []
  newline : ∀ l ∈ P, '\n' ∉ l
  last : P.getLast? ≠ some []
  shows : endsInReturn y = false → ∃ l ∈ P, endsInReturn l = false
  single : A = [] → B = [] → finalNewline = false →
    P.dropLast = [] ∨ ∃ l ∈ P.dropLast, endsInReturn l = false

private theorem terminated_or_last (B : Buffer) (finalNewline : Bool) :
    (finalNewline = true ∨ B ≠ []) ∨ finalNewline = false ∧ B = [] := by
  cases finalNewline with
  | true => exact Or.inl (Or.inl rfl)
  | false => exact (ne_or_eq B []).imp Or.inr fun hB => ⟨rfl, hB⟩

/-- Of lines in the place of the last one, which is not terminated, all but the last one are. -/
private theorem terminated_replace_last (hP : P ≠ []) :
    (⟨A ++ P ++ [], ending, false⟩ : Document).terminated = A ++ P.dropLast := by
  rw [List.append_nil]
  exact List.dropLast_append_of_ne_nil hP

section

variable (h : (⟨A ++ [y] ++ B, ending, finalNewline⟩ : Document).IsCanonical)
  (hP : FitsPlace A B P y finalNewline)

include h hP

private theorem IsCanonical.terminated_replace_ne_nil (hcrlf : ending = .crlf) :
    (⟨A ++ P ++ B, ending, finalNewline⟩ : Document).terminated ≠ [] := by
  rcases terminated_or_last B finalNewline with hB | ⟨rfl, rfl⟩
  · rw [terminated_replace hB]
    simp [hP.ne_nil]
  · have hterminated := h.crlf hcrlf
    rw [terminated_replace_last (List.cons_ne_nil y [])] at hterminated
    rw [terminated_replace_last hP.ne_nil]
    simp only [List.dropLast_singleton, List.append_nil] at hterminated
    simp [hterminated]

private theorem IsCanonical.shows_replace (hlf : ending = .lf) :
    (⟨A ++ P ++ B, ending, finalNewline⟩ : Document).terminated = [] ∨
      ∃ l ∈ (⟨A ++ P ++ B, ending, finalNewline⟩ : Document).terminated,
        endsInReturn l = false := by
  have hshows := h.lf hlf
  rcases terminated_or_last B finalNewline with hB | ⟨rfl, rfl⟩
  · right
    rw [terminated_replace hB] at hshows ⊢
    obtain ⟨l, hl, hreturn⟩ := hshows.resolve_left (by simp)
    simp only [List.mem_append, List.mem_singleton] at hl
    rcases hl with (hl | rfl) | hl
    · exact ⟨l, List.mem_append_left _ (List.mem_append_left _ hl), hreturn⟩
    · obtain ⟨l', hl', hreturn'⟩ := hP.shows hreturn
      exact ⟨l', List.mem_append_left _ (List.mem_append_right _ hl'), hreturn'⟩
    · exact ⟨l, List.mem_append_right _ hl, hreturn⟩
  · rw [terminated_replace_last (List.cons_ne_nil y []), List.dropLast_singleton,
      List.append_nil] at hshows
    rw [terminated_replace_last hP.ne_nil]
    rcases hshows with rfl | ⟨l, hl, hreturn⟩
    · exact hP.single rfl rfl rfl
    · exact Or.inr ⟨l, List.mem_append_left _ hl, hreturn⟩

/-- A canonical document stays canonical with other lines in the place of a line. -/
theorem IsCanonical.replace : (⟨A ++ P ++ B, ending, finalNewline⟩ : Document).IsCanonical where
  noNewline l hl := by
    simp only [List.mem_append] at hl
    rcases hl with (hl | hl) | hl
    · exact h.noNewline l (List.mem_append_left _ (List.mem_append_left _ hl))
    · exact hP.newline l hl
    · exact h.noNewline l (List.mem_append_right _ hl)
  empty hnil :=
    absurd (List.append_eq_nil_iff.1 (List.append_eq_nil_iff.1 hnil).1).2 hP.ne_nil
  last _ := by
    by_cases hB : B = []
    · subst hB
      right
      dsimp only
      rw [List.append_nil, List.getLast?_append_of_ne_nil _ hP.ne_nil]
      exact hP.last
    · have hlast := h.last (by simp)
      dsimp only at hlast ⊢
      rwa [List.getLast?_append_of_ne_nil _ hB] at hlast ⊢
  crlf := h.terminated_replace_ne_nil hP
  lf := h.shows_replace hP

end

end

section

variable {d : Document} {i p : Nat} {x : Line}

theorem IsCanonical.noNewline_line (h : d.IsCanonical) (hi : i < d.lines.length) :
    '\n' ∉ d.lines.line i := by
  rw [Buffer.line_eq_getElem _ i hi]
  exact h.noNewline _ (List.getElem_mem hi)

/-- A canonical document stays canonical with other lines in the place of line `i`. -/
theorem IsCanonical.replace_line (h : d.IsCanonical) (hi : i < d.lines.length) {P : Buffer}
    (hP : FitsPlace (d.lines.take i) (d.lines.drop (i + 1)) P (d.lines.line i) d.finalNewline) :
    (d.withLines (d.lines.take i ++ P ++ d.lines.drop (i + 1)) d.finalNewline).IsCanonical := by
  have hcut : d.lines = d.lines.take i ++ [d.lines.line i] ++ d.lines.drop (i + 1) := by
    rw [List.append_assoc, List.singleton_append, ← Buffer.drop_eq_line_cons hi,
      List.take_append_drop]
  have h' : (⟨d.lines.take i ++ [d.lines.line i] ++ d.lines.drop (i + 1), d.ending,
      d.finalNewline⟩ : Document).IsCanonical := by
    rwa [← hcut]
  exact h'.replace hP

theorem IsCanonical.set {l : Line} (h : d.IsCanonical) (hi : i < d.lines.length)
    (hl : (d.lines.line i).KeepsEnd l) :
    (d.withLines (d.lines.set i l) d.finalNewline).IsCanonical := by
  have hset : d.lines.set i l = d.lines.take i ++ [l] ++ d.lines.drop (i + 1) := by
    rw [List.set_eq_take_append_cons_drop, if_pos hi, List.append_assoc, List.singleton_append]
  rw [hset]
  apply h.replace_line hi
  constructor
  · exact List.cons_ne_nil l []
  · rw [List.forall_mem_singleton]
    exact hl.newline (h.noNewline_line hi)
  · rw [List.getLast?_singleton, Ne, Option.some.injEq]
    exact hl.ne_nil
  · intro hreturn
    refine ⟨l, List.mem_singleton_self l, ?_⟩
    rw [← Bool.not_eq_true] at hreturn ⊢
    exact mt hl.endsInReturn hreturn
  · intro _ _ _
    exact Or.inl rfl

theorem IsCanonical.split {limit : Nat} {parts : List Line} (h : d.IsCanonical)
    (hi : i < d.lines.length) (hparts : Reflow.split? limit (d.lines.line i) = some parts) :
    (d.withLines (d.lines.take i ++ parts ++ d.lines.drop (i + 1)) d.finalNewline).IsCanonical := by
  obtain ⟨hlast, part, hpart, hreturn⟩ := Reflow.ends_of_split? hparts
  apply h.replace_line hi
  constructor
  · rintro rfl
    cases hpart
  · intro l hl
    exact Reflow.newline_not_mem_of_split? hparts hl (h.noNewline_line hi)
  · exact hlast
  · intro _
    exact ⟨part, List.dropLast_subset _ hpart, hreturn⟩
  · intro _ _ _
    exact Or.inr ⟨part, hpart, hreturn⟩

/-- A line is added below a line, which does not end in a carriage return if it is all there is. -/
theorem IsCanonical.insertIdx (h : d.IsCanonical) (hi : i < d.lines.length) (hx : x ≠ [])
    (hnewline : '\n' ∉ x)
    (hsingle : d.lines = [d.lines.line i] → d.finalNewline = false →
      endsInReturn (d.lines.line i) = false) :
    (d.withLines (d.lines.insertIdx (i + 1) x) d.finalNewline).IsCanonical := by
  have hinsert : d.lines.insertIdx (i + 1) x =
      d.lines.take i ++ [d.lines.line i, x] ++ d.lines.drop (i + 1) := by
    have htake : d.lines.take (i + 1) = d.lines.take i ++ [d.lines.line i] := by
      rw [Buffer.line_eq_getElem _ i hi, List.take_append_getElem]
    rw [Buffer.insertIdx_eq hi, htake, List.append_assoc, List.append_assoc]
    rfl
  rw [hinsert]
  apply h.replace_line hi
  constructor
  · exact List.cons_ne_nil _ _
  · rw [List.forall_mem_cons, List.forall_mem_singleton]
    exact ⟨h.noNewline_line hi, hnewline⟩
  · rw [List.getLast?_cons_cons, List.getLast?_singleton, Ne, Option.some.injEq]
    exact hx
  · intro hreturn
    exact ⟨d.lines.line i, List.mem_cons_self, hreturn⟩
  · intro habove hbelow hflag
    refine Or.inr ⟨d.lines.line i, List.mem_singleton_self _, hsingle ?_ hflag⟩
    conv_lhs => rw [← List.take_append_drop i d.lines, habove, Buffer.drop_eq_line_cons hi, hbelow]
    rfl

end

end Document

namespace Pass

open Document RuleSets

variable {s : RuleSet}

/-- Every visit of the set leaves a canonical document canonical. -/
def KeepsCanonical (s : RuleSet) : Prop :=
  ∀ ⦃d : Document⦄ ⦃i : Nat⦄ ⦃v : Visit⦄, d.IsCanonical → i < d.lines.length →
    visit s d.lines i = .ok v → (d.withLines v.buffer d.finalNewline).IsCanonical

/-- So does a pass, if it asks for no newline at the end. -/
theorem KeepsCanonical.of_applyPass (hs : KeepsCanonical s) (hend : s.endsWithNewline = false)
    {d : Document} {outcome : Outcome} (hd : d.IsCanonical) (h : d.applyPass s = .ok outcome) :
    outcome.document.IsCanonical := by
  have hlines := applyPassWithin_induction
    (motive := fun b => (d.withLines b d.finalNewline).IsCanonical)
    (fun {b _ _} hi hb hv => @hs (d.withLines b d.finalNewline) _ _ hb hi hv) hd h
  obtain ⟨lines, edits, _, hdocument, _⟩ := of_applyPassWithin h
  rw [hdocument, withLines_lines] at hlines
  rw [hdocument, newlineAfter_of_endsWithNewline hend]
  exact hlines

/-- Rules that rewrite lines up to their end keep a document canonical. -/
theorem Replaces.keepsCanonical {rules : List (String × List Guard × (Line → Option Line))}
    (hs : Replaces s rules)
    (h : ∀ r ∈ rules, ∀ l l' : Line, r.2.2 l = some l' → l.KeepsEnd l') : KeepsCanonical s := by
  intro d i v hd hi hv
  rcases hs.exists_visit hi hv with ⟨hbuffer, _⟩ | ⟨r, hr, l, hl, _, hbuffer⟩
  · rw [hbuffer]
    exact hd
  · rw [hbuffer]
    exact hd.set hi (h r hr _ l hl)

end Pass

namespace RuleSets

open Pass Document

theorem keepsCanonical_truthy : KeepsCanonical truthy := by
  apply replaces_truthy.keepsCanonical
  rw [List.forall_mem_singleton]
  intro l l' h
  exact keepsEnd_of_normalizeTruthy? h

theorem keepsCanonical_commaSpacing : KeepsCanonical commaSpacing := by
  apply replaces_commaSpacing.keepsCanonical
  rw [List.forall_mem_singleton]
  intro l l' h
  exact keepsEnd_of_spaceLine? h

theorem keepsCanonical_nameCasing : KeepsCanonical nameCasing := by
  apply replaces_nameCasing.keepsCanonical
  rw [List.forall_mem_singleton]
  intro l l' h
  exact keepsEnd_of_capitalizeName? h

theorem keepsCanonical_fqcn : KeepsCanonical fqcn := by
  apply replaces_fqcn.keepsCanonical
  rw [List.forall_mem_cons, List.forall_mem_singleton]
  constructor
  · intro l l' h
    exact keepsEnd_of_qualifyModule? h
  · intro l l' h
    exact keepsEnd_of_unqualifyParameter? h

theorem keepsCanonical_serviceNames : KeepsCanonical serviceNames := by
  apply replaces_serviceNames.keepsCanonical
  intro rule hrule l l' h
  obtain ⟨r, hr, rfl⟩ := List.mem_map.1 hrule
  exact keepsEnd_of_renameUnit? hr h

theorem keepsCanonical_ignoreErrors : KeepsCanonical ignoreErrors := by
  apply replaces_ignoreErrors.keepsCanonical
  rw [List.forall_mem_singleton]
  intro l l' h
  exact keepsEnd_of_replaceIgnoreErrors? h

theorem keepsCanonical_lineLength (limit : Nat) : KeepsCanonical (lineLength limit) := by
  intro d i v hd hi hv
  rcases visit_lineLength_cases hi hv with hbuffer | ⟨parts, hparts, _, hbuffer⟩
  · rw [hbuffer]
    exact hd
  · rw [hbuffer]
    exact hd.split hi hparts

theorem keepsCanonical_pipefail : KeepsCanonical pipefail := by
  intro d i v hd hi hv
  rcases visit_pipefail_cases hi hv with rfl | ⟨k, l, _, hk, _, _, hinsert, rfl⟩
  · exact hd
  · exact hd.set hk (keepsEnd_of_insertStrictPipes? hinsert)

end RuleSets

end TaskTidy

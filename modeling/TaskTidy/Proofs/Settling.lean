import TaskTidy.Proofs.Sweep
import TaskTidy.RuleSets.Formatting

/-!
# Settled documents

A pass ends with a sweep that makes no edit, so its document is settled, and a second pass over it
finds nothing to do. A pass succeeds as soon as two sweeps are sure to settle any document.
-/

namespace TaskTidy

namespace Pass

variable {limit : Buffer → Nat} {s : RuleSet}

/-- A pass that succeeds is a sweep without edits, or a sweep with edits and the pass over what that
leaves. -/
theorem of_settle {n : Nat} {b last : Buffer} {edits : List Edit}
    (h : settle limit s n b = .ok (last, edits)) :
    ∃ next first, sweep limit s b = .ok (next, first) ∧
      ((first = [] ∧ last = next ∧ edits = []) ∨
        ∃ n' more, n = n' + 1 ∧ first ≠ [] ∧ settle limit s n' next = .ok (last, more) ∧
          edits = first ++ more) := by
  cases n with
  | zero => cases h
  | succ n =>
      unfold settle at h
      split at h
      · cases h
      · next next first hsweep =>
          refine ⟨next, first, hsweep, ?_⟩
          split at h
          · next hnil =>
              cases h
              exact Or.inl ⟨List.isEmpty_iff.1 hnil, rfl, rfl⟩
          · next hne =>
              split at h
              · cases h
              · next last' more hmore =>
                  cases h
                  exact Or.inr ⟨n, more, rfl, by simpa using hne, hmore, rfl⟩

/-- A pass without edits leaves the lines as they are. -/
theorem eq_of_settle_of_edits_eq_nil {n : Nat} {b last : Buffer}
    (h : settle limit s n b = .ok (last, [])) : last = b := by
  obtain ⟨next, first, hsweep, ⟨rfl, rfl, _⟩ | ⟨_, _, _, hne, _, hnil⟩⟩ := of_settle h
  · exact eq_of_sweep_of_edits_eq_nil hsweep
  · exact absurd (List.append_eq_nil_iff.1 hnil.symm).1 hne

/-- The lines that a pass gives are lines that a further sweep leaves alone. -/
theorem sweep_of_settle {n : Nat} {b last : Buffer} {edits : List Edit}
    (h : settle limit s n b = .ok (last, edits)) : sweep limit s last = .ok (last, []) := by
  induction n generalizing b edits with
  | zero => cases h
  | succ n ih =>
      obtain ⟨next, first, hsweep, ⟨rfl, rfl, _⟩ | ⟨n', more, hn, _, hmore, _⟩⟩ := of_settle h
      · obtain rfl := eq_of_sweep_of_edits_eq_nil hsweep
        exact hsweep
      · obtain rfl := Nat.succ.inj hn
        exact ih hmore

/-- What every visit preserves of the document and the log so far holds after a pass. -/
theorem settle_log_induction (inv : Buffer → List Edit → Prop)
    (step : ∀ {b i log v}, i < b.length → inv b log → visit s b i = .ok v →
      inv v.buffer (log ++ v.edits))
    {n : Nat} {b last : Buffer} {edits : List Edit} (log : List Edit) (start : inv b log)
    (h : settle limit s n b = .ok (last, edits)) : inv last (log ++ edits) := by
  induction n generalizing b log edits with
  | zero => cases h
  | succ n ih =>
      obtain ⟨next, first, hsweep, hcases⟩ := of_settle h
      have hnext : inv next (log ++ first) := by
        obtain ⟨_, _, hinv⟩ := sweepFrom_log_induction (fun b _ => inv b) step log start hsweep
        exact hinv
      rcases hcases with ⟨rfl, rfl, rfl⟩ | ⟨n', more, hn, _, hmore, rfl⟩
      · exact hnext
      · obtain rfl := Nat.succ.inj hn
        rw [← List.append_assoc]
        exact ih _ hnext hmore

/-- What every visit preserves holds after a pass. -/
theorem settle_induction {inv : Buffer → Prop}
    (step : ∀ {b i v}, i < b.length → inv b → visit s b i = .ok v → inv v.buffer)
    {n : Nat} {b last : Buffer} {edits : List Edit} (start : inv b)
    (h : settle limit s n b = .ok (last, edits)) : inv last :=
  settle_log_induction (fun b _ => inv b) step [] start h

/-- A pass logs as many edits as it adds lines, if each visit does. -/
theorem length_eq_of_settle
    (step : ∀ {b i v}, i < b.length → visit s b i = .ok v →
      v.buffer.length = b.length + v.edits.length)
    {n : Nat} {b last : Buffer} {edits : List Edit}
    (h : settle limit s n b = .ok (last, edits)) : last.length = b.length + edits.length := by
  refine settle_log_induction (fun c log => c.length = b.length + log.length) ?_ [] rfl h
  intro c i log v hi hlog hv
  rw [step hi hv, hlog, List.length_append, Nat.add_assoc]

/-- A document that a sweep leaves alone is the result of its own pass. -/
theorem settle_of_sweep {n : Nat} {b : Buffer} (h : sweep limit s b = .ok (b, [])) :
    settle limit s (n + 1) b = .ok (b, []) := by
  simp [settle, h]

/-- One more sweep that succeeds keeps a pass successful. -/
theorem exists_settle_succ {n : Nat} {b next : Buffer} {edits : List Edit}
    (hsweep : sweep limit s b = .ok (next, edits))
    (hnext : ∃ result, settle limit s n next = .ok result) :
    ∃ result, settle limit s (n + 1) b = .ok result := by
  obtain ⟨⟨last, more⟩, hmore⟩ := hnext
  by_cases hnil : edits.isEmpty = true
  · exact ⟨(next, []), by simp [settle, hsweep, hnil]⟩
  · exact ⟨(last, edits ++ more), by simp [settle, hsweep, hnil, hmore]⟩

/-- Two sweeps settle every document, and no sweep fails. -/
structure SettlesInTwo (s : RuleSet) : Prop where
  exists_sweep : ∀ b, ∃ result, sweep sweepLimit s b = .ok result
  isSettled : ∀ {b first last : Buffer} {edits more : List Edit},
    sweep sweepLimit s b = .ok (first, edits) →
      sweep sweepLimit s first = .ok (last, more) → IsSettled s last

/-- One sweep settles every document, and no sweep fails. -/
structure SettlesInOne (s : RuleSet) : Prop where
  exists_sweep : ∀ b, ∃ result, sweep sweepLimit s b = .ok result
  isSettled : ∀ {b last : Buffer} {edits : List Edit},
    sweep sweepLimit s b = .ok (last, edits) → IsSettled s last

/-- A settled document stays settled, so one sweep that settles is enough. -/
theorem SettlesInOne.settlesInTwo (h : SettlesInOne s) : SettlesInTwo s where
  exists_sweep := h.exists_sweep
  isSettled _ hsecond := h.isSettled hsecond

theorem length_le_sweepLimit (b : Buffer) : b.length ≤ sweepLimit b := by
  unfold sweepLimit
  omega

/-- A pass that needs one sweep is that sweep. -/
theorem SettlesInOne.sweep_of_settle (h : SettlesInOne s) {n : Nat} {b last : Buffer}
    {edits : List Edit} (hsettle : settle sweepLimit s n b = .ok (last, edits)) :
    sweep sweepLimit s b = .ok (last, edits) := by
  obtain ⟨next, first, hfirst, ⟨rfl, rfl, rfl⟩ | ⟨n', more, _, _, hmore, rfl⟩⟩ :=
    of_settle hsettle
  · exact hfirst
  · have hquiet : sweep sweepLimit s next = .ok (next, []) :=
      sweep_eq_self_iff.2 ⟨h.isSettled hfirst, length_le_sweepLimit next⟩
    cases n' with
    | zero => cases hmore
    | succ n' =>
        rw [settle_of_sweep hquiet] at hmore
        cases hmore
        rw [hfirst, List.append_nil]

/-- A pass makes at most four sweeps; the third finds a document that two sweeps have settled. -/
theorem SettlesInTwo.exists_settle (h : SettlesInTwo s) (b : Buffer) :
    ∃ result, settle sweepLimit s maxSweeps b = .ok result := by
  obtain ⟨⟨first, edits⟩, hfirst⟩ := h.exists_sweep b
  obtain ⟨⟨last, more⟩, hlast⟩ := h.exists_sweep first
  have hquiet : sweep sweepLimit s last = .ok (last, []) :=
    sweep_eq_self_iff.2 ⟨h.isSettled hfirst hlast, length_le_sweepLimit last⟩
  refine exists_settle_succ hfirst (exists_settle_succ hlast ?_)
  exact ⟨(last, []), settle_of_sweep hquiet⟩

end Pass

/-- The edits that a pass reports, in the order in which they were made. -/
def Outcome.log (outcome : Outcome) : List Edit :=
  outcome.applied.map Applied.edit

theorem Outcome.log_eq {outcome : Outcome} {s : RuleSet} {edits : List Edit}
    (h : outcome.applied = edits.map fun edit => ⟨s.name, edit⟩) : outcome.log = edits := by
  rw [log, h, List.map_map]
  exact List.map_id edits

namespace Document

variable {limit : Buffer → Nat} {s : RuleSet} {d : Document}

@[simp] theorem withLines_lines (d : Document) (lines : Buffer) (finalNewline : Bool) :
    (d.withLines lines finalNewline).lines = lines := rfl

theorem newlineAfter_of_endsWithNewline (hend : s.endsWithNewline = false) (d : Document)
    (lines : Buffer) : d.newlineAfter s lines = d.finalNewline := by
  rw [newlineAfter, hend, Bool.false_and, Bool.or_false]

/-- The flag for the last newline does not change once a pass has set it. -/
theorem newlineAfter_withLines (d : Document) (s : RuleSet) (lines : Buffer) :
    (d.withLines lines (d.newlineAfter s lines)).newlineAfter s lines =
      d.newlineAfter s lines := by
  simp only [newlineAfter, withLines]
  cases d.finalNewline <;> simp

/-- A pass is a settled list of lines, with the flag for the last newline set. -/
theorem of_applyPassWithin {outcome : Outcome} (h : d.applyPassWithin limit s = .ok outcome) :
    ∃ lines edits, Pass.settle limit s Pass.maxSweeps d.lines = .ok (lines, edits) ∧
      outcome.document = d.withLines lines (d.newlineAfter s lines) ∧
      outcome.applied = edits.map fun edit => ⟨s.name, edit⟩ := by
  unfold applyPassWithin at h
  split at h
  · cases h
  · next lines edits hsettle =>
      cases h
      exact ⟨lines, edits, hsettle, rfl, rfl⟩

/-- The lines that a pass settles are those of its document. -/
theorem exists_applyPass_of_settle (hend : s.endsWithNewline = false) {lines : Buffer}
    {edits : List Edit}
    (h : Pass.settle Pass.sweepLimit s Pass.maxSweeps d.lines = .ok (lines, edits)) :
    ∃ outcome, d.applyPass s = .ok outcome ∧
      outcome.document = d.withLines lines d.finalNewline ∧
      outcome.applied.length = edits.length := by
  rw [applyPass, applyPassWithin, h]
  exact ⟨_, rfl, by rw [newlineAfter_of_endsWithNewline hend], List.length_map _⟩

/-- The passes of two sets, one after the other. -/
theorem exists_applySets_of_settles {t : RuleSet} (hs : s.endsWithNewline = false)
    (ht : t.endsWithNewline = false) {first last : Buffer} {log log' : List Edit}
    (hfirst : Pass.settle Pass.sweepLimit s Pass.maxSweeps d.lines = .ok (first, log))
    (hlast : Pass.settle Pass.sweepLimit t Pass.maxSweeps first = .ok (last, log')) :
    ∃ outcome, d.applySets [s, t] = .ok outcome ∧
      outcome.document = d.withLines last d.finalNewline ∧
      outcome.applied.length = log.length + log'.length := by
  obtain ⟨one, hone, hdocument, hcount⟩ := exists_applyPass_of_settle hs hfirst
  rw [← withLines_lines d first d.finalNewline, ← hdocument] at hlast
  obtain ⟨two, htwo, hdocument', hcount'⟩ := exists_applyPass_of_settle ht hlast
  refine ⟨⟨two.document, two.document != d, one.applied ++ (two.applied ++ [])⟩, ?_, ?_, ?_⟩
  · simp only [applySets, applyEach, hone, htwo]
  · rw [hdocument', hdocument]
    rfl
  · rw [List.length_append, List.append_nil, hcount, hcount']

/-- What every visit preserves holds for the document of a pass. -/
theorem applyPassWithin_induction {motive : Buffer → Prop}
    (step : ∀ {b i v}, i < b.length → motive b → Pass.visit s b i = .ok v → motive v.buffer)
    {outcome : Outcome} (start : motive d.lines) (h : d.applyPassWithin limit s = .ok outcome) :
    motive outcome.document.lines := by
  obtain ⟨lines, edits, hsettle, hdocument, _⟩ := of_applyPassWithin h
  rw [hdocument, withLines_lines]
  exact Pass.settle_induction step start hsettle

theorem exists_applyPassWithin
    (h : ∃ result, Pass.settle limit s Pass.maxSweeps d.lines = .ok result) :
    ∃ outcome, d.applyPassWithin limit s = .ok outcome := by
  obtain ⟨⟨lines, edits⟩, hsettle⟩ := h
  unfold applyPassWithin
  rw [hsettle]
  exact ⟨_, rfl⟩

/-- A rule set whose sweeps settle in time gives a document. -/
theorem exists_applyPass (h : Pass.SettlesInTwo s) (d : Document) :
    ∃ outcome, d.applyPass s = .ok outcome :=
  exists_applyPassWithin (h.exists_settle d.lines)

/-- A pass over a document that a sweep leaves alone changes at most the last newline. -/
theorem applyPassWithin_of_sweep (h : Pass.sweep limit s d.lines = .ok (d.lines, [])) :
    d.applyPassWithin limit s =
      let next := d.withLines d.lines (d.newlineAfter s d.lines)
      .ok ⟨next, next != d, []⟩ := by
  have hsettle : Pass.settle limit s Pass.maxSweeps d.lines = .ok (d.lines, []) :=
    Pass.settle_of_sweep h
  simp [applyPassWithin, hsettle]

/-- The document of a pass is settled. -/
theorem isSettled_of_applyPass {outcome : Outcome} (h : d.applyPass s = .ok outcome) :
    Pass.IsSettled s outcome.document.lines := by
  obtain ⟨lines, edits, hsettle, hdocument, _⟩ := of_applyPassWithin h
  rw [hdocument, withLines_lines]
  exact (Pass.sweep_eq_self_iff.1 (Pass.sweep_of_settle hsettle)).1

theorem changed_eq_false_iff_of_applyPass {outcome : Outcome} (h : d.applyPass s = .ok outcome) :
    outcome.changed = false ↔ outcome.document = d := by
  unfold applyPass applyPassWithin at h
  split at h
  · cases h
  · cases h
    simp

/-- A pass changes the documents that are not settled, if the last newline is as it should be. -/
theorem changed_eq_false_iff_isSettled {outcome : Outcome} (h : d.applyPass s = .ok outcome)
    (hend : d.newlineAfter s d.lines = d.finalNewline) :
    outcome.changed = false ↔ Pass.IsSettled s d.lines := by
  rw [changed_eq_false_iff_of_applyPass h]
  constructor
  · intro hsame
    have hsettled := isSettled_of_applyPass h
    rwa [hsame] at hsettled
  · intro hsettled
    have hsweep := Pass.sweep_eq_self_iff.2 ⟨hsettled, Pass.length_le_sweepLimit d.lines⟩
    have hpass := applyPassWithin_of_sweep hsweep
    rw [show d.applyPassWithin Pass.sweepLimit s = _ from h] at hpass
    rw [Except.ok.inj hpass, hend]
    rfl

/-- A second pass of the same rule set finds nothing to do, whatever the rules are: it succeeds,
reports no change and no edit, and gives the document back. -/
theorem applyPassWithin_idempotent {outcome : Outcome}
    (h : d.applyPassWithin limit s = .ok outcome) :
    outcome.document.applyPassWithin limit s = .ok ⟨outcome.document, false, []⟩ := by
  obtain ⟨lines, edits, hsettle, hdocument, _⟩ := of_applyPassWithin h
  have hsweep := Pass.sweep_of_settle hsettle
  have hlines : outcome.document.lines = lines := by rw [hdocument, withLines_lines]
  rw [← hlines] at hsweep
  have hsame : outcome.document.withLines outcome.document.lines
      (outcome.document.newlineAfter s outcome.document.lines) = outcome.document := by
    rw [hlines, hdocument, newlineAfter_withLines]
    rfl
  rw [applyPassWithin_of_sweep hsweep]
  simp [hsame]

/-- The second pass over a document whose first pass strips a line and adds the last newline. -/
theorem applyPassWithin_idempotent_formatting :
    (⟨["a: 1 ".toList], .lf, false⟩ : Document).applyPassWithin (fun _ => 2) RuleSets.formatting =
        .ok ⟨⟨["a: 1".toList], .lf, true⟩, true, [⟨"formatting", ⟨"trailing-whitespace", 1⟩⟩]⟩ ∧
      (⟨["a: 1".toList], .lf, true⟩ : Document).applyPassWithin (fun _ => 2) RuleSets.formatting =
        .ok ⟨⟨["a: 1".toList], .lf, true⟩, false, []⟩ := by
  have first : (⟨["a: 1 ".toList], .lf, false⟩ : Document).applyPassWithin (fun _ => 2)
      RuleSets.formatting =
        .ok ⟨⟨["a: 1".toList], .lf, true⟩, true, [⟨"formatting", ⟨"trailing-whitespace", 1⟩⟩]⟩ := by
    rfl
  exact ⟨first, applyPassWithin_idempotent first⟩

end Document

end TaskTidy

import TaskTidy.Proofs.LineSets
import TaskTidy.Proofs.Pipelines

/-!
# Exact logs

Eight of the rule sets rewrite lines in place. The log of one of their passes numbers the lines that
differ in the end, each of them once. The pass is a single sweep. A line rule gets to see a line
once, and the option for pipelines is not offered to a block that names it already, so no line is
edited a second time.
-/

namespace TaskTidy

open Pass

/-- The log tells the two documents apart: it numbers a line once if the line differs and not at all
if it stays, and it numbers nothing else. -/
structure ExactLog (b cur : Buffer) (log : List Edit) : Prop where
  length_eq : cur.length = b.length
  countP_eq : ∀ i, log.countP (fun e => e.line = i + 1) = if cur[i]? = b[i]? then 0 else 1
  line_ne_zero : ∀ e ∈ log, e.line ≠ 0

namespace ExactLog

variable {b cur : Buffer} {log : List Edit} {k : Nat} {l : Line}

theorem refl (b : Buffer) : ExactLog b b [] where
  length_eq := rfl
  countP_eq i := by rw [if_pos rfl, List.countP_nil]
  line_ne_zero := by simp

/-- A line that has not been edited yet is replaced and numbered. -/
theorem set (h : ExactLog b cur log) (hk : k < cur.length) (hsame : cur[k]? = b[k]?)
    (hl : l ≠ cur.line k) (name : String) : ExactLog b (cur.set k l) (log ++ [⟨name, k + 1⟩]) where
  length_eq := by rw [List.length_set, h.length_eq]
  countP_eq i := by
    rw [List.countP_append, h.countP_eq i]
    by_cases hik : i = k
    · subst hik
      have hne : some l ≠ b[i]? := by
        rw [← hsame, List.getElem?_eq_getElem hk, ← Buffer.line_eq_getElem cur i hk]
        exact fun heq => hl (Option.some.inj heq)
      rw [if_pos hsame, List.getElem?_set_self hk, if_neg hne]
      simp
    · have hki : k ≠ i := Ne.symm hik
      rw [List.getElem?_set_ne hki]
      simp [hki]
  line_ne_zero e he := by
    rcases List.mem_append.1 he with he | he
    · exact h.line_ne_zero e he
    · rw [List.mem_singleton.1 he]
      exact Nat.succ_ne_zero k

/-- Every entry of the log numbers a line of the document. -/
theorem exists_of_mem (h : ExactLog b cur log) {e : Edit} (he : e ∈ log) :
    ∃ i < b.length, e.line = i + 1 := by
  obtain ⟨i, hi⟩ := Nat.exists_eq_succ_of_ne_zero (h.line_ne_zero e he)
  refine ⟨i, ?_, hi⟩
  by_contra hlen
  have hcount := h.countP_eq i
  rw [List.getElem?_eq_none (by have := h.length_eq; omega), List.getElem?_eq_none (by omega),
    if_pos rfl, List.countP_eq_zero] at hcount
  exact hcount e he (by simp [hi])

end ExactLog

namespace Pass

variable {s : RuleSet} {rules : List (String × List Guard × (Line → Option Line))}
  {b last : Buffer} {i : Nat} {edits : List Edit}

/-- A visit leaves the document as it is, or replaces the line that it visits and numbers it. -/
theorem Replaces.visit_cases (hs : Replaces s rules) {v : Visit} (hv : visit s b i = .ok v) :
    v = ⟨b, [], i + 1⟩ ∨
      ∃ name l, l ≠ b.line i ∧ v = ⟨b.set i l, [⟨name, i + 1⟩], i + 1⟩ := by
  unfold visit offerLine at hv
  cases hfirst : firstAnswer? s.lineRules b i with
  | none =>
      simp only [hfirst, hs.blockRules_eq, offerBlocks] at hv
      exact Or.inl (Except.ok.inj hv).symm
  | some answer =>
      obtain ⟨name, a⟩ := answer
      obtain ⟨_, _, l, _, rfl, _⟩ := hs.exists_of_firstAnswer? hfirst
      by_cases hl : l = b.line i
      · simp only [hfirst, if_pos hl, hs.blockRules_eq, offerBlocks] at hv
        exact Or.inl (Except.ok.inj hv).symm
      · simp only [hfirst, if_neg hl, hs.blockRules_eq, offerBlocks] at hv
        exact Or.inr ⟨name, l, hl, (Except.ok.inj hv).symm⟩

/-- A visit edits the line that it is at, and the lines below are still as they were. -/
private theorem Replaces.exactLog_visit (hs : Replaces s rules) {cur : Buffer} {log : List Edit}
    {v : Visit} (hi : i < cur.length)
    (hinv : ExactLog b cur log ∧ ∀ j, i ≤ j → cur[j]? = b[j]?) (hv : visit s cur i = .ok v) :
    ExactLog b v.buffer (log ++ v.edits) ∧ ∀ j, v.next ≤ j → v.buffer[j]? = b[j]? := by
  obtain ⟨hlog, hbelow⟩ := hinv
  rcases hs.visit_cases hv with rfl | ⟨name, l, hl, rfl⟩
  · rw [List.append_nil]
    exact ⟨hlog, fun j hj => hbelow j (Nat.le_of_succ_le hj)⟩
  · refine ⟨hlog.set hi (hbelow i (Nat.le_refl i)) hl name, fun j hj => ?_⟩
    dsimp only at hj ⊢
    rw [List.getElem?_set_ne (Nat.ne_of_lt hj)]
    exact hbelow j (Nat.le_of_succ_le hj)

/-- The walk edits a line when it gets there, so no line twice. -/
theorem Replaces.exactLog_of_sweep (hs : Replaces s rules)
    (h : sweep sweepLimit s b = .ok (last, edits)) : ExactLog b last edits := by
  obtain ⟨_, _, hlog, _⟩ := sweepFrom_log_induction
    (fun cur i log => ExactLog b cur log ∧ ∀ j, i ≤ j → cur[j]? = b[j]?) hs.exactLog_visit []
    ⟨.refl b, fun _ _ => rfl⟩ h
  exact hlog

end Pass

namespace RuleSets

variable {b cur last : Buffer} {edits log : List Edit} {i : Nat}

/-- The lines that differ from those of `b` name the option. -/
private def DiffersByOption (b cur : Buffer) : Prop :=
  ∀ j, cur[j]? ≠ b[j]? → Text.contains "pipefail".toList (cur.line j) = true

/-- A visit edits no line twice: it writes a line that does not name the option yet, so that line is
still as it was. -/
private theorem exactLog_visit_pipefail {v : Visit} (hi : i < cur.length)
    (hinv : ExactLog b cur log ∧ DiffersByOption b cur) (hv : visit pipefail cur i = .ok v) :
    ExactLog b v.buffer (log ++ v.edits) ∧ DiffersByOption b v.buffer := by
  obtain ⟨hlog, hnames⟩ := hinv
  rcases visit_pipefail_cases hi hv with rfl | ⟨k, l, _, hk, hlacks, hcontains, _, rfl⟩
  · rw [List.append_nil]
    exact ⟨hlog, hnames⟩
  · have hsame : cur[k]? = b[k]? := by
      by_contra hne
      rw [hnames k hne] at hlacks
      cases hlacks
    have hl : l ≠ cur.line k := by
      rintro rfl
      rw [hcontains] at hlacks
      cases hlacks
    refine ⟨hlog.set hk hsame hl _, fun j hj => ?_⟩
    dsimp only at hj ⊢
    by_cases hjk : j = k
    · subst hjk
      rwa [Buffer.line_set_self hk]
    · rw [List.getElem?_set_ne (Ne.symm hjk)] at hj
      rw [Buffer.line_set_of_ne hjk]
      exact hnames j hj

/-- A line that differs names the option, and a line that names it is left alone. -/
theorem exactLog_of_sweep_pipefail (h : sweep sweepLimit pipefail b = .ok (last, edits)) :
    ExactLog b last edits := by
  obtain ⟨_, _, hlog, _⟩ := sweepFrom_log_induction
    (fun cur _ log => ExactLog b cur log ∧ DiffersByOption b cur) exactLog_visit_pipefail []
    ⟨.refl b, fun _ hj => absurd rfl hj⟩ h
  exact hlog

end RuleSets

namespace Document

open RuleSets

variable {s : RuleSet}

/-- The pass of a set that settles in one sweep logs what that sweep logs. -/
theorem exists_exactLog (hone : SettlesInOne s)
    (hsweep : ∀ {b last : Buffer} {edits : List Edit},
      sweep sweepLimit s b = .ok (last, edits) → ExactLog b last edits) (d : Document) :
    ∃ outcome, d.applyPass s = .ok outcome ∧
      ExactLog d.lines outcome.document.lines outcome.log := by
  obtain ⟨outcome, hpass⟩ := exists_applyPass hone.settlesInTwo d
  refine ⟨outcome, hpass, ?_⟩
  obtain ⟨lines, edits, hsettle, hdocument, happlied⟩ := of_applyPassWithin hpass
  rw [hdocument, withLines_lines, Outcome.log_eq happlied]
  exact hsweep (hone.sweep_of_settle hsettle)

theorem exactLog_of_mem (hs : s ∈ [formatting, truthy, commaSpacing, nameCasing, fqcn, serviceNames,
    ignoreErrors, pipefail]) (d : Document) :
    ∃ outcome, d.applyPass s = .ok outcome ∧
      ExactLog d.lines outcome.document.lines outcome.log := by
  simp only [List.mem_cons, List.not_mem_nil, or_false] at hs
  rcases hs with rfl | rfl | rfl | rfl | rfl | rfl | rfl | rfl
  · exact exists_exactLog settlesInOne_formatting replaces_formatting.exactLog_of_sweep d
  · exact exists_exactLog settlesInOne_truthy replaces_truthy.exactLog_of_sweep d
  · exact exists_exactLog settlesInOne_commaSpacing replaces_commaSpacing.exactLog_of_sweep d
  · exact exists_exactLog settlesInOne_nameCasing replaces_nameCasing.exactLog_of_sweep d
  · exact exists_exactLog settlesInOne_fqcn replaces_fqcn.exactLog_of_sweep d
  · exact exists_exactLog settlesInOne_serviceNames replaces_serviceNames.exactLog_of_sweep d
  · exact exists_exactLog settlesInOne_ignoreErrors replaces_ignoreErrors.exactLog_of_sweep d
  · exact exists_exactLog settlesInOne_pipefail exactLog_of_sweep_pipefail d

/-- The sets that rewrite lines in place keep the number of lines, and their log numbers every line
that differs once, and no other line. -/
theorem log_numbers_changed_lines (hs : s ∈ [formatting, truthy, commaSpacing, nameCasing, fqcn,
    serviceNames, ignoreErrors, pipefail]) (d : Document) :
    ∃ outcome, d.applyPass s = .ok outcome ∧
      outcome.document.lines.length = d.lines.length ∧
      (∀ i, (outcome.applied.countP fun a => a.edit.line = i + 1) =
        if outcome.document.lines[i]? = d.lines[i]? then 0 else 1) ∧
      ∀ a ∈ outcome.applied, ∃ i < d.lines.length, a.edit.line = i + 1 := by
  obtain ⟨outcome, hpass, hlog⟩ := exactLog_of_mem hs d
  refine ⟨outcome, hpass, hlog.length_eq, fun i => ?_, fun a ha => ?_⟩
  · rw [← hlog.countP_eq i, Outcome.log, List.countP_map]
    rfl
  · exact hlog.exists_of_mem (List.mem_map_of_mem ha)

/-- A task that stands in the script of a task: the pass of the outer one takes its line, and the
line no longer starts a block of its own. -/
theorem log_numbers_changed_lines_nested :
    pipefail ∈ [formatting, truthy, commaSpacing, nameCasing, fqcn, serviceNames, ignoreErrors,
        pipefail] ∧
      (ofLines ["- shell: |".toList, "    - shell: a | b".toList]).applyPass pipefail =
        .ok ⟨ofLines ["- shell: |".toList, "    set -o pipefail && - shell: a | b".toList], true,
          [⟨"pipefail", ⟨"pipefail", 2⟩⟩]⟩ ∧
      ∃ outcome, (ofLines ["- shell: |".toList, "    - shell: a | b".toList]).applyPass pipefail =
          .ok outcome ∧
        outcome.document.lines.length = 2 ∧
        (∀ i, (outcome.applied.countP fun a => a.edit.line = i + 1) =
          if outcome.document.lines[i]? = ["- shell: |".toList, "    - shell: a | b".toList][i]?
          then 0 else 1) ∧
        ∀ a ∈ outcome.applied, ∃ i < 2, a.edit.line = i + 1 := by
  have hs : pipefail ∈ [formatting, truthy, commaSpacing, nameCasing, fqcn, serviceNames,
      ignoreErrors, pipefail] := by
    simp
  exact ⟨hs, by decide +kernel, log_numbers_changed_lines hs _⟩

end Document

end TaskTidy

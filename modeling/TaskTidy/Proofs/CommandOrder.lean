import TaskTidy.Proofs.MarkedPipes
import TaskTidy.Proofs.Noninterference
import TaskTidy.Proofs.Walks

/-!
# The order of pipelines and marks

The option for pipelines and the marks of commands that only read state may be given in either
order, if the option hides no command from the marks and the marks stand aside of the pipelines.
Each mark then goes past the walk for the option: what the walk leaves of the document with the mark
is what it leaves of the document, with the mark.
-/

namespace TaskTidy

namespace BlockEdit

/-- The line that the edit inserts for line `i` stands aside of the pipelines. -/
def StandsAside (b : Buffer) (i : Nat) : BlockEdit → Prop
  | .insert p x => RuleSets.StandsAside b i p x
  | .replace _ _ => True

instance (b : Buffer) (i : Nat) : (edit : BlockEdit) → Decidable (edit.StandsAside b i)
  | .insert p x => inferInstanceAs (Decidable (RuleSets.StandsAside b i p x))
  | .replace _ _ => inferInstanceAs (Decidable True)

end BlockEdit

namespace RuleSets

open Buffer Pass

variable {b c w : Buffer} {i n p : Nat} {x : Line}

/-- The mark that line `i` asks for stands aside of the pipelines. -/
def MarksAside (b : Buffer) (i : Nat) : Prop :=
  ∀ edit ∈ readOnlyCommand.toBlockRule.answer? b i, edit.StandsAside b i

instance (b : Buffer) (i : Nat) : Decidable (MarksAside b i) :=
  inferInstanceAs (Decidable (∀ edit ∈ readOnlyCommand.toBlockRule.answer? b i,
    edit.StandsAside b i))

/-! ### The walk for the option -/

/-- What a visit for the option does. -/
theorem visit_pipefail_replaces (hi : i < b.length) {v : Visit}
    (hv : visit pipefail b i = .ok v) : v.next = i + 1 ∧
      (strictPipelines.toBlockRule.answer? b i = none ∧ v.buffer = b ∨
        ∃ k l, k < b.length ∧ strictPipelines.toBlockRule.answer? b i = some (.replace k l) ∧
          v.buffer = b.set k l) := by
  rcases visit_cases_of_answer? rfl rfl hi hv (isWithin_of_answer?_strictPipelines hi) with
    ⟨hnone, rfl⟩ | ⟨edit, hanswer, rfl⟩
  · exact ⟨rfl, Or.inl ⟨hnone, rfl⟩⟩
  · obtain ⟨k, l, rfl, hk⟩ := exists_replace_of_answer? hi hanswer
    exact ⟨rfl, Or.inr ⟨k, l, hk, hanswer, rfl⟩⟩

/-- A walk over plain commands leaves every mark, and every mark that stands aside. -/
theorem keepsMarks_of_walks (h : Walks pipefail PipesPlainly b n w) :
    w.length = b.length ∧
      (∀ i < b.length, readOnlyCommand.toBlockRule.answer? w i =
        readOnlyCommand.toBlockRule.answer? b i) ∧
      ∀ i p x, StandsAside b i p x → StandsAside w i p x := by
  induction h with
  | done _ => exact ⟨rfl, fun _ _ => rfl, fun _ _ _ haside => haside⟩
  | @step b w n v hn hplain hv _ ih =>
      obtain ⟨hlen, hanswer, haside⟩ := ih
      rcases (visit_pipefail_replaces hn hv).2 with ⟨_, hb⟩ | ⟨k, l, hk, hreplace, hb⟩
      · rw [hb] at hlen hanswer haside
        exact ⟨hlen, hanswer, haside⟩
      · have hreads := hplain.readsAlike hn hreplace
        rw [hb, List.length_set] at hlen
        rw [hb] at hanswer haside
        refine ⟨hlen, fun i hi => ?_, fun i p x h => haside i p x (h.set hk hreads)⟩
        rw [hanswer i (by rwa [List.length_set]), answer?_set_readOnlyCommand hk hreads hi]

/-- A walk goes on from a line to the next one past the mark between them. Above the mark and below
it there is nothing to pass. -/
theorem walks_past_mark {last : Buffer} (hx : Injects.At readOnlyCommand b i p x)
    (h : Walks pipefail PipesPlainly (b.insertIdx p x) (shift p (n + 1)) last) :
    Walks pipefail PipesPlainly (b.insertIdx p x) (shift p n + 1) last := by
  rcases Nat.lt_trichotomy (n + 1) p with hlt | rfl | hlt
  · rwa [shift_of_lt hlt, ← shift_of_lt (Nat.lt_of_succ_lt hlt)] at h
  · obtain ⟨hnone, hplain⟩ := answer?_mark hx
    have hlen : n + 1 < (b.insertIdx (n + 1) x).length := by
      rw [List.length_insertIdx_of_le_length hx.le_length]
      exact Nat.lt_succ_of_le hx.le_length
    rw [shift_of_le (Nat.le_refl _)] at h
    rw [shift_of_lt (Nat.lt_succ_self n)]
    exact .step hlen hplain (isQuiet_of_answer? rfl rfl hlen hnone) h
  · rwa [shift_of_le (Nat.le_of_lt hlt), ← shift_of_le (Nat.lt_succ_iff.1 hlt)] at h

/-- A walk over plain commands takes a mark that stands aside along. -/
theorem walks_insertIdx (h : Walks pipefail PipesPlainly b n w)
    (hi : i < b.length) (hmark : readOnlyCommand.toBlockRule.answer? b i = some (.insert p x))
    (haside : StandsAside b i p x) :
    Walks pipefail PipesPlainly (b.insertIdx p x) (shift p n) (w.insertIdx p x) := by
  induction h with
  | @done b n hend =>
      obtain ⟨_, _, heq, hx⟩ := Injects.exists_at hi hmark
      cases heq
      refine .done ?_
      have hle := hx.le_length
      rw [List.length_insertIdx_of_le_length hle, shift_of_le (Nat.le_trans hle hend)]
      exact Nat.succ_le_succ hend
  | @step b w n v hn hplain hv hrest ih =>
      obtain ⟨_, _, heq, hx⟩ := Injects.exists_at hi hmark
      cases heq
      have hp := hx.le_length
      have hn' := (shift_lt_length hp (x := x)).2 hn
      have hsome : (readOnlyCommand.toBlockRule.answer? b i).isSome = true := by
        rw [hmark]
        rfl
      have hplain' := haside.pipesPlainly_insertIdx hx hsome hn hplain
      have hanswer := haside.answer?_insertIdx hx hsome hn
      obtain ⟨hnext, hcases⟩ := visit_pipefail_replaces hn hv
      rcases hcases with ⟨hnone, hb⟩ | ⟨k, l, hk, hreplace, hb⟩
      · rw [hnone, Option.map_none] at hanswer
        rw [hnext, hb] at ih
        exact .step hn' hplain' (isQuiet_of_answer? rfl rfl hn' hanswer)
          (walks_past_mark hx (ih hi hmark haside))
      · have hreads := hplain.readsAlike hn hreplace
        rw [hreplace, Option.map_some] at hanswer
        have hi' : i < (b.set k l).length := by rwa [List.length_set]
        have hmark' := (answer?_set_readOnlyCommand hk hreads hi).trans hmark
        obtain ⟨_, _, heq, hx'⟩ := Injects.exists_at hi' hmark'
        cases heq
        rw [hnext, hb] at ih
        have hrest' := walks_past_mark hx' (ih hi' hmark' (haside.set hk hreads))
        rw [← set_insertIdx_shift hp] at hrest'
        exact .step hn' hplain'
          (visit_of_answer? rfl rfl hn' hanswer ((shift_lt_length hp).2 hk)) hrest'

/-! ### Both walks -/

/-- A walk for marks that stand aside and a walk for the option over plain commands may change
places. -/
theorem exists_walks_swapped (hmarks : Walks changedWhen MarksAside b i c)
    (hpipes : Walks pipefail PipesPlainly b 0 w) :
    ∃ last, Walks changedWhen (fun _ _ => True) w i last ∧
      Walks pipefail PipesPlainly c 0 last := by
  induction hmarks generalizing w with
  | done hend =>
      obtain ⟨hlen, _⟩ := keepsMarks_of_walks hpipes
      exact ⟨w, .done (by rwa [hlen]), hpipes⟩
  | @step b c i v hi haside hv _ ih =>
      obtain ⟨hlen, hanswer, _⟩ := keepsMarks_of_walks hpipes
      have hi' : i < w.length := by rwa [hlen]
      rcases injects_readOnlyCommand.visit_cases rfl rfl hi hv with
        ⟨hnone, rfl⟩ | ⟨p, x, hx, _, hsome, rfl⟩
      · obtain ⟨last, hlast, hpipes'⟩ := ih hpipes
        rw [Option.isSome_eq_false_iff, Option.isNone_iff_eq_none, ← hanswer i hi] at hnone
        exact ⟨last, .step hi' trivial (isQuiet_of_answer? rfl rfl hi' hnone) hlast, hpipes'⟩
      · have hmark := hx.answer?_eq hsome
        have hshifted := walks_insertIdx hpipes hi hmark (haside _ hmark)
        rw [shift_of_lt (Nat.zero_lt_of_lt hx.isPlace.1)] at hshifted
        obtain ⟨last, hlast, hpipes'⟩ := ih hshifted
        have hle := hx.le_length
        rw [← hlen] at hle
        exact ⟨last, .step hi' trivial
          (visit_of_answer? rfl rfl hi' ((hanswer i hi).trans hmark) hle) hlast, hpipes'⟩

/-- A sweep for marks that stand aside and a sweep for the option over plain commands may change
places. -/
theorem exists_sweeps_swapped {edits : List Edit}
    (haside : ∀ v ∈ visits changedWhen (sweepLimit b) b 0, MarksAside v.1 v.2)
    (hmarks : sweep sweepLimit changedWhen b = .ok (c, edits))
    (hpipes : Walks pipefail PipesPlainly b 0 w) :
    ∃ last edits', sweep sweepLimit changedWhen w = .ok (last, edits') ∧
      Walks pipefail PipesPlainly c 0 last := by
  obtain ⟨last, hlast, hpipes'⟩ :=
    exists_walks_swapped (walks_of_sweepFrom hmarks haside) hpipes
  obtain ⟨⟨last', edits'⟩, hsweep⟩ := settlesInTwo_changedWhen.exists_sweep w
  obtain rfl := hlast.eq_of_sweep hsweep
  exact ⟨last', edits', hsweep, hpipes'⟩

/-- One sweep for the option is a pass. -/
theorem exists_settle_of_walks (h : Walks pipefail PipesPlainly b 0 w) :
    ∃ log, settle sweepLimit pipefail maxSweeps b = .ok (w, log) := by
  obtain ⟨⟨w', edits⟩, hsweep⟩ := settlesInOne_pipefail.exists_sweep b
  obtain rfl := h.eq_of_sweep hsweep
  have hsettled := settlesInOne_pipefail.isSettled hsweep
  exact exists_settle_of_sweeps hsweep
    (sweep_eq_self_iff.2 ⟨hsettled, length_le_sweepLimit w'⟩) hsettled

/-- Both orders of the passes for the option and for the marks end with the same lines. -/
theorem exists_settles_swapped
    (hplain : ∀ v ∈ passVisits pipefail maxSweeps b, v.1.PipesPlainly v.2)
    (haside : ∀ v ∈ passVisits changedWhen maxSweeps b, MarksAside v.1 v.2) :
    ∃ piped marked last log₁ log₂ log₃ log₄,
      settle sweepLimit pipefail maxSweeps b = .ok (piped, log₁) ∧
        settle sweepLimit changedWhen maxSweeps piped = .ok (last, log₂) ∧
          settle sweepLimit changedWhen maxSweeps b = .ok (marked, log₃) ∧
            settle sweepLimit pipefail maxSweeps marked = .ok (last, log₄) := by
  obtain ⟨⟨piped, edits⟩, hpipes⟩ := settlesInOne_pipefail.exists_sweep b
  obtain ⟨⟨c₁, edits₁⟩, hfirst⟩ := settlesInTwo_changedWhen.exists_sweep b
  obtain ⟨⟨c₂, edits₂⟩, hsecond⟩ := settlesInTwo_changedWhen.exists_sweep c₁
  rw [maxSweeps, passVisits_succ hpipes] at hplain
  rw [maxSweeps, passVisits_succ hfirst, passVisits_succ hsecond] at haside
  have hwalk := walks_of_sweepFrom hpipes fun v hv => hplain v (List.mem_append_left _ hv)
  obtain ⟨w₁, _, hfirst', hwalk₁⟩ := exists_sweeps_swapped
    (fun v hv => haside v (List.mem_append_left _ hv)) hfirst hwalk
  obtain ⟨w₂, _, hsecond', hwalk₂⟩ := exists_sweeps_swapped
    (fun v hv => haside v (List.mem_append_right _ (List.mem_append_left _ hv))) hsecond hwalk₁
  obtain ⟨log₁, h₁⟩ := exists_settle_of_walks hwalk
  obtain ⟨log₂, h₂⟩ := exists_settle_of_sweeps hfirst' hsecond'
    (settlesInTwo_changedWhen.isSettled hfirst' hsecond')
  obtain ⟨log₃, h₃⟩ := exists_settle_of_sweeps hfirst hsecond
    (settlesInTwo_changedWhen.isSettled hfirst hsecond)
  obtain ⟨log₄, h₄⟩ := exists_settle_of_walks hwalk₂
  exact ⟨piped, c₂, w₂, log₁, log₂, log₃, log₄, h₁, h₂, h₃, h₄⟩

end RuleSets

namespace Document

open Pass RuleSets

variable {d : Document}

/-- Two sets in either order lead to the same text. -/
def OrdersAlike (d : Document) (s t : RuleSet) : Prop :=
  ∃ one other, d.applySets [s, t] = .ok one ∧ d.applySets [t, s] = .ok other ∧
    other.document.render = one.document.render

theorem OrdersAlike.results_eq {s t : RuleSet} (h : d.OrdersAlike s t) :
    (d.applySets [t, s]).map (fun o => o.document.render) =
      (d.applySets [s, t]).map fun o => o.document.render := by
  obtain ⟨one, other, hone, hother, hrender⟩ := h
  rw [hone, hother, Except.map, Except.map, hrender]

/-- The option for pipelines and the marks of commands that only read state may be given in either
order if, at every visit of the pass for the option, it hides no command from the marks and, at
every visit of the pass for the marks, the mark stands aside of the pipelines. -/
theorem ordersAlike_pipefail_changedWhen
    (hplain : ∀ v ∈ passVisits pipefail maxSweeps d.lines, v.1.PipesPlainly v.2)
    (haside : ∀ v ∈ passVisits changedWhen maxSweeps d.lines, MarksAside v.1 v.2) :
    d.OrdersAlike pipefail changedWhen := by
  obtain ⟨_, _, _, _, _, _, _, h₁, h₂, h₃, h₄⟩ := exists_settles_swapped hplain haside
  obtain ⟨one, hone, hdocument, _⟩ := exists_applySets_of_settles rfl rfl h₁ h₂
  obtain ⟨other, hother, hdocument', _⟩ := exists_applySets_of_settles rfl rfl h₃ h₄
  exact ⟨one, other, hone, hother, by rw [hdocument', hdocument]⟩

/-- A list of tasks with commands of every form: the value of a module, a script, an argument, and a
quoted command that does not only read state. -/
theorem ordersAlike_pipefail_changedWhen_tasks :
    let d := ofLines ["- shell: cat a | grep b".toList, "- name: c".toList, "  shell: |".toList,
      "    # d".toList, "    ls e | sort".toList, "  register: f".toList, "- name: g".toList,
      "  shell:".toList, "    cmd: stat h | wc".toList, "- shell: \"ping i | sort\"".toList,
      "- command: id".toList]
    (∀ v ∈ passVisits pipefail maxSweeps d.lines, v.1.PipesPlainly v.2) ∧
      (∀ v ∈ passVisits changedWhen maxSweeps d.lines, MarksAside v.1 v.2) ∧
        d.OrdersAlike pipefail changedWhen ∧
          (d.applySets [pipefail, changedWhen]).map (fun o =>
            o.applied.map fun a => a.edit.line) = .ok [1, 5, 9, 10, 2, 8, 12, 15] := by
  intro d
  have hplain : ∀ v ∈ passVisits pipefail maxSweeps d.lines, v.1.PipesPlainly v.2 := by
    decide +kernel
  have haside : ∀ v ∈ passVisits changedWhen maxSweeps d.lines, MarksAside v.1 v.2 := by
    decide +kernel
  exact ⟨hplain, haside, ordersAlike_pipefail_changedWhen hplain haside, by decide +kernel⟩

/-- Four lists of tasks for which the order counts. In the first the option behind a quote hides a
command that only reads state. In the second it hides the key of a list of tasks. In the third a
list of tasks becomes the value of a mark. In the fourth a mark stands above the command of its
task. -/
theorem not_ordersAlike_of_quote :
    let quote := ofLines ["- shell: \"cat x | grep y\"".toList]
    let key := ofLines ["- shell: |".toList, "    tasks: a | b".toList,
      "      - command: ls".toList]
    let value := ofLines ["  - shell: ls".toList, "    block:".toList, "# a".toList,
      "      - shell: a | b".toList]
    let script := ofLines ["- shell: |".toList, "    ls | b".toList,
      "      - shell: a | b".toList]
    ¬quote.OrdersAlike pipefail changedWhen ∧ ¬key.OrdersAlike pipefail changedWhen ∧
      ¬value.OrdersAlike pipefail changedWhen ∧ ¬script.OrdersAlike pipefail changedWhen := by
  intro quote key value script
  have hdiffer (d : Document) (h : (d.applySets [changedWhen, pipefail]).map
        (fun o => o.document.render) ≠
      (d.applySets [pipefail, changedWhen]).map fun o => o.document.render) :
      ¬d.OrdersAlike pipefail changedWhen := fun halike => h halike.results_eq
  exact ⟨hdiffer _ (by decide +kernel), hdiffer _ (by decide +kernel),
    hdiffer _ (by decide +kernel), hdiffer _ (by decide +kernel)⟩

end Document

end TaskTidy

import TaskTidy.Proofs.FailureKeys
import TaskTidy.Proofs.UnitValues

/-!
# Rule sets that do not interfere

Truthy values and names of units may be rewritten by two passes or by one pass with the rules of
both sets, in any document. Pipelines and ignored errors may as well, unless the option for
pipelines takes the key for failures from an item that owns an ignored error, or an ignored error
is no key.
-/

namespace TaskTidy

open Pass RuleSets

namespace Buffer

variable {b c p : Buffer} {j m o : Nat} {l : Line} {r : Replacement}

/-- No item that owns an ignored error in `p` has lost the key for failures that it had in `b`. -/
def KeepsFailureKeys (b p : Buffer) : Prop :=
  ∀ j o, (replaceIgnoreErrors? (p.line j)).isSome = true → p.owner? j = some o →
    b.itemHas o "failed_when".toList = true → p.itemHas o "failed_when".toList = true

/-- The ignored errors and their owners are lines of the document. -/
theorem keepsFailureKeys_iff :
    KeepsFailureKeys b p ↔ ∀ j < p.length, ∀ o ≤ j,
      (replaceIgnoreErrors? (p.line j)).isSome = true → p.owner? j = some o →
        b.itemHas o "failed_when".toList = true → p.itemHas o "failed_when".toList = true := by
  refine ⟨fun h j _ o _ => h j o, fun h j o hl howner => ?_⟩
  refine h j ?_ o (of_owner? howner).1 hl howner
  by_contra hj
  rw [line_of_length_le (Nat.le_of_not_lt hj)] at hl
  cases hl

instance (b p : Buffer) : Decidable (KeepsFailureKeys b p) :=
  decidable_of_iff' _ keepsFailureKeys_iff

/-- The replacement takes the key for failures from no owner of an ignored error down to
line `m`. -/
def SparesOwners (p : Buffer) (m : Nat) (r : Replacement) : Prop :=
  ∀ j ≤ m, ∀ o l, replaceIgnoreErrors? (p.line j) = some l → p.owner? j = some o →
    p.itemHas o "failed_when".toList = true →
      Buffer.itemHas (p.set r.index r.line) o "failed_when".toList = true

/-- A walk of the option that takes the key from no owner does not take it at any line. -/
theorem sparesOwners_walk (hkeys : b.IgnoresByKey)
    (hkeeps : KeepsFailureKeys b (walk pipefail b b.length).1) (hm : m < b.length)
    (hr : strictReplacement? (walk pipefail b m).1 m = some r) :
    SparesOwners (walk pipefail b m).1 m r := by
  intro j hjm o l hl howner hhas
  have hlen := length_walk_pipefail (Nat.le_of_lt hm)
  have hpiped : Piped b (walk pipefail b m).1 :=
    piped_walk (m := 0) (Nat.zero_le m) (Nat.le_of_lt hm)
  have hkind := (hpiped.ignoresByKey hkeys).kind_eq hl
  obtain ⟨hoj, hitem⟩ := of_owner? howner
  have htake := take_walk_pipefail (Nat.le_of_lt hm) (Nat.le_refl _) hjm (by rw [hkind]; decide)
  have hlast {i : Nat} (hi : i ≤ j) :
      (walk pipefail b b.length).1.line i = (walk pipefail b m).1.line i := by
    rw [← line_take _ (Nat.lt_succ_of_le hi), htake, line_take _ (Nat.lt_succ_of_le hi)]
  have hend : (walk pipefail b b.length).1.itemHas o "failed_when".toList = true := by
    refine hkeeps j o ?_ ?_ (hpiped.itemHas hitem hhas)
    · rw [hlast (Nat.le_refl j), hl]
      rfl
    · rw [← owner?_take _ (Nat.lt_succ_self j), htake, owner?_take _ (Nat.lt_succ_self j), howner]
  have hnext : (walk pipefail b (m + 1)).1 = (walk pipefail b m).1.set r.index r.line := by
    rw [walk, (makes_pipefail (by rwa [hlen])).stepAt_eq, hr]
    rfl
  have hvisit := (piped_walk (m := m + 1) hm (Nat.le_refl b.length)).itemHas
    (by rwa [hlast hoj]) hend
  rwa [hnext] at hvisit

/-- The option changes a line below the ignored errors that have been visited. -/
theorem lt_index_of_strictReplacement? (hkeys : p.IgnoresByKey) (hm : m < p.length) (hjm : j ≤ m)
    (hl : replaceIgnoreErrors? (p.line j) = some l) (hr : strictReplacement? p m = some r) :
    j < r.index := by
  obtain ⟨hle, _, _, hitem⟩ := of_strictReplacement? hm hr
  rcases Nat.lt_or_eq_of_le (Nat.le_trans hjm hle) with hlt | rfl
  · exact hlt
  · obtain rfl := Nat.le_antisymm hjm hle
    rw [hkeys.kind_eq hl] at hitem
    cases hitem

/-! ### A line of a command changes below rewritten ignored errors -/

section

variable (hkeys : p.IgnoresByKey) (hm : m < p.length) (hjm : j ≤ m) (hc : Eased p c j)
  (hr : strictReplacement? p m = some r)

include hm hc hr

/-- An item that has the key for failures before the ignored errors are rewritten, and after the
option as well, has it after both. -/
theorem itemHas_set_of_eased
    (h : Buffer.itemHas (p.set r.index r.line) o "failed_when".toList = true) :
    Buffer.itemHas (c.set r.index r.line) o "failed_when".toList = true := by
  obtain ⟨_, hk, _⟩ := of_strictReplacement? hm hr
  have hkc : r.index < c.length := by rwa [hc.length_eq]
  have hline (i : Nat) : Buffer.line (c.set r.index r.line) i =
        Buffer.line (p.set r.index r.line) i ∨
      Buffer.line (c.set r.index r.line) i = c.line i ∧
        Buffer.line (p.set r.index r.line) i = p.line i := by
    by_cases hik : i = r.index
    · exact Or.inl (by rw [hik, line_set_self hk, line_set_self hkc])
    · exact Or.inr ⟨line_set_of_ne hik _, line_set_of_ne hik _⟩
  refine itemHas_mono (fun i => ?_) (by simp only [List.length_set, hc.length_eq]) ?_
    (fun i hkey => ?_) h
  · rcases hline i with hsame | ⟨hi, hi'⟩
    · rw [hsame]
      exact ⟨rfl, rfl⟩
    · rw [hi, hi']
      exact hc.sameExtents i
  · rcases hline o with hsame | ⟨ho, ho'⟩
    · rw [hsame]
    · rw [ho, ho', (hc.sameFrame o).column_eq]
  · rcases hline i with hsame | ⟨hi, hi'⟩
    · exact hsame
    · rw [hi'] at hkey
      rw [hi, hi', hc.line_eq_of_hasKey hkey]

include hkeys hjm

/-- The visit of the option does not change whether the owner of an ignored error says when it
fails. -/
theorem ownerHas_set_of_sparesOwners (hspares : SparesOwners p m r)
    (hl : replaceIgnoreErrors? (c.line j) = some l) :
    Buffer.ownerHas (c.set r.index r.line) j "failed_when".toList =
      c.ownerHas j "failed_when".toList := by
  have hcp : c.line j = p.line j := hc.line_eq (Nat.le_refl j)
  have hjk := lt_index_of_strictReplacement? hkeys hm hjm (hcp ▸ hl) hr
  have hck := hc.line_eq (Nat.le_of_lt hjk)
  obtain ⟨_, hk, hextent, _⟩ := of_strictReplacement? hm hr
  obtain ⟨hstarts, hframe⟩ := startsCommand_of_answer? (answer?_of_strictReplacement? hr)
  have hkc : r.index < c.length := by rwa [hc.length_eq]
  rw [← hck] at hextent hframe
  have hpiped : Piped c (c.set r.index r.line) := (Piped.refl c).set hkc hextent hstarts hframe
  rw [ownerHas, ownerHas, owner?_set_of_lt hjk]
  cases howner : c.owner? j with
  | none => rfl
  | some o =>
      obtain ⟨hoj, hitem⟩ := of_owner? howner
      have hok : o < r.index := Nat.lt_of_le_of_lt hoj hjk
      have hline := line_set_of_ne (b := c) (Nat.ne_of_lt hok) r.line
      simp only
      rw [Bool.eq_iff_iff]
      constructor
      · exact hpiped.itemHas (by rw [hline, hitem])
      · intro hhas
        rcases itemHas_iff.1 hhas with hdash | ⟨f, hof, hf, hfield⟩
        · exact itemHas_iff.2 (Or.inl (by rwa [hline]))
        · by_cases hfk : f = r.index
          · subst hfk
            rw [hck, (hc.sameFrame o).column_eq] at hfield
            rw [hc.sameExtents.lt_stopOf_iff hc.length_eq hok] at hf
            refine itemHas_set_of_eased hm hc hr (hspares j hjm o l (hcp ▸ hl) ?_ ?_)
            · rw [← hc.owner?_eq j (Nat.lt_of_le_of_lt hjm hm), howner]
            · exact itemHas_iff.2 (Or.inr ⟨_, hok, hf, hfield⟩)
          · refine itemHas_iff.2 (Or.inr ⟨f, hof, ?_, ?_⟩)
            · rwa [hpiped.sameExtents.lt_stopOf_iff List.length_set hof]
            · rwa [line_set_of_ne hfk, hline]

/-- The set for ignored errors finds the same to do above a line that the option changes. -/
theorem replacement?_set_of_sparesOwners (hspares : SparesOwners p m r) :
    replacement? ignoreErrors.lineRules (c.set r.index r.line) j =
      replacement? ignoreErrors.lineRules c j := by
  obtain ⟨_, hk, _⟩ := of_strictReplacement? hm hr
  cases hl : replaceIgnoreErrors? (c.line j) with
  | none =>
      have hl' : replaceIgnoreErrors? (Buffer.line (c.set r.index r.line) j) = none := by
        by_cases hjk : j = r.index
        · obtain ⟨hstarts, _⟩ := startsCommand_of_answer? (answer?_of_strictReplacement? hr)
          rw [hjk, line_set_self (by rwa [hc.length_eq]), hstarts.replaceIgnoreErrors?_eq]
        · rw [line_set_of_ne hjk, hl]
      rw [replacement?_ignoreErrors_eq_none hl, replacement?_ignoreErrors_eq_none hl']
  | some l =>
      have hcp : c.line j = p.line j := hc.line_eq (Nat.le_refl j)
      have hjk := lt_index_of_strictReplacement? hkeys hm hjm (hcp ▸ hl) hr
      have htake : (c.set r.index r.line).take (j + 1) = c.take (j + 1) := List.take_set_of_le hjk
      refine replaces_ignoreErrors.replacement?_congr (LineRule.line_congr htake)
        fun rule hrule g hg => ?_
      obtain rfl := List.mem_singleton.1 hrule
      simp only [List.mem_cons, List.not_mem_nil, or_false] at hg
      rcases hg with rfl | rfl | rfl
      · exact Guard.allows_congr rfl htake
      · exact Guard.allows_congr rfl htake
      · rw [Guard.allows, Guard.allows,
          ownerHas_set_of_sparesOwners hkeys hm hjm hc hr hspares hl]

end

/-- A visit of the option commutes with the visits of ignored errors down to its line. -/
theorem commute_pipefail_ignoreErrors (hkeys : p.IgnoresByKey) (hm : m < p.length) (hjm : j ≤ m)
    (hspares : ∀ r, strictReplacement? p m = some r → SparesOwners p m r) :
    Commute pipefail ignoreErrors (walk ignoreErrors p j).1 m j := by
  have hc := eased_walk (p := p) (n := j) (by omega)
  have hsame := strictReplacement?_walk hkeys hm hjm
  generalize (walk ignoreErrors p j).1 = c at hc hsame
  have hckeys := hc.ignoresByKey hkeys
  have hmc : m < c.length := by rwa [hc.length_eq]
  refine commute_of_makes (makes_pipefail hmc) (replaces_ignoreErrors.makes c j) ?_ ?_
    fun r hr r' hr' => ?_
  · cases hr' : replacement? ignoreErrors.lineRules c j with
    | none => exact makes_pipefail hmc
    | some r' =>
        obtain ⟨hindex, hl⟩ := of_replacement?_ignoreErrors hr'
        rw [Replacement.apply, hindex, ← strictReplacement?_set hckeys hmc hjm hl]
        exact makes_pipefail (by rwa [List.length_set])
  · cases hr : strictReplacement? c m with
    | none => exact replaces_ignoreErrors.makes c j
    | some r =>
        have hr' := hsame ▸ hr
        rw [Replacement.apply,
          ← replacement?_set_of_sparesOwners hkeys hm hjm hc hr' (hspares r hr')]
        exact replaces_ignoreErrors.makes _ j
  · obtain ⟨hindex, hl⟩ := of_replacement?_ignoreErrors hr'
    rw [hindex]
    exact Nat.ne_of_gt (lt_index_of_strictReplacement? hckeys hmc hjm hl hr)

end Buffer

namespace RuleSets

open Buffer

variable {b c : Buffer}

theorem stacks_pipefail_ignoreErrors :
    Stacks (pipefail.folded ignoreErrors) pipefail ignoreErrors :=
  ⟨rfl, rfl, rfl, rfl, isSteady_pipefail, replaces_ignoreErrors.isSteady⟩

/-- Blocks that need no option need none after ignored errors have been rewritten. -/
theorem isSettled_pipefail_of_sweep (hkeys : b.IgnoresByKey) (hb : IsSettled pipefail b)
    {edits : List Edit} (hsweep : sweep sweepLimit ignoreErrors b = .ok (c, edits)) :
    IsSettled pipefail c := by
  have step {b : Buffer} {j : Nat} {v : Visit} (hj : j < b.length)
      (hb : b.IgnoresByKey ∧ IsSettled pipefail b) (hv : visit ignoreErrors b j = .ok v) :
      v.buffer.IgnoresByKey ∧ IsSettled pipefail v.buffer := by
    obtain ⟨hkeys, hb⟩ := hb
    obtain rfl := Except.ok.inj (hv.symm.trans (replaces_ignoreErrors.makes b j))
    cases hr : replacement? ignoreErrors.lineRules b j with
    | none => exact ⟨hkeys, hb⟩
    | some r =>
        obtain ⟨hindex, hl⟩ := of_replacement?_ignoreErrors hr
        rw [Replacement.apply, hindex]
        refine ⟨hkeys.set (replaceIgnoreErrors?_of_eq_some hl), fun i hi => ?_⟩
        have hi' : i < b.length := by rwa [List.length_set] at hi
        have hquiet := (isQuiet_pipefail_iff hi').1 (hb i hi')
        have hidle := bothIdle_of_replaceIgnoreErrors? hl (hkeys.kind_eq hl)
        have hnone (x : Line) : strictPipelines.toBlockRule.answer? b i ≠ some (.replace j x) := by
          rw [hquiet]
          exact (Option.some_ne_none _).symm
        rw [isQuiet_pipefail_iff hi, answer?_set_of_bothIdle hj hidle hi' hnone, hquiet]
  obtain ⟨_, _, _, hc⟩ := sweepFrom_induction
    (fun b _ => b.IgnoresByKey ∧ IsSettled pipefail b) step ⟨hkeys, hb⟩ hsweep
  exact hc

end RuleSets

namespace Document

/-- Two sets one after the other and the rules of both in one set lead to the same text, and they
report as many edits. -/
def FoldsAlike (d : Document) (s t : RuleSet) : Prop :=
  ∃ one both, d.applySets [s, t] = .ok one ∧ d.applyPass (s.folded t) = .ok both ∧
    both.document.render = one.document.render ∧ both.applied.length = one.applied.length

/-- Both ways fail, or both give the same text with as many edits. -/
theorem FoldsAlike.results_eq {d : Document} {s t : RuleSet} (h : d.FoldsAlike s t) :
    (d.applyPass (s.folded t)).map (fun o => (o.document.render, o.applied.length)) =
      (d.applySets [s, t]).map fun o => (o.document.render, o.applied.length) := by
  obtain ⟨one, both, hone, hboth, hrender, hlength⟩ := h
  rw [hone, hboth, Except.map, Except.map, hrender, hlength]

theorem foldsAlike_of_document_eq {d : Document} {s t : RuleSet}
    (h : ∃ one both, d.applySets [s, t] = .ok one ∧ d.applyPass (s.folded t) = .ok both ∧
      both.document = one.document ∧ both.applied.length = one.applied.length) :
    d.FoldsAlike s t := by
  obtain ⟨one, both, hone, hboth, hdocument, hlength⟩ := h
  exact ⟨one, both, hone, hboth, by rw [hdocument], hlength⟩

/-- The pass of the option for pipelines takes the key for failures from no item that owns an
ignored error. -/
def KeepsFailureKeys (d : Document) : Prop :=
  ∀ p, d.applyPass pipefail = .ok p → d.lines.KeepsFailureKeys p.document.lines

theorem foldsAlike_truthy_serviceNames (d : Document) : d.FoldsAlike truthy serviceNames :=
  foldsAlike_of_document_eq (keepApart_truthy_serviceNames.exists_folded replaces_truthy
    replaces_serviceNames rfl rfl settlesInOne_truthy settlesInOne_serviceNames d)

theorem foldsAlike_pipefail_ignoreErrors {d : Document} (hkeys : d.lines.IgnoresByKey)
    (hkeeps : d.KeepsFailureKeys) : d.FoldsAlike pipefail ignoreErrors := by
  have hsweep := IsSteady.sweep_eq isSteady_pipefail d.lines
  obtain ⟨p, hpass, hdocument, _⟩ :=
    applyPass_eq_walk isSteady_pipefail rfl (settlesInOne_pipefail.isSettled hsweep)
  have hend : d.lines.KeepsFailureKeys (walk pipefail d.lines d.lines.length).1 := by
    have hlines : p.document.lines = (walk pipefail d.lines d.lines.length).1 := by
      rw [hdocument, withLines_lines]
    rw [← hlines]
    exact hkeeps p hpass
  have hwalk {m : Nat} (hm : m ≤ d.lines.length) : (walk pipefail d.lines m).1.IgnoresByKey :=
    (piped_walk (m := 0) (Nat.zero_le m) hm).ignoresByKey hkeys
  have hlen {m : Nat} (hm : m < d.lines.length) : m < (walk pipefail d.lines m).1.length := by
    rwa [length_walk_pipefail (Nat.le_of_lt hm)]
  have hcomm (m : Nat) (hm : m < d.lines.length) (j : Nat) (hj : j ≤ m) :
      Commute pipefail ignoreErrors (walk ignoreErrors (walk pipefail d.lines m).1 j).1 m j :=
    Buffer.commute_pipefail_ignoreErrors (hwalk (Nat.le_of_lt hm)) (hlen hm) hj fun r hr =>
      Buffer.sparesOwners_walk hkeys hend hm hr
  have hstack := stacks_pipefail_ignoreErrors
  refine foldsAlike_of_document_eq (exists_folded hstack.isSteady hstack.isSteady_blocks
    hstack.isSteady_lines ⟨rfl, rfl, rfl⟩ settlesInOne_pipefail settlesInOne_ignoreErrors
    (fun m hm => ?_) (fun m hm j hj => hcomm m hm j (Nat.le_of_lt hj)) fun hfirst hsecond hc => ?_)
  · refine hstack.isBoth ?_ (hcomm m hm m (Nat.le_refl m))
    rw [(eased_walk (Nat.le_of_lt (hlen hm))).length_eq]
    exact hlen hm
  · exact hstack.isSettled
      (isSettled_pipefail_of_sweep (hwalk (Nat.le_refl _)) hfirst hsecond) hc

/-- Truthy values and names of units do not interfere in any document. Pipelines and ignored errors
do not interfere if every ignored error is a key and the option for pipelines takes the key for
failures from no item that owns one. -/
theorem paired_sets_fold_alike (d : Document) :
    d.FoldsAlike truthy serviceNames ∧
      (d.lines.IgnoresByKey → d.KeepsFailureKeys → d.FoldsAlike pipefail ignoreErrors) :=
  ⟨foldsAlike_truthy_serviceNames d, foldsAlike_pipefail_ignoreErrors⟩

/-- A list of tasks with work for all four sets. The script of the second task loses a line that
reads like the key for failures, but the task has the key as well. -/
theorem paired_sets_fold_alike_tasks :
    let d := ofLines ["- shell: a | b".toList, "  ignore_errors: true".toList,
      "- shell: |".toList, "    failed_when: a | b".toList, "  failed_when: never".toList,
      "  ignore_errors: yes".toList, "- service:".toList, "    name: Nginx".toList,
      "    enabled: yes".toList]
    d.lines.IgnoresByKey ∧ d.KeepsFailureKeys ∧ d.FoldsAlike truthy serviceNames ∧
      d.FoldsAlike pipefail ignoreErrors ∧
      (d.applyPass (truthy.folded serviceNames)).map (fun o => o.applied.map fun a => a.edit.line) =
        .ok [6, 8, 9] ∧
      (d.applyPass (pipefail.folded ignoreErrors)).map (fun o =>
        o.applied.map fun a => a.edit.line) = .ok [1, 2, 4] := by
  intro d
  have hkeys : d.lines.IgnoresByKey := by decide +kernel
  have hpass : d.applyPass pipefail = .ok ⟨ofLines ["- shell: set -o pipefail && a | b".toList,
      "  ignore_errors: true".toList, "- shell: |".toList,
      "    set -o pipefail && failed_when: a | b".toList, "  failed_when: never".toList,
      "  ignore_errors: yes".toList, "- service:".toList, "    name: Nginx".toList,
      "    enabled: yes".toList], true, [⟨"pipefail", ⟨"pipefail", 1⟩⟩,
        ⟨"pipefail", ⟨"pipefail", 4⟩⟩]⟩ := by
    decide +kernel
  have hkeeps : d.KeepsFailureKeys := by
    intro p hp
    obtain rfl := Except.ok.inj (hpass.symm.trans hp)
    decide +kernel
  obtain ⟨hvalues, htasks⟩ := paired_sets_fold_alike d
  exact ⟨hkeys, hkeeps, hvalues, htasks hkeys hkeeps, by decide +kernel, by decide +kernel⟩

/-- Two lists of tasks that the rules of both sets at once treat otherwise than one set after the
other. In the first the option takes the key for failures from the outer task, after its ignored
error has been visited. In the second the ignored error is no key until it is rewritten, and the
shell is no field of its task before. -/
theorem not_foldsAlike_of_script :
    let script := ofLines ["-         block:".toList, "          ignore_errors: true".toList,
      "  - shell: |".toList, "          failed_when: a | b".toList, "    -     debug:".toList,
      "          ignore_errors: true".toList]
    let text := ofLines ["- name: x".toList, "  ignore_errors:true".toList, "   foo: 1".toList,
      "  shell: a | b".toList]
    ¬script.FoldsAlike pipefail ignoreErrors ∧ ¬text.FoldsAlike pipefail ignoreErrors := by
  intro script text
  have hscript : (script.applyPass (pipefail.folded ignoreErrors)).map
        (fun o => (o.document.render, o.applied.length)) ≠
      (script.applySets [pipefail, ignoreErrors]).map
        fun o => (o.document.render, o.applied.length) := by
    decide +kernel
  have htext : (text.applyPass (pipefail.folded ignoreErrors)).map
        (fun o => (o.document.render, o.applied.length)) ≠
      (text.applySets [pipefail, ignoreErrors]).map
        fun o => (o.document.render, o.applied.length) := by
    decide +kernel
  exact ⟨fun h => hscript h.results_eq, fun h => htext h.results_eq⟩

end Document

end TaskTidy

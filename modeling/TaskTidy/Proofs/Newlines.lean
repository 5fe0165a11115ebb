import TaskTidy.Proofs.Convergence
import TaskTidy.Proofs.Rereading
import TaskTidy.Proofs.Withdrawal

/-!
# No line breaks

The lines of a text hold no newline, and no built-in set writes one into a line, unless it is a
part of a configured mode. So a chain of built-in sets leads from the lines of a text to lines
again.
-/

namespace TaskTidy

/-- No line holds a newline. -/
def Buffer.IsUnbroken (b : Buffer) : Prop :=
  ∀ l ∈ b, '\n' ∉ l

/-- No configured mode holds a newline. -/
def RuleOptions.IsUnbroken (options : RuleOptions) : Prop :=
  '\n' ∉ options.fileMode ∧ '\n' ∉ options.directoryMode

instance (options : RuleOptions) : Decidable options.IsUnbroken :=
  inferInstanceAs (Decidable (_ ∧ _))

namespace Buffer

variable {b : Buffer} {i : Nat} {l : Line}

theorem IsUnbroken.line (hb : b.IsUnbroken) (hi : i < b.length) : '\n' ∉ b.line i := by
  rw [line_eq_getElem b i hi]
  exact hb _ (List.getElem_mem hi)

theorem IsUnbroken.set (hb : b.IsUnbroken) (i : Nat) (hl : '\n' ∉ l) :
    Buffer.IsUnbroken (b.set i l) := by
  intro l' hl'
  rcases List.mem_or_eq_of_mem_set hl' with hl' | rfl
  · exact hb l' hl'
  · exact hl

theorem IsUnbroken.insertIdx (hb : b.IsUnbroken) (hi : i ≤ b.length) (hl : '\n' ∉ l) :
    Buffer.IsUnbroken (b.insertIdx i l) := by
  intro l' hl'
  rcases (List.mem_insertIdx hi).1 hl' with rfl | hl'
  · exact hl
  · exact hb l' hl'

end Buffer

namespace Pass

variable {s : RuleSet}

/-- Every visit of the set leaves lines without newlines. -/
def KeepsUnbroken (s : RuleSet) : Prop :=
  ∀ ⦃b : Buffer⦄ ⦃i : Nat⦄ ⦃v : Visit⦄, b.IsUnbroken → i < b.length → visit s b i = .ok v →
    v.buffer.IsUnbroken

theorem KeepsUnbroken.of_applyPass (hs : KeepsUnbroken s) {d : Document} {outcome : Outcome}
    (hd : d.lines.IsUnbroken) (h : d.applyPass s = .ok outcome) :
    outcome.document.lines.IsUnbroken :=
  Document.applyPassWithin_induction (fun {_ _ _} hi hb hv => hs hb hi hv) hd h

/-- Rules that write no newline into a line. -/
theorem Replaces.keepsUnbroken {rules : List (String × List Guard × (Line → Option Line))}
    (hs : Replaces s rules)
    (h : ∀ r ∈ rules, ∀ l l' : Line, r.2.2 l = some l' → '\n' ∉ l → '\n' ∉ l') :
    KeepsUnbroken s := by
  intro b i v hb hi hv
  rcases hs.exists_visit hi hv with ⟨hbuffer, _⟩ | ⟨r, hr, l, hl, _, hbuffer⟩
  · rwa [hbuffer]
  · rw [hbuffer]
    exact hb.set i (h r hr _ l hl (hb.line hi))

end Pass

/-- An injection whose value holds no newline. -/
theorem Injects.keepsUnbroken {r : FieldInjection} {asks : Line → List Line → Bool}
    {starts : Line → Bool} (h : Injects r asks starts) {s : RuleSet} (hl : s.lineRules = [])
    (hb : s.blockRules = [r.toBlockRule])
    (hvalue : ∀ b e value, r.value? b e = some value → '\n' ∉ value) : Pass.KeepsUnbroken s := by
  intro b i v hb' hi hv
  rcases h.visit_cases hl hb hi hv with ⟨_, rfl⟩ | ⟨p, x, hx, _, _, rfl⟩
  · exact hb'
  · obtain ⟨value, hval, rfl⟩ := hx.isLine
    exact hb'.insertIdx hx.le_length (h.newline_not_mem_fieldLine (hvalue _ _ value hval))

namespace RuleSets

open Pass

theorem keepsUnbroken_formatting : KeepsUnbroken formatting := by
  apply replaces_formatting.keepsUnbroken
  rw [List.forall_mem_singleton]
  intro l l' h
  exact newline_not_mem_of_stripTrailing? h

theorem keepsUnbroken_truthy : KeepsUnbroken truthy := by
  apply replaces_truthy.keepsUnbroken
  rw [List.forall_mem_singleton]
  intro l l' h
  exact (keepsEnd_of_normalizeTruthy? h).newline

theorem keepsUnbroken_commaSpacing : KeepsUnbroken commaSpacing := by
  apply replaces_commaSpacing.keepsUnbroken
  rw [List.forall_mem_singleton]
  intro l l' h
  exact (keepsEnd_of_spaceLine? h).newline

theorem keepsUnbroken_nameCasing : KeepsUnbroken nameCasing := by
  apply replaces_nameCasing.keepsUnbroken
  rw [List.forall_mem_singleton]
  intro l l' h
  exact (keepsEnd_of_capitalizeName? h).newline

theorem keepsUnbroken_fqcn : KeepsUnbroken fqcn := by
  apply replaces_fqcn.keepsUnbroken
  rw [List.forall_mem_cons, List.forall_mem_singleton]
  constructor
  · intro l l' h
    exact (keepsEnd_of_qualifyModule? h).newline
  · intro l l' h
    exact (keepsEnd_of_unqualifyParameter? h).newline

theorem keepsUnbroken_serviceNames : KeepsUnbroken serviceNames := by
  apply replaces_serviceNames.keepsUnbroken
  intro rule hrule l l' h
  obtain ⟨r, hr, rfl⟩ := List.mem_map.1 hrule
  exact (keepsEnd_of_renameUnit? hr h).newline

theorem keepsUnbroken_ignoreErrors : KeepsUnbroken ignoreErrors := by
  apply replaces_ignoreErrors.keepsUnbroken
  rw [List.forall_mem_singleton]
  intro l l' h
  exact (keepsEnd_of_replaceIgnoreErrors? h).newline

theorem keepsUnbroken_lineLength (limit : Nat) : KeepsUnbroken (lineLength limit) := by
  intro b i v hb hi hv
  rcases visit_lineLength_cases hi hv with hbuffer | ⟨parts, hparts, _, hbuffer⟩
  · rwa [hbuffer]
  · rw [hbuffer]
    intro l hl
    simp only [List.mem_append] at hl
    rcases hl with (hl | hl) | hl
    · exact hb l (List.mem_of_mem_take hl)
    · exact Reflow.newline_not_mem_of_split? hparts hl (hb.line hi)
    · exact hb l (List.mem_of_mem_drop hl)

theorem keepsUnbroken_pipefail : KeepsUnbroken pipefail := by
  intro b i v hb hi hv
  rcases visit_pipefail_cases hi hv with rfl | ⟨k, l, _, hk, _, _, hinsert, rfl⟩
  · exact hb
  · exact hb.set k ((keepsEnd_of_insertStrictPipes? hinsert).newline (hb.line hk))

theorem keepsUnbroken_molecule : KeepsUnbroken molecule := by
  intro b i v hb hi hv
  rcases visit_molecule_cases hi hv with ⟨_, hbuffer⟩ | ⟨_, hbuffer⟩
  · rwa [hbuffer]
  · rw [hbuffer]
    exact fun l hl => hb l ((List.eraseIdx_sublist b i).mem hl)

theorem keepsUnbroken_filePermissions {options : RuleOptions} (hmodes : options.IsUnbroken) :
    KeepsUnbroken (filePermissions options) := by
  refine (injects_explicitMode options).keepsUnbroken rfl rfl fun b e value hvalue => ?_
  have hmode := mem_of_modeFor? hvalue
  simp only [List.mem_cons, List.not_mem_nil, or_false] at hmode
  rcases hmode with rfl | rfl
  · exact hmodes.1
  · exact hmodes.2

theorem keepsUnbroken_changedWhen : KeepsUnbroken changedWhen := by
  refine injects_readOnlyCommand.keepsUnbroken rfl rfl fun b e value hvalue => ?_
  rw [eq_false_of_readOnlyCommand hvalue]
  decide

end RuleSets

/-- No built-in set writes a newline into a line, if the modes hold none. -/
theorem Registry.keepsUnbroken_of_mem_builtinSets {options : RuleOptions} {s : RuleSet}
    (hmodes : options.IsUnbroken) (hs : s ∈ builtinSets options) : Pass.KeepsUnbroken s := by
  simp only [builtinSets, List.mem_cons, List.not_mem_nil, or_false] at hs
  rcases hs with rfl | rfl | rfl | rfl | rfl | rfl | rfl | rfl | rfl | rfl | rfl | rfl
  · exact RuleSets.keepsUnbroken_formatting
  · exact RuleSets.keepsUnbroken_truthy
  · exact RuleSets.keepsUnbroken_commaSpacing
  · exact RuleSets.keepsUnbroken_nameCasing
  · exact RuleSets.keepsUnbroken_fqcn
  · exact RuleSets.keepsUnbroken_serviceNames
  · exact RuleSets.keepsUnbroken_lineLength _
  · exact RuleSets.keepsUnbroken_filePermissions hmodes
  · exact RuleSets.keepsUnbroken_changedWhen
  · exact RuleSets.keepsUnbroken_pipefail
  · exact RuleSets.keepsUnbroken_ignoreErrors
  · exact RuleSets.keepsUnbroken_molecule

end TaskTidy

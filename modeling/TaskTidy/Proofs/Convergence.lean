import TaskTidy.Proofs.InjectingSets
import TaskTidy.Proofs.LineSets
import TaskTidy.Proofs.Pipelines
import TaskTidy.Registry

/-!
# The built-in rule sets give a document

Each of the built-in rule sets settles within two sweeps, so no pass of one of them fails, whatever
the options and the document are.
-/

namespace TaskTidy

theorem Registry.settlesInTwo_of_mem_builtinSets {options : RuleOptions} {s : RuleSet}
    (hs : s ∈ Registry.builtinSets options) : Pass.SettlesInTwo s := by
  simp only [builtinSets, List.mem_cons, List.not_mem_nil, or_false] at hs
  rcases hs with rfl | rfl | rfl | rfl | rfl | rfl | rfl | rfl | rfl | rfl | rfl | rfl
  · exact RuleSets.settlesInOne_formatting.settlesInTwo
  · exact RuleSets.settlesInOne_truthy.settlesInTwo
  · exact RuleSets.settlesInOne_commaSpacing.settlesInTwo
  · exact RuleSets.settlesInOne_nameCasing.settlesInTwo
  · exact RuleSets.settlesInOne_fqcn.settlesInTwo
  · exact RuleSets.settlesInOne_serviceNames.settlesInTwo
  · exact (RuleSets.settlesInOne_lineLength options.maxWidth).settlesInTwo
  · exact RuleSets.settlesInTwo_filePermissions options
  · exact RuleSets.settlesInTwo_changedWhen
  · exact RuleSets.settlesInOne_pipefail.settlesInTwo
  · exact RuleSets.settlesInOne_ignoreErrors.settlesInTwo
  · exact RuleSets.settlesInOne_molecule.settlesInTwo

namespace Document

/-- A pass of a built-in rule set never fails. -/
theorem exists_applyPass_of_mem_builtinSets {options : RuleOptions} {s : RuleSet}
    (hs : s ∈ Registry.builtinSets options) (d : Document) :
    ∃ outcome, d.applyPass s = .ok outcome :=
  exists_applyPass (Registry.settlesInTwo_of_mem_builtinSets hs) d

/-- A module with an argument that is no parameter gets its mode twice, and the pass settles. -/
theorem exists_applyPass_injected_twice :
    RuleSets.filePermissions .standard ∈ Registry.builtinSets .standard ∧
      (∃ outcome, (ofLines ["- file:".toList, " foo".toList]).applyPass
        (RuleSets.filePermissions .standard) = .ok outcome) ∧
      (ofLines ["- file:".toList, " foo".toList]).applyPass (RuleSets.filePermissions .standard) =
        .ok ⟨ofLines ["- file:".toList, "  mode: '0644'".toList, " foo".toList,
          "  mode: '0644'".toList], true,
            [⟨"file-permissions", ⟨"explicit-mode", 3⟩⟩,
              ⟨"file-permissions", ⟨"explicit-mode", 2⟩⟩]⟩ := by
  have hs : RuleSets.filePermissions .standard ∈ Registry.builtinSets .standard := by
    simp [Registry.builtinSets]
  exact ⟨hs, exists_applyPass_of_mem_builtinSets hs _, by decide +kernel⟩

end Document

end TaskTidy

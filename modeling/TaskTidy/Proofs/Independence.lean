import TaskTidy.Proofs.BlockSeparation
import TaskTidy.Proofs.Convergence

/-!
# Tasks are fixed independently

Below a document without parameters at the left margin, a document that starts with an item there is
fixed as if it stood alone, and so is the document above it. The rule set for file modes is the one
that looks further: it takes the depth of a mode from the indentation of the whole document.
-/

namespace TaskTidy

namespace Buffer

variable {b c : Buffer}

instance : Decidable b.NoFlushParameter :=
  inferInstanceAs (Decidable (∀ l ∈ b, l.kind = .parameter → 0 < l.depth))

instance : Decidable c.StartsItem :=
  decidable_of_iff ((c.line 0).kind = .item ∧ (c.line 0).depth = 0)
    ⟨fun h => ⟨h.1, h.2⟩, fun h => ⟨h.kind_eq, h.depth_eq⟩⟩

/-- Documents that are apart for all sets are apart for those that ask for no lists of tasks. -/
theorem MayPrecede.mono {asksForLists : Prop} (h : MayPrecede True b c) :
    MayPrecede asksForLists b c :=
  ⟨h.startsItem, fun _ => h.noFlushParameter trivial⟩

end Buffer

open Pass RuleSets Buffer

/-- Every built-in set but the one for file modes visits two lists of tasks alone. -/
theorem Registry.exists_separates_of_mem_builtinSets {options : RuleOptions} {s : RuleSet}
    (hs : s ∈ Registry.builtinSets options) (hname : s.name ≠ "file-permissions") :
    ∃ apart, Separates s apart ∧ ∀ {b c}, MayPrecede True b c → apart b c := by
  simp only [builtinSets, List.mem_cons, List.not_mem_nil, or_false] at hs
  rcases hs with rfl | rfl | rfl | rfl | rfl | rfl | rfl | rfl | rfl | rfl | rfl | rfl
  · exact ⟨_, separates_formatting, fun _ => trivial⟩
  · exact ⟨_, separates_truthy, MayPrecede.mono⟩
  · exact ⟨_, separates_commaSpacing, MayPrecede.mono⟩
  · exact ⟨_, separates_nameCasing, id⟩
  · exact ⟨_, separates_fqcn, id⟩
  · exact ⟨_, separates_serviceNames, MayPrecede.mono⟩
  · exact ⟨_, separates_lineLength options.maxWidth, MayPrecede.mono⟩
  · exact absurd rfl hname
  · exact ⟨_, separates_changedWhen, id⟩
  · exact ⟨_, separates_pipefail, id⟩
  · exact ⟨_, separates_ignoreErrors, MayPrecede.mono⟩
  · exact ⟨_, separates_molecule, fun _ => trivial⟩

namespace Document

/-- A pass over one list of tasks above another gives the lines of the passes over each of them, for
every built-in set but the one for file modes. -/
theorem exists_applyPass_above {options : RuleOptions} {s : RuleSet}
    (hs : s ∈ Registry.builtinSets options) (hname : s.name ≠ "file-permissions")
    {d upper lower : Document} (hlines : d.lines = upper.lines ++ lower.lines)
    (hupper : upper.lines.NoFlushParameter) (hlower : lower.lines.StartsItem) :
    ∃ outcome outcome₁ outcome₂, d.applyPass s = .ok outcome ∧ upper.applyPass s = .ok outcome₁ ∧
      lower.applyPass s = .ok outcome₂ ∧
        outcome.document.lines = outcome₁.document.lines ++ outcome₂.document.lines := by
  obtain ⟨apart, hseparates, hapart⟩ := Registry.exists_separates_of_mem_builtinSets hs hname
  exact exists_applyPass_append hseparates (Registry.settlesInTwo_of_mem_builtinSets hs) hlines
    (hapart ⟨hlower, fun _ => hupper⟩)

/-- A mode is placed by the smallest step of the whole document, here by that of the other list. -/
example :
    let upper := ["- name: a".toList, "  file:".toList]
    let lower := ["- b:".toList, " c: d".toList]
    ((ofLines upper).applyPass (filePermissions .standard)).toOption.map (·.document.lines) =
        some (upper ++ ["    mode: '0644'".toList]) ∧
      ((ofLines (upper ++ lower)).applyPass (filePermissions .standard)).toOption.map
          (·.document.lines) = some (upper ++ ["   mode: '0644'".toList] ++ lower) := by
  decide +kernel

/-- A task that is marked above another one that is marked. -/
theorem exists_applyPass_above_marked :
    changedWhen ∈ Registry.builtinSets .standard ∧ changedWhen.name ≠ "file-permissions" ∧
      (NoFlushParameter ["- shell: cat a".toList, "  register: b".toList]) ∧
      StartsItem ["- command: ls".toList] ∧
      ∃ outcome outcome₁ outcome₂,
        (ofLines ["- shell: cat a".toList, "  register: b".toList,
          "- command: ls".toList]).applyPass changedWhen = .ok outcome ∧
        (ofLines ["- shell: cat a".toList, "  register: b".toList]).applyPass changedWhen =
          .ok outcome₁ ∧
        (ofLines ["- command: ls".toList]).applyPass changedWhen = .ok outcome₂ ∧
          outcome.document.lines = outcome₁.document.lines ++ outcome₂.document.lines := by
  have hs : changedWhen ∈ Registry.builtinSets .standard := by simp [Registry.builtinSets]
  have hname : changedWhen.name ≠ "file-permissions" := by decide
  have hupper : NoFlushParameter ["- shell: cat a".toList, "  register: b".toList] := by decide
  have hlower : StartsItem ["- command: ls".toList] := by decide
  exact ⟨hs, hname, hupper, hlower, exists_applyPass_above hs hname rfl hupper hlower⟩

end Document

end TaskTidy

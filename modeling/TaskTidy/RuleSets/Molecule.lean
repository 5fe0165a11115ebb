import TaskTidy.Rule.Guard

/-!
# Molecule scenarios

A scenario file holds no command module, so a line that names one is dropped.
-/

namespace TaskTidy.RuleSets

/-- Drop stray command module lines. -/
def molecule : RuleSet where
  name := "molecule"
  description := "Drop stray command module lines from molecule scenarios"
  rules :=
    [.line (LineRule.deleting "stray-command" [] (Text.contains "ansible.builtin.command:".toList))]
  scope := .fileNamed "molecule.yml"
  endsWithNewline := false

end TaskTidy.RuleSets

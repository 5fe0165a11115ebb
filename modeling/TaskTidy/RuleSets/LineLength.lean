import TaskTidy.Rule.Reflow

/-!
# Over-long lines

Lines wider than the limit are split at commas.
-/

namespace TaskTidy.RuleSets

/-- Split over-long lines at commas. -/
def lineLength (limit : Nat) : RuleSet where
  name := "line-length"
  description := "Split over-long lines at commas"
  rules := [.line (Reflow.rule limit)]
  scope := .taskContent
  endsWithNewline := false

end TaskTidy.RuleSets

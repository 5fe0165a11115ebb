import TaskTidy.Rule.Guard

/-!
# Trailing whitespace

Spaces and tabs at the end of a line are removed, and the document ends with a newline.
-/

namespace TaskTidy.RuleSets

/-- The line without its trailing spaces and tabs, if it has any. -/
def stripTrailing? (l : Line) : Option Line :=
  let text := Text.dropEndWhile Text.isIndent l
  if text = l then none else some text

/-- Strip trailing whitespace and end with one newline. -/
def formatting : RuleSet where
  name := "formatting"
  description := "Strip trailing whitespace and end with one newline"
  rules := [.line (LineRule.replacing "trailing-whitespace" [] stripTrailing?)]
  scope := .all
  endsWithNewline := true

end TaskTidy.RuleSets

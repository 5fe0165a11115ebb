import TaskTidy.Rule.Guard
import TaskTidy.Text.LetterCase

/-!
# Names of tasks and plays

The name of a task or a play starts with an uppercase letter.
-/

namespace TaskTidy.RuleSets

/-- The text without one opening quote. -/
def dropQuote : List Char → List Char
  | [] => []
  | c :: rest => if c = '"' ∨ c = '\'' then rest else c :: rest

/-- The line with the first letter of its name in uppercase, if that letter is lowercase. -/
def capitalizeName? (l : Line) : Option Line :=
  match Text.strip? "name:".toList l.body with
  | none => none
  | some rest =>
      match dropQuote (rest.dropWhile Text.isIndent) with
      | [] => none
      | c :: more =>
          if Line.startsIndented rest && Text.isLowercase c then
            some (l.take (l.length - (more.length + 1)) ++ Text.upperChar c ++ more)
          else none

/-- Capitalize the names of tasks and plays. -/
def nameCasing : RuleSet :=
  RuleSet.ofRules "name-casing" "Capitalize the first letter of task and play names"
    [.line (LineRule.replacing "capitalize-name" [.itemLevel, .taskList, .outsideScalar]
      capitalizeName?)]

end TaskTidy.RuleSets

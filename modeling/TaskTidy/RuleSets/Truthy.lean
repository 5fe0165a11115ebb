import TaskTidy.Rule.Guard

/-!
# Truthy values

A value that is one of the words for yes and no becomes `true` or `false`. The word must be the
whole value, and no comment may start before it.
-/

namespace TaskTidy.RuleSets

/-- The words for true. -/
def affirmatives : List (List Char) :=
  Text.keys ["yes", "Yes", "YES", "on", "On", "ON"]

/-- The words for false. -/
def negatives : List (List Char) :=
  Text.keys ["no", "No", "NO", "off", "Off", "OFF"]

/-- The boolean that a word stands for. -/
def booleanOf? (word : List Char) : Option (List Char) :=
  if affirmatives.contains word then some "true".toList
  else if negatives.contains word then some "false".toList
  else none

/-- The line with its truthy value written as a boolean. -/
def normalizeTruthy? (l : Line) : Option Line :=
  let text := Text.dropEndWhile Text.isIndent l
  let word := Text.takeEndWhile (fun c => !Text.isIndent c) text
  let head := Text.dropEndWhile (fun c => !Text.isIndent c) text
  let key := Text.dropEndWhile Text.isIndent head
  if key.getLast? = some ':' ∧ key.all (· != '#') then
    (booleanOf? word).map fun value => head ++ value
  else none

/-- Normalize truthy values outside block scalars. -/
def truthy : RuleSet :=
  RuleSet.ofRules "truthy" "Normalize yes/no/on/off values to true/false"
    [.line (LineRule.replacing "truthy-value" [.outsideScalar] normalizeTruthy?)]

end TaskTidy.RuleSets

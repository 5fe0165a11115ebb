import TaskTidy.Rule.Guard

/-!
# Commas in collections

In a line that looks like a flow collection or a list of tags, a comma outside quotes is followed by
a space.
-/

namespace TaskTidy.RuleSets

/-- Whether a text starts with a character that is not blank. -/
def startsSolid : List Char → Bool
  | [] => false
  | c :: _ => !Text.isBlank c

/-- Space the commas of a text, given the quote that is open. In double quotes a backslash escapes
the character after it. -/
def spaceCommas : Option Char → List Char → List Char
  | _, [] => []
  | some quote, c :: rest =>
      if quote = '"' ∧ c = '\\' then
        match rest with
        | [] => [c]
        | escaped :: more => c :: escaped :: spaceCommas (some quote) more
      else c :: spaceCommas (if c = quote then none else some quote) rest
  | none, c :: rest =>
      if c = '"' ∨ c = '\'' then c :: spaceCommas (some c) rest
      else if c = ',' ∧ startsSolid rest then c :: ' ' :: spaceCommas none rest
      else c :: spaceCommas none rest

/-- Whether the line looks like a collection. -/
def isListy (l : Line) : Bool :=
  l.contains '[' || l.contains '{' || l.hasKeyIn (Text.keys ["tags", "loop"])

/-- Whether the line holds a template. -/
def hasTemplate (l : Line) : Bool :=
  Text.contains ['{', '{'] l || Text.contains ['{', '%'] l

/-- The line with spaced commas, if that differs. -/
def spaceLine? (l : Line) : Option Line :=
  if l.kind != .comment && !hasTemplate l && isListy l then
    let spaced := spaceCommas none l
    if spaced = l then none else some spaced
  else none

/-- Add spaces after commas outside block scalars. -/
def commaSpacing : RuleSet :=
  RuleSet.ofRules "comma-spacing" "Add a space after commas in flow collections and tag lists"
    [.line (LineRule.replacing "space-after-comma" [.outsideScalar] spaceLine?)]

end TaskTidy.RuleSets

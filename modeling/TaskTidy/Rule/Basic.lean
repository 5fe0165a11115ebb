import TaskTidy.Block.Extent
import TaskTidy.Scope

/-!
# Rules and rule sets

A line rule looks at one line in its document and may answer with a rewrite. A block rule picks
start lines and may answer with a single edit for the block that starts there. A rule set is an
ordered list of rules with the files it is meant for.
-/

namespace TaskTidy

/-- What a line rule proposes for its line. -/
inductive Rewrite
  | replace (l : Line)
  | delete
  | split (parts : List Line)
  deriving DecidableEq

/-- A rule that looks at the line at an index. -/
structure LineRule where
  name : String
  rewrite : Buffer → Nat → Option Rewrite

/-- What a block rule proposes, in line indexes of the document. -/
inductive BlockEdit
  | insert (index : Nat) (l : Line)
  | replace (index : Nat) (l : Line)
  deriving DecidableEq

/-- A rule that looks at the block that starts at a line it selects. -/
structure BlockRule where
  name : String
  selects : Buffer → Nat → Bool
  edit : Buffer → Extent → Option BlockEdit

/-- A rule of either sort. -/
inductive Rule
  | line (rule : LineRule)
  | block (rule : BlockRule)

namespace Rule

/-- The name a rule is reported under. -/
def name : Rule → String
  | .line rule => rule.name
  | .block rule => rule.name

/-- The line rule, if the rule is one. -/
def line? : Rule → Option LineRule
  | .line rule => some rule
  | .block _ => none

/-- The block rule, if the rule is one. -/
def block? : Rule → Option BlockRule
  | .line _ => none
  | .block rule => some rule

end Rule

/-- An ordered list of rules. -/
structure RuleSet where
  name : String
  description : String
  rules : List Rule
  scope : Scope
  /-- Whether a document that has lines shall end with a newline. -/
  endsWithNewline : Bool

namespace RuleSet

/-- A rule set for all files that leaves the end of the document alone. -/
def ofRules (name description : String) (rules : List Rule) : RuleSet :=
  ⟨name, description, rules, .all, false⟩

/-- The line rules, in order. -/
def lineRules (s : RuleSet) : List LineRule :=
  s.rules.filterMap Rule.line?

/-- The block rules, in order. -/
def blockRules (s : RuleSet) : List BlockRule :=
  s.rules.filterMap Rule.block?

end RuleSet

end TaskTidy

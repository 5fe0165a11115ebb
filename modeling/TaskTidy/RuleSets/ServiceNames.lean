import TaskTidy.Rule.Guard

/-!
# Names of service units

In the arguments of a module a service is named by its unit.
-/

namespace TaskTidy.RuleSets

/-- The lowercase letter that a character stands for when case does not matter. Beside the ASCII
letters, the long s and the Kelvin sign stand for one. -/
def foldCase (c : Char) : Char :=
  if c = 'ſ' then 's' else if c = '\u212a' then 'k' else c.toLower

/-- The line with the name of the unit, if its name is one of the spellings after `fold`. -/
def renameUnit? (fold : Char → Char) (spellings : List String) (unit : String) (l : Line) :
    Option Line :=
  match Text.strip? "name:".toList (Text.dropEndWhile Text.isIndent (l.unindented.map fold)) with
  | none => none
  | some rest =>
      if Line.startsIndented rest &&
          (Text.keys spellings).contains (rest.dropWhile Text.isIndent) then
        some (l.take l.depth ++ "name: ".toList ++ unit.toList)
      else none

/-- Normalize service unit names. -/
def serviceNames : RuleSet :=
  RuleSet.ofRules "service-names" "Normalize service unit names in module arguments"
    [.line (LineRule.replacing "nginx-unit" [.nested] (renameUnit? id ["Nginx"] "nginx")),
      .line (LineRule.replacing "php-fpm-unit" [.nested]
        (renameUnit? foldCase ["php-fpm", "php-fpm.service"] "php-fpm.service")),
      .line (LineRule.replacing "cockpit-unit" [.nested]
        (renameUnit? foldCase ["cockpit", "cockpit.socket"] "cockpit.socket"))]

end TaskTidy.RuleSets

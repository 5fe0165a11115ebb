import TaskTidy.Rule.Guard

/-!
# Qualified module names

A builtin module is named with its collection. A parameter that shares its name with a module loses
the collection again.
-/

namespace TaskTidy.RuleSets

/-- The collection of the builtin modules, with the dot after it. -/
def builtinCollection : List Char :=
  "ansible.builtin.".toList

/-- Builtin modules commonly written with their short name. -/
def builtinModules : List (List Char) :=
  Text.keys
    ["command", "shell", "copy", "file", "template", "service", "systemd", "user", "group",
      "package", "yum", "apt", "dnf", "get_url", "unarchive", "stat", "find", "lineinfile",
      "replace", "blockinfile", "set_fact", "debug", "fail", "assert", "wait_for", "meta",
      "include_vars", "include_tasks", "import_tasks", "include_role", "import_role", "pause",
      "uri"]

/-- The line with its short module name qualified. -/
def qualifyModule? (l : Line) : Option Line :=
  let qualified := l.take l.column ++ builtinCollection ++ l.body
  if builtinModules.contains (l.body.takeWhile (· != ':')) then
    match l.body.dropWhile (· != ':') with
    | [_] => some qualified
    | _ :: c :: _ => if Text.isIndent c then some qualified else none
    | [] => none
  else none

/-- The parameters that get qualified by mistake. -/
def ambiguousParameters : List (List Char) :=
  Text.keys ["group", "user", "shell"]

/-- The value after a colon: the text after the blanks, or the last of several blanks if there is no
text. At least one blank must precede the value. -/
def valueAfterBlanks? (s : List Char) : Option (List Char) :=
  let blanks := s.takeWhile Text.isIndent
  match s.dropWhile Text.isIndent with
  | [] => if 2 ≤ blanks.length then blanks.getLast?.map fun c => [c] else none
  | value => if blanks.isEmpty then none else some value

/-- The line with its qualified parameter shortened. -/
def unqualifyParameter? (l : Line) : Option Line :=
  match Text.strip? builtinCollection l.unindented with
  | none => none
  | some rest =>
      let key := rest.takeWhile (· != ':')
      match rest.dropWhile (· != ':') with
      | [] => none
      | _ :: text =>
          if ambiguousParameters.contains key && text.all (· != '\n') then
            (valueAfterBlanks? text).map fun value =>
              l.take l.depth ++ key ++ ':' :: ' ' :: value
          else none

/-- Use fully qualified names for builtin modules. -/
def fqcn : RuleSet :=
  RuleSet.ofRules "fqcn" "Use fully qualified names for builtin modules"
    [.line (LineRule.replacing "qualify-module"
        [.itemLevel, .taskList, .ownerLacks "hosts".toList, .outsideScalar] qualifyModule?),
      .line (LineRule.replacing "unqualify-parameter" [.nested] unqualifyParameter?)]

end TaskTidy.RuleSets

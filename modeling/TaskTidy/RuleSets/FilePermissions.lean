import TaskTidy.RuleSets.Command
import TaskTidy.Rule.Injection

/-!
# Explicit file modes

A task that creates a file names its mode. Directories and executables get the directory mode, and a
task for which any mode would be wrong gets none.
-/

namespace TaskTidy

/-- Tunable data of the built-in rule sets. -/
structure RuleOptions where
  /-- The width past which a line is split. -/
  maxWidth : Nat
  /-- The mode of plain files, as it is written. -/
  fileMode : List Char
  /-- The mode of directories and executables, as it is written. -/
  directoryMode : List Char
  deriving DecidableEq

/-- The values of the options when nothing is configured. -/
def RuleOptions.standard : RuleOptions :=
  ⟨160, "'0644'".toList, "'0755'".toList⟩

namespace RuleSets

/-- The modules that create files. -/
def fileModules : List (List Char) :=
  Text.keys
    ["file", "copy", "template", "ansible.builtin.file", "ansible.builtin.copy",
      "ansible.builtin.template"]

/-- Whether the arguments of a file module leave room for a nested field. -/
def takesNestedMode (b : Buffer) (e : Extent) : Bool :=
  let start := b.line e.start
  match start.value? with
  | none => true
  | some arguments => start.kind = .item && !arguments.contains '='

/-- Whether a target is a script or lies in a directory of programs. -/
def isExecutable (target : List Char) : Bool :=
  ".sh".toList.isSuffixOf target || Text.contains "/bin/".toList target

/-- The mode of a file task, or none if a mode would be wrong or has no place. -/
def modeFor? (options : RuleOptions) (b : Buffer) (e : Extent) : Option (List Char) :=
  let valueOf := fun key => (b.fieldValue? e key).map unquote
  let state := valueOf "state".toList
  if b.isTask e && takesNestedMode b e && !b.hasField e "recurse".toList &&
      !(Text.keys ["absent", "link", "hard"]).any fun s => state == some s then
    if state = some "directory".toList ∨
        ((Text.keys ["dest", "path", "src"]).filterMap valueOf).any isExecutable then
      some options.directoryMode
    else some options.fileMode
  else none

/-- The injection of explicit modes. -/
def explicitMode (options : RuleOptions) : FieldInjection where
  name := "explicit-mode"
  target := .keys fileModules
  field := "mode".toList
  anchors :=
    ⟨Text.keys ["owner", "group", "dest", "path", "state"],
      Text.keys ["when", "notify", "tags", "register"]⟩
  value? := modeFor? options

/-- Give file, copy and template tasks an explicit mode. -/
def filePermissions (options : RuleOptions) : RuleSet where
  name := "file-permissions"
  description := "Give file, copy and template tasks an explicit mode"
  rules := [.block (explicitMode options).toBlockRule]
  scope := .taskContent
  endsWithNewline := false

end RuleSets

end TaskTidy

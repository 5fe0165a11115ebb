import TaskTidy.RuleSets.Command
import TaskTidy.Rule.Injection

/-!
# Read-only commands

A task whose command only reads state is marked as never changing.
-/

namespace TaskTidy.RuleSets

/-- The modules that run a command. -/
def commandModules : List (List Char) :=
  Text.keys ["command", "shell", "ansible.builtin.command", "ansible.builtin.shell"]

/-- Commands that only read state. -/
def readOnlyCommands : List (List Char) :=
  Text.keys ["grep", "cat", "ls", "echo", "test", "which", "stat", "getent", "id"]

/-- Whether a command only reads state, by its first word after the pipe option. -/
def isReadOnlyText (text : List Char) : Bool :=
  let command := (Text.strip? strictPipes text).getD text
  readOnlyCommands.contains (Text.firstWord (unquote command))

/-- Whether a command says which file it creates or removes. -/
def namesEffect (text : List Char) : Bool :=
  Text.contains "creates=".toList text || Text.contains "removes=".toList text

/-- Whether a block is a task whose command only reads state. -/
def isReadOnlyTask (b : Buffer) (e : Extent) : Bool :=
  if b.isTask e then
    match b.findKey? e commandModules with
    | none => false
    | some found =>
        if found.index = e.start ∧ (b.line e.start).value?.isNone then false
        else match b.commandLine? found.index with
          | none => false
          | some command =>
              !namesEffect command.text &&
                !((b.blockLines e).any fun l => l.hasKeyIn (Text.keys ["creates", "removes"])) &&
                isReadOnlyText command.text
  else false

/-- The injection of `changed_when`. -/
def readOnlyCommand : FieldInjection where
  name := "read-only-command"
  target := .itemsWithKey commandModules
  field := "changed_when".toList
  anchors := ⟨Text.keys ["register"], Text.keys ["when", "notify", "tags", "loop"]⟩
  value? b e := if isReadOnlyTask b e then some "false".toList else none

/-- Mark read-only command tasks as never changing. -/
def changedWhen : RuleSet where
  name := "changed-when"
  description := "Mark read-only command tasks as never changing"
  rules := [.block readOnlyCommand.toBlockRule]
  scope := .taskContent
  endsWithNewline := false

end TaskTidy.RuleSets

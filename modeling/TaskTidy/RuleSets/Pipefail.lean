import TaskTidy.RuleSets.Command
import TaskTidy.Rule.Injection

/-!
# Pipelines

A shell task with a pipe runs with the option that makes the pipeline fail when any stage fails. A
pipe inside a template is a filter and does not count.
-/

namespace TaskTidy.RuleSets

/-- The modules that run a shell. -/
def shellModules : List (List Char) :=
  Text.keys ["shell", "ansible.builtin.shell"]

/-- The text after the first `close` that no line break precedes. -/
def afterClose? (close : List Char) : List Char → Option (List Char)
  | [] => none
  | c :: rest =>
      match Text.strip? close (c :: rest) with
      | some more => some more
      | none => if c = '\n' then none else afterClose? close rest

/-- The text after the template that starts the text. -/
def afterTemplate? (s : List Char) : Option (List Char) :=
  match s with
  | '{' :: '{' :: rest => afterClose? ['}', '}'] rest
  | '{' :: '%' :: rest => afterClose? ['%', '}'] rest
  | _ => none

/-- The text without its templates, after `skip` characters of one. -/
def dropTemplates : Nat → List Char → List Char
  | _, [] => []
  | skip + 1, _ :: rest => dropTemplates skip rest
  | 0, c :: rest =>
      match afterTemplate? (c :: rest) with
      | some more => dropTemplates (rest.length - more.length) rest
      | none => c :: dropTemplates 0 rest

/-- Whether a text holds a pipe without a pipe beside it. -/
def hasLonePipe (afterPipe : Bool) : List Char → Bool
  | [] => false
  | c :: rest =>
      if c = '|' then (!afterPipe && rest.head? != some '|') || hasLonePipe true rest
      else hasLonePipe false rest

/-- Whether a piece of a command holds a shell pipe. -/
def hasPipe (text : Line) : Bool :=
  text.kind != .comment && !Line.isScalarHeader text &&
    hasLonePipe false (dropTemplates 0 text)

/-- The line with the shell option in front of its command. -/
def insertStrictPipes? (command : CommandLine) (l : Line) : Option Line :=
  if command.isInline then
    match l.splitAtValue? with
    | none => none
    | some (before, []) => some (before ++ strictPipes)
    | some (before, c :: rest) =>
        if c = '"' ∨ c = '\'' then some (before ++ c :: strictPipes ++ rest)
        else some (before ++ strictPipes ++ c :: rest)
  else some (l.take l.depth ++ strictPipes ++ l.unindented)

/-- The line of a shell task that needs the option, with the option. -/
def addStrictPipes? (b : Buffer) (e : Extent) : Option (Nat × Line) :=
  if b.isTask e && !b.blockContains e "pipefail".toList then
    match b.findKey? e shellModules with
    | none => none
    | some found =>
        if (b.commandTexts found.index).any hasPipe then
          match b.commandLine? found.index with
          | none => none
          | some command =>
              (insertStrictPipes? command (b.line command.index)).map fun l => (command.index, l)
        else none
  else none

/-- The rewrite of shell pipelines. -/
def strictPipelines : ScopedRewrite :=
  ⟨"pipefail", .itemsWithKey shellModules, addStrictPipes?⟩

/-- Fail shell pipelines when any stage fails. -/
def pipefail : RuleSet where
  name := "pipefail"
  description := "Fail shell pipelines when any stage fails"
  rules := [.block strictPipelines.toBlockRule]
  scope := .taskContent
  endsWithNewline := false

end TaskTidy.RuleSets

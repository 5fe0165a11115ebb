import TaskTidy.Path

/-!
# Scopes

A scope says which files a rule set is meant for, by the names of the directories above a file or by
the name of the file.
-/

namespace TaskTidy

/-- The files a rule set is meant for. -/
inductive Scope
  | all
  | within (included excluded : List String)
  | fileNamed (name : String)
  deriving DecidableEq, Repr

namespace Scope

/-- Whether the scope accepts a path: some directory is included and none is excluded, or the file
has the name. -/
def accepts : Scope → String → Bool
  | .all, _ => true
  | .within included excluded, path =>
      let directories := Path.directoryNames path
      directories.any included.contains && !directories.any excluded.contains
  | .fileNamed name, path => Path.fileName? path == some name

/-- Task content: tasks, handlers and playbooks outside the molecule scenarios. -/
def taskContent : Scope :=
  .within ["tasks", "handlers", "playbooks"] ["molecule"]

end Scope

end TaskTidy

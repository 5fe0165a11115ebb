import TaskTidy.RuleSets.ChangedWhen
import TaskTidy.RuleSets.CommaSpacing
import TaskTidy.RuleSets.FilePermissions
import TaskTidy.RuleSets.Formatting
import TaskTidy.RuleSets.IgnoreErrors
import TaskTidy.RuleSets.LineLength
import TaskTidy.RuleSets.Molecule
import TaskTidy.RuleSets.NameCasing
import TaskTidy.RuleSets.Pipefail
import TaskTidy.RuleSets.QualifiedNames
import TaskTidy.RuleSets.ServiceNames
import TaskTidy.RuleSets.Truthy

/-!
# The registry of rule sets

Rule sets are registered under their names, in the order in which they run. Registering a name again
replaces its set, which keeps its place in the order.
-/

namespace TaskTidy

/-- Why a list of names gives no rule sets. -/
inductive RegistryError
  | unknownRuleSet (name : String)
  deriving DecidableEq, Repr

/-- The wording of a failed look-up. -/
def RegistryError.message : RegistryError → String
  | .unknownRuleSet name => s!"unknown rule set '{name}'"

/-- The registered rule sets under their names, and the names in the order of their first
registration. -/
structure Registry where
  sets : List (String × RuleSet)
  order : List String

namespace Registry

/-- The registry without rule sets. -/
def empty : Registry :=
  ⟨[], []⟩

/-- Register a rule set, replacing any set of the same name. Only a new name enters the order. -/
def register (r : Registry) (s : RuleSet) : Registry where
  sets := (s.name, s) :: r.sets.filter fun stored => stored.1 != s.name
  order :=
    match r.sets.lookup s.name with
    | none => r.order ++ [s.name]
    | some _ => r.order

/-- The rule set with a name. -/
def get? (r : Registry) (name : String) : Option RuleSet :=
  r.sets.lookup name

/-- Whether a name is registered. -/
def has (r : Registry) (name : String) : Bool :=
  (r.get? name).isSome

/-- All rule sets by ascending name. -/
def listAll (r : Registry) : List RuleSet :=
  (r.sets.map Prod.snd).mergeSort fun s t => s.name ≤ t.name

/-- The rule sets with the given names, in the given order. -/
def resolve (r : Registry) : List String → Except RegistryError (List RuleSet)
  | [] => .ok []
  | name :: rest =>
      match r.get? name with
      | none => .error (.unknownRuleSet name)
      | some s => (resolve r rest).map (s :: ·)

/-- The names of the sets that run when nothing is selected, in the order in which they run. The
molecule set runs only when it is asked for. -/
def defaultEnabled (r : Registry) : List String :=
  r.order.filter (· != RuleSets.molecule.name)

/-- The built-in rule sets, in the order in which they run. -/
def builtinSets (options : RuleOptions) : List RuleSet :=
  [RuleSets.formatting, RuleSets.truthy, RuleSets.commaSpacing, RuleSets.nameCasing,
    RuleSets.fqcn, RuleSets.serviceNames, RuleSets.lineLength options.maxWidth,
    RuleSets.filePermissions options, RuleSets.changedWhen, RuleSets.pipefail,
    RuleSets.ignoreErrors, RuleSets.molecule]

/-- The registry of the built-in rule sets. -/
def builtin (options : RuleOptions) : Registry :=
  (builtinSets options).foldl register empty

/-- Only the sets that are meant for a file. -/
def accepting (path : String) (sets : List RuleSet) : List RuleSet :=
  sets.filter fun s => s.scope.accepts path

end Registry

end TaskTidy

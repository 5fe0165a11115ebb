import TaskTidy.RuleSets.FilePermissions
import TaskTidy.Settings.Layers

/-!
# Settings

The settings are read from the merged layers of configuration. Scalars are read leniently: a boolean
may be a word or a number, a count may be a word or digits in a string. Lists are not converted. A
section is a table, or an array with its values in the order in which they are read.
-/

namespace TaskTidy

/-- Which files a directory walk picks up. -/
structure DiscoverySettings where
  extensions : List String
  excludedDirectories : List String
  respectGitignore : Bool
  deriving DecidableEq

/-- How files are written back. -/
structure WriteSettings where
  backup : Bool
  backupSuffix : String
  deriving DecidableEq

/-- Which rule sets run and the data they use. -/
structure RuleSettings where
  enabled : List String
  maxWidth : Nat
  fileMode : String
  directoryMode : String
  deriving DecidableEq

/-- All settings of a run. -/
structure Settings where
  discovery : DiscoverySettings
  write : WriteSettings
  rules : RuleSettings
  jobs : Nat
  deriving DecidableEq

/-- The options of the built-in rule sets. -/
def RuleSettings.options (s : RuleSettings) : RuleOptions :=
  ⟨s.maxWidth, s.fileMode.toList, s.directoryMode.toList⟩

namespace Settings

/-- The text with its ASCII letters in lowercase. -/
def lower (s : String) : String :=
  String.ofList (s.toList.map Char.toLower)

/-- A value read as a boolean. -/
def asBool? : Toml.Value → Option Bool
  | .boolean b => some b
  | .integer n => some (n != 0)
  | .decimal x => some !x.isZero
  | .string s =>
      if ["1", "true", "on", "yes"].contains (lower s) then some true
      else if ["0", "false", "off", "no"].contains (lower s) then some false
      else none
  | _ => none

/-- The number that decimal digits after an optional plus sign stand for, below a bound. -/
def natBelow? (bound : Nat) (s : String) : Option Nat :=
  let digits := match s.toList with
    | '+' :: rest => rest
    | cs => cs
  if digits.isEmpty || !digits.all Char.isDigit then none
  else
    let n := digits.foldl (fun sum d => sum * 10 + (d.toNat - 48)) 0
    if n < bound then some n else none

/-- The number of counts that 64 bits can hold. -/
def countBound : Nat := 0x10000000000000000

/-- A value read as a count. -/
def asCount? : Toml.Value → Option Nat
  | .boolean b => some (if b then 1 else 0)
  | .integer n => if 0 ≤ n then some n.toNat else none
  | .decimal x => some (x.nearestBelow countBound)
  | .string s =>
      if ["true", "on", "yes"].contains (lower s) then some 1
      else if ["false", "off", "no"].contains (lower s) then some 0
      else natBelow? countBound s
  | _ => none

/-- A value read as a string. -/
def asString? : Toml.Value → Option String
  | .boolean b => some (if b then "true" else "false")
  | .integer n => some (toString n)
  | .decimal x => some x.text
  | .string s => some s
  | _ => none

/-- A value read as a list of strings. -/
def asStrings? : Toml.Value → Option (List String)
  | .array items => items.mapM asString?
  | _ => none

/-- A value read as a section. -/
def asSection? : Toml.Value → Option Toml.Value
  | .table entries => some (.table entries)
  | .array items => some (.array items)
  | _ => none

/-- The value of a section at a key, or at the place of that key in an array. -/
def valueAt? (key : String) (place : Nat) : Toml.Value → Option Toml.Value
  | .table entries => entries.get? key
  | .array items => items[place]?
  | _ => none

/-- Read the value of a key, whose place is `place`, from a section. -/
def read (group : Toml.Value) (place : Nat) (key : String) (as? : Toml.Value → Option α) :
    Except Failure α :=
  match valueAt? key place group with
  | none => .error (.missingKey key)
  | some value =>
      match as? value with
      | none => .error (.wrongType key)
      | some a => .ok a

/-- Read which files a walk picks up. -/
def readDiscovery (v : Toml.Value) : Except Failure DiscoverySettings := do
  return {
    extensions := ← read v 0 "extensions" asStrings?
    excludedDirectories := ← read v 1 "exclude_dirs" asStrings?
    respectGitignore := ← read v 2 "respect_gitignore" asBool? }

/-- Read how files are written back. -/
def readWrite (v : Toml.Value) : Except Failure WriteSettings := do
  return {
    backup := ← read v 0 "backup" asBool?
    backupSuffix := ← read v 1 "backup_suffix" asString? }

/-- Read which rule sets run and the data they use. -/
def readRules (v : Toml.Value) : Except Failure RuleSettings := do
  let lineLength ← read v 1 "line_length" asSection?
  let permissions ← read v 2 "permissions" asSection?
  return {
    enabled := ← read v 0 "enabled" asStrings?
    maxWidth := ← read lineLength 0 "max_width" asCount?
    fileMode := ← read permissions 0 "file_mode" asString?
    directoryMode := ← read permissions 1 "directory_mode" asString? }

/-- Read the settings from merged layers. -/
def ofTable (t : Toml.Entries) : Except Failure Settings := do
  let root := Toml.Value.table t
  return {
    discovery := ← readDiscovery (← read root 0 "discovery" asSection?)
    write := ← readWrite (← read root 1 "write" asSection?)
    rules := ← readRules (← read root 2 "rules" asSection?)
    jobs := ← read (← read root 3 "batch" asSection?) 0 "jobs" asCount? }

/-- A table of strings or other values as a section. -/
def tableOf (entries : List (String × Toml.Value)) : Toml.Value :=
  .table (Toml.Entries.ofList entries)

/-- A list of strings as a value. -/
def listOf (items : List String) : Toml.Value :=
  .array (items.map Toml.Value.string)

/-- The settings that hold when no layer says otherwise. -/
def defaults : Toml.Entries :=
  Toml.Entries.ofList
    [("discovery", tableOf
        [("extensions", listOf ["yml", "yaml"]),
          ("exclude_dirs", listOf [".git", "temp", ".cache", "__pycache__"]),
          ("respect_gitignore", .boolean false)]),
      ("write", tableOf [("backup", .boolean false), ("backup_suffix", .string ".bak")]),
      ("rules", tableOf
        [("enabled", listOf
            ["formatting", "truthy", "comma-spacing", "name-casing", "fqcn", "service-names",
              "line-length", "file-permissions", "changed-when", "pipefail", "ignore-errors"]),
          ("line_length", tableOf [("max_width", .integer 160)]),
          ("permissions", tableOf
            [("file_mode", .string "'0644'"), ("directory_mode", .string "'0755'")])]),
      ("batch", tableOf [("jobs", .integer 0)])]

/-- Layers and overrides, collected before the settings are read. -/
structure Loader where
  layers : List Layer
  overrides : List (String × Toml.Value)

namespace Loader

/-- A loader of the defaults alone. -/
def start : Loader :=
  ⟨[], []⟩

/-- Lay a file over the layers so far. -/
def withLayer (l : Loader) (layer : Layer) : Loader :=
  { l with layers := l.layers ++ [layer] }

/-- Override the value at the end of a route. -/
def withOverride (l : Loader) (route : String) (value : Toml.Value) : Loader :=
  { l with overrides := l.overrides ++ [(route, value)] }

/-- The merged table: the defaults, the layers over them, and the overrides on top. -/
def table (b : Backend) (l : Loader) : Except Failure Toml.Entries :=
  match tables b l.layers with
  | .error cause => .error cause
  | .ok files => b.merge (defaults :: files) l.overrides

/-- Read the settings. -/
def load (b : Backend) (l : Loader) : Except Failure Settings :=
  match l.table b with
  | .error cause => .error cause
  | .ok merged => ofTable merged

end Loader

end Settings

end TaskTidy

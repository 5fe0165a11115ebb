import TaskTidy.Batch
import TaskTidy.CommandLine.Options
import TaskTidy.Discovery.Basic
import TaskTidy.Report.Json
import TaskTidy.Report.Text

/-!
# Runs of the program

A run takes a file tree and arguments to an exit code, an output and the tree afterwards. The
settings come first, then the rule sets, then the workers, then the files; a failure before the
files ends the run. What finds, reads and merges configuration files, what walks directories and
what starts workers comes with the host of the run.
-/

namespace TaskTidy.CommandLine

/-- Why a run ends before any file is touched. -/
inductive Failure
  | configuration (cause : Settings.Failure)
  | registry (cause : RegistryError)
  | workers (cause : String)
  | invalidValue (option : String) (value : Nat)
  deriving DecidableEq, Repr

/-- The wording of a failure. -/
def Failure.message : Failure → String
  | .configuration cause => s!"configuration error: {cause.message}"
  | .registry cause => cause.message
  | .workers cause => s!"cannot start worker pool: {cause}"
  | .invalidValue option value => s!"invalid value for --{option}: {value}"

/-- The result of a run. -/
structure Result where
  code : Nat
  output : String
  failure? : Option Failure
  tree : FileTree

/-- The configuration file of a working directory. -/
def settingsFile : String := ".blockfix.toml"

/-- The text of a configuration file. If the path leads to no file, its last name with the usual
extension is tried; a file that is not text counts as missing. -/
def configText? (t : FileTree) (path : String) : Option (List Char) :=
  let found :=
    if t.isFilePath path then some path
    else if (Path.fileName? path).isSome then some (Path.withSuffix path ".toml")
    else none
  match found with
  | none => none
  | some path =>
      match t.open? path with
      | .error _ => none
      | .ok (_, bytes) => (Text.Utf8.decode bytes).toOption

/-- What a run finds outside: the text of a configuration file, the backend for such files, the
walker of directories, and why a number of workers cannot be started. -/
structure Host where
  findText? : FileTree → String → Option (List Char)
  backend : Settings.Backend
  walker : Discovery.Walker
  workersFailure? : Nat → Option String

namespace Host

/-- The host on which any number of workers starts. -/
def standard : Host :=
  ⟨configText?, Settings.Backend.standard, Discovery.visit, fun _ => none⟩

/-- Why the jobs of a run cannot be done. Without a number no workers of its own are started. -/
def jobsFailure? (h : Host) (jobs : Nat) : Option String :=
  if jobs = 0 then none else h.workersFailure? jobs

end Host

/-- The names of rule sets, trimmed; empty names are dropped. -/
def cleanNames (names : List String) : List String :=
  (names.map fun name => String.ofList (Text.trim name.toList)).filter fun name => !name.isEmpty

/-- The override that the given rule sets make. -/
def rulesOverride (o : Options) : List (String × Toml.Value) :=
  match o.rules with
  | none => []
  | some names => [("rules.enabled", Settings.listOf (cleanNames names))]

/-- The override that the given width makes. It must be positive and fit 64 bits with a sign. -/
def widthOverride (o : Options) : Except Failure (List (String × Toml.Value)) :=
  match o.maxWidth with
  | none => .ok []
  | some n =>
      if 0 < n ∧ n < Toml.Reader.integerBound then
        .ok [("rules.line_length.max_width", .integer n)]
      else .error (.invalidValue "max-width" n)

/-- The override that the given number of jobs makes. It must fit 64 bits with a sign. -/
def jobsOverride (o : Options) : Except Failure (List (String × Toml.Value)) :=
  match o.jobs with
  | none => .ok []
  | some n =>
      if n < Toml.Reader.integerBound then .ok [("batch.jobs", .integer n)]
      else .error (.invalidValue "jobs" n)

/-- The override that the backup flags make. -/
def backupOverride (o : Options) : List (String × Toml.Value) :=
  if o.has .backup then [("write.backup", .boolean true)]
  else if o.has .noBackup then [("write.backup", .boolean false)]
  else []

/-- The overrides that the flags make. -/
def overrides (o : Options) : Except Failure (List (String × Toml.Value)) :=
  match widthOverride o with
  | .error cause => .error cause
  | .ok width =>
      match jobsOverride o with
      | .error cause => .error cause
      | .ok jobs => .ok (rulesOverride o ++ width ++ jobs ++ backupOverride o)

/-- The layers of a run: the file of the working directory, then the given file. -/
def layers (h : Host) (o : Options) (t : FileTree) : List Settings.Layer :=
  ⟨h.findText? t settingsFile, false⟩ ::
    match o.config with
    | none => []
    | some path => [⟨h.findText? t path, true⟩]

/-- The settings of a run. -/
def settings (h : Host) (o : Options) (t : FileTree) : Except Failure Settings :=
  match overrides o with
  | .error cause => .error cause
  | .ok values =>
      (Settings.Loader.load h.backend ⟨layers h o t, values⟩).mapError .configuration

/-- What a run does to files that need fixing. -/
def modeOf (o : Options) (s : WriteSettings) : Mode :=
  if o.has .check then .check
  else if o.has .diff then .diff
  else if s.backup then .backup s.backupSuffix
  else .replace

/-- A text filled up with spaces to a width. -/
def padded (width : Nat) (s : String) : String :=
  s ++ String.ofList (List.replicate (width - s.length) ' ')

/-- The list of the rule sets, with those that are enabled marked. -/
def ruleList (r : Registry) (enabled : List String) : String :=
  "Available rule sets:\n\n" ++
    String.join (r.listAll.map fun s =>
      let mark := if enabled.contains s.name then "*" else " "
      "  " ++ mark ++ " " ++ padded 18 s.name ++ " " ++ s.description ++ "\n") ++
    "\n  * enabled\n"

/-- The exit code of a run over files: one if a file failed, or if a change is left to be made. -/
def exitCode (mode : Mode) (s : Summary) : Nat :=
  if 0 < s.errored ∨ (!mode.writes ∧ 0 < s.changed) then 1 else 0

/-- The files that a run works on. Without arguments they are found in the working directory. -/
def inputs (h : Host) (o : Options) (s : Settings) (t : FileTree) : List String :=
  Discovery.discover h.walker s.discovery t (if o.paths.isEmpty then ["."] else o.paths)

/-- Fix the files of a run and report on them. -/
def fixAll (h : Host) (o : Options) (s : Settings) (sets : List RuleSet) (t : FileTree) : Result :=
  match h.jobsFailure? s.jobs with
  | some cause => ⟨2, "", some (.workers cause), t⟩
  | none =>
      let mode := modeOf o s.write
      let (reports, last) := Batch.fixFiles sets mode t (inputs h o s t)
      let summary := Summary.ofReports reports
      let output :=
        if o.has .json then Report.Json.text reports summary
        else Report.text mode.writes reports summary
      ⟨exitCode mode summary, output, none, last⟩

/-- A run with options that were read. -/
def runOptions (h : Host) (o : Options) (t : FileTree) : Result :=
  match settings h o t with
  | .error cause => ⟨2, "", some cause, t⟩
  | .ok s =>
      let registry := Registry.builtin s.rules.options
      if o.has .listRules then ⟨0, ruleList registry s.rules.enabled, none, t⟩
      else match registry.resolve s.rules.enabled with
        | .error cause => ⟨2, "", some (.registry cause), t⟩
        | .ok sets => fixAll h o s sets t

/-- The name under which the program presents itself. -/
def programName : String := "blockfix"

/-- A run of the program on a file tree. -/
def run (h : Host) (t : FileTree) (arguments : List String) : Result :=
  match read arguments with
  | .error .usage => ⟨2, "", none, t⟩
  | .error .version => ⟨0, programName ++ " 0.1.0\n", none, t⟩
  | .error .help => ⟨0, "Usage: " ++ programName ++ " [OPTIONS] [PATHS]...\n", none, t⟩
  | .ok o => runOptions h o t

end TaskTidy.CommandLine

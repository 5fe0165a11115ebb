import TaskTidy.Settings.Basic

/-!
# Command line options

Arguments are read from left to right. A flag is given once and takes no value; an option takes the
text after an equals sign, the rest of its cluster, or the next argument unless that is an option
itself. Everything after a double dash is a path.
-/

namespace TaskTidy.CommandLine

/-- Options without a value. -/
inductive Flag
  | listRules
  | check
  | diff
  | backup
  | noBackup
  | json
  | verbose
  | quiet
  deriving DecidableEq, Repr

/-- Options with a value. -/
inductive Setting
  | rules
  | config
  | maxWidth
  | jobs
  deriving DecidableEq, Repr

/-- What an option name stands for. -/
inductive Meaning
  | flag (f : Flag)
  | setting (s : Setting)
  | version
  | help
  deriving DecidableEq, Repr

/-- The option with a long name. -/
def long? (name : String) : Option Meaning :=
  [("rules", Meaning.setting .rules), ("config", .setting .config),
    ("max-width", .setting .maxWidth), ("jobs", .setting .jobs),
    ("list-rules", .flag .listRules), ("check", .flag .check), ("diff", .flag .diff),
    ("backup", .flag .backup), ("no-backup", .flag .noBackup), ("json", .flag .json),
    ("verbose", .flag .verbose), ("quiet", .flag .quiet), ("version", .version),
    ("help", .help)].lookup name

/-- The option with a short name. -/
def short? (name : Char) : Option Meaning :=
  [('r', Meaning.setting .rules), ('c', .setting .config), ('j', .setting .jobs),
    ('v', .flag .verbose), ('q', .flag .quiet), ('V', .version), ('h', .help)].lookup name

/-- The options of a run. -/
structure Options where
  paths : List String
  flags : List Flag
  /-- The names of the rule sets as they were given. -/
  rules : Option (List String)
  config : Option String
  maxWidth : Option Nat
  jobs : Option Nat
  deriving DecidableEq

namespace Options

/-- No option at all. -/
def none : Options :=
  ⟨[], [], .none, .none, .none, .none⟩

/-- Whether a flag was given. -/
def has (o : Options) (f : Flag) : Bool :=
  o.flags.contains f

end Options

/-- Why reading the arguments ends without options. -/
inductive Stop
  | usage
  | version
  | help
  deriving DecidableEq, Repr

/-- Add a path. -/
def addPath (path : String) (o : Options) : Except Stop Options :=
  if path.isEmpty then .error .usage else .ok { o with paths := o.paths ++ [path] }

/-- Add paths in order. -/
def addPaths : List String → Options → Except Stop Options
  | [], o => .ok o
  | path :: rest, o =>
      match addPath path o with
      | .error stop => .error stop
      | .ok next => addPaths rest next

/-- Raise a flag. -/
def addFlag (f : Flag) (o : Options) : Except Stop Options :=
  if o.has f then .error .usage else .ok { o with flags := o.flags ++ [f] }

/-- Give an option its value. Only the rule sets can be given repeatedly. -/
def addValue (s : Setting) (value : String) (o : Options) : Except Stop Options :=
  match s with
  | .rules =>
      let names := (Text.pieces ',' value.toList).map String.ofList
      .ok { o with rules := some (o.rules.getD [] ++ names) }
  | .config =>
      if value.isEmpty || o.config.isSome then .error .usage
      else .ok { o with config := some value }
  | .maxWidth =>
      match o.maxWidth, Settings.natBelow? Settings.countBound value with
      | .none, some n => .ok { o with maxWidth := some n }
      | _, _ => .error .usage
  | .jobs =>
      match o.jobs, Settings.natBelow? Settings.countBound value with
      | .none, some n => .ok { o with jobs := some n }
      | _, _ => .error .usage

/-- Whether an argument is read as an option. A lone dash is a value. -/
def looksLikeOption (argument : String) : Bool :=
  argument.toList.head? == some '-' && argument != "-"

/-- What an option leaves to do: nothing, or to find a value in the next argument. -/
inductive Pending
  | done (o : Options)
  | valueFor (s : Setting) (o : Options)

/-- Read a long option: its name, and the text after an equals sign. -/
def readLong (name : String) (value : Option String) (o : Options) : Except Stop Pending :=
  match long? name, value with
  | some (.flag f), .none => (addFlag f o).map .done
  | some (.setting s), some value => (addValue s value o).map .done
  | some (.setting s), .none => .ok (.valueFor s o)
  | some .version, .none => .error .version
  | some .help, .none => .error .help
  | _, _ => .error .usage

/-- Read a cluster of short options. -/
def readShorts : List Char → Options → Except Stop Pending
  | [], o => .ok (.done o)
  | name :: rest, o =>
      match short? name with
      | .none => .error .usage
      | some .version => .error .version
      | some .help => .error .help
      | some (.flag f) =>
          match addFlag f o with
          | .error stop => .error stop
          | .ok next => readShorts rest next
      | some (.setting s) =>
          match rest with
          | [] => .ok (.valueFor s o)
          | '=' :: value => (addValue s (String.ofList value) o).map .done
          | value => (addValue s (String.ofList value) o).map .done

/-- Read one argument that looks like an option. -/
def readOption (argument : String) (o : Options) : Except Stop Pending :=
  match argument.toList with
  | '-' :: '-' :: text =>
      let name := String.ofList (text.takeWhile (· != '='))
      match text.dropWhile (· != '=') with
      | [] => readLong name .none o
      | _ :: value => readLong name (some (String.ofList value)) o
  | _ :: cluster => readShorts cluster o
  | [] => .error .usage

/-- Read arguments from left to right. -/
def readFrom : List String → Options → Except Stop Options
  | [], o => .ok o
  | argument :: rest, o =>
      if argument = "--" then addPaths rest o
      else if looksLikeOption argument then
        match readOption argument o with
        | .error stop => .error stop
        | .ok (.done next) => readFrom rest next
        | .ok (.valueFor s next) =>
            match rest with
            | [] => .error .usage
            | value :: more =>
                if looksLikeOption value then .error .usage
                else match addValue s value next with
                  | .error stop => .error stop
                  | .ok last => readFrom more last
      else match addPath argument o with
        | .error stop => .error stop
        | .ok next => readFrom rest next

/-- Whether two flags exclude each other. -/
def conflicts (o : Options) : Bool :=
  (o.has .check && o.has .diff) || (o.has .backup && o.has .noBackup) ||
    (o.has .verbose && o.has .quiet)

/-- Read the arguments of a run. -/
def read (arguments : List String) : Except Stop Options :=
  match readFrom arguments Options.none with
  | .error stop => .error stop
  | .ok o => if conflicts o then .error .usage else .ok o

end TaskTidy.CommandLine

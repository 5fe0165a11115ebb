import TaskTidy.Settings.Route
import TaskTidy.Toml.Reader

/-!
# Layers of configuration

A configuration is a stack of tables. A higher layer is laid over a lower one key by key: tables
merge and everything else is replaced. Overrides are single values at the end of a route, laid over
all layers. A backend reads the files and merges the tables; the standard one takes the keys at the
top of a file for routes too.
-/

namespace TaskTidy

namespace Toml

mutual

/-- The entries of a table laid over those of a lower one. -/
def Entries.over : Entries → Entries → Entries
  | .nil, base => base
  | .cons key value rest, base =>
      let key := Settings.foldKey key
      rest.over (base.set key (value.over (base.get? key)))

/-- A value laid over the value that a lower layer may have. An empty table leaves that value alone.
-/
def Value.over : Value → Option Value → Value
  | .table .nil, some old => old
  | .table entries, some (.table old) => .table (entries.over old)
  | .table entries, _ => .table (entries.over .nil)
  | value, _ => value

end

/-- The place in an array of some length that an index means. -/
def placeOf (n : Int) (length : Nat) : Nat :=
  if 0 ≤ n then n.toNat else length - n.natAbs

/-- Put a value at a place of an array, which grows if it is too short. -/
def fill (items : List Value) (place : Nat) (value : Value) : List Value :=
  (items ++ List.replicate (place + 1 - items.length) Value.missing).set place value

/-- Lay a value over the place that the steps lead to from an old value. Whatever does not fit a
step gives way to an empty table or array. -/
def Value.layAt (value : Value) : List Settings.Step → Option Value → Value
  | [], old => value.over old
  | .key key :: rest, old =>
      let t := (old.getD .missing).entries
      .table (t.set key (layAt value rest (t.get? key)))
  | [.index n], old =>
      let items := (old.getD .missing).items
      .array (fill items (placeOf n items.length) value)
  | .index n :: next :: rest, old =>
      let items := (old.getD .missing).items
      let place := placeOf n items.length
      .array (fill items place (layAt value (next :: rest) items[place]?))

/-- Lay a value over the place at the end of a route. -/
def Entries.layAt (route : Settings.Route) (value : Value) (t : Entries) : Entries :=
  t.set route.first (value.layAt route.steps (t.get? route.first))

end Toml

namespace Settings

/-- Lay a configuration file over a table. A key at its top that is a route leads to the place of
its value. -/
def layFile : Toml.Entries → Toml.Entries → Toml.Entries
  | .nil, base => base
  | .cons key value rest, base =>
      layFile rest (base.layAt ((Route.read? key).getD ⟨foldKey key, []⟩) value)

/-- Why there are no settings. -/
inductive Failure
  | missingFile
  | malformedFile
  | malformedRoute (text : String)
  | missingKey (key : String)
  | wrongType (key : String)
  deriving DecidableEq, Repr

/-- The wording of a failure. -/
def Failure.message : Failure → String
  | .missingFile => "configuration file not found"
  | .malformedFile => "configuration file is malformed"
  | .malformedRoute text => s!"malformed route '{text}'"
  | .missingKey key => s!"missing setting '{key}'"
  | .wrongType key => s!"invalid value for setting '{key}'"

/-- What reads the text of a configuration file, and what merges the tables of the sources, the
lowest first, with overrides at the end of routes. -/
structure Backend where
  parse? : List Char → Option Toml.Entries
  merge : List Toml.Entries → List (String × Toml.Value) → Except Failure Toml.Entries

/-- A configuration file: its text, if it is there, and whether it has to be. -/
structure Layer where
  text? : Option (List Char)
  isRequired : Bool

/-- The table of a layer. An optional file that is missing adds nothing. -/
def Layer.entries (b : Backend) (layer : Layer) : Except Failure Toml.Entries :=
  match layer.text? with
  | none => if layer.isRequired then .error .missingFile else .ok .nil
  | some text =>
      match b.parse? text with
      | none => .error .malformedFile
      | some entries => .ok entries

/-- The tables of layers. -/
def tables (b : Backend) : List Layer → Except Failure (List Toml.Entries)
  | [] => .ok []
  | layer :: rest =>
      match layer.entries b with
      | .error cause => .error cause
      | .ok entries =>
          match tables b rest with
          | .error cause => .error cause
          | .ok more => .ok (entries :: more)

/-- Lay overrides over a table, in order. -/
def layOverrides : List (String × Toml.Value) → Toml.Entries → Except Failure Toml.Entries
  | [], base => .ok base
  | (text, value) :: rest, base =>
      match Route.read? text with
      | none => .error (.malformedRoute text)
      | some route => layOverrides rest (base.layAt route value)

/-- The overrides that count: of several with the same text the last one. -/
def lastOverrides : List (String × Toml.Value) → List (String × Toml.Value)
  | [] => []
  | override :: rest =>
      if rest.any fun later => later.1 == override.1 then lastOverrides rest
      else override :: lastOverrides rest

/-- Lay sources over each other, the last on top, and the overrides over all of them. -/
def mergeRouted (sources : List Toml.Entries) (overrides : List (String × Toml.Value)) :
    Except Failure Toml.Entries :=
  layOverrides (lastOverrides overrides) (sources.foldl (fun base t => layFile t base) .nil)

/-- The backend that reads whole files and takes their keys at the top for routes. -/
def Backend.standard : Backend :=
  ⟨Toml.read?, mergeRouted⟩

end Settings

end TaskTidy

import TaskTidy.Text.Blank
import TaskTidy.Toml.Value

/-!
# Routes into a configuration

A route leads from the root table to a place below it, by keys of tables and indexes of arrays, as
in `rules.enabled[0]`. Keys are compared without regard to case: they are kept in lowercase.
-/

namespace TaskTidy.Settings

/-- The lowercase form of a key. Only keys of ASCII letters are ever read, so no other letter counts
but the Kelvin sign, whose lowercase form is `k`. -/
def foldKey (key : String) : String :=
  String.ofList (key.toList.map fun c => if c = '\u212A' then 'k' else c.toLower)

/-- A step of a route. -/
inductive Step
  | key (name : String)
  /-- A place of an array, counted from its end if it is negative. -/
  | index (n : Int)
  deriving DecidableEq, Repr

/-- A route starts with a key of the root table. -/
structure Route where
  first : String
  steps : List Step
  deriving DecidableEq, Repr

namespace Route

/-- Characters of a key in a route. -/
def isKeyChar (c : Char) : Bool :=
  c.isAlphanum || c == '_' || c == '-' || c == ' '

/-- The key at the start of a text. -/
def key? (s : List Char) : Option (String × List Char) :=
  let key := s.takeWhile isKeyChar
  if key.isEmpty then none else some (String.ofList key, s.dropWhile isKeyChar)

/-- The number of indexes that are not negative. -/
def indexBound : Nat := 0x8000000000000000

/-- An index in brackets, after the opening one. -/
def index? (s : List Char) : Option (Int × List Char) :=
  let s := s.dropWhile Text.isIndent
  let (negative, s) := match s with
    | '-' :: rest => (true, rest)
    | _ => (false, s)
  let digits := s.takeWhile Char.isDigit
  let n := digits.foldl (fun sum d => sum * 10 + (d.toNat - 48)) 0
  match (s.dropWhile Char.isDigit).dropWhile Text.isIndent with
  | ']' :: rest =>
      if digits.isEmpty then none
      else if negative then if n ≤ indexBound then some (-(n : Int), rest) else none
      else if n < indexBound then some (n, rest)
      else none
  | _ => none

/-- The steps after the first key. Every step takes a character at least. -/
def steps? : Nat → List Char → Option (List Step)
  | _, [] => some []
  | 0, _ :: _ => none
  | fuel + 1, c :: rest =>
      if c = '.' then
        match key? rest with
        | none => none
        | some (key, more) => (steps? fuel more).map (.key (foldKey key) :: ·)
      else if c = '[' then
        match index? rest with
        | none => none
        | some (n, more) => (steps? fuel more).map (.index n :: ·)
      else none

/-- Read a route. -/
def read? (text : String) : Option Route :=
  match key? text.toList with
  | none => none
  | some (key, rest) => (steps? rest.length rest).map fun steps => ⟨foldKey key, steps⟩

end Route

end TaskTidy.Settings

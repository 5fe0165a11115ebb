import TaskTidy.Text.Search

/-!
# Paths

A path is read as its components. Repeated and trailing slashes and inner dots separate nothing; a
leading dot is a component of its own, and so is every double dot. Paths are ordered component by
component.
-/

namespace TaskTidy

namespace Path

/-- A step of a path. -/
inductive Component
  | root
  | current
  | parent
  | name (text : String)
  deriving DecidableEq, Repr

namespace Component

/-- The components before names: the root, the current directory, the parent directory. -/
def rank : Component → Nat
  | .root => 0
  | .current => 1
  | .parent => 2
  | .name _ => 3

/-- Compare two components, names by their code points. -/
def order : Component → Component → Ordering
  | .name a, .name b => compare a b
  | a, b => compare a.rank b.rank

/-- The name of a normal component. -/
def name? : Component → Option String
  | .name text => some text
  | _ => none

end Component

/-- The component of a piece between slashes; `first` tells whether the path starts with it. -/
def component? (first : Bool) (piece : List Char) : Option Component :=
  if piece.isEmpty then if first then some .root else none
  else if piece = ['.'] then if first then some .current else none
  else if piece = ['.', '.'] then some .parent
  else some (.name (String.ofList piece))

/-- The components of a path. The empty path has none. -/
def components (path : String) : List Component :=
  if path.isEmpty then []
  else match Text.pieces '/' path.toList with
    | [] => []
    | first :: rest => (component? true first).toList ++ rest.filterMap (component? false)

/-- The last component, if it is a name. -/
def fileName? (path : String) : Option String :=
  (components path).getLast?.bind Component.name?

/-- The names of the directories above the last component. -/
def directoryNames (path : String) : List String :=
  (components path).dropLast.filterMap Component.name?

/-- The pieces between the slashes of a path, without those at its end that are empty or a single
dot. The first piece stays. -/
def trimPieces (pieces : List (List Char)) : List (List Char) :=
  match pieces with
  | [] => []
  | first :: rest =>
      first :: (rest.reverse.dropWhile fun piece => piece.isEmpty || piece == ['.']).reverse

/-- A path whose last component is a file name, with a suffix added to that name. Whatever came
between the directory and the name gives way to one slash. -/
def withSuffix (path suffix : String) : String :=
  match (trimPieces (Text.pieces '/' path.toList)).reverse with
  | [] => suffix
  | [name] => String.ofList name ++ suffix
  | name :: directory =>
      let above := Text.joinWith ['/'] (trimPieces directory.reverse)
      String.ofList (above ++ '/' :: name) ++ suffix

/-- The text after the last dot of a file name, if something precedes that dot. -/
def extensionOf? (name : String) : Option String :=
  let cs := name.toList
  let ext := (cs.reverse.takeWhile (· != '.')).reverse
  if ext.length + 1 < cs.length then some (String.ofList ext) else none

/-- Compare two paths component by component. -/
def compareComponents : List Component → List Component → Ordering
  | [], [] => .eq
  | [], _ :: _ => .lt
  | _ :: _, [] => .gt
  | a :: as, b :: bs => (a.order b).then (compareComponents as bs)

/-- Whether the first path is not after the second. -/
def le (a b : String) : Bool :=
  (compareComponents (components a) (components b)).isLE

end Path

end TaskTidy

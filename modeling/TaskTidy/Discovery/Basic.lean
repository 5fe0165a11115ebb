import TaskTidy.Discovery.Walker
import TaskTidy.Settings.Basic

/-!
# Discovery

The files of a run are its arguments, with every directory replaced by the files found below it.
They are sorted as paths, and a path that is given twice is listed once.
-/

namespace TaskTidy.Discovery

/-- Whether a file name has one of the extensions. -/
def hasExtension (extensions : List String) (name : String) : Bool :=
  match Path.extensionOf? name with
  | none => false
  | some ext => extensions.contains ext

/-- The filter of a walk: it admits everything but directories with an excluded name. The directory
in which the walk starts may have any name. -/
def admits (s : DiscoverySettings) (e : Entry) : Bool :=
  e.depth == 0 || !e.isDirectory || !s.excludedDirectories.contains e.name

section

variable (w : Walker) (s : DiscoverySettings) (t : FileTree)

/-- The paths of the files that a walk of a directory argument lists. -/
def walk (path : String) : List String :=
  ((w s.respectGitignore (admits s) t path).filter fun e =>
    !e.isDirectory && hasExtension s.extensions e.name).map Entry.path

/-- The paths that one argument stands for. Whatever is no directory is kept as it is written. -/
def expand (path : String) : List String :=
  match t.locate path with
  | .error _ => [path]
  | .ok place => if t.isDirectory place then walk w s t path else [path]

end

/-- Keep the first of neighbours that are equal as paths, where `path` comes before the list. -/
def dedupFrom (path : String) : List String → List String
  | [] => [path]
  | next :: rest =>
      if Path.components path = Path.components next then dedupFrom path rest
      else path :: dedupFrom next rest

/-- Keep the first of neighbours that are equal as paths. -/
def dedup : List String → List String
  | [] => []
  | path :: rest => dedupFrom path rest

/-- The files of a run, sorted and without repetitions. -/
def discover (w : Walker) (s : DiscoverySettings) (t : FileTree) (arguments : List String) :
    List String :=
  dedup ((arguments.flatMap (expand w s t)).mergeSort Path.le)

end TaskTidy.Discovery

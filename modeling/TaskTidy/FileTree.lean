import TaskTidy.Path
import TaskTidy.Text.Utf8

/-!
# File trees

A file tree holds the bytes of each file under its place: the names of the directories from the root
down to it, and its own. What lies above a file is a directory, and so is the working directory with
what lies above it; a directory without files is listed. Paths start at the root or at the working
directory and are resolved step by step, as an operating system does.
-/

namespace TaskTidy

/-- A place in a tree, from the root down. -/
abbrev Place := List String

/-- A file system without links: its files, each at its own place, the directories that are there
even if they hold no file, and the working directory. -/
structure FileTree where
  files : List (Place × List UInt8)
  directories : List Place := []
  start : Place := []
  deriving DecidableEq

namespace FileTree

/-- Why an operation on files fails. -/
inductive Failure
  | notFound
  | notDirectory
  | isDirectory
  | busy
  | nameTooLong
  | nameWithNul
  deriving DecidableEq, Repr

/-- The wording of a failure. -/
def Failure.message : Failure → String
  | .notFound => "No such file or directory (os error 2)"
  | .notDirectory => "Not a directory (os error 20)"
  | .isDirectory => "Is a directory (os error 21)"
  | .busy => "Device or resource busy (os error 16)"
  | .nameTooLong => "File name too long (os error 36)"
  | .nameWithNul => "file name contained an unexpected NUL byte"

/-- The most bytes that a name may have. -/
def nameLimit : Nat := 255

/-- The most bytes that a path may have. -/
def pathLimit : Nat := 4095

/-- The bytes of the file at a place. -/
def bytesAt? (t : FileTree) (place : Place) : Option (List UInt8) :=
  (t.files.find? fun file => file.1 == place).map Prod.snd

/-- Whether a file lies at a place. -/
def isFile (t : FileTree) (place : Place) : Bool :=
  (t.bytesAt? place).isSome

/-- Whether a place is a directory: the working directory, one that is listed, or what lies above
such a directory or above a file. -/
def isDirectory (t : FileTree) (place : Place) : Bool :=
  ((t.start :: t.directories).any fun directory => place.isPrefixOf directory) ||
    t.files.any fun file => place.isPrefixOf file.1 && file.1 != place

/-- The places on the way from the root to a place, the first name first and the place itself last.
-/
def wayTo : Place → List Place
  | [] => []
  | name :: rest => [name] :: (wayTo rest).map (name :: ·)

/-- The places of all directories. -/
def allDirectories (t : FileTree) : List Place :=
  [] :: ((t.start :: t.directories ++ t.files.map fun file => file.1.dropLast).flatMap
    wayTo).eraseDups

/-- Take one step of a path from a place that exists. Above the root is the root again. -/
def step (t : FileTree) (place : Place) (piece : List Char) : Except Failure Place :=
  if !t.isDirectory place then .error .notDirectory
  else if piece.isEmpty || piece == ['.'] then .ok place
  else if piece == ['.', '.'] then .ok place.dropLast
  else
    let next := place ++ [String.ofList piece]
    if nameLimit < Text.Utf8.size piece then .error .nameTooLong
    else if t.isFile next || t.isDirectory next then .ok next
    else .error .notFound

/-- Take the steps of a path one after the other. -/
def walk (t : FileTree) : Place → List (List Char) → Except Failure Place
  | place, [] => .ok place
  | place, piece :: rest =>
      match t.step place piece with
      | .error cause => .error cause
      | .ok next => walk t next rest

/-- The place from which the steps of a path are taken: the root if the path starts with a slash. -/
def origin (t : FileTree) (path : String) : Place :=
  if path.toList.head? = some '/' then [] else t.start

/-- The place a path leads to. -/
def locate (t : FileTree) (path : String) : Except Failure Place :=
  if pathLimit < path.utf8ByteSize then .error .nameTooLong
  else if path.isEmpty then .error .notFound
  else t.walk (t.origin path) (Text.pieces '/' path.toList)

/-- Whether a path leads to a file. -/
def isFilePath (t : FileTree) (path : String) : Bool :=
  match t.locate path with
  | .error _ => false
  | .ok place => t.isFile place

/-- The place and the bytes of the file that a path leads to. -/
def open? (t : FileTree) (path : String) : Except Failure (Place × List UInt8) :=
  match t.locate path with
  | .error cause => .error cause
  | .ok place =>
      match t.bytesAt? place with
      | none => .error .isDirectory
      | some bytes => .ok (place, bytes)

/-- Put bytes into the file at a place, in the order of the tree if the file is there. -/
def putIn (place : Place) (bytes : List UInt8) :
    List (Place × List UInt8) → List (Place × List UInt8)
  | [] => [(place, bytes)]
  | file :: rest =>
      if file.1 = place then (place, bytes) :: rest else file :: putIn place bytes rest

/-- Write a file. -/
def write (t : FileTree) (place : Place) (bytes : List UInt8) : FileTree :=
  { t with files := putIn place bytes t.files }

/-- Remove the file at a place. -/
def remove (t : FileTree) (place : Place) : FileTree :=
  { t with files := t.files.filter fun file => file.1 != place }

/-- The place that a file gets at a new path. The directories on the way must exist, and the path
must end in a file name. -/
def target (t : FileTree) (path : String) : Except Failure Place :=
  if path.toList.contains '\x00' then .error .nameWithNul
  else if pathLimit < path.utf8ByteSize then .error .nameTooLong
  else
    let pieces := Text.pieces '/' path.toList
    match t.walk (t.origin path) pieces.dropLast with
    | .error cause => .error cause
    | .ok place =>
        let last := pieces.getLast?.getD []
        if !t.isDirectory place || last.isEmpty then .error .notDirectory
        else if last == ['.'] || last == ['.', '.'] then .error .busy
        else if nameLimit < Text.Utf8.size last then .error .nameTooLong
        else
          let next := place ++ [String.ofList last]
          if t.isDirectory next then .error .isDirectory else .ok next

/-- Move the file at a place to a new path, over a file that is there. -/
def rename (t : FileTree) (source : Place) (path : String) : Except Failure FileTree :=
  match t.bytesAt? source with
  | none => .error .notFound
  | some bytes =>
      match t.target path with
      | .error cause => .error cause
      | .ok place =>
          if place = source then .ok t else .ok ((t.remove source).write place bytes)

@[simp]
theorem bytesAt?_write_self (t : FileTree) (place : Place) (bytes : List UInt8) :
    (t.write place bytes).bytesAt? place = some bytes := by
  obtain ⟨files, directories, start⟩ := t
  simp only [write, bytesAt?]
  induction files with
  | nil => simp [putIn]
  | cons file rest ih =>
      unfold putIn
      split
      · simp
      · next h => simpa [h] using ih

theorem bytesAt?_write_of_ne (t : FileTree) {place other : Place} (bytes : List UInt8)
    (h : other ≠ place) : (t.write place bytes).bytesAt? other = t.bytesAt? other := by
  obtain ⟨files, directories, start⟩ := t
  simp only [write, bytesAt?]
  induction files with
  | nil => simp [putIn, Ne.symm h]
  | cons file rest ih =>
      unfold putIn
      split
      · next hf => simp [hf, Ne.symm h]
      · by_cases ho : file.1 = other
        · simp [ho]
        · simpa [ho] using ih

end FileTree

end TaskTidy

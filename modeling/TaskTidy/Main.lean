import TaskTidy.CommandLine.Run

/-!
# The program

The files below the working directory are read, and with them those that share a directory with a
path of the arguments. The run is computed, and the files that differ afterwards are written.
-/

namespace TaskTidy.CommandLine

/-- The files and directories that the arguments may lead to. -/
def readTree (arguments : List String) : IO FileTree := do
  let start ← IO.currentDir
  let mut roots := #[start]
  for argument in arguments do
    let path := start / argument
    if ← path.pathExists then
      let real ← IO.FS.realPath path
      let root := if ← real.isDir then real else real.parent.getD real
      unless roots.contains root do roots := roots.push root
  let tops := roots.filter fun root => !roots.any fun other =>
    other != root && other.components.isPrefixOf root.components
  let mut files : Array (Place × List UInt8) := #[]
  let mut directories : Array Place := #[]
  for top in tops do
    for path in ← top.walkDir do
      let place := path.components.drop 1
      if ← path.isDir then directories := directories.push place
      else files := files.push (place, (← IO.FS.readBinFile path).toList)
  return ⟨files.toList, directories.toList, start.components.drop 1⟩

/-- Write the files that differ from those before. -/
def writeTree (before after : FileTree) : IO Unit := do
  for (place, bytes) in after.files do
    if before.bytesAt? place != some bytes then
      IO.FS.writeBinFile ("/" ++ "/".intercalate place) (ByteArray.mk bytes.toArray)

/-- The paths among the arguments. -/
def pathsOf (arguments : List String) : List String :=
  match read arguments with
  | .error _ => []
  | .ok o => o.paths ++ o.config.toList

end TaskTidy.CommandLine

open TaskTidy CommandLine in
/-- Run the program on the working directory. -/
def main (arguments : List String) : IO UInt32 := do
  let tree ← readTree (pathsOf arguments)
  let result := run .standard tree arguments
  writeTree tree result.tree
  IO.print result.output
  match result.failure? with
  | none => pure ()
  | some cause => IO.eprintln (programName ++ ": " ++ cause.message)
  return result.code.toUInt32

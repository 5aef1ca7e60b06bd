import HostBindings.CommandLine.Command

/-!
The command line: takes the files that a run may touch from the disk, runs the command on them as
a value, and brings the disk to what came out.
-/

namespace HostBindings.Disk

/-- The name of a place on the disk. -/
def nameOf (place : Place) : String := (Path.toText { root := "/", parts := place }).toString

/-- Takes in what stands at a place and below it. -/
partial def loadBelow (place : Place) (t : FileTree) : IO FileTree := do
  let path := (← IO.currentDir) / nameOf place
  if ← path.isDir then
    let mut t := t.put place .directory
    for entry in ← path.readDir do
      t ← loadBelow (place ++ [Text.ofString entry.fileName]) t
    return t
  else if ← path.pathExists then
    let bytes ← IO.FS.readBinFile path
    return t.put place (.file bytes.toList)
  else return t

/-- Takes in a directory without what stands below it. -/
def mark (t : FileTree) (place : Place) : IO FileTree := do
  let path := (← IO.currentDir) / nameOf place
  return if ← path.isDir then t.put place .directory else t

/-- Takes in the directories along a path, and what stands at its end. -/
def loadAlong (t : FileTree) (place : Place) : List Text → IO FileTree
  | [] => loadBelow place t
  | part :: rest => do
    let t ← mark t place
    loadAlong t (if part = Path.climb then place.dropLast else place ++ [part]) rest

/-- The files that a run between two paths may touch. -/
def load (home : Place) (paths : List Path) : IO FileTree := do
  let mut t : FileTree := { home }
  for n in List.range (home.length + 1) do
    t ← mark t (home.take n)
  for p in paths do
    t ← loadAlong t (if p.isAbsolute then [] else home) p.parts
  return t

/-- Brings the disk from one tree to another. -/
def save (before after : FileTree) : IO Unit := do
  for (place, node) in after.entries do
    if node = .directory && before.node? place != some .directory then
      IO.FS.createDirAll (nameOf place)
  for (place, node) in after.entries do
    match node with
    | .directory => pure ()
    | .file bytes =>
      if before.node? place != some node then
        IO.FS.writeBinFile (nameOf place) (ByteArray.mk bytes.toArray)
  for (place, node) in before.entries do
    if node != .directory && (after.node? place).isNone then
      IO.FS.removeFile (nameOf place)

/-- The paths that the arguments name. -/
def pathsOf (argv : List Text) : List Path :=
  match CommandLine.Arguments.parse argv with
  | .ok a => a.source :: a.dest.toList
  | .error _ => []

/-- How the command is called. -/
def usage : String :=
  "usage: [-h] [--module-suffix SUFFIX] [--no-catalog-uses] [-j JOBS] [--json] [-v] source dest"

/-- Why a run ended early. -/
def explain : RunError → String
  | .path .missing => "a file or directory is missing"
  | .path .occupied => "a file is where a directory has to be"
  | .path .notDirectory => "a path leads through a file"
  | .path .isDirectory => "a directory is where a file has to be"
  | .path .tooLong => "a path or a part of one is too long"
  | .path .holdsZero => "a path holds the code point zero"
  | .path .unencodable => "a path or a text holds a code point without bytes"
  | .fault .missingValue => "a value is missing"
  | .fault _ => "a source holds a value that cannot be handled"

end HostBindings.Disk

open HostBindings in
def main (args : List String) : IO UInt32 := do
  let argv := args.map Text.ofString
  let home := (Path.ofText (Text.ofString (toString (← IO.currentDir)))).parts
  let before ← Disk.load home (Disk.pathsOf argv)
  match CommandLine.command argv { files := before } with
  | .error e s =>
    Disk.save before s.files
    IO.eprintln (Disk.explain e)
    return 1
  | .ok (.usage code) _ =>
    if code = 0 then IO.println Disk.usage else IO.eprintln Disk.usage
    return code.toUInt32
  | .ok (.finished code output errors) s =>
    Disk.save before s.files
    IO.print output.toString
    IO.eprint errors.toString
    return code.toUInt32

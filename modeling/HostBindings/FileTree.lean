import HostBindings.Ordered
import HostBindings.Path

/-!
Trees of files as values.
-/

namespace HostBindings

/-- A place in a tree: the names that lead to it from the root. -/
abbrev Place := List Text

inductive FileNode
  | directory
  | file (bytes : List UInt8)
deriving DecidableEq, Repr

/-- Why a path cannot be used. -/
inductive PathError
  | missing
  | occupied
  | notDirectory
  | isDirectory
  /-- The path, or a part that has to be looked up, has too many bytes. -/
  | tooLong
  /-- The path holds the code point zero, which ends a path for the system. -/
  | holdsZero
  /-- The path, or what is to be written, holds a code point without bytes. -/
  | unencodable
deriving DecidableEq, Repr

/-- Files and directories by their places. The root is always a directory and has no entry. -/
structure FileTree where
  /-- The place that relative paths start from. -/
  home : Place := []
  entries : List (Place × FileNode) := []
deriving Repr

namespace FileTree

def node? (t : FileTree) (place : Place) : Option FileNode :=
  if place = [] then some .directory else t.entries.lookup place

/-- Follows the parts of a path; each place that is left has to be a directory. -/
def walk (t : FileTree) (place : Place) : List Text → Except PathError Place
  | [] => .ok place
  | part :: rest =>
    match t.node? place with
    | none => .error .missing
    | some (.file _) => .error .notDirectory
    | some .directory =>
      if Path.maxPartBytes < Path.byteCount part then .error .tooLong
      else t.walk (if part = Path.climb then place.dropLast else place ++ [part]) rest

/-- The place of a path. There may be nothing there yet. -/
def locate (t : FileTree) (p : Path) : Except PathError Place :=
  let written := p.toText
  if !Path.isEncodable written then .error .unencodable
  else if written.contains '\x00' then .error .holdsZero
  else if Path.maxBytes < Path.byteCount written then .error .tooLong
  else t.walk (if p.isAbsolute then [] else t.home) p.parts

/-- What stands at a path. Nothing stands at one that leads nowhere; one that is too long cannot
be asked about. -/
def look (t : FileTree) (p : Path) : Except PathError (Option FileNode) :=
  match t.locate p with
  | .ok place => .ok (t.node? place)
  | .error .tooLong => .error .tooLong
  | .error _ => .ok none

def contains (t : FileTree) (p : Path) : Except PathError Bool := do
  return (← t.look p).isSome

def isDirectory (t : FileTree) (p : Path) : Except PathError Bool := do
  return (← t.look p) = some .directory

def isFile (t : FileTree) (p : Path) : Except PathError Bool := do
  match ← t.look p with
  | some (.file _) => return true
  | _ => return false

/-- The bytes of the file at a path. -/
def read? (t : FileTree) (p : Path) : Option (List UInt8) :=
  match t.look p with
  | .ok (some (.file bytes)) => some bytes
  | _ => none

/-- Puts a node at a place, instead of what stood there. -/
def put (t : FileTree) (place : Place) (node : FileNode) : FileTree :=
  { t with entries := (place, node) :: t.entries.filter fun e => e.1 != place }

/-- Takes away what stands at a place and below it. -/
def clear (t : FileTree) (place : Place) : FileTree :=
  { t with entries := t.entries.filter fun e => !place.isPrefixOf e.1 }

/-- The places below a directory, counted from it, by names in code point order. -/
def placesBelow (t : FileTree) (p : Path) : List Place :=
  match t.locate p with
  | .error _ => []
  | .ok place =>
    Ordered.ofList (t.entries.filterMap fun e =>
      if place.isPrefixOf e.1 && place.length < e.1.length then some (e.1.drop place.length)
      else none)

/-- A change of a tree. One that ends early keeps what it has done. -/
abbrev Change := EStateM PathError FileTree Unit

namespace Change

/-- Writes a file; its directory has to be there. -/
def write (p : Path) (bytes : List UInt8) : Change := do
  let t ← get
  let place ← ofExcept (t.locate p)
  match t.node? place with
  | some .directory => throw .isDirectory
  | _ => set (t.put place (.file bytes))

/-- Writes a text. One without bytes leaves the file empty. -/
def writeText (p : Path) (t : Text) : Change := do
  write p []
  if t.any CodePoint.isSurrogate then throw .unencodable
  write p (Text.Utf8.encode t)

/-- Writes a text after what is in a file. -/
def appendText (p : Path) (t : Text) : Change := do
  let before := ((← get).read? p).getD []
  if t.any CodePoint.isSurrogate then throw .unencodable
  write p (before ++ Text.Utf8.encode t)

/-- Takes away a file, if there is one. -/
def discard (p : Path) : Change := do
  let t ← get
  if ← ofExcept (t.isFile p) then
    let place ← ofExcept (t.locate p)
    set (t.clear place)

/-- Takes away a file or a directory with all below it. -/
def remove (p : Path) : Change := do
  let t ← get
  let place ← ofExcept (t.locate p)
  match t.node? place with
  | none => throw .missing
  | some _ => set (t.clear place)

/-- Makes a directory; the one above has to be there. -/
def makeDirectory (p : Path) : Change := do
  let t ← get
  let place ← ofExcept (t.locate p)
  match t.node? place with
  | some _ => throw .occupied
  | none => set (t.put place .directory)

/-- Makes a directory unless it is there. -/
def ensureDirectory (p : Path) : Change :=
  tryCatch (makeDirectory p) fun e => do
    let t ← get
    if ← ofExcept (t.isDirectory p) then return
    throw e

/-- Makes a directory and those above it that are missing; the parts are given last one first. -/
def ensureAll (root : Text) : List Text → Change
  | [] => pure ()
  | part :: above =>
    let p : Path := { root, parts := (part :: above).reverse }
    tryCatch (ensureDirectory p) fun
      | .missing => do
        ensureAll root above
        ensureDirectory p
      | e => throw e

/-- Makes a directory and those above it, unless they are there. -/
def makeDirectories (p : Path) : Change := ensureAll p.root p.parts.reverse

end Change

end FileTree

end HostBindings

import HostBindings.ModuleTree.Layout
import HostBindings.ModuleTree.Session
import HostBindings.Text.Utf8

/-!
Parent modules: the files that list the modules of a directory.

A directory's modules are listed in its own parent file, or in the module file of the same name
beside the directory if there is one, after that file's own text. Only modules whose files are
there are listed.
-/

namespace HostBindings.ModuleTree

/-- The parent file of a directory. -/
def parentFile (directory : Path) : Path := directory.child parentName

/-- The module file of a directory's name, beside the directory. -/
def siblingFile (directory : Path) : Path :=
  directory.parent.child (directory.name ++ moduleEnding)

/-- Whether the modules of a directory are listed beside it. -/
def listsBeside (m : ModuleTree) (directory : Path) (files : FileTree) :
    Except PathError Bool :=
  if directory = m.dest then return false else files.isFile (siblingFile directory)

/-- Where the file of a module is, from its directory: a file of its own or a parent file. -/
def moduleFile? (files : FileTree) (directory : Path) (name : Text) :
    Except PathError (Option Text) := do
  if ← files.isFile (directory.child (name ++ moduleEnding)) then
    return some (name ++ moduleEnding)
  else if ← files.isFile (parentFile (directory.child name)) then
    return some (name ++ "/" ++ parentName)
  else return none

/-- The entry of a module: three lines. -/
def entry (m : ModuleTree) (location name : Text) : Text :=
  "#[path = \"" ++ location ++ "\"]\n#[allow(non_snake_case)]\npub mod " ++
    m.options.scopeName name ++ ";\n"

/-- The entries for a directory; locations start with `lead`. -/
def entries (m : ModuleTree) (directory : Path) (lead : Text) (names : List Text)
    (files : FileTree) : Except PathError Text := do
  let texts ← names.mapM fun name => do
    match ← moduleFile? files directory name with
    | some location => return m.entry (lead ++ location) name
    | none => return []
  return texts.flatten

/-- Lists the modules of a directory; without any the files stay as they are. -/
def writeParent (m : ModuleTree) (directory : Path) : Run Unit := do
  let s ← get
  let names := s.children.namesIn directory
  if ← Run.ask (m.listsBeside directory) then
    let text ← Run.ask (m.entries directory (directory.name ++ "/") names)
    if text.isEmpty then return
    Run.change (.appendText (siblingFile directory) ("\n" ++ text))
  else
    let text ← Run.ask (m.entries directory [] names)
    if text.isEmpty then return
    Run.change (.writeText (parentFile directory) text)

/-- The order of writing: deeper directories first, so that their files are there when the one
above looks for them; then by name. -/
def writesBefore (a b : Path) : Bool :=
  b.parts.length < a.parts.length ||
    a.parts.length == b.parts.length && !decide ((parentFile b).toText < (parentFile a).toText)

/-- Lists the modules of all directories. -/
def writeParents (m : ModuleTree) : Run Unit := do
  let s ← get
  (s.children.directories.mergeSort writesBefore).forM m.writeParent

end HostBindings.ModuleTree

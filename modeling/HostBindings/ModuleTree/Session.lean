import HostBindings.Failure
import HostBindings.FileTree

/-!
Sessions: what a run reads and changes. A run that ends early keeps what it has changed.
-/

namespace HostBindings

/-- Modules by the directory that has to list them, each once. -/
abbrev Children := List (Path × Text)

namespace Children

/-- Adds a module to those of a directory. -/
def record (children : Children) (directory : Path) (name : Text) : Children :=
  if children.contains (directory, name) then children else children ++ [(directory, name)]

/-- The modules of a directory, in code point order. -/
def namesIn (children : Children) (directory : Path) : List Text :=
  Ordered.ofList ((children.filter fun c => c.1 = directory).map (·.2))

/-- The directories that have modules, each once. -/
def directories (children : Children) : List Path := (children.map (·.1)).eraseDups

end Children

/-- The files, and the modules that directories have to list. -/
structure Session where
  files : FileTree
  children : Children := []

/-- Why a run ends early. -/
inductive RunError
  | path (e : PathError)
  | fault (f : Fault)
deriving DecidableEq, Repr

/-- A part of a run. -/
abbrev Run := EStateM RunError Session

namespace Run

/-- The files as they are now. -/
def files : Run FileTree := do
  let s ← get
  return s.files

/-- Asks something about the files. -/
def ask {α : Type} (question : FileTree → Except PathError α) : Run α := do
  match question (← files) with
  | .ok a => return a
  | .error e => throw (.path e)

/-- Changes the files. -/
def change (c : FileTree.Change) : Run Unit := do
  let s ← get
  match c.run s.files with
  | .ok _ files => set { s with files := files }
  | .error e files =>
    set { s with files := files }
    throw (.path e)

/-- Keeps the reason why a part ended early instead of ending the run. -/
def settle {α : Type} (part : Run α) : Run (Except RunError α) :=
  tryCatch (Except.ok <$> part) fun e => return .error e

/-- Notes a module of a directory. -/
def record (directory : Path) (name : Text) : Run Unit :=
  modify fun s => { s with children := s.children.record directory name }

end Run

end HostBindings

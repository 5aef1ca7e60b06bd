import HostBindings.Options
import HostBindings.Path

/-!
The layout of an output tree: a file of modules for every source, at the same place below the
destination as the source has below its root.
-/

namespace HostBindings

/-- A tree of modules to make: from a directory of sources or a single one, below a destination. -/
structure ModuleTree where
  source : Path
  dest : Path
  options : Options

/-- A source file and the directories that lead to it from the root of the sources. -/
structure SourceFile where
  path : Path
  directory : List Text
deriving DecidableEq, Repr

namespace ModuleTree

/-- The ending of the names of source files. -/
def sourceEnding : Text := ".d.ts"

/-- The ending of the names of module files. -/
def moduleEnding : Text := ".rs"

/-- The name of the file that lists the modules of a directory. -/
def parentName : Text := "mod.rs"

/-- The name of a module: a file's name up to its first point. -/
def stem (p : Path) : Text := (p.name.split '.').headD []

/-- The file of a module's text. -/
def outputPath (m : ModuleTree) (unit : SourceFile) : Path :=
  (m.dest.below unit.directory).child (stem unit.path ++ moduleEnding)

/-- The first unit for each output. -/
abbrev Claims := List (Path × Path)

/-- Claims an output, unless an earlier unit holds it. -/
def claim (m : ModuleTree) (claims : Claims) (unit : SourceFile) : Claims :=
  if (claims.lookup (m.outputPath unit)).isSome then claims
  else claims ++ [(m.outputPath unit, unit.path)]

/-- The claims of units in order. -/
def claims (m : ModuleTree) (units : List SourceFile) : Claims := units.foldl m.claim []

/-- Another unit that holds the output of this one. -/
def otherHolder? (m : ModuleTree) (claims : Claims) (unit : SourceFile) : Option Path :=
  (claims.lookup (m.outputPath unit)).filter (· != unit.path)

end ModuleTree

end HostBindings

import HostBindings.Compile
import HostBindings.ModuleTree.ParentModules
import HostBindings.Text.Lines

/-!
A run: every source of a tree is compiled to its output, and then each directory lists its modules.

Units are independent. Outputs are claimed in the order of discovery before any unit is compiled,
so which of two units gets an output does not depend on the order of compilation. A unit that fails
leaves no output behind, also none of an earlier run.
-/

namespace HostBindings

/-- Why a unit fails before its source is looked at. -/
inductive UnitProblem
  | outputTaken (output holder : Path)
  | unreadable (unit : Path)
deriving DecidableEq, Repr

namespace UnitProblem

def message : UnitProblem → Text
  | outputTaken output holder =>
    "output " ++ output.toText ++ " is already produced by " ++ holder.toText
  -- the reason follows after a colon; its wording is the runtime's and is left out
  | unreadable unit => "cannot read " ++ unit.toText

def code : UnitProblem → Text
  | outputTaken _ _ => "E-OUTPUT"
  | unreadable _ => "E-READ"

/-- The result of a unit with a problem. -/
def result (unit : Path) (problem : UnitProblem) : UnitResult :=
  { file := some unit.toText, rust := none
    diagnostics :=
      [{ message := problem.message, code := some problem.code
         phase := some Phase.driving.label, span := { file := some unit.toText } }] }

end UnitProblem

namespace ModuleTree

/-- Takes in one place below the source: a directory is made below the destination too, and a
source file is a unit. -/
def visit (m : ModuleTree) (place : Place) : Run (List SourceFile) := do
  let path := m.source.below place
  if ← Run.ask (·.isDirectory path) then
    let directory := m.dest.below place
    Run.change (.makeDirectories directory)
    Run.record directory.parent path.name
    return []
  else if path.name.endsWith sourceEnding then return [⟨path, place.dropLast⟩]
  else return []

/-- The units below the source, in the order of their paths. -/
def discover (m : ModuleTree) : Run (List SourceFile) := do
  if ← Run.ask (·.isFile m.source) then
    return if m.source.name.endsWith sourceEnding then [⟨m.source, []⟩] else []
  else
    let files ← Run.files
    let units ← (files.placesBelow m.source).mapM m.visit
    return units.flatten

/-- The text of a source file. -/
def sourceText? (files : FileTree) (p : Path) : Option Text :=
  ((files.read? p).bind Text.Utf8.decode).map Text.unifyLineEnds

/-- Writes the output of a unit, or takes away an old one if the unit failed. -/
def store (output : Path) (result : UnitResult) : Run Unit :=
  match result.rust with
  | some rust =>
    if result.ok then do
      Run.change (.makeDirectories output.parent)
      Run.change (.writeText output rust)
    else Run.change (.discard output)
  | none => Run.change (.discard output)

/-- Compiles a unit. One whose output belongs to another unit fails and changes nothing. -/
def compileUnit (m : ModuleTree) (claims : Claims) (unit : SourceFile) : Run UnitResult := do
  let output := m.outputPath unit
  match m.otherHolder? claims unit with
  | some holder => return UnitProblem.result unit.path (.outputTaken output holder)
  | none =>
    Run.record output.parent (stem unit.path)
    let files ← Run.files
    match sourceText? files unit.path with
    | none =>
      Run.change (.discard output)
      return UnitProblem.result unit.path (.unreadable unit.path)
    | some text =>
      match compileSource m.options (some unit.path.toText) text with
      | .error fault => throw (.fault fault)
      | .ok result =>
        store output result
        return result

/-- Compiles units in order. If several are worked on at a time, one that ends the run does not
keep the others from being compiled. -/
def compileAll (m : ModuleTree) (units : List SourceFile) : Run (List UnitResult) := do
  let compile := m.compileUnit (m.claims units)
  if 1 < m.options.jobs then
    let results ← units.mapM fun unit => Run.settle (compile unit)
    results.mapM ofExcept
  else units.mapM compile

/-- Compiles every unit and lists the modules; results are in the order of discovery. -/
def run (m : ModuleTree) : Run (List UnitResult) := do
  Run.change (.makeDirectories m.dest)
  let units ← m.discover
  let results ← m.compileAll units
  m.writeParents
  return results

end ModuleTree

end HostBindings

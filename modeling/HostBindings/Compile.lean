import HostBindings.Composition.Unit
import HostBindings.Rust.Boundary
import HostBindings.Rust.Collision
import HostBindings.Rust.HostUses
import HostBindings.Rust.Printer
import HostBindings.Source.Reader

/-!
Compilation of one unit: from the text of a source to the text of its bindings.
-/

namespace HostBindings

open Rust

/-- The passes that make a composed unit fit to be written. -/
def finish (options : Options) (u : SourceUnit) : SourceUnit :=
  let u := u.resolveCollisions.legalize
  if options.emitCatalogUses then u.addHostUses options else u

/-- The unit of a module, ready to be written. -/
def compileModule (options : Options) (m : Source.Module) : Outcome SourceUnit := do
  let unit ← Composition.compose options m
  return finish options unit

/-- What the compilation of one source gives: the text, unless it failed, and what there is to
tell the user. -/
structure UnitResult where
  file : Option Text
  rust : Option Text
  diagnostics : List Diagnostic
deriving DecidableEq, Repr

/-- Whether there is a text and no error. -/
def UnitResult.ok (r : UnitResult) : Bool := r.rust.isSome && !r.diagnostics.any Diagnostic.isError

/-- The result of a unit that has no text. -/
def UnitResult.failed (file : Option Text) (warnings : List Warning) (failure : Failure) :
    UnitResult :=
  { file, rust := none
    diagnostics := warnings.map (Warning.toDiagnostic file) ++ [failure.toDiagnostic file] }

/-- Compiles a source. A failure becomes the last diagnostic. -/
def compileSource (options : Options) (file : Option Text) (source : Text) :
    Except Fault UnitResult := do
  match ← Source.Module.parse file source with
  | .error failure => return .failed file [] failure
  | .ok module =>
    let outcome := compileModule options module
    match outcome.result with
    | .error (.fault fault) => .error fault
    | .error (.failure failure) => return .failed file outcome.warnings failure
    | .ok unit =>
      let rust ← render unit
      return { file, rust := some rust
               diagnostics := outcome.warnings.map (Warning.toDiagnostic file) }

end HostBindings

import HostBindings.Catalog
import HostBindings.Specifier

/-!
Options of a run, and what makes them valid.
-/

namespace HostBindings

/-- Options as given. -/
structure Settings where
  /-- Appended to the names of namespaces and files to name their modules. -/
  moduleSuffix : Text := "Mod"
  /-- Path of the crate with the binding attribute. -/
  bindgenPath : List Text := ["wasm_bindgen"]
  /-- Crate with the language's host types. -/
  languageCrate : Text := "js_sys"
  /-- Crate with the browser's host types. -/
  browserCrate : Text := "web_sys"
  /-- Whether to import the host types that a unit refers to. -/
  emitCatalogUses : Bool := true
  /-- Number of units to work on at a time; the outputs do not depend on it. -/
  jobs : Int := 1

/-- Valid options. -/
structure Options extends Settings where
  suffix_ne_nil : moduleSuffix ≠ []
  one_le_jobs : 1 ≤ jobs

/-- Why options are not valid. -/
inductive OptionProblem
  | emptySuffix
  | jobCount (jobs : Int)
deriving DecidableEq, Repr

def OptionProblem.message : OptionProblem → Text
  | emptySuffix => "module_suffix must not be empty"
  | jobCount jobs => "jobs must be >= 1, got " ++ Text.integer jobs

/-- The options, if they are valid. -/
def Settings.validate (s : Settings) : Except OptionProblem Options :=
  if suffix : s.moduleSuffix = [] then .error .emptySuffix
  else if jobs : 1 ≤ s.jobs then
    .ok { toSettings := s, suffix_ne_nil := suffix, one_le_jobs := jobs }
  else .error (.jobCount s.jobs)

namespace Options

/-- The options of a run that sets none. -/
def standard : Options :=
  { toSettings := {}, suffix_ne_nil := by decide, one_le_jobs := by decide }

/-- The name of a crate of host types. -/
def crateName (o : Options) : HostCrate → Text
  | .browser => o.browserCrate
  | .language => o.languageCrate

/-- The name of the module for a namespace or file. -/
def scopeName (o : Options) (raw : Text) : Text := Identifier.scopeName o.moduleSuffix raw

/-- The path of the module that a specifier denotes. -/
def specifierPath (o : Options) (specifier : Text) : List Text :=
  Specifier.path o.moduleSuffix specifier

end Options

end HostBindings

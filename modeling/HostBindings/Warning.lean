import HostBindings.Diagnostic

/-!
Warnings: constructs that are dropped, or that degrade to the dynamic value, without making the
output unsound.
-/

namespace HostBindings

/-- Type expressions that degrade to the dynamic value. -/
inductive Degraded
  | union
  | emptyIntersection
  | packageImport (specifier : Text)
  | wholeModule (specifier : Text)
  | objectType
  | literal (kind : Text)
deriving DecidableEq, Repr

def Degraded.describe : Degraded → Text
  | union => "union type is not representable"
  | emptyIntersection => "empty intersection type"
  | packageImport specifier => "import type from non-relative module \"" ++ specifier ++ "\""
  | wholeModule specifier => "import type of a whole module \"" ++ specifier ++ "\""
  | objectType => "object type literal"
  | literal kind => kind ++ " literal type"

/-- What a warning is about. `within` names the declaration and the member, outermost first. -/
inductive Concern
  | degraded (what : Degraded) (within : List Text)
  | computedMember (key : Text)
  | literalMember (kind owner : Text)
  | interfaceMember (kind owner : Text)
  | ambientModule (name : Text)
  | dottedNamespace (name : Text)
  | bodilessNamespace (name : Text)
  | namespaceImport (name source : Text)
  | namespaceReexport (exported source : Option Text)
  | unresolvedImport (name : Text)
deriving DecidableEq, Repr

namespace Concern

/-- A name that may be missing. -/
def named (name : Option Text) : Text := name.getD "None"

def message : Concern → Text
  | degraded what within =>
    let place := Text.join "." within
    if place = [] then what.describe ++ "; using JsValue"
    else what.describe ++ " in `" ++ place ++ "`; using JsValue"
  | computedMember key => "computed member `" ++ key ++ "` cannot be bound; skipped"
  | literalMember kind owner =>
    kind ++ " in type literal `" ++ owner ++ "` cannot be bound; skipped"
  | interfaceMember kind owner =>
    kind ++ " in interface `" ++ owner ++ "` cannot be bound; skipped"
  | ambientModule name => "ambient module \"" ++ name ++ "\" is not bound; skipped"
  | dottedNamespace name =>
    "nested namespace declaration `" ++ name ++ "` is not supported; skipped"
  | bodilessNamespace name => "namespace `" ++ name ++ "` has no body block; skipped"
  | namespaceImport name source =>
    "namespace import `* as " ++ name ++ "` from \"" ++ source ++ "\" is not supported; skipped"
  | namespaceReexport exported source =>
    "`export * as " ++ named exported ++ "` from \"" ++ named source ++
      "\" is not supported; skipped"
  | unresolvedImport name => "`import " ++ name ++ " = ...` does not name a module scope; skipped"

def phase : Concern → Phase
  | degraded .. => .typing
  | namespaceImport .. | namespaceReexport .. | unresolvedImport .. => .composing
  | _ => .lowering

def code : Concern → Text
  | degraded .. => "W-DYNAMIC"
  | _ => "W-DROPPED"

end Concern

/-- A concern and its place. -/
structure Warning where
  concern : Concern
  loc : Option Location
deriving DecidableEq, Repr

def Warning.toDiagnostic (file : Option Text) (w : Warning) : Diagnostic :=
  { message := w.concern.message
    code := some w.concern.code
    phase := some w.concern.phase.label
    severity := .warning
    span := (Span.ofLocation w.loc).inFile file }

end HostBindings

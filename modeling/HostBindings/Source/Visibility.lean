import HostBindings.Source.Module

/-!
Visible declarations: those that the rest of a program can use.

A script declares globally, so all its declarations are visible. A module file shows what it
exports, on the spot or by a reference elsewhere in the file, and what it adds to the global scope.
-/

namespace HostBindings.Source

/-- The first name of a dotted reference. -/
def firstName (reference : Text) : Text := (reference.split '.').headD []

/-- Names that a statement exports by reference. -/
def Statement.exportedNames : Statement → List Text
  | .exportDefaultName name _ | .exportAssignment name _ => [firstName name]
  | .exportList { specifiers, source := none, .. } =>
    (specifiers.filter fun s => s.kind = .named).map (·.name)
  | _ => []

namespace Module

/-- Names of its own that a module exports by reference. -/
def exportedNames (m : Module) : List Text := m.body.flatMap Statement.exportedNames

/-- Whether a declaration adds to the global scope. -/
def isGlobalSpace : Declaration → Bool
  | .space n => n.isGlobal
  | _ => false

/-- The declaration that a statement of a module file makes visible; `exported` holds the names
that are exported by reference. -/
def exposed (exported : List Text) : Statement → Option Declaration
  | .exportDeclaration d _ | .exportDefaultDeclaration d _ => some d
  | .declaration d =>
    if isGlobalSpace d || d.name?.any exported.contains then some d else none
  | _ => none

/-- The visible declarations, in source order. -/
def visibleDeclarations (m : Module) : List Declaration :=
  if m.isModuleFile then m.body.filterMap (exposed m.exportedNames)
  else
    m.body.filterMap fun
      | .declaration d => some d
      | _ => none

end Module

end HostBindings.Source

import HostBindings.Lowering.Members
import HostBindings.Source.Module

/-!
Bindings of declarations.

Each declaration is lowered on its own; none of them looks at another one. A namespace gives the
bindings of its body, each inside the namespace.
-/

namespace HostBindings.Lowering

open Source

/-- A host type under its Rust name. -/
def hostType (ident : Identifier) (bases : List (List Text)) (loc : Option Location) : Binding :=
  { name := ident.name, shape := .hostType
    attributes := { hostName := ident.foreign, bases }, loc }

/-- The name of a declaration that must have one. -/
def requireName (what : Text) (name : Option Text) (loc : Option Location) : Outcome Text :=
  match name with
  | none | some [] => Outcome.fail (.nameless what) loc
  | some name => return name

def scopeOf (typeParams : List TypeParam) : GenericScope :=
  GenericScope.ofNames (typeParams.map (·.name))

/-- The base of a class, if it is a plain name. -/
def classBases (superClass : Option Heritage) : List (List Text) :=
  match superClass.map (·.segments) with
  | some [name] => [[Identifier.rustName name]]
  | _ => []

def lowerClass (options : Options) (within : List Text) (d : ClassDeclaration) :
    Outcome (List Binding) := do
  let name ← requireName "class" d.name d.loc
  let ident := Identifier.sanitize name
  let owner : Owner := { options, within, name := ident.name, scope := scopeOf d.typeParams }
  let members ← lowerClassMembers owner false d.members
  return hostType ident (classBases d.superClass) d.loc :: members

def lowerFunction (options : Options) (within : List Text) (d : FunctionDeclaration) :
    Outcome (List Binding) := do
  let name ← requireName "function" d.name d.loc
  let ident := Identifier.sanitize name
  let params ← lowerParams options within d.signature.params
  let result ← mapResult options within d.signature.result
  let b : Binding :=
    { name := ident.name, shape := .function params result
      attributes := { hostName := ident.foreign }, loc := d.loc }
  return [b.erase (scopeOf d.signature.typeParams)]

def lowerVariables (options : Options) (within : List Text) (d : VariableDeclaration) :
    Outcome (List Binding) :=
  match d.declarators with
  | { pattern := .absent, .. } :: _ => Outcome.breakOff .incomplete
  | [declarator] =>
    match declarator.pattern with
    | .name name _ => do
      let ident := Identifier.sanitize name
      let type ← mapAnnotated options within declarator.annotated
      return [{ name := ident.name, shape := .static type
                attributes := { hostName := ident.foreign }, loc := d.loc }]
    | _ => Outcome.fail .destructuringVariable declarator.loc
  | declarators => Outcome.fail (.declaratorCount declarators.length) d.loc

def lowerAlias (options : Options) (within : List Text) (d : AliasDeclaration) :
    Outcome (List Binding) := do
  let ident := Identifier.sanitize d.name
  let owner : Owner := { options, within, name := ident.name, scope := scopeOf d.typeParams }
  let members ← match stripParens d.type with
    | .object members _ => lowerLiteralMembers owner d.name members
    | _ => pure []
  return hostType ident [] d.loc :: members

def lowerInterface (options : Options) (within : List Text) (d : InterfaceDeclaration) :
    Outcome (List Binding) := do
  let ident := Identifier.sanitize d.name
  let owner : Owner := { options, within, name := ident.name, scope := scopeOf d.typeParams }
  let members ← lowerInterfaceMembers owner d.body
  return hostType ident [] d.loc :: members

mutual

/-- The names of a namespace and of those that follow it in a dotted name. -/
def dottedName : Namespace → List Text
  | ⟨name, body, _, _, _⟩ => name :: restOfName body

def restOfName : NamespaceBody → List Text
  | .nested inner => dottedName inner
  | _ => []

end

/-- Lowers a declaration under its own name, which warnings and failures then show. -/
def inDeclaration (within : List Text) (d : Declaration)
    (f : List Text → Outcome (List Binding)) : Outcome (List Binding) :=
  (f (within ++ [placeName d.name? d.kindName])).within d.name? none d.loc

mutual

/-- The bindings of a declaration; `within` names the declarations around it. -/
def lower (options : Options) (within : List Text) : Declaration → Outcome (List Binding)
  | .classDeclaration d =>
    inDeclaration within (.classDeclaration d) fun within => lowerClass options within d
  | .function d => inDeclaration within (.function d) fun within => lowerFunction options within d
  | .variableDeclaration d =>
    inDeclaration within (.variableDeclaration d) fun within => lowerVariables options within d
  | .typeAlias d => inDeclaration within (.typeAlias d) fun within => lowerAlias options within d
  | .interface d =>
    inDeclaration within (.interface d) fun within => lowerInterface options within d
  | .enumeration d =>
    inDeclaration within (.enumeration d) fun _ => Outcome.fail .enumeration d.loc
  | .space d => inDeclaration within (.space d) fun within => lowerNamespace options within d
  | .stray s => strayed .unloweredStatement s

/-- The bindings of a namespace's body, inside the namespace unless it is the global one. A
namespace without a block of its own is dropped with a warning. -/
def lowerNamespace (options : Options) (within : List Text) : Namespace → Outcome (List Binding)
  | ⟨name, body, isStringName, isGlobal, loc⟩ =>
    if isStringName then do
      Outcome.warn (.ambientModule name) loc
      return []
    else
      match body with
      | .nested inner => do
        Outcome.warn (.dottedNamespace (Text.join "." (name :: dottedName inner))) loc
        return []
      | .missing => do
        Outcome.warn (.bodilessNamespace name) loc
        return []
      | .block statements _ => do
        let bindings ← lowerStatements options within statements
        return if isGlobal then bindings else bindings.map (Binding.enclose name)

/-- The bindings of the declarations in a namespace's body; all of them are visible, exported or
not. -/
def lowerStatements (options : Options) (within : List Text) :
    List Statement → Outcome (List Binding)
  | [] => return []
  | .declaration d :: rest | .exportDeclaration d _ :: rest
  | .exportDefaultDeclaration d _ :: rest => do
    let head ← lower options within d
    let tail ← lowerStatements options within rest
    return head ++ tail
  | _ :: rest => lowerStatements options within rest

end

/-- The bindings of a statement on its own; only a declaration has some. -/
def lowerStatement (options : Options) : Statement → Outcome (List Binding)
  | .declaration d => lower options [] d
  | .stray s => strayed .unloweredStatement s
  | statement => Outcome.fail (.unloweredStatement statement.kindName) statement.loc

end HostBindings.Lowering

import HostBindings.Binding.Erasure
import HostBindings.Diagnostic

/-!
Bindings: the items of an extern block, each with the annotations that tie it to the host.
-/

namespace HostBindings

/-- The annotations of a binding. -/
structure Attributes where
  /-- The host's name, when the Rust name does not tell it. -/
  hostName : Option Text := none
  /-- The namespaces around the declaration, outermost first. -/
  namespacePath : List Text := []
  isConstructor : Bool := false
  isMethod : Bool := false
  isGetter : Bool := false
  isSetter : Bool := false
  staticOf : Option Text := none
  /-- The type that a member belongs to; names are unique per owner. -/
  owner : Option Text := none
  bases : List (List Text) := []
deriving DecidableEq, Repr

structure Parameter where
  name : Text
  type : BindingType
deriving Repr

/-- What a binding declares. -/
inductive BindingShape
  /-- A host type of which nothing but the name is known. -/
  | hostType
  | function (params : List Parameter) (result : Option BindingType)
  | static (type : BindingType)
deriving Repr

/-- One item of an extern block. -/
structure Binding where
  name : Text
  shape : BindingShape
  attributes : Attributes := {}
  loc : Option Location := none
deriving Repr

namespace BindingShape

/-- Applies `f` to each type slot; the flag tells whether it is the slot of a result. -/
def mapTypes (f : Bool → BindingType → BindingType) : BindingShape → BindingShape
  | .hostType => .hostType
  | .function params result =>
    .function (params.map fun p => { p with type := f false p.type }) (result.map (f true))
  | .static type => .static (f false type)

/-- The types in the slots, parameters first. -/
def types : BindingShape → List BindingType
  | .hostType => []
  | .function params result => params.map (·.type) ++ result.toList
  | .static type => [type]

end BindingShape

namespace Binding

def isHostType (b : Binding) : Bool :=
  match b.shape with
  | .hostType => true
  | _ => false

def mapTypes (f : Bool → BindingType → BindingType) (b : Binding) : Binding :=
  { b with shape := b.shape.mapTypes f }

def types (b : Binding) : List BindingType := b.shape.types

/-- Erases the type parameters in scope from every slot. -/
def erase (scope : GenericScope) (b : Binding) : Binding :=
  b.mapTypes fun _ type => type.erase scope

/-- Puts a namespace around the declaration. -/
def enclose (name : Text) (b : Binding) : Binding :=
  { b with
    attributes := { b.attributes with namespacePath := name :: b.attributes.namespacePath } }

/-- The name under which the host knows the binding. -/
def hostName (b : Binding) : Text :=
  b.attributes.hostName.getD (Identifier.bareName b.name)

end Binding

end HostBindings

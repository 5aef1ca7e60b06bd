import HostBindings.Binding.Basic
import HostBindings.Lowering.Types

/-!
Bindings of the members of classes, interfaces and object types.
-/

namespace HostBindings.Lowering

open Source

/-- What the lowering of a member has to know: the options, the declarations around it, the Rust
name of its type and the type parameters of that type. -/
structure Owner where
  options : Options
  within : List Text
  name : Text
  scope : GenericScope

def lowerParam (options : Options) (within : List Text) (name : Text) (p : Param) :
    Outcome Parameter := do
  let type ← mapAnnotated options within p.annotated
  return { name := Identifier.rustName name, type := if p.isOptional then type.optional else type }

/-- The parameters of a function. A parameter `this` only tells the type of the receiver and is
left out. -/
def lowerParams (options : Options) (within : List Text) :
    List Param → Outcome (List Parameter)
  | [] => return []
  | p :: rest =>
    match p.pattern with
    | .name name _ => do
      if name = "this" then lowerParams options within rest
      else
        let head ← lowerParam options within name p
        let tail ← lowerParams options within rest
        return head :: tail
    | .absent => Outcome.breakOff .incomplete
    | _ => Outcome.fail .destructuringParameter p.loc

/-- The parameter that holds the receiver of a method. -/
def receiver (owner : Text) : Parameter :=
  { name := "this", type := .reference (.named [owner]) }

/-- The receiver, unless the member is static. -/
def receivers (owner : Text) (isStatic : Bool) : List Parameter :=
  if isStatic then [] else [receiver owner]

/-- The attributes that say how a member is reached. -/
def memberAttributes (owner : Text) (isStatic : Bool) (hostName : Option Text) : Attributes :=
  { hostName
    isMethod := !isStatic
    staticOf := if isStatic then some owner else none
    owner := some owner }

/-- A getter, or with a parameter a setter, of a property. The mark goes before the Rust name; with
a mark the host name is always noted. -/
def accessor (owner : Text) (mark raw : Text) (isStatic : Bool) (result : Option BindingType)
    (value : Option Parameter) (loc : Option Location) : Binding :=
  let ident := Identifier.sanitize (mark ++ raw)
  let hostName := if mark.isEmpty && ident.foreign.isNone then none else some raw
  { name := ident.name
    shape := .function (receivers owner isStatic ++ value.toList) result
    attributes :=
      { memberAttributes owner isStatic hostName with
        isGetter := value.isNone, isSetter := value.isSome }
    loc }

/-- A method from the parameters and the result of its declaration. -/
def method (o : Owner) (raw : Text) (signature : Signature) (isStatic : Bool)
    (loc : Option Location) : Outcome Binding := do
  let ident := Identifier.sanitize raw
  let params ← lowerParams o.options o.within signature.params
  let result ← mapResult o.options o.within signature.result
  return {
    name := ident.name
    shape := .function (receivers o.name isStatic ++ params) result
    attributes := memberAttributes o.name isStatic ident.foreign
    loc }

/-- The setter of a property; without a parameter it takes the dynamic value. -/
def setter (o : Owner) (raw : Text) (params : List Param) (isStatic : Bool)
    (loc : Option Location) : Outcome Binding := do
  let params ← lowerParams o.options o.within params
  let value : Parameter := params.headD { name := "value", type := .dynamic }
  return accessor o.name "set_" raw isStatic none (some value) loc

/-- The getter of a property with a getter of its own. -/
def getter (o : Owner) (raw : Text) (result : Option TypeExpr) (isStatic : Bool)
    (loc : Option Location) : Outcome Binding := do
  let result ← mapAnnotated o.options o.within result
  return accessor o.name "get_" raw isStatic (some result) none loc

/-- The getter of a plain property. -/
def property (o : Owner) (raw : Text) (annotated : Option TypeExpr) (isOptional isStatic : Bool)
    (loc : Option Location) : Outcome Binding := do
  let type ← mapAnnotated o.options o.within annotated
  return accessor o.name [] raw isStatic (some (if isOptional then type.optional else type)) none
    loc

/-- The name of a member, or a warning if only a computation gives it. -/
def memberName (key : PropertyKey) : Outcome (Option Text) :=
  match key.kind with
  | .computed => do
    Outcome.warn (.computedMember key.value) key.loc
    return none
  | .absent => Outcome.breakOff .incomplete
  | _ => return some key.value

/-- The binding of a member that has a name, without the type parameters in scope. -/
def named (key : PropertyKey) (scope : GenericScope) (f : Text → Outcome Binding) :
    Outcome (List Binding) := do
  match ← memberName key with
  | none => return []
  | some raw =>
    let b ← f raw
    return [b.erase scope]

/-- The name by which messages refer to a member. -/
def memberLabel? : Member → Option Text
  | .constructorMember .. => some "constructor"
  | member => member.key?.map (·.value)

/-- The name of a member in the place of a warning: its own, or that of its kind. -/
def placeName (name : Option Text) (kind : Text) : Text :=
  match name with
  | none | some [] => kind
  | some name => name

/-- Lowers a member under its own name, which warnings and failures then show. -/
def inMember (o : Owner) (member : Member) (f : Owner → Outcome (List Binding)) :
    Outcome (List Binding) :=
  let label := memberLabel? member
  (f { o with within := o.within ++ [placeName label member.describe] }).within none label
    member.loc

/-- Whether a member of a class is not for others to use. -/
def isHidden (member : Member) : Bool :=
  (match member.access? with
    | some .owner | some .family => true
    | _ => false) ||
  member.key?.any (·.kind = .hidden)

/-- The constructor of a class. -/
def constructorBinding (o : Owner) (key : PropertyKey) (params : List Param)
    (seenConstructor : Bool) (loc : Option Location) : Outcome (List Binding) := do
  if key.kind = .absent then Outcome.breakOff .incomplete
  else if !(key.kind = .word || key.kind = .string) || key.value != "constructor" then
    Outcome.fail (.constructorKey key.value) loc
  else if seenConstructor then Outcome.fail .secondConstructor loc
  else
    let params ← lowerParams o.options o.within params
    let b : Binding :=
      { name := "new"
        shape := .function params (some (.named [o.name]))
        attributes := { isConstructor := true, owner := some o.name }
        loc }
    return [b.erase o.scope]

/-- The bindings of a member of a class. -/
def lowerClassMember (o : Owner) (seenConstructor : Bool) (member : Member) :
    Outcome (List Binding) :=
  match member with
  | .index _ _ _ _ loc => Outcome.fail .classIndexSignature loc
  | .staticBlock loc => Outcome.fail .staticBlock loc
  | .empty loc => Outcome.fail .emptyMember loc
  | member =>
    if isHidden member then return []
    else match member with
      | .constructorMember key params _ loc =>
        constructorBinding o key params seenConstructor loc
      | .method key kind signature isStatic _ _ _ loc =>
        let scope := o.scope ++ GenericScope.ofNames (signature.typeParams.map (·.name))
        named key scope fun raw =>
          match kind with
          | .getter => getter o raw signature.result isStatic loc
          | .setter => setter o raw signature.params isStatic loc
          | .method => method o raw signature isStatic loc
      | .property key annotated isStatic _ _ isOptional loc =>
        named key o.scope fun raw => property o raw annotated isOptional isStatic loc
      | member =>
        match member.key? with
        | some key => named key o.scope fun _ =>
            Outcome.fail (.unsupportedMember member.kindName) member.loc
        | none => Outcome.breakOff .incomplete

/-- Whether a member made a constructor. -/
def madeConstructor (member : Member) (bindings : List Binding) : Bool :=
  match member with
  | .constructorMember .. => !bindings.isEmpty
  | _ => false

/-- The bindings of the members of a class, in order; at most one of them is a constructor. -/
def lowerClassMembers (o : Owner) (seenConstructor : Bool) :
    List Member → Outcome (List Binding)
  | [] => return []
  | member :: rest => do
    let head ← inMember o member fun o => lowerClassMember o seenConstructor member
    let tail ← lowerClassMembers o (seenConstructor || madeConstructor member head) rest
    return head ++ tail

/-- The bindings of a member of an interface. -/
def lowerInterfaceMember (o : Owner) (member : Member) : Outcome (List Binding) :=
  match member with
  | .propertySignature key annotated isOptional _ loc =>
    named key o.scope fun raw => property o raw annotated isOptional false loc
  | .methodSignature key signature _ loc =>
    let scope := o.scope ++ GenericScope.ofNames (signature.typeParams.map (·.name))
    named key scope fun raw => method o raw signature false loc
  | .getterSignature key result loc =>
    named key o.scope fun raw => getter o raw result false loc
  | .setterSignature key param loc =>
    named key o.scope fun raw => setter o raw [param] false loc
  | .stray .value _ => Outcome.breakOff .incomplete
  | member => do
    Outcome.warn (.interfaceMember member.describe o.name) member.loc
    return []

def lowerInterfaceMembers (o : Owner) : List Member → Outcome (List Binding)
  | [] => return []
  | member :: rest => do
    let head ← inMember o member fun o => lowerInterfaceMember o member
    let tail ← lowerInterfaceMembers o rest
    return head ++ tail

/-- The bindings of the members of an object type that an alias names: properties only. -/
def lowerLiteralMembers (o : Owner) (literal : Text) : List Member → Outcome (List Binding)
  | [] => return []
  | member :: rest => do
    let head ← match member with
      | .propertySignature .. => inMember o member fun o => lowerInterfaceMember o member
      | .stray .value _ => Outcome.breakOff .incomplete
      | member => do
        Outcome.warn (.literalMember member.describe literal) member.loc
        pure []
    let tail ← lowerLiteralMembers o literal rest
    return head ++ tail

end HostBindings.Lowering

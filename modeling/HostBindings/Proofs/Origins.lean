import HostBindings.Proofs.IdentifierLaws
import HostBindings.Proofs.LoweringResults
import HostBindings.Proofs.Traversal
import HostBindings.Source.Visibility
import Mathlib.Data.List.Forall2

/-!
Where bindings come from. The origins of a declaration are read off the source alone: the
declarations and members that have a binding, in order, each with the namespaces around it. Lowering
gives exactly one binding for each of them: `Lowered` says which one, by the lowering of that
declaration or member alone, and `Made` says what it looks like.
-/

namespace HostBindings

/-- Puts namespaces around a declaration, the first one outermost. -/
def Binding.encloseAll (names : List Text) (b : Binding) : Binding :=
  names.foldr Binding.enclose b

theorem Binding.encloseAll_eq (names : List Text) (b : Binding) :
    b.encloseAll names =
      { b with
        attributes :=
          { b.attributes with namespacePath := names ++ b.attributes.namespacePath } } := by
  induction names with
  | nil => rfl
  | cons name rest ih =>
      rw [encloseAll, List.foldr_cons, ← encloseAll, ih]
      rfl

/-- The kinds of items in an extern block. -/
inductive BindingKind
  | hostType
  | function
  | static
deriving DecidableEq, Repr

def BindingShape.kind : BindingShape → BindingKind
  | .hostType => .hostType
  | .function _ _ => .function
  | .static _ => .static

@[simp] theorem BindingShape.kind_mapTypes (f : Bool → BindingType → BindingType)
    (shape : BindingShape) : (shape.mapTypes f).kind = shape.kind := by
  cases shape <;> rfl

namespace Lowering

open Source Outcome

/-- A node of the source that has a binding: a declaration, or a member of one. -/
structure Origin where
  /-- The names of the namespaces around the declaration, outermost first. -/
  spaces : List Text
  declaration : Declaration
  member : Option Member

namespace Origin

/-- The name as the source writes it. -/
def rawName? (o : Origin) : Option Text :=
  match o.member with
  | none => o.declaration.name?
  | some member => member.key?.map (·.value)

def loc (o : Origin) : Option Location :=
  match o.member with
  | none => o.declaration.loc
  | some member => member.loc

/-- The owner of a member's binding. -/
def owner? (o : Origin) : Option Text :=
  o.member.bind fun _ => o.declaration.name?.map Identifier.rustName

/-- The origin inside one more namespace. -/
def enclose (name : Text) (o : Origin) : Origin := { o with spaces := name :: o.spaces }

end Origin

/-- Whether a member has a name that no computation gives. -/
def isNameable (member : Member) : Bool := member.key?.any fun key => key.kind != .computed

/-- Whether a member of a class has a binding: others may use it and it has a name. -/
def bindsInClass (member : Member) : Bool :=
  !isHidden member &&
    match member with
    | .constructorMember .. => true
    | member => isNameable member

/-- Whether a member of an interface has a binding. -/
def bindsInInterface (member : Member) : Bool :=
  match member with
  | .propertySignature .. | .methodSignature .. | .getterSignature .. | .setterSignature .. =>
      isNameable member
  | _ => false

/-- Whether a member of an object type that an alias names has a binding. -/
def bindsInLiteral (member : Member) : Bool :=
  match member with
  | .propertySignature .. => isNameable member
  | _ => false

/-- The members of a declaration that have a binding. -/
def boundMembers : Declaration → List Member
  | .classDeclaration d => d.members.filter bindsInClass
  | .typeAlias d =>
      match stripParens d.type with
      | .object members _ => members.filter bindsInLiteral
      | _ => []
  | .interface d => d.body.filter bindsInInterface
  | _ => []

mutual

/-- The origins in a declaration that stands inside the given namespaces. The global scope adds no
name; an ambient module and a namespace without a block hold none. -/
def originsIn (spaces : List Text) : Declaration → List Origin
  | .space ⟨name, .block statements _, isStringName, isGlobal, _⟩ =>
      if isStringName then []
      else originsOf (if isGlobal then spaces else spaces ++ [name]) statements
  | .space _ | .enumeration _ | .stray _ => []
  | d => ⟨spaces, d, none⟩ :: (boundMembers d).map fun member => ⟨spaces, d, some member⟩

def originsOf (spaces : List Text) : List Statement → List Origin
  | [] => []
  | .declaration d :: rest | .exportDeclaration d _ :: rest
  | .exportDefaultDeclaration d _ :: rest => originsIn spaces d ++ originsOf spaces rest
  | _ :: rest => originsOf spaces rest

end

/-- The type parameters that a declaration gives to its members. -/
def declarationScope : Declaration → GenericScope
  | .classDeclaration d => scopeOf d.typeParams
  | .typeAlias d => scopeOf d.typeParams
  | .interface d => scopeOf d.typeParams
  | _ => []

/-- The type parameters of a member itself. -/
def memberScope : Member → GenericScope
  | .method _ _ signature _ _ _ _ _ | .methodSignature _ signature _ _ =>
      scopeOf signature.typeParams
  | _ => []

/-- Whether a declaration makes a host type. -/
def declaresType : Declaration → Bool
  | .classDeclaration _ | .typeAlias _ | .interface _ => true
  | _ => false

/-- The bases of a host type: only a class has some. -/
def declaredBases : Declaration → List (List Text)
  | .classDeclaration d => classBases d.superClass
  | _ => []

def isConstructorMember : Member → Bool
  | .constructorMember .. => true
  | _ => false

/-- The kind of binding that an origin has. -/
def Origin.kind (o : Origin) : BindingKind :=
  match o.member, o.declaration with
  | none, .variableDeclaration _ => .static
  | none, d => if declaresType d then .hostType else .function
  | some _, _ => .function

/-- A binding that stands for an origin inside further namespaces: it has the origin's kind and
place, the names of all namespaces around it, and the host name that the source writes. Only a
function that is a constructor has no name of its own on the host. -/
structure StandsFor (around : List Text) (o : Origin) (b : Binding) : Prop where
  kind : b.shape.kind = o.kind
  loc : b.loc = o.loc
  namespacePath : b.attributes.namespacePath = around ++ o.spaces
  owner : b.attributes.owner = o.owner?
  isConstructor : b.attributes.isConstructor = true → o.member.any isConstructorMember = true
  hostName : (b.shape.kind = .function → b.attributes.isConstructor = false) →
    o.rawName? = some b.hostName

/-- The bindings that a member can have, before type parameters are erased. -/
inductive MemberForm (owner : Text) (member : Member) : Binding → Prop
  | constructor (hmember : isConstructorMember member = true) (params : List Parameter) :
      MemberForm owner member
        { name := "new"
          shape := .function params (some (.named [owner]))
          attributes := { isConstructor := true, owner := some owner }
          loc := member.loc }
  | method {key : PropertyKey} (hkey : member.key? = some key) (isStatic : Bool)
      (params : List Parameter) (result : Option BindingType) :
      MemberForm owner member
        { name := Identifier.rustName key.value
          shape := .function (receivers owner isStatic ++ params) result
          attributes := memberAttributes owner isStatic (Identifier.sanitize key.value).foreign
          loc := member.loc }
  | accessor {key : PropertyKey} (hkey : member.key? = some key) (mark : Text) (isStatic : Bool)
      (result : Option BindingType) (value : Option Parameter) :
      MemberForm owner member (accessor owner mark key.value isStatic result value member.loc)

/-- The bindings that a declaration itself can have. -/
inductive DeclarationForm : Declaration → Binding → Prop
  | hostType {d : Declaration} {name : Text} (htype : declaresType d = true)
      (hname : d.name? = some name) :
      DeclarationForm d (hostType (Identifier.sanitize name) (declaredBases d) d.loc)
  | function {d : FunctionDeclaration} {name : Text} (hname : d.name = some name)
      (params : List Parameter) (result : Option BindingType) :
      DeclarationForm (.function d)
        (Binding.erase (scopeOf d.signature.typeParams)
          { name := Identifier.rustName name
            shape := .function params result
            attributes := { hostName := (Identifier.sanitize name).foreign }
            loc := d.loc })
  | static {d : VariableDeclaration} {name : Text}
      (hname : (Declaration.variableDeclaration d).name? = some name) (type : BindingType) :
      DeclarationForm (.variableDeclaration d)
        { name := Identifier.rustName name
          shape := .static type
          attributes := { hostName := (Identifier.sanitize name).foreign }
          loc := d.loc }

/-- A binding of a member, without the type parameters in scope. -/
def MadeMember (owner : Text) (scope : GenericScope) (member : Member) (b : Binding) : Prop :=
  ∃ form, MemberForm owner member form ∧ b = form.erase (scope ++ memberScope member)

/-- The bindings that lowering can make for an origin. -/
inductive Made : Origin → Binding → Prop
  | declared {d : Declaration} {form : Binding} (spaces : List Text) (h : DeclarationForm d form) :
      Made ⟨spaces, d, none⟩ (form.encloseAll spaces)
  | member {d : Declaration} {name : Text} {member : Member} {b : Binding} (spaces : List Text)
      (hname : d.name? = some name)
      (h : MadeMember (Identifier.rustName name) (declarationScope d) member b) :
      Made ⟨spaces, d, some member⟩ (b.encloseAll spaces)

/-- A member gives a binding: lowered on its own, in a class or in an interface, it gives that one
and no other. -/
inductive LowersMember (options : Options) (owner : Text) (scope : GenericScope)
    (member : Member) (b : Binding) : Prop
  | inClass {within : List Text} {seenConstructor : Bool}
      (h : (lowerClassMember ⟨options, within, owner, scope⟩ seenConstructor member).result =
        .ok [b]) : LowersMember options owner scope member b
  | inInterface {within : List Text}
      (h : (lowerInterfaceMember ⟨options, within, owner, scope⟩ member).result = .ok [b]) :
      LowersMember options owner scope member b

/-- The binding that lowering makes for an origin. -/
inductive Lowered (options : Options) : Origin → Binding → Prop
  | hostType {d : Declaration} {name : Text} (spaces : List Text) (htype : declaresType d = true)
      (hname : d.name? = some name) :
      Lowered options ⟨spaces, d, none⟩
        ((hostType (Identifier.sanitize name) (declaredBases d) d.loc).encloseAll spaces)
  | function {d : FunctionDeclaration} {within : List Text} {b : Binding} (spaces : List Text)
      (h : (lowerFunction options within d).result = .ok [b]) :
      Lowered options ⟨spaces, .function d, none⟩ (b.encloseAll spaces)
  | static {d : VariableDeclaration} {within : List Text} {b : Binding} (spaces : List Text)
      (h : (lowerVariables options within d).result = .ok [b]) :
      Lowered options ⟨spaces, .variableDeclaration d, none⟩ (b.encloseAll spaces)
  | member {d : Declaration} {name : Text} {member : Member} {b : Binding} (spaces : List Text)
      (hname : d.name? = some name)
      (h : LowersMember options (Identifier.rustName name) (declarationScope d) member b) :
      Lowered options ⟨spaces, d, some member⟩ (b.encloseAll spaces)

theorem named_eq_ok {key : PropertyKey} {scope : GenericScope} {f : Text → Outcome Binding}
    {bindings : List Binding} (h : (named key scope f).result = .ok bindings) :
    (key.kind = .computed ∧ bindings = []) ∨
      (key.kind ≠ .computed ∧
        ∃ b, (f key.value).result = .ok b ∧ bindings = [b.erase scope]) := by
  rw [named, result_bind_eq_ok_iff] at h
  obtain ⟨name, hname, h⟩ := h
  rw [memberName] at hname
  split at hname
  · rename_i hkind
    have hnone : name = none := (Except.ok.inj hname).symm
    subst hnone
    exact Or.inl ⟨hkind, (Except.ok.inj h).symm⟩
  · cases hname
  · rename_i hcomputed _
    have hsome : name = some key.value := (Except.ok.inj hname).symm
    subst hsome
    obtain ⟨b, hb, hreturn⟩ := (result_bind_eq_ok_iff _ _ _).mp h
    exact Or.inr ⟨hcomputed, b, hb, (Except.ok.inj hreturn).symm⟩

theorem inMember_eq_ok {o : Owner} {member : Member} {f : Owner → Outcome (List Binding)}
    {bindings : List Binding} (h : (inMember o member f).result = .ok bindings) :
    ∃ within, (f { o with within := within }).result = .ok bindings := by
  rw [inMember, result_within_eq_ok_iff] at h
  exact ⟨_, h⟩

section

variable {o : Owner} {member : Member} {key : PropertyKey} {raw : Text} {b : Binding}

theorem method_form (hkey : member.key? = some key) {signature : Signature} {isStatic : Bool}
    (h : (method o key.value signature isStatic member.loc).result = .ok b) :
    MemberForm o.name member b := by
  simp only [method, result_bind_eq_ok_iff] at h
  obtain ⟨params, _, result, _, hreturn⟩ := h
  rw [← Except.ok.inj hreturn]
  exact MemberForm.method hkey isStatic params result

theorem setter_form (hkey : member.key? = some key) {params : List Param} {isStatic : Bool}
    (h : (setter o key.value params isStatic member.loc).result = .ok b) :
    MemberForm o.name member b := by
  simp only [setter, result_bind_eq_ok_iff] at h
  obtain ⟨lowered, _, hreturn⟩ := h
  rw [← Except.ok.inj hreturn]
  exact MemberForm.accessor hkey _ isStatic _ _

theorem getter_form (hkey : member.key? = some key) {result : Option TypeExpr} {isStatic : Bool}
    (h : (getter o key.value result isStatic member.loc).result = .ok b) :
    MemberForm o.name member b := by
  simp only [getter, result_bind_eq_ok_iff] at h
  obtain ⟨type, _, hreturn⟩ := h
  rw [← Except.ok.inj hreturn]
  exact MemberForm.accessor hkey _ isStatic _ _

theorem property_form (hkey : member.key? = some key) {annotated : Option TypeExpr}
    {isOptional isStatic : Bool}
    (h : (property o key.value annotated isOptional isStatic member.loc).result = .ok b) :
    MemberForm o.name member b := by
  simp only [property, result_bind_eq_ok_iff] at h
  obtain ⟨type, _, hreturn⟩ := h
  rw [← Except.ok.inj hreturn]
  exact MemberForm.accessor hkey _ isStatic _ _

theorem named_made (hkey : member.key? = some key) {f : Text → Outcome Binding}
    {bindings : List Binding}
    (h : (named key (o.scope ++ memberScope member) f).result = .ok bindings)
    (hform : ∀ b, (f key.value).result = .ok b → MemberForm o.name member b) :
    List.Forall₂ (MadeMember o.name o.scope)
      (if isNameable member then [member] else []) bindings := by
  rcases named_eq_ok h with ⟨hcomputed, rfl⟩ | ⟨hname, b, hb, rfl⟩
  · have hnot : isNameable member = false := by simp [isNameable, hkey, hcomputed]
    simp [hnot]
  · have hnameable : isNameable member = true := by simp [isNameable, hkey, hname]
    rw [if_pos hnameable]
    exact List.Forall₂.cons ⟨b, hform b hb, rfl⟩ List.Forall₂.nil

theorem named_made_plain (hkey : member.key? = some key) (hscope : memberScope member = [])
    {f : Text → Outcome Binding} {bindings : List Binding}
    (h : (named key o.scope f).result = .ok bindings)
    (hform : ∀ b, (f key.value).result = .ok b → MemberForm o.name member b) :
    List.Forall₂ (MadeMember o.name o.scope)
      (if isNameable member then [member] else []) bindings := by
  apply named_made hkey _ hform
  rwa [hscope, List.append_nil]

theorem lowerInterfaceMember_made {bindings : List Binding}
    (h : (lowerInterfaceMember o member).result = .ok bindings) :
    List.Forall₂ (MadeMember o.name o.scope)
      (if bindsInInterface member then [member] else []) bindings := by
  cases member with
  | propertySignature key annotated isOptional isReadonly loc =>
      exact named_made_plain rfl rfl h fun b hb => property_form rfl hb
  | methodSignature key signature isOptional loc =>
      exact named_made rfl h fun b hb => method_form rfl hb
  | getterSignature key result loc =>
      exact named_made_plain rfl rfl h fun b hb => getter_form rfl hb
  | setterSignature key param loc =>
      exact named_made_plain rfl rfl h fun b hb => setter_form rfl hb
  | stray s key =>
      cases s with
      | node kind loc =>
          rw [← Except.ok.inj h]
          exact List.Forall₂.nil
      | value => cases h
  | _ =>
      rw [← Except.ok.inj h]
      exact List.Forall₂.nil

theorem constructorBinding_made {key : PropertyKey} {params : List Param}
    {access : Option Access} {loc : Option Location} {seenConstructor : Bool}
    {bindings : List Binding}
    (h : (constructorBinding o key params seenConstructor loc).result = .ok bindings) :
    ∃ b, MadeMember o.name o.scope (.constructorMember key params access loc) b ∧
      bindings = [b] := by
  rw [constructorBinding] at h
  split at h
  · cases h
  · split at h
    · cases h
    · split at h
      · cases h
      · obtain ⟨lowered, _, hreturn⟩ := (result_bind_eq_ok_iff _ _ _).mp h
        refine ⟨_, ⟨_, MemberForm.constructor rfl lowered, ?_⟩, (Except.ok.inj hreturn).symm⟩
        have hscope : memberScope (.constructorMember key params access loc) = [] := rfl
        rw [hscope, List.append_nil]
        rfl

/-- A member that belongs elsewhere is never bound: it is hidden, dropped for a computed name, or
ends the work. -/
theorem misplacedMember_made {bindings : List Binding}
    (h : (match member.key? with
      | some key => named key o.scope fun _ =>
          Outcome.fail (.unsupportedMember member.kindName) member.loc
      | none => Outcome.breakOff .incomplete : Outcome (List Binding)).result = .ok bindings) :
    List.Forall₂ (MadeMember o.name o.scope)
      (if isNameable member then [member] else []) bindings := by
  split at h
  · rename_i key hkey
    rcases named_eq_ok h with ⟨hcomputed, rfl⟩ | ⟨_, b, hb, _⟩
    · simp [isNameable, hkey, hcomputed]
    · cases hb
  · cases h

theorem lowerClassMethod_made {kind : MethodKind} {signature : Signature} {isStatic : Bool}
    {access : Option Access} {isOptional isAbstract : Bool} {loc : Option Location}
    {bindings : List Binding}
    (h : (named key (o.scope ++ scopeOf signature.typeParams) fun raw =>
      match kind with
      | .getter => getter o raw signature.result isStatic loc
      | .setter => setter o raw signature.params isStatic loc
      | .method => method o raw signature isStatic loc).result = .ok bindings) :
    List.Forall₂ (MadeMember o.name o.scope)
      (if isNameable (.method key kind signature isStatic access isOptional isAbstract loc) then
        [.method key kind signature isStatic access isOptional isAbstract loc] else [])
      bindings := by
  refine named_made rfl h ?_
  intro b hb
  cases kind with
  | getter => exact getter_form rfl hb
  | setter => exact setter_form rfl hb
  | method => exact method_form rfl hb

theorem lowerClassMember_made_of_visible {seenConstructor : Bool} {bindings : List Binding}
    (hvisible : isHidden member = false) (hmember : isConstructorMember member = false)
    (h : (lowerClassMember o seenConstructor member).result = .ok bindings) :
    List.Forall₂ (MadeMember o.name o.scope)
      (if isNameable member then [member] else []) bindings := by
  cases member with
  | constructorMember key params access loc => cases hmember
  | method key kind signature isStatic access isOptional isAbstract loc =>
      simp only [lowerClassMember, hvisible, Bool.false_eq_true, if_false] at h
      exact lowerClassMethod_made h
  | property key annotated isStatic access isReadonly isOptional loc =>
      simp only [lowerClassMember, hvisible, Bool.false_eq_true, if_false] at h
      exact named_made_plain rfl rfl h fun b hb => property_form rfl hb
  | index params annotated isReadonly isStatic loc => cases h
  | staticBlock loc => cases h
  | empty loc => cases h
  | _ =>
      simp only [lowerClassMember, hvisible, Bool.false_eq_true, if_false] at h
      exact misplacedMember_made h

theorem lowerClassMember_made {seenConstructor : Bool} {bindings : List Binding}
    (h : (lowerClassMember o seenConstructor member).result = .ok bindings) :
    List.Forall₂ (MadeMember o.name o.scope)
      (if bindsInClass member then [member] else []) bindings := by
  cases hhidden : isHidden member with
  | true =>
      have hbinds : bindsInClass member = false := by simp [bindsInClass, hhidden]
      have hnone : bindings = [] := by
        cases member with
        | index params annotated isReadonly isStatic loc => cases h
        | staticBlock loc => cases h
        | empty loc => cases h
        | _ =>
            simp only [lowerClassMember, hhidden, if_true] at h
            exact (Except.ok.inj h).symm
      simp [hbinds, hnone]
  | false =>
      cases hmember : isConstructorMember member with
      | true =>
          cases member with
          | constructorMember key params access loc =>
              simp only [lowerClassMember, hhidden, Bool.false_eq_true, if_false] at h
              obtain ⟨b, hb, rfl⟩ := constructorBinding_made h
              rw [if_pos (by simp [bindsInClass, hhidden])]
              exact List.Forall₂.cons hb List.Forall₂.nil
          | _ => cases hmember
      | false =>
          have hbinds : bindsInClass member = isNameable member := by
            cases member with
            | constructorMember key params access loc => cases hmember
            | _ => simp [bindsInClass, hhidden]
          rw [hbinds]
          exact lowerClassMember_made_of_visible hhidden hmember h

theorem LowersMember.made {options : Options} {owner : Text} {scope : GenericScope}
    (h : LowersMember options owner scope member b) : MadeMember owner scope member b := by
  have hsingle : ∀ binds : Bool, List.Forall₂ (MadeMember owner scope)
      (if binds then [member] else []) [b] → MadeMember owner scope member b := by
    intro binds hmade
    cases binds with
    | false => cases hmade
    | true =>
        cases hmade with
        | cons hb _ => exact hb
  cases h with
  | inClass h => exact hsingle _ (lowerClassMember_made h)
  | inInterface h => exact hsingle _ (lowerInterfaceMember_made h)

theorem lowersMember_of_made {binds : Bool} {bindings : List Binding}
    (hmade : List.Forall₂ (MadeMember o.name o.scope) (if binds then [member] else []) bindings)
    (hlowers : ∀ b, bindings = [b] → LowersMember o.options o.name o.scope member b) :
    List.Forall₂ (LowersMember o.options o.name o.scope) (if binds then [member] else [])
      bindings := by
  cases binds with
  | false =>
      cases hmade
      exact List.Forall₂.nil
  | true =>
      cases hmade with
      | cons _ hnone =>
          cases hnone
          exact List.Forall₂.cons (hlowers _ rfl) List.Forall₂.nil

theorem lowersMember_of_class {seenConstructor : Bool} {bindings : List Binding}
    (h : (lowerClassMember o seenConstructor member).result = .ok bindings) :
    List.Forall₂ (LowersMember o.options o.name o.scope)
      (if bindsInClass member then [member] else []) bindings :=
  lowersMember_of_made (lowerClassMember_made h) fun _ hb => .inClass (hb ▸ h)

theorem lowersMember_of_interface {bindings : List Binding}
    (h : (lowerInterfaceMember o member).result = .ok bindings) :
    List.Forall₂ (LowersMember o.options o.name o.scope)
      (if bindsInInterface member then [member] else []) bindings :=
  lowersMember_of_made (lowerInterfaceMember_made h) fun _ hb => .inInterface (hb ▸ h)

theorem lowersMember_of_literal {literal : Text} {bindings : List Binding}
    (h : (lowerLiteralMember o literal member).result = .ok bindings) :
    List.Forall₂ (LowersMember o.options o.name o.scope)
      (if bindsInLiteral member then [member] else []) bindings := by
  cases member with
  | propertySignature key annotated isOptional isReadonly loc =>
      obtain ⟨within, hmember⟩ := inMember_eq_ok h
      exact lowersMember_of_interface hmember
  | stray s key =>
      cases s with
      | node kind loc =>
          rw [← Except.ok.inj h]
          exact List.Forall₂.nil
      | value => cases h
  | _ =>
      rw [← Except.ok.inj h]
      exact List.Forall₂.nil

end

theorem forall₂_filter_cons {α β : Type} {R : α → β → Prop} {p : α → Bool} {a : α} {as : List α}
    {head tail : List β} (hhead : List.Forall₂ R (if p a then [a] else []) head)
    (htail : List.Forall₂ R (as.filter p) tail) :
    List.Forall₂ R ((a :: as).filter p) (head ++ tail) := by
  have hcons : (a :: as).filter p = (if p a then [a] else []) ++ as.filter p := by
    cases hp : p a <;> simp [hp]
  rw [hcons]
  exact List.rel_append hhead htail

theorem lowerClassMembers_lowered {o : Owner} {seenConstructor : Bool} {members : List Member}
    {bindings : List Binding}
    (h : (lowerClassMembers o seenConstructor members).result = .ok bindings) :
    List.Forall₂ (LowersMember o.options o.name o.scope) (members.filter bindsInClass)
      bindings := by
  induction members generalizing seenConstructor bindings with
  | nil =>
      rw [← Except.ok.inj h]
      exact List.Forall₂.nil
  | cons member rest ih =>
      simp only [lowerClassMembers, result_bind_eq_ok_iff] at h
      obtain ⟨head, hhead, tail, htail, hreturn⟩ := h
      rw [← Except.ok.inj hreturn]
      obtain ⟨within, hmember⟩ := inMember_eq_ok hhead
      have hlowers := lowersMember_of_class hmember
      exact forall₂_filter_cons hlowers (ih htail)

theorem lowerInterfaceMembers_lowered {o : Owner} {members : List Member} {bindings : List Binding}
    (h : (lowerInterfaceMembers o members).result = .ok bindings) :
    List.Forall₂ (LowersMember o.options o.name o.scope) (members.filter bindsInInterface)
      bindings := by
  induction members generalizing bindings with
  | nil =>
      rw [← Except.ok.inj h]
      exact List.Forall₂.nil
  | cons member rest ih =>
      simp only [lowerInterfaceMembers, result_bind_eq_ok_iff] at h
      obtain ⟨head, hhead, tail, htail, hreturn⟩ := h
      rw [← Except.ok.inj hreturn]
      obtain ⟨within, hmember⟩ := inMember_eq_ok hhead
      have hlowers := lowersMember_of_interface hmember
      exact forall₂_filter_cons hlowers (ih htail)

theorem lowerLiteralMembers_lowered {o : Owner} {literal : Text} {members : List Member}
    {bindings : List Binding}
    (h : (lowerLiteralMembers o literal members).result = .ok bindings) :
    List.Forall₂ (LowersMember o.options o.name o.scope) (members.filter bindsInLiteral)
      bindings := by
  induction members generalizing bindings with
  | nil =>
      rw [← Except.ok.inj h]
      exact List.Forall₂.nil
  | cons member rest ih =>
      simp only [lowerLiteralMembers_cons, result_bind_eq_ok_iff] at h
      obtain ⟨head, hhead, tail, htail, hreturn⟩ := h
      rw [← Except.ok.inj hreturn]
      exact forall₂_filter_cons (lowersMember_of_literal hhead) (ih htail)

theorem forall₂_lowered_of_type {options : Options} {d : Declaration} {name : Text}
    {members : List Binding} (htype : declaresType d = true) (hname : d.name? = some name)
    (hmembers : List.Forall₂
      (LowersMember options (Identifier.rustName name) (declarationScope d))
      (boundMembers d) members) :
    List.Forall₂ (Lowered options)
      (⟨[], d, none⟩ :: (boundMembers d).map fun member => ⟨[], d, some member⟩)
      (hostType (Identifier.sanitize name) (declaredBases d) d.loc :: members) := by
  refine List.Forall₂.cons (Lowered.hostType [] htype hname) ?_
  rw [List.forall₂_map_left_iff]
  exact hmembers.imp fun member b hb => Lowered.member [] hname hb

theorem requireName_eq_ok {what name : Text} {name? : Option Text} {loc : Option Location}
    (h : (requireName what name? loc).result = .ok name) : name? = some name := by
  rcases name? with _ | _ | ⟨c, rest⟩
  · cases h
  · cases h
  · exact congrArg some (Except.ok.inj h)

theorem lowerClass_lowered {options : Options} {within : List Text} {d : ClassDeclaration}
    {bindings : List Binding} (h : (lowerClass options within d).result = .ok bindings) :
    List.Forall₂ (Lowered options) (originsIn [] (.classDeclaration d)) bindings := by
  simp only [lowerClass, result_bind_eq_ok_iff] at h
  obtain ⟨name, hname, members, hmembers, hreturn⟩ := h
  rw [← Except.ok.inj hreturn]
  exact forall₂_lowered_of_type rfl (requireName_eq_ok hname) (lowerClassMembers_lowered hmembers)

theorem lowerInterface_lowered {options : Options} {within : List Text} {d : InterfaceDeclaration}
    {bindings : List Binding} (h : (lowerInterface options within d).result = .ok bindings) :
    List.Forall₂ (Lowered options) (originsIn [] (.interface d)) bindings := by
  simp only [lowerInterface, result_bind_eq_ok_iff] at h
  obtain ⟨members, hmembers, hreturn⟩ := h
  rw [← Except.ok.inj hreturn]
  exact forall₂_lowered_of_type rfl rfl (lowerInterfaceMembers_lowered hmembers)

theorem lowerAlias_lowered {options : Options} {within : List Text} {d : AliasDeclaration}
    {bindings : List Binding} (h : (lowerAlias options within d).result = .ok bindings) :
    List.Forall₂ (Lowered options) (originsIn [] (.typeAlias d)) bindings := by
  simp only [lowerAlias] at h
  split at h
  · rename_i literal loc hobject
    obtain ⟨members, hmembers, hreturn⟩ := (result_bind_eq_ok_iff _ _ _).mp h
    rw [← Except.ok.inj hreturn]
    apply forall₂_lowered_of_type rfl rfl
    simp only [boundMembers, hobject]
    exact lowerLiteralMembers_lowered hmembers
  · rw [← Except.ok.inj h]
    apply forall₂_lowered_of_type rfl rfl
    have hnone : boundMembers (.typeAlias d) = [] := by
      simp only [boundMembers]
    rw [hnone]
    exact List.Forall₂.nil

theorem lowerFunction_form {options : Options} {within : List Text} {d : FunctionDeclaration}
    {bindings : List Binding} (h : (lowerFunction options within d).result = .ok bindings) :
    ∃ form, DeclarationForm (.function d) form ∧ bindings = [form] := by
  simp only [lowerFunction, result_bind_eq_ok_iff] at h
  obtain ⟨name, hname, params, _, result, _, hreturn⟩ := h
  exact ⟨_, DeclarationForm.function (requireName_eq_ok hname) params result,
    (Except.ok.inj hreturn).symm⟩

theorem lowerVariables_form {options : Options} {within : List Text} {d : VariableDeclaration}
    {bindings : List Binding} (h : (lowerVariables options within d).result = .ok bindings) :
    ∃ form, DeclarationForm (.variableDeclaration d) form ∧ bindings = [form] := by
  rw [lowerVariables] at h
  split at h
  · cases h
  · rename_i declarator _ hsingle
    split at h
    · rename_i name loc hpattern
      obtain ⟨type, _, hreturn⟩ := (result_bind_eq_ok_iff _ _ _).mp h
      have hname : (Declaration.variableDeclaration d).name? = some name := by
        obtain ⟨pattern, annotated, declaratorLoc⟩ := declarator
        simp only at hpattern
        subst hpattern
        simp only [Declaration.name?, hsingle]
      exact ⟨_, DeclarationForm.static hname type, (Except.ok.inj hreturn).symm⟩
    · cases h
  · cases h

theorem lowerFunction_lowered {options : Options} {within : List Text} {d : FunctionDeclaration}
    {bindings : List Binding} (h : (lowerFunction options within d).result = .ok bindings) :
    List.Forall₂ (Lowered options) (originsIn [] (.function d)) bindings := by
  obtain ⟨form, _, rfl⟩ := lowerFunction_form h
  exact List.Forall₂.cons (Lowered.function [] h) List.Forall₂.nil

theorem lowerVariables_lowered {options : Options} {within : List Text}
    {d : VariableDeclaration} {bindings : List Binding}
    (h : (lowerVariables options within d).result = .ok bindings) :
    List.Forall₂ (Lowered options) (originsIn [] (.variableDeclaration d)) bindings := by
  obtain ⟨form, _, rfl⟩ := lowerVariables_form h
  exact List.Forall₂.cons (Lowered.static [] h) List.Forall₂.nil

/-- What lowering makes for an origin has one of the forms that it can have. -/
theorem Lowered.made {options : Options} {o : Origin} {b : Binding} (h : Lowered options o b) :
    Made o b := by
  cases h with
  | hostType spaces htype hname => exact Made.declared spaces (DeclarationForm.hostType htype hname)
  | function spaces h =>
      obtain ⟨form, hform, heq⟩ := lowerFunction_form h
      rw [List.singleton_inj.mp heq]
      exact Made.declared spaces hform
  | static spaces h =>
      obtain ⟨form, hform, heq⟩ := lowerVariables_form h
      rw [List.singleton_inj.mp heq]
      exact Made.declared spaces hform
  | member spaces hname h => exact Made.member spaces hname h.made

theorem Made.enclose {o : Origin} {b : Binding} (h : Made o b) (name : Text) :
    Made (o.enclose name) (b.enclose name) := by
  cases h with
  | declared spaces hform => exact Made.declared (name :: spaces) hform
  | member spaces hname hmade => exact Made.member (name :: spaces) hname hmade

mutual

theorem originsIn_cons (name : Text) (spaces : List Text) (d : Declaration) :
    originsIn (name :: spaces) d = (originsIn spaces d).map (Origin.enclose name) := by
  cases d with
  | space d =>
      obtain ⟨inner, body, isStringName, isGlobal, loc⟩ := d
      cases body with
      | block statements blockLoc =>
          simp only [originsIn]
          split
          · rfl
          · split
            · exact originsOf_cons name spaces statements
            · exact originsOf_cons name (spaces ++ [inner]) statements
      | missing => simp only [originsIn, List.map_nil]
      | nested inner => simp only [originsIn, List.map_nil]
  | enumeration d => simp only [originsIn, List.map_nil]
  | stray s => simp only [originsIn, List.map_nil]
  | _ => simp [originsIn, Origin.enclose]

theorem originsOf_cons (name : Text) (spaces : List Text) (statements : List Statement) :
    originsOf (name :: spaces) statements =
      (originsOf spaces statements).map (Origin.enclose name) := by
  match statements with
  | [] => simp only [originsOf, List.map_nil]
  | .declaration d :: rest | .exportDeclaration d _ :: rest
  | .exportDefaultDeclaration d _ :: rest =>
      simp only [originsOf, List.map_append]
      rw [originsIn_cons name spaces d, originsOf_cons name spaces rest]
  | .importDeclaration _ :: rest | .importAlias _ :: rest | .exportList _ :: rest
  | .exportDefaultName _ _ :: rest | .exportAll _ _ _ :: rest | .exportAssignment _ _ :: rest
  | .exportAsNamespace _ _ :: rest | .stray _ :: rest =>
      simp only [originsOf]
      exact originsOf_cons name spaces rest

end

theorem Lowered.enclose {options : Options} {o : Origin} {b : Binding} (h : Lowered options o b)
    (name : Text) : Lowered options (o.enclose name) (b.enclose name) := by
  cases h with
  | hostType spaces htype hname => exact Lowered.hostType (name :: spaces) htype hname
  | function spaces h => exact Lowered.function (name :: spaces) h
  | static spaces h => exact Lowered.static (name :: spaces) h
  | member spaces hname h => exact Lowered.member (name :: spaces) hname h

theorem forall₂_lowered_enclose {options : Options} {origins : List Origin}
    {bindings : List Binding} (h : List.Forall₂ (Lowered options) origins bindings)
    (name : Text) :
    List.Forall₂ (Lowered options) (origins.map (Origin.enclose name))
      (bindings.map (Binding.enclose name)) := by
  rw [List.forall₂_map_left_iff, List.forall₂_map_right_iff]
  exact h.imp fun o b hb => hb.enclose name

mutual

/-- Lowering gives one binding for each origin of a declaration, in order. -/
theorem lower_lowered {options : Options} {within : List Text} {d : Declaration}
    {bindings : List Binding} (h : (lower options within d).result = .ok bindings) :
    List.Forall₂ (Lowered options) (originsIn [] d) bindings := by
  cases d with
  | classDeclaration d =>
      simp only [lower, inDeclaration, result_within_eq_ok_iff] at h
      exact lowerClass_lowered h
  | function d =>
      simp only [lower, inDeclaration, result_within_eq_ok_iff] at h
      exact lowerFunction_lowered h
  | variableDeclaration d =>
      simp only [lower, inDeclaration, result_within_eq_ok_iff] at h
      exact lowerVariables_lowered h
  | typeAlias d =>
      simp only [lower, inDeclaration, result_within_eq_ok_iff] at h
      exact lowerAlias_lowered h
  | interface d =>
      simp only [lower, inDeclaration, result_within_eq_ok_iff] at h
      exact lowerInterface_lowered h
  | enumeration d => cases h
  | space d =>
      simp only [lower, inDeclaration, result_within_eq_ok_iff] at h
      exact lowerNamespace_lowered h
  | stray s => cases s <;> cases h

theorem lowerNamespace_lowered {options : Options} {within : List Text} {d : Namespace}
    {bindings : List Binding} (h : (lowerNamespace options within d).result = .ok bindings) :
    List.Forall₂ (Lowered options) (originsIn [] (.space d)) bindings := by
  obtain ⟨name, body, isStringName, isGlobal, loc⟩ := d
  cases body with
  | block statements blockLoc =>
      simp only [lowerNamespace] at h
      simp only [originsIn]
      split at h
      · rename_i hstring
        rw [← Except.ok.inj h, if_pos hstring]
        exact List.Forall₂.nil
      · rename_i hstring
        rw [if_neg hstring]
        obtain ⟨inner, hinner, hreturn⟩ := (result_bind_eq_ok_iff _ _ _).mp h
        have hlowered := lowerStatements_lowered hinner
        rw [← Except.ok.inj hreturn]
        cases isGlobal with
        | true => exact hlowered
        | false =>
            simp only [Bool.false_eq_true, if_false, List.nil_append]
            rw [originsOf_cons]
            exact forall₂_lowered_enclose hlowered name
  | _ =>
      have hnone : bindings = [] := by
        simp only [lowerNamespace] at h
        split at h <;> exact (Except.ok.inj h).symm
      rw [hnone]
      simp only [originsIn]
      exact List.Forall₂.nil

theorem lowerStatements_lowered {options : Options} {within : List Text}
    {statements : List Statement} {bindings : List Binding}
    (h : (lowerStatements options within statements).result = .ok bindings) :
    List.Forall₂ (Lowered options) (originsOf [] statements) bindings := by
  match statements with
  | [] =>
      rw [← Except.ok.inj h]
      exact List.Forall₂.nil
  | .declaration d :: rest | .exportDeclaration d _ :: rest
  | .exportDefaultDeclaration d _ :: rest =>
      simp only [lowerStatements, result_bind_eq_ok_iff] at h
      obtain ⟨head, hhead, tail, htail, hreturn⟩ := h
      rw [← Except.ok.inj hreturn]
      simp only [originsOf]
      exact List.rel_append (lower_lowered hhead) (lowerStatements_lowered htail)
  | .importDeclaration _ :: rest | .importAlias _ :: rest | .exportList _ :: rest
  | .exportDefaultName _ _ :: rest | .exportAll _ _ _ :: rest | .exportAssignment _ _ :: rest
  | .exportAsNamespace _ _ :: rest | .stray _ :: rest =>
      simp only [lowerStatements] at h
      simp only [originsOf]
      exact lowerStatements_lowered h

end

theorem lower_made {options : Options} {within : List Text} {d : Declaration}
    {bindings : List Binding} (h : (lower options within d).result = .ok bindings) :
    List.Forall₂ Made (originsIn [] d) bindings :=
  (lower_lowered h).imp fun _ _ hb => hb.made

theorem StandsFor.encloseAll {around : List Text} {o : Origin} {b : Binding}
    (h : StandsFor around o b) (names : List Text) :
    StandsFor (names ++ around) o (b.encloseAll names) := by
  rw [Binding.encloseAll_eq]
  refine ⟨h.kind, h.loc, ?_, h.owner, h.isConstructor, h.hostName⟩
  simp [h.namespacePath]

theorem hostName_accessor (owner mark raw : Text) (isStatic : Bool) (result : Option BindingType)
    (value : Option Parameter) (loc : Option Location) :
    (accessor owner mark raw isStatic result value loc).hostName = raw := by
  simp only [accessor, Binding.hostName, memberAttributes]
  split
  · rename_i hplain
    simp only [Bool.and_eq_true, List.isEmpty_iff, Option.isNone_iff_eq_none] at hplain
    obtain ⟨rfl, hforeign⟩ := hplain
    have hread := Identifier.foreign_getD_bareName raw
    rw [List.nil_append] at hforeign ⊢
    rwa [hforeign] at hread
  · rfl

theorem MemberForm.standsFor {d : Declaration} {name : Text} {member : Member} {form : Binding}
    (h : MemberForm (Identifier.rustName name) member form) (hname : d.name? = some name) :
    StandsFor [] ⟨[], d, some member⟩ form := by
  cases h with
  | constructor hmember params =>
      refine ⟨rfl, rfl, rfl, ?_, fun _ => hmember, fun h => nomatch h rfl⟩
      simp [Origin.owner?, hname]
  | @method key hkey isStatic params result =>
      refine ⟨rfl, rfl, rfl, ?_, nofun, fun _ => ?_⟩
      · simp [memberAttributes, Origin.owner?, hname]
      · simp only [Origin.rawName?, hkey, Option.map_some]
        exact congrArg some (Identifier.foreign_getD_bareName key.value).symm
  | @accessor key hkey mark isStatic result value =>
      refine ⟨rfl, rfl, rfl, ?_, nofun, fun _ => ?_⟩
      · simp [Lowering.accessor, memberAttributes, Origin.owner?, hname]
      · simp only [Origin.rawName?, hkey, Option.map_some]
        exact congrArg some (hostName_accessor ..).symm

theorem DeclarationForm.standsFor {d : Declaration} {form : Binding} (h : DeclarationForm d form) :
    StandsFor [] ⟨[], d, none⟩ form := by
  cases h with
  | @hostType _ name htype hname =>
      refine ⟨?_, rfl, rfl, rfl, nofun, fun _ => ?_⟩
      · cases d <;> first | rfl | cases htype
      · exact hname.trans (congrArg some (Identifier.foreign_getD_bareName name).symm)
  | @function d name hname params result =>
      refine ⟨rfl, rfl, rfl, rfl, nofun, fun _ => ?_⟩
      exact hname.trans (congrArg some (Identifier.foreign_getD_bareName name).symm)
  | @static d name hname type =>
      refine ⟨rfl, rfl, rfl, rfl, nofun, fun _ => ?_⟩
      exact hname.trans (congrArg some (Identifier.foreign_getD_bareName name).symm)

theorem StandsFor.mapTypes {around : List Text} {o : Origin} {b : Binding}
    (h : StandsFor around o b) (f : Bool → BindingType → BindingType) :
    StandsFor around o (b.mapTypes f) := by
  have hkind : (b.mapTypes f).shape.kind = b.shape.kind := BindingShape.kind_mapTypes f b.shape
  refine ⟨hkind.trans h.kind, h.loc, h.namespacePath, h.owner, h.isConstructor, ?_⟩
  rw [hkind]
  exact h.hostName

theorem Made.standsFor {o : Origin} {b : Binding} (h : Made o b) : StandsFor [] o b := by
  have hspaces : ∀ {d member form}, StandsFor [] ⟨[], d, member⟩ form → ∀ spaces,
      StandsFor [] ⟨spaces, d, member⟩ (form.encloseAll spaces) := by
    intro d member form hform spaces
    have henclosed := hform.encloseAll spaces
    exact ⟨henclosed.kind, henclosed.loc, by simpa using henclosed.namespacePath,
      henclosed.owner, henclosed.isConstructor, henclosed.hostName⟩
  cases h with
  | declared spaces hform => exact hspaces hform.standsFor spaces
  | member spaces hname hmade =>
      obtain ⟨form, hform, rfl⟩ := hmade
      exact hspaces ((hform.standsFor hname).mapTypes _) spaces

theorem isRust_new : Identifier.IsRust "new" :=
  Or.inl ⟨rfl, by decide⟩

theorem MemberForm.isRust {owner : Text} {member : Member} {form : Binding}
    (h : MemberForm owner member form) : Identifier.IsRust form.name := by
  cases h with
  | constructor => exact isRust_new
  | method => exact Identifier.isRust_rustName _
  | accessor => exact Identifier.isRust_rustName _

theorem DeclarationForm.isRust {d : Declaration} {form : Binding} (h : DeclarationForm d form) :
    Identifier.IsRust form.name := by
  cases h with
  | hostType => exact Identifier.isRust_rustName _
  | function => exact Identifier.isRust_rustName _
  | static => exact Identifier.isRust_rustName _

theorem Made.isRust {o : Origin} {b : Binding} (h : Made o b) : Identifier.IsRust b.name := by
  cases h with
  | declared spaces hform =>
      rw [Binding.encloseAll_eq]
      exact hform.isRust
  | member spaces hname hmade =>
      obtain ⟨form, hform, rfl⟩ := hmade
      rw [Binding.encloseAll_eq]
      exact hform.isRust

theorem StandsFor.owner_ne_self {around : List Text} {o : Origin} {b : Binding}
    (h : StandsFor around o b) {owner : Text} (howner : b.attributes.owner = some owner) :
    owner ≠ Text.ofString "Self" := by
  rw [h.owner, Origin.owner?, Option.bind_eq_some_iff] at howner
  obtain ⟨_, _, hname⟩ := howner
  obtain ⟨name, _, rfl⟩ := Option.map_eq_some_iff.mp hname
  exact Identifier.rustName_ne_self name

end Lowering

end HostBindings

import HostBindings.Lowering.Declarations

/-!
Results of lowering. The names of the declarations around a place show in warnings only: what a
lowering gives, and how it fails, is the same under any of them.
-/

namespace HostBindings

namespace Outcome

variable {α β : Type}

instance : LawfulMonad Outcome := LawfulMonad.mk' Outcome
  (by
    intro α x
    rcases x with ⟨warnings, result⟩
    cases result <;> simp [Functor.map, andThen, done])
  (by
    intro α β a k
    simp [bind_eq, andThen, pure, done])
  (by
    intro α β γ x k l
    rcases x with ⟨warnings, result⟩
    cases result with
    | error e => rfl
    | ok a =>
        simp only [bind_eq, andThen]
        cases (k a).result <;> simp)

theorem result_bind (x : Outcome α) (f : α → Outcome β) :
    (x >>= f).result = x.result.bind fun a => (f a).result := by
  rw [bind_eq, andThen]
  cases x.result <;> rfl

theorem result_within (declaration member : Option Text) (loc : Option Location)
    (x : Outcome α) :
    (x.within declaration member loc).result =
      x.result.mapError
        (Halt.within declaration member (loc.map fun l => Span.ofLocation (some l))) := rfl

theorem result_within_eq_ok_iff {declaration member : Option Text} {loc : Option Location}
    {x : Outcome α} {a : α} :
    (x.within declaration member loc).result = .ok a ↔ x.result = .ok a := by
  rw [result_within]
  cases x.result with
  | ok value => exact Iff.rfl
  | error e => exact ⟨nofun, nofun⟩

end Outcome

namespace Lowering

open Source Outcome

theorem result_importedType (options : Options) (within : List Text) (specifier : Text)
    (qualifier : List Text) (loc : Option Location) :
    (importedType options within specifier qualifier loc).result =
      (importedType options [] specifier qualifier loc).result := by
  rw [importedType, importedType]
  split
  · rfl
  · split <;> rfl

mutual

theorem result_mapType (options : Options) (within : List Text) (ty : TypeExpr) :
    (mapType options within ty).result = (mapType options [] ty).result := by
  cases ty with
  | reference qualifier name args loc =>
      cases args with
      | nil =>
          simp only [mapType]
      | cons element rest =>
          simp only [mapType]
          split
          · rfl
          · split
            · simp only [result_bind]
              rw [result_mapType options within element]
            · rfl
  | function params result typeParams loc =>
      simp only [mapType, result_bind]
      rw [result_mapParams options within params, result_mapResult options within result]
  | array element loc =>
      simp only [mapType, result_bind]
      rw [result_mapType options within element]
  | optional inner loc =>
      simp only [mapType, result_bind]
      rw [result_mapType options within inner]
  | union members loc =>
      match members with
      | [] => rfl
      | [_] => rfl
      | _ :: _ :: _ :: _ => rfl
      | [first, second] =>
          simp only [mapType]
          split
          · simp only [result_bind]
            rw [result_mapType options within first]
          · split
            · simp only [result_bind]
              rw [result_mapType options within second]
            · rfl
  | intersection members loc =>
      cases members with
      | nil => rfl
      | cons first rest =>
          simp only [mapType]
          exact result_mapType options within first
  | tuple elements loc =>
      simp only [mapType, result_bind]
      rw [result_mapTypes options within elements]
  | paren inner loc =>
      simp only [mapType]
      exact result_mapType options within inner
  | importType specifier qualifier args loc =>
      simp only [mapType]
      exact result_importedType options within specifier qualifier loc
  | _ => rfl

theorem result_mapTypes (options : Options) (within : List Text) (tys : List TypeExpr) :
    (mapTypes options within tys).result = (mapTypes options [] tys).result := by
  cases tys with
  | nil => rfl
  | cons ty rest =>
      simp only [mapTypes, result_bind]
      rw [result_mapType options within ty, result_mapTypes options within rest]

theorem result_mapParams (options : Options) (within : List Text) (params : List Param) :
    (mapParams options within params).result = (mapParams options [] params).result := by
  match params with
  | [] => rfl
  | ⟨pattern, annotated, isOptional, isRest, loc⟩ :: rest =>
      cases pattern with
      | name name nameLoc =>
          simp only [mapParams, result_bind]
          rw [result_mapAnnotated options within annotated, result_mapParams options within rest]
      | _ => rfl

theorem result_mapAnnotated (options : Options) (within : List Text)
    (annotated : Option TypeExpr) :
    (mapAnnotated options within annotated).result =
      (mapAnnotated options [] annotated).result := by
  cases annotated with
  | none => rfl
  | some ty =>
      simp only [mapAnnotated]
      exact result_mapType options within ty

theorem result_mapResult (options : Options) (within : List Text) (result : Option TypeExpr) :
    (mapResult options within result).result = (mapResult options [] result).result := by
  cases result with
  | none => rfl
  | some ty =>
      simp only [mapResult]
      split
      · rfl
      · simp only [result_bind]
        rw [result_mapType options within ty]

end

theorem result_lowerParams (options : Options) (within : List Text) (params : List Param) :
    (lowerParams options within params).result = (lowerParams options [] params).result := by
  induction params with
  | nil => rfl
  | cons p rest ih =>
      simp only [lowerParams]
      split
      · split
        · exact ih
        · simp only [lowerParam, result_bind]
          rw [result_mapAnnotated options within p.annotated, ih]
      · rfl
      · rfl

/-- The owner of a member, without the names of the declarations around it. -/
def Owner.anywhere (o : Owner) : Owner := { o with within := [] }

theorem result_method (o : Owner) (raw : Text) (signature : Signature) (isStatic : Bool)
    (loc : Option Location) :
    (method o raw signature isStatic loc).result =
      (method o.anywhere raw signature isStatic loc).result := by
  simp only [method, result_bind, Owner.anywhere]
  rw [result_lowerParams o.options o.within, result_mapResult o.options o.within]

theorem result_setter (o : Owner) (raw : Text) (params : List Param) (isStatic : Bool)
    (loc : Option Location) :
    (setter o raw params isStatic loc).result =
      (setter o.anywhere raw params isStatic loc).result := by
  simp only [setter, result_bind, Owner.anywhere]
  rw [result_lowerParams o.options o.within]

theorem result_getter (o : Owner) (raw : Text) (result : Option TypeExpr) (isStatic : Bool)
    (loc : Option Location) :
    (getter o raw result isStatic loc).result =
      (getter o.anywhere raw result isStatic loc).result := by
  simp only [getter, result_bind, Owner.anywhere]
  rw [result_mapAnnotated o.options o.within]

theorem result_property (o : Owner) (raw : Text) (annotated : Option TypeExpr)
    (isOptional isStatic : Bool) (loc : Option Location) :
    (property o raw annotated isOptional isStatic loc).result =
      (property o.anywhere raw annotated isOptional isStatic loc).result := by
  simp only [property, result_bind, Owner.anywhere]
  rw [result_mapAnnotated o.options o.within]

theorem result_named_congr (key : PropertyKey) (scope : GenericScope)
    {f g : Text → Outcome Binding} (h : ∀ raw, (f raw).result = (g raw).result) :
    (named key scope f).result = (named key scope g).result := by
  simp only [named, result_bind]
  congr 1
  funext name
  cases name with
  | none => rfl
  | some raw =>
      simp only [result_bind]
      rw [h raw]

theorem result_constructorBinding (o : Owner) (key : PropertyKey) (params : List Param)
    (seenConstructor : Bool) (loc : Option Location) :
    (constructorBinding o key params seenConstructor loc).result =
      (constructorBinding o.anywhere key params seenConstructor loc).result := by
  simp only [constructorBinding, Owner.anywhere]
  split
  · rfl
  · split
    · rfl
    · split
      · rfl
      · simp only [result_bind]
        rw [result_lowerParams o.options o.within]

theorem result_lowerClassMember (o : Owner) (seenConstructor : Bool) (member : Member) :
    (lowerClassMember o seenConstructor member).result =
      (lowerClassMember o.anywhere seenConstructor member).result := by
  cases member with
  | constructorMember key params access loc =>
      simp only [lowerClassMember]
      split
      · rfl
      · exact result_constructorBinding o key params seenConstructor loc
  | method key kind signature isStatic access isOptional isAbstract loc =>
      simp only [lowerClassMember]
      split
      · rfl
      · apply result_named_congr
        intro raw
        cases kind with
        | getter => exact result_getter o raw signature.result isStatic loc
        | setter => exact result_setter o raw signature.params isStatic loc
        | method => exact result_method o raw signature isStatic loc
  | property key annotated isStatic access isReadonly isOptional loc =>
      simp only [lowerClassMember]
      split
      · rfl
      · apply result_named_congr
        intro raw
        exact result_property o raw annotated isOptional isStatic loc
  | _ => rfl

theorem result_lowerInterfaceMember (o : Owner) (member : Member) :
    (lowerInterfaceMember o member).result = (lowerInterfaceMember o.anywhere member).result := by
  cases member with
  | propertySignature key annotated isOptional isReadonly loc =>
      exact result_named_congr key o.scope fun raw => result_property o raw annotated _ _ loc
  | methodSignature key signature isOptional loc =>
      exact result_named_congr key _ fun raw => result_method o raw signature _ loc
  | getterSignature key result loc =>
      exact result_named_congr key o.scope fun raw => result_getter o raw result _ loc
  | setterSignature key param loc =>
      exact result_named_congr key o.scope fun raw => result_setter o raw [param] _ loc
  | stray s key => cases s <;> rfl
  | _ => rfl

theorem result_inMember (o : Owner) (member : Member) (f : Owner → Outcome (List Binding))
    (h : ∀ o, (f o).result = (f o.anywhere).result) :
    (inMember o member f).result = (inMember o.anywhere member f).result := by
  simp only [inMember, result_within]
  rw [h, h { o.anywhere with within := _ }]
  rfl

theorem result_lowerClassMembers (o : Owner) (seenConstructor : Bool) (members : List Member) :
    (lowerClassMembers o seenConstructor members).result =
      (lowerClassMembers o.anywhere seenConstructor members).result := by
  induction members generalizing seenConstructor with
  | nil => rfl
  | cons member rest ih =>
      simp only [lowerClassMembers, result_bind]
      rw [result_inMember o member _ fun o => result_lowerClassMember o seenConstructor member]
      congr 1
      funext head
      rw [ih]

theorem result_lowerInterfaceMembers (o : Owner) (members : List Member) :
    (lowerInterfaceMembers o members).result =
      (lowerInterfaceMembers o.anywhere members).result := by
  induction members with
  | nil => rfl
  | cons member rest ih =>
      simp only [lowerInterfaceMembers, result_bind]
      rw [result_inMember o member _ fun o => result_lowerInterfaceMember o member, ih]

/-- The bindings of one member of an object type that an alias names. -/
def lowerLiteralMember (o : Owner) (literal : Text) (member : Member) : Outcome (List Binding) :=
  match member with
  | .propertySignature .. => inMember o member fun o => lowerInterfaceMember o member
  | .stray .value _ => Outcome.breakOff .incomplete
  | member => do
      Outcome.warn (.literalMember member.describe literal) member.loc
      pure []

theorem lowerLiteralMembers_cons (o : Owner) (literal : Text) (member : Member)
    (rest : List Member) :
    lowerLiteralMembers o literal (member :: rest) = do
      let head ← lowerLiteralMember o literal member
      let tail ← lowerLiteralMembers o literal rest
      return head ++ tail := by
  cases member with
  | stray s key => cases s <;> rfl
  | _ => rfl

theorem result_lowerLiteralMember (o : Owner) (literal : Text) (member : Member) :
    (lowerLiteralMember o literal member).result =
      (lowerLiteralMember o.anywhere literal member).result := by
  cases member with
  | propertySignature key annotated isOptional isReadonly loc =>
      exact result_inMember o _ _ fun o => result_lowerInterfaceMember o _
  | stray s key => cases s <;> rfl
  | _ => rfl

theorem result_lowerLiteralMembers (o : Owner) (literal : Text) (members : List Member) :
    (lowerLiteralMembers o literal members).result =
      (lowerLiteralMembers o.anywhere literal members).result := by
  induction members with
  | nil => rfl
  | cons member rest ih =>
      simp only [lowerLiteralMembers_cons, result_bind]
      rw [result_lowerLiteralMember, ih]

theorem result_lowerClass (options : Options) (within : List Text) (d : ClassDeclaration) :
    (lowerClass options within d).result = (lowerClass options [] d).result := by
  simp only [lowerClass, result_bind]
  congr 1
  funext name
  rw [result_lowerClassMembers]
  rfl

theorem result_lowerFunction (options : Options) (within : List Text) (d : FunctionDeclaration) :
    (lowerFunction options within d).result = (lowerFunction options [] d).result := by
  simp only [lowerFunction, result_bind]
  rw [result_lowerParams options within, result_mapResult options within]

theorem result_lowerVariables (options : Options) (within : List Text)
    (d : VariableDeclaration) :
    (lowerVariables options within d).result = (lowerVariables options [] d).result := by
  simp only [lowerVariables]
  split
  · rfl
  · split
    · simp only [result_bind]
      rw [result_mapAnnotated options within]
    · rfl
  · rfl

theorem result_lowerAlias (options : Options) (within : List Text) (d : AliasDeclaration) :
    (lowerAlias options within d).result = (lowerAlias options [] d).result := by
  simp only [lowerAlias]
  split
  · simp only [result_bind]
    rw [result_lowerLiteralMembers]
    rfl
  · rfl

theorem result_lowerInterface (options : Options) (within : List Text)
    (d : InterfaceDeclaration) :
    (lowerInterface options within d).result = (lowerInterface options [] d).result := by
  simp only [lowerInterface, result_bind]
  rw [result_lowerInterfaceMembers]
  rfl

theorem result_inDeclaration (within : List Text) (d : Declaration)
    (f : List Text → Outcome (List Binding)) (h : ∀ within, (f within).result = (f []).result) :
    (inDeclaration within d f).result = (f []).result.mapError
      (Halt.within d.name? none (d.loc.map fun l => Span.ofLocation (some l))) := by
  rw [inDeclaration, result_within, h]

mutual

/-- What a declaration gives does not depend on the declarations around it. -/
theorem result_lower (options : Options) (within : List Text) (d : Declaration) :
    (lower options within d).result = (lower options [] d).result := by
  cases d with
  | classDeclaration d =>
      have h := fun within => result_lowerClass options within d
      simp only [lower]
      rw [result_inDeclaration _ _ _ h, result_inDeclaration _ _ _ h]
  | function d =>
      have h := fun within => result_lowerFunction options within d
      simp only [lower]
      rw [result_inDeclaration _ _ _ h, result_inDeclaration _ _ _ h]
  | variableDeclaration d =>
      have h := fun within => result_lowerVariables options within d
      simp only [lower]
      rw [result_inDeclaration _ _ _ h, result_inDeclaration _ _ _ h]
  | typeAlias d =>
      have h := fun within => result_lowerAlias options within d
      simp only [lower]
      rw [result_inDeclaration _ _ _ h, result_inDeclaration _ _ _ h]
  | interface d =>
      have h := fun within => result_lowerInterface options within d
      simp only [lower]
      rw [result_inDeclaration _ _ _ h, result_inDeclaration _ _ _ h]
  | enumeration d => rfl
  | space d =>
      have h := fun within => result_lowerNamespace options within d
      simp only [lower]
      rw [result_inDeclaration _ _ _ h, result_inDeclaration _ _ _ h]
  | stray s => rfl

theorem result_lowerNamespace (options : Options) (within : List Text) (d : Namespace) :
    (lowerNamespace options within d).result = (lowerNamespace options [] d).result := by
  obtain ⟨name, body, isStringName, isGlobal, loc⟩ := d
  cases body with
  | missing => simp only [lowerNamespace]
  | nested inner => simp only [lowerNamespace]
  | block statements blockLoc =>
      simp only [lowerNamespace]
      split
      · rfl
      · simp only [result_bind]
        rw [result_lowerStatements options within statements]

theorem result_lowerStatements (options : Options) (within : List Text)
    (statements : List Statement) :
    (lowerStatements options within statements).result =
      (lowerStatements options [] statements).result := by
  match statements with
  | [] => rfl
  | .declaration d :: rest | .exportDeclaration d _ :: rest
  | .exportDefaultDeclaration d _ :: rest =>
      simp only [lowerStatements, result_bind]
      rw [result_lower options within d, result_lowerStatements options within rest]
  | .importDeclaration _ :: rest | .importAlias _ :: rest | .exportList _ :: rest
  | .exportDefaultName _ _ :: rest | .exportAll _ _ _ :: rest | .exportAssignment _ _ :: rest
  | .exportAsNamespace _ _ :: rest | .stray _ :: rest =>
      simp only [lowerStatements]
      exact result_lowerStatements options within rest

end

end Lowering

end HostBindings

import HostBindings.Proofs.LoweringResults
import HostBindings.Proofs.Relocation

/-!
Lowering commutes with relocation: places go into bindings, warnings and failures, and nothing is
decided by them.
-/

namespace HostBindings

variable (f : Location → Location)

namespace Outcome

variable {α β : Type}

@[simp]
theorem relocate_pure (a : α) : (pure a : Outcome α).relocate f = pure a := rfl

@[simp]
theorem relocate_bind (x : Outcome α) (k : α → Outcome β) :
    (x >>= k).relocate f = x.relocate f >>= fun a => (k a).relocate f := by
  rcases x with ⟨warnings, result⟩
  cases result with
  | error e => rfl
  | ok a =>
      simp only [bind_eq, andThen, relocate, List.map_append]
      rfl

@[simp]
theorem relocate_map (g : α → β) (x : Outcome α) :
    (g <$> x).relocate f = g <$> x.relocate f := by
  rw [map_eq_pure_bind, map_eq_pure_bind, relocate_bind]
  rfl

@[simp]
theorem relocate_warn (concern : Concern) (loc : Option Location) :
    (warn concern loc).relocate f = warn concern (loc.map f) := rfl

@[simp]
theorem relocate_fail (cause : Cause) (loc : Option Location) :
    (fail cause loc : Outcome α).relocate f = fail cause (loc.map f) := by
  cases loc <;> rfl

@[simp]
theorem relocate_breakOff (fault : Fault) :
    (breakOff fault : Outcome α).relocate f = breakOff fault := rfl

@[simp]
theorem relocate_within (declaration member : Option Text) (loc : Option Location)
    (x : Outcome α) :
    (x.within declaration member loc).relocate f =
      (x.relocate f).within declaration member (loc.map f) := by
  rcases x with ⟨warnings, result⟩
  cases result with
  | ok a => rfl
  | error e =>
      cases e with
      | fault fault => rfl
      | failure failure =>
          rcases failure with ⟨cause, own, ownMember, span⟩
          cases span with
          | some span => rfl
          | none => cases loc <;> rfl

@[simp]
theorem map_fail (g : α → β) (cause : Cause) (loc : Option Location) :
    g <$> (fail cause loc : Outcome α) = fail cause loc := rfl

@[simp]
theorem map_breakOff (g : α → β) (fault : Fault) :
    g <$> (breakOff fault : Outcome α) = breakOff fault := rfl

@[simp]
theorem breakOff_bind (fault : Fault) (k : α → Outcome β) :
    (breakOff fault >>= k) = breakOff fault := rfl

@[simp]
theorem within_map (g : α → β) (declaration member : Option Text) (loc : Option Location)
    (x : Outcome α) :
    (g <$> x).within declaration member loc = g <$> x.within declaration member loc := by
  rcases x with ⟨warnings, result⟩
  cases result <;> rfl

end Outcome

namespace Lowering

open Source

variable (options : Options) (within : List Text)

@[simp]
theorem degrade_relocate (what : Degraded) (loc : Option Location) :
    (degrade within what loc).relocate f = degrade within what (loc.map f) := rfl

@[simp]
theorem strayed_relocate {α : Type} (cause : Text → Cause) (s : Stray) :
    (strayed cause (s.relocate f) : Outcome α) = (strayed cause s).relocate f := by
  cases s <;> simp [Stray.relocate, strayed]

@[simp]
theorem keywordType_relocate (word : Keyword) (loc : Option Location) :
    keywordType word (loc.map f) = (keywordType word loc).relocate f := by
  cases word <;> simp [keywordType, inexpressible]

theorem stripParens_relocate (ty : TypeExpr) :
    stripParens (ty.relocate f) = (stripParens ty).relocate f := by
  cases ty with
  | paren inner loc =>
      rw [TypeExpr.relocate, stripParens, stripParens, stripParens_relocate inner]
  | _ => rfl

@[simp]
theorem isNullish_relocate (ty : TypeExpr) : isNullish (ty.relocate f) = isNullish ty := by
  rw [isNullish, isNullish, stripParens_relocate]
  cases stripParens ty with
  | keyword word loc => cases word <;> rfl
  | _ => rfl

@[simp]
theorem isVoid_relocate (ty : TypeExpr) : isVoid (ty.relocate f) = isVoid ty := by
  cases ty with
  | keyword word loc => cases word <;> rfl
  | _ => rfl

@[simp]
theorem importedType_relocate (specifier : Text) (qualifier : List Text)
    (loc : Option Location) :
    importedType options within specifier qualifier (loc.map f) =
      (importedType options within specifier qualifier loc).relocate f := by
  rw [importedType, importedType]
  split
  · simp
  · split <;> simp

@[simp]
theorem params_relocate (s : Signature) :
    (s.relocate f).params = s.params.map (Param.relocate f) := by
  cases s
  simp

@[simp]
theorem result_relocate (s : Signature) :
    (s.relocate f).result = s.result.map (TypeExpr.relocate f) := by
  cases s
  simp

@[simp]
theorem typeParams_relocate (s : Signature) :
    (s.relocate f).typeParams = s.typeParams.map (TypeParam.relocate f) := by
  cases s
  simp

@[simp]
theorem name_relocate (p : TypeParam) : (p.relocate f).name = p.name := by
  cases p
  simp

mutual

@[simp]
theorem mapType_relocate (ty : TypeExpr) :
    mapType options within (ty.relocate f) = (mapType options within ty).relocate f := by
  cases ty with
  | reference qualifier name args loc =>
      cases args with
      | nil =>
          simp only [TypeExpr.relocate, TypeExpr.relocateAll_eq, List.map_nil, mapType]
          split
          · rfl
          · split
            · rfl
            · split <;> rfl
      | cons element more =>
          simp only [TypeExpr.relocate, TypeExpr.relocateAll_eq, List.map_cons, mapType,
            mapType_relocate element]
          split
          · rfl
          · split
            · simp
            · split <;> rfl
  | function params result typeParams loc =>
      simp [mapType, mapParams_relocate params, mapResult_relocate result, Function.comp_def]
  | array element loc | optional element loc | paren element loc =>
      simp [mapType, mapType_relocate element]
  | union members loc =>
      match members with
      | [] | [_] | _ :: _ :: _ :: _ => simp [mapType]
      | [first, second] =>
          simp only [TypeExpr.relocate, TypeExpr.relocateAll_eq, List.map_cons, List.map_nil,
            mapType, isNullish_relocate, mapType_relocate first, mapType_relocate second]
          split
          · simp
          · split <;> simp
  | intersection members loc =>
      cases members with
      | nil => simp [mapType]
      | cons first more => simp [mapType, mapType_relocate first]
  | tuple elements loc => simp [mapType, mapTypes_relocate elements]
  | _ => simp [mapType, inexpressible]

@[simp]
theorem mapTypes_relocate (tys : List TypeExpr) :
    mapTypes options within (tys.map (TypeExpr.relocate f)) =
      (mapTypes options within tys).relocate f := by
  cases tys with
  | nil => rfl
  | cons ty rest => simp [mapTypes, mapType_relocate ty, mapTypes_relocate rest]

@[simp]
theorem mapParams_relocate (params : List Param) :
    mapParams options within (params.map (Param.relocate f)) =
      (mapParams options within params).relocate f := by
  match params with
  | [] => rfl
  | ⟨pattern, annotated, isOptional, isRest, loc⟩ :: rest =>
      cases pattern <;>
        simp [mapParams, BindingPattern.relocate, inexpressible, mapAnnotated_relocate annotated,
          mapParams_relocate rest]

@[simp]
theorem mapAnnotated_relocate (annotated : Option TypeExpr) :
    mapAnnotated options within (annotated.map (TypeExpr.relocate f)) =
      (mapAnnotated options within annotated).relocate f := by
  cases annotated with
  | none => rfl
  | some ty => simp [mapAnnotated, mapType_relocate ty]

@[simp]
theorem mapResult_relocate (result : Option TypeExpr) :
    mapResult options within (result.map (TypeExpr.relocate f)) =
      (mapResult options within result).relocate f := by
  cases result with
  | none => rfl
  | some ty =>
      simp only [Option.map_some, mapResult, isVoid_relocate, mapType_relocate ty]
      split <;> simp

end

section

variable (o : Owner)

@[simp]
theorem lowerParam_relocate (name : Text) (p : Param) :
    lowerParam options within name (p.relocate f) =
      (lowerParam options within name p).relocate f := by
  cases p
  simp [lowerParam]

@[simp]
theorem lowerParams_relocate (ps : List Param) :
    lowerParams options within (ps.map (Param.relocate f)) =
      (lowerParams options within ps).relocate f := by
  induction ps with
  | nil => rfl
  | cons p rest ih =>
      have hparam := fun name => lowerParam_relocate f options within name p
      obtain ⟨pattern, annotated, isOptional, isRest, loc⟩ := p
      rw [Param.relocate] at hparam
      cases pattern with
      | name name own =>
          simp only [List.map_cons, Param.relocate, BindingPattern.relocate, lowerParams, ih] at *
          split <;> simp_all
      | _ => simp [lowerParams, BindingPattern.relocate]

theorem relocate_erase (scope : GenericScope) (b : Binding) :
    (b.relocate f).erase scope = (b.erase scope).relocate f := rfl

theorem accessor_relocate (owner mark raw : Text) (isStatic : Bool) (result : Option BindingType)
    (value : Option Parameter) (loc : Option Location) :
    accessor owner mark raw isStatic result value (loc.map f) =
      (accessor owner mark raw isStatic result value loc).relocate f := rfl

@[simp]
theorem method_relocate (raw : Text) (signature : Signature) (isStatic : Bool)
    (loc : Option Location) :
    method o raw (signature.relocate f) isStatic (loc.map f) =
      Binding.relocate f <$> (method o raw signature isStatic loc).relocate f := by
  cases signature
  simp [method, Binding.relocate]

@[simp]
theorem setter_relocate (raw : Text) (params : List Param) (isStatic : Bool)
    (loc : Option Location) :
    setter o raw (params.map (Param.relocate f)) isStatic (loc.map f) =
      Binding.relocate f <$> (setter o raw params isStatic loc).relocate f := by
  simp [setter, accessor_relocate]

@[simp]
theorem getter_relocate (raw : Text) (result : Option TypeExpr) (isStatic : Bool)
    (loc : Option Location) :
    getter o raw (result.map (TypeExpr.relocate f)) isStatic (loc.map f) =
      Binding.relocate f <$> (getter o raw result isStatic loc).relocate f := by
  simp [getter, accessor_relocate]

@[simp]
theorem property_relocate (raw : Text) (annotated : Option TypeExpr) (isOptional isStatic : Bool)
    (loc : Option Location) :
    property o raw (annotated.map (TypeExpr.relocate f)) isOptional isStatic (loc.map f) =
      Binding.relocate f <$> (property o raw annotated isOptional isStatic loc).relocate f := by
  simp [property, accessor_relocate]

@[simp]
theorem memberName_relocate (key : PropertyKey) :
    memberName (key.relocate f) = (memberName key).relocate f := by
  obtain ⟨kind, value, loc⟩ := key
  cases kind <;> simp [memberName, PropertyKey.relocate]

theorem named_relocate (key : PropertyKey) (scope : GenericScope) {g g' : Text → Outcome Binding}
    (h : ∀ raw, g' raw = Binding.relocate f <$> (g raw).relocate f) :
    named (key.relocate f) scope g' =
      List.map (Binding.relocate f) <$> (named key scope g).relocate f := by
  simp only [named, memberName_relocate, Outcome.relocate_bind, map_bind]
  congr
  funext name
  cases name <;> simp [h, relocate_erase]

@[simp]
theorem key?_relocate (m : Member) :
    (m.relocate f).key? = m.key?.map (PropertyKey.relocate f) := by
  cases m <;> simp [Member.key?]

@[simp]
theorem loc_relocate (m : Member) : (m.relocate f).loc = m.loc.map f := by
  cases m with
  | stray s key => cases s <;> rfl
  | _ => simp [Member.loc]

@[simp]
theorem kindName_relocate (m : Member) : (m.relocate f).kindName = m.kindName := by
  cases m with
  | stray s key => cases s <;> rfl
  | _ => simp [Member.kindName]

@[simp]
theorem describe_relocate (m : Member) : (m.relocate f).describe = m.describe := by
  cases m with
  | stray s key => cases s <;> rfl
  | _ => simp [Member.describe, Member.kindName]

@[simp]
theorem access?_relocate (m : Member) : (m.relocate f).access? = m.access? := by
  cases m <;> simp [Member.access?]

@[simp]
theorem memberLabel?_relocate (m : Member) : memberLabel? (m.relocate f) = memberLabel? m := by
  cases m with
  | stray s key => cases key <;> rfl
  | _ => rfl

theorem inMember_relocate (m : Member) {g g' : Owner → Outcome (List Binding)}
    (h : ∀ o, g' o = List.map (Binding.relocate f) <$> (g o).relocate f) :
    inMember o (m.relocate f) g' =
      List.map (Binding.relocate f) <$> (inMember o m g).relocate f := by
  simp [inMember, h]

@[simp]
theorem isHidden_relocate (m : Member) : isHidden (m.relocate f) = isHidden m := by
  rw [isHidden, isHidden, access?_relocate, key?_relocate]
  cases m.key? <;> rfl

@[simp]
theorem constructorBinding_relocate (key : PropertyKey) (params : List Param) (seen : Bool)
    (loc : Option Location) :
    constructorBinding o (key.relocate f) (params.map (Param.relocate f)) seen (loc.map f) =
      List.map (Binding.relocate f) <$>
        (constructorBinding o key params seen loc).relocate f := by
  have hkey : constructorBinding o (key.relocate f) = constructorBinding o key := rfl
  rw [hkey, constructorBinding, constructorBinding]
  split
  · simp
  · split
    · simp
    · split
      · simp
      · simp [Binding.relocate, Binding.erase, Binding.mapTypes]

theorem unlessHidden_relocate (isHidden : Bool) {x x' : Outcome (List Binding)}
    (h : x' = List.map (Binding.relocate f) <$> x.relocate f) :
    (if isHidden = true then pure [] else x') =
      List.map (Binding.relocate f) <$>
        (if isHidden = true then pure [] else x : Outcome (List Binding)).relocate f := by
  split
  · rfl
  · exact h

theorem lowerClassMember_relocate (seen : Bool) (m : Member) :
    lowerClassMember o seen (m.relocate f) =
      List.map (Binding.relocate f) <$> (lowerClassMember o seen m).relocate f := by
  have hhidden := isHidden_relocate f m
  cases m with
  | index | staticBlock | empty => simp [lowerClassMember]
  | constructorMember key params access loc =>
      rw [Member.relocate] at hhidden ⊢
      simp only [lowerClassMember, hhidden]
      refine unlessHidden_relocate f _ ?_
      simp
  | method key kind signature isStatic access isOptional isAbstract loc =>
      rw [Member.relocate] at hhidden ⊢
      simp only [lowerClassMember, hhidden]
      refine unlessHidden_relocate f _ ?_
      simp only [typeParams_relocate, List.map_map, Function.comp_def, name_relocate]
      refine named_relocate f key _ fun raw => ?_
      cases kind <;> simp
  | property key annotated isStatic access isReadonly isOptional loc =>
      rw [Member.relocate] at hhidden ⊢
      simp only [lowerClassMember, hhidden]
      refine unlessHidden_relocate f _ (named_relocate f key _ fun raw => ?_)
      simp
  | propertySignature key | methodSignature key | getterSignature key | setterSignature key =>
      rw [Member.relocate] at hhidden ⊢
      simp only [lowerClassMember, hhidden]
      refine unlessHidden_relocate f _ (named_relocate f key _ fun raw => ?_)
      simp [Member.loc, Member.kindName]
  | callSignature | constructSignature =>
      rw [Member.relocate] at hhidden ⊢
      simp only [lowerClassMember, hhidden]
      exact unlessHidden_relocate f _ rfl
  | stray s key =>
      rw [Member.relocate] at hhidden ⊢
      simp only [lowerClassMember, hhidden]
      refine unlessHidden_relocate f _ ?_
      cases key with
      | none => rfl
      | some key =>
          refine named_relocate f key _ fun raw => ?_
          cases s <;> simp [Member.loc, Member.kindName, Stray.relocate, Stray.loc, Stray.kindName]

theorem madeConstructor_relocate (m : Member) (bindings : List Binding) :
    madeConstructor (m.relocate f) (bindings.map (Binding.relocate f)) =
      madeConstructor m bindings := by
  cases m <;> simp [madeConstructor]

theorem lowerClassMembers_relocate (seen : Bool) (ms : List Member) :
    lowerClassMembers o seen (ms.map (Member.relocate f)) =
      List.map (Binding.relocate f) <$> (lowerClassMembers o seen ms).relocate f := by
  induction ms generalizing seen with
  | nil => rfl
  | cons m rest ih =>
      have hmember := inMember_relocate f o m fun o => lowerClassMember_relocate f o seen m
      simp [lowerClassMembers, hmember, madeConstructor_relocate, ih]

theorem lowerInterfaceMember_relocate (m : Member) :
    lowerInterfaceMember o (m.relocate f) =
      List.map (Binding.relocate f) <$> (lowerInterfaceMember o m).relocate f := by
  cases m with
  | propertySignature key | getterSignature key =>
      simp only [Member.relocate, TypeExpr.relocateIn_eq, lowerInterfaceMember]
      exact named_relocate f key _ fun raw => by simp
  | methodSignature key signature =>
      simp only [Member.relocate, lowerInterfaceMember, typeParams_relocate, List.map_map,
        Function.comp_def, name_relocate]
      exact named_relocate f key _ fun raw => by simp
  | setterSignature key param =>
      simp only [Member.relocate, lowerInterfaceMember]
      exact named_relocate f key _ fun raw => setter_relocate f o raw [param] _ _
  | stray s key =>
      cases s <;> simp [lowerInterfaceMember, Stray.relocate, Member.describe, Member.kindName,
        Member.loc, Stray.kindName, Stray.loc]
  | _ => simp [lowerInterfaceMember, Member.describe, Member.kindName, Member.loc]

theorem lowerInterfaceMembers_relocate (ms : List Member) :
    lowerInterfaceMembers o (ms.map (Member.relocate f)) =
      List.map (Binding.relocate f) <$> (lowerInterfaceMembers o ms).relocate f := by
  induction ms with
  | nil => rfl
  | cons m rest ih =>
      have hmember := inMember_relocate f o m fun o => lowerInterfaceMember_relocate f o m
      simp [lowerInterfaceMembers, hmember, ih]

theorem lowerLiteralMembers_relocate (literal : Text) (ms : List Member) :
    lowerLiteralMembers o literal (ms.map (Member.relocate f)) =
      List.map (Binding.relocate f) <$> (lowerLiteralMembers o literal ms).relocate f := by
  induction ms with
  | nil => rfl
  | cons m rest ih =>
      have hmember := inMember_relocate f o m fun o => lowerInterfaceMember_relocate f o m
      cases m with
      | propertySignature =>
          rw [Member.relocate, TypeExpr.relocateIn_eq] at hmember
          simp [lowerLiteralMembers, hmember, ih]
      | stray s key =>
          cases s <;> simp [lowerLiteralMembers, Stray.relocate, Member.describe, Member.kindName,
            Member.loc, Stray.kindName, Stray.loc, ih]
      | _ => simp [lowerLiteralMembers, Member.describe, Member.kindName, Member.loc, ih]

end

theorem classBases_relocate (h : Option Heritage) :
    classBases (h.map (Heritage.relocate f)) = classBases h := by
  cases h <;> rfl

@[simp]
theorem scopeOf_relocate (ps : List TypeParam) :
    scopeOf (ps.map (TypeParam.relocate f)) = scopeOf ps := by
  simp [scopeOf, Function.comp_def]

theorem hostType_relocate (ident : Identifier) (bases : List (List Text))
    (loc : Option Location) :
    hostType ident bases (loc.map f) = (hostType ident bases loc).relocate f := rfl

@[simp]
theorem requireName_relocate (what : Text) (name : Option Text) (loc : Option Location) :
    requireName what name (loc.map f) = (requireName what name loc).relocate f := by
  match name with
  | none | some [] => simp [requireName]
  | some (c :: rest) => rfl

theorem lowerClass_relocate (d : ClassDeclaration) :
    lowerClass options within (d.relocate f) =
      List.map (Binding.relocate f) <$> (lowerClass options within d).relocate f := by
  simp [lowerClass, ClassDeclaration.relocate, classBases_relocate, hostType_relocate,
    lowerClassMembers_relocate]

theorem lowerFunction_relocate (d : FunctionDeclaration) :
    lowerFunction options within (d.relocate f) =
      List.map (Binding.relocate f) <$> (lowerFunction options within d).relocate f := by
  simp [lowerFunction, FunctionDeclaration.relocate, Binding.relocate, Binding.erase,
    Binding.mapTypes]

theorem lowerVariables_relocate (d : VariableDeclaration) :
    lowerVariables options within (d.relocate f) =
      List.map (Binding.relocate f) <$> (lowerVariables options within d).relocate f := by
  obtain ⟨kind, declarators, loc⟩ := d
  match declarators with
  | [] => simp [lowerVariables, VariableDeclaration.relocate]
  | [⟨pattern, annotated, own⟩] =>
      cases pattern <;>
        simp [lowerVariables, VariableDeclaration.relocate, Declarator.relocate,
          BindingPattern.relocate, Binding.relocate]
  | ⟨pattern, annotated, own⟩ :: second :: more =>
      cases pattern <;>
        simp [lowerVariables, VariableDeclaration.relocate, Declarator.relocate,
          BindingPattern.relocate]

theorem lowerAlias_relocate (d : AliasDeclaration) :
    lowerAlias options within (d.relocate f) =
      List.map (Binding.relocate f) <$> (lowerAlias options within d).relocate f := by
  simp only [lowerAlias, AliasDeclaration.relocate, stripParens_relocate, scopeOf_relocate,
    hostType_relocate]
  cases stripParens d.type with
  | object members loc => simp [lowerLiteralMembers_relocate]
  | _ => simp

theorem lowerInterface_relocate (d : InterfaceDeclaration) :
    lowerInterface options within (d.relocate f) =
      List.map (Binding.relocate f) <$> (lowerInterface options within d).relocate f := by
  simp [lowerInterface, InterfaceDeclaration.relocate, hostType_relocate,
    lowerInterfaceMembers_relocate]

mutual

theorem dottedName_relocate (d : Namespace) : dottedName (d.relocate f) = dottedName d := by
  obtain ⟨name, body, isStringName, isGlobal, loc⟩ := d
  rw [Namespace.relocate, dottedName, dottedName, restOfName_relocate body]

theorem restOfName_relocate (body : NamespaceBody) :
    restOfName (body.relocate f) = restOfName body := by
  cases body with
  | nested inner => rw [NamespaceBody.relocate, restOfName, restOfName, dottedName_relocate inner]
  | _ => rfl

end

@[simp]
theorem name?_relocate (d : Declaration) : (d.relocate f).name? = d.name? := by
  cases d with
  | variableDeclaration d =>
      obtain ⟨kind, declarators, loc⟩ := d
      match declarators with
      | [] => rfl
      | ⟨pattern, annotated, own⟩ :: rest => cases pattern <;> rfl
  | space d => cases d; rfl
  | _ => rfl

@[simp]
theorem declarationLoc_relocate (d : Declaration) : (d.relocate f).loc = d.loc.map f := by
  cases d with
  | space d => cases d; rfl
  | stray s => cases s <;> rfl
  | _ => rfl

@[simp]
theorem declarationKindName_relocate (d : Declaration) :
    (d.relocate f).kindName = d.kindName := by
  cases d with
  | stray s => cases s <;> rfl
  | _ => rfl

theorem inDeclaration_relocate (d : Declaration) {g g' : List Text → Outcome (List Binding)}
    (h : ∀ within, g' within = List.map (Binding.relocate f) <$> (g within).relocate f) :
    inDeclaration within (d.relocate f) g' =
      List.map (Binding.relocate f) <$> (inDeclaration within d g).relocate f := by
  simp [inDeclaration, h]

mutual

/-- A moved declaration has the same bindings, moved. -/
theorem lower_relocate (within : List Text) (d : Declaration) :
    lower options within (d.relocate f) =
      List.map (Binding.relocate f) <$> (lower options within d).relocate f := by
  cases d with
  | classDeclaration d =>
      simpa only [Declaration.relocate, lower] using
        inDeclaration_relocate f within (.classDeclaration d) fun within =>
          lowerClass_relocate f options within d
  | function d =>
      simpa only [Declaration.relocate, lower] using
        inDeclaration_relocate f within (.function d) fun within =>
          lowerFunction_relocate f options within d
  | variableDeclaration d =>
      simpa only [Declaration.relocate, lower] using
        inDeclaration_relocate f within (.variableDeclaration d) fun within =>
          lowerVariables_relocate f options within d
  | typeAlias d =>
      simpa only [Declaration.relocate, lower] using
        inDeclaration_relocate f within (.typeAlias d) fun within =>
          lowerAlias_relocate f options within d
  | interface d =>
      simpa only [Declaration.relocate, lower] using
        inDeclaration_relocate f within (.interface d) fun within =>
          lowerInterface_relocate f options within d
  | enumeration d =>
      have hfail : (Outcome.fail .enumeration (d.relocate f).loc : Outcome (List Binding)) =
          List.map (Binding.relocate f) <$> (Outcome.fail .enumeration d.loc).relocate f := by
        simp [EnumDeclaration.relocate]
      simpa only [Declaration.relocate, lower] using
        inDeclaration_relocate f within (.enumeration d) fun _ => hfail
  | space d =>
      simpa only [Declaration.relocate, lower] using
        inDeclaration_relocate f within (.space d) fun within => lowerNamespace_relocate within d
  | stray s => cases s <;> simp [lower, strayed, Stray.relocate]

theorem lowerNamespace_relocate (within : List Text) (d : Namespace) :
    lowerNamespace options within (d.relocate f) =
      List.map (Binding.relocate f) <$> (lowerNamespace options within d).relocate f := by
  obtain ⟨name, body, isStringName, isGlobal, loc⟩ := d
  cases body with
  | missing =>
      simp only [Namespace.relocate, NamespaceBody.relocate, lowerNamespace]
      split <;> simp
  | nested inner =>
      simp only [Namespace.relocate, NamespaceBody.relocate, lowerNamespace,
        dottedName_relocate f inner]
      split <;> simp
  | block statements own =>
      simp only [Namespace.relocate, NamespaceBody.relocate, Statement.relocateAll_eq,
        lowerNamespace, lowerStatements_relocate within statements]
      split
      · simp
      · cases isGlobal <;> simp [Function.comp_def, Binding.enclose, Binding.relocate]

theorem lowerStatements_relocate (within : List Text) (ss : List Statement) :
    lowerStatements options within (ss.map (Statement.relocate f)) =
      List.map (Binding.relocate f) <$> (lowerStatements options within ss).relocate f := by
  match ss with
  | [] => rfl
  | .declaration d :: rest | .exportDeclaration d _ :: rest
  | .exportDefaultDeclaration d _ :: rest =>
      simp [lowerStatements, lower_relocate within d, lowerStatements_relocate within rest]
  | .importDeclaration _ :: rest | .importAlias _ :: rest | .exportList _ :: rest
  | .exportDefaultName _ _ :: rest | .exportAll _ _ _ :: rest | .exportAssignment _ _ :: rest
  | .exportAsNamespace _ _ :: rest | .stray _ :: rest =>
      simp [lowerStatements, lowerStatements_relocate within rest]

end

end Lowering

end HostBindings

import HostBindings.Proofs.ErasureLaws
import HostBindings.Proofs.IdentifierLaws
import HostBindings.Proofs.LoweringResults

/-!
Erasure is substitution. Mapping a type expression and then erasing type parameters gives what the
mapping gives after `any` was written for the parameters in the source. The mapping sees foreign
names and erasure Rust names, so a reference counts as one to a parameter when the two have the same
Rust name; array names and string enumerations are taken by the mapping before erasure sees them.
-/

namespace HostBindings

namespace Source

mutual

/-- Writes the keyword `any` for every unqualified reference whose name `p` holds of. -/
def TypeExpr.anyFor (p : Text → Bool) : TypeExpr → TypeExpr
  | .keyword word loc => .keyword word loc
  | .this loc => .this loc
  | .reference qualifier name args loc =>
      if qualifier.isEmpty && p name then .keyword .any loc
      else .reference qualifier name (TypeExpr.anyForAll p args) loc
  | .unnamed args loc => .unnamed (TypeExpr.anyForAll p args) loc
  | .function params result typeParams loc =>
      .function (Param.anyForAll p params) (TypeExpr.anyForOption p result)
        (TypeParam.anyForAll p typeParams) loc
  | .constructorType params result typeParams isAbstract loc =>
      .constructorType (Param.anyForAll p params) (result.anyFor p)
        (TypeParam.anyForAll p typeParams) isAbstract loc
  | .array element loc => .array (element.anyFor p) loc
  | .optional inner loc => .optional (inner.anyFor p) loc
  | .union members loc => .union (TypeExpr.anyForAll p members) loc
  | .intersection members loc => .intersection (TypeExpr.anyForAll p members) loc
  | .tuple elements loc => .tuple (TypeExpr.anyForAll p elements) loc
  | .paren inner loc => .paren (inner.anyFor p) loc
  | .importType specifier qualifier args loc =>
      .importType specifier qualifier (TypeExpr.anyForAll p args) loc
  | .object members loc => .object (Member.anyForAll p members) loc
  | .literal kind value loc => .literal kind value loc
  | .indexed object index loc => .indexed (object.anyFor p) (index.anyFor p) loc
  | .query segments loc => .query segments loc
  | .mapped param constraint value loc =>
      .mapped param (constraint.anyFor p) (TypeExpr.anyForOption p value) loc
  | .conditional check bound whenTrue whenFalse loc =>
      .conditional (check.anyFor p) (bound.anyFor p) (whenTrue.anyFor p) (whenFalse.anyFor p) loc
  | .predicate param type asserts loc =>
      .predicate param (TypeExpr.anyForOption p type) asserts loc
  | .infer name loc => .infer name loc
  | .rest inner loc => .rest (inner.anyFor p) loc
  | .operator op inner loc => .operator op (inner.anyFor p) loc
  | .stray s => .stray s

def TypeExpr.anyForAll (p : Text → Bool) : List TypeExpr → List TypeExpr
  | [] => []
  | ty :: rest => ty.anyFor p :: TypeExpr.anyForAll p rest

def TypeExpr.anyForOption (p : Text → Bool) : Option TypeExpr → Option TypeExpr
  | none => none
  | some ty => some (ty.anyFor p)

def Param.anyForAll (p : Text → Bool) : List Param → List Param
  | [] => []
  | ⟨pattern, annotated, isOptional, isRest, loc⟩ :: rest =>
      ⟨pattern, TypeExpr.anyForOption p annotated, isOptional, isRest, loc⟩ ::
        Param.anyForAll p rest

def TypeParam.anyForAll (p : Text → Bool) : List TypeParam → List TypeParam
  | [] => []
  | ⟨name, constraint, default, loc⟩ :: rest =>
      ⟨name, TypeExpr.anyForOption p constraint, TypeExpr.anyForOption p default, loc⟩ ::
        TypeParam.anyForAll p rest

def Signature.anyFor (p : Text → Bool) : Signature → Signature
  | ⟨params, result, typeParams⟩ =>
      ⟨Param.anyForAll p params, TypeExpr.anyForOption p result,
        TypeParam.anyForAll p typeParams⟩

def Member.anyFor (p : Text → Bool) : Member → Member
  | .constructorMember key params access loc =>
      .constructorMember key (Param.anyForAll p params) access loc
  | .method key kind signature isStatic access isOptional isAbstract loc =>
      .method key kind (signature.anyFor p) isStatic access isOptional isAbstract loc
  | .property key annotated isStatic access isReadonly isOptional loc =>
      .property key (TypeExpr.anyForOption p annotated) isStatic access isReadonly isOptional loc
  | .index params annotated isReadonly isStatic loc =>
      .index (Param.anyForAll p params) (TypeExpr.anyForOption p annotated) isReadonly isStatic loc
  | .staticBlock loc => .staticBlock loc
  | .empty loc => .empty loc
  | .propertySignature key annotated isOptional isReadonly loc =>
      .propertySignature key (TypeExpr.anyForOption p annotated) isOptional isReadonly loc
  | .methodSignature key signature isOptional loc =>
      .methodSignature key (signature.anyFor p) isOptional loc
  | .getterSignature key result loc =>
      .getterSignature key (TypeExpr.anyForOption p result) loc
  | .setterSignature key ⟨pattern, annotated, isOptional, isRest, paramLoc⟩ loc =>
      .setterSignature key
        ⟨pattern, TypeExpr.anyForOption p annotated, isOptional, isRest, paramLoc⟩ loc
  | .callSignature signature loc => .callSignature (signature.anyFor p) loc
  | .constructSignature signature loc => .constructSignature (signature.anyFor p) loc
  | .stray s key => .stray s key

def Member.anyForAll (p : Text → Bool) : List Member → List Member
  | [] => []
  | member :: rest => member.anyFor p :: Member.anyForAll p rest

end

theorem TypeParam.name_anyForAll (p : Text → Bool) (typeParams : List TypeParam) :
    (TypeParam.anyForAll p typeParams).map (·.name) = typeParams.map (·.name) := by
  induction typeParams with
  | nil => rfl
  | cons typeParam rest ih =>
      obtain ⟨name, constraint, default, loc⟩ := typeParam
      rw [TypeParam.anyForAll, List.map_cons, List.map_cons, ih]

end Source

theorem Specifier.path_ne_nil_of_isRelative (suffix : Text) {specifier : Text}
    (h : isRelative specifier = true) : path suffix specifier ≠ [] := by
  simp only [isRelative, Bool.or_eq_true, decide_eq_true_eq] at h
  rcases h with ((rfl | rfl) | hhere) | hup
  · exact List.cons_ne_nil _ _
  · exact List.cons_ne_nil _ _
  · obtain ⟨rest, rfl⟩ := List.isPrefixOf_iff_prefix.mp hhere
    exact List.cons_ne_nil _ _
  · obtain ⟨rest, rfl⟩ := List.isPrefixOf_iff_prefix.mp hup
    exact List.cons_ne_nil _ _

namespace Lowering

open Source Outcome

theorem map_bind_eq_bind {ε α β γ δ : Type} {x : Except ε α} {y : Except ε β} {k : α → β}
    {f : α → Except ε γ} {g : β → Except ε δ} {h : γ → δ} (hx : x.map k = y)
    (hf : ∀ a, (f a).map h = g (k a)) : (x.bind f).map h = y.bind g := by
  subst hx
  cases x with
  | ok a => exact hf a
  | error e => rfl

theorem stripParens_anyFor (p : Text → Bool) (ty : TypeExpr) :
    stripParens (ty.anyFor p) = (stripParens ty).anyFor p := by
  fun_induction stripParens ty with
  | case1 inner loc ih => rw [TypeExpr.anyFor, stripParens, ih]
  | case2 ty hparen =>
      cases ty with
      | paren inner loc => exact absurd rfl (hparen inner loc)
      | reference qualifier name args loc =>
          simp only [TypeExpr.anyFor]
          cases qualifier.isEmpty && p name <;> rfl
      | _ => rfl

theorem isNullish_anyFor (p : Text → Bool) (ty : TypeExpr) :
    isNullish (ty.anyFor p) = isNullish ty := by
  rw [isNullish, stripParens_anyFor, isNullish]
  cases stripParens ty with
  | reference qualifier name args loc =>
      simp only [TypeExpr.anyFor]
      cases qualifier.isEmpty && p name <;> rfl
  | _ => rfl

theorem isVoid_anyFor (p : Text → Bool) (ty : TypeExpr) : isVoid (ty.anyFor p) = isVoid ty := by
  cases ty with
  | reference qualifier name args loc =>
      simp only [TypeExpr.anyFor]
      cases qualifier.isEmpty && p name <;> rfl
  | _ => rfl

/-- Whether a name has a type of its own, whatever is in scope: the array types and the string
enumerations. -/
def isPredefined (name : Text) : Bool := arrayNames.contains name || Catalog.isStringType name

/-- Whether an unqualified reference is to one of the type parameters, by its Rust name. -/
def refersTo (typeParams : List TypeParam) (name : Text) : Bool :=
  !isPredefined name && (scopeOf typeParams).contains (Identifier.rustName name)

theorem self_not_mem_scopeOf (typeParams : List TypeParam) :
    Text.ofString "Self" ∉ scopeOf typeParams := by
  intro h
  obtain ⟨raw, _, hraw⟩ := List.mem_map.mp h
  exact Identifier.rustName_ne_self raw hraw

theorem erase_keywordType (word : Keyword) (loc : Option Location) (scope : GenericScope) :
    (keywordType word loc).result.map (BindingType.erase scope) =
      (keywordType word loc).result := by
  cases word with
  | number => exact congrArg Except.ok (BindingType.erase_primitive scope _)
  | boolean => exact congrArg Except.ok (BindingType.erase_primitive scope _)
  | string => exact congrArg Except.ok (BindingType.erase_primitive scope _)
  | void => exact congrArg Except.ok (BindingType.erase_primitive scope _)
  | any | unknown | null | undefined | never | object =>
      exact congrArg Except.ok (BindingType.erase_dynamic scope)
  | bigint | symbol | intrinsic | other _ => rfl

theorem erase_degrade (within : List Text) (what : Degraded) (loc : Option Location)
    (scope : GenericScope) :
    (degrade within what loc).result.map (BindingType.erase scope) =
      (degrade within what loc).result :=
  congrArg Except.ok (BindingType.erase_dynamic scope)

/-- A relative specifier leaves the unit first, so an imported type is named by several segments. -/
theorem erase_importedType (options : Options) (within : List Text) (specifier : Text)
    (qualifier : List Text) (loc : Option Location) (scope : GenericScope) :
    (importedType options within specifier qualifier loc).result.map (BindingType.erase scope) =
      (importedType options within specifier qualifier loc).result := by
  rw [importedType]
  split
  · exact erase_degrade within _ loc scope
  · rename_i hrelative
    split
    · exact erase_degrade within _ loc scope
    · have hpath : options.specifierPath specifier ≠ [] :=
        Specifier.path_ne_nil_of_isRelative options.moduleSuffix (by simpa using hrelative)
      have hlength := List.length_pos_iff.mpr hpath
      refine congrArg Except.ok (BindingType.erase_named_of_length ?_)
      simp only [scopedPath, List.length_append, List.length_singleton]
      omega

section

variable (options : Options) (within : List Text) (typeParams : List TypeParam)

theorem mapType_qualified {qualifier : List Text} (h : qualifier ≠ []) (name : Text)
    (args : List TypeExpr) (loc : Option Location) :
    mapType options within (.reference qualifier name args loc) =
      pure (.named (scopedPath options qualifier name)) := by
  cases args <;> simp [mapType, h]

theorem mapType_plain {name : Text} (h : isPredefined name = false) (args : List TypeExpr)
    (loc : Option Location) :
    mapType options within (.reference [] name args loc) =
      pure (.named [Identifier.rustName name]) := by
  obtain ⟨harray, hstring⟩ := Bool.or_eq_false_iff.mp h
  cases args <;> simp_all [mapType]

theorem erase_mapType_qualified {qualifier : List Text} (h : qualifier ≠ []) (name : Text)
    (args : List TypeExpr) (loc : Option Location) :
    (mapType options within (.reference qualifier name args loc)).result.map
        (BindingType.erase (scopeOf typeParams)) =
      (mapType options within
        ((TypeExpr.reference qualifier name args loc).anyFor (refersTo typeParams))).result := by
  have hlength := List.length_pos_iff.mpr h
  have hkept : (TypeExpr.reference qualifier name args loc).anyFor (refersTo typeParams) =
      .reference qualifier name (TypeExpr.anyForAll (refersTo typeParams) args) loc := by
    simp [TypeExpr.anyFor, h]
  rw [hkept, mapType_qualified options within h, mapType_qualified options within h]
  refine congrArg Except.ok (BindingType.erase_named_of_length ?_)
  simp only [scopedPath, List.length_append, List.length_map, List.length_singleton]
  omega

theorem erase_mapType_plain {name : Text} (h : isPredefined name = false) (args : List TypeExpr)
    (loc : Option Location) :
    (mapType options within (.reference [] name args loc)).result.map
        (BindingType.erase (scopeOf typeParams)) =
      (mapType options within
        ((TypeExpr.reference [] name args loc).anyFor (refersTo typeParams))).result := by
  rw [mapType_plain options within h]
  by_cases hmem : Identifier.rustName name ∈ scopeOf typeParams
  · have hany : (TypeExpr.reference [] name args loc).anyFor (refersTo typeParams) =
        .keyword .any loc := by
      simp [TypeExpr.anyFor, refersTo, h, hmem]
    rw [hany]
    exact congrArg Except.ok (BindingType.erase_named_of_mem hmem)
  · have hkept : (TypeExpr.reference [] name args loc).anyFor (refersTo typeParams) =
        .reference [] name (TypeExpr.anyForAll (refersTo typeParams) args) loc := by
      simp [TypeExpr.anyFor, refersTo, hmem]
    rw [hkept, mapType_plain options within h]
    exact congrArg Except.ok (BindingType.erase_named_of_not_mem hmem)

theorem mapType_string {name : Text} (harray : arrayNames.contains name = false)
    (hstring : Catalog.isStringType name = true) (args : List TypeExpr) (loc : Option Location) :
    mapType options within (.reference [] name args loc) = pure .string := by
  cases args <;> simp_all [mapType]

theorem erase_mapType_predefined {name : Text} (h : isPredefined name = true)
    (args : List TypeExpr) (loc : Option Location)
    (helement : ∀ element, args.head? = some element →
      (mapType options within element).result.map (BindingType.erase (scopeOf typeParams)) =
        (mapType options within (element.anyFor (refersTo typeParams))).result) :
    (mapType options within (.reference [] name args loc)).result.map
        (BindingType.erase (scopeOf typeParams)) =
      (mapType options within
        ((TypeExpr.reference [] name args loc).anyFor (refersTo typeParams))).result := by
  have hkept : (TypeExpr.reference [] name args loc).anyFor (refersTo typeParams) =
      .reference [] name (TypeExpr.anyForAll (refersTo typeParams) args) loc := by
    simp [TypeExpr.anyFor, refersTo, h]
  rw [hkept]
  cases harray : arrayNames.contains name with
  | false =>
      have hstring : Catalog.isStringType name = true := by
        rwa [isPredefined, harray, Bool.false_or] at h
      rw [mapType_string options within harray hstring,
        mapType_string options within harray hstring]
      exact congrArg Except.ok (BindingType.erase_primitive _ _)
  | true =>
      cases args with
      | nil =>
          simp only [TypeExpr.anyForAll, mapType, List.isEmpty_nil, Bool.not_true,
            Bool.false_eq_true, if_false, harray, if_true, result_pure, Except.map,
            BindingType.erase_boxedSlice, BindingType.erase_dynamic]
      | cons element rest =>
          simp only [TypeExpr.anyForAll, mapType, List.isEmpty_nil, Bool.not_true,
            Bool.false_eq_true, if_false, harray, if_true, result_bind]
          refine map_bind_eq_bind (helement element rfl) fun mapped => ?_
          exact congrArg Except.ok (BindingType.erase_boxedSlice _ mapped)

mutual

/-- Erasing type parameters from a mapped type is mapping it with `any` for them. -/
theorem erase_mapType (ty : TypeExpr) :
    (mapType options within ty).result.map (BindingType.erase (scopeOf typeParams)) =
      (mapType options within (ty.anyFor (refersTo typeParams))).result := by
  cases ty with
  | keyword word loc => exact erase_keywordType word loc _
  | this loc =>
      exact congrArg Except.ok
        (BindingType.erase_named_of_not_mem (self_not_mem_scopeOf typeParams))
  | reference qualifier name args loc =>
      by_cases hqualified : qualifier = []
      · subst hqualified
        cases hpredefined : isPredefined name with
        | false => exact erase_mapType_plain options within typeParams hpredefined args loc
        | true =>
            refine erase_mapType_predefined options within typeParams hpredefined args loc ?_
            intro element helement
            cases args with
            | nil => cases helement
            | cons first rest =>
                obtain rfl : first = element := Option.some.inj helement
                exact erase_mapType first
      · exact erase_mapType_qualified options within typeParams hqualified name args loc
  | function params result ownParams loc =>
      simp only [TypeExpr.anyFor, mapType, result_bind]
      refine map_bind_eq_bind (erase_mapParams params) fun mapped => ?_
      refine map_bind_eq_bind (erase_mapResult result) fun mappedResult => ?_
      rw [TypeParam.name_anyForAll]
      simp only [result_pure, Except.map, BindingType.erase_reference]
      -- the callable's own type parameters are erased already, and the order does not matter
      rw [BindingType.erase_comm, BindingType.erase_callable]
  | array element loc =>
      simp only [TypeExpr.anyFor, mapType, result_bind]
      refine map_bind_eq_bind (erase_mapType element) fun mapped => ?_
      exact congrArg Except.ok (BindingType.erase_boxedSlice _ mapped)
  | optional inner loc =>
      simp only [TypeExpr.anyFor, mapType, result_bind]
      refine map_bind_eq_bind (erase_mapType inner) fun mapped => ?_
      exact congrArg Except.ok (BindingType.erase_optional _ mapped)
  | union members loc =>
      match members with
      | [] | [_] | _ :: _ :: _ :: _ => exact erase_degrade within _ loc _
      | [first, second] =>
          simp only [TypeExpr.anyFor, TypeExpr.anyForAll, mapType, isNullish_anyFor]
          split
          · simp only [result_bind]
            refine map_bind_eq_bind (erase_mapType first) fun mapped => ?_
            exact congrArg Except.ok (BindingType.erase_optional _ mapped)
          · split
            · simp only [result_bind]
              refine map_bind_eq_bind (erase_mapType second) fun mapped => ?_
              exact congrArg Except.ok (BindingType.erase_optional _ mapped)
            · exact erase_degrade within _ loc _
  | intersection members loc =>
      cases members with
      | nil => exact erase_degrade within _ loc _
      | cons first rest =>
          simp only [TypeExpr.anyFor, TypeExpr.anyForAll, mapType]
          exact erase_mapType first
  | tuple elements loc =>
      simp only [TypeExpr.anyFor, mapType, result_bind]
      refine map_bind_eq_bind (erase_mapTypes elements) fun mapped => ?_
      exact congrArg Except.ok (BindingType.erase_tuple _ mapped)
  | paren inner loc =>
      simp only [TypeExpr.anyFor, mapType]
      exact erase_mapType inner
  | importType specifier qualifier args loc =>
      simp only [TypeExpr.anyFor, mapType]
      exact erase_importedType options within specifier qualifier loc _
  | object members loc => exact erase_degrade within _ loc _
  | literal kind value loc => exact erase_degrade within _ loc _
  | stray s => cases s <;> rfl
  | _ => rfl

theorem erase_mapTypes (tys : List TypeExpr) :
    (mapTypes options within tys).result.map (List.map (BindingType.erase (scopeOf typeParams))) =
      (mapTypes options within (TypeExpr.anyForAll (refersTo typeParams) tys)).result := by
  cases tys with
  | nil => rfl
  | cons ty rest =>
      simp only [TypeExpr.anyForAll, mapTypes, result_bind]
      refine map_bind_eq_bind (erase_mapType ty) fun head => ?_
      exact map_bind_eq_bind (erase_mapTypes rest) fun tail => rfl

theorem erase_mapParams (params : List Param) :
    (mapParams options within params).result.map
        (List.map (BindingType.erase (scopeOf typeParams))) =
      (mapParams options within (Param.anyForAll (refersTo typeParams) params)).result := by
  match params with
  | [] => rfl
  | ⟨pattern, annotated, isOptional, isRest, loc⟩ :: rest =>
      cases pattern with
      | name name nameLoc =>
          simp only [Param.anyForAll, mapParams, result_bind]
          refine map_bind_eq_bind (erase_mapAnnotated annotated) fun type => ?_
          refine map_bind_eq_bind (erase_mapParams rest) fun tail => ?_
          cases isOptional <;> simp [Except.map]
      | _ => rfl

theorem erase_mapAnnotated (annotated : Option TypeExpr) :
    (mapAnnotated options within annotated).result.map
        (BindingType.erase (scopeOf typeParams)) =
      (mapAnnotated options within
        (TypeExpr.anyForOption (refersTo typeParams) annotated)).result := by
  cases annotated with
  | none => exact congrArg Except.ok (BindingType.erase_dynamic _)
  | some ty =>
      simp only [TypeExpr.anyForOption, mapAnnotated]
      exact erase_mapType ty

theorem erase_mapResult (result : Option TypeExpr) :
    (mapResult options within result).result.map
        (Option.map (BindingType.erase (scopeOf typeParams))) =
      (mapResult options within (TypeExpr.anyForOption (refersTo typeParams) result)).result := by
  cases result with
  | none => rfl
  | some ty =>
      simp only [TypeExpr.anyForOption, mapResult, isVoid_anyFor]
      split
      · rfl
      · simp only [result_bind]
        exact map_bind_eq_bind (erase_mapType ty) fun mapped => rfl

end

end

/-- Whether a reference is to one of the type parameters, by its name or by the Rust name that both
have. -/
def namesParameter (typeParams : List TypeParam) (name : Text) : Bool :=
  typeParams.any (·.name == name) || refersTo typeParams name

theorem namesParameter_eq_refersTo {typeParams : List TypeParam}
    (h : ∀ typeParam ∈ typeParams, isPredefined typeParam.name = false) :
    namesParameter typeParams = refersTo typeParams := by
  funext name
  cases hany : typeParams.any (·.name == name) with
  | false => rw [namesParameter, hany, Bool.false_or]
  | true =>
      obtain ⟨typeParam, hmem, hname⟩ := List.any_eq_true.mp hany
      obtain rfl : typeParam.name = name := eq_of_beq hname
      have hscope : Identifier.rustName typeParam.name ∈ scopeOf typeParams :=
        List.mem_map_of_mem (List.mem_map_of_mem hmem)
      rw [namesParameter, hany, Bool.true_or, refersTo, h typeParam hmem]
      simpa using hscope

/-- To map a type and to erase type parameters from it is to write `any` for them and then to map,
with the same result or the same failure, unless a parameter takes the name of an array type or of a
string enumeration. -/
theorem mapType_erase_eq_substitution (options : Options) (within : List Text) (ty : TypeExpr)
    (typeParams : List TypeParam)
    (h : ∀ typeParam ∈ typeParams, isPredefined typeParam.name = false) :
    (mapType options within ty).result.map (BindingType.erase (scopeOf typeParams)) =
      (mapType options within (ty.anyFor (namesParameter typeParams))).result := by
  rw [namesParameter_eq_refersTo h]
  exact erase_mapType options within typeParams ty

/-- A type parameter whose Rust name is spelled otherwise. -/
def nodeParams : List TypeParam := [⟨"XMLNode", none, none, none⟩]

/-- A callback with references to the type parameter in a union and in an array, and with one that
only has the Rust name of the parameter. -/
def nodeCallback : TypeExpr :=
  let ref (name : Text) : TypeExpr := .reference [] name [] none
  let param (type : TypeExpr) : Param := ⟨.name "node" none, some type, false, false, none⟩
  .function [param (.union [ref "XMLNode", .keyword .null none] none), param (ref "XmlNode")]
    (some (.array (ref "XMLNode") none)) [] none

theorem nodeCallback_erase_eq_substitution :
    (∀ typeParam ∈ nodeParams, isPredefined typeParam.name = false) ∧
      (mapType .standard [] nodeCallback).result.map (BindingType.erase (scopeOf nodeParams)) =
        (mapType .standard [] (nodeCallback.anyFor (namesParameter nodeParams))).result ∧
      (mapType .standard [] (nodeCallback.anyFor (namesParameter nodeParams))).result =
        .ok (.reference (.callable [.dynamic, .dynamic] (some (.boxedSlice .dynamic)))) := by
  have hplain : isPredefined "XMLNode" = false := by
    simp [isPredefined, arrayNames, Catalog.isStringType, Catalog.stringTypes, Text.ofString_inj]
  have hother : isPredefined "XmlNode" = false := by
    simp [isPredefined, arrayNames, Catalog.isStringType, Catalog.stringTypes, Text.ofString_inj]
  have hparams : ∀ typeParam ∈ nodeParams, isPredefined typeParam.name = false := by
    intro typeParam htypeParam
    rw [List.mem_singleton.mp htypeParam]
    exact hplain
  refine ⟨hparams, mapType_erase_eq_substitution .standard [] nodeCallback nodeParams hparams, ?_⟩
  have hnames : namesParameter nodeParams "XmlNode" = true := by
    rw [namesParameter, refersTo, hother]
    rfl
  simp only [nodeCallback, TypeExpr.anyFor, TypeExpr.anyForAll, TypeExpr.anyForOption,
    Param.anyForAll, TypeParam.anyForAll, hnames]
  rfl

/-- A reference that is none to a parameter is erased when both have the same Rust name, though the
substitution by name leaves it. -/
theorem sameRustName_erase_ne_substitution :
    let ty : TypeExpr := .reference [] "XmlNode" [] none
    (mapType .standard [] ty).result.map (BindingType.erase (scopeOf nodeParams)) = .ok .dynamic ∧
      (mapType .standard [] (ty.anyFor fun name => nodeParams.any (·.name == name))).result =
        .ok (.named ["XmlNode"]) ∧
      (mapType .standard [] ty).result.map (BindingType.erase (scopeOf nodeParams)) ≠
        (mapType .standard [] (ty.anyFor fun name => nodeParams.any (·.name == name))).result := by
  have hplain : isPredefined "XmlNode" = false := by
    simp [isPredefined, arrayNames, Catalog.isStringType, Catalog.stringTypes, Text.ofString_inj]
  intro ty
  have hkept : ty.anyFor (fun name => nodeParams.any (·.name == name)) = ty := rfl
  rw [hkept, mapType_plain _ _ hplain]
  exact ⟨rfl, rfl, nofun⟩

end Lowering

end HostBindings

import HostBindings.Proofs.ErasureLaws
import HostBindings.Proofs.LegalNames
import HostBindings.Proofs.LoweringResults
import HostBindings.Proofs.Origins

/-!
Lowering makes legal bindings. Whatever the source writes, each name of a lowered binding is made by
the sanitizer or is a fixed word, and each of its types has a written form.
-/

namespace HostBindings

namespace Outcome

variable {α β : Type} {P : α → Prop} {Q : β → Prop}

/-- Every result of the work satisfies `P`. -/
def Gives (P : α → Prop) (x : Outcome α) : Prop := ∀ a, x.result = .ok a → P a

theorem gives_pure {a : α} (h : P a) : (pure a : Outcome α).Gives P := by
  intro b hb
  exact Except.ok.inj hb ▸ h

theorem gives_fail (cause : Cause) (loc : Option Location) : (fail cause loc).Gives P := nofun

theorem gives_breakOff (fault : Fault) : (breakOff fault).Gives P := nofun

theorem Gives.bind {x : Outcome α} {f : α → Outcome β} (hx : x.Gives P)
    (hf : ∀ a, P a → (f a).Gives Q) : (x >>= f).Gives Q := by
  intro b hb
  obtain ⟨a, ha, hfa⟩ := (result_bind_eq_ok_iff x f b).mp hb
  exact hf a (hx a ha) b hfa

theorem gives_warn_bind {concern : Concern} {loc : Option Location} {f : Unit → Outcome β}
    (hf : (f ()).Gives Q) : (warn concern loc >>= f).Gives Q := by
  intro b hb
  obtain ⟨_, _, hfa⟩ := (result_bind_eq_ok_iff _ f b).mp hb
  exact hf b hfa

theorem Gives.within {x : Outcome α} (h : x.Gives P) (declaration member : Option Text)
    (loc : Option Location) : (x.within declaration member loc).Gives P := by
  intro a ha
  exact h a (result_within_eq_ok_iff.mp ha)

end Outcome

/-- Whether a text may stand in the path of a type: a legal name, or a word that leads to the module
around or to the receiver's type. -/
def Identifier.IsSegment (segment : Text) : Prop :=
  IsLegal segment ∨ segment = "super" ∨ segment = "Self"

theorem Identifier.IsSegment.isPrintable {segment : Text} (h : IsSegment segment) :
    segment.isPrintable = true := by
  rcases h with hlegal | rfl | rfl
  · exact hlegal.isPrintable
  · rfl
  · rfl

namespace BindingType

/-- A type that can be written: every node is a boundary type, and its words are printable. -/
inductive IsSpelled : BindingType → Prop
  | primitive {name : Text} (h : name.isPrintable = true) : IsSpelled (.primitive name)
  | dynamic : IsSpelled .dynamic
  | named {path : List Text} (h : ∀ segment ∈ path, Identifier.IsSegment segment) :
      IsSpelled (.named path)
  | reference {inner : BindingType} (h : IsSpelled inner) : IsSpelled (.reference inner)
  | option {inner : BindingType} (h : IsSpelled inner) : IsSpelled (.option inner)
  | boxedSlice {inner : BindingType} (h : IsSpelled inner) : IsSpelled (.boxedSlice inner)
  | tuple {elements : List BindingType} (h : ∀ ty ∈ elements, IsSpelled ty) :
      IsSpelled (.tuple elements)
  | callable {params : List BindingType} {result : Option BindingType}
      (hparams : ∀ ty ∈ params, IsSpelled ty) (hresult : ∀ ty ∈ result, IsSpelled ty) :
      IsSpelled (.callable params result)

theorem isSpelled_name {name : Text} (h : Identifier.IsLegal name) : IsSpelled (.named [name]) := by
  apply IsSpelled.named
  intro segment hsegment
  rw [List.mem_singleton.mp hsegment]
  exact Or.inl h

/-- What takes the place of a name: the dynamic value or another name. -/
inductive IsSubstitute : BindingType → Prop
  | dynamic : IsSubstitute .dynamic
  | name {name : Text} (h : Identifier.IsLegal name) : IsSubstitute (.named [name])

theorem IsSubstitute.isSpelled {ty : BindingType} (h : IsSubstitute ty) : IsSpelled ty := by
  cases h with
  | dynamic => exact .dynamic
  | name h => exact isSpelled_name h

theorem replaceNames_named {σ : Text → Option BindingType}
    (hσ : ∀ name out, σ name = some out → out.IsSubstitute) (path : List Text) :
    (BindingType.named path).replaceNames σ = .named path ∨
      ((BindingType.named path).replaceNames σ).IsSubstitute := by
  rcases path with _ | ⟨name, _ | ⟨second, rest⟩⟩
  · exact Or.inl rfl
  · cases hname : σ name with
    | none => exact Or.inl (replaceNames_named_of_none σ hname)
    | some out =>
        rw [replaceNames_named_of_some σ hname]
        have hout := hσ name out hname
        right
        cases out with
        | dynamic | named => exact hout
        | _ => cases hout
  · exact Or.inl rfl

namespace IsSpelled

variable {ty : BindingType}

theorem optional (h : IsSpelled ty) : IsSpelled (optional ty) := by
  fun_induction BindingType.optional ty with
  | case1 inner ih =>
      cases h with
      | option hinner => exact ih hinner
  | case2 => exact h
  | case3 => exact .option h

theorem replaceNames (h : IsSpelled ty) {σ : Text → Option BindingType}
    (hσ : ∀ name out, σ name = some out → out.IsSubstitute) : IsSpelled (ty.replaceNames σ) := by
  induction h with
  | primitive h => exact .primitive h
  | dynamic => exact .dynamic
  | @named path hpath =>
      rcases replaceNames_named hσ path with hkept | hreplaced
      · rw [hkept]
        exact .named hpath
      · exact hreplaced.isSpelled
  | reference _ ih =>
      rw [replaceNames_reference]
      exact .reference ih
  | option _ ih =>
      rw [replaceNames_option]
      exact ih.optional
  | boxedSlice _ ih =>
      rw [replaceNames_boxedSlice]
      exact .boxedSlice ih
  | tuple _ ih =>
      rw [replaceNames_tuple]
      exact .tuple (List.forall_mem_map.mpr ih)
  | callable _ _ ihparams ihresult =>
      rw [replaceNames_callable]
      refine .callable (List.forall_mem_map.mpr ihparams) ?_
      intro out hout
      obtain ⟨ty, hty, rfl⟩ := Option.map_eq_some_iff.mp hout
      exact ihresult ty hty

theorem of_mem_walk (h : IsSpelled ty) {name : Text} (hname : .named [name] ∈ ty.walk) :
    Identifier.IsSegment name := by
  induction h with
  | primitive | dynamic => simp [walk] at hname
  | named hpath =>
      obtain rfl := BindingType.named.inj (List.mem_singleton.mp hname)
      exact hpath name List.mem_cons_self
  | reference _ ih | option _ ih | boxedSlice _ ih =>
      exact ih ((List.mem_cons.mp hname).resolve_left nofun)
  | tuple _ ih =>
      obtain ⟨ty, hty, hnode⟩ := mem_walkAll_iff.mp ((List.mem_cons.mp hname).resolve_left nofun)
      exact ih ty hty hnode
  | @callable _ result _ _ ihparams ihresult =>
      rcases List.mem_append.mp ((List.mem_cons.mp hname).resolve_left nofun) with hparam | hres
      · obtain ⟨ty, hty, hnode⟩ := mem_walkAll_iff.mp hparam
        exact ihparams ty hty hnode
      · match result with
        | none => cases hres
        | some ty => exact ihresult ty rfl hres

end IsSpelled

end BindingType

/-- The parameters of a function. -/
def BindingShape.parameters : BindingShape → List Parameter
  | .function params _ => params
  | _ => []

/-- Every name that a binding writes is legal, and its types satisfy `Q`. -/
structure Binding.Lawful (Q : BindingType → Prop) (b : Binding) : Prop where
  name : Identifier.IsLegal b.name
  parameters : ∀ p ∈ b.shape.parameters, Identifier.IsLegal p.name
  types : ∀ ty ∈ b.types, Q ty
  owner : ∀ owner ∈ b.attributes.owner, Identifier.IsLegal owner
  staticOf : ∀ owner ∈ b.attributes.staticOf, Identifier.IsLegal owner
  bases : ∀ base ∈ b.attributes.bases, ∀ segment ∈ base, Identifier.IsLegal segment

/-- Every name that a binding writes is legal, and its types can be written. -/
abbrev Binding.IsLegal (b : Binding) : Prop := b.Lawful BindingType.IsSpelled

namespace Binding.Lawful

variable {Q Q' : BindingType → Prop} {b : Binding}

theorem mapTypes (h : b.Lawful Q) {f : Bool → BindingType → BindingType}
    (hf : ∀ isResult ty, Q ty → Q' (f isResult ty)) : (b.mapTypes f).Lawful Q' := by
  obtain ⟨name, shape, attributes, loc⟩ := b
  refine ⟨h.name, ?_, ?_, h.owner, h.staticOf, h.bases⟩
  · have hparameters := h.parameters
    cases shape with
    | function params result => exact List.forall_mem_map.mpr hparameters
    | hostType | static => exact hparameters
  · intro ty hty
    obtain ⟨isResult, before, hbefore, rfl⟩ := BindingShape.exists_of_mem_types_mapTypes hty
    exact hf isResult before (h.types before hbefore)

theorem enclose (h : b.Lawful Q) (name : Text) : (b.enclose name).Lawful Q :=
  ⟨h.name, h.parameters, h.types, h.owner, h.staticOf, h.bases⟩

end Binding.Lawful

/-- A parameter with a legal name and a type that satisfies `Q`. -/
structure Parameter.Lawful (Q : BindingType → Prop) (p : Parameter) : Prop where
  name : Identifier.IsLegal p.name
  type : Q p.type

/-- Properties of types that lowering establishes and that the resolution of collisions keeps: `P`
of the types that a type expression can stand for, `Q` of the types in the slots of a binding. Only
a receiver is more than a type expression gives. -/
structure BindingType.Stable (P Q : BindingType → Prop) : Prop where
  primitive {name : Text} (h : name.isPrintable = true) : P (.primitive name)
  dynamic : P .dynamic
  named {path : List Text} (h : ∀ segment ∈ path, Identifier.IsSegment segment) : P (.named path)
  boxedSlice {element : BindingType} (h : P element) : P (.boxedSlice element)
  tuple {elements : List BindingType} (h : ∀ ty ∈ elements, P ty) : P (.tuple elements)
  callback {params : List BindingType} {result : Option BindingType} (hparams : ∀ ty ∈ params, P ty)
    (hresult : ∀ ty ∈ result, P ty) : P (.reference (.callable params result))
  optional {ty : BindingType} (h : P ty) : P (optional ty)
  replaceNames {ty : BindingType} (h : P ty) {σ : Text → Option BindingType}
    (hσ : ∀ name out, σ name = some out → out.IsSubstitute) : P (ty.replaceNames σ)
  slot {ty : BindingType} (h : P ty) : Q ty
  receiver {owner : Text} (h : Identifier.IsLegal owner) : Q (.reference (.named [owner]))
  replaceSlot {ty : BindingType} (h : Q ty) {σ : Text → Option BindingType}
    (hσ : ∀ name out, σ name = some out → out.IsSubstitute) : Q (ty.replaceNames σ)

namespace BindingType

theorem erase_of_replaceNames {R : BindingType → Prop}
    (hR : ∀ {ty : BindingType}, R ty → ∀ {σ : Text → Option BindingType},
      (∀ name out, σ name = some out → out.IsSubstitute) → R (ty.replaceNames σ))
    {ty : BindingType} (h : R ty) (scope : GenericScope) : R (ty.erase scope) := by
  by_cases hscope : scope = []
  · rwa [hscope, erase_nil]
  · rw [erase_eq_replaceNames hscope]
    apply hR h
    intro name out hout
    rw [erasureRule, Option.ite_none_right_eq_some] at hout
    rw [← Option.some.inj hout.2]
    exact .dynamic

namespace Stable

variable {P Q : BindingType → Prop} (hstable : Stable P Q)

include hstable

theorem erase {ty : BindingType} (h : P ty) (scope : GenericScope) : P (ty.erase scope) :=
  erase_of_replaceNames hstable.replaceNames h scope

theorem eraseSlot {ty : BindingType} (h : Q ty) (scope : GenericScope) : Q (ty.erase scope) :=
  erase_of_replaceNames hstable.replaceSlot h scope

theorem resolveSlot {ty : BindingType} (h : Q ty) {owner : Text}
    (howner : Identifier.IsLegal owner) : Q (ty.substitute "Self" (.named [owner])) := by
  rw [substitute_eq_replaceNames]
  apply hstable.replaceSlot h
  intro name out hout
  rw [Option.ite_none_right_eq_some] at hout
  rw [← Option.some.inj hout.2]
  exact .name howner

theorem name {name : Text} (h : Identifier.IsLegal name) : P (.named [name]) := by
  apply hstable.named
  intro segment hsegment
  rw [List.mem_singleton.mp hsegment]
  exact Or.inl h

end Stable

theorem stable_isSpelled : Stable IsSpelled IsSpelled where
  primitive := .primitive
  dynamic := .dynamic
  named := .named
  boxedSlice := .boxedSlice
  tuple := .tuple
  callback hparams hresult := .reference (.callable hparams hresult)
  optional := .optional
  replaceNames := .replaceNames
  slot := id
  receiver h := .reference (isSpelled_name h)
  replaceSlot := .replaceNames

end BindingType

namespace Lowering

open Source Outcome

theorem isSegment_scopeName (options : Options) (raw : Text) :
    Identifier.IsSegment (options.scopeName raw) :=
  Or.inl (Identifier.isLegal_rustName _)

theorem isSegment_of_mem_scopedPath {options : Options} {qualifier : List Text} {name : Text}
    {segment : Text} (h : segment ∈ scopedPath options qualifier name) :
    Identifier.IsSegment segment := by
  rcases List.mem_append.mp h with hscope | hname
  · obtain ⟨raw, _, rfl⟩ := List.mem_map.mp hscope
    exact isSegment_scopeName options raw
  · rw [List.mem_singleton.mp hname]
    exact Or.inl (Identifier.isLegal_rustName name)

theorem mem_pathOf {suffix : Text} {climbed : Bool} {segments : List Text} {segment : Text}
    (h : segment ∈ Specifier.pathOf suffix climbed segments) :
    segment = Text.ofString "super" ∨ ∃ raw, segment = Identifier.scopeName suffix raw := by
  fun_induction Specifier.pathOf suffix climbed segments with
  | case1 => cases h
  | case2 _ _ ih => exact ih h
  | case3 _ _ _ ih =>
      rcases List.mem_cons.mp h with rfl | hrest
      · exact Or.inl rfl
      · exact ih hrest
  | case4 _ _ _ ih =>
      rcases List.mem_cons.mp h with rfl | hrest
      · exact Or.inl rfl
      · exact ih hrest
  | case5 _ _ _ _ _ ih =>
      rcases List.mem_cons.mp h with rfl | hrest
      · exact Or.inl rfl
      · rcases List.mem_cons.mp hrest with rfl | hmore
        · exact Or.inl rfl
        · exact ih hmore
  | case6 _ segment _ _ _ _ ih =>
      rcases List.mem_cons.mp h with rfl | hrest
      · exact Or.inr ⟨_, rfl⟩
      · exact ih hrest

theorem isSegment_of_mem_specifierPath {options : Options} {specifier segment : Text}
    (h : segment ∈ options.specifierPath specifier) : Identifier.IsSegment segment := by
  rcases mem_pathOf h with rfl | ⟨raw, rfl⟩
  · exact Or.inr (Or.inl rfl)
  · exact isSegment_scopeName options raw

variable {P Q : BindingType → Prop} (hstable : BindingType.Stable P Q)
variable {options : Options} {within : List Text}

include hstable

theorem gives_degrade (what : Degraded) (loc : Option Location) :
    (degrade within what loc).Gives P :=
  gives_warn_bind (gives_pure hstable.dynamic)

theorem gives_keywordType (word : Keyword) (loc : Option Location) :
    (keywordType word loc).Gives P := by
  cases word with
  | number | boolean | string | void => exact gives_pure (hstable.primitive rfl)
  | any | unknown | null | undefined | never | object => exact gives_pure hstable.dynamic
  | bigint | symbol | intrinsic | other => exact gives_fail _ _

theorem gives_importedType (specifier : Text) (qualifier : List Text) (loc : Option Location) :
    (importedType options within specifier qualifier loc).Gives P := by
  rw [importedType]
  split
  · exact gives_degrade hstable _ _
  · split
    · exact gives_degrade hstable _ _
    · apply gives_pure
      apply hstable.named
      intro segment hsegment
      rcases List.mem_append.mp hsegment with hmodule | hscoped
      · exact isSegment_of_mem_specifierPath hmodule
      · exact isSegment_of_mem_scopedPath hscoped

omit hstable in
theorem gives_strayed {α : Type} {R : α → Prop} (cause : Text → Cause) (s : Stray) :
    (strayed cause s).Gives R := by
  cases s with
  | node kind loc => exact gives_fail _ _
  | value => exact gives_breakOff _

omit hstable

mutual

theorem gives_mapType (hstable : BindingType.Stable P Q) (ty : TypeExpr) :
    (mapType options within ty).Gives P := by
  cases ty with
  | keyword word loc => exact gives_keywordType hstable word loc
  | this loc =>
      refine gives_pure (hstable.named ?_)
      intro segment hsegment
      exact Or.inr (Or.inr (List.mem_singleton.mp hsegment))
  | reference qualifier name args loc =>
      rw [mapType.eq_def]
      dsimp only
      split
      · exact gives_pure (hstable.named fun _ => isSegment_of_mem_scopedPath)
      · split
        · split
          · exact gives_pure (hstable.boxedSlice hstable.dynamic)
          · rename_i element rest
            exact (gives_mapType hstable element).bind fun _ h => gives_pure (hstable.boxedSlice h)
        · split
          · exact gives_pure (hstable.primitive rfl)
          · exact gives_pure (hstable.name (Identifier.isLegal_rustName name))
  | unnamed args loc => exact gives_breakOff _
  | function params result typeParams loc =>
      rw [mapType]
      refine (gives_mapParams hstable params).bind fun params hparams => ?_
      refine (gives_mapResult hstable result).bind fun result hresult => ?_
      apply gives_pure
      rw [← BindingType.erase_reference]
      exact hstable.erase (hstable.callback hparams hresult) _
  | array element loc =>
      rw [mapType]
      exact (gives_mapType hstable element).bind fun _ h => gives_pure (hstable.boxedSlice h)
  | optional inner loc =>
      rw [mapType]
      exact (gives_mapType hstable inner).bind fun _ h => gives_pure (hstable.optional h)
  | union members loc =>
      match members with
      | [] | [_] | _ :: _ :: _ :: _ => exact gives_degrade hstable _ _
      | [first, second] =>
          rw [mapType]
          split
          · exact (gives_mapType hstable first).bind fun _ h => gives_pure (hstable.optional h)
          · split
            · exact (gives_mapType hstable second).bind fun _ h => gives_pure (hstable.optional h)
            · exact gives_degrade hstable _ _
  | intersection members loc =>
      cases members with
      | nil => exact gives_degrade hstable _ _
      | cons first rest =>
          rw [mapType]
          exact gives_mapType hstable first
  | tuple elements loc =>
      rw [mapType]
      exact (gives_mapTypes hstable elements).bind fun _ h => gives_pure (hstable.tuple h)
  | paren inner loc =>
      rw [mapType]
      exact gives_mapType hstable inner
  | importType specifier qualifier args loc =>
      exact gives_importedType hstable specifier qualifier loc
  | object | literal => exact gives_degrade hstable _ _
  | constructorType | indexed | query | mapped | conditional | predicate | infer | rest
  | operator => exact gives_fail _ _
  | stray s => exact gives_strayed _ s

theorem gives_mapTypes (hstable : BindingType.Stable P Q) (tys : List TypeExpr) :
    (mapTypes options within tys).Gives fun types => ∀ ty ∈ types, P ty := by
  cases tys with
  | nil => exact gives_pure (List.forall_mem_nil _)
  | cons ty rest =>
      rw [mapTypes]
      refine (gives_mapType hstable ty).bind fun head hhead => ?_
      refine (gives_mapTypes hstable rest).bind fun tail htail => ?_
      exact gives_pure (List.forall_mem_cons.mpr ⟨hhead, htail⟩)

theorem gives_mapParams (hstable : BindingType.Stable P Q) (params : List Param) :
    (mapParams options within params).Gives fun types => ∀ ty ∈ types, P ty := by
  match params with
  | [] => exact gives_pure (List.forall_mem_nil _)
  | ⟨pattern, annotated, isOptional, _, loc⟩ :: rest =>
      cases pattern with
      | name name nameLoc =>
          simp only [mapParams]
          refine (gives_mapAnnotated hstable annotated).bind fun type htype => ?_
          refine (gives_mapParams hstable rest).bind fun tail htail => ?_
          apply gives_pure
          refine List.forall_mem_cons.mpr ⟨?_, htail⟩
          split
          · exact hstable.optional htype
          · exact htype
      | absent => exact gives_breakOff _
      | object | array => exact gives_fail _ _

theorem gives_mapAnnotated (hstable : BindingType.Stable P Q) (annotated : Option TypeExpr) :
    (mapAnnotated options within annotated).Gives P := by
  cases annotated with
  | none => exact gives_pure hstable.dynamic
  | some ty =>
      rw [mapAnnotated]
      exact gives_mapType hstable ty

theorem gives_mapResult (hstable : BindingType.Stable P Q) (result : Option TypeExpr) :
    (mapResult options within result).Gives fun result => ∀ ty ∈ result, P ty := by
  cases result with
  | none => exact gives_pure nofun
  | some ty =>
      rw [mapResult]
      split
      · exact gives_pure nofun
      · refine (gives_mapType hstable ty).bind fun type htype => gives_pure ?_
        rintro _ ⟨⟩
        exact htype

end

include hstable

theorem gives_lowerParams (params : List Param) :
    (lowerParams options within params).Gives fun params => ∀ p ∈ params, p.Lawful Q := by
  induction params with
  | nil => exact gives_pure (List.forall_mem_nil _)
  | cons p rest ih =>
      rw [lowerParams]
      split
      · split
        · exact ih
        · refine Gives.bind (P := Parameter.Lawful Q) ?_ fun head hhead => ?_
          · refine (gives_mapAnnotated hstable p.annotated).bind fun type htype => gives_pure ?_
            refine ⟨Identifier.isLegal_rustName _, ?_⟩
            dsimp only
            split
            · exact hstable.slot (hstable.optional htype)
            · exact hstable.slot htype
          · exact ih.bind fun tail htail =>
              gives_pure (List.forall_mem_cons.mpr ⟨hhead, htail⟩)
      · exact gives_breakOff _
      · exact gives_fail _ _

theorem lawful_erase {b : Binding} (h : b.Lawful Q) (scope : GenericScope) :
    (b.erase scope).Lawful Q :=
  h.mapTypes fun _ _ hty => hstable.eraseSlot hty scope

omit hstable in
theorem lawful_function {name : Text} {params : List Parameter} {result : Option BindingType}
    {attributes : Attributes} {loc : Option Location} (hname : Identifier.IsLegal name)
    (hparams : ∀ p ∈ params, p.Lawful Q) (hresult : ∀ ty ∈ result, Q ty)
    (howner : ∀ owner ∈ attributes.owner, Identifier.IsLegal owner)
    (hstatic : ∀ owner ∈ attributes.staticOf, Identifier.IsLegal owner)
    (hbases : attributes.bases = []) :
    ({ name, shape := .function params result, attributes, loc } : Binding).Lawful Q := by
  refine ⟨hname, fun p hp => (hparams p hp).name, ?_, howner, hstatic, by simp [hbases]⟩
  intro ty hty
  rcases List.mem_append.mp hty with hparam | hres
  · obtain ⟨p, hp, rfl⟩ := List.mem_map.mp hparam
    exact (hparams p hp).type
  · exact hresult ty (by simpa using hres)

section

variable {o : Owner} (howner : Identifier.IsLegal o.name)

include howner

theorem lawful_receivers (isStatic : Bool) : ∀ p ∈ receivers o.name isStatic, p.Lawful Q := by
  intro p hp
  cases isStatic with
  | true => cases hp
  | false =>
      rw [List.mem_singleton.mp hp]
      have hthis : Identifier.IsLegal "this" :=
        Identifier.isLegal_of_isSpelled rfl (by decide) (by decide)
      exact ⟨hthis, hstable.receiver howner⟩

theorem lawful_member {name : Text} {isStatic : Bool} {params : List Parameter}
    {result : Option BindingType} {attributes : Attributes} {loc : Option Location}
    (hname : Identifier.IsLegal name) (hparams : ∀ p ∈ params, p.Lawful Q)
    (hresult : ∀ ty ∈ result, Q ty)
    (hattributes : attributes.owner = some o.name ∧ attributes.bases = [] ∧
      ∀ owner ∈ attributes.staticOf, owner = o.name) :
    ({ name, shape := .function (receivers o.name isStatic ++ params) result, attributes, loc } :
      Binding).Lawful Q := by
  obtain ⟨hown, hbases, hstatic⟩ := hattributes
  refine lawful_function hname ?_ hresult ?_ ?_ hbases
  · exact List.forall_mem_append.mpr ⟨lawful_receivers hstable howner isStatic, hparams⟩
  · rw [hown]
    rintro _ ⟨⟩
    exact howner
  · intro owner hmem
    rwa [hstatic owner hmem]

theorem gives_method (raw : Text) (signature : Signature) (isStatic : Bool)
    (loc : Option Location) : (method o raw signature isStatic loc).Gives (Binding.Lawful Q) := by
  refine (gives_lowerParams hstable signature.params).bind fun params hparams => ?_
  refine (gives_mapResult hstable signature.result).bind fun result hresult => gives_pure ?_
  refine lawful_member hstable howner (Identifier.isLegal_rustName raw) hparams
    (fun ty hty => hstable.slot (hresult ty hty)) ⟨rfl, rfl, ?_⟩
  cases isStatic <;> simp [memberAttributes]

theorem lawful_accessor {mark raw : Text} {isStatic : Bool} {result : Option BindingType}
    {value : Option Parameter} {loc : Option Location} (hresult : ∀ ty ∈ result, Q ty)
    (hvalue : ∀ p ∈ value, p.Lawful Q) :
    (accessor o.name mark raw isStatic result value loc).Lawful Q := by
  refine lawful_member hstable howner (Identifier.isLegal_rustName _) ?_ hresult ⟨rfl, rfl, ?_⟩
  · simpa using hvalue
  · cases isStatic <;> simp [memberAttributes]

theorem gives_setter (raw : Text) (params : List Param) (isStatic : Bool)
    (loc : Option Location) : (setter o raw params isStatic loc).Gives (Binding.Lawful Q) := by
  refine (gives_lowerParams hstable params).bind fun params hparams => gives_pure ?_
  refine lawful_accessor hstable howner nofun ?_
  rintro _ ⟨⟩
  cases params with
  | nil =>
      have hvalue : Identifier.IsLegal "value" :=
        Identifier.isLegal_of_isSpelled rfl (by decide) (by decide)
      exact ⟨hvalue, hstable.slot hstable.dynamic⟩
  | cons p rest => exact hparams p List.mem_cons_self

theorem gives_getter (raw : Text) (result : Option TypeExpr) (isStatic : Bool)
    (loc : Option Location) : (getter o raw result isStatic loc).Gives (Binding.Lawful Q) := by
  refine (gives_mapAnnotated hstable result).bind fun type htype => gives_pure ?_
  refine lawful_accessor hstable howner ?_ nofun
  rintro _ ⟨⟩
  exact hstable.slot htype

theorem gives_property (raw : Text) (annotated : Option TypeExpr) (isOptional isStatic : Bool)
    (loc : Option Location) :
    (property o raw annotated isOptional isStatic loc).Gives (Binding.Lawful Q) := by
  refine (gives_mapAnnotated hstable annotated).bind fun type htype => gives_pure ?_
  refine lawful_accessor hstable howner ?_ nofun
  rintro _ ⟨⟩
  split
  · exact hstable.slot (hstable.optional htype)
  · exact hstable.slot htype

omit howner in
theorem gives_named {key : PropertyKey} {scope : GenericScope} {f : Text → Outcome Binding}
    (hf : ∀ raw, (f raw).Gives (Binding.Lawful Q)) :
    (named key scope f).Gives fun bindings => ∀ b ∈ bindings, b.Lawful Q := by
  intro bindings hbindings
  rcases named_eq_ok hbindings with ⟨_, rfl⟩ | ⟨_, b, hb, rfl⟩
  · exact List.forall_mem_nil _
  · intro b hmem
    rw [List.mem_singleton.mp hmem]
    exact lawful_erase hstable (hf key.value _ hb) scope

theorem gives_constructorBinding (key : PropertyKey) (params : List Param)
    (seenConstructor : Bool) (loc : Option Location) :
    (constructorBinding o key params seenConstructor loc).Gives
      fun bindings => ∀ b ∈ bindings, b.Lawful Q := by
  rw [constructorBinding]
  split
  · exact gives_breakOff _
  · split
    · exact gives_fail _ _
    · split
      · exact gives_fail _ _
      · refine (gives_lowerParams hstable params).bind fun params hparams => gives_pure ?_
        intro b hb
        rw [List.mem_singleton.mp hb]
        have hnew : Identifier.IsLegal "new" :=
          Identifier.isLegal_of_isSpelled rfl (by decide) (by decide)
        refine lawful_erase hstable (lawful_function hnew hparams ?_ ?_ (by simp) rfl) o.scope
        · rintro _ ⟨⟩
          exact hstable.slot (hstable.name howner)
        · rintro _ ⟨⟩
          exact howner

omit hstable howner in
theorem gives_inMember {R : List Binding → Prop} {member : Member}
    {f : Owner → Outcome (List Binding)} (hf : ∀ inner : Owner, inner.name = o.name →
      (f inner).Gives R) : (inMember o member f).Gives R :=
  (hf { o with within := o.within ++ [placeName (memberLabel? member) member.describe] } rfl).within
    _ _ _

theorem gives_lowerClassMember (seenConstructor : Bool) (member : Member) :
    (lowerClassMember o seenConstructor member).Gives
      fun bindings => ∀ b ∈ bindings, b.Lawful Q := by
  rw [lowerClassMember.eq_def]
  split
  · exact gives_fail _ _
  · exact gives_fail _ _
  · exact gives_fail _ _
  · split
    · exact gives_pure (List.forall_mem_nil _)
    · split
      · exact gives_constructorBinding hstable howner _ _ _ _
      · refine gives_named hstable fun raw => ?_
        split
        · exact gives_getter hstable howner _ _ _ _
        · exact gives_setter hstable howner _ _ _ _
        · exact gives_method hstable howner _ _ _ _
      · exact gives_named hstable fun raw => gives_property hstable howner _ _ _ _ _
      · split
        · exact gives_named hstable fun raw => gives_fail _ _
        · exact gives_breakOff _

theorem gives_lowerInterfaceMember (member : Member) :
    (lowerInterfaceMember o member).Gives fun bindings => ∀ b ∈ bindings, b.Lawful Q := by
  rw [lowerInterfaceMember.eq_def]
  split
  · exact gives_named hstable fun raw => gives_property hstable howner _ _ _ _ _
  · exact gives_named hstable fun raw => gives_method hstable howner _ _ _ _
  · exact gives_named hstable fun raw => gives_getter hstable howner _ _ _ _
  · exact gives_named hstable fun raw => gives_setter hstable howner _ _ _ _
  · exact gives_breakOff _
  · exact gives_warn_bind (gives_pure (List.forall_mem_nil _))

theorem gives_lowerLiteralMember (literal : Text) (member : Member) :
    (lowerLiteralMember o literal member).Gives fun bindings => ∀ b ∈ bindings, b.Lawful Q := by
  rw [lowerLiteralMember.eq_def]
  split
  · exact gives_inMember fun _ h => gives_lowerInterfaceMember hstable (h ▸ howner) _
  · exact gives_breakOff _
  · exact gives_warn_bind (gives_pure (List.forall_mem_nil _))

theorem gives_lowerClassMembers (seenConstructor : Bool) (members : List Member) :
    (lowerClassMembers o seenConstructor members).Gives
      fun bindings => ∀ b ∈ bindings, b.Lawful Q := by
  induction members generalizing seenConstructor with
  | nil => exact gives_pure (List.forall_mem_nil _)
  | cons member rest ih =>
      rw [lowerClassMembers]
      have hmember : (inMember o member fun o => lowerClassMember o seenConstructor member).Gives
          fun bindings => ∀ b ∈ bindings, b.Lawful Q :=
        gives_inMember fun _ h => gives_lowerClassMember hstable (h ▸ howner) _ _
      refine hmember.bind fun head hhead => ?_
      exact (ih _).bind fun tail htail =>
        gives_pure (List.forall_mem_append.mpr ⟨hhead, htail⟩)

theorem gives_lowerInterfaceMembers (members : List Member) :
    (lowerInterfaceMembers o members).Gives fun bindings => ∀ b ∈ bindings, b.Lawful Q := by
  induction members with
  | nil => exact gives_pure (List.forall_mem_nil _)
  | cons member rest ih =>
      rw [lowerInterfaceMembers]
      have hmember : (inMember o member fun o => lowerInterfaceMember o member).Gives
          fun bindings => ∀ b ∈ bindings, b.Lawful Q :=
        gives_inMember fun _ h => gives_lowerInterfaceMember hstable (h ▸ howner) _
      refine hmember.bind fun head hhead => ?_
      exact ih.bind fun tail htail => gives_pure (List.forall_mem_append.mpr ⟨hhead, htail⟩)

theorem gives_lowerLiteralMembers (literal : Text) (members : List Member) :
    (lowerLiteralMembers o literal members).Gives fun bindings => ∀ b ∈ bindings, b.Lawful Q := by
  induction members with
  | nil => exact gives_pure (List.forall_mem_nil _)
  | cons member rest ih =>
      rw [lowerLiteralMembers_cons]
      refine (gives_lowerLiteralMember hstable howner literal member).bind fun head hhead => ?_
      exact ih.bind fun tail htail => gives_pure (List.forall_mem_append.mpr ⟨hhead, htail⟩)

end

omit hstable in
theorem lawful_hostType (raw : Text) (loc : Option Location) {bases : List (List Text)}
    (hbases : ∀ base ∈ bases, ∀ segment ∈ base, Identifier.IsLegal segment) :
    (hostType (Identifier.sanitize raw) bases loc).Lawful Q :=
  ⟨Identifier.isLegal_rustName raw, nofun, nofun, nofun, nofun, hbases⟩

omit hstable in
theorem isLegal_of_mem_classBases {superClass : Option Heritage} {base : List Text}
    (hbase : base ∈ classBases superClass) {segment : Text} (hsegment : segment ∈ base) :
    Identifier.IsLegal segment := by
  rw [classBases] at hbase
  split at hbase
  · rw [List.mem_singleton.mp hbase] at hsegment
    rw [List.mem_singleton.mp hsegment]
    exact Identifier.isLegal_rustName _
  · cases hbase

theorem gives_lowerClass (d : ClassDeclaration) :
    (lowerClass options within d).Gives fun bindings => ∀ b ∈ bindings, b.Lawful Q := by
  refine Gives.bind (P := fun _ => True) (fun _ _ => trivial) fun name _ => ?_
  refine (gives_lowerClassMembers hstable (Identifier.isLegal_rustName name) _ _).bind
    fun members hmembers => gives_pure ?_
  refine List.forall_mem_cons.mpr ⟨lawful_hostType _ _ ?_, hmembers⟩
  exact fun base hbase segment => isLegal_of_mem_classBases hbase

theorem gives_lowerFunction (d : FunctionDeclaration) :
    (lowerFunction options within d).Gives fun bindings => ∀ b ∈ bindings, b.Lawful Q := by
  refine Gives.bind (P := fun _ => True) (fun _ _ => trivial) fun name _ => ?_
  refine (gives_lowerParams hstable d.signature.params).bind fun params hparams => ?_
  refine (gives_mapResult hstable d.signature.result).bind fun result hresult => gives_pure ?_
  intro b hb
  rw [List.mem_singleton.mp hb]
  have hname := Identifier.isLegal_rustName name
  have hslots : ∀ ty ∈ result, Q ty := fun ty hty => hstable.slot (hresult ty hty)
  exact lawful_erase hstable (lawful_function hname hparams hslots (by simp) (by simp) rfl) _

theorem gives_lowerVariables (d : VariableDeclaration) :
    (lowerVariables options within d).Gives fun bindings => ∀ b ∈ bindings, b.Lawful Q := by
  rw [lowerVariables]
  split
  · exact gives_breakOff _
  · split
    · refine (gives_mapAnnotated hstable _).bind fun type htype => gives_pure ?_
      intro b hb
      rw [List.mem_singleton.mp hb]
      refine ⟨Identifier.isLegal_rustName _, List.forall_mem_nil _, ?_, ?_, ?_,
        List.forall_mem_nil _⟩
      · intro ty hty
        rw [List.mem_singleton.mp hty]
        exact hstable.slot htype
      · rintro _ ⟨⟩
      · rintro _ ⟨⟩
    · exact gives_fail _ _
  · exact gives_fail _ _

theorem gives_lowerAlias (d : AliasDeclaration) :
    (lowerAlias options within d).Gives fun bindings => ∀ b ∈ bindings, b.Lawful Q := by
  have htype : (hostType (Identifier.sanitize d.name) [] d.loc).Lawful Q :=
    lawful_hostType d.name d.loc (List.forall_mem_nil _)
  simp only [lowerAlias]
  split
  · refine (gives_lowerLiteralMembers hstable ?_ d.name _).bind fun members hmembers =>
      gives_pure ?_
    · exact Identifier.isLegal_rustName d.name
    · exact List.forall_mem_cons.mpr ⟨htype, hmembers⟩
  · apply gives_pure
    exact List.forall_mem_cons.mpr ⟨htype, List.forall_mem_nil _⟩

theorem gives_lowerInterface (d : InterfaceDeclaration) :
    (lowerInterface options within d).Gives fun bindings => ∀ b ∈ bindings, b.Lawful Q := by
  refine (gives_lowerInterfaceMembers hstable (Identifier.isLegal_rustName d.name) _).bind
    fun members hmembers => gives_pure ?_
  exact List.forall_mem_cons.mpr ⟨lawful_hostType _ _ (List.forall_mem_nil _), hmembers⟩

omit hstable

mutual

theorem gives_lower (hstable : BindingType.Stable P Q) (within : List Text) (d : Declaration) :
    (lower options within d).Gives fun bindings => ∀ b ∈ bindings, b.Lawful Q := by
  cases d with
  | classDeclaration d =>
      rw [lower]
      exact (gives_lowerClass hstable d).within _ _ _
  | function d =>
      rw [lower]
      exact (gives_lowerFunction hstable d).within _ _ _
  | variableDeclaration d =>
      rw [lower]
      exact (gives_lowerVariables hstable d).within _ _ _
  | typeAlias d =>
      rw [lower]
      exact (gives_lowerAlias hstable d).within _ _ _
  | interface d =>
      rw [lower]
      exact (gives_lowerInterface hstable d).within _ _ _
  | enumeration d =>
      rw [lower]
      exact (gives_fail _ _).within _ _ _
  | space d =>
      rw [lower]
      exact (gives_lowerNamespace hstable _ d).within _ _ _
  | stray s =>
      rw [lower]
      exact gives_strayed _ s

theorem gives_lowerNamespace (hstable : BindingType.Stable P Q) (within : List Text)
    (d : Namespace) :
    (lowerNamespace options within d).Gives fun bindings => ∀ b ∈ bindings, b.Lawful Q := by
  obtain ⟨name, body, isStringName, isGlobal, loc⟩ := d
  rw [lowerNamespace.eq_def]
  dsimp only
  split
  · exact gives_warn_bind (gives_pure (List.forall_mem_nil _))
  · cases body with
    | nested inner => exact gives_warn_bind (gives_pure (List.forall_mem_nil _))
    | missing => exact gives_warn_bind (gives_pure (List.forall_mem_nil _))
    | block statements blockLoc =>
        refine (gives_lowerStatements hstable within statements).bind fun bindings hlegal =>
          gives_pure ?_
        split
        · exact hlegal
        · exact List.forall_mem_map.mpr fun b hb => (hlegal b hb).enclose name

theorem gives_lowerStatements (hstable : BindingType.Stable P Q) (within : List Text)
    (statements : List Statement) :
    (lowerStatements options within statements).Gives
      fun bindings => ∀ b ∈ bindings, b.Lawful Q := by
  match statements with
  | [] => exact gives_pure (List.forall_mem_nil _)
  | .declaration d :: rest | .exportDeclaration d _ :: rest
  | .exportDefaultDeclaration d _ :: rest =>
      rw [lowerStatements]
      refine (gives_lower hstable within d).bind fun head hhead => ?_
      refine (gives_lowerStatements hstable within rest).bind fun tail htail => gives_pure ?_
      exact List.forall_mem_append.mpr ⟨hhead, htail⟩
  | .importDeclaration _ :: rest | .importAlias _ :: rest | .exportList _ :: rest
  | .exportDefaultName _ _ :: rest | .exportAll _ _ _ :: rest | .exportAssignment _ _ :: rest
  | .exportAsNamespace _ _ :: rest | .stray _ :: rest =>
      simp only [lowerStatements]
      exact gives_lowerStatements hstable within rest

end

end Lowering

end HostBindings

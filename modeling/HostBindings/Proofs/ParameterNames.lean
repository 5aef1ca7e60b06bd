import HostBindings.Proofs.HostNames
import HostBindings.Proofs.LegalBindings

/-!
The names of parameters. A binding takes the parameters that its declaration names, each under the
Rust name of its own raw name, and a method takes its receiver before them. No later pass looks at
these names again: they are distinct exactly if the sanitizer keeps the raw names apart.
-/

namespace HostBindings

open Source Rust Lowering HostBindings.Composition

/-- The names under which a binding takes its parameters, the receiver included. -/
def Binding.paramNames (b : Binding) : List Text := b.shape.parameters.map (·.name)

@[simp] theorem Binding.paramNames_mapTypes (f : Bool → BindingType → BindingType) (b : Binding) :
    (b.mapTypes f).paramNames = b.paramNames := by
  obtain ⟨name, shape, attributes, loc⟩ := b
  cases shape with
  | function params result =>
      simp [paramNames, Binding.mapTypes, BindingShape.mapTypes, BindingShape.parameters]
  | hostType => rfl
  | static type => rfl

namespace Source

/-- The raw name that a parameter binds. A parameter `this` binds none: it only tells the type of
the receiver. -/
def Param.boundName? (p : Param) : Option Text :=
  match p.pattern with
  | .name name _ => if name = "this" then none else some name
  | _ => none

def boundNames (params : List Param) : List Text := params.filterMap Param.boundName?

/-- The raw name of the value that a setter takes: that of its first parameter. -/
def valueName (params : List Param) : Text := (boundNames params).headD "value"

/-- The raw names of the parameters that the binding of a member takes. -/
def Member.paramNames : Member → List Text
  | .constructorMember _ params _ _ => boundNames params
  | .method _ .method signature _ _ _ _ _ | .methodSignature _ signature _ _ =>
      boundNames signature.params
  | .method _ .setter signature _ _ _ _ _ => [valueName signature.params]
  | .setterSignature _ param _ => [valueName [param]]
  | _ => []

theorem this_not_mem_boundNames (params : List Param) :
    Text.ofString "this" ∉ boundNames params := by
  intro hmem
  obtain ⟨p, _, hp⟩ := List.mem_filterMap.mp hmem
  rw [Param.boundName?] at hp
  split at hp
  · split at hp
    · cases hp
    · rename_i hne
      exact hne (Option.some.inj hp)
  · cases hp

theorem valueName_ne_this (params : List Param) : valueName params ≠ Text.ofString "this" := by
  intro hvalue
  rw [valueName] at hvalue
  cases hnames : boundNames params with
  | nil =>
      rw [hnames] at hvalue
      exact absurd hvalue (by decide)
  | cons name rest =>
      rw [hnames, List.headD_cons] at hvalue
      exact this_not_mem_boundNames params (by rw [hnames, ← hvalue]; exact List.mem_cons_self)

theorem Member.this_not_mem_paramNames (member : Member) :
    Text.ofString "this" ∉ member.paramNames := by
  fun_cases Member.paramNames member with
  | case1 | case2 | case3 => exact this_not_mem_boundNames _
  | case4 | case5 => simpa using (valueName_ne_this _).symm
  | case6 => exact List.not_mem_nil

end Source

/-- The raw names of the parameters that an origin's binding takes. -/
def Lowering.Origin.paramNames (o : Origin) : List Text :=
  match o.member, o.declaration with
  | some member, _ => member.paramNames
  | none, .function d => boundNames d.signature.params
  | none, _ => []

theorem Lowering.Origin.this_not_mem_paramNames (o : Origin) :
    Text.ofString "this" ∉ o.paramNames := by
  rw [paramNames]
  split
  · exact Member.this_not_mem_paramNames _
  · exact this_not_mem_boundNames _
  · exact List.not_mem_nil

theorem Identifier.eq_this_of_rustName_eq {raw : Text}
    (h : rustName raw = Text.ofString "this") : raw = Text.ofString "this" := by
  have hspelled : spelling raw = Text.ofString "this" := by
    rw [← bareName_rustName, h]
    rfl
  exact (eq_of_spelling_eq_cons (by decide) rfl hspelled).1

/-- A binding takes parameters of these raw names, after the receiver if it is a method. -/
def Binding.TakesParams (names : List Text) (b : Binding) : Prop :=
  b.paramNames =
    (if b.attributes.isMethod then [Text.ofString "this"] else []) ++
      names.map Identifier.rustName

namespace Binding.TakesParams

variable {names : List Text} {b : Binding}

theorem mapTypes (h : b.TakesParams names) (f : Bool → BindingType → BindingType) :
    (b.mapTypes f).TakesParams names := by
  rw [TakesParams, paramNames_mapTypes, attributes_mapTypes]
  exact h

theorem encloseAll (h : b.TakesParams names) (spaces : List Text) :
    (b.encloseAll spaces).TakesParams names := by
  rw [encloseAll_eq]
  exact h

theorem nodup_iff (h : b.TakesParams names) (hthis : Text.ofString "this" ∉ names) :
    b.paramNames.Nodup ↔ (names.map Identifier.rustName).Nodup := by
  have hreceiver : Text.ofString "this" ∉ names.map Identifier.rustName := by
    intro hmem
    obtain ⟨name, hname, heq⟩ := List.mem_map.mp hmem
    exact hthis (Identifier.eq_this_of_rustName_eq heq ▸ hname)
  rw [h]
  split
  · rw [List.singleton_append, List.nodup_cons]
    exact and_iff_right hreceiver
  · rw [List.nil_append]

end Binding.TakesParams

namespace Lowering

open Outcome

variable {options : Options} {within : List Text} {o : Owner} {member : Member} {b : Binding}

theorem names_of_lowerParams {params : List Param} {lowered : List Parameter}
    (h : (lowerParams options within params).result = .ok lowered) :
    lowered.map (·.name) = (boundNames params).map Identifier.rustName := by
  induction params generalizing lowered with
  | nil =>
      rw [← Except.ok.inj h]
      rfl
  | cons p rest ih =>
      rw [lowerParams] at h
      split at h
      · rename_i name loc hpattern
        split at h
        · rename_i hthis
          have hbound : p.boundName? = none := by simp [Param.boundName?, hpattern, hthis]
          rw [boundNames, List.filterMap_cons_none hbound]
          exact ih h
        · rename_i hthis
          have hbound : p.boundName? = some name := by simp [Param.boundName?, hpattern, hthis]
          simp only [lowerParam, result_bind_eq_ok_iff] at h
          obtain ⟨head, ⟨type, _, hhead⟩, tail, htail, hreturn⟩ := h
          rw [← Except.ok.inj hreturn, ← Except.ok.inj hhead, boundNames,
            List.filterMap_cons_some hbound, List.map_cons, List.map_cons, ih htail]
          rfl
      · cases h
      · cases h

theorem method_takesParams {raw : Text} {signature : Signature} {isStatic : Bool}
    {loc : Option Location} (h : (method o raw signature isStatic loc).result = .ok b) :
    b.TakesParams (boundNames signature.params) := by
  simp only [method, result_bind_eq_ok_iff] at h
  obtain ⟨params, hparams, result, _, hreturn⟩ := h
  rw [← Except.ok.inj hreturn, Binding.TakesParams, ← names_of_lowerParams hparams]
  cases isStatic <;> rfl

theorem setter_takesParams {raw : Text} {params : List Param} {isStatic : Bool}
    {loc : Option Location} (h : (setter o raw params isStatic loc).result = .ok b) :
    b.TakesParams [valueName params] := by
  simp only [setter, result_bind_eq_ok_iff] at h
  obtain ⟨lowered, hlowered, hreturn⟩ := h
  have hvalue : (lowered.headD { name := "value", type := .dynamic }).name =
      Identifier.rustName (valueName params) := by
    have hnames := names_of_lowerParams hlowered
    rw [valueName]
    generalize boundNames params = names at hnames
    match lowered, names, hnames with
    | [], [], _ => rfl
    | p :: rest, name :: others, hnames => exact (List.cons.inj hnames).1
  rw [← Except.ok.inj hreturn, Binding.TakesParams, List.map_singleton, ← hvalue]
  cases isStatic <;> rfl

theorem accessor_takesParams (owner mark raw : Text) (isStatic : Bool)
    (result : Option BindingType) (loc : Option Location) :
    (accessor owner mark raw isStatic result none loc).TakesParams [] := by
  cases isStatic <;> rfl

theorem getter_takesParams {raw : Text} {result : Option TypeExpr} {isStatic : Bool}
    {loc : Option Location} (h : (getter o raw result isStatic loc).result = .ok b) :
    b.TakesParams [] := by
  simp only [getter, result_bind_eq_ok_iff] at h
  obtain ⟨type, _, hreturn⟩ := h
  rw [← Except.ok.inj hreturn]
  exact accessor_takesParams _ _ _ _ _ _

theorem property_takesParams {raw : Text} {annotated : Option TypeExpr}
    {isOptional isStatic : Bool} {loc : Option Location}
    (h : (property o raw annotated isOptional isStatic loc).result = .ok b) :
    b.TakesParams [] := by
  simp only [property, result_bind_eq_ok_iff] at h
  obtain ⟨type, _, hreturn⟩ := h
  rw [← Except.ok.inj hreturn]
  exact accessor_takesParams _ _ _ _ _ _

theorem named_takesParams {key : PropertyKey} {scope : GenericScope} {f : Text → Outcome Binding}
    {names : List Text} (h : (named key scope f).result = .ok [b])
    (hf : ∀ form, (f key.value).result = .ok form → form.TakesParams names) :
    b.TakesParams names := by
  rcases named_eq_ok h with ⟨_, hnone⟩ | ⟨_, form, hform, hsome⟩
  · cases hnone
  · rw [List.singleton_inj.mp hsome]
    exact (hf form hform).mapTypes _

theorem constructorBinding_takesParams {key : PropertyKey} {params : List Param}
    {seenConstructor : Bool} {loc : Option Location}
    (h : (constructorBinding o key params seenConstructor loc).result = .ok [b]) :
    b.TakesParams (boundNames params) := by
  rw [constructorBinding] at h
  split at h
  · cases h
  · split at h
    · cases h
    · split at h
      · cases h
      · obtain ⟨lowered, hlowered, hreturn⟩ := (result_bind_eq_ok_iff _ _ _).mp h
        rw [← List.singleton_inj.mp (Except.ok.inj hreturn)]
        refine Binding.TakesParams.mapTypes ?_ _
        exact names_of_lowerParams hlowered

theorem lowerInterfaceMember_takesParams
    (h : (lowerInterfaceMember o member).result = .ok [b]) : b.TakesParams member.paramNames := by
  cases member with
  | propertySignature => exact named_takesParams h fun _ => property_takesParams
  | methodSignature => exact named_takesParams h fun _ => method_takesParams
  | getterSignature => exact named_takesParams h fun _ => getter_takesParams
  | setterSignature => exact named_takesParams h fun _ => setter_takesParams
  | stray s key => cases s <;> cases h
  | _ => cases h

theorem not_misplaced {key : PropertyKey} {scope : GenericScope} {cause : Cause}
    {loc : Option Location} :
    (named key scope fun _ => Outcome.fail cause loc).result ≠ .ok [b] := by
  intro h
  rcases named_eq_ok h with ⟨_, hnone⟩ | ⟨_, form, hform, _⟩
  · cases hnone
  · cases hform

theorem eq_ok_of_shown {hidden : Bool} {x : Outcome (List Binding)}
    (h : (if hidden then return [] else x).result = .ok [b]) : x.result = .ok [b] := by
  cases hidden with
  | true => cases h
  | false => exact h

theorem lowerClassMember_takesParams {seenConstructor : Bool}
    (h : (lowerClassMember o seenConstructor member).result = .ok [b]) :
    b.TakesParams member.paramNames := by
  cases member with
  | index | staticBlock | empty => cases h
  | constructorMember => exact constructorBinding_takesParams (eq_ok_of_shown h)
  | method key kind =>
      have hshown := eq_ok_of_shown h
      cases kind with
      | getter => exact named_takesParams hshown fun _ => getter_takesParams
      | setter => exact named_takesParams hshown fun _ => setter_takesParams
      | method => exact named_takesParams hshown fun _ => method_takesParams
  | property => exact named_takesParams (eq_ok_of_shown h) fun _ => property_takesParams
  | propertySignature | methodSignature | getterSignature | setterSignature =>
      exact absurd (eq_ok_of_shown h) not_misplaced
  | callSignature | constructSignature => cases eq_ok_of_shown h
  | stray s key =>
      cases key with
      | none => cases eq_ok_of_shown h
      | some key => exact absurd (eq_ok_of_shown h) not_misplaced

theorem lowerFunction_takesParams {d : FunctionDeclaration}
    (h : (lowerFunction options within d).result = .ok [b]) :
    b.TakesParams (boundNames d.signature.params) := by
  simp only [lowerFunction, result_bind_eq_ok_iff] at h
  obtain ⟨name, _, lowered, hlowered, result, _, hreturn⟩ := h
  rw [← List.singleton_inj.mp (Except.ok.inj hreturn)]
  refine Binding.TakesParams.mapTypes ?_ _
  exact names_of_lowerParams hlowered

theorem lowerVariables_takesParams {d : VariableDeclaration}
    (h : (lowerVariables options within d).result = .ok [b]) : b.TakesParams [] := by
  rw [lowerVariables] at h
  split at h
  · cases h
  · split at h
    · obtain ⟨type, _, hreturn⟩ := (result_bind_eq_ok_iff _ _ _).mp h
      rw [← List.singleton_inj.mp (Except.ok.inj hreturn)]
      rfl
    · cases h
  · cases h

theorem LowersMember.takesParams {owner : Text} {scope : GenericScope}
    (h : LowersMember options owner scope member b) : b.TakesParams member.paramNames := by
  cases h with
  | inClass h => exact lowerClassMember_takesParams h
  | inInterface h => exact lowerInterfaceMember_takesParams h

/-- Every binding takes the parameters of the declaration or member that it is made for. -/
theorem Lowered.takesParams {origin : Origin} (h : Lowered options origin b) :
    b.TakesParams origin.paramNames := by
  cases h with
  | @hostType d name spaces htype hname =>
      refine Binding.TakesParams.encloseAll ?_ spaces
      cases d with
      | classDeclaration | typeAlias | interface => rfl
      | _ => cases htype
  | function spaces h => exact (lowerFunction_takesParams h).encloseAll spaces
  | static spaces h => exact (lowerVariables_takesParams h).encloseAll spaces
  | member spaces hname h => exact h.takesParams.encloseAll spaces

end Lowering

theorem Binding.TakesParams.becomes {names : List Text} {block : List Binding}
    {before after : Binding} (h : before.TakesParams names)
    (hafter : Collision.Becomes block before after) : after.TakesParams names := by
  obtain ⟨f, hf⟩ := Collision.prepared_eq_mapTypes before
  rw [Collision.Becomes, hf] at hafter
  split at hafter
  · rw [hafter]
    exact h
  · rcases hafter with rfl | ⟨k, rfl⟩
    · exact h.mapTypes f
    · exact h.mapTypes f

theorem Binding.TakesParams.finishes {names : List Text} {before after : Binding}
    (h : before.TakesParams names) (hafter : Finishes before after) : after.TakesParams names := by
  obtain ⟨block, resolved, f, hresolved, rfl⟩ := hafter
  exact (h.becomes hresolved).mapTypes f

/-- Every binding of a compiled unit stands for an origin of its own, and the names of its
parameters are the receiver's, in a method, and after it the Rust names of the raw names that the
origin declares, in order. They are distinct exactly if the Rust names of these raw names are. -/
theorem compileModule_paramNames (options : Options) (m : Module) (u : SourceUnit)
    (h : (compileModule options m).result = .ok u) :
    ∃ origins : List Origin, origins.Subperm (originsOfAll m.visibleDeclarations) ∧
      List.Forall₂
        (fun o b => StandsFor (scriptNames m.body).reverse o b ∧ b.TakesParams o.paramNames ∧
          (b.paramNames.Nodup ↔ (o.paramNames.map Identifier.rustName).Nodup))
        origins u.bindings := by
  obtain ⟨composed, hcomposed, rfl⟩ := (compileModule_eq_ok_iff options m u).mp h
  obtain ⟨lowered, hlowered, hperm⟩ := lowered_of_compose hcomposed
  obtain ⟨kept, hkept, hfinishes⟩ := exists_finishes options composed
  have htakes : List.Forall₂
      (fun b o => StandsFor (scriptNames m.body).reverse o b ∧ b.TakesParams o.paramNames)
      (lowered.map (Binding.encloseAll (scriptNames m.body).reverse))
      (originsOfAll m.visibleDeclarations) := by
    rw [List.forall₂_map_left_iff]
    refine hlowered.flip.imp fun b o hb => ⟨?_, hb.takesParams.encloseAll _⟩
    simpa using hb.made.standsFor.encloseAll (scriptNames m.body).reverse
  obtain ⟨ordered, hordered, hpermuted⟩ := List.perm_comp_forall₂ hperm htakes
  obtain ⟨origins, horigins, hleft⟩ := exists_sublist_of_forall₂ hordered.flip hkept
  refine ⟨origins, horigins.subperm.trans hpermuted.subperm, ?_⟩
  refine forall₂_trans ?_ hleft hfinishes
  rintro o before after ⟨hstands, hbefore⟩ hafter
  have hparams := hbefore.finishes hafter
  exact ⟨hafter.inherits _ o hstands, hparams, hparams.nodup_iff o.this_not_mem_paramNames⟩

/-- A class with a constructor, a method that tells the type of its receiver, and a setter; and a
function with a keyword for a parameter. -/
def sliderModule : Module :=
  let key (name : Text) : PropertyKey := ⟨.word, name, none⟩
  let param (name : Text) : Param := ⟨.name name none, none, false, false, none⟩
  let method (name : Text) (kind : MethodKind) (params : List Param) : Member :=
    .method (key name) kind ⟨params, none, []⟩ false none false false none
  { body := [
      .declaration (.classDeclaration ⟨some "Slider", [
        .constructorMember (key "constructor") [param "min", param "max"] none none,
        method "move" .method [param "this", param "$by", param "by"],
        method "value" .setter [param "new-value"]], [], none, [], false, none⟩),
      .declaration (.function ⟨some "snap", ⟨[param "type", param "r"], none, []⟩, none⟩)] }

theorem sliderModule_paramNames :
    ∃ u, (compileModule .standard sliderModule).result = .ok u ∧
      u.bindings.map Binding.paramNames =
        ([[], ["min", "max"], ["this", "_by", "by"], ["this", "new_value"], ["r#type", "r"]] :
          List (List Text)) ∧
      ∃ origins : List Origin, origins.Subperm (originsOfAll sliderModule.visibleDeclarations) ∧
        List.Forall₂
          (fun o b => StandsFor (scriptNames sliderModule.body).reverse o b ∧
            b.TakesParams o.paramNames ∧
            (b.paramNames.Nodup ↔ (o.paramNames.map Identifier.rustName).Nodup))
          origins u.bindings :=
  ⟨_, rfl, rfl, compileModule_paramNames .standard sliderModule _ rfl⟩

/-- A function of two parameters that differ in a character no Rust name may hold. -/
def joinModule : Module :=
  let param (name : Text) : Param := ⟨.name name none, none, false, false, none⟩
  { body := [.declaration
      (.function ⟨some "join", ⟨[param "$x", param "_x"], none, []⟩, none⟩)] }

/-- The raw names are distinct, but the function takes two parameters of one name. -/
theorem joinModule_paramNames_repeat :
    ∃ u, (compileModule .standard joinModule).result = .ok u ∧
      (∀ o ∈ originsOfAll joinModule.visibleDeclarations, o.paramNames.Nodup) ∧
      ∃ b ∈ u.bindings, b.paramNames = [Text.ofString "_x", "_x"] ∧ ¬ b.paramNames.Nodup := by
  refine ⟨_, rfl, ?_, _, List.mem_cons_self, rfl, by decide⟩
  intro o ho
  rw [List.mem_singleton.mp ho]
  decide

end HostBindings

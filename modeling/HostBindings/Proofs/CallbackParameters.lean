import HostBindings.Proofs.ErasureLaws
import HostBindings.Proofs.LoweringResults

/-!
Parameters of callbacks and of declarations. A function type and a declaration read the same list of
parameters, each on its own. They read it alike but for one thing: a parameter `this`, which only
tells the type of the receiver, is left out of a declaration and stays in a function type.
-/

namespace HostBindings

/-- The class of error that ends the work, or the fault. -/
def Halt.kind : Halt → FailureKind ⊕ Fault
  | failure f => .inl f.cause.kind
  | fault f => .inr f

/-- Whether a parameter only tells the type of the receiver. -/
def Source.Param.tellsReceiver (p : Source.Param) : Bool :=
  match p.pattern with
  | .name name _ => name = "this"
  | _ => false

namespace Lowering

open Source Outcome

/-- The types of a list of parameters agree with the parameters of a declaration: they are the types
of these, in order, or there are none of either for errors of one class. -/
inductive SameTypes : Except Halt (List BindingType) → Except Halt (List Parameter) → Prop
  | ok (params : List Parameter) : SameTypes (.ok (params.map (·.type))) (.ok params)
  | error {e e' : Halt} (h : e.kind = e'.kind) : SameTypes (.error e) (.error e')

/-- A function type agrees with the parameters of a declaration: it is a callback that takes the
types of these, in order, or there are none of either for errors of one class. -/
inductive TakesAlike : Except Halt BindingType → Except Halt (List Parameter) → Prop
  | ok (params : List Parameter) (result : Option BindingType) :
      TakesAlike (.ok (.reference (.callable (params.map (·.type)) result))) (.ok params)
  | error {e e' : Halt} (h : e.kind = e'.kind) : TakesAlike (.error e) (.error e')

variable {options : Options} {within : List Text}

section

variable {name : Text} {nameLoc loc : Option Location} {annotated : Option TypeExpr}
  {isOptional isRest : Bool} {rest : List Param}

theorem result_mapParams_cons :
    (mapParams options within (⟨.name name nameLoc, annotated, isOptional, isRest, loc⟩ :: rest)
      ).result =
      (mapAnnotated options within annotated).result.bind fun type =>
        (mapParams options within rest).result.bind fun tail =>
          .ok ((if isOptional then type.optional else type) :: tail) := by
  simp only [mapParams, result_bind]
  rfl

theorem result_lowerParams_cons (hname : name ≠ Text.ofString "this") :
    (lowerParams options within (⟨.name name nameLoc, annotated, isOptional, isRest, loc⟩ :: rest)
      ).result =
      (mapAnnotated options within annotated).result.bind fun type =>
        (lowerParams options within rest).result.bind fun tail =>
          .ok (⟨Identifier.rustName name, if isOptional then type.optional else type⟩ :: tail) := by
  simp only [lowerParams, if_neg hname, lowerParam, result_bind]
  cases (mapAnnotated options within annotated).result <;> rfl

theorem lowerParams_receiver :
    lowerParams options within
      (⟨.name (Text.ofString "this") nameLoc, annotated, isOptional, isRest, loc⟩ :: rest) =
      lowerParams options within rest := by
  simp only [lowerParams, if_true]

end

/-- Without the parameters that tell the type of the receiver, a function type takes what a
declaration takes. -/
theorem sameTypes_mapParams (params : List Param) :
    SameTypes (mapParams options within (params.filter (!·.tellsReceiver))).result
      (lowerParams options within params).result := by
  induction params with
  | nil => exact .ok []
  | cons p rest ih =>
      obtain ⟨pattern, annotated, isOptional, isRest, loc⟩ := p
      cases pattern with
      | name name nameLoc =>
          by_cases hthis : name = Text.ofString "this"
          · rw [hthis, lowerParams_receiver,
              List.filter_cons_of_neg (by simp [Param.tellsReceiver])]
            exact ih
          · rw [result_lowerParams_cons hthis,
              List.filter_cons_of_pos (by simp [Param.tellsReceiver, hthis]), result_mapParams_cons]
            generalize (mapParams options within _).result = types at ih ⊢
            generalize (lowerParams options within rest).result = params at ih ⊢
            cases (mapAnnotated options within annotated).result with
            | error e => exact .error rfl
            | ok type =>
                cases ih with
                | ok params =>
                    exact SameTypes.ok (⟨Identifier.rustName name,
                      if isOptional then type.optional else type⟩ :: params)
                | error h => exact .error h
      | object | array | absent => exact .error rfl

theorem length_of_mapParams {params : List Param} {types : List BindingType}
    (h : (mapParams options within params).result = .ok types) : types.length = params.length := by
  induction params generalizing types with
  | nil =>
      rw [← Except.ok.inj h]
      rfl
  | cons p rest ih =>
      obtain ⟨pattern, annotated, isOptional, isRest, loc⟩ := p
      cases pattern with
      | name name nameLoc =>
          simp only [mapParams, result_bind_eq_ok_iff] at h
          obtain ⟨type, _, tail, htail, hreturn⟩ := h
          rw [← Except.ok.inj hreturn, List.length_cons, List.length_cons, ih htail]
      | object | array | absent => cases h

theorem exists_lowerParams_of_mapParams {params : List Param} {types : List BindingType}
    (h : (mapParams options within params).result = .ok types) :
    ∃ lowered, (lowerParams options within params).result = .ok lowered := by
  induction params generalizing types with
  | nil => exact ⟨[], rfl⟩
  | cons p rest ih =>
      obtain ⟨pattern, annotated, isOptional, isRest, loc⟩ := p
      cases pattern with
      | name name nameLoc =>
          simp only [mapParams, result_bind_eq_ok_iff] at h
          obtain ⟨type, htype, tail, htail, _⟩ := h
          obtain ⟨lowered, hlowered⟩ := ih htail
          by_cases hthis : name = Text.ofString "this"
          · exact ⟨lowered, by rw [hthis, lowerParams_receiver, hlowered]⟩
          · exact ⟨_, by
              rw [result_lowerParams_cons hthis, htype, hlowered, Except.bind, Except.bind]⟩
      | object | array | absent => cases h

theorem length_of_lowerParams {params : List Param} {lowered : List Parameter}
    (h : (lowerParams options within params).result = .ok lowered) :
    lowered.length = (params.filter (!·.tellsReceiver)).length := by
  have hsame := @sameTypes_mapParams options within params
  generalize hmapped : (mapParams options within (params.filter (!·.tellsReceiver))).result = types
    at hsame
  rw [h] at hsame
  cases hsame with
  | ok => rw [← length_of_mapParams hmapped, List.length_map]

theorem result_functionType {result : Option TypeExpr} {out : Option BindingType}
    (hresult : (mapResult options within result).result = .ok out) (params : List Param)
    (loc : Option Location) :
    (mapType options within (.function params result [] loc)).result =
      (mapParams options within params).result.bind fun types =>
        .ok (.reference (.callable types out)) := by
  simp only [mapType, result_bind, hresult]
  rfl

theorem SameTypes.takesAlike {types : Except Halt (List BindingType)}
    {params : Except Halt (List Parameter)} (h : SameTypes types params)
    (result : Option BindingType) :
    TakesAlike (types.bind fun types => .ok (.reference (.callable types result))) params := by
  cases h with
  | ok params => exact .ok params result
  | error h => exact .error h

/-- A function type without type parameters of its own, whose result can be mapped, agrees with the
parameters of a declaration once the parameters that tell the type of the receiver are left out of
it. With them it takes more than a declaration does, wherever the list has a reading; and it has no
reading where a declaration has none. -/
theorem functionType_takesAlike (options : Options) (within around : List Text)
    (params : List Param) (result : Option TypeExpr) (loc : Option Location)
    (out : Option BindingType) (hresult : (mapResult options within result).result = .ok out) :
    TakesAlike
        (mapType options within
          (.function (params.filter (!·.tellsReceiver)) result [] loc)).result
        (lowerParams options around params).result ∧
      (∀ lowered, (lowerParams options around params).result = .ok lowered →
        (TakesAlike (mapType options within (.function params result [] loc)).result
            (lowerParams options around params).result ↔
          ∀ p ∈ params, p.tellsReceiver = false)) ∧
      ∀ ty, (mapType options within (.function params result [] loc)).result = .ok ty →
        ∃ lowered, (lowerParams options around params).result = .ok lowered := by
  have hplace : (lowerParams options around params).result =
      (lowerParams options within params).result := by
    rw [result_lowerParams options around, result_lowerParams options within]
  have hleftOut := (@sameTypes_mapParams options within params).takesAlike out
  rw [hplace, result_functionType hresult, result_functionType hresult]
  refine ⟨hleftOut, ?_, ?_⟩
  · intro lowered hlowered
    constructor
    · intro halike
      rw [hlowered] at halike
      generalize hmapped : (mapParams options within params).result = types at halike
      cases types with
      | error e => cases halike
      | ok types =>
          cases halike with
          | ok =>
              -- as many types as parameters, so nothing was left out
              have hlength := length_of_lowerParams hlowered
              rw [← List.length_map (f := (·.type)), length_of_mapParams hmapped] at hlength
              simpa using List.length_filter_eq_length_iff.mp hlength.symm
    · intro hnone
      have hall : params.filter (!·.tellsReceiver) = params := by
        rw [List.filter_eq_self]
        intro p hp
        rw [hnone p hp]
        rfl
      rwa [hall] at hleftOut
  · intro ty hty
    cases hmapped : (mapParams options within params).result with
    | error e =>
        rw [hmapped] at hty
        cases hty
    | ok types => exact exists_lowerParams_of_mapParams hmapped

/-- The parameters of a callback that tells that it has no receiver. -/
def detachedParams : List Param :=
  [⟨.name "this" none, some (.keyword .void none), false, false, none⟩,
    ⟨.name "code" none, some (.keyword .number none), false, false, none⟩]

theorem detachedParams_takesAlike :
    (mapResult .standard [] none).result = .ok none ∧
      TakesAlike
        (mapType .standard []
          (.function (detachedParams.filter (!·.tellsReceiver)) none [] none)).result
        (lowerParams .standard [] detachedParams).result ∧
      (∀ lowered, (lowerParams .standard [] detachedParams).result = .ok lowered →
        (TakesAlike (mapType .standard [] (.function detachedParams none [] none)).result
            (lowerParams .standard [] detachedParams).result ↔
          ∀ p ∈ detachedParams, p.tellsReceiver = false)) ∧
      ∀ ty, (mapType .standard [] (.function detachedParams none [] none)).result = .ok ty →
        ∃ lowered, (lowerParams .standard [] detachedParams).result = .ok lowered :=
  ⟨rfl, functionType_takesAlike .standard [] [] detachedParams none none none rfl⟩

/-- The callback takes a value for its receiver, and a declaration of the same parameters does
not. -/
theorem detachedParams_receiver_taken :
    (mapType .standard [] (.function detachedParams none [] none)).result =
        .ok (.reference (.callable [.unit, .float] none)) ∧
      (lowerParams .standard [] detachedParams).result =
        .ok [{ name := "code", type := .float }] ∧
      ¬ TakesAlike (mapType .standard [] (.function detachedParams none [] none)).result
        (lowerParams .standard [] detachedParams).result := by
  have htype : (mapType .standard [] (.function detachedParams none [] none)).result =
      .ok (.reference (.callable [.unit, .float] none)) := rfl
  have hparams : (lowerParams .standard [] detachedParams).result =
      .ok [{ name := "code", type := .float }] := rfl
  refine ⟨htype, hparams, ?_⟩
  rw [htype, hparams]
  intro halike
  generalize htaken : [BindingType.unit, .float] = taken at halike
  cases halike with
  | ok => simp at htaken

end Lowering

end HostBindings

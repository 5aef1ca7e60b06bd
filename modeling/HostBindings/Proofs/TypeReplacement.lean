import HostBindings.Binding.Erasure

/-!
Laws of replacement in boundary types. Erasure and the resolution of the receiver's type replace
types that are named by a single segment. Two such replacements in a row are one, whatever options
collapse on the way.
-/

namespace HostBindings.BindingType

/-- The rule that replaces types named by a single segment. -/
def nameRule (σ : Text → Option BindingType) : BindingType → Option BindingType
  | .named [name] => σ name
  | _ => none

/-- Replaces types named by a single segment. -/
def replaceNames (σ : Text → Option BindingType) (ty : BindingType) : BindingType :=
  ty.replace (nameRule σ)

/-- One replacement of names followed by another. -/
def thenReplace (σ τ : Text → Option BindingType) (name : Text) : Option BindingType :=
  match σ name with
  | none => τ name
  | some ty => some (ty.replaceNames τ)

theorem substitute_eq_replaceNames (ty : BindingType) (name : Text) (replacement : BindingType) :
    ty.substitute name replacement =
      ty.replaceNames fun n => if n = name then some replacement else none := rfl

theorem optional_optional (ty : BindingType) : optional (optional ty) = optional ty := by
  fun_induction optional ty with
  | case1 inner ih => exact ih
  | case2 => rfl
  | case3 ty hoption hdynamic =>
      rw [optional]
      exact optional.eq_3 ty hoption hdynamic

/-- What a node becomes when it is the answer of a rule. -/
def settleAnswer : BindingType → BindingType
  | .option inner => optional inner
  | ty => ty

theorem settleAnswer_optional (ty : BindingType) : settleAnswer (optional ty) = optional ty := by
  fun_induction optional ty with
  | case1 inner ih => exact ih
  | case2 => rfl
  | case3 ty hoption hdynamic =>
      rw [settleAnswer]
      exact optional.eq_3 ty hoption hdynamic

theorem settle_of_none {f : BindingType → Option BindingType} {ty : BindingType}
    (h : f ty = none) : settle f ty = ty := by
  rw [settle, h]

theorem settle_of_some {f : BindingType → Option BindingType} {ty out : BindingType}
    (h : f ty = some out) : settle f ty = settleAnswer out := by
  rw [settle, h]
  cases out <;> rfl

theorem replaceAll_eq_map (f : BindingType → Option BindingType) (tys : List BindingType) :
    replaceAll f tys = tys.map (replace f) := by
  induction tys with
  | nil => rfl
  | cons ty rest ih => rw [replaceAll, ih, List.map_cons]

theorem replaceResult_eq_map (f : BindingType → Option BindingType)
    (result : Option BindingType) : replaceResult f result = result.map (replace f) := by
  cases result <;> rfl

theorem nameRule_optional (σ : Text → Option BindingType) (ty : BindingType) :
    nameRule σ (optional ty) = none := by
  fun_induction optional ty with
  | case1 inner ih => exact ih
  | case2 => rfl
  | case3 => rfl

section

variable (σ τ : Text → Option BindingType)

@[simp] theorem replaceNames_reference (inner : BindingType) :
    (BindingType.reference inner).replaceNames σ = .reference (inner.replaceNames σ) := by
  rw [replaceNames, replace, settle_of_none rfl, replaceNames]

@[simp] theorem replaceNames_option (inner : BindingType) :
    (BindingType.option inner).replaceNames σ = optional (inner.replaceNames σ) := by
  rw [replaceNames, replace, settle_of_none (nameRule_optional σ _), replaceNames]

@[simp] theorem replaceNames_boxedSlice (inner : BindingType) :
    (BindingType.boxedSlice inner).replaceNames σ = .boxedSlice (inner.replaceNames σ) := by
  rw [replaceNames, replace, settle_of_none rfl, replaceNames]

@[simp] theorem replaceNames_tuple (elements : List BindingType) :
    (BindingType.tuple elements).replaceNames σ = .tuple (elements.map (replaceNames σ)) := by
  rw [replaceNames, replace, settle_of_none rfl, replaceAll_eq_map]
  rfl

@[simp] theorem replaceNames_callable (params : List BindingType) (result : Option BindingType) :
    (BindingType.callable params result).replaceNames σ =
      .callable (params.map (replaceNames σ)) (result.map (replaceNames σ)) := by
  rw [replaceNames, replace, settle_of_none rfl, replaceAll_eq_map, replaceResult_eq_map]
  rfl

theorem replaceNames_named_of_none {name : Text} (h : σ name = none) :
    (BindingType.named [name]).replaceNames σ = .named [name] :=
  settle_of_none h

theorem replaceNames_named_of_some {name : Text} {out : BindingType} (h : σ name = some out) :
    (BindingType.named [name]).replaceNames σ = settleAnswer out :=
  settle_of_some h

theorem replaceNames_optional (ty : BindingType) :
    (optional ty).replaceNames σ = optional (ty.replaceNames σ) := by
  fun_induction optional ty with
  | case1 inner ih => rw [ih, replaceNames_option, optional_optional]
  | case2 => rfl
  | case3 ty hoption hdynamic => exact replaceNames_option σ ty

theorem settleAnswer_settleAnswer (ty : BindingType) :
    settleAnswer (settleAnswer ty) = settleAnswer ty := by
  cases ty with
  | option inner => exact settleAnswer_optional inner
  | _ => rfl

theorem replaceNames_settleAnswer (ty : BindingType) :
    (settleAnswer ty).replaceNames σ = ty.replaceNames σ := by
  cases ty with
  | option inner => rw [settleAnswer, replaceNames_optional, replaceNames_option]
  | _ => rfl

theorem settleAnswer_replaceNames (ty : BindingType) :
    settleAnswer (ty.replaceNames σ) = ty.replaceNames σ := by
  cases ty with
  | option inner => rw [replaceNames_option, settleAnswer_optional]
  | named path =>
      match path with
      | [] => rfl
      | _ :: _ :: _ => rfl
      | [name] =>
          cases h : σ name with
          | none => rw [replaceNames_named_of_none σ h, settleAnswer]; simp
          | some out => rw [replaceNames_named_of_some σ h, settleAnswer_settleAnswer]
  | reference inner => rw [replaceNames_reference]; rfl
  | boxedSlice inner => rw [replaceNames_boxedSlice]; rfl
  | tuple elements => rw [replaceNames_tuple]; rfl
  | callable params result => rw [replaceNames_callable]; rfl
  | primitive name => rfl
  | dynamic => rfl
  | absent => rfl
  | stray kind written => rfl

mutual

/-- Replacing names twice is one replacement by the rules in a row. -/
theorem replaceNames_replaceNames (ty : BindingType) :
    (ty.replaceNames σ).replaceNames τ = ty.replaceNames (thenReplace σ τ) := by
  cases ty with
  | named path =>
      match path with
      | [] => rfl
      | _ :: _ :: _ => rfl
      | [name] =>
          cases h : σ name with
          | none =>
              have hboth : thenReplace σ τ name = τ name := by rw [thenReplace, h]
              rw [replaceNames_named_of_none σ h]
              cases hτ : τ name with
              | none =>
                  rw [replaceNames_named_of_none τ hτ,
                    replaceNames_named_of_none _ (hboth.trans hτ)]
              | some out =>
                  rw [replaceNames_named_of_some τ hτ,
                    replaceNames_named_of_some _ (hboth.trans hτ)]
          | some out =>
              have hboth : thenReplace σ τ name = some (out.replaceNames τ) := by
                rw [thenReplace, h]
              rw [replaceNames_named_of_some σ h, replaceNames_named_of_some _ hboth,
                replaceNames_settleAnswer, settleAnswer_replaceNames]
  | reference inner =>
      simp only [replaceNames_reference, reference.injEq]
      exact replaceNames_replaceNames inner
  | option inner =>
      simp only [replaceNames_option, replaceNames_optional]
      rw [replaceNames_replaceNames inner]
  | boxedSlice inner =>
      simp only [replaceNames_boxedSlice, boxedSlice.injEq]
      exact replaceNames_replaceNames inner
  | tuple elements =>
      simp only [replaceNames_tuple, tuple.injEq]
      exact map_replaceNames_replaceNames elements
  | callable params result =>
      simp only [replaceNames_callable, callable.injEq]
      refine ⟨map_replaceNames_replaceNames params, ?_⟩
      cases result with
      | none => rfl
      | some ty =>
          simp only [Option.map_some, Option.some.injEq]
          exact replaceNames_replaceNames ty
  | primitive name => rfl
  | dynamic => rfl
  | absent => rfl
  | stray kind written => rfl

theorem map_replaceNames_replaceNames (tys : List BindingType) :
    (tys.map (replaceNames σ)).map (replaceNames τ) =
      tys.map (replaceNames (thenReplace σ τ)) := by
  cases tys with
  | nil => rfl
  | cons ty rest =>
      simp only [List.map_cons, List.cons.injEq]
      exact ⟨replaceNames_replaceNames ty, map_replaceNames_replaceNames rest⟩

end

end

theorem substitute_substitute (ty : BindingType) {name other : Text} (h : other ≠ name) :
    (ty.substitute name (.named [other])).substitute name (.named [other]) =
      ty.substitute name (.named [other]) := by
  simp only [substitute_eq_replaceNames]
  rw [replaceNames_replaceNames]
  congr 1
  funext n
  by_cases hn : n = name
  · have hother : (BindingType.named [other]).replaceNames
        (fun n => if n = name then some (.named [other]) else none) = .named [other] :=
      replaceNames_named_of_none _ (if_neg h)
    simp [thenReplace, hn, hother]
  · simp [thenReplace, hn]

end HostBindings.BindingType

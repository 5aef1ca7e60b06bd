import HostBindings.Proofs.TypeReplacement

/-!
Laws of erasure. Erasure goes through every former of boundary types, reaches types named by a
single segment only, and erasing one scope after another is erasing both at once.
-/

namespace HostBindings.BindingType

/-- The rule by which erasure replaces names. -/
def erasureRule (scope : GenericScope) (name : Text) : Option BindingType :=
  if scope.contains name then some .dynamic else none

theorem erase_nil : erase [] = id := rfl

theorem erase_eq_replaceNames {scope : GenericScope} (h : scope ≠ []) :
    erase scope = replaceNames (erasureRule scope) := by
  funext ty
  rw [erase, if_neg (by simpa using h), replaceNames]
  congr 1
  funext node
  cases node with
  | named path => rcases path with _ | ⟨name, _ | ⟨_, _⟩⟩ <;> rfl
  | _ => rfl

section

variable (scope : GenericScope)

@[simp] theorem erase_dynamic : BindingType.dynamic.erase scope = .dynamic := by
  cases scope <;> rfl

@[simp] theorem erase_primitive (name : Text) :
    (BindingType.primitive name).erase scope = .primitive name := by
  cases scope <;> rfl

@[simp] theorem erase_reference (inner : BindingType) :
    (BindingType.reference inner).erase scope = .reference (inner.erase scope) := by
  cases scope with
  | nil => rfl
  | cons name rest => simp [erase_eq_replaceNames]

@[simp] theorem erase_boxedSlice (inner : BindingType) :
    (BindingType.boxedSlice inner).erase scope = .boxedSlice (inner.erase scope) := by
  cases scope with
  | nil => rfl
  | cons name rest => simp [erase_eq_replaceNames]

@[simp] theorem erase_tuple (elements : List BindingType) :
    (BindingType.tuple elements).erase scope = .tuple (elements.map (erase scope)) := by
  cases scope with
  | nil => simp [erase_nil]
  | cons name rest => simp [erase_eq_replaceNames]

@[simp] theorem erase_callable (params : List BindingType) (result : Option BindingType) :
    (BindingType.callable params result).erase scope =
      .callable (params.map (erase scope)) (result.map (erase scope)) := by
  cases scope with
  | nil => simp [erase_nil]
  | cons name rest => simp [erase_eq_replaceNames]

@[simp] theorem erase_optional (ty : BindingType) :
    (optional ty).erase scope = optional (ty.erase scope) := by
  cases scope with
  | nil => rfl
  | cons name rest => simp [erase_eq_replaceNames, replaceNames_optional]

end

theorem erase_named_of_mem {scope : GenericScope} {name : Text} (h : name ∈ scope) :
    (BindingType.named [name]).erase scope = .dynamic := by
  have hrule : erasureRule scope name = some .dynamic := if_pos (by simpa using h)
  rw [erase_eq_replaceNames (List.ne_nil_of_mem h), replaceNames_named_of_some _ hrule]
  rfl

theorem erase_named_of_not_mem {scope : GenericScope} {name : Text} (h : name ∉ scope) :
    (BindingType.named [name]).erase scope = .named [name] := by
  cases scope with
  | nil => rfl
  | cons other rest =>
      have hrule : erasureRule (other :: rest) name = none := if_neg (by simpa using h)
      rw [erase_eq_replaceNames (by simp), replaceNames_named_of_none _ hrule]

theorem erase_named_of_length {scope : GenericScope} {path : List Text} (h : 2 ≤ path.length) :
    (BindingType.named path).erase scope = .named path := by
  match path with
  | [] | [_] => simp at h
  | _ :: _ :: _ => cases scope <;> rfl

theorem thenReplace_erasureRule (a b : GenericScope) :
    thenReplace (erasureRule a) (erasureRule b) = erasureRule (a ++ b) := by
  funext name
  have hdynamic : BindingType.dynamic.replaceNames (erasureRule b) = .dynamic := rfl
  by_cases ha : name ∈ a
  · simp [thenReplace, erasureRule, ha, hdynamic]
  · simp [thenReplace, erasureRule, ha]

theorem erase_erase (a b : GenericScope) (ty : BindingType) :
    (ty.erase a).erase b = ty.erase (a ++ b) := by
  by_cases ha : a = []
  · simp [ha, erase_nil]
  by_cases hb : b = []
  · simp [hb, erase_nil]
  rw [erase_eq_replaceNames ha, erase_eq_replaceNames hb, replaceNames_replaceNames,
    thenReplace_erasureRule, erase_eq_replaceNames (by simp [ha])]

theorem erase_congr {a b : GenericScope} (h : ∀ name, name ∈ a ↔ name ∈ b) (ty : BindingType) :
    ty.erase a = ty.erase b := by
  by_cases ha : a = []
  · have hb : b = [] := by
      apply List.eq_nil_iff_forall_not_mem.mpr
      intro name hname
      simpa [ha] using (h name).mpr hname
    rw [ha, hb]
  · have hb : b ≠ [] := by
      obtain ⟨name, hname⟩ := List.exists_mem_of_ne_nil a ha
      exact List.ne_nil_of_mem ((h name).mp hname)
    rw [erase_eq_replaceNames ha, erase_eq_replaceNames hb]
    congr 1
    funext name
    simp [erasureRule, h name]

theorem erase_comm (a b : GenericScope) (ty : BindingType) :
    (ty.erase a).erase b = (ty.erase b).erase a := by
  rw [erase_erase, erase_erase]
  apply erase_congr
  intro name
  simp [or_comm]

end HostBindings.BindingType

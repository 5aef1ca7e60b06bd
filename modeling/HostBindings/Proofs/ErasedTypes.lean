import HostBindings.Proofs.ErasureLaws
import HostBindings.Proofs.NormalTypes

/-!
What erasure leaves. At no depth of an erased type is there a type parameter, and at no depth an
option that could be simplified; and types of this kind are all that erasure leaves as they are.
-/

namespace HostBindings.BindingType

/-- No option of an option or of the dynamic value, at any depth. -/
def HasNormalOptions (ty : BindingType) : Prop :=
  ∀ inner, .option inner ∈ ty.walk → inner.isOptionable = true

/-- What holds of a type whenever it holds of the types directly inside it holds of all types. -/
theorem induction_parts {P : BindingType → Prop} (h : ∀ ty, (∀ part ∈ ty.parts, P part) → P ty)
    (ty : BindingType) : P ty := by
  apply h
  intro part hpart
  have hsmaller : sizeOf part < sizeOf ty := by
    cases ty with
    | reference inner | option inner | boxedSlice inner =>
        obtain rfl := List.mem_singleton.mp hpart
        simp
    | tuple elements =>
        have := List.sizeOf_lt_of_mem (show part ∈ elements from hpart)
        simp only [tuple.sizeOf_spec]
        omega
    | callable params result =>
        rcases List.mem_append.mp hpart with hparam | hresult
        · have := List.sizeOf_lt_of_mem hparam
          simp only [callable.sizeOf_spec]
          omega
        · obtain rfl := Option.mem_toList.mp hresult
          simp only [callable.sizeOf_spec, Option.some.sizeOf_spec]
          omega
    | _ => cases hpart
  exact induction_parts h part
termination_by sizeOf ty

/-- A node that erasure leaves alone, if it leaves its parts alone. -/
structure IsSettledNode (scope : GenericScope) (node : BindingType) : Prop where
  name : ∀ n ∈ scope, node ≠ .named [n]
  option : ∀ inner, node = .option inner → inner.isOptionable = true

/-- A type of which erasure leaves every node alone. -/
def IsSettled (scope : GenericScope) (ty : BindingType) : Prop :=
  ∀ node ∈ ty.walk, node.IsSettledNode scope

variable {scope : GenericScope} {ty : BindingType}

theorem isSettled_iff :
    ty.IsSettled scope ↔ (∀ name ∈ scope, .named [name] ∉ ty.walk) ∧ ty.HasNormalOptions := by
  constructor
  · intro h
    exact ⟨fun name hname hmem => (h _ hmem).name name hname rfl,
      fun inner hmem => (h _ hmem).option inner rfl⟩
  · rintro ⟨hnames, hoptions⟩ node hnode
    exact ⟨fun name hname heq => hnames name hname (heq ▸ hnode),
      fun inner heq => hoptions inner (heq ▸ hnode)⟩

theorem isSettled_iff_parts :
    ty.IsSettled scope ↔ ty.IsSettledNode scope ∧ ∀ part ∈ ty.parts, part.IsSettled scope :=
  forall_walk_iff

theorem isOptionable_of_ne (hoption : ∀ inner, ty ≠ .option inner) (hdynamic : ty ≠ .dynamic) :
    ty.isOptionable = true := by
  cases ty with
  | option inner => exact absurd rfl (hoption inner)
  | dynamic => exact absurd rfl hdynamic
  | _ => rfl

theorem optional_of_isOptionable (h : ty.isOptionable = true) : optional ty = .option ty := by
  cases ty with
  | option inner => cases h
  | dynamic => cases h
  | _ => rfl

theorem IsSettled.optional (h : ty.IsSettled scope) : (optional ty).IsSettled scope := by
  fun_induction BindingType.optional ty with
  | case1 inner ih => exact ih ((isSettled_iff_parts.mp h).2 inner (List.mem_singleton_self inner))
  | case2 => exact h
  | case3 ty hoption hdynamic =>
      have hnode : (BindingType.option ty).IsSettledNode scope := by
        constructor
        · intro n _ heq
          cases heq
        · intro inner heq
          obtain rfl := option.inj heq
          exact isOptionable_of_ne hoption hdynamic
      exact isSettled_iff_parts.mpr ⟨hnode, List.forall_mem_singleton.mpr h⟩

theorem erase_option (hscope : scope ≠ []) (inner : BindingType) :
    (BindingType.option inner).erase scope = optional (inner.erase scope) := by
  rw [erase_eq_replaceNames hscope, replaceNames_option]

theorem isSettled_erase_named (hscope : scope ≠ []) (path : List Text) :
    ((BindingType.named path).erase scope).IsSettled scope := by
  by_cases hparameter : ∃ name ∈ scope, path = [name]
  · obtain ⟨name, hname, rfl⟩ := hparameter
    rw [erase_named_of_mem hname]
    exact isSettled_iff_parts.mpr ⟨⟨nofun, nofun⟩, List.forall_mem_nil _⟩
  · have hkept : (BindingType.named path).erase scope = .named path := by
      match path with
      | [] => rw [erase_eq_replaceNames hscope]; rfl
      | [name] => exact erase_named_of_not_mem fun hname => hparameter ⟨name, hname, rfl⟩
      | _ :: _ :: _ => exact erase_named_of_length (Nat.le_add_left 2 _)
    rw [hkept]
    refine isSettled_iff_parts.mpr ⟨⟨?_, nofun⟩, List.forall_mem_nil _⟩
    rintro name hname ⟨⟩
    exact hparameter ⟨name, hname, rfl⟩

/-- Erasure leaves no parameter and no option to simplify. -/
theorem isSettled_erase (hscope : scope ≠ []) (ty : BindingType) :
    (ty.erase scope).IsSettled scope := by
  induction ty using induction_parts with
  | h ty ih =>
      cases ty with
      | reference inner =>
          rw [erase_reference]
          refine isSettled_iff_parts.mpr ⟨⟨nofun, nofun⟩, ?_⟩
          exact List.forall_mem_singleton.mpr (ih inner (List.mem_singleton_self inner))
      | option inner =>
          rw [erase_option hscope]
          exact (List.forall_mem_singleton.mp ih).optional
      | boxedSlice inner =>
          rw [erase_boxedSlice]
          refine isSettled_iff_parts.mpr ⟨⟨nofun, nofun⟩, ?_⟩
          exact List.forall_mem_singleton.mpr (ih inner (List.mem_singleton_self inner))
      | tuple elements =>
          rw [erase_tuple]
          exact isSettled_iff_parts.mpr ⟨⟨nofun, nofun⟩, List.forall_mem_map.mpr ih⟩
      | callable params result =>
          obtain ⟨hparams, hresult⟩ := List.forall_mem_append.mp ih
          rw [erase_callable]
          refine isSettled_iff_parts.mpr ⟨⟨nofun, nofun⟩, List.forall_mem_append.mpr ⟨?_, ?_⟩⟩
          · exact List.forall_mem_map.mpr hparams
          · intro part hpart
            obtain ⟨before, hbefore, rfl⟩ := Option.map_eq_some_iff.mp (Option.mem_toList.mp hpart)
            exact hresult before (Option.mem_toList.mpr hbefore)
      | named path => exact isSettled_erase_named hscope path
      | primitive | dynamic | absent | stray =>
          rw [erase_eq_replaceNames hscope]
          exact isSettled_iff_parts.mpr ⟨⟨nofun, nofun⟩, List.forall_mem_nil _⟩

theorem map_eq_self {α : Type} {f : α → α} {as : List α} (h : ∀ a ∈ as, f a = a) :
    as.map f = as := by
  rw [List.map_congr_left h, List.map_id']

/-- Erasure leaves a settled type as it is. -/
theorem erase_of_isSettled (h : ty.IsSettled scope) : ty.erase scope = ty := by
  by_cases hscope : scope = []
  · rw [hscope, erase_nil, id]
  induction ty using induction_parts with
  | h ty ih =>
      obtain ⟨hnode, hparts⟩ := isSettled_iff_parts.mp h
      have hsame : ∀ part ∈ ty.parts, part.erase scope = part := fun part hpart =>
        ih part hpart (hparts part hpart)
      cases ty with
      | reference inner => rw [erase_reference, List.forall_mem_singleton.mp hsame]
      | option inner =>
          rw [erase_option hscope, List.forall_mem_singleton.mp hsame,
            optional_of_isOptionable (hnode.option inner rfl)]
      | boxedSlice inner => rw [erase_boxedSlice, List.forall_mem_singleton.mp hsame]
      | tuple elements =>
          have helements : ∀ part ∈ elements, part.erase scope = part := hsame
          rw [erase_tuple, map_eq_self helements]
      | callable params result =>
          obtain ⟨hparams, hresult⟩ := List.forall_mem_append.mp hsame
          rw [erase_callable, map_eq_self hparams]
          cases result with
          | none => rfl
          | some ty => rw [Option.map_some, hresult ty (List.mem_singleton_self ty)]
      | named path =>
          match path with
          | [] => rw [erase_eq_replaceNames hscope]; rfl
          | [name] => exact erase_named_of_not_mem fun hname => hnode.name name hname rfl
          | _ :: _ :: _ => exact erase_named_of_length (Nat.le_add_left 2 _)
      | primitive | dynamic | absent | stray =>
          rw [erase_eq_replaceNames hscope]
          rfl

/-- The laws of erasure. No parameter of the scope is left at any depth; erasing one scope after
another is erasing both at once, in whatever order and however often; and a type that mentions no
parameter and has its options in normal form is left as it is, while erasure by a scope that is not
empty leaves no other type so. -/
theorem erase_laws (ty : BindingType) (a b : GenericScope) :
    (∀ name ∈ a, .named [name] ∉ (ty.erase a).walk) ∧
      ((ty.erase a).erase b = ty.erase (a ∪ b) ∧ (ty.erase a).erase a = ty.erase a ∧
        (ty.erase a).erase b = (ty.erase b).erase a) ∧
      (ty.erase a = ty ↔
        a = [] ∨ (∀ name ∈ a, .named [name] ∉ ty.walk) ∧ ty.HasNormalOptions) := by
  refine ⟨?_, ⟨?_, ?_, erase_comm a b ty⟩, ?_⟩
  · intro name hname
    exact (isSettled_iff.mp (isSettled_erase (List.ne_nil_of_mem hname) ty)).1 name hname
  · rw [erase_erase]
    exact erase_congr (by simp) ty
  · rw [erase_erase]
    exact erase_congr (by simp) ty
  · constructor
    · intro hsame
      by_cases ha : a = []
      · exact Or.inl ha
      · have hsettled := isSettled_erase ha ty
        rw [hsame] at hsettled
        exact Or.inr (isSettled_iff.mp hsettled)
    · rintro (rfl | hsettled)
      · rfl
      · exact erase_of_isSettled (isSettled_iff.mpr hsettled)

/-- A slot with an option of a parameter and a longer path that ends like it. -/
def pairedSlot : BindingType := .tuple [.option (.named ["T"]), .named ["domMod", "T"]]

/-- The parameter is gone from the slot, which does not mention another name in scope. -/
theorem pairedSlot_erase_laws :
    Text.ofString "T" ∈ [Text.ofString "T"] ∧
      .named [Text.ofString "T"] ∉ (pairedSlot.erase ["T"]).walk ∧
      (∀ name ∈ [Text.ofString "U"], .named [name] ∉ pairedSlot.walk) ∧
      pairedSlot.HasNormalOptions ∧ pairedSlot.erase ["U"] = pairedSlot := by
  have hparameter : Text.ofString "T" ∈ [Text.ofString "T"] := List.mem_singleton_self _
  have hnames : ∀ name ∈ [Text.ofString "U"], .named [name] ∉ pairedSlot.walk := by
    intro name hname
    obtain rfl := List.mem_singleton.mp hname
    simp [pairedSlot, walk, walkAll, Text.ofString_inj]
  have hoptions : pairedSlot.HasNormalOptions := by
    intro inner hmem
    obtain rfl : inner = .named ["T"] := by simpa [pairedSlot, walk, walkAll] using hmem
    rfl
  exact ⟨hparameter, (erase_laws pairedSlot ["T"] []).1 "T" hparameter, hnames, hoptions,
    (erase_laws pairedSlot ["U"] []).2.2.mpr (Or.inr ⟨hnames, hoptions⟩)⟩

end HostBindings.BindingType

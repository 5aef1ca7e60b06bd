import HostBindings.Proofs.PrintedUnits
import HostBindings.Proofs.Receivers

/-!
The normal form of emitted types. Mapping builds types in normal form; erasure and the resolution of
the receiver's type rebuild them and put names or the dynamic value in the place of names, which
keeps the form of everything but one: the reference to a receiver whose owner a type parameter has
taken over. Legalization replaces that one.
-/

namespace HostBindings

open Source Rust Lowering HostBindings.Composition

namespace BindingType

/-- The types directly inside a type. -/
def parts : BindingType → List BindingType
  | .reference inner | .option inner | .boxedSlice inner => [inner]
  | .tuple elements => elements
  | .callable params result => params ++ result.toList
  | _ => []

/-- Whether there is an option of a type that is not the option of something else. -/
def isOptionable : BindingType → Bool
  | .option _ | .dynamic => false
  | _ => true

def isCallable : BindingType → Bool
  | .callable _ _ => true
  | _ => false

/-- Whether a reference may lead to a type. -/
def isReferable : BindingType → Bool
  | .callable _ _ | .named [_] => true
  | _ => false

/-- The normal form of a type with respect to the types directly inside it. -/
structure IsNormalNode (node : BindingType) : Prop where
  option : ∀ inner, node = .option inner → inner.isOptionable = true
  callable : ∀ part ∈ node.parts, part.isCallable = true → node = .reference part
  reference : ∀ inner, node = .reference inner → inner.isReferable = true

theorem callable_of_parts {node : BindingType} (h : ∀ part ∈ node.parts, part.isCallable = false) :
    ∀ part ∈ node.parts, part.isCallable = true → node = .reference part := by
  intro part hpart hcallable
  rw [h part hpart] at hcallable
  cases hcallable

/-- The normal form of a type in a slot, at any depth. -/
structure IsNormal (ty : BindingType) : Prop where
  root : ty.isCallable = false
  nodes : ∀ node ∈ ty.walk, node.IsNormalNode

theorem mem_walk_iff {node ty : BindingType} :
    node ∈ ty.walk ↔ node = ty ∨ ∃ part ∈ ty.parts, node ∈ part.walk := by
  cases ty with
  | reference inner | option inner | boxedSlice inner => simp [walk, parts]
  | tuple elements => simp [walk, parts, mem_walkAll_iff]
  | callable params result =>
      cases result <;> simp [walk, walkResult, parts, mem_walkAll_iff, or_and_right, exists_or]
  | _ => simp [walk, parts]

theorem forall_walk_iff {p : BindingType → Prop} {ty : BindingType} :
    (∀ node ∈ ty.walk, p node) ↔ p ty ∧ ∀ part ∈ ty.parts, ∀ node ∈ part.walk, p node := by
  constructor
  · intro h
    refine ⟨h ty (mem_walk_iff.mpr (Or.inl rfl)), fun part hpart node hnode => ?_⟩
    exact h node (mem_walk_iff.mpr (Or.inr ⟨part, hpart, hnode⟩))
  · rintro ⟨hroot, hparts⟩ node hnode
    rcases mem_walk_iff.mp hnode with rfl | ⟨part, hpart, hinside⟩
    · exact hroot
    · exact hparts part hpart node hinside

/-- The types that a type expression stands for. -/
inductive IsRegular : BindingType → Prop
  | primitive (name : Text) : IsRegular (.primitive name)
  | dynamic : IsRegular .dynamic
  | named (path : List Text) : IsRegular (.named path)
  | option {inner : BindingType} (h : IsRegular inner) (hinner : inner.isOptionable = true) :
      IsRegular (.option inner)
  | boxedSlice {element : BindingType} (h : IsRegular element) : IsRegular (.boxedSlice element)
  | tuple {elements : List BindingType} (h : ∀ ty ∈ elements, IsRegular ty) :
      IsRegular (.tuple elements)
  | callback {params : List BindingType} {result : Option BindingType}
      (hparams : ∀ ty ∈ params, IsRegular ty) (hresult : ∀ ty ∈ result, IsRegular ty) :
      IsRegular (.reference (.callable params result))

theorem IsSubstitute.isRegular {ty : BindingType} (h : IsSubstitute ty) : IsRegular ty := by
  cases h with
  | dynamic => exact .dynamic
  | name => exact .named _

namespace IsRegular

variable {ty : BindingType}

theorem optional (h : IsRegular ty) : IsRegular (optional ty) := by
  fun_induction BindingType.optional ty with
  | case1 inner ih =>
      cases h with
      | option hinner => exact ih hinner
  | case2 => exact h
  | case3 ty hoption hdynamic =>
      refine .option h ?_
      cases ty with
      | option inner => exact absurd rfl (hoption inner)
      | dynamic => exact absurd rfl hdynamic
      | _ => rfl

theorem isCallable_eq_false (h : IsRegular ty) : ty.isCallable = false := by
  cases h <;> rfl

theorem isNormal (h : IsRegular ty) : ty.IsNormal := by
  refine ⟨h.isCallable_eq_false, ?_⟩
  induction h with
  | primitive | dynamic | named => exact forall_walk_iff.mpr ⟨⟨nofun, nofun, nofun⟩, nofun⟩
  | option h hinner ih =>
      refine forall_walk_iff.mpr ⟨⟨?_, callable_of_parts ?_, nofun⟩, ?_⟩
      · rintro _ ⟨⟩
        exact hinner
      · exact List.forall_mem_singleton.mpr h.isCallable_eq_false
      · exact List.forall_mem_singleton.mpr ih
  | boxedSlice h ih =>
      refine forall_walk_iff.mpr ⟨⟨nofun, callable_of_parts ?_, nofun⟩, ?_⟩
      · exact List.forall_mem_singleton.mpr h.isCallable_eq_false
      · exact List.forall_mem_singleton.mpr ih
  | tuple h ih =>
      refine forall_walk_iff.mpr ⟨⟨nofun, callable_of_parts ?_, nofun⟩, ih⟩
      exact fun part hpart => (h part hpart).isCallable_eq_false
  | @callback params result hparams hresult ihparams ihresult =>
      have hcallable : ∀ node ∈ (BindingType.callable params result).walk, node.IsNormalNode := by
        refine forall_walk_iff.mpr ⟨⟨nofun, callable_of_parts ?_, nofun⟩, ?_⟩
        · refine List.forall_mem_append.mpr ⟨?_, fun part hpart => ?_⟩
          · exact fun part hpart => (hparams part hpart).isCallable_eq_false
          · exact (hresult part (Option.mem_toList.mp hpart)).isCallable_eq_false
        · refine List.forall_mem_append.mpr ⟨ihparams, fun part hpart => ?_⟩
          exact ihresult part (Option.mem_toList.mp hpart)
      refine forall_walk_iff.mpr ⟨⟨nofun, ?_, ?_⟩, List.forall_mem_singleton.mpr hcallable⟩
      · intro part hpart _
        rw [List.mem_singleton.mp hpart]
      · rintro _ ⟨⟩
        rfl

theorem replaceNames (h : IsRegular ty) {σ : Text → Option BindingType}
    (hσ : ∀ name out, σ name = some out → out.IsSubstitute) : IsRegular (ty.replaceNames σ) := by
  induction h with
  | primitive name => exact .primitive name
  | dynamic => exact .dynamic
  | named path =>
      rcases replaceNames_named hσ path with hkept | hreplaced
      · rw [hkept]
        exact .named path
      · exact hreplaced.isRegular
  | option _ _ ih =>
      rw [replaceNames_option]
      exact ih.optional
  | boxedSlice _ ih =>
      rw [replaceNames_boxedSlice]
      exact .boxedSlice ih
  | tuple _ ih =>
      rw [replaceNames_tuple]
      exact .tuple (List.forall_mem_map.mpr ih)
  | callback _ _ ihparams ihresult =>
      rw [replaceNames_reference, replaceNames_callable]
      refine .callback (List.forall_mem_map.mpr ihparams) ?_
      intro out hout
      obtain ⟨ty, hty, rfl⟩ := Option.map_eq_some_iff.mp hout
      exact ihresult ty hty

end IsRegular

/-- The types in the slots of a binding before legalization. A receiver is a reference to its owner,
or to the dynamic value where a type parameter has the owner's name. -/
inductive IsSlot : BindingType → Prop
  | regular {ty : BindingType} (h : IsRegular ty) : IsSlot ty
  | receiver (owner : Text) : IsSlot (.reference (.named [owner]))
  | captured : IsSlot (.reference .dynamic)

theorem IsSlot.replaceNames {ty : BindingType} (h : IsSlot ty) {σ : Text → Option BindingType}
    (hσ : ∀ name out, σ name = some out → out.IsSubstitute) : IsSlot (ty.replaceNames σ) := by
  cases h with
  | regular h => exact .regular (h.replaceNames hσ)
  | captured => exact .captured
  | receiver owner =>
      rw [replaceNames_reference]
      rcases replaceNames_named hσ [owner] with hkept | hreplaced
      · rw [hkept]
        exact .receiver owner
      · generalize (BindingType.named [owner]).replaceNames σ = out at hreplaced
        cases hreplaced with
        | dynamic => exact .captured
        | name => exact .receiver _

/-- Lowering and the resolution of collisions leave types in normal form, but for a receiver that a
type parameter has captured. -/
theorem stable_isRegular : Stable IsRegular IsSlot where
  primitive _ := .primitive _
  dynamic := .dynamic
  named _ := .named _
  boxedSlice := .boxedSlice
  tuple := .tuple
  callback := .callback
  optional := .optional
  replaceNames := .replaceNames
  slot := .regular
  receiver _ := .receiver _
  replaceSlot := .replaceNames

theorem isNormal_receiver (owner : Text) : IsNormal (.reference (.named [owner])) := by
  refine ⟨rfl, forall_walk_iff.mpr ⟨⟨nofun, callable_of_parts ?_, ?_⟩, ?_⟩⟩
  · exact List.forall_mem_singleton.mpr rfl
  · rintro _ ⟨⟩
    rfl
  · exact List.forall_mem_singleton.mpr (IsRegular.named [owner]).isNormal.nodes

theorem IsSlot.isNormal_legalizeType {ty : BindingType} (h : IsSlot ty)
    (custom : List (List Text)) (isResult : Bool) :
    (Boundary.legalizeType custom isResult ty).IsNormal := by
  cases h with
  | regular h =>
      rcases Boundary.legalizeType_eq_or custom isResult ty with hkept | hreplaced
      · rw [hkept]
        exact h.isNormal
      · rw [hreplaced]
        exact IsRegular.dynamic.isNormal
  | receiver owner =>
      rcases Boundary.legalizeType_eq_or custom isResult (.reference (.named [owner])) with
        hkept | hreplaced
      · rw [hkept]
        exact isNormal_receiver owner
      · rw [hreplaced]
        exact IsRegular.dynamic.isNormal
  | captured =>
      -- no reference to the dynamic value crosses the boundary
      have hdynamic : Boundary.legalizeType custom isResult (.reference .dynamic) = .dynamic := by
        cases isResult <;> rfl
      rw [hdynamic]
      exact IsRegular.dynamic.isNormal

theorem named_not_mem_walk {path : List Text} {ty : BindingType} (hroot : .named path ≠ ty)
    (hparts : ∀ part ∈ ty.parts, .named path ∉ part.walk) : .named path ∉ ty.walk := by
  rw [mem_walk_iff]
  rintro (hself | ⟨part, hpart, hinside⟩)
  · exact hroot hself
  · exact hparts part hpart hinside

theorem named_mem_walk_of_optional {path : List Text} {ty : BindingType}
    (h : .named path ∈ (optional ty).walk) : .named path ∈ ty.walk := by
  fun_induction optional ty with
  | case1 inner ih => exact List.mem_cons_of_mem _ (ih h)
  | case2 => exact h
  | case3 =>
      rcases List.mem_cons.mp h with heq | hmem
      · cases heq
      · exact hmem

section

variable {name owner : Text} (hne : owner ≠ name)

include hne

theorem named_not_mem_walk_substitute (path : List Text) :
    .named [name] ∉ ((BindingType.named path).substitute name (.named [owner])).walk := by
  rw [substitute_eq_replaceNames]
  rcases path with _ | ⟨other, _ | ⟨second, rest⟩⟩
  · exact named_not_mem_walk (by rintro ⟨⟩) (List.forall_mem_nil _)
  · by_cases hother : other = name
    · rw [replaceNames_named_of_some _ (if_pos hother)]
      refine named_not_mem_walk ?_ (List.forall_mem_nil _)
      rintro ⟨⟩
      exact hne rfl
    · rw [replaceNames_named_of_none _ (if_neg hother)]
      refine named_not_mem_walk ?_ (List.forall_mem_nil _)
      rintro ⟨⟩
      exact hother rfl
  · exact named_not_mem_walk (by rintro ⟨⟩) (List.forall_mem_nil _)

theorem IsRegular.not_mem_walk_substitute {ty : BindingType} (h : IsRegular ty) :
    .named [name] ∉ (ty.substitute name (.named [owner])).walk := by
  induction h with
  | primitive | dynamic => exact named_not_mem_walk nofun nofun
  | named path => exact named_not_mem_walk_substitute hne path
  | option _ _ ih =>
      rw [substitute_eq_replaceNames, replaceNames_option]
      exact fun hmem => ih (named_mem_walk_of_optional hmem)
  | boxedSlice _ ih =>
      rw [substitute_eq_replaceNames, replaceNames_boxedSlice]
      exact named_not_mem_walk nofun (List.forall_mem_singleton.mpr ih)
  | tuple _ ih =>
      rw [substitute_eq_replaceNames, replaceNames_tuple]
      exact named_not_mem_walk nofun (List.forall_mem_map.mpr ih)
  | callback _ _ ihparams ihresult =>
      rw [substitute_eq_replaceNames, replaceNames_reference, replaceNames_callable]
      refine named_not_mem_walk nofun (List.forall_mem_singleton.mpr ?_)
      refine named_not_mem_walk nofun (List.forall_mem_append.mpr ⟨?_, fun part hpart => ?_⟩)
      · exact List.forall_mem_map.mpr ihparams
      · obtain ⟨ty, hty, rfl⟩ := Option.map_eq_some_iff.mp (Option.mem_toList.mp hpart)
        exact ihresult ty hty

theorem IsSlot.not_mem_walk_substitute {ty : BindingType} (h : IsSlot ty) :
    .named [name] ∉ (ty.substitute name (.named [owner])).walk := by
  cases h with
  | regular h => exact h.not_mem_walk_substitute hne
  | captured =>
      refine named_not_mem_walk nofun (List.forall_mem_singleton.mpr ?_)
      exact named_not_mem_walk nofun nofun
  | receiver receiver =>
      rw [substitute_eq_replaceNames, replaceNames_reference]
      refine named_not_mem_walk nofun (List.forall_mem_singleton.mpr ?_)
      exact named_not_mem_walk_substitute hne [receiver]

end

end BindingType

/-- The normal form of the types of a binding; in a member the receiver's type is gone. -/
structure Binding.IsNormal (b : Binding) : Prop where
  types : ∀ ty ∈ b.types, ty.IsNormal
  no_self : ∀ owner, b.attributes.owner = some owner → ∀ ty ∈ b.types, BindingType.self ∉ ty.walk

/-- A binding with an owner is a function, and no owner has the name of the receiver's type. -/
def Binding.IsOwnedProperly (b : Binding) : Prop :=
  ∀ owner, b.attributes.owner = some owner →
    b.shape.kind = .function ∧ owner ≠ Text.ofString "Self"

theorem composable_isOwnedProperly (options : Options) :
    Composable options fun bindings => ∀ b ∈ bindings, b.IsOwnedProperly where
  lowered h b hb owner howner := by
    obtain ⟨o, _, hmade⟩ := Collision.exists_of_mem_right (lower_made h) hb
    have hstands := hmade.standsFor
    refine ⟨?_, hstands.owner_ne_self howner⟩
    rw [hstands.owner, Origin.owner?, Option.bind_eq_some_iff] at howner
    obtain ⟨member, hmember, _⟩ := howner
    rw [hstands.kind, Origin.kind, hmember]
  append hxs hys := List.forall_mem_append.mpr ⟨hxs, hys⟩
  enclose name _ h := List.forall_mem_map.mpr h

theorem Rust.Collision.Becomes.no_self {block : List Binding} {before after : Binding}
    (h : Collision.Becomes block before after) (hslots : ∀ ty ∈ before.types, ty.IsSlot)
    (howned : before.IsOwnedProperly) {owner : Text}
    (howner : before.attributes.owner = some owner) :
    ∀ ty ∈ after.types, BindingType.self ∉ ty.walk := by
  obtain ⟨hkind, hself⟩ := howned owner howner
  intro ty hty
  rw [Binding.types, h.shape_eq hkind howner] at hty
  obtain ⟨_, original, horiginal, rfl⟩ := BindingShape.exists_of_mem_types_mapTypes hty
  exact (hslots original horiginal).not_mem_walk_substitute hself

/-- Every type of a compiled unit is in normal form at any depth: no option holds an option or the
dynamic value, callables stand under references, and references lead to callables or to types with
names of one segment. In members the receiver's type is gone. -/
theorem compileModule_normal (options : Options) (m : Module) (u : SourceUnit)
    (h : (compileModule options m).result = .ok u) : ∀ b ∈ u.bindings, b.IsNormal := by
  obtain ⟨composed, hcomposed, rfl⟩ := (compileModule_eq_ok_iff options m u).mp h
  intro b hb
  obtain ⟨block, hblock, hmem⟩ := List.mem_flatMap.mp hb
  rw [blocks_finish] at hblock
  obtain ⟨before, hbefore, rfl⟩ := List.mem_map.mp hblock
  have hlawful : ∀ b ∈ before.2, b.Lawful BindingType.IsSlot :=
    (composable_lawful BindingType.stable_isRegular options).of_mem_blocks hcomposed hbefore
  have howned : ∀ b ∈ before.2, b.IsOwnedProperly :=
    (composable_isOwnedProperly options).of_mem_blocks hcomposed hbefore
  constructor
  · exact (lawful_of_mem_finishBlock BindingType.stable_isRegular
      (fun isResult _ hty => hty.isNormal_legalizeType _ isResult) hlawful b hmem).types
  · intro owner howner ty hty
    obtain ⟨settled, hsettled, rfl⟩ := List.mem_map.mp hmem
    obtain ⟨original, horiginal, hbecomes⟩ :=
      Collision.exists_of_mem_right (Collision.invariant_foldl_step before.2).becomes hsettled
    have hblockMem := (Collision.survivors_sublist [] before.2).subset horiginal
    obtain ⟨hostName, bases, hattributes⟩ := hbecomes.attributes_eq
    rw [Binding.attributes_mapTypes, hattributes] at howner
    have hgone := hbecomes.no_self (hlawful original hblockMem).types (howned original hblockMem)
      howner
    -- legalization keeps a type or puts the dynamic value, which mentions nothing
    obtain ⟨isResult, type, htype, rfl⟩ := BindingShape.exists_of_mem_types_mapTypes hty
    rcases Boundary.legalizeType_eq_or composed.resolveCollisions.customPaths isResult type with
      hkept | hreplaced
    · rw [hkept]
      exact hgone type htype
    · rw [hreplaced]
      exact BindingType.named_not_mem_walk nofun nofun

/-- A class whose method takes a string that is missing in two ways, and a callback that receives
the class or nothing and gives any value or nothing, and gives the class back. -/
def cellModule : Module :=
  let key (name : Text) : PropertyKey := ⟨.word, name, none⟩
  let param (name : Text) (type : TypeExpr) : Param :=
    ⟨.name name none, some type, false, false, none⟩
  let orNull (type : TypeExpr) : TypeExpr := .union [type, .keyword .null none] none
  let callback : TypeExpr :=
    .function [param "cell" (orNull (.this none))] (some (orNull (.keyword .any none))) [] none
  { body := [
      .declaration (.classDeclaration ⟨some "Cell", [
        .method (key "swap") .method
          ⟨[param "value" (.optional (orNull (.keyword .string none)) none), param "then" callback],
            some (.this none), []⟩
          false none false false none],
        [], none, [], false, none⟩)] }

theorem cellModule_normal :
    ∃ u, (compileModule .standard cellModule).result = .ok u ∧
      u.bindings.map Binding.types =
        [[], [.reference (.named ["Cell"]), .option .string,
          .reference (.callable [.option (.named ["Cell"])] (some .dynamic)), .named ["Cell"]]] ∧
      ∀ b ∈ u.bindings, b.IsNormal :=
  ⟨_, rfl, rfl, compileModule_normal .standard cellModule _ rfl⟩

end HostBindings

import HostBindings.Compile
import HostBindings.Proofs.OrderedSets
import HostBindings.Proofs.Traversal

/-!
Closure of the boundary. Every type slot of a compiled unit holds a type of the closed set that the
unit itself determines, so a second legalization finds nothing to replace. The set is computed
before the slots are rewritten and before host types are imported; neither changes it.
-/

namespace HostBindings.Rust

namespace Boundary

/-- Whether a type may stand in a slot. A parameter or a static holds a type of the closed set or a
reference to a callable; a result holds a type of the closed set and never a callable. -/
def Legal (custom : List (List Text)) : Bool → BindingType → Prop
  | false, ty => isSafe custom ty = true ∨ ty.isCallableReference = true
  | true, ty => isSafe custom ty = true ∧ ty.isCallableReference = false

theorem hasCallableCore_of_isBase {custom : List (List Text)} {ty : BindingType}
    (h : isBase custom ty = true) : hasCallableCore ty = false := by
  cases ty <;> simp_all [isBase, hasCallableCore, BindingType.isCallableReference]

theorem hasStray_of_isBase {custom : List (List Text)} {ty : BindingType}
    (h : isBase custom ty = true) : ty.hasStray = false := by
  cases ty <;> simp_all [isBase, BindingType.hasStray, BindingType.walk]

theorem isBase_of_isSliceable {custom : List (List Text)} {ty : BindingType}
    (h : isSliceable custom ty = true) : isBase custom ty = true := by
  cases ty <;> simp_all [isBase, isSliceable]

/-- A type of the closed set is a base type or stands directly around one, so its core is never a
callable and no stray node hides in it. -/
theorem isSafe_cases {custom : List (List Text)} {ty : BindingType}
    (h : isSafe custom ty = true) :
    ty = .dynamic ∨ isBase custom ty = true ∨
      ∃ inner, isBase custom inner = true ∧
        (ty = .reference inner ∨ ty = .option inner ∨ ty = .boxedSlice inner ∨
          ty = .option (.boxedSlice inner)) := by
  fun_cases isSafe custom ty with
  | case1 => exact Or.inl rfl
  | case2 inner =>
      rw [isSafe] at h
      exact Or.inr (Or.inr ⟨inner, h, by simp⟩)
  | case3 inner =>
      rw [isSafe] at h
      exact Or.inr (Or.inr ⟨inner, isBase_of_isSliceable h, by simp⟩)
  | case4 inner hinner =>
      rw [isSafe] at h
      · exact Or.inr (Or.inr ⟨inner, h, by simp⟩)
      · exact hinner
  | case5 inner =>
      rw [isSafe] at h
      exact Or.inr (Or.inr ⟨inner, isBase_of_isSliceable h, by simp⟩)
  | case6 hdynamic hreference hslice hoption hboxed =>
      rw [isSafe] at h
      · exact Or.inr (Or.inl h)
      all_goals assumption

theorem hasCallableCore_of_isSafe {custom : List (List Text)} {ty : BindingType}
    (h : isSafe custom ty = true) : hasCallableCore ty = false := by
  rcases isSafe_cases h with rfl | hbase | ⟨inner, hbase, rfl | rfl | rfl | rfl⟩
  · rfl
  · exact hasCallableCore_of_isBase hbase
  · cases inner <;> simp_all [isBase, hasCallableCore, BindingType.isCallableReference]
  all_goals simpa [hasCallableCore] using hasCallableCore_of_isBase hbase

theorem hasStray_of_isSafe {custom : List (List Text)} {ty : BindingType}
    (h : isSafe custom ty = true) : ty.hasStray = false := by
  rcases isSafe_cases h with rfl | hbase | ⟨inner, hbase, rfl | rfl | rfl | rfl⟩
  · rfl
  · exact hasStray_of_isBase hbase
  all_goals
    have hinner := hasStray_of_isBase hbase
    simpa [BindingType.hasStray, BindingType.walk] using hinner

theorem isCallableReference_of_isSafe {custom : List (List Text)} {ty : BindingType}
    (h : isSafe custom ty = true) : ty.isCallableReference = false := by
  have hcore := hasCallableCore_of_isSafe h
  cases ty with
  | reference inner => simpa [hasCallableCore] using hcore
  | _ => rfl

/-- Legalization puts a legal type into every slot. -/
theorem legal_legalizeType (custom : List (List Text)) (isResult : Bool) (ty : BindingType) :
    Legal custom isResult (legalizeType custom isResult ty) := by
  cases isResult with
  | false =>
      simp only [legalizeType, Bool.false_and, Bool.false_eq_true, if_false]
      split
      · rename_i hcallable
        exact Or.inr hcallable
      · split
        · rename_i hsafe
          exact Or.inl hsafe
        · exact Or.inl rfl
  | true =>
      simp only [legalizeType, Bool.true_and]
      split
      · exact ⟨rfl, rfl⟩
      · rename_i hcore
        split
        · rename_i hcallable
          -- a callable reference is its own core, so the first branch took it
          cases ty <;> simp_all [hasCallableCore, BindingType.isCallableReference]
        · split
          · rename_i hsafe
            exact ⟨hsafe, isCallableReference_of_isSafe hsafe⟩
          · exact ⟨rfl, rfl⟩

theorem legalizeType_eq_or (custom : List (List Text)) (isResult : Bool) (ty : BindingType) :
    legalizeType custom isResult ty = ty ∨ legalizeType custom isResult ty = .dynamic := by
  rw [legalizeType]
  split
  · exact Or.inr rfl
  · split
    · exact Or.inl rfl
    · split
      · exact Or.inl rfl
      · exact Or.inr rfl

theorem legalizeType_of_legal {custom : List (List Text)} {isResult : Bool} {ty : BindingType}
    (h : Legal custom isResult ty) : legalizeType custom isResult ty = ty := by
  cases isResult with
  | false =>
      rcases h with hsafe | hcallable
      · simp [legalizeType, hsafe]
      · simp [legalizeType, hcallable]
  | true =>
      have hcore := hasCallableCore_of_isSafe h.1
      simp [legalizeType, hcore, h.1]

theorem legalizeSlot_of_legal {custom : List (List Text)} {isResult : Bool} {ty : BindingType}
    (h : Legal custom isResult ty) : legalizeSlot custom isResult ty = .ok ty := by
  have hlookup : (needsLookup isResult ty && ty.hasStray) = false := by
    cases isResult with
    | false =>
        rcases h with hsafe | hcallable
        · simp [hasStray_of_isSafe hsafe]
        · simp [needsLookup, hcallable]
    | true => simp [hasStray_of_isSafe h.1]
  simp [legalizeSlot, hlookup, legalizeType_of_legal h]

theorem run_attempt_of_ok {α : Type} {f : α → Except Fault α} {a : α} (h : f a = .ok a) :
    (attempt f a).run none = pure (a, none) := by
  simp [attempt, h]

theorem mapM_legalizeSlot_params {custom : List (List Text)} {params : List Parameter}
    (h : ∀ p ∈ params, Legal custom false p.type) :
    (params.mapM fun p => do
      return { p with type := ← legalizeSlot custom false p.type } : Except Fault _) =
        .ok params := by
  induction params with
  | nil => rfl
  | cons p rest ih =>
      have hhead := legalizeSlot_of_legal (h p (by simp))
      have htail := ih fun q hq => h q (by simp [hq])
      rw [List.mapM_cons, htail, hhead]
      rfl

theorem mapM_legalizeSlot_result {custom : List (List Text)} {result : Option BindingType}
    (h : ∀ ty ∈ result, Legal custom true ty) :
    result.mapM (legalizeSlot custom true) = .ok result := by
  cases result with
  | none => rfl
  | some ty =>
      rw [Option.mapM_some, legalizeSlot_of_legal (h ty rfl)]
      rfl

theorem run_legalizeShape_of_legal {custom : List (List Text)} {shape : BindingShape}
    (h : ∀ slot ∈ shape.slots, Legal custom slot.1 slot.2) :
    (legalizeShape custom shape).run none = pure (shape, none) := by
  cases shape with
  | hostType => rfl
  | function params result =>
      have hparams : ∀ p ∈ params, Legal custom false p.type := fun p hp =>
        h (false, p.type) (by simp [BindingShape.slots, List.mem_map_of_mem hp])
      have hresult : ∀ ty ∈ result, Legal custom true ty := fun ty hty =>
        h (true, ty) (by simp [BindingShape.slots, Option.mem_def.mp hty])
      simp only [legalizeShape, StateT.run_bind]
      rw [run_attempt_of_ok (mapM_legalizeSlot_params hparams), pure_bind,
        run_attempt_of_ok (mapM_legalizeSlot_result hresult), pure_bind]
      rfl
  | static type =>
      have htype := legalizeSlot_of_legal (h (false, type) (by simp [BindingShape.slots]))
      simp [legalizeShape, run_attempt_of_ok htype]

theorem run_legalizeBindings_of_legal {custom : List (List Text)} {bindings : List Binding}
    (h : ∀ b ∈ bindings, ∀ slot ∈ b.shape.slots, Legal custom slot.1 slot.2) :
    (bindings.mapM (legalizeBinding custom)).run none = pure (bindings, none) := by
  induction bindings with
  | nil => rfl
  | cons b rest ih =>
      have hshape := run_legalizeShape_of_legal (h b (by simp))
      have hrest := ih fun c hc => h c (by simp [hc])
      simp [legalizeBinding, hshape, hrest]

mutual

theorem run_legalizeItem_of_legal {custom : List (List Text)} (path : List Text) (item : Item)
    (h : ∀ block ∈ item.blocks path, ∀ b ∈ block.2, ∀ slot ∈ b.shape.slots,
      Legal custom slot.1 slot.2) :
    (legalizeItem custom item).run none = pure (item, none) := by
  cases item with
  | use u => rfl
  | block bindings =>
      have hbindings := run_legalizeBindings_of_legal (h (path, bindings) (by simp [Item.blocks]))
      simp [legalizeItem, hbindings]
  | scope name items =>
      have hitems := run_legalizeItems_of_legal (path ++ [name]) items
        (by simpa [Item.blocks] using h)
      simp [legalizeItem, hitems]
  | stray written => rfl

theorem run_legalizeItems_of_legal {custom : List (List Text)} (path : List Text)
    (items : List Item)
    (h : ∀ block ∈ Item.blocksOf path items, ∀ b ∈ block.2, ∀ slot ∈ b.shape.slots,
      Legal custom slot.1 slot.2) :
    (legalizeItems custom items).run none = pure (items, none) := by
  cases items with
  | nil => rfl
  | cons item rest =>
      have hitem := run_legalizeItem_of_legal path item fun block hblock =>
        h block (by simp [Item.blocksOf, hblock])
      have hrest := run_legalizeItems_of_legal path rest fun block hblock =>
        h block (by simp [Item.blocksOf, hblock])
      simp [legalizeItems, hitem, hrest]

end

end Boundary

namespace SourceUnit

/-- Every type slot of every binding is legal, by the types that the unit itself provides. -/
def BoundaryClosed (u : SourceUnit) : Prop :=
  ∀ block ∈ u.blocks, ∀ b ∈ block.2, ∀ slot ∈ b.shape.slots,
    Boundary.Legal u.customPaths slot.1 slot.2

theorem customPaths_eq (u : SourceUnit) :
    u.customPaths =
      (u.blocks.flatMap fun block =>
        (Binding.hostTypeNames block.2).flatMap fun name => [[name], block.1 ++ [name]]) ++
      (u.allUses.filter (·.isPublic)).filterMap fun use =>
        use.boundName.map fun name => [name] := by
  simp [customPaths, Binding.hostTypeNames, List.flatMap_map]

theorem customPaths_mapBlocks (f : List Binding → List Binding) (u : SourceUnit)
    (h : ∀ bindings, Binding.hostTypeNames (f bindings) = Binding.hostTypeNames bindings) :
    (u.mapBlocks f).customPaths = u.customPaths := by
  simp only [customPaths_eq, blocks_mapBlocks, allUses_mapBlocks, List.flatMap_map, h]

theorem customPaths_legalizeWith (custom : List (List Text)) (u : SourceUnit) :
    (u.legalizeWith custom).customPaths = u.customPaths :=
  customPaths_mapBlocks _ u (Binding.hostTypeNames_map_mapTypes (Boundary.legalizeType custom))

theorem blocks_addHostUses (options : Options) (u : SourceUnit) :
    (u.addHostUses options).blocks = u.blocks := by
  simp [addHostUses, blocks, Item.blocksOf_append, Item.blocksOf_map_use]

theorem mem_hostUses_iff {options : Options} {u : SourceUnit} {use : Use} :
    use ∈ u.hostUses options ↔ ∃ crate name, use = hostUse (options.crateName crate) name ∧
      name ∈ u.referencedNames ∧ name ∉ u.declaredNames ∧
      Catalog.crateOf? name = some crate := by
  rw [hostUses, hostUsesBeyond]
  constructor
  · intro h
    obtain ⟨key, hkey, huse⟩ := List.mem_filterMap.mp h
    obtain ⟨⟨crate, name⟩, hpair, rfl⟩ := List.mem_map.mp (Ordered.mem_ofList.mp hkey)
    obtain ⟨own, hneeded, hown⟩ := List.mem_filterMap.mp hpair
    obtain ⟨host, hhost, heq⟩ := Option.map_eq_some_iff.mp hown
    obtain ⟨rfl, rfl⟩ := Prod.mk.inj heq
    obtain ⟨hreferenced, hprovided⟩ := List.mem_filter.mp hneeded
    exact ⟨host, own, (Option.some.inj huse).symm, hreferenced, by simpa using hprovided, hhost⟩
  · rintro ⟨crate, name, rfl, hreferenced, hprovided, hcrate⟩
    refine List.mem_filterMap.mpr ⟨[options.crateName crate, name], ?_, rfl⟩
    rw [Ordered.mem_ofList]
    refine List.mem_map.mpr ⟨(options.crateName crate, name), ?_, rfl⟩
    refine List.mem_filterMap.mpr ⟨name, List.mem_filter.mpr ⟨hreferenced, ?_⟩, ?_⟩
    · simpa using hprovided
    · rw [hcrate]
      rfl

theorem exists_of_mem_hostUses {options : Options} {u : SourceUnit} {use : Use}
    (h : use ∈ u.hostUses options) : ∃ crate name, use = hostUse crate name := by
  obtain ⟨crate, name, huse, _⟩ := mem_hostUses_iff.mp h
  exact ⟨_, _, huse⟩

theorem isPublic_of_mem_hostUses {options : Options} {u : SourceUnit} {use : Use}
    (h : use ∈ u.hostUses options) : use.isPublic = false := by
  obtain ⟨crate, name, rfl⟩ := exists_of_mem_hostUses h
  rfl

theorem customPaths_addHostUses (options : Options) (u : SourceUnit) :
    (u.addHostUses options).customPaths = u.customPaths := by
  have huses : (u.addHostUses options).allUses = u.hostUses options ++ u.allUses := by
    simp [addHostUses, allUses, Item.usesOf_append, Item.usesOf_map_use]
  have hprivate : (u.hostUses options).filter (·.isPublic) = [] := by
    rw [List.filter_eq_nil_iff]
    intro use huse
    simp [isPublic_of_mem_hostUses huse]
  simp only [customPaths_eq, blocks_addHostUses, huses, List.filter_append, hprivate,
    List.nil_append]

theorem boundaryClosed_legalize (u : SourceUnit) : u.legalize.BoundaryClosed := by
  intro block hblock b hb slot hslot
  rw [legalize, customPaths_legalizeWith]
  simp only [legalize, legalizeWith, blocks_mapBlocks, List.mem_map] at hblock
  obtain ⟨before, _, rfl⟩ := hblock
  obtain ⟨original, _, rfl⟩ := List.mem_map.mp hb
  rw [Binding.shape_mapTypes, BindingShape.slots_mapTypes] at hslot
  obtain ⟨slotBefore, _, rfl⟩ := List.mem_map.mp hslot
  exact Boundary.legal_legalizeType u.customPaths slotBefore.1 slotBefore.2

theorem BoundaryClosed.addHostUses {u : SourceUnit} (h : u.BoundaryClosed) (options : Options) :
    (u.addHostUses options).BoundaryClosed := by
  intro block hblock
  rw [customPaths_addHostUses]
  rw [blocks_addHostUses] at hblock
  exact h block hblock

theorem BoundaryClosed.legalize_eq_self {u : SourceUnit} (h : u.BoundaryClosed) :
    u.legalize = u := by
  apply mapBlocks_eq_self
  intro block hblock
  calc
    block.2.map (Binding.mapTypes (Boundary.legalizeType u.customPaths)) = block.2.map id := by
      apply List.map_congr_left
      intro b hb
      apply Binding.mapTypes_eq_self
      intro slot hslot
      exact Boundary.legalizeType_of_legal (h block hblock b hb slot hslot)
    _ = block.2 := List.map_id block.2

theorem BoundaryClosed.legalizeCautiously_eq_self {u : SourceUnit} (h : u.BoundaryClosed) :
    u.legalizeCautiously = (u, none) := by
  have hitems := Boundary.run_legalizeItems_of_legal [] u.items h
  simp only [legalizeCautiously, hitems]
  rfl

end SourceUnit

end HostBindings.Rust

namespace HostBindings

open Rust

theorem boundaryClosed_finish (options : Options) (u : SourceUnit) :
    (finish options u).BoundaryClosed := by
  have hclosed := u.resolveCollisions.boundaryClosed_legalize
  rw [finish]
  split
  · exact hclosed.addHostUses options
  · exact hclosed

/-- A compiled unit is finished: it comes from a composed one by the last passes. -/
theorem compileModule_eq_ok_iff (options : Options) (m : Source.Module) (u : SourceUnit) :
    (compileModule options m).result = .ok u ↔
      ∃ composed, (Composition.compose options m).result = .ok composed ∧
        u = finish options composed := by
  rw [compileModule, Outcome.result_bind_eq_ok_iff]
  constructor
  · rintro ⟨composed, hcomposed, hfinish⟩
    rw [Outcome.result_pure] at hfinish
    exact ⟨composed, hcomposed, (Except.ok.inj hfinish).symm⟩
  · rintro ⟨composed, hcomposed, rfl⟩
    exact ⟨composed, hcomposed, Outcome.result_pure _⟩

/-- Only types of the closed set of the compiled unit itself stand in its slots, callable references
as parameters and statics apart, and legalizing the unit once more changes nothing. -/
theorem compileModule_boundaryClosed (options : Options) (m : Source.Module) (u : SourceUnit)
    (h : (compileModule options m).result = .ok u) :
    u.BoundaryClosed ∧ u.legalize = u ∧ u.legalizeCautiously = (u, none) := by
  obtain ⟨composed, _, rfl⟩ := (compileModule_eq_ok_iff options m u).mp h
  have hclosed := boundaryClosed_finish options composed
  exact ⟨hclosed, hclosed.legalize_eq_self, hclosed.legalizeCautiously_eq_self⟩

/-- A function next to a namespace: one parameter has a type of the namespace, one is a callable,
one an optional tuple, and the result is a callable. -/
def watchModule : Source.Module :=
  let node : Source.TypeExpr := .reference ["dom"] "Node" [] none
  let notify : Source.TypeExpr := .function [] none [] none
  let range : Source.TypeExpr := .tuple [.keyword .number none] none
  { body := [
      .declaration (.space ⟨"dom", .block [
        .declaration (.typeAlias ⟨"Node", .keyword .any none, [], none⟩)]
        none, false, false, none⟩),
      .declaration (.function {
        name := some "watch"
        signature := {
          params := [
            ⟨.name "node" none, some node, false, false, none⟩,
            ⟨.name "notify" none, some notify, false, false, none⟩,
            ⟨.name "range" none, some range, true, false, none⟩]
          result := some notify
          typeParams := [] }
        loc := none })] }

theorem watchModule_boundaryClosed :
    ∃ u, (compileModule .standard watchModule).result = .ok u ∧
      u.bindings.map Binding.types =
        [[], [.named ["domMod", "Node"], .reference (.callable [] none), .dynamic, .dynamic]] ∧
      u.BoundaryClosed ∧ u.legalize = u ∧ u.legalizeCautiously = (u, none) :=
  ⟨_, rfl, rfl, compileModule_boundaryClosed .standard watchModule _ rfl⟩

end HostBindings

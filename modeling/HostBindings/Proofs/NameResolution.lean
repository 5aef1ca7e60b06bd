import HostBindings.Proofs.ComposedUnits
import HostBindings.Proofs.ErasureSubstitution
import HostBindings.Proofs.OrderedSets

/-!
Where the names of types lead. A type that is printed by a single name is declared in its extern
block or in one around it, or a use at the root binds it. The unit provides a name as a whole,
wherever it declares it, so a name that is declared only in a scope beside the block leads nowhere.
-/

namespace HostBindings

/-- The single name of the type inside options, slices and references. -/
def BindingType.coreName? : BindingType → Option Text
  | .option inner | .boxedSlice inner | .reference inner => inner.coreName?
  | .named [name] => some name
  | _ => none

theorem BindingType.named_mem_walk {ty : BindingType} {name : Text}
    (h : ty.coreName? = some name) : .named [name] ∈ ty.walk := by
  fun_induction coreName? ty with
  | case1 inner ih => exact List.mem_cons_of_mem _ (ih h)
  | case2 inner ih => exact List.mem_cons_of_mem _ (ih h)
  | case3 inner ih => exact List.mem_cons_of_mem _ (ih h)
  | case4 other =>
      rw [Option.some.inj h]
      exact List.mem_singleton_self _
  | case5 => cases h

theorem BindingType.coreName?_of_isCallableReference {ty : BindingType}
    (h : ty.isCallableReference = true) : ty.coreName? = none := by
  match ty with
  | .reference (.callable params result) => rfl

open Rust

namespace Rust

namespace Boundary

theorem isKnownPath_of_isBase {custom : List (List Text)} {ty : BindingType} {name : Text}
    (h : isBase custom ty = true) (hname : ty.coreName? = some name) :
    isKnownPath custom [name] = true := by
  fun_cases BindingType.coreName? ty with
  | case4 other =>
      obtain rfl : other = name := Option.some.inj hname
      exact h
  | case5 => simp_all [BindingType.coreName?]
  | _ => cases h

theorem isKnownPath_of_isSafe {custom : List (List Text)} {ty : BindingType} {name : Text}
    (h : isSafe custom ty = true) (hname : ty.coreName? = some name) :
    isKnownPath custom [name] = true := by
  rcases isSafe_cases h with rfl | hbase | ⟨inner, hbase, rfl | rfl | rfl | rfl⟩
  · cases hname
  · exact isKnownPath_of_isBase hbase hname
  all_goals exact isKnownPath_of_isBase hbase hname

theorem isKnownPath_of_legal {custom : List (List Text)} {isResult : Bool} {ty : BindingType}
    {name : Text} (h : Legal custom isResult ty) (hname : ty.coreName? = some name) :
    isKnownPath custom [name] = true := by
  cases isResult with
  | true => exact isKnownPath_of_isSafe h.1 hname
  | false =>
      rcases h with hsafe | hcallable
      · exact isKnownPath_of_isSafe hsafe hname
      · rw [BindingType.coreName?_of_isCallableReference hcallable] at hname
        cases hname

end Boundary

namespace SourceUnit

/-- The name is that of a type in the block at the path or in a block around it, or a use at the
root binds it. -/
def ResolvesAt (u : SourceUnit) (path : List Text) (name : Text) : Prop :=
  (∃ block ∈ u.blocks, block.1 <+: path ∧ name ∈ Binding.hostTypeNames block.2) ∨
    ∃ use ∈ u.rootUses, use.boundName = some name

/-- The name is that of a type in a block that is not around the path. -/
def DeclaredBeside (u : SourceUnit) (path : List Text) (name : Text) : Prop :=
  ∃ block ∈ u.blocks, ¬ block.1 <+: path ∧ name ∈ Binding.hostTypeNames block.2

theorem resolvesAt_or_declaredBeside {u : SourceUnit} {block : List Text × List Binding}
    {name : Text} (hblock : block ∈ u.blocks) (hname : name ∈ Binding.hostTypeNames block.2)
    (path : List Text) : u.ResolvesAt path name ∨ u.DeclaredBeside path name := by
  by_cases haround : block.1 <+: path
  · exact Or.inl (Or.inl ⟨block, hblock, haround, hname⟩)
  · exact Or.inr ⟨block, hblock, haround, hname⟩

theorem singleton_mem_customPaths {u : SourceUnit} {name : Text} (h : [name] ∈ u.customPaths) :
    (∃ block ∈ u.blocks, name ∈ Binding.hostTypeNames block.2) ∨
      ∃ use ∈ u.allUses, use.isPublic = true ∧ use.boundName = some name := by
  rw [customPaths_eq] at h
  rcases List.mem_append.mp h with htype | huse
  · obtain ⟨block, hblock, hpath⟩ := List.mem_flatMap.mp htype
    obtain ⟨own, hown, hpath⟩ := List.mem_flatMap.mp hpath
    -- a type is provided by its name and by its path, and both end in the name
    have hlast : [name].getLast? = some own := by
      rcases List.mem_pair.mp hpath with heq | heq <;> rw [heq] <;> simp
    obtain rfl : name = own := Option.some.inj hlast
    exact Or.inl ⟨block, hblock, hown⟩
  · obtain ⟨use, hfiltered, hpath⟩ := List.mem_filterMap.mp huse
    obtain ⟨hmem, hpublic⟩ := List.mem_filter.mp hfiltered
    obtain ⟨bound, hbound, heq⟩ := Option.map_eq_some_iff.mp hpath
    obtain rfl : bound = name := List.singleton_inj.mp heq
    exact Or.inr ⟨use, hmem, hpublic, hbound⟩

theorem mem_referencedNames {u : SourceUnit} {block : List Text × List Binding} {b : Binding}
    {ty : BindingType} {name : Text} (hblock : block ∈ u.blocks) (hb : b ∈ block.2)
    (hty : ty ∈ b.types) (hname : ty.coreName? = some name) : name ∈ u.referencedNames := by
  rw [referencedNames, Ordered.mem_ofList]
  refine List.mem_flatMap.mpr ⟨b, mem_bindings hblock hb, List.mem_append_left _ ?_⟩
  refine List.mem_filterMap.mpr ⟨.named [name], ?_, rfl⟩
  exact List.mem_flatMap.mpr ⟨ty, hty, BindingType.named_mem_walk hname⟩

theorem mem_declaredNames {u : SourceUnit} {name : Text} :
    name ∈ u.declaredNames ↔
      (∃ block ∈ u.blocks, name ∈ Binding.hostTypeNames block.2) ∨
        ∃ use ∈ u.rootUses, use.boundName = some name := by
  have htypes : (u.bindings.filter Binding.isHostType).map (·.name) =
      u.blocks.flatMap fun block => Binding.hostTypeNames block.2 := by
    rw [bindings, List.filter_flatMap, List.map_flatMap]
    rfl
  rw [declaredNames, Ordered.mem_ofList, htypes]
  simp

theorem exists_crate_of_isKnown {name : Text} (h : Catalog.isKnown name = true)
    (hstring : Catalog.isStringType name = false) :
    ∃ crate, Catalog.crateOf? name = some crate := by
  rw [Catalog.isStringType] at hstring
  rw [Catalog.isKnown, hstring, Bool.false_or, Bool.or_eq_true] at h
  rw [Catalog.crateOf?]
  split
  · exact ⟨_, rfl⟩
  · rename_i hbrowser
    have hlanguage := h.resolve_left hbrowser
    rw [if_pos hlanguage]
    exact ⟨_, rfl⟩

/-- Every name of a type in the unit leads to a declaration or to a use, or to a declaration beside
the block. The names of string enumerations, which cross as strings, are left out. -/
def NamesResolve (u : SourceUnit) : Prop :=
  ∀ block ∈ u.blocks, ∀ b ∈ block.2, ∀ ty ∈ b.types, ∀ name, ty.coreName? = some name →
    Catalog.isStringType name = false →
    u.ResolvesAt block.1 name ∨ u.DeclaredBeside block.1 name

/-- The imports of host types close the unit, if its public uses stand at the root. -/
theorem BoundaryClosed.namesResolve_addHostUses {u : SourceUnit} (h : u.BoundaryClosed)
    (hpublic : ∀ use ∈ u.allUses, use.isPublic = true → use ∈ u.rootUses) (options : Options) :
    (u.addHostUses options).NamesResolve := by
  have hroot : (u.addHostUses options).rootUses = u.hostUses options ++ u.rootUses := by
    rw [SourceUnit.addHostUses, rootUses_append, rootUses_map_use]
  intro block hblock b hb ty hty name hname hstring
  rw [blocks_addHostUses] at hblock
  have hdeclared : ∀ other ∈ u.blocks, name ∈ Binding.hostTypeNames other.2 →
      (u.addHostUses options).ResolvesAt block.1 name ∨
        (u.addHostUses options).DeclaredBeside block.1 name := by
    intro other hother hown
    exact resolvesAt_or_declaredBeside (by rwa [blocks_addHostUses]) hown block.1
  have hbound : ∀ use ∈ u.rootUses, use.boundName = some name →
      (u.addHostUses options).ResolvesAt block.1 name := by
    intro use huse hown
    exact Or.inr ⟨use, hroot ▸ List.mem_append_right _ huse, hown⟩
  obtain ⟨isResult, hslot⟩ := BindingShape.exists_slot_of_mem_types hty
  have hknown := Boundary.isKnownPath_of_legal (h block hblock b hb _ hslot) hname
  -- the unit itself provides the name, or a catalog lists it
  rcases Bool.or_eq_true_iff.mp hknown with hcustom | hcatalog
  · rcases singleton_mem_customPaths (List.contains_iff_mem.mp hcustom) with
      ⟨other, hother, hown⟩ | ⟨use, huse, huseable, hown⟩
    · exact hdeclared other hother hown
    · exact Or.inl (hbound use (hpublic use huse huseable) hown)
  · by_cases hprovided : name ∈ u.declaredNames
    · rcases mem_declaredNames.mp hprovided with ⟨other, hother, hown⟩ | ⟨use, huse, hown⟩
      · exact hdeclared other hother hown
      · exact Or.inl (hbound use huse hown)
    · obtain ⟨crate, hcrate⟩ := exists_crate_of_isKnown hcatalog hstring
      have himport : hostUse (options.crateName crate) name ∈ u.hostUses options :=
        mem_hostUses_iff.mpr
          ⟨crate, name, rfl, mem_referencedNames hblock hb hty hname, hprovided, hcrate⟩
      exact Or.inl (Or.inr ⟨_, hroot ▸ List.mem_append_left _ himport, rfl⟩)

end SourceUnit

end Rust

/-- In a compiled unit that imports its host types, every type that is printed by a single name is
declared in its block or in one around it, or a use at the root binds it, unless the unit declares
the name in another scope only. -/
theorem compileModule_namesResolve (options : Options) (m : Source.Module) (u : SourceUnit)
    (himports : options.emitCatalogUses = true)
    (h : (compileModule options m).result = .ok u) : u.NamesResolve := by
  obtain ⟨composed, hcomposed, rfl⟩ := (compileModule_eq_ok_iff options m u).mp h
  rw [finish, if_pos himports]
  apply composed.resolveCollisions.boundaryClosed_legalize.namesResolve_addHostUses
  intro use huse hpublic
  simp only [SourceUnit.legalize, SourceUnit.legalizeWith, SourceUnit.resolveCollisions,
    SourceUnit.allUses_mapBlocks, SourceUnit.rootUses_mapBlocks] at huse ⊢
  exact Composition.mem_rootUses_of_isPublic hcomposed huse hpublic

/-- A type inside a namespace, with a method that gives its receiver, and a class beside the
namespace. -/
def panelModule : Source.Module :=
  let key (name : Text) : Source.PropertyKey := ⟨.word, name, none⟩
  { body := [
      .declaration (.space ⟨"ui", .block [
        .declaration (.interface ⟨"Panel", [
          .methodSignature (key "raise") ⟨[], some (.this none), []⟩ false none], [], [], none⟩)]
        none, false, false, none⟩),
      .declaration (.classDeclaration ⟨some "Box", [
        .constructorMember (key "constructor") [] none none], [], none, [], false, none⟩)] }

theorem panelModule_namesResolve :
    ∃ u, Options.standard.emitCatalogUses = true ∧
      (compileModule .standard panelModule).result = .ok u ∧
      (u.blocks.map fun block => (block.1, block.2.map Binding.types)) =
        [([Text.ofString "uiMod"], [[], [.reference (.named ["Panel"]), .named ["Panel"]]]),
          ([], [[], [.named ["Box"]]])] ∧
      u.NamesResolve :=
  ⟨_, rfl, rfl, rfl, compileModule_namesResolve .standard panelModule _ rfl rfl⟩

/-- A function beside a namespace, with a result of the name that the namespace declares. -/
def rootFunction : Source.Declaration :=
  .function ⟨some "root", ⟨[], some (.reference [] "Node" [] none), []⟩, none⟩

def sceneModule : Source.Module :=
  { body := [
      .declaration (.space ⟨"dom", .block [.declaration (.interface ⟨"Node", [], [], [], none⟩)]
        none, false, false, none⟩),
      .declaration rootFunction] }

/-- The binding of the type in the namespace. -/
def nodeBinding : Binding :=
  { name := "Node", shape := .hostType, attributes := { namespacePath := ["dom"] } }

/-- The binding of the function. -/
def rootBinding : Binding := { name := "root", shape := .function [] (some (.named ["Node"])) }

/-- The unit before its last passes. -/
def sceneUnit : SourceUnit :=
  ⟨[.use (Composition.preludeUse .standard),
    .scope "domMod" [.use Composition.enclosingUse, .block [nodeBinding]],
    .block [rootBinding]]⟩

theorem lower_rootFunction :
    (Lowering.lower .standard [] rootFunction).result = .ok [rootBinding] := by
  have hplain : Lowering.isPredefined "Node" = false := by
    simp [Lowering.isPredefined, Lowering.arrayNames, Catalog.isStringType, Catalog.stringTypes,
      Text.ofString_inj]
  simp only [rootFunction, Lowering.lower, Lowering.inDeclaration, Lowering.lowerFunction,
    Lowering.mapResult, Lowering.mapType_plain _ _ hplain]
  rfl

theorem compose_sceneModule :
    (Composition.compose .standard sceneModule).result = .ok sceneUnit := by
  have hfunction : ∀ items,
      (Composition.composeDeclaration .standard items rootFunction).result =
        .ok (Item.addBindings [rootBinding] items) := by
    intro items
    change (Lowering.lower .standard [] rootFunction >>= fun bindings =>
      pure (Item.addBindings bindings items) : Outcome _).result = _
    rw [Outcome.result_bind, lower_rootFunction]
    rfl
  refine Composition.compose_eq_ok_iff.mpr ⟨[], sceneUnit.items.tail, rfl, ?_, rfl⟩
  refine (Outcome.result_bind_eq_ok_iff _ _ _).mpr ⟨_, rfl, ?_⟩
  exact (Outcome.result_bind_eq_ok_iff _ _ _).mpr ⟨_, hfunction _, rfl⟩

/-- The type of the namespace is out of reach for the function beside it. -/
theorem sceneModule_name_unresolved :
    ∃ u, (compileModule .standard sceneModule).result = .ok u ∧
      ∃ block ∈ u.blocks, ∃ b ∈ block.2, ∃ ty ∈ b.types,
        ty.coreName? = some (Text.ofString "Node") ∧ ¬ u.ResolvesAt block.1 "Node" := by
  have hblocks : (finish .standard sceneUnit).blocks =
      [([Text.ofString "domMod"], [nodeBinding]), ([], [rootBinding])] := rfl
  refine ⟨_, (compileModule_eq_ok_iff _ _ _).mpr ⟨sceneUnit, compose_sceneModule, rfl⟩,
    ([], [rootBinding]), ?_, rootBinding, List.mem_singleton_self _, .named ["Node"],
    List.mem_singleton_self _, rfl, ?_⟩
  · rw [hblocks]
    exact List.mem_cons_of_mem _ List.mem_cons_self
  · rintro (⟨block, hblock, hpath, hname⟩ | ⟨use, huse, hbound⟩)
    · rw [hblocks] at hblock
      rcases List.mem_pair.mp hblock with rfl | rfl
      · exact absurd (List.prefix_nil.mp hpath) (List.cons_ne_nil _ _)
      · cases hname
    · obtain rfl : use = Composition.preludeUse .standard := List.mem_singleton.mp huse
      exact absurd hbound (by decide)

end HostBindings

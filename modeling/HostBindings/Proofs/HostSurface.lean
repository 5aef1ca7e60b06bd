import HostBindings.Proofs.NameResolution
import HostBindings.Proofs.UnitContents

/-!
What the host sees of a unit: its functions and statics without their Rust names, where they stand,
and what the unit uses. Finishing a unit renames what collides and folds repeated types; the host
types that it imports and the types that cross its boundary are decided by sets. So what the host
sees depends on what the unit holds and not on its order.
-/

namespace HostBindings

open Rust HostBindings.Composition

/-- A binding as the host knows it: all of it but its Rust name. A constructor has no name of its
own on the host. -/
def Binding.forHost (b : Binding) : Binding :=
  { b with
    name := []
    attributes :=
      { b.attributes with
        hostName := if Collision.isConstructor b then none else some b.hostName } }

namespace Rust

/-- The functions and statics of a unit as the host knows them, and the scopes they stand in. -/
def SourceUnit.surface (u : SourceUnit) : List (List Text × Binding) :=
  (u.placed.filter fun place => Collision.isMember place.2).map fun place =>
    (place.1, place.2.forHost)

/-- Two units bind the same on the host, in the same scopes and with the same uses. -/
structure SourceUnit.SameSurface (u u' : SourceUnit) : Prop where
  members : u'.surface.Perm u.surface
  rootUses : u'.rootUses = u.rootUses
  uses : u'.placedUses.Perm u.placedUses

namespace Boundary

/-- Which types cross the boundary depends on the set of provided types only. -/
theorem legalizeType_congr {custom custom' : List (List Text)}
    (h : ∀ path, path ∈ custom' ↔ path ∈ custom) : legalizeType custom' = legalizeType custom := by
  have hknown : isKnownPath custom' = isKnownPath custom := by
    funext path
    have hcontains : custom'.contains path = custom.contains path := by
      rw [Bool.eq_iff_iff, List.contains_iff_mem, List.contains_iff_mem, h]
    simp only [isKnownPath, hcontains]
  have hbase : isBase custom' = isBase custom := by
    funext ty
    cases ty <;> simp [isBase, hknown]
  have hsliceable : isSliceable custom' = isSliceable custom := by
    funext ty
    cases ty <;> simp [isSliceable, hknown]
  have hsafe : isSafe custom' = isSafe custom := by
    funext ty
    fun_cases isSafe custom ty <;> simp_all [isSafe]
  funext isResult ty
  rw [legalizeType, legalizeType, hsafe]

end Boundary

namespace Collision

theorem forHost_rename (name : Text) (b : Binding) : (rename name b).forHost = b.forHost := by
  obtain ⟨own, shape, attributes, loc⟩ := b
  have hkind : isConstructor (rename name ⟨own, shape, attributes, loc⟩) =
      isConstructor ⟨own, shape, attributes, loc⟩ := rfl
  rw [Binding.forHost, Binding.forHost, hkind]
  cases hconstructor : isConstructor ⟨own, shape, attributes, loc⟩ with
  | true => rfl
  | false =>
      cases hname : attributes.hostName <;> simp [rename, hconstructor, Binding.hostName, hname]

theorem forHost_mapTypes (f : Bool → BindingType → BindingType) (b : Binding) :
    (b.mapTypes f).forHost = b.forHost.mapTypes f := by
  obtain ⟨name, shape, attributes, loc⟩ := b
  cases shape <;> rfl

theorem Becomes.forHost_eq {block : List Binding} {before after : Binding}
    (h : Becomes block before after) (hmember : isMember before = true) :
    after.forHost = (prepared before).forHost := by
  have hhost : ¬ before.isHostType = true := by simpa [isMember] using hmember
  rw [Becomes, if_neg hhost] at h
  rcases h with rfl | ⟨k, rfl⟩
  · rfl
  · exact forHost_rename _ _

/-- A function or static of a finished block as the host knows it. -/
def finished (custom : List (List Text)) (b : Binding) : Binding :=
  ((prepared b).mapTypes (Boundary.legalizeType custom)).forHost

theorem isMember_mapTypes (f : Bool → BindingType → BindingType) (b : Binding) :
    isMember (b.mapTypes f) = isMember b := by
  rw [isMember, isMember, Binding.isHostType_mapTypes]

theorem map_forHost_finishBlock (custom : List (List Text)) (block : List Binding) :
    ((finishBlock custom block).filter isMember).map Binding.forHost =
      (block.filter isMember).map (finished custom) := by
  have hfilter : (finishBlock custom block).filter isMember =
      ((resolve block).filter isMember).map (Binding.mapTypes (Boundary.legalizeType custom)) := by
    rw [finishBlock, List.filter_map]
    congr 2
    funext b
    exact isMember_mapTypes _ b
  have hboth := (List.forall₂_and_left _ _).mpr
    ⟨fun b hb => (List.mem_filter.mp hb).2, members_survive block⟩
  rw [hfilter, List.map_map]
  symm
  rw [← List.forall₂_eq_eq_eq, List.forall₂_map_left_iff, List.forall₂_map_right_iff]
  refine hboth.imp ?_
  rintro before after ⟨hmember, hbecomes⟩
  show finished custom before = (after.mapTypes (Boundary.legalizeType custom)).forHost
  rw [finished, forHost_mapTypes, forHost_mapTypes, hbecomes.forHost_eq hmember]

theorem mem_typeBases_finishBlock {custom : List (List Text)} {block : List Binding}
    {base : List Text} : base ∈ typeBases (finishBlock custom block) ↔ base ∈ typeBases block := by
  have hbases : typeBases (finishBlock custom block) = typeBases (resolve block) := by
    rw [typeBases, typeBases, finishBlock, List.filter_map, List.flatMap_map]
    congr 2
    funext b
    exact Binding.isHostType_mapTypes _ b
  rw [hbases, mem_typeBases_resolve]

theorem hostTypeNames_finishBlock {custom : List (List Text)} {block : List Binding} {name : Text} :
    name ∈ Binding.hostTypeNames (finishBlock custom block) ↔
      name ∈ Binding.hostTypeNames block := by
  rw [finishBlock, Binding.hostTypeNames_map_mapTypes, mem_hostTypeNames_resolve]

end Collision

namespace SourceUnit

theorem namesIn_forHost (b : Binding) : namesIn b.forHost = namesIn b := rfl

theorem mem_namesIn_of_isHostType {name : Text} {b : Binding} (h : b.isHostType = true) :
    name ∈ namesIn b ↔ [name] ∈ b.attributes.bases := by
  have htypes : b.types = [] := by
    obtain ⟨own, shape, attributes, loc⟩ := b
    cases shape with
    | hostType => rfl
    | _ => cases h
  rw [namesIn, htypes, List.flatMap_nil, List.filterMap_nil, List.nil_append, List.mem_filterMap]
  constructor
  · rintro ⟨base, hbase, hname⟩
    match base with
    | [own] =>
        rw [← Option.some.inj hname]
        exact hbase
  · intro hbase
    exact ⟨_, hbase, rfl⟩

theorem exists_namesIn_members {custom : List (List Text)} {block : List Binding} {name : Text} :
    (∃ b ∈ (finishBlock custom block).filter Collision.isMember, name ∈ namesIn b) ↔
      ∃ b ∈ block, Collision.isMember b = true ∧ name ∈ namesIn (Collision.finished custom b) := by
  have hforHost : ∀ bindings : List Binding, (∃ b ∈ bindings, name ∈ namesIn b) ↔
      ∃ b ∈ bindings.map Binding.forHost, name ∈ namesIn b := by
    simp only [List.mem_map, exists_exists_and_eq_and, namesIn_forHost, implies_true]
  rw [hforHost, Collision.map_forHost_finishBlock]
  constructor
  · rintro ⟨_, hafter, hname⟩
    obtain ⟨b, hb, rfl⟩ := List.mem_map.mp hafter
    exact ⟨b, (List.mem_filter.mp hb).1, (List.mem_filter.mp hb).2, hname⟩
  · rintro ⟨b, hb, hmember, hname⟩
    exact ⟨_, List.mem_map_of_mem (List.mem_filter.mpr ⟨hb, hmember⟩), hname⟩

theorem exists_namesIn_finishBlock {custom : List (List Text)} {block : List Binding}
    {name : Text} :
    (∃ b ∈ finishBlock custom block, name ∈ namesIn b) ↔
      ∃ b ∈ block, Collision.isMember b = true ∧ name ∈ namesIn (Collision.finished custom b) ∨
        b.isHostType = true ∧ [name] ∈ b.attributes.bases := by
  simp only [and_or_left, exists_or]
  rw [← exists_namesIn_members, ← Collision.mem_typeBases, ← Collision.mem_typeBases_finishBlock,
    Collision.mem_typeBases]
  constructor
  · rintro ⟨b, hb, hname⟩
    cases hhost : b.isHostType with
    | true => exact Or.inr ⟨b, hb, hhost, (mem_namesIn_of_isHostType hhost).mp hname⟩
    | false =>
        exact Or.inl ⟨b, List.mem_filter.mpr ⟨hb, by rw [Collision.isMember, hhost]; rfl⟩, hname⟩
  · rintro (⟨b, hb, hname⟩ | ⟨b, hb, hhost, hbase⟩)
    · exact ⟨b, (List.mem_filter.mp hb).1, hname⟩
    · exact ⟨b, hb, (mem_namesIn_of_isHostType hhost).mpr hbase⟩

theorem exists_mem_placed {u : SourceUnit} {P : List Text × Binding → Prop} :
    (∃ place ∈ u.placed, P place) ↔ ∃ block ∈ u.blocks, ∃ b ∈ block.2, P (block.1, b) := by
  constructor
  · rintro ⟨place, hplace, h⟩
    obtain ⟨block, hblock, hmem⟩ := List.mem_flatMap.mp hplace
    obtain ⟨b, hb, rfl⟩ := List.mem_map.mp hmem
    exact ⟨block, hblock, b, hb, h⟩
  · rintro ⟨block, hblock, b, hb, h⟩
    exact ⟨_, List.mem_flatMap.mpr ⟨block, hblock, List.mem_map_of_mem hb⟩, h⟩

theorem surface_finish (options : Options) (u : SourceUnit) :
    (finish options u).surface =
      (u.placed.filter fun place => Collision.isMember place.2).map fun place =>
        (place.1, Collision.finished u.resolveCollisions.customPaths place.2) := by
  have hplaced : ∀ u : SourceUnit, u.placed = u.blocks.flatMap fun block =>
      block.2.map fun b => (block.1, b) := fun _ => rfl
  have hblock : ∀ path : List Text, ∀ block : List Binding,
      ((block.map fun b => (path, b)).filter fun place => Collision.isMember place.2) =
        (block.filter Collision.isMember).map fun b => (path, b) := by
    intro path block
    rw [List.filter_map]
    rfl
  rw [surface, hplaced, hplaced, blocks_finish, List.flatMap_map, List.filter_flatMap,
    List.filter_flatMap, List.map_flatMap, List.map_flatMap]
  congr 1
  funext block
  rw [hblock, hblock, List.map_map, List.map_map]
  have hfinished := congrArg (List.map fun b => (block.1, b))
    (Collision.map_forHost_finishBlock u.resolveCollisions.customPaths block.2)
  rwa [List.map_map, List.map_map] at hfinished

variable {u u' : SourceUnit}

theorem SameContents.mem_allUses (h : u.SameContents u') (use : Use) :
    use ∈ u'.allUses ↔ use ∈ u.allUses := by
  rw [allUses, allUses, ← Item.map_snd_placedUsesOf [], ← Item.map_snd_placedUsesOf []]
  exact (h.placedUses.map _).mem_iff

theorem mem_customPaths_resolveCollisions {path : List Text} :
    path ∈ u.resolveCollisions.customPaths ↔
      (∃ place ∈ u.placed, place.2.isHostType = true ∧
        (path = [place.2.name] ∨ path = place.1 ++ [place.2.name])) ∨
      ∃ use ∈ u.allUses, use.isPublic = true ∧
        use.boundName.map (fun name => [name]) = some path := by
  rw [customPaths_eq, List.mem_append, resolveCollisions, allUses_mapBlocks, blocks_mapBlocks,
    List.flatMap_map]
  refine or_congr ?_ ?_
  · rw [exists_mem_placed, List.mem_flatMap]
    refine exists_congr fun block => and_congr_right fun _ => ?_
    constructor
    · intro hpath
      obtain ⟨own, hown, hpath⟩ := List.mem_flatMap.mp hpath
      obtain ⟨b, hb, hhost, rfl⟩ :=
        Binding.mem_hostTypeNames.mp (Collision.mem_hostTypeNames_resolve.mp hown)
      exact ⟨b, hb, hhost, List.mem_pair.mp hpath⟩
    · rintro ⟨b, hb, hhost, hpath⟩
      have hown := Collision.mem_hostTypeNames_resolve.mpr
        (Binding.mem_hostTypeNames.mpr ⟨b, hb, hhost, rfl⟩)
      exact List.mem_flatMap.mpr ⟨b.name, hown, List.mem_pair.mpr hpath⟩
  · simp only [List.mem_filterMap, List.mem_filter, and_assoc]

theorem SameContents.customPaths (h : u.SameContents u') (path : List Text) :
    path ∈ u'.resolveCollisions.customPaths ↔ path ∈ u.resolveCollisions.customPaths := by
  rw [mem_customPaths_resolveCollisions, mem_customPaths_resolveCollisions]
  simp only [h.placed.mem_iff, h.mem_allUses]

theorem SameContents.finished (h : u.SameContents u') :
    Collision.finished u'.resolveCollisions.customPaths =
      Collision.finished u.resolveCollisions.customPaths := by
  funext b
  rw [Collision.finished, Collision.finished, Boundary.legalizeType_congr h.customPaths]

theorem mem_referencedNames_legalize {name : Text} :
    name ∈ u.resolveCollisions.legalize.referencedNames ↔
      ∃ place ∈ u.placed,
        (Collision.isMember place.2 = true ∧
          name ∈ namesIn (Collision.finished u.resolveCollisions.customPaths place.2)) ∨
        (place.2.isHostType = true ∧ [name] ∈ place.2.attributes.bases) := by
  rw [referencedNames, Ordered.mem_ofList, bindings, blocks_legalize, List.flatMap_map,
    List.flatMap_assoc, List.mem_flatMap, exists_mem_placed]
  refine exists_congr fun block => and_congr_right fun _ => ?_
  rw [← exists_namesIn_finishBlock]
  exact List.mem_flatMap

theorem SameContents.referencedNames (h : u.SameContents u') :
    u'.resolveCollisions.legalize.referencedNames =
      u.resolveCollisions.legalize.referencedNames := by
  have hmem : ∀ name, name ∈ u'.resolveCollisions.legalize.referencedNames ↔
      name ∈ u.resolveCollisions.legalize.referencedNames := by
    intro name
    rw [mem_referencedNames_legalize, mem_referencedNames_legalize, h.finished]
    simp only [h.placed.mem_iff]
  simp only [SourceUnit.referencedNames, Ordered.mem_ofList] at hmem
  exact Ordered.ofList_congr hmem

theorem mem_declaredNames_legalize {name : Text} :
    name ∈ u.resolveCollisions.legalize.declaredNames ↔
      (∃ place ∈ u.placed, place.2.isHostType = true ∧ place.2.name = name) ∨
        ∃ use ∈ u.rootUses, use.boundName = some name := by
  rw [mem_declaredNames, rootUses_legalize, blocks_legalize, exists_mem_placed]
  refine or_congr_left ?_
  constructor
  · rintro ⟨_, hblock, hname⟩
    obtain ⟨block, hmem, rfl⟩ := List.mem_map.mp hblock
    exact ⟨block, hmem, Binding.mem_hostTypeNames.mp (Collision.hostTypeNames_finishBlock.mp hname)⟩
  · rintro ⟨block, hmem, hname⟩
    exact ⟨_, List.mem_map_of_mem hmem,
      Collision.hostTypeNames_finishBlock.mpr (Binding.mem_hostTypeNames.mpr hname)⟩

theorem SameContents.declaredNames (h : u.SameContents u') :
    u'.resolveCollisions.legalize.declaredNames = u.resolveCollisions.legalize.declaredNames := by
  have hmem : ∀ name, name ∈ u'.resolveCollisions.legalize.declaredNames ↔
      name ∈ u.resolveCollisions.legalize.declaredNames := by
    intro name
    rw [mem_declaredNames_legalize, mem_declaredNames_legalize, h.rootUses]
    simp only [h.placed.mem_iff]
  simp only [SourceUnit.declaredNames, Ordered.mem_ofList] at hmem
  exact Ordered.ofList_congr hmem

theorem SameContents.hostUses (h : u.SameContents u') (options : Options) :
    u'.resolveCollisions.legalize.hostUses options =
      u.resolveCollisions.legalize.hostUses options := by
  rw [SourceUnit.hostUses, hostUsesBeyond, h.referencedNames, h.declaredNames]
  rfl

/-- Finishing units with the same contents gives units with the same surface. -/
theorem SameContents.finish (h : u.SameContents u') (options : Options) :
    (finish options u).SameSurface (finish options u') := by
  constructor
  · rw [surface_finish, surface_finish, h.finished]
    exact (h.placed.filter _).map _
  · rw [rootUses_finish, rootUses_finish, h.hostUses, h.rootUses]
  · rw [SourceUnit.placedUses, SourceUnit.placedUses, items_finish, items_finish,
      Item.placedUsesOf_append, Item.placedUsesOf_append, Item.placedUsesOf_mapBlocksOf,
      Item.placedUsesOf_mapBlocksOf, h.hostUses]
    exact h.placedUses.append_left _

end SourceUnit

end Rust

end HostBindings

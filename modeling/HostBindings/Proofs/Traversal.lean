import HostBindings.Rust.Unit

/-!
What a pass keeps. A pass over the type slots of a binding changes their types and nothing else; a
pass over the extern blocks of a unit changes the bindings of each block and nothing else, so the
scope paths, the uses and the order of the blocks are those of the unit before.
-/

namespace HostBindings

theorem BindingType.mem_walkAll_iff {node : BindingType} {tys : List BindingType} :
    node ∈ walkAll tys ↔ ∃ ty ∈ tys, node ∈ ty.walk := by
  induction tys with
  | nil => simp [walkAll]
  | cons ty rest ih => simp [walkAll, ih]

namespace BindingShape

/-- The type slots in order, parameters first; the flag tells whether it is the slot of a result. -/
def slots : BindingShape → List (Bool × BindingType)
  | .hostType => []
  | .function params result =>
      params.map (fun p => (false, p.type)) ++ result.toList.map fun ty => (true, ty)
  | .static type => [(false, type)]

theorem slots_mapTypes (f : Bool → BindingType → BindingType) (shape : BindingShape) :
    (shape.mapTypes f).slots = shape.slots.map fun slot => (slot.1, f slot.1 slot.2) := by
  cases shape with
  | hostType => rfl
  | function params result => cases result <;> simp [mapTypes, slots, Function.comp_def]
  | static type => rfl

theorem types_eq_map_slots (shape : BindingShape) : shape.types = shape.slots.map (·.2) := by
  cases shape with
  | hostType => rfl
  | function params result => simp [types, slots, Function.comp_def]
  | static type => rfl

theorem exists_slot_of_mem_types {shape : BindingShape} {ty : BindingType} (h : ty ∈ shape.types) :
    ∃ isResult, (isResult, ty) ∈ shape.slots := by
  rw [types_eq_map_slots] at h
  obtain ⟨⟨isResult, _⟩, hslot, rfl⟩ := List.mem_map.mp h
  exact ⟨isResult, hslot⟩

theorem exists_of_mem_types_mapTypes {f : Bool → BindingType → BindingType} {shape : BindingShape}
    {ty : BindingType} (h : ty ∈ (shape.mapTypes f).types) :
    ∃ isResult, ∃ before ∈ shape.types, f isResult before = ty := by
  rw [types_eq_map_slots, slots_mapTypes, List.map_map] at h
  obtain ⟨⟨isResult, before⟩, hslot, rfl⟩ := List.mem_map.mp h
  rw [types_eq_map_slots]
  exact ⟨isResult, before, List.mem_map_of_mem hslot, rfl⟩

theorem mapTypes_congr {f g : Bool → BindingType → BindingType} {shape : BindingShape}
    (h : ∀ slot ∈ shape.slots, f slot.1 slot.2 = g slot.1 slot.2) :
    shape.mapTypes f = shape.mapTypes g := by
  cases shape with
  | hostType => rfl
  | function params result =>
      simp only [mapTypes, function.injEq]
      constructor
      · apply List.map_congr_left
        intro p hp
        have hslot := h (false, p.type) (by simp [slots, List.mem_map_of_mem hp])
        simpa using hslot
      · apply Option.map_congr
        intro ty hty
        exact h (true, ty) (by simp [slots, hty])
  | static type =>
      simp only [mapTypes, static.injEq]
      exact h (false, type) (by simp [slots])

theorem mapTypes_id (shape : BindingShape) : shape.mapTypes (fun _ ty => ty) = shape := by
  cases shape <;> simp [mapTypes]

theorem mapTypes_eq_self {f : Bool → BindingType → BindingType} {shape : BindingShape}
    (h : ∀ slot ∈ shape.slots, f slot.1 slot.2 = slot.2) : shape.mapTypes f = shape := by
  calc
    shape.mapTypes f = shape.mapTypes (fun _ ty => ty) := mapTypes_congr h
    _ = shape := mapTypes_id shape

end BindingShape

namespace Binding

@[simp] theorem name_mapTypes (f : Bool → BindingType → BindingType) (b : Binding) :
    (b.mapTypes f).name = b.name := rfl

@[simp] theorem attributes_mapTypes (f : Bool → BindingType → BindingType) (b : Binding) :
    (b.mapTypes f).attributes = b.attributes := rfl

@[simp] theorem loc_mapTypes (f : Bool → BindingType → BindingType) (b : Binding) :
    (b.mapTypes f).loc = b.loc := rfl

@[simp] theorem shape_mapTypes (f : Bool → BindingType → BindingType) (b : Binding) :
    (b.mapTypes f).shape = b.shape.mapTypes f := rfl

@[simp] theorem isHostType_mapTypes (f : Bool → BindingType → BindingType) (b : Binding) :
    (b.mapTypes f).isHostType = b.isHostType := by
  obtain ⟨name, shape, attributes, loc⟩ := b
  cases shape <;> rfl

theorem mapTypes_eq_self {f : Bool → BindingType → BindingType} {b : Binding}
    (h : ∀ slot ∈ b.shape.slots, f slot.1 slot.2 = slot.2) : b.mapTypes f = b := by
  simp [mapTypes, BindingShape.mapTypes_eq_self h]

/-- The names of the host types of a block. -/
def hostTypeNames (bindings : List Binding) : List Text :=
  (bindings.filter isHostType).map (·.name)

theorem mem_hostTypeNames {name : Text} {bindings : List Binding} :
    name ∈ hostTypeNames bindings ↔ ∃ b ∈ bindings, b.isHostType = true ∧ b.name = name := by
  simp [hostTypeNames, and_assoc]

theorem hostTypeNames_map_mapTypes (f : Bool → BindingType → BindingType)
    (bindings : List Binding) :
    hostTypeNames (bindings.map (mapTypes f)) = hostTypeNames bindings := by
  simp [hostTypeNames, List.filter_map, Function.comp_def]

end Binding

namespace Rust

namespace Item

mutual

theorem blocks_mapBlocks (f : List Binding → List Binding) (path : List Text) (item : Item) :
    blocks path (mapBlocks f item) =
      (blocks path item).map fun block => (block.1, f block.2) := by
  cases item with
  | use u => simp [mapBlocks, blocks]
  | block bindings => simp [mapBlocks, blocks]
  | scope name items =>
      simp only [mapBlocks, blocks]
      exact blocksOf_mapBlocksOf f (path ++ [name]) items
  | stray written => simp [mapBlocks, blocks]

theorem blocksOf_mapBlocksOf (f : List Binding → List Binding) (path : List Text)
    (items : List Item) :
    blocksOf path (mapBlocksOf f items) =
      (blocksOf path items).map fun block => (block.1, f block.2) := by
  cases items with
  | nil => simp [mapBlocksOf, blocksOf]
  | cons item rest =>
      simp only [mapBlocksOf, blocksOf, List.map_append]
      rw [blocks_mapBlocks f path item, blocksOf_mapBlocksOf f path rest]

end

mutual

theorem uses_mapBlocks (f : List Binding → List Binding) (item : Item) :
    uses (mapBlocks f item) = uses item := by
  cases item with
  | use u => simp [mapBlocks]
  | block bindings => simp [mapBlocks, uses]
  | scope name items =>
      simp only [mapBlocks, uses]
      exact usesOf_mapBlocksOf f items
  | stray written => simp [mapBlocks]

theorem usesOf_mapBlocksOf (f : List Binding → List Binding) (items : List Item) :
    usesOf (mapBlocksOf f items) = usesOf items := by
  cases items with
  | nil => simp [mapBlocksOf]
  | cons item rest =>
      simp only [mapBlocksOf, usesOf]
      rw [uses_mapBlocks f item, usesOf_mapBlocksOf f rest]

end

mutual

theorem mapBlocks_congr (f g : List Binding → List Binding) (path : List Text) (item : Item)
    (h : ∀ block ∈ blocks path item, f block.2 = g block.2) :
    mapBlocks f item = mapBlocks g item := by
  cases item with
  | use u => simp [mapBlocks]
  | block bindings =>
      have hblock := h (path, bindings) (by simp [blocks])
      simpa [mapBlocks] using hblock
  | scope name items =>
      simp only [mapBlocks, scope.injEq, true_and]
      exact mapBlocksOf_congr f g (path ++ [name]) items (by simpa [blocks] using h)
  | stray written => simp [mapBlocks]

theorem mapBlocksOf_congr (f g : List Binding → List Binding) (path : List Text)
    (items : List Item) (h : ∀ block ∈ blocksOf path items, f block.2 = g block.2) :
    mapBlocksOf f items = mapBlocksOf g items := by
  cases items with
  | nil => simp [mapBlocksOf]
  | cons item rest =>
      simp only [mapBlocksOf, List.cons.injEq]
      constructor
      · exact mapBlocks_congr f g path item fun block hblock =>
          h block (by simp [blocksOf, hblock])
      · exact mapBlocksOf_congr f g path rest fun block hblock =>
          h block (by simp [blocksOf, hblock])

end

mutual

theorem mapBlocks_id (item : Item) : mapBlocks id item = item := by
  cases item with
  | use u => simp [mapBlocks]
  | block bindings => simp [mapBlocks]
  | scope name items =>
      simp only [mapBlocks, scope.injEq, true_and]
      exact mapBlocksOf_id items
  | stray written => simp [mapBlocks]

theorem mapBlocksOf_id (items : List Item) : mapBlocksOf id items = items := by
  cases items with
  | nil => simp [mapBlocksOf]
  | cons item rest =>
      simp only [mapBlocksOf, List.cons.injEq]
      exact ⟨mapBlocks_id item, mapBlocksOf_id rest⟩

end

theorem blocksOf_append (path : List Text) (items more : List Item) :
    blocksOf path (items ++ more) = blocksOf path items ++ blocksOf path more := by
  induction items with
  | nil => simp [blocksOf]
  | cons item rest ih => simp [blocksOf, ih]

theorem usesOf_append (items more : List Item) :
    usesOf (items ++ more) = usesOf items ++ usesOf more := by
  induction items with
  | nil => simp [usesOf]
  | cons item rest ih => simp [usesOf, ih]

theorem blocksOf_map_use (path : List Text) (us : List Use) : blocksOf path (us.map use) = [] := by
  induction us with
  | nil => simp [blocksOf]
  | cons u rest ih => simp [blocksOf, blocks, ih]

theorem usesOf_map_use (us : List Use) : usesOf (us.map use) = us := by
  induction us with
  | nil => simp [usesOf]
  | cons u rest ih => simp [usesOf, uses, ih]

theorem mapBlocksOf_append (h : List Binding → List Binding) (items more : List Item) :
    mapBlocksOf h (items ++ more) = mapBlocksOf h items ++ mapBlocksOf h more := by
  induction items with
  | nil => rfl
  | cons item rest ih => simp [mapBlocksOf, ih]

theorem mapBlocksOf_map_use (h : List Binding → List Binding) (us : List Use) :
    mapBlocksOf h (us.map use) = us.map use := by
  induction us with
  | nil => rfl
  | cons u rest ih => simp [mapBlocksOf, mapBlocks, ih]

mutual

theorem mapBlocks_mapBlocks (h k : List Binding → List Binding) (item : Item) :
    mapBlocks h (mapBlocks k item) = mapBlocks (h ∘ k) item := by
  cases item with
  | scope name items => simp [mapBlocks, mapBlocksOf_mapBlocksOf h k items]
  | _ => simp [mapBlocks]

theorem mapBlocksOf_mapBlocksOf (h k : List Binding → List Binding) (items : List Item) :
    mapBlocksOf h (mapBlocksOf k items) = mapBlocksOf (h ∘ k) items := by
  cases items with
  | nil => rfl
  | cons item rest =>
      simp [mapBlocksOf, mapBlocks_mapBlocks h k item, mapBlocksOf_mapBlocksOf h k rest]

end

end Item

namespace SourceUnit

@[simp] theorem blocks_mapBlocks (f : List Binding → List Binding) (u : SourceUnit) :
    (u.mapBlocks f).blocks = u.blocks.map fun block => (block.1, f block.2) :=
  Item.blocksOf_mapBlocksOf f [] u.items

@[simp] theorem allUses_mapBlocks (f : List Binding → List Binding) (u : SourceUnit) :
    (u.mapBlocks f).allUses = u.allUses :=
  Item.usesOf_mapBlocksOf f u.items

theorem mem_bindings {u : SourceUnit} {block : List Text × List Binding} {b : Binding}
    (hblock : block ∈ u.blocks) (hb : b ∈ block.2) : b ∈ u.bindings :=
  List.mem_flatMap.mpr ⟨block, hblock, hb⟩

theorem mapBlocks_eq_self (f : List Binding → List Binding) (u : SourceUnit)
    (h : ∀ block ∈ u.blocks, f block.2 = block.2) : u.mapBlocks f = u := by
  have hitems : Item.mapBlocksOf f u.items = Item.mapBlocksOf id u.items :=
    Item.mapBlocksOf_congr f id [] u.items h
  rw [Item.mapBlocksOf_id] at hitems
  simp [mapBlocks, hitems]

end SourceUnit

end Rust

end HostBindings

import HostBindings.Proofs.NameResolution

/-!
Imports of host types. A unit imports the host types that it refers to by a single name and does not
provide, each from the crate that exports it, in the order of crates and names. What a type refers
to stands at any depth of it, and what a unit holds stands in blocks at any depth of scopes. An
imported name is provided from then on, so a second round imports nothing.
-/

namespace HostBindings

namespace BindingType

/-- A type stands in another one, at any depth. -/
inductive Occurs (part : BindingType) : BindingType → Prop
  | here : Occurs part part
  | reference {inner : BindingType} (h : Occurs part inner) : Occurs part (.reference inner)
  | option {inner : BindingType} (h : Occurs part inner) : Occurs part (.option inner)
  | boxedSlice {inner : BindingType} (h : Occurs part inner) : Occurs part (.boxedSlice inner)
  | element {elements : List BindingType} {ty : BindingType} (hty : ty ∈ elements)
      (h : Occurs part ty) : Occurs part (.tuple elements)
  | parameter {params : List BindingType} {result : Option BindingType} {ty : BindingType}
      (hty : ty ∈ params) (h : Occurs part ty) : Occurs part (.callable params result)
  | result {params : List BindingType} {ty : BindingType} (h : Occurs part ty) :
      Occurs part (.callable params (some ty))

variable {part : BindingType}

theorem occurs_of_mem_walk {ty : BindingType} (h : part ∈ ty.walk) : Occurs part ty := by
  cases ty with
  | reference inner | option inner | boxedSlice inner =>
      rcases List.mem_cons.mp h with rfl | hinner
      · exact .here
      · constructor
        exact occurs_of_mem_walk hinner
  | tuple elements =>
      rcases List.mem_cons.mp h with rfl | hinner
      · exact .here
      · obtain ⟨ty, hty, hpart⟩ := mem_walkAll_iff.mp hinner
        exact .element hty (occurs_of_mem_walk hpart)
  | callable params result =>
      rcases List.mem_cons.mp h with rfl | hinner
      · exact .here
      · rcases List.mem_append.mp hinner with hparam | hresult
        · obtain ⟨ty, hty, hpart⟩ := mem_walkAll_iff.mp hparam
          exact .parameter hty (occurs_of_mem_walk hpart)
        · cases result with
          | none => cases hresult
          | some ty => exact .result (occurs_of_mem_walk hresult)
  | primitive | dynamic | named | absent | stray =>
      rw [List.mem_singleton.mp h]
      exact .here
termination_by ty

theorem mem_walk_self (ty : BindingType) : ty ∈ ty.walk := by
  cases ty <;> exact List.mem_cons_self

theorem mem_walk_iff_occurs {ty : BindingType} : part ∈ ty.walk ↔ Occurs part ty := by
  refine ⟨occurs_of_mem_walk, fun h => ?_⟩
  induction h with
  | here => exact mem_walk_self part
  | reference _ ih | option _ ih | boxedSlice _ ih => exact List.mem_cons_of_mem _ ih
  | element hty _ ih => exact List.mem_cons_of_mem _ (mem_walkAll_iff.mpr ⟨_, hty, ih⟩)
  | parameter hty _ ih =>
      exact List.mem_cons_of_mem _ (List.mem_append_left _ (mem_walkAll_iff.mpr ⟨_, hty, ih⟩))
  | result _ ih => exact List.mem_cons_of_mem _ (List.mem_append_right _ ih)

end BindingType

/-- A binding refers to a name: it is a type at some depth of a slot, or a base. -/
def Binding.RefersTo (b : Binding) (name : Text) : Prop :=
  (∃ ty ∈ b.types, BindingType.Occurs (.named [name]) ty) ∨ [name] ∈ b.attributes.bases

/-- The crate from which a host type is imported: the browser's where both crates export it. -/
inductive Catalog.ImportsFrom : HostCrate → Text → Prop
  | browser {name : Text} (h : name ∈ browserTypes) : ImportsFrom .browser name
  | language {name : Text} (h : name ∈ languageTypes) (hbrowser : name ∉ browserTypes) :
      ImportsFrom .language name

theorem Catalog.crateOf?_eq_some_iff {crate : HostCrate} {name : Text} :
    crateOf? name = some crate ↔ ImportsFrom crate name := by
  rw [crateOf?]
  constructor
  · intro h
    split at h
    · rename_i hbrowser
      obtain rfl := Option.some.inj h
      exact .browser (List.contains_iff_mem.mp hbrowser)
    · rename_i hbrowser
      split at h
      · rename_i hlanguage
        obtain rfl := Option.some.inj h
        exact .language (List.contains_iff_mem.mp hlanguage)
          fun hmem => hbrowser (List.contains_iff_mem.mpr hmem)
      · cases h
  · rintro (hbrowser | ⟨hlanguage, hbrowser⟩)
    · rw [if_pos (List.contains_iff_mem.mpr hbrowser)]
    · rw [if_neg (fun hmem => hbrowser (List.contains_iff_mem.mp hmem)),
        if_pos (List.contains_iff_mem.mpr hlanguage)]

namespace Rust

/-- A binding stands in an extern block among the items or in a scope among them, at any depth. -/
inductive Item.Holds (b : Binding) : List Item → Prop
  | block {items : List Item} {bindings : List Binding} (hitem : .block bindings ∈ items)
      (hb : b ∈ bindings) : Holds b items
  | scope {items inner : List Item} {name : Text} (hitem : .scope name inner ∈ items)
      (h : Holds b inner) : Holds b items

namespace Item

variable {b : Binding} {items more : List Item}

theorem Holds.mono (h : Holds b items) (hsubset : items ⊆ more) : Holds b more := by
  cases h with
  | block hitem hb => exact .block (hsubset hitem) hb
  | scope hitem h => exact .scope (hsubset hitem) h

mutual

theorem holds_of_mem_blocks {path : List Text} {item : Item} {block : List Text × List Binding}
    (hblock : block ∈ blocks path item) (hb : b ∈ block.2) : Holds b [item] := by
  cases item with
  | use | stray => simp [blocks] at hblock
  | block bindings =>
      rw [blocks, List.mem_singleton] at hblock
      rw [hblock] at hb
      exact .block List.mem_cons_self hb
  | scope name inner =>
      rw [blocks] at hblock
      exact .scope List.mem_cons_self (holds_of_mem_blocksOf hblock hb)

theorem holds_of_mem_blocksOf {path : List Text} {items : List Item}
    {block : List Text × List Binding} (hblock : block ∈ blocksOf path items) (hb : b ∈ block.2) :
    Holds b items := by
  cases items with
  | nil => simp [blocksOf] at hblock
  | cons item rest =>
      rw [blocksOf, List.mem_append] at hblock
      rcases hblock with hfirst | hrest
      · exact (holds_of_mem_blocks hfirst hb).mono (by simp)
      · exact (holds_of_mem_blocksOf hrest hb).mono (List.subset_cons_self _ _)

end

theorem blocks_subset_blocksOf {path : List Text} {item : Item} (h : item ∈ items) :
    blocks path item ⊆ blocksOf path items := by
  induction items with
  | nil => cases h
  | cons first rest ih =>
      rw [blocksOf]
      rcases List.mem_cons.mp h with rfl | hrest
      · exact List.subset_append_left _ _
      · exact List.subset_append_of_subset_right _ (ih hrest)

theorem Holds.exists_block (h : Holds b items) (path : List Text) :
    ∃ block ∈ blocksOf path items, b ∈ block.2 := by
  induction h generalizing path with
  | @block items bindings hitem hb =>
      exact ⟨(path, bindings), blocks_subset_blocksOf hitem (by simp [blocks]), hb⟩
  | @scope items inner name hitem _ ih =>
      obtain ⟨block, hblock, hb⟩ := ih (path ++ [name])
      exact ⟨block, blocks_subset_blocksOf hitem (by rwa [blocks]), hb⟩

end Item

/-- The order of uses: by path, and by name where the paths are the same. -/
def Use.Before (use other : Use) : Prop :=
  use.path < other.path ∨ use.path = other.path ∧ use.name < other.name

namespace SourceUnit

variable {u : SourceUnit} {name : Text}

theorem mem_bindings_iff {b : Binding} : b ∈ u.bindings ↔ Item.Holds b u.items := by
  constructor
  · intro h
    obtain ⟨block, hblock, hb⟩ := List.mem_flatMap.mp h
    exact Item.holds_of_mem_blocksOf hblock hb
  · intro h
    obtain ⟨block, hblock, hb⟩ := h.exists_block []
    exact mem_bindings hblock hb

/-- Some binding of the unit refers to the name. -/
def RefersTo (u : SourceUnit) (name : Text) : Prop :=
  ∃ b, Item.Holds b u.items ∧ b.RefersTo name

/-- The unit has a type of the name, or a use at its root binds it. -/
def Provides (u : SourceUnit) (name : Text) : Prop :=
  (∃ b, Item.Holds b u.items ∧ b.isHostType = true ∧ b.name = name) ∨
    ∃ use, Item.use use ∈ u.items ∧ use.boundName = some name

theorem mem_namesIn_iff {b : Binding} : name ∈ namesIn b ↔ b.RefersTo name := by
  have hsimple : ∀ node : BindingType, node.simpleName? = some name ↔ node = .named [name] := by
    intro node
    rw [BindingType.simpleName?.eq_def]
    split <;> simp_all
  rw [namesIn, List.mem_append, List.mem_filterMap, List.mem_filterMap, Binding.RefersTo]
  refine or_congr ⟨?_, ?_⟩ ⟨?_, ?_⟩
  · rintro ⟨node, hnode, hname⟩
    obtain ⟨ty, hty, hwalk⟩ := List.mem_flatMap.mp hnode
    rw [(hsimple node).mp hname] at hwalk
    exact ⟨ty, hty, BindingType.mem_walk_iff_occurs.mp hwalk⟩
  · rintro ⟨ty, hty, hoccurs⟩
    exact ⟨_, List.mem_flatMap.mpr ⟨ty, hty, BindingType.mem_walk_iff_occurs.mpr hoccurs⟩, rfl⟩
  · rintro ⟨base, hmem, hname⟩
    split at hname
    · rwa [← Option.some.inj hname]
    · cases hname
  · intro hmem
    exact ⟨[name], hmem, rfl⟩

theorem mem_referencedNames_iff : name ∈ u.referencedNames ↔ u.RefersTo name := by
  rw [referencedNames, Ordered.mem_ofList, List.mem_flatMap]
  simp only [mem_bindings_iff, mem_namesIn_iff, RefersTo]

theorem mem_declaredNames_iff : name ∈ u.declaredNames ↔ u.Provides name := by
  have huses : ∀ use, use ∈ u.rootUses ↔ Item.use use ∈ u.items := by
    intro use
    rw [rootUses, List.mem_filterMap]
    constructor
    · rintro ⟨item, hitem, huse⟩
      cases item with
      | use own => rwa [← Option.some.inj huse]
      | _ => cases huse
    · intro hitem
      exact ⟨_, hitem, rfl⟩
  rw [declaredNames, Ordered.mem_ofList, List.mem_append, List.mem_filterMap]
  simp only [List.mem_map, List.mem_filter, mem_bindings_iff, and_assoc, huses, Provides]

theorem mem_hostUses_iff_imports {options : Options} {use : Use} :
    use ∈ u.hostUses options ↔ ∃ crate name, use = hostUse (options.crateName crate) name ∧
      u.RefersTo name ∧ ¬ u.Provides name ∧ Catalog.ImportsFrom crate name := by
  simp only [← mem_referencedNames_iff, ← mem_declaredNames_iff, ← Catalog.crateOf?_eq_some_iff]
  exact mem_hostUses_iff

theorem before_hostUses (options : Options) (u : SourceUnit) :
    (u.hostUses options).Pairwise Use.Before := by
  rw [hostUses, hostUsesBeyond, List.pairwise_filterMap]
  refine (Ordered.pairwise_ofList _).imp ?_
  intro key key' hlt use huse use' huse'
  split at huse
  · rename_i crate name
    split at huse'
    · rename_i crate' name'
      obtain rfl := Option.some.inj huse
      obtain rfl := Option.some.inj huse'
      simp only [List.cons_lt_cons_iff, List.not_lt_nil, and_false, or_false] at hlt
      rcases hlt with hcrate | ⟨rfl, hname⟩
      · exact Or.inl (by simp [hostUse, List.cons_lt_cons_iff, hcrate])
      · exact Or.inr ⟨rfl, hname⟩
    · cases huse'
  · cases huse

section

variable {options : Options}

theorem holds_addHostUses {b : Binding} :
    Item.Holds b (u.addHostUses options).items ↔ Item.Holds b u.items := by
  rw [← mem_bindings_iff, ← mem_bindings_iff, bindings, bindings, blocks_addHostUses]

theorem refersTo_addHostUses : (u.addHostUses options).RefersTo name ↔ u.RefersTo name := by
  simp only [RefersTo, holds_addHostUses]

theorem provides_addHostUses : (u.addHostUses options).Provides name ↔
    u.Provides name ∨ ∃ use ∈ u.hostUses options, use.boundName = some name := by
  have huses : ∀ use, Item.use use ∈ (u.addHostUses options).items ↔
      use ∈ u.hostUses options ∨ Item.use use ∈ u.items := by
    simp [addHostUses]
  simp only [Provides, holds_addHostUses, huses, or_and_right, exists_or]
  rw [or_assoc, or_comm (a := ∃ use, use ∈ _ ∧ _)]

theorem hostUses_addHostUses (later : Options) : (u.addHostUses options).hostUses later = [] := by
  rw [List.eq_nil_iff_forall_not_mem]
  intro use huse
  obtain ⟨crate, name, _, hreferred, hprovided, hcrate⟩ := mem_hostUses_iff_imports.mp huse
  rw [refersTo_addHostUses] at hreferred
  rw [provides_addHostUses, not_or] at hprovided
  have himport : hostUse (options.crateName crate) name ∈ u.hostUses options :=
    mem_hostUses_iff_imports.mpr ⟨crate, name, rfl, hreferred, hprovided.1, hcrate⟩
  exact hprovided.2 ⟨_, himport, rfl⟩

theorem addHostUses_addHostUses (later : Options) :
    (u.addHostUses options).addHostUses later = u.addHostUses options := by
  rw [addHostUses, hostUses_addHostUses]
  rfl

end

/-- The imports of a unit stand in strict order, import just the host types that it refers to and
does not provide, each from the first crate that exports it, and are not added a second time. -/
theorem hostUses_exact (options : Options) (u : SourceUnit) :
    (u.hostUses options).Pairwise Use.Before ∧
      (∀ use, use ∈ u.hostUses options ↔
        ∃ crate name, use = hostUse (options.crateName crate) name ∧
          u.RefersTo name ∧ ¬ u.Provides name ∧ Catalog.ImportsFrom crate name) ∧
      ∀ later : Options,
        (u.addHostUses options).addHostUses later = u.addHostUses options :=
  ⟨before_hostUses options u, fun _ => mem_hostUses_iff_imports, addHostUses_addHostUses⟩

end SourceUnit

end Rust

end HostBindings

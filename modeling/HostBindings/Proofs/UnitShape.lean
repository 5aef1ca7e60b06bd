import HostBindings.Proofs.PrintedUnits

/-!
The shape of a compiled unit. Uses come first, then one scope module for each name of a namespace,
then at most one extern block; a scope starts with a use of the names around it and goes on in the
same way. Composition adds to units of this shape only at the places where the shape leaves room,
and the passes that finish a unit neither add blocks nor empty any.
-/

namespace HostBindings

open Rust

namespace Rust.Item

theorem addTo_use_cons (u : Use) (items : List Item) (item : Item) :
    addTo (.use u :: items) item = .use u :: addTo items item := by
  cases item with
  | use _ => rfl
  | stray _ => rfl
  | block bindings => rfl
  | scope name inner =>
      have hhas : hasScope name (.use u :: items) = hasScope name items := rfl
      rw [addTo, addTo, hhas]
      split <;> rfl

theorem addAllTo_use_cons (u : Use) (items more : List Item) :
    addAllTo (.use u :: items) more = .use u :: addAllTo items more := by
  induction more generalizing items with
  | nil => rfl
  | cons item rest ih => rw [addAllTo, addTo_use_cons, ih, addAllTo]

end Rust.Item

namespace Composition

open Source Outcome

/-- Scope modules, then at most one extern block, which is not empty. In each scope the use of all
names around it stands before items that are arranged in the same way. -/
inductive Arranged : List Item → Prop
  | nil : Arranged []
  | block {bindings : List Binding} (h : bindings ≠ []) : Arranged [.block bindings]
  | scope {name : Text} {inner rest : List Item} (hinner : Arranged inner)
      (hrest : Arranged rest) : Arranged (.scope name (.use enclosingUse :: inner) :: rest)

namespace Arranged

variable {items : List Item}

theorem addBindings (h : Arranged items) (bindings : List Binding) :
    Arranged (Item.addBindings bindings items) := by
  induction h with
  | nil =>
      rw [Item.addBindings]
      split
      · exact nil
      · rename_i hsome
        exact block fun hnil => hsome (by rw [hnil]; rfl)
  | block hblock => exact block (List.append_ne_nil_of_left_ne_nil hblock _)
  | scope hinner _ _ ih => exact scope hinner ih

theorem insertBeforeBlock (h : Arranged items) {name : Text} {inner : List Item}
    (hinner : Arranged inner) :
    Arranged (Item.insertBeforeBlock (.scope name (.use enclosingUse :: inner)) items) := by
  induction h with
  | nil => exact scope hinner nil
  | block hblock => exact scope hinner (block hblock)
  | scope hother _ _ ih => exact scope hother ih

theorem mapScope (h : Arranged items) (name : Text) {f : List Item → List Item}
    (hf : ∀ inner, Arranged inner →
      ∃ grown, f (.use enclosingUse :: inner) = .use enclosingUse :: grown ∧ Arranged grown) :
    Arranged (Item.mapScope name f items) := by
  induction h with
  | nil => exact nil
  | block hblock => exact block hblock
  | @scope other inner rest hinner _ _ ih =>
      rw [Item.mapScope, List.map_cons, ← Item.mapScope]
      dsimp only
      split
      · obtain ⟨grown, hgrown, harranged⟩ := hf inner hinner
        rw [hgrown]
        exact scope harranged ih
      · exact scope hinner ih

theorem mapBlocksOf (h : Arranged items) {f : List Binding → List Binding}
    (hf : ∀ bindings, bindings ≠ [] → f bindings ≠ []) : Arranged (Item.mapBlocksOf f items) := by
  induction h with
  | nil => exact nil
  | block hblock => exact block (hf _ hblock)
  | scope _ _ ihinner ihrest => exact scope ihinner ihrest

theorem ne_nil_of_mem_blocksOf (h : Arranged items) {path : List Text}
    {block : List Text × List Binding} (hblock : block ∈ Item.blocksOf path items) :
    block.2 ≠ [] := by
  induction h generalizing path with
  | nil => cases hblock
  | block hbindings =>
      rw [List.mem_singleton.mp hblock]
      exact hbindings
  | scope _ _ ihinner ihrest =>
      rcases List.mem_append.mp hblock with hinner | hrest
      · exact ihinner hinner
      · exact ihrest hrest

theorem of_mem_usesOf (h : Arranged items) {use : Use} (huse : use ∈ Item.usesOf items) :
    use = enclosingUse := by
  induction h with
  | nil => cases huse
  | block _ => cases huse
  | scope _ _ ihinner ihrest =>
      rcases List.mem_append.mp huse with hinner | hrest
      · rcases List.mem_cons.mp hinner with rfl | hinner
        · rfl
        · exact ihinner hinner
      · exact ihrest hrest

theorem addAllTo {more : List Item} (hmore : Arranged more) (h : Arranged items) :
    Arranged (Item.addAllTo items more) := by
  induction hmore generalizing items with
  | nil => exact h
  | block hblock => exact h.addBindings _
  | @scope name inner rest hinner _ ihinner ihrest =>
      apply ihrest
      rw [Item.addTo]
      -- both scopes start with the same use, and it stands once in what they join to
      split
      · apply h.mapScope name
        intro existing hexisting
        refine ⟨Item.addAllTo existing inner, ?_, ihinner hexisting⟩
        rw [Item.addAllTo, Item.addTo, Item.addAllTo_use_cons]
      · exact h.insertBeforeBlock hinner

theorem addTo_scopeOf (h : Arranged items) (options : Options) (name : Text) {inner : List Item}
    (hinner : Arranged inner) :
    Arranged (Item.addTo items (scopeOf options name inner)) := by
  have hbody : Arranged (Item.enclose name inner) := by
    apply hinner.mapBlocksOf
    exact fun bindings hbindings hnil => hbindings (List.map_eq_nil_iff.mp hnil)
  have hscope : Arranged [scopeOf options name inner] := .scope hbody .nil
  exact addAllTo hscope h

end Arranged

theorem kept_arranged (options : Options) : Kept options Arranged where
  nil := .nil
  lowered h _ := h.addBindings _
  scope name h hinner := h.addTo_scopeOf options name hinner

theorem kept_uniqueScopes (options : Options) : Kept options Item.UniqueScopes where
  nil := Item.uniqueScopes_nil
  lowered h _ := Item.uniqueScopes_of_scopes_eq h (Item.scopes_addBindings _ _)
  scope name h hinner := (Item.grows_addTo h _ (uniqueScopes_scopeOf options name hinner)).unique

/-- Items that are arranged, in which no two scope modules next to each other share a name. -/
structure WellShaped (items : List Item) : Prop where
  arranged : Arranged items
  unique : Item.UniqueScopes items

theorem WellShaped.mapBlocksOf {items : List Item} (h : WellShaped items)
    {f : List Binding → List Binding} (hf : ∀ bindings, bindings ≠ [] → f bindings ≠ []) :
    WellShaped (Item.mapBlocksOf f items) :=
  ⟨h.arranged.mapBlocksOf hf, h.unique.mapBlocksOf f⟩

theorem wellShaped_composeDeclarations {options : Options} {declarations : List Declaration}
    {items : List Item}
    (h : (composeDeclarations options [] declarations).result = .ok items) :
    WellShaped items :=
  ⟨(kept_arranged options).composeDeclarations .nil h,
    (kept_uniqueScopes options).composeDeclarations Item.uniqueScopes_nil h⟩

theorem wellShaped_encloseInScripts (m : Module) {items : List Item} (h : WellShaped items) :
    WellShaped (encloseInScripts m items) := by
  rw [encloseInScripts]
  induction scriptNames m.body generalizing items with
  | nil => exact h
  | cons name rest ih =>
      apply ih
      apply h.mapBlocksOf
      exact fun bindings hbindings hnil => hbindings (List.map_eq_nil_iff.mp hnil)

theorem isEmpty_bindings {items : List Item} (h : Arranged items) :
    (SourceUnit.mk items).bindings.isEmpty = (Item.blocksOf [] items).isEmpty := by
  rw [SourceUnit.bindings, SourceUnit.blocks]
  cases hblocks : Item.blocksOf [] items with
  | nil => rfl
  | cons block rest =>
      have hblock : block.2 ≠ [] :=
        h.ne_nil_of_mem_blocksOf (hblocks ▸ List.mem_cons_self)
      simp [hblock]

theorem preludeItems_eq {options : Options} {items : List Item} (h : Arranged items) :
    preludeItems options items =
      (if (Item.blocksOf [] items).isEmpty then [] else [preludeUse options]).map Item.use := by
  rw [preludeItems, isEmpty_bindings h]
  split <;> rfl

/-- What tells the use of an import or export from that of the binding attribute: it is public, it
has an alias, or it starts at the unit itself. -/
def IsLinkage (use : Use) : Prop :=
  use.isPublic = true ∨ use.rename.isSome = true ∨ use.path.head? = some "self"

variable {options : Options}

theorem isLinkage_aliasUse {a : ImportAlias} {use : Use}
    (h : aliasUse? options a = .ok (some use)) : IsLinkage use := by
  rw [aliasUse?] at h
  split at h
  · cases h
  · dsimp only at h
    split at h
    · cases h
    · split at h
      · cases h
      · obtain rfl := Option.some.inj (Except.ok.inj h)
        exact Or.inr (Or.inl rfl)
  · split at h
    · cases h
    · obtain rfl := Option.some.inj (Except.ok.inj h)
      exact Or.inr (Or.inr rfl)

theorem gives_linkage_link (statement : Statement) :
    (link options statement).Gives fun uses => ∀ use ∈ uses, IsLinkage use := by
  rw [link.eq_def]
  split
  · apply gives_linkAll
    intro s
    rw [linkImport]
    split
    · apply gives_pure
      rintro _ ⟨⟩
      exact Or.inl rfl
    · apply gives_pure
      rintro _ ⟨⟩
      exact Or.inl rfl
    · exact gives_drop _ _
  · apply gives_linkAll
    intro s
    rw [linkExport.eq_def]
    split
    · exact gives_drop _ _
    · split
      · apply gives_pure
        intro use huse
        split at huse
        · cases huse
        · obtain rfl := Option.some.inj huse
          exact Or.inl rfl
      · apply gives_pure
        rintro _ ⟨⟩
        exact Or.inl rfl
  · exact gives_pure (List.forall_mem_singleton.mpr (Or.inl rfl))
  · exact gives_pure (List.forall_mem_singleton.mpr (Or.inl rfl))
  · apply gives_linkAll
    intro a
    rw [linkAlias]
    split
    · exact gives_breakOff _
    · rename_i use huse
      apply gives_pure
      rintro _ ⟨⟩
      exact isLinkage_aliasUse huse
    · exact gives_drop _ _
  · exact gives_pure (List.forall_mem_nil _)

theorem preludeUse_not_isLinkage (hself : options.bindgenPath.head? ≠ some "self") :
    ¬ IsLinkage (preludeUse options) := by
  rintro (h | h | h)
  · cases h
  · cases h
  · rw [preludeUse] at h
    cases hpath : options.bindgenPath with
    | nil =>
        rw [hpath] at h
        exact absurd (Option.some.inj h) (by decide)
    | cons segment rest =>
        rw [hpath] at h hself
        exact hself h

theorem preludeUse_ne_hostUse (habsolute : options.bindgenPath ≠ [[]]) (crate name : Text) :
    preludeUse options ≠ SourceUnit.hostUse crate name := by
  intro h
  have hpath : options.bindgenPath ++ [Text.ofString "prelude"] = [[]] ++ [crate] :=
    congrArg Use.path h
  exact habsolute (List.append_inj_left' hpath rfl)

end Composition

namespace Rust

theorem Collision.resolve_ne_nil {bindings : List Binding} (h : bindings ≠ []) :
    Collision.resolve bindings ≠ [] := by
  obtain ⟨b, rest, rfl⟩ := List.exists_cons_of_ne_nil h
  have hbecomes := (invariant_foldl_step (b :: rest)).becomes
  -- nothing stands before the first binding of a block, so it stays
  have hfirst : survivors [] (b :: rest) = b :: survivors ([] ++ [b]) rest := by
    rw [survivors, List.any_nil, Bool.and_false]
    rfl
  intro hnil
  rw [resolve] at hnil
  rw [hfirst, hnil] at hbecomes
  cases hbecomes

end Rust

theorem items_finish (options : Options) (u : SourceUnit) :
    (finish options u).items =
      (if options.emitCatalogUses then u.resolveCollisions.legalize.hostUses options else []).map
        Item.use ++ Item.mapBlocksOf (finishBlock u.resolveCollisions.customPaths) u.items := by
  have hlegalize : u.resolveCollisions.legalize.items =
      Item.mapBlocksOf (finishBlock u.resolveCollisions.customPaths) u.items := by
    simp only [SourceUnit.legalize, SourceUnit.legalizeWith, SourceUnit.mapBlocks,
      SourceUnit.resolveCollisions, Item.mapBlocksOf_mapBlocksOf]
    rfl
  rw [finish]
  split
  · rw [SourceUnit.addHostUses, hlegalize]
  · exact hlegalize

theorem finishBlock_ne_nil (custom : List (List Text)) {bindings : List Binding}
    (h : bindings ≠ []) : finishBlock custom bindings ≠ [] := by
  rw [finishBlock]
  exact fun hnil => Collision.resolve_ne_nil h (List.map_eq_nil_iff.mp hnil)

/-- The shape of the unit of a module. At its root stand the imports of host types, the uses of
imports and exports, the use of the binding attribute if there is an extern block, and then items
that are arranged as in every scope. Unless the path of the binding attribute leads into the unit
itself or is empty, no other use is that of the binding attribute. -/
def Shaped (options : Options) (m : Source.Module) (u : SourceUnit) : Prop :=
  ∃ hosts links body,
    u.items = (hosts ++ links ++
      if u.blocks.isEmpty then [] else [Composition.preludeUse options]).map Item.use ++ body ∧
    Composition.WellShaped body ∧
    (Composition.uses options m.body).result = .ok links ∧
    (∀ use ∈ hosts, ∃ crate name, use = SourceUnit.hostUse crate name) ∧
    (options.bindgenPath.head? ≠ some "self" → options.bindgenPath ≠ [[]] →
      u.allUses.count (Composition.preludeUse options) = if u.blocks.isEmpty then 0 else 1)

open HostBindings.Composition in
/-- Every compiled unit has its shape, however its namespaces were reopened and nested. -/
theorem compileModule_shape (options : Options) (m : Source.Module) (u : SourceUnit)
    (h : (compileModule options m).result = .ok u) : Shaped options m u := by
  obtain ⟨composed, hcomposed, rfl⟩ := (compileModule_eq_ok_iff options m u).mp h
  obtain ⟨links, items, hlinks, hitems, hunit⟩ := compose_eq_ok_iff.mp hcomposed
  have hshape := wellShaped_encloseInScripts m (wellShaped_composeDeclarations hitems)
  generalize encloseInScripts m items = enclosed at hunit hshape
  rw [preludeItems_eq hshape.arranged, ← List.map_append] at hunit
  have hroot := congrArg SourceUnit.items hunit
  dsimp only at hroot
  have hblocks : (finish options composed).blocks.isEmpty =
      (Item.blocksOf [] enclosed).isEmpty := by
    rw [blocks_finish, List.isEmpty_map, SourceUnit.blocks, hroot, Item.blocksOf_append,
      Item.blocksOf_map_use, List.nil_append]
  have hbody : WellShaped
      (Item.mapBlocksOf (finishBlock composed.resolveCollisions.customPaths) enclosed) :=
    hshape.mapBlocksOf fun _ => finishBlock_ne_nil _
  have hfinished := items_finish options composed
  generalize hhosts : (if options.emitCatalogUses then
    composed.resolveCollisions.legalize.hostUses options else []) = hosts at hfinished
  generalize finishBlock composed.resolveCollisions.customPaths = block at hfinished hbody
  rw [hroot, Item.mapBlocksOf_append, Item.mapBlocksOf_map_use, ← hblocks, ← List.append_assoc,
    ← List.map_append, ← List.append_assoc] at hfinished
  have hhost : ∀ use ∈ hosts, ∃ crate name, use = SourceUnit.hostUse crate name := by
    intro use huse
    rw [← hhosts] at huse
    split at huse
    · exact SourceUnit.exists_of_mem_hostUses huse
    · cases huse
  refine ⟨hosts, links, _, hfinished, hbody, hlinks, hhost, ?_⟩
  intro hself habsolute
  have hnotHost : preludeUse options ∉ hosts := by
    intro hmem
    obtain ⟨crate, name, heq⟩ := hhost _ hmem
    exact preludeUse_ne_hostUse habsolute crate name heq
  have hnotLink : preludeUse options ∉ links := fun hmem =>
    preludeUse_not_isLinkage hself
      (gives_uses_of_link gives_linkage_link m.body links hlinks _ hmem)
  have hnotBody : preludeUse options ∉ Item.usesOf (Item.mapBlocksOf block enclosed) := by
    intro hmem
    exact Option.some_ne_none _ (congrArg Use.name (hbody.arranged.of_mem_usesOf hmem))
  rw [SourceUnit.allUses, hfinished, Item.usesOf_append, Item.usesOf_map_use, List.count_append,
    List.count_append, List.count_append, List.count_eq_zero_of_not_mem hnotHost,
    List.count_eq_zero_of_not_mem hnotLink, List.count_eq_zero_of_not_mem hnotBody]
  split
  · rfl
  · rw [List.count_singleton_self]

/-- A namespace that is opened again inside a namespace that is opened again, around a function. -/
def reopenedModule : Source.Module :=
  let space (name : Text) (body : List Source.Declaration) : Source.Declaration :=
    .space ⟨name, .block (body.map .declaration) none, false, false, none⟩
  let function (name : Text) : Source.Declaration := .function ⟨some name, ⟨[], none, []⟩, none⟩
  { body := [
      .declaration (space "Outer" [function "f", space "Inner" [function "g"]]),
      .declaration (function "h"),
      .declaration (space "Outer" [space "Inner" [], space "Other" [],
        space "Inner" [function "k"]])] }

theorem reopenedModule_shape :
    ∃ u, (compileModule .standard reopenedModule).result = .ok u ∧
      (u.blocks.map fun block => (block.1, block.2.map (·.name))) =
        ([(["OuterMod", "InnerMod"], ["g", "k"]), (["OuterMod"], ["f"]), ([], ["h"])] :
          List (List Text × List Text)) ∧
      Shaped .standard reopenedModule u :=
  ⟨_, rfl, rfl, compileModule_shape .standard reopenedModule _ rfl⟩

end HostBindings

import HostBindings.Proofs.ExportLinkage
import HostBindings.Proofs.FoldedTypes
import HostBindings.Proofs.HostSurface

/-!
The names at the root of a unit. Uses bind names there for imports, for exports, for the binding
attribute and for host types; next to them stand the types and the scope modules. Each name is
sanitized on its own, and only the bindings of a block are kept apart, so a name is bound once just
if the source asks for it once. The imports of host types keep out of the way of all other uses and
of the types.
-/

namespace HostBindings

open Source Rust Outcome Lowering HostBindings.Composition

namespace Source

/-- The names that a specifier of an import binds: none for a whole module, which has no use. -/
def ImportSpecifier.boundNames (s : ImportSpecifier) : List Text :=
  if s.kind = .whole then [] else [Identifier.rustName s.localName]

/-- The names that a specifier of an export binds. A declaration that is exported under its own name
needs no use. -/
def ExportSpecifier.boundNames (source : Option Text) (s : ExportSpecifier) : List Text :=
  if s.kind = .whole || (source.isNone && keepsName s) then []
  else [Identifier.rustName (s.exported.getD s.name)]

def ImportAlias.boundNames (options : Options) (a : ImportAlias) : List Text :=
  match aliasUse? options a with
  | .ok (some _) => [Identifier.rustName a.name]
  | _ => []

/-- The names that a statement binds at the root, by its uses. -/
def Statement.boundNames (options : Options) : Statement → List Text
  | .importDeclaration d => d.specifiers.flatMap ImportSpecifier.boundNames
  | .exportList d => d.specifiers.flatMap (ExportSpecifier.boundNames d.source)
  | .importAlias a => a.boundNames options
  | .exportDefaultName _ _ => ["default"]
  | _ => []

/-- The names that a module binds at the root of its unit, by its imports and exports and by the use
of the binding attribute, which a unit with bindings has. -/
def Module.rootNames (options : Options) (m : Module) : List Text :=
  m.body.flatMap (Statement.boundNames options) ++
    (if (placedAll options m.visibleDeclarations).isEmpty then [] else ["wasm_bindgen"] : List Text)

/-- A module declares something that has this name at the root of its unit: a type, under its Rust
name, or a namespace, as a scope module. -/
inductive DeclaresAtRoot (options : Options) (m : Module) : Text → Prop
  | type {spaces : List Text} {raw : Text} (h : TypeAt options m [] spaces raw) :
      DeclaresAtRoot options m (Identifier.rustName raw)
  | scope {raw : Text} {statements : List Statement} {blockLoc loc : Option Location}
      (h : .space ⟨raw, .block statements blockLoc, false, false, loc⟩ ∈ m.visibleDeclarations) :
      DeclaresAtRoot options m (options.scopeName raw)

end Source

namespace Rust.SourceUnit

/-- The names that the uses at the root bind. -/
def rootNames (u : SourceUnit) : List Text := u.rootUses.filterMap Use.boundName

/-- No two uses at the root bind one name, and none binds that of a type or of a scope module
there. -/
structure BindsOnce (u : SourceUnit) : Prop where
  uses : u.rootNames.Nodup
  types : ∀ name ∈ u.rootNames, ∀ block ∈ u.blocks, block.1 = [] →
    name ∉ Binding.hostTypeNames block.2
  scopes : ∀ name ∈ u.rootNames, name ∉ (Item.scopes u.items).map (·.1)

end Rust.SourceUnit

namespace Composition

theorem boundNames_linkAll {α : Type} {f : α → Outcome (Option Use)} {names : α → List Text}
    (hf : ∀ a use?, (f a).result = .ok use? → use?.toList.filterMap Use.boundName = names a)
    {as : List α} {links : List Use} (h : (linkAll f as).result = .ok links) :
    links.filterMap Use.boundName = as.flatMap names := by
  induction as generalizing links with
  | nil =>
      rw [← Except.ok.inj h]
      rfl
  | cons a rest ih =>
      simp only [linkAll, result_bind_eq_ok_iff] at h
      obtain ⟨head, hhead, tail, htail, hreturn⟩ := h
      rw [← Except.ok.inj hreturn, List.filterMap_append, hf a head hhead, ih htail,
        List.flatMap_cons]

theorem boundNames_linkImport (path : List Text) (source : Text) (s : ImportSpecifier)
    (use? : Option Use) (h : (linkImport path source s).result = .ok use?) :
    use?.toList.filterMap Use.boundName = s.boundNames := by
  obtain ⟨kind, localName, imported, loc⟩ := s
  cases kind with
  | named =>
      rw [← Except.ok.inj h]
      simp [ImportSpecifier.boundNames, boundName_useOf]
  | default =>
      rw [← Except.ok.inj h]
      have hbound : Use.boundName
          { path, name := some "default", rename := some (Identifier.rustName localName) } =
          some (Identifier.rustName localName) :=
        Use.boundName_of_rename rfl rfl (Identifier.rustName_ne_nil localName)
      simp [ImportSpecifier.boundNames, hbound]
  | whole =>
      rw [← Except.ok.inj h]
      rfl

theorem boundName_useOf_exported (path : List Text) (s : ExportSpecifier) :
    (useOf path s.name s.exported true).boundName =
      some (Identifier.rustName (s.exported.getD s.name)) := by
  cases hexported : s.exported with
  | none => rfl
  | some exported => exact boundName_useOf path s.name exported true

theorem boundNames_linkExport (options : Options) (source : Option Text) (s : ExportSpecifier)
    (use? : Option Use) (h : (linkExport options source s).result = .ok use?) :
    use?.toList.filterMap Use.boundName = s.boundNames source := by
  rw [linkExport.eq_def] at h
  rw [ExportSpecifier.boundNames]
  split at h
  · rename_i hwhole
    rw [← Except.ok.inj h]
    simp [hwhole]
  · rename_i hwhole
    cases source with
    | none =>
        rw [← Except.ok.inj h]
        cases hkeeps : keepsName s <;> simp [hwhole, boundName_useOf_exported]
    | some source =>
        rw [← Except.ok.inj h]
        simp [hwhole, boundName_useOf_exported]

theorem boundNames_linkAlias (options : Options) (a : ImportAlias) (use? : Option Use)
    (h : (linkAlias options a).result = .ok use?) :
    use?.toList.filterMap Use.boundName = a.boundNames options := by
  rw [linkAlias] at h
  rw [ImportAlias.boundNames]
  split at h
  · cases h
  · rename_i use huse
    rw [← Except.ok.inj h, huse]
    simp [boundName_of_aliasUse huse]
  · rename_i huse
    rw [← Except.ok.inj h, huse]
    rfl

theorem boundNames_link (options : Options) (s : Statement) {links : List Use}
    (h : (link options s).result = .ok links) :
    links.filterMap Use.boundName = s.boundNames options := by
  cases s with
  | importDeclaration d => exact boundNames_linkAll (boundNames_linkImport _ _) h
  | exportList d => exact boundNames_linkAll (boundNames_linkExport _ _) h
  | importAlias a =>
      have hnames := boundNames_linkAll (boundNames_linkAlias options) h
      rwa [List.flatMap_singleton] at hnames
  | _ =>
      rw [← Except.ok.inj h]
      rfl

theorem boundNames_uses {options : Options} {body : List Statement} {links : List Use}
    (h : (uses options body).result = .ok links) :
    links.filterMap Use.boundName = body.flatMap (Statement.boundNames options) := by
  induction body generalizing links with
  | nil =>
      rw [← Except.ok.inj h]
      rfl
  | cons s rest ih =>
      simp only [uses, result_bind_eq_ok_iff] at h
      obtain ⟨head, hhead, tail, htail, hreturn⟩ := h
      rw [← Except.ok.inj hreturn, List.filterMap_append, boundNames_link options s hhead, ih htail,
        List.flatMap_cons]

theorem isEmpty_bindings_of_compose {options : Options} {m : Module} {u : SourceUnit}
    (h : (compose options m).result = .ok u) :
    u.bindings.isEmpty = (placedAll options m.visibleDeclarations).isEmpty := by
  obtain ⟨more, hmore, hperm⟩ := placed_of_compose h
  have hlength : u.bindings.length = (placedAll options m.visibleDeclarations).length := by
    rw [hmore.length_eq, ← hperm.length_eq,
      ← List.length_map (fun place : List Text × Binding => place.2), SourceUnit.placed,
      ← Item.allBindings_eq]
    rfl
  rw [Bool.eq_iff_iff, List.isEmpty_iff, List.isEmpty_iff, ← List.length_eq_zero_iff,
    ← List.length_eq_zero_iff, hlength]

/-- The uses at the root of a composed unit bind the names that the module binds. -/
theorem rootNames_of_compose {options : Options} {m : Module} {u : SourceUnit}
    (h : (compose options m).result = .ok u) : u.rootNames = m.rootNames options := by
  have hempty := isEmpty_bindings_of_compose h
  obtain ⟨links, items, hlinks, hitems, rfl⟩ := compose_eq_ok_iff.mp h
  have hshape := wellShaped_encloseInScripts m (wellShaped_composeDeclarations hitems)
  have hbindings : (SourceUnit.mk (encloseInScripts m items)).bindings.isEmpty =
      (placedAll options m.visibleDeclarations).isEmpty := by
    rw [← hempty, SourceUnit.bindings, SourceUnit.bindings, blocks_unit]
    rfl
  have hprelude : (SourceUnit.mk (preludeItems options (encloseInScripts m items))).rootNames =
      (if (placedAll options m.visibleDeclarations).isEmpty then [] else ["wasm_bindgen"] :
        List Text) := by
    rw [preludeItems, hbindings]
    split <;> rfl
  rw [SourceUnit.rootNames, SourceUnit.rootUses_append, SourceUnit.rootUses_append,
    SourceUnit.rootUses_map_use, hshape.arranged.rootUses_eq_nil, List.append_nil,
    List.filterMap_append, boundNames_uses hlinks, ← SourceUnit.rootNames, hprelude,
    Module.rootNames]

theorem exists_type_at_root_iff {options : Options} {m : Module} {u : SourceUnit}
    (h : (compose options m).result = .ok u) {name : Text} :
    (∃ block ∈ u.blocks, block.1 = [] ∧ name ∈ Binding.hostTypeNames block.2) ↔
      ∃ spaces raw, TypeAt options m [] spaces raw ∧ Identifier.rustName raw = name := by
  constructor
  · rintro ⟨block, hblock, hpath, hname⟩
    obtain ⟨b, hb, htype, rfl⟩ := Binding.mem_hostTypeNames.mp hname
    have hplaced : ([], b) ∈ u.placed :=
      List.mem_flatMap.mpr ⟨block, hblock, List.mem_map.mpr ⟨b, hb, by rw [hpath]⟩⟩
    obtain ⟨spaces, d, raw, hd, hdeclares, hraw, rfl⟩ :=
      (typeBinding_mem_placed_iff h).mp ⟨hplaced, htype⟩
    exact ⟨spaces, raw, ⟨d, hd, hdeclares, hraw⟩, (name_typeBinding ..).symm⟩
  · rintro ⟨spaces, raw, ⟨d, hd, hdeclares, hraw⟩, rfl⟩
    obtain ⟨hplaced, htype⟩ :=
      (typeBinding_mem_placed_iff h).mpr ⟨spaces, d, raw, hd, hdeclares, hraw, rfl⟩
    obtain ⟨block, hblock, hpath, hb, _⟩ := exists_block_of_placed h hplaced hplaced
    exact ⟨block, hblock, hpath,
      Binding.mem_hostTypeNames.mpr ⟨_, hb, htype, name_typeBinding ..⟩⟩

theorem mem_scopes_addTo_scope {name other : Text} {inner items : List Item} :
    name ∈ (Item.scopes (Item.addTo items (.scope other inner))).map (·.1) ↔
      name ∈ (Item.scopes items).map (·.1) ∨ name = other := by
  rw [Item.addTo]
  split
  · rename_i hhas
    have hsame : (Item.scopes (Item.mapScope other (fun existing => Item.addAllTo existing inner)
        items)).map (·.1) = (Item.scopes items).map (·.1) := by
      rw [Item.scopes_mapScope, List.map_map]
      apply List.map_congr_left
      intro scope _
      rw [Function.comp_apply]
      split <;> rfl
    rw [hsame]
    refine ⟨Or.inl, ?_⟩
    rintro (hname | rfl)
    · exact hname
    · exact Item.hasScope_iff.mp hhas
  · have hscopes : (Item.scopes (Item.insertBeforeBlock (.scope other inner) items)).Perm
        (Item.scopes (.scope other inner :: items)) :=
      (Item.insertBeforeBlock_perm (.scope other inner) items).filterMap _
    rw [(hscopes.map _).mem_iff, Item.scopes_scope_cons, List.map_cons, List.mem_cons, or_comm]

theorem mem_scopes_composeDeclarations {options : Options} {items grown : List Item}
    {declarations : List Declaration}
    (h : (composeDeclarations options items declarations).result = .ok grown) {name : Text} :
    name ∈ (Item.scopes grown).map (·.1) ↔ name ∈ (Item.scopes items).map (·.1) ∨
      ∃ raw statements blockLoc loc,
        .space ⟨raw, .block statements blockLoc, false, false, loc⟩ ∈ declarations ∧
          options.scopeName raw = name := by
  induction declarations generalizing items with
  | nil =>
      rw [← Except.ok.inj h]
      simp
  | cons d rest ih =>
      simp only [composeDeclarations, result_bind_eq_ok_iff] at h
      obtain ⟨between, hbetween, hrest⟩ := h
      rw [ih hrest]
      obtain ⟨hplain, bindings, _, rfl⟩ | ⟨raw, statements, blockLoc, loc, inner, rfl, _, rfl⟩ :=
        composeDeclaration_cases hbetween
      · rw [Item.scopes_addBindings]
        refine or_congr_right ?_
        constructor
        · rintro ⟨raw, statements, blockLoc, loc, hmem, hname⟩
          exact ⟨raw, statements, blockLoc, loc, List.mem_cons_of_mem _ hmem, hname⟩
        · rintro ⟨raw, statements, blockLoc, loc, hmem, hname⟩
          rcases List.mem_cons.mp hmem with rfl | hmem
          · cases hplain
          · exact ⟨raw, statements, blockLoc, loc, hmem, hname⟩
      · rw [scopeOf, mem_scopes_addTo_scope, or_assoc]
        refine or_congr_right ?_
        constructor
        · rintro (rfl | ⟨other, body, bodyLoc, otherLoc, hmem, hname⟩)
          · exact ⟨raw, statements, blockLoc, loc, List.mem_cons_self, rfl⟩
          · exact ⟨other, body, bodyLoc, otherLoc, List.mem_cons_of_mem _ hmem, hname⟩
        · rintro ⟨other, body, bodyLoc, otherLoc, hmem, hname⟩
          rcases List.mem_cons.mp hmem with heq | hmem
          · cases heq
            exact Or.inl hname.symm
          · exact Or.inr ⟨other, body, bodyLoc, otherLoc, hmem, hname⟩

theorem scopeNames_mapBlocksOf (f : List Binding → List Binding) (items : List Item) :
    (Item.scopes (Item.mapBlocksOf f items)).map (·.1) = (Item.scopes items).map (·.1) := by
  rw [Item.scopes_mapBlocksOf, List.map_map]
  rfl

theorem scopeNames_encloseInScripts (m : Module) (items : List Item) :
    (Item.scopes (encloseInScripts m items)).map (·.1) = (Item.scopes items).map (·.1) := by
  rw [encloseInScripts]
  induction scriptNames m.body generalizing items with
  | nil => rfl
  | cons name rest ih => rw [List.foldl_cons, ih, Item.enclose, scopeNames_mapBlocksOf]

theorem scopes_map_use_append (links : List Use) (items : List Item) :
    Item.scopes (links.map Item.use ++ items) = Item.scopes items := by
  induction links with
  | nil => rfl
  | cons use rest ih => exact ih

theorem mem_scopes_of_compose {options : Options} {m : Module} {u : SourceUnit}
    (h : (compose options m).result = .ok u) {name : Text} :
    name ∈ (Item.scopes u.items).map (·.1) ↔ ∃ raw statements blockLoc loc,
      .space ⟨raw, .block statements blockLoc, false, false, loc⟩ ∈ m.visibleDeclarations ∧
        options.scopeName raw = name := by
  obtain ⟨links, items, _, hitems, rfl⟩ := compose_eq_ok_iff.mp h
  have hshape := wellShaped_encloseInScripts m (wellShaped_composeDeclarations hitems)
  rw [preludeItems_eq hshape.arranged, ← List.map_append, scopes_map_use_append,
    scopeNames_encloseInScripts, mem_scopes_composeDeclarations hitems]
  simp

end Composition

/-- What a module declares at the root stands there in the compiled unit, and nothing else does. -/
theorem declaresAtRoot_iff {options : Options} {m : Module} {u : SourceUnit}
    (h : (compileModule options m).result = .ok u) {name : Text} :
    DeclaresAtRoot options m name ↔
      (∃ block ∈ u.blocks, block.1 = [] ∧ name ∈ Binding.hostTypeNames block.2) ∨
        name ∈ (Item.scopes u.items).map (·.1) := by
  obtain ⟨composed, hcomposed, rfl⟩ := (compileModule_eq_ok_iff options m u).mp h
  have htypes : (∃ block ∈ (finish options composed).blocks, block.1 = [] ∧
      name ∈ Binding.hostTypeNames block.2) ↔
      ∃ block ∈ composed.blocks, block.1 = [] ∧ name ∈ Binding.hostTypeNames block.2 := by
    rw [blocks_finish]
    constructor
    · rintro ⟨_, hblock, hpath, hname⟩
      obtain ⟨block, hmem, rfl⟩ := List.mem_map.mp hblock
      exact ⟨block, hmem, hpath, Collision.hostTypeNames_finishBlock.mp hname⟩
    · rintro ⟨block, hmem, hpath, hname⟩
      exact ⟨_, List.mem_map_of_mem hmem, hpath, Collision.hostTypeNames_finishBlock.mpr hname⟩
  rw [htypes, exists_type_at_root_iff hcomposed, items_finish, scopes_map_use_append,
    scopeNames_mapBlocksOf, mem_scopes_of_compose hcomposed]
  constructor
  · rintro (htype | hscope)
    · exact Or.inl ⟨_, _, htype, rfl⟩
    · exact Or.inr ⟨_, _, _, _, hscope, rfl⟩
  · rintro (⟨spaces, raw, htype, rfl⟩ | ⟨raw, statements, blockLoc, loc, hscope, rfl⟩)
    · exact .type htype
    · exact .scope hscope

theorem bindsOnce_iff {options : Options} {m : Module} {u : SourceUnit}
    (h : (compileModule options m).result = .ok u) :
    u.BindsOnce ↔ u.rootNames.Nodup ∧ ∀ name ∈ u.rootNames, ¬ DeclaresAtRoot options m name := by
  constructor
  · rintro ⟨huses, htypes, hscopes⟩
    refine ⟨huses, fun name hname hdeclares => ?_⟩
    rcases (declaresAtRoot_iff h).mp hdeclares with ⟨block, hblock, hpath, htype⟩ | hscope
    · exact htypes name hname block hblock hpath htype
    · exact hscopes name hname hscope
  · rintro ⟨huses, hfree⟩
    refine ⟨huses, fun name hname block hblock hpath htype => ?_, fun name hname hscope => ?_⟩
    · exact hfree name hname ((declaresAtRoot_iff h).mpr (Or.inl ⟨block, hblock, hpath, htype⟩))
    · exact hfree name hname ((declaresAtRoot_iff h).mpr (Or.inr hscope))

namespace Rust.SourceUnit

variable {options : Options} {u : SourceUnit}

theorem nodup_hostUses (options : Options) (u : SourceUnit) : (u.hostUses options).Nodup := by
  rw [hostUses, hostUsesBeyond]
  refine (Ordered.nodup_ofList _).filterMap ?_
  intro key key' use huse huse'
  split at huse
  · split at huse'
    · cases huse
      cases huse'
      rfl
    · cases huse'
  · cases huse

theorem nodup_boundNames_hostUses (options : Options) (u : SourceUnit) :
    ((u.hostUses options).filterMap Use.boundName).Nodup := by
  rw [List.Nodup, List.pairwise_filterMap]
  refine (nodup_hostUses options u).imp_of_mem ?_
  rintro use use' huse huse' hne name hname _ hname' rfl
  obtain ⟨crate, own, rfl, _, _, hcrate⟩ := mem_hostUses_iff.mp huse
  obtain ⟨crate', own', rfl, _, _, hcrate'⟩ := mem_hostUses_iff.mp huse'
  obtain rfl : own = name := Option.some.inj hname
  obtain rfl : own' = own := Option.some.inj hname'
  obtain rfl : crate = crate' := Option.some.inj (hcrate.symm.trans hcrate')
  exact hne rfl

theorem not_provided_of_mem_hostUses {name : Text}
    (h : name ∈ (u.hostUses options).filterMap Use.boundName) :
    (∃ crate, Catalog.crateOf? name = some crate) ∧ name ∉ u.declaredNames := by
  obtain ⟨use, huse, hname⟩ := List.mem_filterMap.mp h
  obtain ⟨crate, own, rfl, _, hprovided, hcrate⟩ := mem_hostUses_iff.mp huse
  obtain rfl : own = name := Option.some.inj hname
  exact ⟨⟨crate, hcrate⟩, hprovided⟩

end Rust.SourceUnit

theorem mem_declaredNames_of_compose {options : Options} {m : Module} {u : SourceUnit}
    (h : (compose options m).result = .ok u) {name : Text}
    (hname : name ∈ m.rootNames options ∨
      ∃ spaces raw, TypeAt options m [] spaces raw ∧ Identifier.rustName raw = name) :
    name ∈ u.resolveCollisions.legalize.declaredNames := by
  rw [SourceUnit.mem_declaredNames_legalize]
  rcases hname with hbound | ⟨spaces, raw, ⟨d, hd, hdeclares, hraw⟩, rfl⟩
  · rw [← rootNames_of_compose h] at hbound
    exact Or.inr (List.mem_filterMap.mp hbound)
  · obtain ⟨hplaced, htype⟩ :=
      (typeBinding_mem_placed_iff h).mpr ⟨spaces, d, raw, hd, hdeclares, hraw, rfl⟩
    exact Or.inl ⟨_, hplaced, htype, name_typeBinding ..⟩

/-- The names that a compiled unit binds at its root are those of imported host types and after them
those that the module binds. The former are distinct, and are neither among the latter nor the
names of types at the root. So every name is bound once just if the names that the module binds are
distinct, and neither they nor those of the host types name a type or a scope module at the root. -/
theorem compileModule_rootNames (options : Options) (m : Module) (u : SourceUnit)
    (h : (compileModule options m).result = .ok u) :
    ∃ hosts : List Text, u.rootNames = hosts ++ m.rootNames options ∧ hosts.Nodup ∧
      (∀ name ∈ hosts, (∃ crate, Catalog.crateOf? name = some crate) ∧
        name ∉ m.rootNames options ∧
        ∀ spaces raw, TypeAt options m [] spaces raw → Identifier.rustName raw ≠ name) ∧
      (u.BindsOnce ↔ (m.rootNames options).Nodup ∧
        ∀ name ∈ hosts ++ m.rootNames options, ¬ DeclaresAtRoot options m name) := by
  have honce := bindsOnce_iff h
  obtain ⟨composed, hcomposed, rfl⟩ := (compileModule_eq_ok_iff options m u).mp h
  have hroot := rootUses_finish options composed
  generalize hhosts : (if options.emitCatalogUses then
    composed.resolveCollisions.legalize.hostUses options else []) = imports at hroot
  have hnames : (finish options composed).rootNames =
      imports.filterMap Use.boundName ++ m.rootNames options := by
    rw [SourceUnit.rootNames, hroot, List.filterMap_append, ← SourceUnit.rootNames,
      rootNames_of_compose hcomposed]
  have hnodup : (imports.filterMap Use.boundName).Nodup := by
    rw [← hhosts]
    split
    · exact SourceUnit.nodup_boundNames_hostUses options _
    · exact List.nodup_nil
  have hfree : ∀ name ∈ imports.filterMap Use.boundName,
      (∃ crate, Catalog.crateOf? name = some crate) ∧
        name ∉ composed.resolveCollisions.legalize.declaredNames := by
    intro name hname
    rw [← hhosts] at hname
    split at hname
    · exact SourceUnit.not_provided_of_mem_hostUses hname
    · cases hname
  have hapart : ∀ name ∈ imports.filterMap Use.boundName, name ∉ m.rootNames options :=
    fun name hname hbound =>
      (hfree name hname).2 (mem_declaredNames_of_compose hcomposed (Or.inl hbound))
  refine ⟨imports.filterMap Use.boundName, hnames, hnodup, ?_, ?_⟩
  · intro name hname
    refine ⟨(hfree name hname).1, hapart name hname, fun spaces raw htype hsame => ?_⟩
    exact (hfree name hname).2
      (mem_declaredNames_of_compose hcomposed (Or.inr ⟨spaces, raw, htype, hsame⟩))
  · rw [honce, hnames]
    refine and_congr_left fun _ => ?_
    rw [List.nodup_append]
    refine ⟨fun hall => hall.2.1, fun hbound => ⟨hnodup, hbound, ?_⟩⟩
    rintro name hname _ hother rfl
    exact hapart name hname hother

/-- An import, an interface that is exported under another name too, and a namespace. -/
def sketchModule : Module :=
  { body := [
      .importDeclaration ⟨[⟨.named, "Base", none, none⟩], "./base", false, none⟩,
      .exportDeclaration (.interface ⟨"XMLNode", [], [], [], none⟩) none,
      .exportDeclaration (.space ⟨"svg", .block [.declaration
        (.function ⟨some "draw", ⟨[], none, []⟩, none⟩)] none, false, false, none⟩) none,
      .exportList ⟨[⟨.named, "XMLNode", some "Node", none⟩], none, false, none⟩] }

theorem sketchModule_rootNames :
    ∃ u, (compileModule .standard sketchModule).result = .ok u ∧
      u.rootNames = ([ "Base", "Node", "wasm_bindgen"] : List Text) ∧
      ∃ hosts : List Text, u.rootNames = hosts ++ sketchModule.rootNames .standard ∧ hosts.Nodup ∧
        (∀ name ∈ hosts, (∃ crate, Catalog.crateOf? name = some crate) ∧
          name ∉ sketchModule.rootNames .standard ∧
          ∀ spaces raw, TypeAt .standard sketchModule [] spaces raw →
            Identifier.rustName raw ≠ name) ∧
        (u.BindsOnce ↔ (sketchModule.rootNames .standard).Nodup ∧
          ∀ name ∈ hosts ++ sketchModule.rootNames .standard,
            ¬ DeclaresAtRoot .standard sketchModule name) :=
  ⟨_, rfl, rfl, compileModule_rootNames .standard sketchModule _ rfl⟩

namespace Source

/-- The names under which a module imports something, as the source writes them. -/
def Module.importedNames (m : Module) : List Text :=
  m.body.flatMap fun
    | .importDeclaration d => d.specifiers.map (·.localName)
    | .importAlias a => [a.name]
    | _ => []

/-- The names under which the specifiers of a module export something. -/
def Module.specifiedExports (m : Module) : List Text :=
  m.body.flatMap fun
    | .exportList d => d.specifiers.map fun s => s.exported.getD s.name
    | _ => []

/-- In the source no two imports have one name, nor have two specifiers of exports, nor an import
and a declaration. -/
structure Module.NamesApart (m : Module) : Prop where
  imports : m.importedNames.Nodup
  exports : m.specifiedExports.Nodup
  declarations : ∀ name ∈ m.topDeclarations.filterMap Declaration.name?, name ∉ m.importedNames

end Source

/-- The names of a module are distinct in its source and not at the root of its unit. -/
def ClashesAtRoot (options : Options) (m : Module) : Prop :=
  m.NamesApart ∧ ∃ u, (compileModule options m).result = .ok u ∧ ¬ u.BindsOnce

theorem clashesAtRoot_of_repeated {options : Options} {m : Module} {u : SourceUnit}
    (hsource : m.NamesApart) (h : (compileModule options m).result = .ok u)
    (hrepeated : ¬ u.rootNames.Nodup) : ClashesAtRoot options m :=
  ⟨hsource, u, h, fun honce => hrepeated honce.uses⟩

def importOf (names : List Text) (source : Text) : Statement :=
  .importDeclaration ⟨names.map fun name => ⟨.named, name, none, none⟩, source, false, none⟩

/-- Two imports whose names differ in case. -/
def twinImports : Module := { body := [importOf ["XMLNode", "XmlNode"] "./dom"] }

/-- An import and the export of something else under its name. -/
def passedName : Module :=
  { body := [importOf ["pen"] "./old",
      .exportList ⟨[⟨.named, "pen", none, none⟩], some "./new", false, none⟩] }

/-- A default export beside a specifier that exports something as the default. -/
def twoDefaults : Module :=
  { body := [.exportDefaultName "pen" none,
      .exportList ⟨[⟨.named, "brush", some "default", none⟩], some "./new", false, none⟩] }

/-- An import of the name of the binding attribute. -/
def importedAttribute : Module :=
  { body := [importOf ["wasm_bindgen"] "./glue",
      .exportDeclaration (.function ⟨some "draw", ⟨[], none, []⟩, none⟩) none] }

/-- An interface that is exported under the name of another one. -/
def swappedName : Module :=
  { body := [.exportDeclaration (.interface ⟨"Left", [], [], [], none⟩) none,
      .exportDeclaration (.interface ⟨"Right", [], [], [], none⟩) none,
      .exportList ⟨[⟨.named, "Left", some "Right", none⟩], none, false, none⟩] }

/-- An import of the name of a scope module. -/
def importedScope : Module :=
  { body := [importOf ["svgMod"] "./svg",
      .exportDeclaration (.space ⟨"svg", .block [.declaration
        (.function ⟨some "draw", ⟨[], none, []⟩, none⟩)] none, false, false, none⟩) none] }

/-- A suffix that makes the scope module of a namespace one of the names of the catalogs. -/
def controllerOptions : Options :=
  { Options.standard with moduleSuffix := "Controller", suffix_ne_nil := by decide }

/-- A class whose base is a host type, and a namespace with a scope module of that name. -/
def hostScope : Module :=
  { body := [
      .declaration (.classDeclaration ⟨some "Upload", [], [], some ⟨["AbortController"], [], none⟩,
        [], false, none⟩),
      .declaration (.space ⟨"Abort", .block [.declaration
        (.function ⟨some "all", ⟨[], none, []⟩, none⟩)] none, false, false, none⟩)] }

/-- Distinct names in the source are no guarantee: each of these modules binds a name twice. -/
theorem distinct_names_clash :
    ClashesAtRoot .standard twinImports ∧ ClashesAtRoot .standard passedName ∧
      ClashesAtRoot .standard twoDefaults ∧ ClashesAtRoot .standard importedAttribute ∧
      ClashesAtRoot .standard swappedName ∧ ClashesAtRoot .standard importedScope ∧
      ClashesAtRoot controllerOptions hostScope := by
  refine ⟨?_, ?_, ?_, ?_, ?_, ?_, ?_⟩
  · exact clashesAtRoot_of_repeated ⟨by decide, by decide, by decide⟩ rfl
      (show ¬ ([ "XmlNode", "XmlNode"] : List Text).Nodup by decide)
  · exact clashesAtRoot_of_repeated ⟨by decide, by decide, by decide⟩ rfl
      (show ¬ ([ "pen", "pen"] : List Text).Nodup by decide)
  · exact clashesAtRoot_of_repeated ⟨by decide, by decide, by decide⟩ rfl
      (show ¬ ([ "default", "default"] : List Text).Nodup by decide)
  · exact clashesAtRoot_of_repeated ⟨by decide, by decide, by decide⟩ rfl
      (show ¬ ([ "wasm_bindgen", "wasm_bindgen"] : List Text).Nodup by decide)
  · refine ⟨⟨by decide, by decide, by decide⟩, _, rfl, fun honce => ?_⟩
    have hbound : Text.ofString "Right" ∈ ([ "Right", "wasm_bindgen"] : List Text) := by decide
    have htype : Text.ofString "Right" ∈ ([ "Left", "Right"] : List Text) := by decide
    exact honce.types "Right" hbound _ (List.mem_singleton_self _) rfl htype
  · refine ⟨⟨by decide, by decide, by decide⟩, _, rfl, fun honce => ?_⟩
    have hbound : Text.ofString "svgMod" ∈ ([ "svgMod", "wasm_bindgen"] : List Text) := by decide
    exact honce.scopes "svgMod" hbound (List.mem_singleton_self _)
  · refine ⟨⟨by decide, by decide, by decide⟩, _, rfl, fun honce => ?_⟩
    have hbound : Text.ofString "AbortController" ∈
        ([ "AbortController", "wasm_bindgen"] : List Text) := by decide
    exact honce.scopes "AbortController" hbound (List.mem_singleton_self _)

end HostBindings

import HostBindings.Compile
import HostBindings.Proofs.BoundaryClosure
import HostBindings.Proofs.ComposedUnits
import HostBindings.Proofs.RelocatedLowering

/-!
Composition commutes with relocation, and so do the passes that finish a unit. The text of a unit
shows no places.
-/

namespace HostBindings

variable (f : Location → Location)

namespace Rust

namespace Item

variable (g : Binding → Binding)

theorem addBindings_mapBlocksOf (bindings : List Binding) (items : List Item) :
    addBindings (bindings.map g) (mapBlocksOf (List.map g) items) =
      mapBlocksOf (List.map g) (addBindings bindings items) := by
  induction items with
  | nil => cases bindings <;> rfl
  | cons item rest ih => cases item <;> simp [mapBlocksOf, mapBlocks, addBindings, ih]

theorem insertBeforeBlock_mapBlocksOf (h : List Binding → List Binding) (item : Item)
    (items : List Item) :
    insertBeforeBlock (mapBlocks h item) (mapBlocksOf h items) =
      mapBlocksOf h (insertBeforeBlock item items) := by
  induction items with
  | nil => rfl
  | cons other rest ih => cases other <;> simp [mapBlocksOf, mapBlocks, insertBeforeBlock, ih]

theorem hasScope_mapBlocksOf (h : List Binding → List Binding) (name : Text)
    (items : List Item) : hasScope name (mapBlocksOf h items) = hasScope name items := by
  induction items with
  | nil => rfl
  | cons item rest ih =>
      rw [hasScope] at ih ⊢
      cases item <;> simp [mapBlocksOf, mapBlocks, hasScope, ih]

theorem mapScope_mapBlocksOf (h : List Binding → List Binding) (name : Text)
    {k k' : List Item → List Item}
    (hk : ∀ items, k' (mapBlocksOf h items) = mapBlocksOf h (k items)) (items : List Item) :
    mapScope name k' (mapBlocksOf h items) = mapBlocksOf h (mapScope name k items) := by
  induction items with
  | nil => rfl
  | cons item rest ih =>
      cases item with
      | scope other inner =>
          have hscope : (if other == name then scope other (k' (mapBlocksOf h inner))
              else scope other (mapBlocksOf h inner)) =
              mapBlocks h (if other == name then scope other (k inner) else scope other inner) := by
            split <;> simp [mapBlocks, hk]
          exact congrArg₂ List.cons hscope ih
      | _ => exact congrArg (List.cons _) ih

mutual

theorem addTo_mapBlocks (items : List Item) (item : Item) :
    addTo (mapBlocksOf (List.map g) items) (mapBlocks (List.map g) item) =
      mapBlocksOf (List.map g) (addTo items item) := by
  cases item with
  | use | stray => simp [mapBlocks, addTo]
  | block bindings => simp [mapBlocks, addTo, addBindings_mapBlocksOf]
  | scope name inner =>
      rw [mapBlocks, addTo, addTo, hasScope_mapBlocksOf]
      split
      · have hinner := fun existing => addAllTo_mapBlocksOf existing inner
        exact mapScope_mapBlocksOf _ name hinner items
      · exact insertBeforeBlock_mapBlocksOf _ (.scope name inner) items

theorem addAllTo_mapBlocksOf (items more : List Item) :
    addAllTo (mapBlocksOf (List.map g) items) (mapBlocksOf (List.map g) more) =
      mapBlocksOf (List.map g) (addAllTo items more) := by
  cases more with
  | nil => rfl
  | cons item rest =>
      rw [mapBlocksOf, addAllTo, addAllTo, addTo_mapBlocks items item, addAllTo_mapBlocksOf _ rest]

end

/-- Moves the places in the bindings below items. -/
abbrev relocateAll (items : List Item) : List Item :=
  mapBlocksOf (List.map (Binding.relocate f)) items

theorem enclose_relocateAll (name : Text) (items : List Item) :
    enclose name (relocateAll f items) = relocateAll f (enclose name items) := by
  rw [enclose, enclose, mapBlocksOf_mapBlocksOf, relocateAll, mapBlocksOf_mapBlocksOf]
  congr 1
  funext bindings
  simp [Function.comp_def, Binding.enclose, Binding.relocate]

end Item

namespace SourceUnit

variable (u : SourceUnit)

theorem bindings_relocate : (u.relocate f).bindings = u.bindings.map (Binding.relocate f) := by
  simp [relocate, bindings, List.flatMap_map, List.map_flatMap]

theorem mapBlocks_relocate {h : List Binding → List Binding}
    (hcomm : ∀ bindings, h (bindings.map (Binding.relocate f)) =
      (h bindings).map (Binding.relocate f)) :
    (u.relocate f).mapBlocks h = (u.mapBlocks h).relocate f := by
  have hcomp : h ∘ List.map (Binding.relocate f) = List.map (Binding.relocate f) ∘ h :=
    funext hcomm
  simp only [relocate, mapBlocks, Item.mapBlocksOf_mapBlocksOf, hcomp]

end SourceUnit

end Rust

namespace Composition

open Source Rust Lowering

variable (options : Options)

theorem relocateAll_scopeOf (name : Text) (items : List Item) :
    scopeOf options name (Item.relocateAll f items) =
      Item.mapBlocks (List.map (Binding.relocate f)) (scopeOf options name items) := by
  simp only [scopeOf, Item.mapBlocks, Item.mapBlocksOf, Item.enclose_relocateAll]

theorem addBindings_relocate (items : List Item) {d d' : Declaration}
    (h : lower options [] d' = List.map (Binding.relocate f) <$> (lower options [] d).relocate f) :
    (do
      let bindings ← lower options [] d'
      return Item.addBindings bindings (Item.relocateAll f items)) =
    Item.relocateAll f <$> (do
      let bindings ← lower options [] d
      return Item.addBindings bindings items : Outcome (List Item)).relocate f := by
  simp [h, Item.addBindings_mapBlocksOf]

mutual

theorem composeDeclaration_relocate (items : List Item) (d : Declaration) :
    composeDeclaration options (Item.relocateAll f items) (d.relocate f) =
      Item.relocateAll f <$> (composeDeclaration options items d).relocate f := by
  have hlower := addBindings_relocate f options items (lower_relocate f options [] d)
  cases d with
  | space d =>
      obtain ⟨name, body, isStringName, isGlobal, loc⟩ := d
      cases body with
      | block statements own =>
          simp only [Declaration.relocate, Namespace.relocate, NamespaceBody.relocate,
            Statement.relocateAll_eq] at hlower ⊢
          simp only [composeDeclaration]
          split
          · exact hlower
          · have hinner : composeStatements options [] (statements.map (Statement.relocate f)) =
                Item.relocateAll f <$> (composeStatements options [] statements).relocate f :=
              composeStatements_relocate [] statements
            simp [hinner, relocateAll_scopeOf, Item.addTo_mapBlocks]
      | missing | nested =>
          simp only [Declaration.relocate, Namespace.relocate, NamespaceBody.relocate] at hlower ⊢
          simpa only [composeDeclaration] using hlower
  | _ =>
      simp only [Declaration.relocate] at hlower ⊢
      simpa only [composeDeclaration] using hlower

theorem composeStatements_relocate (items : List Item) (ss : List Statement) :
    composeStatements options (Item.relocateAll f items) (ss.map (Statement.relocate f)) =
      Item.relocateAll f <$> (composeStatements options items ss).relocate f := by
  match ss with
  | [] => rfl
  | .declaration d :: rest | .exportDeclaration d _ :: rest
  | .exportDefaultDeclaration d _ :: rest =>
      simp [composeStatements, composeDeclaration_relocate items d,
        composeStatements_relocate _ rest]
  | .importDeclaration _ :: rest | .importAlias _ :: rest | .exportList _ :: rest
  | .exportDefaultName _ _ :: rest | .exportAll _ _ _ :: rest | .exportAssignment _ _ :: rest
  | .exportAsNamespace _ _ :: rest | .stray _ :: rest =>
      simp [composeStatements, composeStatements_relocate items rest]

end

theorem composeDeclarations_relocate (items : List Item) (ds : List Declaration) :
    composeDeclarations options (Item.relocateAll f items) (ds.map (Declaration.relocate f)) =
      Item.relocateAll f <$> (composeDeclarations options items ds).relocate f := by
  induction ds generalizing items with
  | nil => rfl
  | cons d rest ih => simp [composeDeclarations, composeDeclaration_relocate, ih]

@[simp]
theorem drop_relocate (concern : Concern) (loc : Option Location) :
    (drop concern loc).relocate f = drop concern (loc.map f) := rfl

theorem linkImport_relocate (path : List Text) (source : Text) (s : ImportSpecifier) :
    linkImport path source (s.relocate f) = (linkImport path source s).relocate f := by
  obtain ⟨kind, localName, imported, loc⟩ := s
  cases kind <;> rfl

theorem linkExport_relocate (source : Option Text) (s : ExportSpecifier) :
    linkExport options source (s.relocate f) = (linkExport options source s).relocate f := by
  obtain ⟨kind, name, exported, loc⟩ := s
  cases kind <;> cases source <;> rfl

theorem linkAlias_relocate (a : ImportAlias) :
    linkAlias options (a.relocate f) = (linkAlias options a).relocate f := by
  have huse : aliasUse? options (a.relocate f) = aliasUse? options a := rfl
  rw [linkAlias, linkAlias, huse]
  split <;> rfl

theorem linkAll_relocate {α : Type} {g : α → α} {link : α → Outcome (Option Use)}
    (h : ∀ a, link (g a) = (link a).relocate f) (as : List α) :
    linkAll link (as.map g) = (linkAll link as).relocate f := by
  induction as with
  | nil => rfl
  | cons a rest ih => simp [linkAll, h, ih]

theorem link_relocate (s : Statement) :
    link options (s.relocate f) = (link options s).relocate f := by
  cases s with
  | importDeclaration d =>
      exact linkAll_relocate f (linkImport_relocate f _ d.source) d.specifiers
  | exportList d => exact linkAll_relocate f (linkExport_relocate f options d.source) d.specifiers
  | importAlias a => exact linkAll_relocate f (linkAlias_relocate f options) [a]
  | _ => rfl

theorem uses_relocate (ss : List Statement) :
    uses options (ss.map (Statement.relocate f)) = (uses options ss).relocate f := by
  induction ss with
  | nil => rfl
  | cons s rest ih => simp [uses, link_relocate, ih]

theorem isModuleFile_relocate (m : Module) : (m.relocate f).isModuleFile = m.isModuleFile := by
  have hsyntax : Statement.isModuleSyntax ∘ Statement.relocate f = Statement.isModuleSyntax := by
    funext s
    cases s <;> rfl
  rw [Module.isModuleFile, Module.relocate, List.any_map, hsyntax, Module.isModuleFile]

theorem exportedNames_relocate (m : Module) :
    (m.relocate f).exportedNames = m.exportedNames := by
  have hnames : ∀ s : Statement, (s.relocate f).exportedNames = s.exportedNames := by
    intro s
    cases s with
    | exportList d =>
        obtain ⟨specifiers, source, typeOnly, loc⟩ := d
        cases source with
        | some source => rfl
        | none =>
            simp only [Statement.relocate, ExportList.relocate, Statement.exportedNames,
              List.filter_map, List.map_map]
            rfl
    | _ => rfl
  simp [Module.exportedNames, Module.relocate, List.flatMap_map, hnames]

theorem exposed_relocate (exported : List Text) (s : Statement) :
    Module.exposed exported (s.relocate f) =
      (Module.exposed exported s).map (Declaration.relocate f) := by
  cases s with
  | declaration d =>
      have hglobal : Module.isGlobalSpace (d.relocate f) = Module.isGlobalSpace d := by
        cases d with
        | space d => cases d; rfl
        | _ => rfl
      simp only [Statement.relocate, Module.exposed, hglobal, name?_relocate]
      split <;> rfl
  | _ => rfl

theorem visibleDeclarations_relocate (m : Module) :
    (m.relocate f).visibleDeclarations = m.visibleDeclarations.map (Declaration.relocate f) := by
  rw [Module.visibleDeclarations, Module.visibleDeclarations, isModuleFile_relocate,
    exportedNames_relocate]
  split
  · simp [Module.relocate, List.filterMap_map, List.map_filterMap, exposed_relocate]
  · simp only [Module.relocate, List.filterMap_map, List.map_filterMap]
    congr 1
    funext s
    cases s <;> rfl

theorem scriptNames_relocate (ss : List Statement) :
    scriptNames (ss.map (Statement.relocate f)) = scriptNames ss := by
  induction ss with
  | nil => rfl
  | cons s rest ih => cases s <;> simp_all [scriptNames]

theorem preludeItems_relocateAll (items : List Item) :
    preludeItems options (Item.relocateAll f items) =
      Item.relocateAll f (preludeItems options items) := by
  have hbindings : (SourceUnit.mk (Item.relocateAll f items)).bindings.isEmpty =
      (SourceUnit.mk items).bindings.isEmpty := by
    rw [show SourceUnit.mk (Item.relocateAll f items) = (SourceUnit.mk items).relocate f from rfl,
      SourceUnit.bindings_relocate, List.isEmpty_map]
  rw [preludeItems, preludeItems, hbindings]
  split <;> rfl

theorem foldl_enclose_relocateAll (names : List Text) (items : List Item) :
    names.foldl (fun items name => Item.enclose name items) (Item.relocateAll f items) =
      Item.relocateAll f (names.foldl (fun items name => Item.enclose name items) items) := by
  induction names generalizing items with
  | nil => rfl
  | cons name rest ih => simp only [List.foldl_cons, Item.enclose_relocateAll, ih]

theorem compose_relocate (m : Module) :
    compose options (m.relocate f) =
      SourceUnit.relocate f <$> (compose options m).relocate f := by
  have hitems :
      composeDeclarations options [] (m.visibleDeclarations.map (Declaration.relocate f)) =
        Item.relocateAll f <$> (composeDeclarations options [] m.visibleDeclarations).relocate f :=
    composeDeclarations_relocate f options [] m.visibleDeclarations
  rw [compose, compose, visibleDeclarations_relocate, hitems]
  simp [Module.relocate, uses_relocate, scriptNames_relocate, foldl_enclose_relocateAll,
    preludeItems_relocateAll, SourceUnit.relocate, SourceUnit.mapBlocks, Item.mapBlocksOf_append,
    Item.mapBlocksOf_map_use]

end Composition

namespace Rust

namespace Collision

/-- Moves the places in the bindings kept so far. -/
def State.relocate (s : State) : State := { s with kept := s.kept.map (Binding.relocate f) }

theorem settle_relocate (taken : List Claim) (owner : Option Text) (b : Binding) :
    settle taken owner (b.relocate f) = (settle taken owner b).relocate f := by
  have hname : (b.relocate f).name = b.name := rfl
  rw [settle, settle, hname]
  split <;> rfl

theorem resolveSelf_relocate (b : Binding) :
    resolveSelf (b.relocate f) = (resolveSelf b).relocate f := by
  have hattributes : (b.relocate f).attributes = b.attributes := rfl
  rw [resolveSelf, resolveSelf, hattributes]
  split <;> rfl

theorem foldType_relocate (repeated : Binding) (kept : List Binding) :
    foldType (repeated.relocate f) (kept.map (Binding.relocate f)) =
      (foldType repeated kept).map (Binding.relocate f) := by
  rw [foldType, foldType, List.map_map, List.map_map]
  congr 1
  funext b
  have hsame : ((b.relocate f).isHostType && (b.relocate f).name == (repeated.relocate f).name) =
      (b.isHostType && b.name == repeated.name) := rfl
  rw [Function.comp_apply, Function.comp_apply, hsame]
  split <;> rfl

theorem keep_relocate (s : State) (owner : Option Text) (b : Binding) :
    keep (s.relocate f) owner (b.relocate f) = (keep s owner b).relocate f := by
  have htaken : (s.relocate f).taken = s.taken := rfl
  simp only [keep, htaken, settle_relocate]
  simp [State.relocate, Binding.relocate]

theorem step_relocate (s : State) (b : Binding) :
    step (s.relocate f) (b.relocate f) = (step s b).relocate f := by
  have hshape : (b.relocate f).shape = b.shape := rfl
  rw [step, step, hshape]
  cases b.shape with
  | hostType =>
      have hknown : ((s.relocate f).kept.any fun other =>
          other.isHostType && other.name == (b.relocate f).name) =
          s.kept.any fun other => other.isHostType && other.name == b.name :=
        List.any_map
      simp only [hknown]
      split
      · simp [State.relocate, foldType_relocate]
      · simp [State.relocate]
  | function params result =>
      dsimp only
      rw [resolveSelf_relocate]
      exact keep_relocate f s _ _
  | static type => exact keep_relocate f s none b

theorem resolve_relocate (bindings : List Binding) :
    resolve (bindings.map (Binding.relocate f)) =
      (resolve bindings).map (Binding.relocate f) := by
  have hfold : ∀ s : State, (bindings.map (Binding.relocate f)).foldl step (s.relocate f) =
      (bindings.foldl step s).relocate f := by
    induction bindings with
    | nil => exact fun _ => rfl
    | cons b rest ih =>
        intro s
        rw [List.map_cons, List.foldl_cons, List.foldl_cons, step_relocate, ih]
  exact congrArg State.kept (hfold {})

end Collision

namespace SourceUnit

variable (u : SourceUnit)

theorem resolveCollisions_relocate :
    (u.relocate f).resolveCollisions = u.resolveCollisions.relocate f :=
  u.mapBlocks_relocate f (Collision.resolve_relocate f)

theorem customPaths_relocate : (u.relocate f).customPaths = u.customPaths := by
  refine customPaths_mapBlocks _ u fun bindings => ?_
  simp only [Binding.hostTypeNames, List.filter_map, List.map_map]
  rfl

theorem legalize_relocate : (u.relocate f).legalize = u.legalize.relocate f := by
  rw [legalize, customPaths_relocate]
  refine u.mapBlocks_relocate f fun bindings => ?_
  rw [List.map_map, List.map_map]
  rfl

theorem hostUses_relocate (options : Options) :
    (u.relocate f).hostUses options = u.hostUses options := by
  have hreferenced : (u.relocate f).referencedNames = u.referencedNames := by
    rw [referencedNames, bindings_relocate, List.flatMap_map]
    rfl
  have hdeclared : (u.relocate f).declaredNames = u.declaredNames := by
    rw [declaredNames, bindings_relocate, relocate, rootUses_mapBlocks, List.filter_map,
      List.map_map]
    rfl
  rw [hostUses, hostUses, hostUsesBeyond, hostUsesBeyond, hreferenced, hdeclared]

end SourceUnit

mutual

theorem renderItem_relocate (item : Item) :
    renderItem (Item.mapBlocks (List.map (Binding.relocate f)) item) = renderItem item := by
  cases item with
  | block bindings =>
      rw [Item.mapBlocks, renderItem, renderItem, List.mapM_map]
      rfl
  | scope name items =>
      rw [Item.mapBlocks, renderItem, renderItem, renderItems_relocate none items]
  | _ => rfl

theorem renderItems_relocate (afterUse : Option Bool) (items : List Item) :
    renderItems afterUse (Item.relocateAll f items) = renderItems afterUse items := by
  cases items with
  | nil => rfl
  | cons item rest =>
      have hitem := renderItem_relocate item
      have hrest := fun afterUse => renderItems_relocate afterUse rest
      cases item <;> rw [Item.mapBlocks] at hitem <;>
        simp [Item.mapBlocksOf, Item.mapBlocks, renderItems, hitem, hrest]

end

theorem render_relocate (u : SourceUnit) : render (u.relocate f) = render u := by
  rw [render, render, SourceUnit.relocate, SourceUnit.mapBlocks, renderItems_relocate]

end Rust

theorem finish_relocate (options : Options) (u : Rust.SourceUnit) :
    finish options (u.relocate f) = (finish options u).relocate f := by
  simp only [finish, Rust.SourceUnit.resolveCollisions_relocate, Rust.SourceUnit.legalize_relocate]
  split
  · rw [Rust.SourceUnit.addHostUses, Rust.SourceUnit.hostUses_relocate]
    simp [Rust.SourceUnit.addHostUses, Rust.SourceUnit.relocate, Rust.SourceUnit.mapBlocks,
      Rust.Item.mapBlocksOf_append, Rust.Item.mapBlocksOf_map_use]
  · rfl

/-- Compiling a moved module gives the same unit, moved, and the same warnings and failure at the
moved places. -/
theorem compileModule_relocate (options : Options) (m : Source.Module) :
    compileModule options (m.relocate f) =
      Rust.SourceUnit.relocate f <$> (compileModule options m).relocate f := by
  simp [compileModule, Composition.compose_relocate, finish_relocate]

end HostBindings

import HostBindings.Proofs.BoundaryClosure
import HostBindings.Proofs.CollisionFreedom
import HostBindings.Proofs.NamespaceFlattening

/-!
What holds throughout a composed unit. Composition appends to extern blocks, puts namespaces around
them and starts each scope with a use of the names around it. A property of blocks that survives
these steps and holds of every lowered declaration therefore holds of every block of the unit.
Finishing the unit goes through its blocks one by one.
-/

namespace HostBindings

namespace Rust.Item

/-- Every scope below the items has a name that satisfies `N`, every use satisfies `P`, and every
extern block satisfies `Q`. All items are of these three kinds. -/
inductive Throughout (N : Text → Prop) (P : Use → Prop) (Q : List Binding → Prop) :
    List Item → Prop
  | nil : Throughout N P Q []
  | use {u : Use} {rest : List Item} (hu : P u) (hrest : Throughout N P Q rest) :
      Throughout N P Q (.use u :: rest)
  | block {bindings : List Binding} {rest : List Item} (hblock : Q bindings)
      (hrest : Throughout N P Q rest) : Throughout N P Q (.block bindings :: rest)
  | scope {name : Text} {inner rest : List Item} (hname : N name)
      (hinner : Throughout N P Q inner) (hrest : Throughout N P Q rest) :
      Throughout N P Q (.scope name inner :: rest)

namespace Throughout

variable {N N' : Text → Prop} {P P' : Use → Prop} {Q Q' : List Binding → Prop} {items : List Item}

theorem of_mem_blocksOf (h : Throughout N P Q items) {path : List Text}
    {block : List Text × List Binding} (hblock : block ∈ blocksOf path items) : Q block.2 := by
  induction h generalizing path with
  | nil => cases hblock
  | use _ _ ih => exact ih hblock
  | block hfirst _ ih =>
      rcases List.mem_cons.mp hblock with rfl | hrest
      · exact hfirst
      · exact ih hrest
  | scope _ _ _ ihinner ihrest =>
      rcases List.mem_append.mp hblock with hinner | hrest
      · exact ihinner hinner
      · exact ihrest hrest

theorem of_mem_usesOf (h : Throughout N P Q items) {u : Use} (hu : u ∈ usesOf items) : P u := by
  induction h with
  | nil => cases hu
  | use hfirst _ ih =>
      rcases List.mem_cons.mp hu with rfl | hrest
      · exact hfirst
      · exact ih hrest
  | block _ _ ih => exact ih hu
  | scope _ _ _ ihinner ihrest =>
      rcases List.mem_append.mp hu with hinner | hrest
      · exact ihinner hinner
      · exact ihrest hrest

theorem mapBlocksOf (h : Throughout N P Q items) {f : List Binding → List Binding}
    (hf : ∀ bindings, Q bindings → Q' (f bindings)) : Throughout N P Q' (mapBlocksOf f items) := by
  induction h with
  | nil => exact nil
  | use hu _ ih => exact use hu ih
  | block hblock _ ih => exact block (hf _ hblock) ih
  | scope hname _ _ ihinner ihrest => exact scope hname ihinner ihrest

theorem addBindings (h : Throughout N P Q items) {bindings : List Binding}
    (hbindings : Q bindings) (happend : ∀ {xs ys}, Q xs → Q ys → Q (xs ++ ys)) :
    Throughout N P Q (addBindings bindings items) := by
  induction h with
  | nil =>
      rw [Item.addBindings]
      split
      · exact nil
      · exact block hbindings nil
  | use hu _ ih => exact use hu ih
  | block hblock hrest _ => exact block (happend hblock hbindings) hrest
  | scope hname hinner _ _ ih => exact scope hname hinner ih

theorem insertBeforeBlock (h : Throughout N P Q items) {name : Text} (hname : N name)
    {inner : List Item} (hinner : Throughout N P Q inner) :
    Throughout N P Q (insertBeforeBlock (.scope name inner) items) := by
  induction h with
  | nil => exact scope hname hinner nil
  | use hu _ ih => exact use hu ih
  | block hblock hrest _ => exact scope hname hinner (block hblock hrest)
  | scope hother hbefore _ _ ih => exact scope hother hbefore ih

theorem mapScope (h : Throughout N P Q items) (name : Text) {f : List Item → List Item}
    (hf : ∀ inner, Throughout N P Q inner → Throughout N P Q (f inner)) :
    Throughout N P Q (mapScope name f items) := by
  induction h with
  | nil => exact nil
  | use hu _ ih => exact use hu ih
  | block hblock _ ih => exact block hblock ih
  | @scope other inner rest hother hinner _ _ ih =>
      rw [Item.mapScope, List.map_cons, ← Item.mapScope]
      dsimp only
      split
      · exact scope hother (hf inner hinner) ih
      · exact scope hother hinner ih

theorem mono (h : Throughout N P Q items) (hN : ∀ name, N name → N' name)
    (hP : ∀ u, P u → P' u) : Throughout N' P' Q items := by
  induction h with
  | nil => exact nil
  | use hu _ ih => exact use (hP _ hu) ih
  | block hblock _ ih => exact block hblock ih
  | scope hname _ _ ihinner ihrest => exact scope (hN _ hname) ihinner ihrest

theorem append {more : List Item} (h : Throughout N P Q items) (hmore : Throughout N P Q more) :
    Throughout N P Q (items ++ more) := by
  induction h with
  | nil => exact hmore
  | use hu _ ih => exact use hu ih
  | block hblock _ ih => exact block hblock ih
  | scope hname hinner _ _ ih => exact scope hname hinner ih

theorem addAllTo (happend : ∀ {xs ys}, Q xs → Q ys → Q (xs ++ ys)) {more : List Item}
    (hmore : Throughout N P Q more) (h : Throughout N P Q items) :
    Throughout N P Q (addAllTo items more) := by
  induction hmore generalizing items with
  | nil => exact h
  | use _ _ ih => exact ih h
  | block hblock _ ih => exact ih (h.addBindings hblock happend)
  | @scope name _ _ hname hinner _ ihinner ihrest =>
      apply ihrest
      rw [Item.addTo]
      -- the scope joins the one of its name, or it is the first of that name
      split
      · exact h.mapScope name fun existing hexisting => ihinner hexisting
      · exact h.insertBeforeBlock hname hinner

end Throughout

theorem throughout_map_use {N : Text → Prop} {P : Use → Prop} {Q : List Binding → Prop}
    {uses : List Use} (h : ∀ u ∈ uses, P u) : Throughout N P Q (uses.map Item.use) := by
  induction uses with
  | nil => exact .nil
  | cons u rest ih =>
      obtain ⟨hu, hrest⟩ := List.forall_mem_cons.mp h
      exact .use hu (ih hrest)

end Rust.Item

namespace Rust.SourceUnit

theorem rootUses_append (items more : List Item) :
    (mk (items ++ more)).rootUses =
      (mk items).rootUses ++ (mk more).rootUses :=
  List.filterMap_append

theorem rootUses_map_use (links : List Use) :
    (mk (links.map Item.use)).rootUses = links := by
  simp [rootUses, List.filterMap_map]

theorem rootUses_mapBlocks (f : List Binding → List Binding) (u : SourceUnit) :
    (u.mapBlocks f).rootUses = u.rootUses := by
  obtain ⟨items⟩ := u
  simp only [rootUses, mapBlocks]
  induction items with
  | nil => rfl
  | cons item rest ih => cases item <;> simp [Item.mapBlocksOf, Item.mapBlocks, ih]

end Rust.SourceUnit

namespace Composition

open Source Rust Outcome Lowering

/-- Whether a declaration becomes a scope module. -/
def makesScope : Declaration → Bool
  | .space ⟨_, .block _ _, isStringName, isGlobal, _⟩ => !(isStringName || isGlobal)
  | _ => false

/-- What adding a declaration can do: its bindings join the block, or a scope module joins the
scopes. -/
theorem composeDeclaration_cases {options : Options} {items grown : List Item} {d : Declaration}
    (h : (composeDeclaration options items d).result = .ok grown) :
    (makesScope d = false ∧ ∃ bindings, (lower options [] d).result = .ok bindings ∧
      grown = Item.addBindings bindings items) ∨
    ∃ name statements blockLoc loc inner,
      d = .space ⟨name, .block statements blockLoc, false, false, loc⟩ ∧
      (composeStatements options [] statements).result = .ok inner ∧
      grown = Item.addTo items (scopeOf options name inner) := by
  have hlowered : (do
      let bindings ← lower options [] d
      return Item.addBindings bindings items : Outcome (List Item)).result = .ok grown →
      ∃ bindings, (lower options [] d).result = .ok bindings ∧
        grown = Item.addBindings bindings items := by
    intro hbind
    obtain ⟨bindings, hbindings, hreturn⟩ := (result_bind_eq_ok_iff _ _ _).mp hbind
    exact ⟨bindings, hbindings, (Except.ok.inj hreturn).symm⟩
  cases d with
  | space d =>
      obtain ⟨name, body, isStringName, isGlobal, loc⟩ := d
      cases body with
      | missing => exact Or.inl ⟨rfl, hlowered (by simpa only [composeDeclaration] using h)⟩
      | nested inner => exact Or.inl ⟨rfl, hlowered (by simpa only [composeDeclaration] using h)⟩
      | block statements blockLoc =>
          simp only [composeDeclaration] at h
          split at h
          · rename_i hplain
            exact Or.inl ⟨by rw [makesScope, hplain, Bool.not_true], hlowered h⟩
          · rename_i hplain
            obtain ⟨rfl, rfl⟩ := Bool.or_eq_false_iff.mp (Bool.eq_false_iff.mpr hplain)
            obtain ⟨inner, hinner, hreturn⟩ := (result_bind_eq_ok_iff _ _ _).mp h
            exact Or.inr ⟨name, statements, blockLoc, loc, inner, rfl, hinner,
              (Except.ok.inj hreturn).symm⟩
  | _ => exact Or.inl ⟨rfl, hlowered (by simpa only [composeDeclaration] using h)⟩

/-- A property of items that holds of none and that each step of composition keeps. -/
structure Kept (options : Options) (R : List Item → Prop) : Prop where
  nil : R []
  lowered {items : List Item} {d : Declaration} {bindings : List Binding} : R items →
    (lower options [] d).result = .ok bindings → R (Item.addBindings bindings items)
  scope {items inner : List Item} (name : Text) : R items → R inner →
    R (Item.addTo items (scopeOf options name inner))

namespace Kept

variable {options : Options} {R : List Item → Prop}

mutual

theorem composeDeclaration (hR : Kept options R) {items grown : List Item} (h : R items)
    {d : Declaration} (hgrown : (composeDeclaration options items d).result = .ok grown) :
    R grown := by
  obtain ⟨_, bindings, hbindings, rfl⟩ | ⟨name, statements, _, _, inner, hd, hinner, rfl⟩ :=
    composeDeclaration_cases hgrown
  · exact hR.lowered h hbindings
  · exact hR.scope name h (hR.composeStatements hR.nil hinner)
termination_by sizeOf d
decreasing_by
  simp only [hd, Declaration.space.sizeOf_spec, Namespace.mk.sizeOf_spec,
    NamespaceBody.block.sizeOf_spec]
  omega

theorem composeStatements (hR : Kept options R) {items grown : List Item} (h : R items)
    {statements : List Statement}
    (hgrown : (composeStatements options items statements).result = .ok grown) : R grown := by
  match statements with
  | [] =>
      rw [← Except.ok.inj hgrown]
      exact h
  | .declaration d :: rest | .exportDeclaration d _ :: rest
  | .exportDefaultDeclaration d _ :: rest =>
      simp only [Composition.composeStatements, result_bind_eq_ok_iff] at hgrown
      obtain ⟨between, hbetween, hrest⟩ := hgrown
      exact hR.composeStatements (hR.composeDeclaration h hbetween) hrest
  | .importDeclaration _ :: rest | .importAlias _ :: rest | .exportList _ :: rest
  | .exportDefaultName _ _ :: rest | .exportAll _ _ _ :: rest | .exportAssignment _ _ :: rest
  | .exportAsNamespace _ _ :: rest | .stray _ :: rest =>
      simp only [Composition.composeStatements] at hgrown
      exact hR.composeStatements h hgrown
termination_by sizeOf statements

end

/-- What each step keeps holds of all items that are composed of declarations. -/
theorem composeDeclarations (hR : Kept options R) {items grown : List Item} (h : R items)
    {declarations : List Declaration}
    (hgrown : (composeDeclarations options items declarations).result = .ok grown) : R grown := by
  induction declarations generalizing items with
  | nil =>
      rw [← Except.ok.inj hgrown]
      exact h
  | cons d rest ih =>
      simp only [Composition.composeDeclarations, result_bind_eq_ok_iff] at hgrown
      obtain ⟨between, hbetween, hrest⟩ := hgrown
      exact ih (hR.composeDeclaration h hbetween) hrest

end Kept

/-- A property of extern blocks that lowered declarations have and that composition keeps. -/
structure Composable (options : Options) (Q : List Binding → Prop) : Prop where
  lowered {d : Declaration} {bindings : List Binding} :
    (lower options [] d).result = .ok bindings → Q bindings
  append {xs ys : List Binding} : Q xs → Q ys → Q (xs ++ ys)
  enclose (name : Text) {xs : List Binding} : Q xs → Q (xs.map (Binding.enclose name))

/-- Items as composition makes them: scopes have the names of namespaces, and the only uses are
those at the start of scopes. -/
abbrev Composed (options : Options) (Q : List Binding → Prop) : List Item → Prop :=
  Item.Throughout (fun name => ∃ raw, name = options.scopeName raw) (· = enclosingUse) Q

variable {options : Options} {Q : List Binding → Prop}

theorem Composable.addTo_scopeOf (hQ : Composable options Q) {items inner : List Item}
    (h : Composed options Q items) (hinner : Composed options Q inner) (name : Text) :
    Composed options Q (Item.addTo items (scopeOf options name inner)) := by
  have hbody : Composed options Q (.use enclosingUse :: Item.enclose name inner) :=
    .use rfl (hinner.mapBlocksOf fun _ => hQ.enclose name)
  have hscope : Composed options Q [scopeOf options name inner] := .scope ⟨name, rfl⟩ hbody .nil
  exact hscope.addAllTo hQ.append h

theorem Composable.kept (hQ : Composable options Q) : Kept options (Composed options Q) where
  nil := .nil
  lowered h hbindings := h.addBindings (hQ.lowered hbindings) hQ.append
  scope name h hinner := hQ.addTo_scopeOf h hinner name

theorem Composable.composeDeclarations (hQ : Composable options Q) {items grown : List Item}
    (h : Composed options Q items) {declarations : List Declaration}
    (hgrown : (composeDeclarations options items declarations).result = .ok grown) :
    Composed options Q grown :=
  hQ.kept.composeDeclarations h hgrown

/-- Puts the names for scripts around the items of a module. -/
def encloseInScripts (m : Module) (items : List Item) : List Item :=
  (scriptNames m.body).foldl (fun items name => Item.enclose name items) items

/-- What a composed unit is made of. -/
theorem compose_eq_ok_iff {m : Module} {u : SourceUnit} :
    (compose options m).result = .ok u ↔
      ∃ links items, (uses options m.body).result = .ok links ∧
        (composeDeclarations options [] m.visibleDeclarations).result = .ok items ∧
        u = ⟨links.map Item.use ++ preludeItems options (encloseInScripts m items) ++
          encloseInScripts m items⟩ := by
  simp only [compose, result_bind_eq_ok_iff, result_pure, Except.ok.injEq]
  constructor
  · rintro ⟨links, hlinks, items, hitems, rfl⟩
    exact ⟨links, items, hlinks, hitems, rfl⟩
  · rintro ⟨links, items, hlinks, hitems, rfl⟩
    exact ⟨links, hlinks, items, hitems, rfl⟩

theorem Composable.encloseInScripts (hQ : Composable options Q) (m : Module) {items : List Item}
    (h : Composed options Q items) : Composed options Q (encloseInScripts m items) := by
  rw [Composition.encloseInScripts]
  induction scriptNames m.body generalizing items with
  | nil => exact h
  | cons name rest ih => exact ih (h.mapBlocksOf fun _ => hQ.enclose name)

theorem Composable.of_mem_blocks (hQ : Composable options Q) {m : Module} {u : SourceUnit}
    (h : (compose options m).result = .ok u) {block : List Text × List Binding}
    (hblock : block ∈ u.blocks) : Q block.2 := by
  obtain ⟨links, items, _, hitems, rfl⟩ := compose_eq_ok_iff.mp h
  have hcomposed := hQ.encloseInScripts m (hQ.composeDeclarations .nil hitems)
  have hprelude : Item.blocksOf [] (preludeItems options (Composition.encloseInScripts m items)) =
      [] := by
    rw [preludeItems]
    split <;> rfl
  rw [SourceUnit.blocks, Item.blocksOf_append, Item.blocksOf_append, Item.blocksOf_map_use,
    hprelude] at hblock
  exact hcomposed.of_mem_blocksOf hblock

theorem composable_true (options : Options) : Composable options fun _ => True :=
  ⟨fun _ => trivial, fun _ _ => trivial, fun _ _ _ => trivial⟩

theorem mem_rootUses_of_isPublic {m : Module} {u : SourceUnit}
    (h : (compose options m).result = .ok u) {use : Use} (huse : use ∈ u.allUses)
    (hpublic : use.isPublic = true) : use ∈ u.rootUses := by
  obtain ⟨links, items, _, hitems, rfl⟩ := compose_eq_ok_iff.mp h
  have hQ := composable_true options
  have hcomposed := hQ.encloseInScripts m (hQ.composeDeclarations .nil hitems)
  generalize Composition.encloseInScripts m items = enclosed at huse hcomposed ⊢
  rw [SourceUnit.allUses, Item.usesOf_append, Item.usesOf_append, Item.usesOf_map_use] at huse
  rcases List.mem_append.mp huse with hroot | hnested
  · rcases List.mem_append.mp hroot with hlink | hprelude
    · rw [SourceUnit.rootUses_append, SourceUnit.rootUses_append, SourceUnit.rootUses_map_use]
      exact List.mem_append_left _ (List.mem_append_left _ hlink)
    · rw [preludeItems] at hprelude
      split at hprelude
      · cases hprelude
      · rw [List.mem_singleton.mp hprelude] at hpublic
        cases hpublic
  · rw [hcomposed.of_mem_usesOf hnested] at hpublic
    cases hpublic

end Composition

open Rust

/-- What finishing does to the bindings of one block, given the paths of the unit's own types. -/
def finishBlock (custom : List (List Text)) (block : List Binding) : List Binding :=
  (Collision.resolve block).map (Binding.mapTypes (Boundary.legalizeType custom))

theorem blocks_legalize (u : SourceUnit) :
    u.resolveCollisions.legalize.blocks = u.blocks.map fun block =>
      (block.1, finishBlock u.resolveCollisions.customPaths block.2) := by
  simp only [SourceUnit.legalize, SourceUnit.legalizeWith, SourceUnit.resolveCollisions,
    SourceUnit.blocks_mapBlocks, List.map_map]
  rfl

theorem blocks_finish (options : Options) (u : SourceUnit) :
    (finish options u).blocks = u.blocks.map fun block =>
      (block.1, finishBlock u.resolveCollisions.customPaths block.2) := by
  rw [finish]
  split
  · rw [SourceUnit.blocks_addHostUses, blocks_legalize]
  · exact blocks_legalize u

theorem rootUses_legalize (u : SourceUnit) :
    u.resolveCollisions.legalize.rootUses = u.rootUses := by
  simp only [SourceUnit.legalize, SourceUnit.legalizeWith, SourceUnit.resolveCollisions,
    SourceUnit.rootUses_mapBlocks]

theorem rootUses_finish (options : Options) (u : SourceUnit) :
    (finish options u).rootUses =
      (if options.emitCatalogUses then u.resolveCollisions.legalize.hostUses options else []) ++
        u.rootUses := by
  rw [finish]
  split
  · rw [SourceUnit.addHostUses, SourceUnit.rootUses_append, SourceUnit.rootUses_map_use,
      rootUses_legalize]
  · exact rootUses_legalize u

end HostBindings

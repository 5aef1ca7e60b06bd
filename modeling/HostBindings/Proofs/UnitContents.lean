import HostBindings.Proofs.UnitShape

/-!
What a unit holds and where, apart from order: its bindings and its uses, each with the scopes that
lead to it. Each declaration adds one item to those composed before it, a block or a scope module,
and items join in any order to the same contents.
-/

namespace HostBindings

open Source Rust

namespace Rust.Item

mutual

/-- The paths of the scope modules below an item. -/
def scopePaths (path : List Text) : Item → List (List Text)
  | .use _ | .block _ | .stray _ => []
  | .scope name items => (path ++ [name]) :: scopePathsOf (path ++ [name]) items

def scopePathsOf (path : List Text) : List Item → List (List Text)
  | [] => []
  | item :: rest => scopePaths path item ++ scopePathsOf path rest

end

mutual

/-- Every use below an item, with the scopes that lead to it. -/
def placedUses (path : List Text) : Item → List (List Text × Use)
  | .use u => [(path, u)]
  | .block _ | .stray _ => []
  | .scope name items => placedUsesOf (path ++ [name]) items

def placedUsesOf (path : List Text) : List Item → List (List Text × Use)
  | [] => []
  | item :: rest => placedUses path item ++ placedUsesOf path rest

end

theorem scopePathsOf_addBindings (path : List Text) (bindings : List Binding) (items : List Item) :
    scopePathsOf path (addBindings bindings items) = scopePathsOf path items := by
  induction items with
  | nil =>
      rw [addBindings]
      split <;> rfl
  | cons item rest ih => cases item <;> simp [addBindings, scopePathsOf, scopePaths, ih]

section

variable {path p : List Text}

theorem mem_scopePathsOf_scope_cons {name : Text} {inner rest : List Item} :
    p ∈ scopePathsOf path (.scope name inner :: rest) ↔
      p = path ++ [name] ∨ p ∈ scopePathsOf (path ++ [name]) inner ∨
        p ∈ scopePathsOf path rest := by
  rw [scopePathsOf, scopePaths, List.mem_append, List.mem_cons, or_assoc]

theorem mem_scopePathsOf_insertBeforeBlock (item : Item) (items : List Item) :
    p ∈ scopePathsOf path (insertBeforeBlock item items) ↔
      p ∈ scopePathsOf path items ∨ p ∈ scopePaths path item := by
  induction items with
  | nil => simp [insertBeforeBlock, scopePathsOf]
  | cons other rest ih =>
      cases other with
      | block bindings => simp [insertBeforeBlock, scopePathsOf, scopePaths, or_comm]
      | _ => simp [insertBeforeBlock, scopePathsOf, ih, or_assoc]

theorem mem_scopePathsOf_of_hasScope {name : Text} {items : List Item}
    (h : hasScope name items = true) : path ++ [name] ∈ scopePathsOf path items := by
  induction items with
  | nil => cases h
  | cons item rest ih =>
      rw [hasScope, List.any_cons, ← hasScope, Bool.or_eq_true] at h
      rw [scopePathsOf, List.mem_append]
      rcases h with hitem | hrest
      · cases item with
        | scope other inner =>
            rw [eq_of_beq hitem]
            exact Or.inl List.mem_cons_self
        | _ => cases hitem
      · exact Or.inr (ih hrest)

theorem mem_scopePathsOf_mapScope {name : Text} {f : List Item → List Item}
    {more : List (List Text)} {items : List Item} (hname : hasScope name items = true)
    (hf : ∀ inner, p ∈ scopePathsOf (path ++ [name]) (f inner) ↔
      p ∈ scopePathsOf (path ++ [name]) inner ∨ p ∈ more) :
    p ∈ scopePathsOf path (mapScope name f items) ↔ p ∈ scopePathsOf path items ∨ p ∈ more := by
  induction items with
  | nil => cases hname
  | cons item rest ih =>
      rw [mapScope, List.map_cons, ← mapScope]
      cases item with
      | scope other inner =>
          by_cases hother : other = name
          · have hhere : (other == name) = true := beq_iff_eq.mpr hother
            subst hother
            simp only [hhere, if_true, mem_scopePathsOf_scope_cons, hf]
            by_cases hrest : hasScope other rest = true
            · rw [ih hrest]
              grind
            · rw [mapScope_of_not_hasScope f fun hmem => hrest (hasScope_iff.mpr hmem)]
              grind
          · have hrest : hasScope name rest = true := by
              simpa [hasScope, hother] using hname
            have hthere : (other == name) = false := beq_eq_false_iff_ne.mpr hother
            simp only [hthere, Bool.false_eq_true, if_false, mem_scopePathsOf_scope_cons, ih hrest,
              or_assoc]
      | _ => simp [scopePathsOf, scopePaths, ih hname]

mutual

theorem mem_scopePathsOf_addTo (path : List Text) (items : List Item) (item : Item) :
    p ∈ scopePathsOf path (addTo items item) ↔
      p ∈ scopePathsOf path items ∨ p ∈ scopePaths path item := by
  cases item with
  | use u => simp [addTo, scopePaths]
  | stray written => simp [addTo, scopePaths]
  | block bindings => simp [addTo, scopePaths, scopePathsOf_addBindings]
  | scope name inner =>
      rw [addTo]
      split
      · rename_i hhas
        rw [mem_scopePathsOf_mapScope hhas fun existing =>
          mem_scopePathsOf_addAllTo (path ++ [name]) existing inner, scopePaths, List.mem_cons]
        -- the scope itself is there already
        constructor
        · exact Or.imp_right Or.inr
        · rintro (hthere | rfl | hmore)
          · exact Or.inl hthere
          · exact Or.inl (mem_scopePathsOf_of_hasScope hhas)
          · exact Or.inr hmore
      · exact mem_scopePathsOf_insertBeforeBlock _ _

theorem mem_scopePathsOf_addAllTo (path : List Text) (items more : List Item) :
    p ∈ scopePathsOf path (addAllTo items more) ↔
      p ∈ scopePathsOf path items ∨ p ∈ scopePathsOf path more := by
  cases more with
  | nil => simp [addAllTo, scopePathsOf]
  | cons item rest =>
      rw [addAllTo, mem_scopePathsOf_addAllTo path _ rest, mem_scopePathsOf_addTo path items item,
        scopePathsOf, List.mem_append, or_assoc]

end

theorem mem_scopePathsOf_perm {items others : List Item} (h : items.Perm others) :
    p ∈ scopePathsOf path items ↔ p ∈ scopePathsOf path others := by
  have hflat : ∀ items : List Item, scopePathsOf path items = items.flatMap (scopePaths path) := by
    intro items
    induction items with
    | nil => rfl
    | cons item rest ih => rw [scopePathsOf, ih, List.flatMap_cons]
  rw [hflat, hflat]
  exact (h.flatMap_right _).mem_iff

mutual

theorem prefix_of_mem_scopePaths {path : List Text} {item : Item} (h : p ∈ scopePaths path item) :
    path <+: p ∧ path.length < p.length := by
  cases item with
  | use u => cases h
  | block bindings => cases h
  | stray written => cases h
  | scope name items =>
      rw [scopePaths] at h
      rcases List.mem_cons.mp h with rfl | hinner
      · exact ⟨List.prefix_append _ _, by simp⟩
      · obtain ⟨hstart, hlength⟩ := prefix_of_mem_scopePathsOf hinner
        rw [List.length_append] at hlength
        exact ⟨(List.prefix_append _ _).trans hstart, by omega⟩

theorem prefix_of_mem_scopePathsOf {path : List Text} {items : List Item}
    (h : p ∈ scopePathsOf path items) : path <+: p ∧ path.length < p.length := by
  cases items with
  | nil => cases h
  | cons item rest =>
      rw [scopePathsOf] at h
      rcases List.mem_append.mp h with hitem | hrest
      · exact prefix_of_mem_scopePaths hitem
      · exact prefix_of_mem_scopePathsOf hrest

end

theorem exists_scope_of_mem_scopePathsOf {items : List Item} (h : p ∈ scopePathsOf path items) :
    ∃ name ∈ (scopes items).map (·.1), path ++ [name] <+: p := by
  induction items with
  | nil => cases h
  | cons item rest ih =>
      cases item with
      | scope name inner =>
          rw [scopes_scope_cons, List.map_cons]
          rcases mem_scopePathsOf_scope_cons.mp h with rfl | hinner | hrest
          · exact ⟨name, List.mem_cons_self, List.prefix_rfl⟩
          · exact ⟨name, List.mem_cons_self, (prefix_of_mem_scopePathsOf hinner).1⟩
          · obtain ⟨other, hother, hstart⟩ := ih hrest
            exact ⟨other, List.mem_cons_of_mem _ hother, hstart⟩
      | _ => exact ih h

end

/-- Where scope names are unique at each level, no two scopes have the same path. -/
theorem UniqueScopes.nodup_scopePathsOf {items : List Item} (h : UniqueScopes items)
    (path : List Text) : (scopePathsOf path items).Nodup := by
  induction h generalizing path with
  | @intro items hnodup hinner ih =>
      clear hinner
      induction items with
      | nil => exact List.nodup_nil
      | cons item rest ihrest =>
          cases item with
          | scope name inner =>
              rw [scopes_scope_cons, List.map_cons, List.nodup_cons] at hnodup
              have hinner := ih (name, inner) List.mem_cons_self (path ++ [name])
              have hrest := ihrest hnodup.2 fun scope hscope =>
                ih scope (List.mem_cons_of_mem _ hscope)
              rw [scopePathsOf, scopePaths]
              refine List.nodup_append.mpr ⟨List.nodup_cons.mpr ⟨?_, hinner⟩, hrest, ?_⟩
              · intro hself
                exact absurd (prefix_of_mem_scopePathsOf hself).2 (Nat.lt_irrefl _)
              · -- a path in this scope and one in another differ at the first step
                rintro p hp _ hother rfl
                obtain ⟨other, hmem, hstart⟩ := exists_scope_of_mem_scopePathsOf hother
                have hhere : path ++ [name] <+: p := by
                  rcases List.mem_cons.mp hp with rfl | hbelow
                  · exact List.prefix_rfl
                  · exact (prefix_of_mem_scopePathsOf hbelow).1
                have hshorter := List.prefix_of_prefix_length_le hhere hstart (by simp)
                have heq : path ++ [name] = path ++ [other] := hshorter.eq_of_length (by simp)
                rw [List.singleton_inj.mp (List.append_cancel_left heq)] at hnodup
                exact hnodup.1 hmem
          | _ => exact ihrest hnodup ih

mutual

theorem scopePaths_mapBlocks (f : List Binding → List Binding) (path : List Text) (item : Item) :
    scopePaths path (mapBlocks f item) = scopePaths path item := by
  cases item with
  | scope name items =>
      rw [mapBlocks, scopePaths, scopePaths, scopePathsOf_mapBlocksOf f (path ++ [name]) items]
  | _ => simp [mapBlocks, scopePaths]

theorem scopePathsOf_mapBlocksOf (f : List Binding → List Binding) (path : List Text)
    (items : List Item) : scopePathsOf path (mapBlocksOf f items) = scopePathsOf path items := by
  cases items with
  | nil => rfl
  | cons item rest =>
      rw [mapBlocksOf, scopePathsOf, scopePathsOf, scopePaths_mapBlocks f path item,
        scopePathsOf_mapBlocksOf f path rest]

end

mutual

theorem map_snd_placedUses (path : List Text) (item : Item) :
    (placedUses path item).map (·.2) = uses item := by
  cases item with
  | scope name items =>
      rw [placedUses, uses]
      exact map_snd_placedUsesOf (path ++ [name]) items
  | _ => rfl

theorem map_snd_placedUsesOf (path : List Text) (items : List Item) :
    (placedUsesOf path items).map (·.2) = usesOf items := by
  cases items with
  | nil => rfl
  | cons item rest =>
      rw [placedUsesOf, usesOf, List.map_append, map_snd_placedUses path item,
        map_snd_placedUsesOf path rest]

end

mutual

theorem placedUses_mapBlocks (f : List Binding → List Binding) (path : List Text) (item : Item) :
    placedUses path (mapBlocks f item) = placedUses path item := by
  cases item with
  | scope name items =>
      rw [mapBlocks, placedUses, placedUses]
      exact placedUsesOf_mapBlocksOf f (path ++ [name]) items
  | _ => simp [mapBlocks, placedUses]

theorem placedUsesOf_mapBlocksOf (f : List Binding → List Binding) (path : List Text)
    (items : List Item) : placedUsesOf path (mapBlocksOf f items) = placedUsesOf path items := by
  cases items with
  | nil => rfl
  | cons item rest =>
      rw [mapBlocksOf, placedUsesOf, placedUsesOf, placedUses_mapBlocks f path item,
        placedUsesOf_mapBlocksOf f path rest]

end

theorem placedUsesOf_append (path : List Text) (items more : List Item) :
    placedUsesOf path (items ++ more) = placedUsesOf path items ++ placedUsesOf path more := by
  induction items with
  | nil => rfl
  | cons item rest ih => rw [List.cons_append, placedUsesOf, ih, placedUsesOf, List.append_assoc]

theorem placed_mapBlocksOf_map (f : Binding → Binding) (path : List Text) (items : List Item) :
    placed path (mapBlocksOf (List.map f) items) =
      (placed path items).map fun place => (place.1, f place.2) := by
  rw [placed, placed, blocksOf_mapBlocksOf, List.flatMap_map, List.map_flatMap]
  simp [Function.comp_def]

end Rust.Item

namespace Rust.SourceUnit

/-- Every binding of a unit, with the scopes that lead to it. -/
def placed (u : SourceUnit) : List (List Text × Binding) := Item.placed [] u.items

/-- Every use of a unit, with the scopes that lead to it. -/
def placedUses (u : SourceUnit) : List (List Text × Use) := Item.placedUsesOf [] u.items

/-- Two units hold the same bindings and uses in the same scopes, apart from their order below the
uses at the root. -/
structure SameContents (u u' : SourceUnit) : Prop where
  placed : u'.placed.Perm u.placed
  rootUses : u'.rootUses = u.rootUses
  placedUses : u'.placedUses.Perm u.placedUses

end Rust.SourceUnit

namespace Composition

open Outcome Lowering

theorem Arranged.placedUsesOf_eq {items : List Item} (h : Arranged items) (path : List Text) :
    Item.placedUsesOf path items =
      (Item.scopePathsOf path items).map fun p => (p, enclosingUse) := by
  induction h generalizing path with
  | nil => rfl
  | block => rfl
  | scope _ _ ihinner ihrest =>
      simp [Item.placedUsesOf, Item.placedUses, Item.scopePathsOf, Item.scopePaths, ihinner, ihrest]

theorem Arranged.rootUses_eq_nil {items : List Item} (h : Arranged items) :
    (SourceUnit.mk items).rootUses = [] := by
  induction h with
  | nil => rfl
  | block => rfl
  | scope _ _ _ ihrest => exact ihrest

theorem sameContents_append (front : List Item) {items items' : List Item} (h : Arranged items)
    (h' : Arranged items') (hplaced : (Item.placed [] items').Perm (Item.placed [] items))
    (hpaths : (Item.scopePathsOf [] items').Perm (Item.scopePathsOf [] items)) :
    (SourceUnit.mk (front ++ items)).SameContents ⟨front ++ items'⟩ := by
  constructor
  · rw [SourceUnit.placed, SourceUnit.placed, Item.placed_append, Item.placed_append]
    exact hplaced.append_left _
  · rw [SourceUnit.rootUses_append, SourceUnit.rootUses_append, h.rootUses_eq_nil,
      h'.rootUses_eq_nil]
  · rw [SourceUnit.placedUses, SourceUnit.placedUses, Item.placedUsesOf_append,
      Item.placedUsesOf_append, h.placedUsesOf_eq, h'.placedUsesOf_eq]
    exact (hpaths.map _).append_left _

/-- The item that a declaration adds to those composed before it. -/
inductive IsPiece (options : Options) : Declaration → Item → Prop
  | block {d : Declaration} {bindings : List Binding} (hplain : makesScope d = false)
      (h : (lower options [] d).result = .ok bindings) : IsPiece options d (.block bindings)
  | scope {name : Text} {statements : List Statement} {inner : List Item}
      (blockLoc loc : Option Location)
      (h : (composeStatements options [] statements).result = .ok inner) :
      IsPiece options (.space ⟨name, .block statements blockLoc, false, false, loc⟩)
        (scopeOf options name inner)

theorem composeDeclaration_of_plain {options : Options} {items : List Item} {d : Declaration}
    (h : makesScope d = false) :
    composeDeclaration options items d = do
      let bindings ← lower options [] d
      return Item.addBindings bindings items := by
  cases d with
  | space d =>
      obtain ⟨name, body, isStringName, isGlobal, loc⟩ := d
      cases body with
      | block statements blockLoc =>
          rw [makesScope, Bool.not_eq_false'] at h
          rw [composeDeclaration, if_pos h]
      | _ => simp only [composeDeclaration]
  | _ => simp only [composeDeclaration]

theorem composeDeclaration_eq_ok_iff {options : Options} {items grown : List Item}
    {d : Declaration} :
    (composeDeclaration options items d).result = .ok grown ↔
      ∃ piece, IsPiece options d piece ∧ grown = Item.addTo items piece := by
  constructor
  · intro h
    obtain ⟨hplain, bindings, hbindings, rfl⟩ | ⟨name, statements, blockLoc, loc, inner, rfl,
      hinner, rfl⟩ := composeDeclaration_cases h
    · exact ⟨_, .block hplain hbindings, rfl⟩
    · exact ⟨_, .scope blockLoc loc hinner, rfl⟩
  · rintro ⟨piece, hpiece, rfl⟩
    cases hpiece with
    | block hplain h =>
        rw [composeDeclaration_of_plain hplain, result_bind, h]
        rfl
    | scope blockLoc loc h =>
        simp only [composeDeclaration, Bool.or_self, Bool.false_eq_true, if_false, result_bind, h]
        rfl

theorem composeDeclarations_eq_ok_iff {options : Options} {items grown : List Item}
    {declarations : List Declaration} :
    (composeDeclarations options items declarations).result = .ok grown ↔
      ∃ pieces, List.Forall₂ (IsPiece options) declarations pieces ∧
        grown = Item.addAllTo items pieces := by
  induction declarations generalizing items with
  | nil =>
      simp only [composeDeclarations, result_pure, Except.ok.injEq, List.forall₂_nil_left_iff,
        exists_eq_left]
      exact eq_comm
  | cons d rest ih =>
      simp only [composeDeclarations, result_bind_eq_ok_iff, composeDeclaration_eq_ok_iff, ih,
        List.forall₂_cons_left_iff]
      constructor
      · rintro ⟨_, ⟨piece, hpiece, rfl⟩, pieces, hpieces, rfl⟩
        exact ⟨_, ⟨piece, pieces, hpiece, hpieces, rfl⟩, rfl⟩
      · rintro ⟨_, ⟨piece, pieces, hpiece, hpieces, rfl⟩, rfl⟩
        exact ⟨_, ⟨piece, hpiece, rfl⟩, pieces, hpieces, rfl⟩

theorem IsPiece.uniqueScopes {options : Options} {d : Declaration} {piece : Item}
    (h : IsPiece options d piece) : Item.UniqueScopes [piece] := by
  cases h with
  | block => exact Item.uniqueScopes_of_scopes_eq Item.uniqueScopes_nil rfl
  | scope blockLoc loc h =>
      exact uniqueScopes_scopeOf options _
        ((kept_uniqueScopes options).composeStatements Item.uniqueScopes_nil h)

theorem forall_uniqueScopes_of_pieces {options : Options} {ds : List Declaration}
    {pieces : List Item} (h : List.Forall₂ (IsPiece options) ds pieces) :
    ∀ piece ∈ pieces, Item.UniqueScopes [piece] := by
  intro piece hpiece
  obtain ⟨d, _, hd⟩ := Collision.exists_of_mem_right h hpiece
  exact hd.uniqueScopes

/-- Declarations in another order compose as well, and to the same contents. -/
theorem exists_composeDeclarations_perm {options : Options} {ds ds' : List Declaration}
    (hperm : ds'.Perm ds) {items : List Item}
    (h : (composeDeclarations options [] ds).result = .ok items) :
    ∃ items', (composeDeclarations options [] ds').result = .ok items' ∧
      (Item.placed [] items').Perm (Item.placed [] items) ∧
      (Item.scopePathsOf [] items').Perm (Item.scopePathsOf [] items) := by
  obtain ⟨pieces, hpieces, rfl⟩ := composeDeclarations_eq_ok_iff.mp h
  obtain ⟨pieces', hpieces', hpermuted⟩ := List.perm_comp_forall₂ hperm hpieces
  have hgrows := Item.grows_addAllTo Item.uniqueScopes_nil pieces
    (forall_uniqueScopes_of_pieces hpieces)
  have hgrows' := Item.grows_addAllTo Item.uniqueScopes_nil pieces'
    (forall_uniqueScopes_of_pieces hpieces')
  refine ⟨_, composeDeclarations_eq_ok_iff.mpr ⟨pieces', hpieces', rfl⟩, ?_, ?_⟩
  · calc
      (Item.placed [] (Item.addAllTo [] pieces')).Perm (Item.placed [] pieces') := hgrows'.placed []
      List.Perm _ (Item.placed [] pieces) := Item.placed_perm [] hpermuted
      List.Perm _ (Item.placed [] (Item.addAllTo [] pieces)) := (hgrows.placed []).symm
  · refine (List.perm_ext_iff_of_nodup (hgrows'.unique.nodup_scopePathsOf [])
      (hgrows.unique.nodup_scopePathsOf [])).mpr fun p => ?_
    rw [Item.mem_scopePathsOf_addAllTo, Item.mem_scopePathsOf_addAllTo]
    exact or_congr_right (Item.mem_scopePathsOf_perm hpermuted)

end Composition

end HostBindings

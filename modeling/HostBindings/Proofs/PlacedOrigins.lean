import HostBindings.Proofs.UnitContents

/-!
The place of each origin. A namespace with a block of its own becomes a scope module, and what it
declares is bound there, next to what other namespaces of the same scope name declare. Any other
declaration is bound where it is added, with all the namespaces in it. So the scopes around a
binding can be read off the source, like its origin.
-/

namespace HostBindings

open Source Rust

namespace Lowering

/-- The binding of a declared type. -/
def typeBinding (d : Declaration) (name : Text) (spaces : List Text) : Binding :=
  (hostType (Identifier.sanitize name) (declaredBases d) d.loc).encloseAll spaces

theorem name_typeBinding (d : Declaration) (name : Text) (spaces : List Text) :
    (typeBinding d name spaces).name = Identifier.rustName name := by
  rw [typeBinding, Binding.encloseAll_eq]
  rfl

theorem hostName_typeBinding (d : Declaration) (name : Text) (spaces : List Text) :
    (typeBinding d name spaces).hostName = name := by
  rw [typeBinding, Binding.encloseAll_eq]
  exact Identifier.foreign_getD_bareName name

theorem namespacePath_typeBinding (d : Declaration) (name : Text) (spaces : List Text) :
    (typeBinding d name spaces).attributes.namespacePath = spaces := by
  rw [typeBinding, Binding.encloseAll_eq]
  exact List.append_nil spaces

theorem isHostType_typeBinding (d : Declaration) (name : Text) (spaces : List Text) :
    (typeBinding d name spaces).isHostType = true := by
  rw [typeBinding, Binding.encloseAll_eq]
  rfl

theorem encloseAll_typeBinding (around : List Text) (d : Declaration) (name : Text)
    (spaces : List Text) :
    (typeBinding d name spaces).encloseAll around = typeBinding d name (around ++ spaces) := by
  rw [typeBinding, typeBinding, Binding.encloseAll, Binding.encloseAll, Binding.encloseAll,
    List.foldr_append]

theorem Made.exists_of_isHostType {o : Origin} {b : Binding} (h : Made o b)
    (htype : b.isHostType = true) :
    ∃ spaces d name, o = ⟨spaces, d, none⟩ ∧ declaresType d = true ∧ d.name? = some name ∧
      b = typeBinding d name spaces := by
  cases h with
  | declared spaces hform =>
      rw [Binding.encloseAll_eq] at htype
      cases hform with
      | hostType hd hname => exact ⟨spaces, _, _, rfl, hd, hname, rfl⟩
      | function _ _ _ => cases htype
      | static _ _ => cases htype
  | member spaces hname hmade =>
      obtain ⟨form, hform, rfl⟩ := hmade
      rw [Binding.encloseAll_eq] at htype
      cases hform <;> cases htype

theorem Made.eq_typeBinding {spaces : List Text} {d : Declaration} {name : Text} {b : Binding}
    (h : Made ⟨spaces, d, none⟩ b) (htype : declaresType d = true) (hname : d.name? = some name) :
    b = typeBinding d name spaces := by
  cases h with
  | declared _ hform =>
      cases hform with
      | hostType _ hother =>
          obtain rfl : _ = name := Option.some.inj (hother.symm.trans hname)
          rfl
      | function _ _ _ => cases htype
      | static _ _ => cases htype

end Lowering

namespace Composition

open Outcome Lowering

mutual

/-- The origins in a declaration, each with the scopes that lead to its binding. Inside the global
scope no namespace has a scope of its own. -/
def placedIn (options : Options) (path spaces : List Text) :
    Declaration → List (List Text × Origin)
  | .space ⟨name, .block statements blockLoc, isStringName, isGlobal, loc⟩ =>
      if isStringName || isGlobal then
        (originsIn spaces
          (.space ⟨name, .block statements blockLoc, isStringName, isGlobal, loc⟩)).map (path, ·)
      else placedOf options (path ++ [options.scopeName name]) (spaces ++ [name]) statements
  | d => (originsIn spaces d).map (path, ·)

def placedOf (options : Options) (path spaces : List Text) :
    List Statement → List (List Text × Origin)
  | [] => []
  | .declaration d :: rest | .exportDeclaration d _ :: rest
  | .exportDefaultDeclaration d _ :: rest =>
      placedIn options path spaces d ++ placedOf options path spaces rest
  | _ :: rest => placedOf options path spaces rest

end

/-- The origins of declarations, each with the scopes that lead to its binding. -/
def placedAll (options : Options) (declarations : List Declaration) :
    List (List Text × Origin) :=
  declarations.flatMap (placedIn options [] [])

/-- A binding in the scope of an origin, made for that origin and put inside further namespaces. -/
def MadeAt (around : List Text) (o : List Text × Origin) (b : List Text × Binding) : Prop :=
  b.1 = o.1 ∧ ∃ made, Made o.2 made ∧ b.2 = made.encloseAll around

/-- Items that grew out of others by one binding for each of these origins, in its place. -/
structure Places (path : List Text) (items grown : List Item)
    (origins : List (List Text × Origin)) : Prop where
  unique : Item.UniqueScopes grown
  placed : ∃ more, List.Forall₂ (MadeAt []) origins more ∧
    (Item.placed path grown).Perm (Item.placed path items ++ more)

theorem placedIn_of_plain {d : Declaration} (h : makesScope d = false) (options : Options)
    (path spaces : List Text) :
    placedIn options path spaces d = (originsIn spaces d).map (path, ·) := by
  cases d with
  | space d =>
      obtain ⟨name, body, isStringName, isGlobal, loc⟩ := d
      cases body with
      | block statements blockLoc =>
          rw [makesScope, Bool.not_eq_false'] at h
          rw [placedIn, if_pos h]
      | missing => simp only [placedIn]
      | nested inner => simp only [placedIn]
  | _ => simp only [placedIn]

mutual

theorem placedIn_cons (options : Options) (path : List Text) (name : Text) (spaces : List Text)
    (d : Declaration) :
    placedIn options path (name :: spaces) d =
      (placedIn options path spaces d).map fun o => (o.1, o.2.enclose name) := by
  cases hscope : makesScope d with
  | false =>
      rw [placedIn_of_plain hscope, placedIn_of_plain hscope, originsIn_cons, List.map_map,
        List.map_map]
      rfl
  | true =>
      cases d with
      | space d =>
          obtain ⟨inner, body, isStringName, isGlobal, loc⟩ := d
          cases body with
          | block statements blockLoc =>
              rw [makesScope, Bool.not_eq_true'] at hscope
              simp only [placedIn, hscope, Bool.false_eq_true, if_false]
              exact placedOf_cons options _ name (spaces ++ [inner]) statements
          | missing => cases hscope
          | nested inner => cases hscope
      | _ => cases hscope

theorem placedOf_cons (options : Options) (path : List Text) (name : Text) (spaces : List Text)
    (statements : List Statement) :
    placedOf options path (name :: spaces) statements =
      (placedOf options path spaces statements).map fun o => (o.1, o.2.enclose name) := by
  match statements with
  | [] => simp only [placedOf, List.map_nil]
  | .declaration d :: rest | .exportDeclaration d _ :: rest
  | .exportDefaultDeclaration d _ :: rest =>
      simp only [placedOf, List.map_append]
      rw [placedIn_cons options path name spaces d, placedOf_cons options path name spaces rest]
  | .importDeclaration _ :: rest | .importAlias _ :: rest | .exportList _ :: rest
  | .exportDefaultName _ _ :: rest | .exportAll _ _ _ :: rest | .exportAssignment _ _ :: rest
  | .exportAsNamespace _ _ :: rest | .stray _ :: rest =>
      simp only [placedOf]
      exact placedOf_cons options path name spaces rest

end

section

variable {options : Options} {path : List Text} {items grown : List Item}

theorem MadeAt.enclose {o : List Text × Origin} {b : List Text × Binding} (h : MadeAt [] o b)
    (name : Text) : MadeAt [] (o.1, o.2.enclose name) (b.1, b.2.enclose name) := by
  obtain ⟨hpath, made, hmade, hb⟩ := h
  refine ⟨hpath, made.enclose name, hmade.enclose name, ?_⟩
  rw [hb]
  rfl

theorem Places.trans {further : List Item} {head tail : List (List Text × Origin)}
    (h : Places path items grown head) (h' : Places path grown further tail) :
    Places path items further (head ++ tail) := by
  obtain ⟨first, hfirst, hgrown⟩ := h.placed
  obtain ⟨second, hsecond, hfurther⟩ := h'.placed
  refine ⟨h'.unique, first ++ second, List.rel_append hfirst hsecond, hfurther.trans ?_⟩
  rw [← List.append_assoc]
  exact hgrown.append_right second

theorem places_nil (h : Item.UniqueScopes items) : Places path items items [] :=
  ⟨h, [], List.Forall₂.nil, by rw [List.append_nil]⟩

theorem places_addBindings (h : Item.UniqueScopes items) {d : Declaration}
    {bindings : List Binding} (hbindings : (lower options [] d).result = .ok bindings) :
    Places path items (Item.addBindings bindings items) ((originsIn [] d).map (path, ·)) := by
  refine ⟨Item.uniqueScopes_of_scopes_eq h (Item.scopes_addBindings bindings items),
    bindings.map (path, ·), ?_, Item.placed_addBindings path bindings items⟩
  rw [List.forall₂_map_left_iff, List.forall₂_map_right_iff]
  exact (lower_made hbindings).imp fun o b hmade => ⟨rfl, b, hmade, rfl⟩

theorem places_addTo_scopeOf (h : Item.UniqueScopes items) {name : Text} {inner : List Item}
    {origins : List (List Text × Origin)}
    (hinner : Places (path ++ [options.scopeName name]) [] inner origins) :
    Places path items (Item.addTo items (scopeOf options name inner))
      (origins.map fun o => (o.1, o.2.enclose name)) := by
  obtain ⟨more, hmore, hperm⟩ := hinner.placed
  have hgrows := Item.grows_addTo h (scopeOf options name inner)
    (uniqueScopes_scopeOf options name hinner.unique)
  refine ⟨hgrows.unique, more.map fun b => (b.1, b.2.enclose name), ?_, ?_⟩
  · rw [List.forall₂_map_left_iff, List.forall₂_map_right_iff]
    exact hmore.imp fun o b hb => hb.enclose name
  · refine (hgrows.placed path).trans (List.Perm.append_left _ ?_)
    rw [scopeOf, Item.placed_scope_cons, Item.placed_use_cons, Item.placed_nil, List.append_nil,
      Item.enclose, Item.placed_mapBlocksOf_map]
    exact hperm.map _

end

mutual

theorem places_composeDeclaration {options : Options} {items grown : List Item}
    (path : List Text) (h : Item.UniqueScopes items) {d : Declaration}
    (hgrown : (composeDeclaration options items d).result = .ok grown) :
    Places path items grown (placedIn options path [] d) := by
  obtain ⟨hplain, bindings, hbindings, rfl⟩ | ⟨name, statements, _, _, inner, hd, hinner, rfl⟩ :=
    composeDeclaration_cases hgrown
  · rw [placedIn_of_plain hplain]
    exact places_addBindings h hbindings
  · rw [hd]
    simp only [placedIn, Bool.or_self, Bool.false_eq_true, if_false, List.nil_append]
    rw [placedOf_cons]
    exact places_addTo_scopeOf h (places_composeStatements _ Item.uniqueScopes_nil hinner)
termination_by sizeOf d
decreasing_by
  simp only [hd, Declaration.space.sizeOf_spec, Namespace.mk.sizeOf_spec,
    NamespaceBody.block.sizeOf_spec]
  omega

theorem places_composeStatements {options : Options} {items grown : List Item}
    (path : List Text) (h : Item.UniqueScopes items) {statements : List Statement}
    (hgrown : (composeStatements options items statements).result = .ok grown) :
    Places path items grown (placedOf options path [] statements) := by
  match statements with
  | [] =>
      rw [← Except.ok.inj hgrown]
      exact places_nil h
  | .declaration d :: rest | .exportDeclaration d _ :: rest
  | .exportDefaultDeclaration d _ :: rest =>
      simp only [composeStatements, result_bind_eq_ok_iff] at hgrown
      obtain ⟨between, hbetween, hrest⟩ := hgrown
      have hfirst := places_composeDeclaration path h hbetween
      simp only [placedOf]
      exact hfirst.trans (places_composeStatements path hfirst.unique hrest)
  | .importDeclaration _ :: rest | .importAlias _ :: rest | .exportList _ :: rest
  | .exportDefaultName _ _ :: rest | .exportAll _ _ _ :: rest | .exportAssignment _ _ :: rest
  | .exportAsNamespace _ _ :: rest | .stray _ :: rest =>
      simp only [composeStatements] at hgrown
      simp only [placedOf]
      exact places_composeStatements path h hgrown
termination_by sizeOf statements

end

theorem places_composeDeclarations {options : Options} {items grown : List Item}
    (h : Item.UniqueScopes items) {declarations : List Declaration}
    (hgrown : (composeDeclarations options items declarations).result = .ok grown) :
    Places [] items grown (placedAll options declarations) := by
  induction declarations generalizing items with
  | nil =>
      rw [← Except.ok.inj hgrown]
      exact places_nil h
  | cons d rest ih =>
      simp only [composeDeclarations, result_bind_eq_ok_iff] at hgrown
      obtain ⟨between, hbetween, hrest⟩ := hgrown
      have hfirst := places_composeDeclaration [] h hbetween
      exact hfirst.trans (ih hfirst.unique hrest)

theorem placed_foldl_enclose (names path : List Text) (items : List Item) :
    Item.placed path (names.foldl (fun items name => Item.enclose name items) items) =
      (Item.placed path items).map fun place => (place.1, place.2.encloseAll names.reverse) := by
  induction names generalizing items with
  | nil => exact (List.map_id _).symm
  | cons name rest ih =>
      rw [List.foldl_cons, ih, Item.enclose, Item.placed_mapBlocksOf_map, List.map_map]
      apply List.map_congr_left
      intro place _
      simp [Binding.encloseAll]

theorem blocks_unit (links : List Use) (options : Options) (items : List Item) :
    (SourceUnit.mk (links.map Item.use ++ preludeItems options items ++ items)).blocks =
      Item.blocksOf [] items := by
  have hprelude : Item.blocksOf [] (preludeItems options items) = [] := by
    rw [preludeItems]
    split <;> rfl
  rw [SourceUnit.blocks, Item.blocksOf_append, Item.blocksOf_append, Item.blocksOf_map_use,
    hprelude, List.nil_append, List.nil_append]

/-- A composed unit holds one binding for each origin of the module's visible declarations, in its
place and inside the names for scripts. -/
theorem placed_of_compose {options : Options} {m : Module} {u : SourceUnit}
    (h : (compose options m).result = .ok u) :
    ∃ more, List.Forall₂ (MadeAt (scriptNames m.body).reverse)
        (placedAll options m.visibleDeclarations) more ∧ u.placed.Perm more := by
  obtain ⟨links, items, _, hitems, rfl⟩ := compose_eq_ok_iff.mp h
  obtain ⟨more, hmore, hperm⟩ :=
    (places_composeDeclarations Item.uniqueScopes_nil hitems).placed
  refine ⟨more.map fun b => (b.1, b.2.encloseAll (scriptNames m.body).reverse), ?_, ?_⟩
  · rw [List.forall₂_map_right_iff]
    refine hmore.imp fun o b ⟨hpath, made, hmade, hb⟩ => ⟨hpath, made, hmade, ?_⟩
    rw [hb]
    rfl
  · rw [SourceUnit.placed, Item.placed, ← SourceUnit.blocks, blocks_unit, ← Item.placed,
      encloseInScripts, placed_foldl_enclose]
    rw [Item.placed_nil, List.nil_append] at hperm
    exact hperm.map _

theorem typeBinding_mem_placed_iff {options : Options} {m : Module} {u : SourceUnit}
    (h : (compose options m).result = .ok u) {path : List Text} {b : Binding} :
    (path, b) ∈ u.placed ∧ b.isHostType = true ↔
      ∃ spaces d name, (path, ⟨spaces, d, none⟩) ∈ placedAll options m.visibleDeclarations ∧
        declaresType d = true ∧ d.name? = some name ∧
        b = typeBinding d name ((scriptNames m.body).reverse ++ spaces) := by
  obtain ⟨more, hmore, hperm⟩ := placed_of_compose h
  rw [hperm.mem_iff]
  constructor
  · rintro ⟨hb, htype⟩
    obtain ⟨⟨place, o⟩, ho, hpath, made, hmade, heq⟩ := Collision.exists_of_mem_right hmore hb
    obtain rfl : path = place := hpath
    obtain rfl : b = made.encloseAll _ := heq
    rw [Binding.encloseAll_eq] at htype
    obtain ⟨spaces, d, name, rfl, hd, hname, rfl⟩ := hmade.exists_of_isHostType htype
    exact ⟨spaces, d, name, ho, hd, hname, encloseAll_typeBinding ..⟩
  · rintro ⟨spaces, d, name, ho, hd, hname, rfl⟩
    refine ⟨?_, isHostType_typeBinding ..⟩
    obtain ⟨⟨place, b⟩, hb, hpath, made, hmade, heq⟩ :=
      Collision.exists_of_mem_right hmore.flip ho
    obtain rfl : place = path := hpath
    obtain rfl : b = made.encloseAll _ := heq
    rwa [hmade.eq_typeBinding hd hname, encloseAll_typeBinding] at hb

theorem Arranged.blockPaths_subperm {items : List Item} (h : Arranged items) (path : List Text) :
    ((Item.blocksOf path items).map (·.1)).Subperm (path :: Item.scopePathsOf path items) := by
  induction h generalizing path with
  | nil => exact List.nil_subperm
  | block _ => exact List.Subperm.refl _
  | @scope name inner rest _ _ ihinner ihrest =>
      simp only [Item.blocksOf, Item.blocks, List.nil_append, List.map_append, Item.scopePathsOf,
        Item.scopePaths]
      refine ((ihinner (path ++ [name])).append (ihrest path)).trans ?_
      exact List.perm_middle.subperm

theorem nodup_blockPaths {options : Options} {m : Module} {u : SourceUnit}
    (h : (compose options m).result = .ok u) : (u.blocks.map (·.1)).Nodup := by
  obtain ⟨links, items, _, hitems, rfl⟩ := compose_eq_ok_iff.mp h
  have hshape := wellShaped_encloseInScripts m (wellShaped_composeDeclarations hitems)
  rw [blocks_unit]
  obtain ⟨paths, hperm, hsublist⟩ := hshape.arranged.blockPaths_subperm []
  rw [← hperm.nodup_iff]
  refine (List.nodup_cons.mpr ⟨?_, hshape.unique.nodup_scopePathsOf []⟩).sublist hsublist
  intro hroot
  exact absurd (Item.prefix_of_mem_scopePathsOf hroot).2 (Nat.lt_irrefl _)

/-- Two bindings in the same place are in the same block. -/
theorem exists_block_of_placed {options : Options} {m : Module} {u : SourceUnit}
    (h : (compose options m).result = .ok u) {path : List Text} {b b' : Binding}
    (hb : (path, b) ∈ u.placed) (hb' : (path, b') ∈ u.placed) :
    ∃ block ∈ u.blocks, block.1 = path ∧ b ∈ block.2 ∧ b' ∈ block.2 := by
  have hblock : ∀ {c}, (path, c) ∈ u.placed → ∃ block ∈ u.blocks, block.1 = path ∧ c ∈ block.2 := by
    intro c hc
    obtain ⟨block, hblock, hmem⟩ := List.mem_flatMap.mp hc
    obtain ⟨other, hother, heq⟩ := List.mem_map.mp hmem
    obtain ⟨hpath, rfl⟩ := Prod.mk.inj heq
    exact ⟨block, hblock, hpath, hother⟩
  obtain ⟨block, hmem, hpath, hin⟩ := hblock hb
  obtain ⟨block', hmem', hpath', hin'⟩ := hblock hb'
  obtain rfl : block = block' :=
    List.inj_on_of_nodup_map (nodup_blockPaths h) hmem hmem' (hpath.trans hpath'.symm)
  exact ⟨block, hmem, hpath, hin, hin'⟩

end Composition

end HostBindings

import HostBindings.Proofs.ComposedUnits

/-!
Exports meet imports. The uses of an importing unit are written without a look at the exporting one;
they ask for the Rust name of the export. The root of the exporting unit publicly binds that name
for every declaration that the export finds, with two exceptions: a namespace, whose scope module
has a name of its own, and a declaration that is made the default where it stands.
-/

namespace HostBindings

open Source Rust Outcome Lowering HostBindings.Composition

namespace Source

/-- The names that a declaration declares. A statement of variables declares each of them, though it
is known by the first one. -/
def Declaration.names : Declaration → List Text
  | .variableDeclaration d =>
      d.declarators.filterMap fun declarator =>
        match declarator.pattern with
        | .name name _ => some name
        | _ => none
  | d => d.name?.toList

/-- The declarations at the top level of a module, exported or not. -/
def Module.topDeclarations (m : Module) : List Declaration :=
  m.body.filterMap fun
    | .declaration d | .exportDeclaration d _ | .exportDefaultDeclaration d _ => some d
    | _ => none

/-- How a module exports a declaration of its own: where it stands, there as the default, or by a
reference from another statement. -/
inductive ExportForm
  | onTheSpot
  | defaultOnTheSpot
  | byReference
deriving DecidableEq, Repr

/-- A module exports a name that one of its declarations declares: on the spot, in a list of
exports, or as the default, which is the export of the name `default`. The first name is the
exported one, the second one the declared one. -/
inductive Exports (m : Module) : ExportForm → Text → Declaration → Text → Prop
  | onTheSpot {d : Declaration} {loc : Option Location} {name : Text}
      (hstatement : .exportDeclaration d loc ∈ m.body) (hname : name ∈ d.names) :
      Exports m .onTheSpot name d name
  | defaultOnTheSpot {d : Declaration} {loc : Option Location} {name : Text}
      (hstatement : .exportDefaultDeclaration d loc ∈ m.body) (hname : name ∈ d.names) :
      Exports m .defaultOnTheSpot "default" d name
  | inList {l : ExportList} {s : ExportSpecifier} {d : Declaration}
      (hstatement : .exportList l ∈ m.body) (hsource : l.source = none) (hs : s ∈ l.specifiers)
      (hkind : s.kind = .named) (hd : d ∈ m.topDeclarations) (hname : s.name ∈ d.names) :
      Exports m .byReference (s.exported.getD s.name) d s.name
  | asDefault {name : Text} {loc : Option Location} {d : Declaration}
      (hstatement : .exportDefaultName name loc ∈ m.body) (hplain : firstName name = name)
      (hd : d ∈ m.topDeclarations) (hname : name ∈ d.names) :
      Exports m .byReference "default" d name

/-- An export finds its declaration: a reference needs the name that the declaration is known by. -/
def ExportForm.Finds (form : ExportForm) (d : Declaration) (name : Text) : Prop :=
  form = .byReference → d.name? = some name

/-- A module imports something under a name of its own that has a use. -/
inductive Imports (options : Options) (m : Module) : Text → Prop
  | bySpecifier {d : ImportDeclaration} {s : ImportSpecifier}
      (hstatement : .importDeclaration d ∈ m.body) (hs : s ∈ d.specifiers)
      (hkind : s.kind ≠ .whole) : Imports options m s.localName
  | byAlias {a : ImportAlias} {use : Use} (hstatement : .importAlias a ∈ m.body)
      (huse : aliasUse? options a = .ok (some use)) : Imports options m a.name

/-- The exported name that an import asks for; the import of a whole module asks for none. -/
def ImportSpecifier.requested? (s : ImportSpecifier) : Option Text :=
  match s.kind with
  | .named => some (importedName s)
  | .default => some "default"
  | .whole => none

def Declaration.isNamespace : Declaration → Bool
  | .space _ => true
  | _ => false

/-- What a declared name is called at its place in the output: it has its Rust name, but a namespace
with a block has the name of its scope module. -/
def Declaration.outputName? (options : Options) (name : Text) : Declaration → Option Text
  | .space ⟨_, .block _ _, isStringName, isGlobal, _⟩ =>
      if isStringName || isGlobal then none else some (options.scopeName name)
  | .space _ => none
  | _ => some (Identifier.rustName name)

theorem mem_visibleDeclarations {m : Module} {d : Declaration} {name : Text}
    (hmodule : m.isModuleFile = true) (hd : d ∈ m.topDeclarations) (hname : d.name? = some name)
    (hexported : name ∈ m.exportedNames) : d ∈ m.visibleDeclarations := by
  rw [Module.visibleDeclarations, if_pos hmodule]
  obtain ⟨statement, hstatement, hsome⟩ := List.mem_filterMap.mp hd
  refine List.mem_filterMap.mpr ⟨statement, hstatement, ?_⟩
  cases statement with
  | declaration d' =>
      obtain rfl : d' = d := Option.some.inj hsome
      have hcontains : d'.name?.any m.exportedNames.contains = true := by
        simpa [hname] using hexported
      simp only [Module.exposed, hcontains, Bool.or_true, if_true]
  | exportDeclaration d' loc => exact hsome
  | exportDefaultDeclaration d' loc => exact hsome
  | _ => cases hsome

theorem isModuleFile_of_mem {m : Module} {statement : Statement} (h : statement ∈ m.body)
    (hmodule : statement.isModuleSyntax = true) : m.isModuleFile = true :=
  List.any_eq_true.mpr ⟨statement, h, hmodule⟩

theorem Exports.mem_visibleDeclarations {m : Module} {form : ExportForm} {exported : Text}
    {d : Declaration} {name : Text} (h : Exports m form exported d name)
    (hfinds : form.Finds d name) : d ∈ m.visibleDeclarations := by
  cases h with
  | onTheSpot hstatement _ | defaultOnTheSpot hstatement _ =>
      rw [Module.visibleDeclarations, if_pos (isModuleFile_of_mem hstatement rfl)]
      exact List.mem_filterMap.mpr ⟨_, hstatement, rfl⟩
  | @inList l s d hstatement hsource hs hkind hd _ =>
      apply Source.mem_visibleDeclarations (isModuleFile_of_mem hstatement rfl) hd (hfinds rfl)
      refine List.mem_flatMap.mpr ⟨_, hstatement, ?_⟩
      obtain ⟨specifiers, source, typeOnly, loc⟩ := l
      obtain rfl : source = none := hsource
      refine List.mem_map.mpr ⟨s, List.mem_filter.mpr ⟨hs, ?_⟩, rfl⟩
      simpa using hkind
  | asDefault hstatement hplain hd _ =>
      apply Source.mem_visibleDeclarations (isModuleFile_of_mem hstatement rfl) hd (hfinds rfl)
      refine List.mem_flatMap.mpr ⟨_, hstatement, ?_⟩
      rw [Statement.exportedNames, hplain]
      exact List.mem_singleton_self _

theorem Exports.mem_names {m : Module} {form : ExportForm} {exported : Text} {d : Declaration}
    {name : Text} (h : Exports m form exported d name) : name ∈ d.names := by
  cases h <;> assumption

end Source

/-- The names of the bindings that belong to no type. -/
def Binding.freeNames (bindings : List Binding) : List Text :=
  (bindings.filter fun b => (Collision.nameSpace b).isNone).map (·.name)

namespace Rust

/-- The names that items declare at their own level: types, functions, statics and scope modules. -/
def Item.localNames (items : List Item) : List Text :=
  items.flatMap fun
    | .block bindings => Binding.freeNames bindings
    | .scope name _ => [name]
    | _ => []

namespace SourceUnit

/-- The root declares the name, or a use there binds it. -/
def Binds (u : SourceUnit) (name : Text) : Prop :=
  name ∈ Item.localNames u.items ∨ ∃ use ∈ u.rootUses, use.boundName = some name

/-- The root declares the name, or passes on under it a name that it binds. -/
def PubliclyBinds (u : SourceUnit) (name : Text) : Prop :=
  name ∈ Item.localNames u.items ∨
    ∃ use ∈ u.rootUses, use.isPublic = true ∧ use.path = [Text.ofString "self"] ∧
      use.boundName = some name ∧ ∃ target, use.name = some target ∧ u.Binds target

/-- Every import of the name from another unit becomes a use of a name that the unit publicly
binds. -/
def Serves (u : SourceUnit) (exported : Text) : Prop :=
  ∀ path source s, ImportSpecifier.requested? s = some exported →
    ∃ use target, (linkImport path source s).result = .ok (some use) ∧ use.path = path ∧
      use.name = some target ∧ u.PubliclyBinds target

end SourceUnit

end Rust

theorem Binding.mem_freeNames {name : Text} {bindings : List Binding} :
    name ∈ freeNames bindings ↔
      ∃ b ∈ bindings, Collision.nameSpace b = none ∧ b.name = name := by
  simp [freeNames, and_assoc]

theorem Binding.freeNames_append (xs ys : List Binding) :
    freeNames (xs ++ ys) = freeNames xs ++ freeNames ys := by
  simp [freeNames]

/-- A type or function that loses its name to another one leaves the name bound. -/
theorem Binding.freeNames_subset_resolve (bindings : List Binding) :
    freeNames bindings ⊆ freeNames (Collision.resolve bindings) := by
  intro name hname
  obtain ⟨b, hb, hfree, rfl⟩ := mem_freeNames.mp hname
  rw [mem_freeNames]
  -- types are folded by name, functions and statics claim a name; neither goes away
  cases hhost : b.isHostType with
  | true =>
      have htype : b.name ∈ hostTypeNames bindings :=
        List.mem_map_of_mem (List.mem_filter.mpr ⟨hb, hhost⟩)
      obtain ⟨kept, hkept, hsame⟩ :=
        List.mem_map.mp (Collision.mem_hostTypeNames_resolve.mpr htype)
      obtain ⟨hmem, htypeKept⟩ := List.mem_filter.mp hkept
      refine ⟨kept, hmem, ?_, hsame⟩
      obtain ⟨name, shape, attributes, loc⟩ := kept
      cases shape with
      | hostType => rfl
      | static type => rfl
      | function params result => cases htypeKept
  | false =>
      have hclaim := Collision.claimOf_mem_claims_resolve hb (by simp [Collision.isMember, hhost])
      obtain ⟨kept, hkept, hsame⟩ := List.mem_map.mp hclaim
      obtain ⟨hspace, hkeptName⟩ := Collision.Claim.mk.injEq .. ▸ hsame
      exact ⟨kept, (List.mem_filter.mp hkept).1, hspace.trans hfree, hkeptName⟩

theorem Binding.freeNames_map_mapTypes (f : Bool → BindingType → BindingType)
    (bindings : List Binding) : freeNames (bindings.map (mapTypes f)) = freeNames bindings := by
  simp [freeNames, List.filter_map, Function.comp_def, Collision.nameSpace_mapTypes]

theorem Binding.freeNames_map_enclose (name : Text) (bindings : List Binding) :
    freeNames (bindings.map (enclose name)) = freeNames bindings := by
  rw [freeNames, List.filter_map, List.map_map]
  rfl

namespace Rust.Item

@[simp] theorem localNames_nil : localNames [] = [] := rfl

@[simp] theorem localNames_use_cons (u : Use) (rest : List Item) :
    localNames (.use u :: rest) = localNames rest := rfl

@[simp] theorem localNames_stray_cons (written : Text) (rest : List Item) :
    localNames (.stray written :: rest) = localNames rest := rfl

@[simp] theorem localNames_block_cons (bindings : List Binding) (rest : List Item) :
    localNames (.block bindings :: rest) = Binding.freeNames bindings ++ localNames rest := rfl

@[simp] theorem localNames_scope_cons (name : Text) (inner rest : List Item) :
    localNames (.scope name inner :: rest) = name :: localNames rest := rfl

theorem localNames_append (items more : List Item) :
    localNames (items ++ more) = localNames items ++ localNames more :=
  List.flatMap_append

theorem localNames_map_use (us : List Use) : localNames (us.map .use) = [] := by
  induction us with
  | nil => rfl
  | cons u rest ih => exact ih

theorem mem_localNames_addBindings {name : Text} {bindings : List Binding} {items : List Item} :
    name ∈ localNames (addBindings bindings items) ↔
      name ∈ localNames items ∨ name ∈ Binding.freeNames bindings := by
  induction items with
  | nil =>
      rw [addBindings]
      split
      · simp_all [Binding.freeNames]
      · simp
  | cons item rest ih =>
      cases item with
      | use u => simpa [addBindings] using ih
      | stray written => simpa [addBindings] using ih
      | scope other inner => simp [addBindings, ih, or_assoc]
      | block existing =>
          simp only [addBindings, localNames_block_cons, Binding.freeNames_append, List.mem_append]
          exact or_right_comm

theorem localNames_mapScope (name : Text) (f : List Item → List Item) (items : List Item) :
    localNames (mapScope name f items) = localNames items := by
  induction items with
  | nil => rfl
  | cons item rest ih =>
      rw [mapScope, List.map_cons, ← mapScope]
      cases item with
      | scope other inner =>
          dsimp only
          split <;> rw [localNames_scope_cons, localNames_scope_cons, ih]
      | _ => simp [ih]

theorem mem_localNames_of_hasScope {name : Text} {items : List Item}
    (h : hasScope name items = true) : name ∈ localNames items := by
  obtain ⟨item, hitem, hname⟩ := List.any_eq_true.mp h
  refine List.mem_flatMap.mpr ⟨item, hitem, ?_⟩
  cases item with
  | scope other inner => exact List.mem_singleton.mpr (eq_of_beq hname).symm
  | _ => cases hname

theorem mem_localNames_addTo_scope {name other : Text} {inner items : List Item} :
    name ∈ localNames (addTo items (.scope other inner)) ↔
      name = other ∨ name ∈ localNames items := by
  rw [addTo]
  split
  · rename_i hhas
    rw [localNames_mapScope]
    refine ⟨Or.inr, ?_⟩
    rintro (rfl | hname)
    · exact mem_localNames_of_hasScope hhas
    · exact hname
  · have hperm := insertBeforeBlock_perm (.scope other inner) items
    rw [localNames, (hperm.flatMap_right _).mem_iff]
    exact List.mem_cons

theorem localNames_subset_mapBlocksOf {f : List Binding → List Binding}
    (hf : ∀ bindings, Binding.freeNames bindings ⊆ Binding.freeNames (f bindings))
    (items : List Item) : localNames items ⊆ localNames (mapBlocksOf f items) := by
  induction items with
  | nil => exact List.Subset.refl _
  | cons item rest ih =>
      cases item with
      | use u => exact ih
      | stray written => exact ih
      | scope name inner => exact List.cons_subset_cons name ih
      | block bindings =>
          intro name hname
          exact List.mem_append.mpr ((List.mem_append.mp hname).imp (hf bindings ·) (ih ·))

end Rust.Item

namespace Lowering

theorem DeclarationForm.free {d : Declaration} {form : Binding} {name : Text}
    (h : DeclarationForm d form) (hname : d.name? = some name) :
    Collision.nameSpace form = none ∧ form.name = Identifier.rustName name := by
  cases h with
  | hostType _ hother =>
      obtain rfl : _ = name := Option.some.inj (hother.symm.trans hname)
      exact ⟨rfl, rfl⟩
  | function hother _ _ =>
      obtain rfl : _ = name := Option.some.inj (hother.symm.trans hname)
      exact ⟨rfl, rfl⟩
  | static hother _ =>
      obtain rfl : _ = name := Option.some.inj (hother.symm.trans hname)
      exact ⟨rfl, rfl⟩

theorem origin_mem_originsIn {d : Declaration} {name : Text} (hname : d.name? = some name)
    (hspace : d.isNamespace = false) {options : Options} {bindings : List Binding}
    (h : (lower options [] d).result = .ok bindings) : ⟨[], d, none⟩ ∈ originsIn [] d := by
  cases d with
  | space d => cases hspace
  | enumeration d => cases h
  | stray s => cases hname
  | _ => simp only [originsIn, List.mem_cons, true_or]

theorem exists_declarator_of_lowerVariables {options : Options} {within : List Text}
    {d : VariableDeclaration} {bindings : List Binding}
    (h : (lowerVariables options within d).result = .ok bindings) :
    ∃ declarator, d.declarators = [declarator] := by
  rw [lowerVariables] at h
  split at h
  · cases h
  · rename_i declarator _ hsingle
    exact ⟨declarator, hsingle⟩
  · cases h

/-- A declaration that can be lowered declares no name but the one that it is known by. -/
theorem name?_of_mem_names {options : Options} {within : List Text} {d : Declaration} {name : Text}
    {bindings : List Binding} (h : (lower options within d).result = .ok bindings)
    (hname : name ∈ d.names) : d.name? = some name := by
  cases d with
  | variableDeclaration d =>
      rw [lower, inDeclaration, result_within_eq_ok_iff] at h
      obtain ⟨⟨pattern, annotated, loc⟩, hsingle⟩ := exists_declarator_of_lowerVariables h
      rw [Declaration.names, hsingle] at hname
      rw [Declaration.name?, hsingle]
      cases pattern with
      | name own _ => exact congrArg some (List.mem_singleton.mp hname).symm
      | object | array | absent => cases hname
  | _ => exact Option.mem_toList.mp hname

theorem rustName_mem_freeNames {options : Options} {d : Declaration} {name : Text}
    {bindings : List Binding} (h : (lower options [] d).result = .ok bindings)
    (hdeclares : name ∈ d.names) (hspace : d.isNamespace = false) :
    Identifier.rustName name ∈ Binding.freeNames bindings := by
  have hname := name?_of_mem_names h hdeclares
  have horigin := origin_mem_originsIn hname hspace h
  obtain ⟨b, hb, hmade⟩ := Collision.exists_of_mem_right (lower_made h).flip horigin
  cases hmade with
  | declared _ hform =>
      obtain ⟨hfree, hrust⟩ := hform.free hname
      exact Binding.mem_freeNames.mpr ⟨_, hb, hfree, hrust⟩

end Lowering

namespace Composition

variable {options : Options} {items grown : List Item}

theorem rustName_of_outputName {d : Declaration} {name output : Text}
    (hscope : makesScope d = false) (h : d.outputName? options name = some output) :
    d.isNamespace = false ∧ Identifier.rustName name = output := by
  cases d with
  | space d =>
      obtain ⟨raw, body, isStringName, isGlobal, loc⟩ := d
      cases body with
      | missing => cases h
      | nested inner => cases h
      | block statements blockLoc =>
          rw [makesScope, Bool.not_eq_false'] at hscope
          rw [Declaration.outputName?, if_pos hscope] at h
          cases h
  | _ => exact ⟨rfl, Option.some.inj h⟩

theorem localNames_composeDeclaration {d : Declaration}
    (h : (composeDeclaration options items d).result = .ok grown) :
    Item.localNames items ⊆ Item.localNames grown ∧
      ∀ name ∈ d.names, ∀ output, d.outputName? options name = some output →
        output ∈ Item.localNames grown := by
  obtain ⟨hscope, bindings, hbindings, rfl⟩ | ⟨raw, statements, _, _, inner, rfl, _, rfl⟩ :=
    composeDeclaration_cases h
  · refine ⟨fun name hname => Item.mem_localNames_addBindings.mpr (Or.inl hname), ?_⟩
    intro name hname output houtput
    obtain ⟨hspace, rfl⟩ := rustName_of_outputName hscope houtput
    exact Item.mem_localNames_addBindings.mpr
      (Or.inr (rustName_mem_freeNames hbindings hname hspace))
  · refine ⟨fun name hname => Item.mem_localNames_addTo_scope.mpr (Or.inr hname), ?_⟩
    intro name hname output houtput
    obtain rfl : name = raw := List.mem_singleton.mp hname
    exact Item.mem_localNames_addTo_scope.mpr (Or.inl (Option.some.inj houtput).symm)

theorem localNames_composeDeclarations {declarations : List Declaration}
    (h : (composeDeclarations options items declarations).result = .ok grown) :
    Item.localNames items ⊆ Item.localNames grown ∧
      ∀ d ∈ declarations, ∀ name ∈ d.names, ∀ output, d.outputName? options name = some output →
        output ∈ Item.localNames grown := by
  induction declarations generalizing items with
  | nil =>
      rw [← Except.ok.inj h]
      exact ⟨List.Subset.refl _, nofun⟩
  | cons d rest ih =>
      simp only [composeDeclarations, result_bind_eq_ok_iff] at h
      obtain ⟨between, hbetween, hrest⟩ := h
      obtain ⟨hkept, hbound⟩ := localNames_composeDeclaration hbetween
      obtain ⟨hkeptRest, hboundRest⟩ := ih hrest
      refine ⟨List.Subset.trans hkept hkeptRest, ?_⟩
      intro other hother name hname output houtput
      rcases List.mem_cons.mp hother with rfl | hother
      · exact hkeptRest (hbound name hname output houtput)
      · exact hboundRest other hother name hname output houtput

theorem localNames_subset_encloseInScripts (m : Module) (items : List Item) :
    Item.localNames items ⊆ Item.localNames (encloseInScripts m items) := by
  rw [encloseInScripts]
  induction scriptNames m.body generalizing items with
  | nil => exact List.Subset.refl _
  | cons script rest ih =>
      refine List.Subset.trans (Item.localNames_subset_mapBlocksOf ?_ items) (ih _)
      intro bindings
      rw [Binding.freeNames_map_enclose]
      exact List.Subset.refl _

theorem outputName_mem_localNames {m : Module} {u : SourceUnit}
    (h : (compose options m).result = .ok u) {d : Declaration} (hd : d ∈ m.visibleDeclarations)
    {name output : Text} (hname : name ∈ d.names)
    (houtput : d.outputName? options name = some output) : output ∈ Item.localNames u.items := by
  obtain ⟨links, items, _, hitems, rfl⟩ := compose_eq_ok_iff.mp h
  have hcomposed : output ∈ Item.localNames items :=
    (localNames_composeDeclarations hitems).2 d hd name hname output houtput
  rw [Item.localNames_append]
  exact List.mem_append_right _ (localNames_subset_encloseInScripts m items hcomposed)

end Composition

theorem localNames_subset_finish (options : Options) (u : SourceUnit) :
    Item.localNames u.items ⊆ Item.localNames (finish options u).items := by
  have hlegalize : Item.localNames u.items ⊆
      Item.localNames u.resolveCollisions.legalize.items := by
    refine List.Subset.trans
      (Item.localNames_subset_mapBlocksOf Binding.freeNames_subset_resolve u.items)
      (Item.localNames_subset_mapBlocksOf ?_ _)
    intro bindings
    rw [Binding.freeNames_map_mapTypes]
    exact List.Subset.refl _
  rw [finish]
  split
  · rw [SourceUnit.addHostUses, Item.localNames_append, Item.localNames_map_use, List.nil_append]
    exact hlegalize
  · exact hlegalize

theorem Rust.Use.boundName_of_rename {u : Use} {name : Text} (hglob : u.glob = false)
    (hrename : u.rename = some name) (hname : name ≠ []) : u.boundName = some name := by
  obtain ⟨c, rest, rfl⟩ := List.exists_cons_of_ne_nil hname
  rw [boundName, hglob, hrename]
  rfl

namespace Composition

theorem mem_linkAll {α : Type} {f : α → Outcome (Option Use)} {as : List α} {links : List Use}
    (h : (linkAll f as).result = .ok links) {a : α} (ha : a ∈ as) {use : Use}
    (huse : (f a).result = .ok (some use)) : use ∈ links := by
  induction as generalizing links with
  | nil => cases ha
  | cons first rest ih =>
      simp only [linkAll, result_bind_eq_ok_iff] at h
      obtain ⟨head, hhead, tail, htail, hreturn⟩ := h
      rw [← Except.ok.inj hreturn]
      rcases List.mem_cons.mp ha with rfl | hrest
      · obtain rfl : head = some use := Except.ok.inj (hhead.symm.trans huse)
        exact List.mem_cons_self
      · exact List.mem_append_right _ (ih htail hrest)

theorem mem_uses {options : Options} {body : List Statement} {links : List Use}
    (h : (uses options body).result = .ok links) {statement : Statement}
    (hstatement : statement ∈ body) {use : Use}
    (huse : ∀ own, (link options statement).result = .ok own → use ∈ own) : use ∈ links := by
  induction body generalizing links with
  | nil => cases hstatement
  | cons first rest ih =>
      simp only [uses, result_bind_eq_ok_iff] at h
      obtain ⟨head, hhead, tail, htail, hreturn⟩ := h
      rw [← Except.ok.inj hreturn]
      rcases List.mem_cons.mp hstatement with rfl | hrest
      · exact List.mem_append_left _ (huse head hhead)
      · exact List.mem_append_right _ (ih htail hrest)

theorem mem_rootUses_of_link {options : Options} {m : Module} {u : SourceUnit}
    (h : (compose options m).result = .ok u) {statement : Statement}
    (hstatement : statement ∈ m.body) {use : Use}
    (huse : ∀ own, (link options statement).result = .ok own → use ∈ own) : use ∈ u.rootUses := by
  obtain ⟨links, items, hlinks, _, rfl⟩ := compose_eq_ok_iff.mp h
  rw [SourceUnit.rootUses_append, SourceUnit.rootUses_append, SourceUnit.rootUses_map_use]
  exact List.mem_append_left _ (List.mem_append_left _ (mem_uses hlinks hstatement huse))

theorem boundName_useOf (path : List Text) (name rename : Text) (isPublic : Bool) :
    (useOf path name (some rename) isPublic).boundName = some (Identifier.rustName rename) := by
  by_cases hsame : Identifier.rustName rename = Identifier.rustName name
  · have hnone : (useOf path name (some rename) isPublic).rename = none := by
      simp [useOf, hsame]
    rw [Use.boundName, hnone, hsame]
    rfl
  · have hsome : (useOf path name (some rename) isPublic).rename =
        some (Identifier.rustName rename) := by
      simp [useOf, hsame]
    exact Use.boundName_of_rename rfl hsome (Identifier.rustName_ne_nil rename)

theorem rustName_default : Identifier.rustName "default" = "default" := rfl

theorem linkImport_of_requested (path : List Text) (source : Text) {s : ImportSpecifier}
    {name : Text} (h : s.requested? = some name) :
    ∃ use, (linkImport path source s).result = .ok (some use) ∧ use.path = path ∧
      use.name = some (Identifier.rustName name) := by
  obtain ⟨kind, localName, imported, loc⟩ := s
  cases kind with
  | named =>
      obtain rfl := Option.some.inj h
      exact ⟨_, rfl, rfl, rfl⟩
  | default =>
      obtain rfl := Option.some.inj h
      exact ⟨_, rfl, rfl, congrArg some rustName_default.symm⟩
  | whole => cases h

theorem boundName_of_aliasUse {options : Options} {a : ImportAlias} {use : Use}
    (h : aliasUse? options a = .ok (some use)) :
    use.boundName = some (Identifier.rustName a.name) := by
  rw [aliasUse?] at h
  split at h
  · cases h
  · dsimp only at h
    split at h
    · cases h
    · split at h
      · cases h
      · rw [← Option.some.inj (Except.ok.inj h)]
        exact Use.boundName_of_rename rfl rfl (Identifier.rustName_ne_nil _)
  · split at h
    · cases h
    · rw [← Option.some.inj (Except.ok.inj h)]
      exact boundName_useOf _ _ _ _

theorem exists_rootUse_of_imports {options : Options} {m : Module} {u : SourceUnit}
    (h : (compose options m).result = .ok u) {name : Text} (hname : Imports options m name) :
    ∃ use ∈ u.rootUses, use.boundName = some (Identifier.rustName name) := by
  cases hname with
  | @bySpecifier d s hstatement hs hkind =>
      have hlink : ∃ use, (linkImport (options.specifierPath d.source) d.source s).result =
          .ok (some use) ∧ use.boundName = some (Identifier.rustName s.localName) := by
        rw [linkImport]
        split
        · exact ⟨_, rfl, boundName_useOf _ _ _ _⟩
        · exact ⟨_, rfl, Use.boundName_of_rename rfl rfl (Identifier.rustName_ne_nil _)⟩
        · rename_i hwhole
          exact absurd hwhole hkind
      obtain ⟨use, huse, hbound⟩ := hlink
      exact ⟨use, mem_rootUses_of_link h hstatement fun own hown => mem_linkAll hown hs huse,
        hbound⟩
  | @byAlias a use hstatement huse =>
      have hlink : (linkAlias options a).result = .ok (some use) := by
        rw [linkAlias, huse]
        rfl
      refine ⟨use, mem_rootUses_of_link h hstatement fun own hown =>
        mem_linkAll hown (List.mem_singleton_self a) hlink, boundName_of_aliasUse huse⟩

end Composition

theorem serves_iff_publiclyBinds {u : SourceUnit} {name : Text} :
    u.Serves name ↔ u.PubliclyBinds (Identifier.rustName name) := by
  constructor
  · intro h
    obtain ⟨use, target, hlink, _, htarget, hbinds⟩ := h [] [] ⟨.named, name, none, none⟩ rfl
    obtain rfl := Option.some.inj (Except.ok.inj hlink)
    obtain rfl := Option.some.inj htarget
    exact hbinds
  · intro h path source s hs
    obtain ⟨use, hlink, hpath, hname⟩ := linkImport_of_requested path source hs
    exact ⟨use, _, hlink, hpath, hname, h⟩

theorem not_serves {u : SourceUnit} {name : Text}
    (hlocal : Identifier.rustName name ∉ Item.localNames u.items)
    (huses : ∀ use ∈ u.rootUses, use.isPublic = false) : ¬ u.Serves name := by
  intro h
  rcases serves_iff_publiclyBinds.mp h with hmem | ⟨use, huse, hpublic, _⟩
  · exact hlocal hmem
  · rw [huses use huse] at hpublic
    cases hpublic

theorem publiclyBinds_default {options : Options} {m : Module} {u : SourceUnit}
    (h : (compose options m).result = .ok u) {name : Text} {loc : Option Location}
    (hstatement : .exportDefaultName name loc ∈ m.body)
    (hname : u.Binds (Identifier.rustName name)) :
    u.PubliclyBinds (Identifier.rustName "default") := by
  have hroot : { path := ["self"], name := some (Identifier.rustName name)
                 rename := some "default" : Use } ∈ u.rootUses := by
    apply mem_rootUses_of_link h hstatement
    intro own hown
    rw [← Except.ok.inj hown]
    exact List.mem_singleton_self _
  rw [rustName_default]
  exact Or.inr ⟨_, hroot, rfl, rfl, rfl, _, rfl, hname⟩

/-- A composed unit publicly binds what a module exports, namespaces and what is made the default on
the spot apart. -/
theorem publiclyBinds_of_exports {options : Options} {m : Module} {u : SourceUnit}
    (h : (compose options m).result = .ok u) {form : ExportForm} {exported : Text}
    {d : Declaration} {name : Text} (hexports : Exports m form exported d name)
    (hfinds : form.Finds d name) (hform : form ≠ .defaultOnTheSpot)
    (hspace : d.isNamespace = false) : u.PubliclyBinds (Identifier.rustName exported) := by
  have hdeclared : Identifier.rustName name ∈ Item.localNames u.items := by
    apply outputName_mem_localNames h (hexports.mem_visibleDeclarations hfinds) hexports.mem_names
    cases d with
    | space d => cases hspace
    | _ => rfl
  cases hexports with
  | onTheSpot => exact Or.inl hdeclared
  | defaultOnTheSpot => exact absurd rfl hform
  | @inList l s d hstatement hsource hs hkind =>
      cases hkeeps : keepsName s with
      | true =>
          have hsame :
              Identifier.rustName (s.exported.getD s.name) = Identifier.rustName s.name := by
            cases hexported : s.exported with
            | none => rfl
            | some exported => simpa [keepsName, hexported] using hkeeps
          rw [hsame]
          exact Or.inl hdeclared
      | false =>
          obtain ⟨exported, hexported⟩ : ∃ exported, s.exported = some exported := by
            cases hexported : s.exported with
            | none => simp [keepsName, hexported] at hkeeps
            | some exported => exact ⟨exported, rfl⟩
          have hlink : (linkExport options l.source s).result =
              .ok (some (useOf ["self"] s.name (some exported) true)) := by
            simp [linkExport, hkind, hsource, hkeeps, hexported]
          rw [hexported, Option.getD_some]
          exact Or.inr ⟨_, mem_rootUses_of_link h hstatement fun own hown =>
            mem_linkAll hown hs hlink, rfl, rfl, boundName_useOf _ _ _ _, _, rfl,
            Or.inl hdeclared⟩
  | asDefault hstatement => exact publiclyBinds_default h hstatement (Or.inl hdeclared)

theorem Rust.SourceUnit.Binds.finish {u : SourceUnit} {name : Text} (h : u.Binds name)
    (options : Options) : (finish options u).Binds name := by
  rcases h with hlocal | ⟨use, huse, hbound⟩
  · exact Or.inl (localNames_subset_finish options u hlocal)
  · refine Or.inr ⟨use, ?_, hbound⟩
    rw [rootUses_finish]
    exact List.mem_append_right _ huse

theorem Rust.SourceUnit.PubliclyBinds.finish {u : SourceUnit} {name : Text}
    (h : u.PubliclyBinds name) (options : Options) :
    (finish options u).PubliclyBinds name := by
  rcases h with hlocal | ⟨use, huse, hpublic, hpath, hbound, target, htarget, hbinds⟩
  · exact Or.inl (localNames_subset_finish options u hlocal)
  · refine Or.inr ⟨use, ?_, hpublic, hpath, hbound, target, htarget, hbinds.finish options⟩
    rw [rootUses_finish]
    exact List.mem_append_right _ huse

/-- The root of a compiled unit serves every import of a name that the module exports, if the export
finds a declaration that is no namespace and is not made the default on the spot, and every import
of a default that the module itself imports. What an export finds is there under its own Rust name,
and a namespace with a block under the name of its scope module. -/
theorem compileModule_exportLinkage (options : Options) (m : Module) (u : SourceUnit)
    (h : (compileModule options m).result = .ok u) :
    (∀ form exported d name, Exports m form exported d name → form.Finds d name →
      form ≠ .defaultOnTheSpot → d.isNamespace = false → u.Serves exported) ∧
      (∀ name loc, .exportDefaultName name loc ∈ m.body → Imports options m name →
        u.Serves "default") ∧
      ∀ form exported d name, Exports m form exported d name → form.Finds d name →
        ∀ output, d.outputName? options name = some output → output ∈ Item.localNames u.items := by
  obtain ⟨composed, hcomposed, rfl⟩ := (compileModule_eq_ok_iff options m u).mp h
  refine ⟨?_, ?_, ?_⟩
  · intro form exported d name hexports hfinds hform hspace
    have hbinds := publiclyBinds_of_exports hcomposed hexports hfinds hform hspace
    exact serves_iff_publiclyBinds.mpr (hbinds.finish options)
  · intro name loc hstatement himports
    have hdefault := publiclyBinds_default hcomposed hstatement
      (Or.inr (exists_rootUse_of_imports hcomposed himports))
    exact serves_iff_publiclyBinds.mpr (hdefault.finish options)
  · intro form exported d name hexports hfinds output houtput
    exact localNames_subset_finish options composed
      (outputName_mem_localNames hcomposed (hexports.mem_visibleDeclarations hfinds)
        hexports.mem_names houtput)

/-- A namespace and an interface that are exported on the spot, a function that is exported under
another name, and a default export of something imported. -/
def drawingModule : Module :=
  let function (name : Text) : Declaration := .function ⟨some name, ⟨[], none, []⟩, none⟩
  { body := [
      .importDeclaration ⟨[⟨.named, "Base", none, none⟩], "./base", false, none⟩,
      .exportDeclaration (.space ⟨"svg", .block [.declaration (function "draw")] none, false, false,
        none⟩) none,
      .exportDeclaration (.interface ⟨"XMLNode", [], [], [], none⟩) none,
      .declaration (function "draw"),
      .exportList ⟨[⟨.named, "draw", some "paint", none⟩], none, false, none⟩,
      .exportDefaultName "Base" none] }

theorem drawingModule_exportLinkage :
    ∃ u, (compileModule .standard drawingModule).result = .ok u ∧
      Item.localNames u.items = ([ "svgMod", "XmlNode", "draw"] : List Text) ∧
      u.rootUses.filterMap Use.boundName =
        ([ "Base", "paint", "default", "wasm_bindgen"] : List Text) ∧
      (∀ form exported d name, Exports drawingModule form exported d name → form.Finds d name →
        form ≠ .defaultOnTheSpot → d.isNamespace = false → u.Serves exported) ∧
      (∀ name loc, .exportDefaultName name loc ∈ drawingModule.body →
        Imports .standard drawingModule name → u.Serves "default") ∧
      ∀ form exported d name, Exports drawingModule form exported d name → form.Finds d name →
        ∀ output, d.outputName? .standard name = some output → output ∈ Item.localNames u.items :=
  ⟨_, rfl, rfl, rfl, compileModule_exportLinkage .standard drawingModule _ rfl⟩

/-- A module with nothing but an exported namespace. -/
def svgModule : Module :=
  { body := [.exportDeclaration (.space ⟨"svg", .block [
      .declaration (.function ⟨some "draw", ⟨[], none, []⟩, none⟩)] none, false, false, none⟩)
      none] }

/-- One statement of two variables. -/
def pair : Declaration :=
  .variableDeclaration ⟨"const", [⟨.name "a" none, none, none⟩, ⟨.name "b" none, none, none⟩], none⟩

/-- A module that exports the second of two variables. -/
def pairModule : Module :=
  { body := [.declaration pair, .exportList ⟨[⟨.named, "b", none, none⟩], none, false, none⟩] }

/-- A module with nothing but a function that is made the default on the spot. -/
def greetingModule : Module :=
  { body := [.exportDefaultDeclaration (.function ⟨some "greet", ⟨[], none, []⟩, none⟩) none] }

/-- Imports of these exports find nothing: of a namespace by its name, of a variable that its
statement is not known by, and of a declaration that is made the default on the spot. -/
theorem exports_not_served :
    (∃ u d, (compileModule .standard svgModule).result = .ok u ∧
      Exports svgModule .onTheSpot "svg" d "svg" ∧
      Item.localNames u.items = ([ "svgMod"] : List Text) ∧ ¬ u.Serves "svg") ∧
    (∃ u d, (compileModule .standard pairModule).result = .ok u ∧
      Exports pairModule .byReference "b" d "b" ∧ u.items = [] ∧ ¬ u.Serves "b") ∧
    ∃ u d, (compileModule .standard greetingModule).result = .ok u ∧
      Exports greetingModule .defaultOnTheSpot "default" d "greet" ∧
      Item.localNames u.items = ([ "greet"] : List Text) ∧ ¬ u.Serves "default" := by
  refine ⟨?svg, ?pair, ?greeting⟩
  case svg =>
    exact ⟨_, _, rfl, .onTheSpot List.mem_cons_self List.mem_cons_self, rfl,
      not_serves (by decide) (by decide)⟩
  case pair =>
    have hexports : Exports pairModule .byReference "b" pair "b" :=
      .inList (s := ⟨.named, "b", none, none⟩) (List.mem_cons_of_mem _ List.mem_cons_self) rfl
        List.mem_cons_self rfl List.mem_cons_self (List.mem_cons_of_mem _ List.mem_cons_self)
    exact ⟨_, _, rfl, hexports, rfl, not_serves (by decide) (by decide)⟩
  case greeting =>
    exact ⟨_, _, rfl, .defaultOnTheSpot List.mem_cons_self List.mem_cons_self, rfl,
      not_serves (by decide) (by decide)⟩

end HostBindings

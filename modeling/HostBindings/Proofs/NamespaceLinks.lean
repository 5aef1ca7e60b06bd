import HostBindings.Proofs.UnitContents

/-!
Links inside namespaces. An import, or an export by a reference, links a module to names from
elsewhere. At the top level each one has a use or a warning; a namespace takes the declarations of
its body and passes over everything else, so that there a link leaves no trace.
-/

namespace HostBindings

namespace Source

/-- Whether a statement imports something, or exports something by a reference. -/
def Statement.isLink : Statement → Bool
  | .importDeclaration _ | .importAlias _ | .exportList _ | .exportDefaultName _ _
  | .exportAll _ _ _ | .exportAssignment _ _ => true
  | _ => false

mutual

/-- A declaration without the links in the bodies of its namespaces, at any depth. -/
def Declaration.unlinked : Declaration → Declaration
  | .space ⟨name, body, isStringName, isGlobal, loc⟩ =>
      .space ⟨name, body.unlinked, isStringName, isGlobal, loc⟩
  | d => d

def NamespaceBody.unlinked : NamespaceBody → NamespaceBody
  | .missing => .missing
  | .block statements loc => .block (unlinkedBody statements) loc
  | .nested ⟨name, body, isStringName, isGlobal, loc⟩ =>
      .nested ⟨name, body.unlinked, isStringName, isGlobal, loc⟩

def unlinkedBody : List Statement → List Statement
  | [] => []
  | .declaration d :: rest => .declaration d.unlinked :: unlinkedBody rest
  | .exportDeclaration d loc :: rest => .exportDeclaration d.unlinked loc :: unlinkedBody rest
  | .exportDefaultDeclaration d loc :: rest =>
      .exportDefaultDeclaration d.unlinked loc :: unlinkedBody rest
  | s :: rest => if s.isLink then unlinkedBody rest else s :: unlinkedBody rest

end

/-- A statement of the top level, which stays, without the links in its namespaces. -/
def Statement.unlinkedInside : Statement → Statement
  | .declaration d => .declaration d.unlinked
  | .exportDeclaration d loc => .exportDeclaration d.unlinked loc
  | .exportDefaultDeclaration d loc => .exportDefaultDeclaration d.unlinked loc
  | s => s

/-- A module without the links in its namespaces. -/
def Module.unlinkedInside (m : Module) : Module :=
  { m with body := m.body.map Statement.unlinkedInside }

theorem Declaration.name?_unlinked (d : Declaration) : d.unlinked.name? = d.name? := by
  cases d with
  | space d =>
      obtain ⟨name, body, isStringName, isGlobal, loc⟩ := d
      simp only [unlinked, name?]
  | _ => simp only [unlinked]

theorem Module.isGlobalSpace_unlinked (d : Declaration) :
    isGlobalSpace d.unlinked = isGlobalSpace d := by
  cases d with
  | space d =>
      obtain ⟨name, body, isStringName, isGlobal, loc⟩ := d
      simp only [Declaration.unlinked, isGlobalSpace]
  | _ => simp only [Declaration.unlinked]

end Source

namespace Lowering

open Source

theorem restOfName_unlinked : ∀ body : NamespaceBody, restOfName body.unlinked = restOfName body
  | .missing | .block _ _ => by simp only [NamespaceBody.unlinked, restOfName]
  | .nested ⟨name, body, _, _, _⟩ => by
      simp only [NamespaceBody.unlinked, restOfName, dottedName, restOfName_unlinked body]

variable (options : Options)

mutual

theorem lower_unlinked (within : List Text) (d : Declaration) :
    lower options within d.unlinked = lower options within d := by
  cases d with
  | space d =>
      obtain ⟨name, body, isStringName, isGlobal, loc⟩ := d
      have hbody := fun within => lowerNamespace_unlinked within name body isStringName isGlobal loc
      simp only [Declaration.unlinked, lower, inDeclaration, hbody]
      rfl
  | _ => simp only [Declaration.unlinked]

theorem lowerNamespace_unlinked (within : List Text) (name : Text) (body : NamespaceBody)
    (isStringName isGlobal : Bool) (loc : Option Location) :
    lowerNamespace options within ⟨name, body.unlinked, isStringName, isGlobal, loc⟩ =
      lowerNamespace options within ⟨name, body, isStringName, isGlobal, loc⟩ := by
  match body with
  | .missing => simp only [NamespaceBody.unlinked]
  | .block statements blockLoc =>
      simp only [NamespaceBody.unlinked, lowerNamespace, lowerStatements_unlinked within statements]
  | .nested ⟨inner, body, _, _, _⟩ =>
      simp only [NamespaceBody.unlinked, lowerNamespace, dottedName, restOfName_unlinked]

theorem lowerStatements_unlinked (within : List Text) (statements : List Statement) :
    lowerStatements options within (unlinkedBody statements) =
      lowerStatements options within statements := by
  match statements with
  | [] => simp only [unlinkedBody]
  | .declaration d :: rest | .exportDeclaration d _ :: rest
  | .exportDefaultDeclaration d _ :: rest =>
      simp only [unlinkedBody, lowerStatements, lower_unlinked within d,
        lowerStatements_unlinked within rest]
  | .importDeclaration _ :: rest | .importAlias _ :: rest | .exportList _ :: rest
  | .exportDefaultName _ _ :: rest | .exportAll _ _ _ :: rest | .exportAssignment _ _ :: rest
  | .exportAsNamespace _ _ :: rest | .stray _ :: rest =>
      simp only [unlinkedBody, Statement.isLink, if_true, Bool.false_eq_true, if_false,
        lowerStatements, lowerStatements_unlinked within rest]

end

end Lowering

namespace Composition

open Source Rust Outcome Lowering

variable (options : Options)

mutual

theorem composeDeclaration_unlinked (items : List Item) (d : Declaration) :
    composeDeclaration options items d.unlinked = composeDeclaration options items d := by
  cases d with
  | space d =>
      obtain ⟨name, body, isStringName, isGlobal, loc⟩ := d
      have hlower := lower_unlinked options [] (.space ⟨name, body, isStringName, isGlobal, loc⟩)
      match body with
      | .missing => simp only [Declaration.unlinked, NamespaceBody.unlinked]
      | .nested ⟨_, _, _, _, _⟩ =>
          simp only [Declaration.unlinked, NamespaceBody.unlinked] at hlower ⊢
          simp only [composeDeclaration, hlower]
      | .block statements blockLoc =>
          simp only [Declaration.unlinked, NamespaceBody.unlinked] at hlower ⊢
          simp only [composeDeclaration, hlower, composeStatements_unlinked [] statements]
  | _ => simp only [Declaration.unlinked]

theorem composeStatements_unlinked (items : List Item) (statements : List Statement) :
    composeStatements options items (unlinkedBody statements) =
      composeStatements options items statements := by
  match statements with
  | [] => simp only [unlinkedBody]
  | .declaration d :: rest | .exportDeclaration d _ :: rest
  | .exportDefaultDeclaration d _ :: rest =>
      simp only [unlinkedBody, composeStatements, composeDeclaration_unlinked items d]
      congr 1
      funext grown
      exact composeStatements_unlinked grown rest
  | .importDeclaration _ :: rest | .importAlias _ :: rest | .exportList _ :: rest
  | .exportDefaultName _ _ :: rest | .exportAll _ _ _ :: rest | .exportAssignment _ _ :: rest
  | .exportAsNamespace _ _ :: rest | .stray _ :: rest =>
      simp only [unlinkedBody, Statement.isLink, if_true, Bool.false_eq_true, if_false,
        composeStatements]
      exact composeStatements_unlinked items rest

end

theorem composeDeclarations_unlinked (items : List Item) (declarations : List Declaration) :
    composeDeclarations options items (declarations.map Declaration.unlinked) =
      composeDeclarations options items declarations := by
  induction declarations generalizing items with
  | nil => rfl
  | cons d rest ih =>
      simp only [List.map_cons, composeDeclarations, composeDeclaration_unlinked options items d]
      congr 1
      funext grown
      exact ih grown

end Composition

namespace Source.Module

theorem isModuleFile_unlinkedInside (m : Module) :
    m.unlinkedInside.isModuleFile = m.isModuleFile := by
  rw [isModuleFile, isModuleFile, unlinkedInside, List.any_map]
  congr 1
  funext s
  cases s <;> rfl

theorem exportedNames_unlinkedInside (m : Module) :
    m.unlinkedInside.exportedNames = m.exportedNames := by
  rw [exportedNames, exportedNames, unlinkedInside, List.flatMap_map]
  congr 1
  funext s
  cases s <;> rfl

theorem exposed_unlinkedInside (exported : List Text) (s : Statement) :
    exposed exported s.unlinkedInside = (exposed exported s).map Declaration.unlinked := by
  cases s with
  | declaration d =>
      simp only [Statement.unlinkedInside, exposed, isGlobalSpace_unlinked,
        Declaration.name?_unlinked]
      split <;> rfl
  | _ => rfl

theorem visibleDeclarations_unlinkedInside (m : Module) :
    m.unlinkedInside.visibleDeclarations = m.visibleDeclarations.map Declaration.unlinked := by
  rw [visibleDeclarations, visibleDeclarations, isModuleFile_unlinkedInside,
    exportedNames_unlinkedInside, unlinkedInside]
  dsimp only
  split
  · rw [List.filterMap_map, List.map_filterMap]
    congr 1
    funext s
    exact exposed_unlinkedInside m.exportedNames s
  · rw [List.filterMap_map, List.map_filterMap]
    congr 1
    funext s
    cases s <;> rfl

end Source.Module

namespace Composition

open Source Rust Outcome

theorem uses_unlinkedInside (options : Options) (body : List Statement) :
    uses options (body.map Statement.unlinkedInside) = uses options body := by
  induction body with
  | nil => rfl
  | cons s rest ih =>
      have hlink : link options s.unlinkedInside = link options s := by cases s <;> rfl
      rw [List.map_cons, uses, uses, hlink, ih]

theorem scriptNames_unlinkedInside (body : List Statement) :
    scriptNames (body.map Statement.unlinkedInside) = scriptNames body := by
  rw [scriptNames, scriptNames, List.filterMap_map]
  congr 1
  funext s
  cases s <;> rfl

theorem compose_unlinkedInside (options : Options) (m : Module) :
    compose options m.unlinkedInside = compose options m := by
  rw [compose, compose, Module.visibleDeclarations_unlinkedInside, composeDeclarations_unlinked,
    Module.unlinkedInside, uses_unlinkedInside, scriptNames_unlinkedInside]

theorem placedUsesOf_map_use (path : List Text) (links : List Use) :
    Item.placedUsesOf path (links.map Item.use) = links.map fun use => (path, use) := by
  induction links with
  | nil => rfl
  | cons use rest ih => rw [List.map_cons, Item.placedUsesOf, ih]; rfl

/-- Below its root a compiled unit has no uses but those of the names around each scope. -/
theorem eq_enclosingUse_of_mem_placedUses {options : Options} {m : Module} {u : SourceUnit}
    (h : (compileModule options m).result = .ok u) {path : List Text} {use : Use}
    (huse : (path, use) ∈ u.placedUses) (hpath : path ≠ []) : use = enclosingUse := by
  obtain ⟨composed, hcomposed, rfl⟩ := (compileModule_eq_ok_iff options m u).mp h
  obtain ⟨links, items, _, hitems, rfl⟩ := compose_eq_ok_iff.mp hcomposed
  have hshape := wellShaped_encloseInScripts m (wellShaped_composeDeclarations hitems)
  rw [SourceUnit.placedUses, items_finish, Item.placedUsesOf_append, Item.placedUsesOf_mapBlocksOf,
    preludeItems_eq hshape.arranged, ← List.map_append, Item.placedUsesOf_append,
    placedUsesOf_map_use, placedUsesOf_map_use, hshape.arranged.placedUsesOf_eq, List.mem_append,
    List.mem_append] at huse
  rcases huse with hhost | hroot | hinner
  · obtain ⟨_, _, heq⟩ := List.mem_map.mp hhost
    exact absurd (Prod.mk.inj heq).1.symm hpath
  · obtain ⟨_, _, heq⟩ := List.mem_map.mp hroot
    exact absurd (Prod.mk.inj heq).1.symm hpath
  · obtain ⟨_, _, heq⟩ := List.mem_map.mp hinner
    exact (Prod.mk.inj heq).2.symm

end Composition

/-- A link inside a namespace leaves no trace. Without all of them a module compiles to the same
unit, or to the same failure, after the same warnings; and no scope module of the unit has a use
but that of the names around it. -/
theorem compileModule_unlinkedInside (options : Options) (m : Source.Module) :
    compileModule options m.unlinkedInside = compileModule options m ∧
      ∀ u, (compileModule options m).result = .ok u → ∀ path use, (path, use) ∈ u.placedUses →
        path ≠ [] → use = Composition.enclosingUse := by
  constructor
  · rw [compileModule, compileModule, Composition.compose_unlinkedInside]
  · intro u h path use huse hpath
    exact Composition.eq_enclosingUse_of_mem_placedUses h huse hpath

/-- A namespace that gives a type from elsewhere a short name, and has a function of its own. -/
def toolsModule : Source.Module :=
  { body := [.declaration (.space ⟨"ui", .block [
      .importAlias ⟨"Shape", .entity ["geometry", "Shape"], false, none⟩,
      .declaration (.function ⟨some "repaint", ⟨[], none, []⟩, none⟩)] none,
      false, false, none⟩)] }

/-- The scope module has no use of the type, and no warning tells of it. -/
theorem toolsModule_link_lost :
    (compileModule .standard toolsModule).warnings = [] ∧
      ∃ u, (compileModule .standard toolsModule).result = .ok u ∧
        u.placedUses = [([], Composition.preludeUse .standard),
          ([Text.ofString "uiMod"], Composition.enclosingUse)] :=
  ⟨rfl, _, rfl, rfl⟩

end HostBindings

import HostBindings.Compile
import HostBindings.Proofs.LoweringResults
import Mathlib.Data.List.Forall2

/-!
The hidden surface of a module is what nobody outside can use: the private and protected members of
its classes and, in a module file, the declarations that are not exported. It has no influence on
what the module compiles to. Hidden members are passed over before anything is read of them, and a
hidden declaration is never looked at again.
-/

namespace HostBindings

namespace Source

/-- Members that only the class itself or those derived from it can use. -/
inductive Member.IsHidden (member : Member) : Prop
  | owner (h : member.access? = some .owner)
  | family (h : member.access? = some .family)
  | key {key : PropertyKey} (h : member.key? = some key) (hkind : key.kind = .hidden)

/-- The members of a class without some of the hidden ones. -/
inductive MembersTrimmed : List Member → List Member → Prop
  | nil : MembersTrimmed [] []
  | keep {ms ms' : List Member} (m : Member) (h : MembersTrimmed ms ms') :
      MembersTrimmed (m :: ms) (m :: ms')
  | drop {m : Member} {ms ms' : List Member} (hm : m.IsHidden) (h : MembersTrimmed ms ms') :
      MembersTrimmed (m :: ms) ms'

mutual

/-- A declaration in which classes lost hidden members, at any depth. -/
inductive Declaration.Trimmed : Declaration → Declaration → Prop
  | classDeclaration {d : ClassDeclaration} {members : List Member}
      (h : MembersTrimmed d.members members) :
      Declaration.Trimmed (.classDeclaration d) (.classDeclaration { d with members })
  | space {name : Text} {body body' : NamespaceBody} {isStringName isGlobal : Bool}
      {loc : Option Location} (h : NamespaceBody.Trimmed body body') :
      Declaration.Trimmed (.space ⟨name, body, isStringName, isGlobal, loc⟩)
        (.space ⟨name, body', isStringName, isGlobal, loc⟩)
  | same (d : Declaration) : Declaration.Trimmed d d

inductive NamespaceBody.Trimmed : NamespaceBody → NamespaceBody → Prop
  | block {statements statements' : List Statement} {loc : Option Location}
      (h : StatementsTrimmed statements statements') :
      NamespaceBody.Trimmed (.block statements loc) (.block statements' loc)
  | nested {name : Text} {body body' : NamespaceBody} {isStringName isGlobal : Bool}
      {loc : Option Location} (h : NamespaceBody.Trimmed body body') :
      NamespaceBody.Trimmed (.nested ⟨name, body, isStringName, isGlobal, loc⟩)
        (.nested ⟨name, body', isStringName, isGlobal, loc⟩)
  | same (body : NamespaceBody) : NamespaceBody.Trimmed body body

inductive Statement.Trimmed : Statement → Statement → Prop
  | declaration {d d' : Declaration} (h : Declaration.Trimmed d d') :
      Statement.Trimmed (.declaration d) (.declaration d')
  | exportDeclaration {d d' : Declaration} {loc : Option Location}
      (h : Declaration.Trimmed d d') :
      Statement.Trimmed (.exportDeclaration d loc) (.exportDeclaration d' loc)
  | exportDefaultDeclaration {d d' : Declaration} {loc : Option Location}
      (h : Declaration.Trimmed d d') :
      Statement.Trimmed (.exportDefaultDeclaration d loc) (.exportDefaultDeclaration d' loc)
  | same (s : Statement) : Statement.Trimmed s s

inductive StatementsTrimmed : List Statement → List Statement → Prop
  | nil : StatementsTrimmed [] []
  | cons {s s' : Statement} {rest rest' : List Statement} (h : Statement.Trimmed s s')
      (hrest : StatementsTrimmed rest rest') : StatementsTrimmed (s :: rest) (s' :: rest')

end

/-- Names of its own that a module exports by a reference. -/
inductive Module.ExportsByReference (m : Module) : Text → Prop
  | default {reference : Text} {loc : Option Location}
      (h : .exportDefaultName reference loc ∈ m.body) :
      ExportsByReference m (firstName reference)
  | assigned {reference : Text} {loc : Option Location}
      (h : .exportAssignment reference loc ∈ m.body) :
      ExportsByReference m (firstName reference)
  | listed {d : ExportList} {s : ExportSpecifier} (h : .exportList d ∈ m.body)
      (hsource : d.source = none) (hs : s ∈ d.specifiers) (hkind : s.kind = .named) :
      ExportsByReference m s.name

/-- Statements without some of the declarations that are not exported, on the spot or by a
reference of the module, and that do not add to the global scope. -/
inductive DeclarationsDropped (m : Module) : List Statement → List Statement → Prop
  | nil : DeclarationsDropped m [] []
  | keep {ss ss' : List Statement} (s : Statement) (h : DeclarationsDropped m ss ss') :
      DeclarationsDropped m (s :: ss) (s :: ss')
  | drop {d : Declaration} {ss ss' : List Statement} (hglobal : Module.isGlobalSpace d = false)
      (hname : ∀ name, d.name? = some name → ¬ m.ExportsByReference name)
      (h : DeclarationsDropped m ss ss') : DeclarationsDropped m (.declaration d :: ss) ss'

/-- A module without parts of its hidden surface: its classes lost hidden members, and a module
file also lost hidden declarations. -/
inductive Module.Concealed (m : Module) : Module → Prop
  | members {body : List Statement} {loc : Option Location}
      (h : List.Forall₂ Statement.Trimmed m.body body) : Concealed m { body, loc }
  | declarations {trimmed body : List Statement} {loc : Option Location}
      (hfile : m.isModuleFile = true) (htrim : List.Forall₂ Statement.Trimmed m.body trimmed)
      (hdrop : DeclarationsDropped m trimmed body) : Concealed m { body, loc }

end Source

namespace Lowering

open Source

theorem isHidden_of_isHidden {member : Member} (h : member.IsHidden) : isHidden member = true := by
  rcases h with h | h | ⟨h, hkind⟩
  · simp [isHidden, h]
  · simp [isHidden, h]
  · simp [isHidden, h, hkind]

/-- Nothing is read of a hidden member, so that it neither fails nor warns. -/
theorem lowerClassMember_of_isHidden {member : Member} (h : member.IsHidden) (o : Owner)
    (seenConstructor : Bool) : lowerClassMember o seenConstructor member = pure [] := by
  have hhidden := isHidden_of_isHidden h
  cases member with
  | index | staticBlock | empty =>
      rw [isHidden] at hhidden
      exact absurd hhidden Bool.false_ne_true
  | _ => simp only [lowerClassMember, if_pos hhidden]

theorem madeConstructor_nil (member : Member) : madeConstructor member [] = false := by
  cases member <;> rfl

theorem lowerClassMembers_trimmed {ms ms' : List Member} (h : MembersTrimmed ms ms') (o : Owner)
    (seenConstructor : Bool) :
    lowerClassMembers o seenConstructor ms' = lowerClassMembers o seenConstructor ms := by
  induction h generalizing seenConstructor with
  | nil => rfl
  | keep m h ih => simp only [lowerClassMembers, ih]
  | drop hm h ih =>
      have hhead : ∀ member, (inMember o member fun _ => pure []) = pure [] := fun _ => rfl
      simp only [lowerClassMembers, lowerClassMember_of_isHidden hm, hhead, pure_bind,
        madeConstructor_nil, Bool.or_false, List.nil_append, bind_pure, ih]

theorem name?_trimmed {d d' : Declaration} (h : d.Trimmed d') : d'.name? = d.name? := by
  rcases h with _ | _ | _ <;> rfl

theorem kindName_trimmed {d d' : Declaration} (h : d.Trimmed d') : d'.kindName = d.kindName := by
  rcases h with _ | _ | _ <;> rfl

theorem loc_trimmed {d d' : Declaration} (h : d.Trimmed d') : d'.loc = d.loc := by
  rcases h with _ | _ | _ <;> rfl

theorem restOfName_trimmed : ∀ {body body' : NamespaceBody}, body.Trimmed body' →
    restOfName body' = restOfName body
  | _, _, .block _ => rfl
  | _, _, .nested h => by simp only [restOfName, dottedName, restOfName_trimmed h]
  | _, _, .same _ => rfl

theorem inDeclaration_trimmed {d d' : Declaration} (h : d.Trimmed d')
    {f f' : List Text → Outcome (List Binding)} (hf : ∀ within, f' within = f within)
    (within : List Text) : inDeclaration within d' f' = inDeclaration within d f := by
  rw [inDeclaration, inDeclaration, name?_trimmed h, kindName_trimmed h, loc_trimmed h, hf]

theorem lowerClass_trimmed {d : ClassDeclaration} {members : List Member}
    (h : MembersTrimmed d.members members) (options : Options) (within : List Text) :
    lowerClass options within { d with members } = lowerClass options within d := by
  simp only [lowerClass, lowerClassMembers_trimmed h]

mutual

theorem lower_trimmed : ∀ {d d' : Declaration}, d.Trimmed d' → ∀ (options : Options)
    (within : List Text), lower options within d' = lower options within d
  | _, _, .classDeclaration h, options, within => by
      simp only [lower]
      exact inDeclaration_trimmed (.classDeclaration h) (lowerClass_trimmed h options) within
  | _, _, .space h, options, within => by
      simp only [lower]
      exact inDeclaration_trimmed (.space h) (lowerNamespace_trimmed h options) within
  | _, _, .same _, _, _ => rfl

theorem lowerNamespace_trimmed : ∀ {name : Text} {body body' : NamespaceBody}
    {isStringName isGlobal : Bool} {loc : Option Location}, body.Trimmed body' →
    ∀ (options : Options) (within : List Text),
      lowerNamespace options within ⟨name, body', isStringName, isGlobal, loc⟩ =
        lowerNamespace options within ⟨name, body, isStringName, isGlobal, loc⟩
  | _, _, _, _, _, _, .block h, options, within => by
      simp only [lowerNamespace, lowerStatements_trimmed h options within]
  | _, _, _, _, _, _, .nested h, _, _ => by
      simp only [lowerNamespace, dottedName, restOfName_trimmed h]
  | _, _, _, _, _, _, .same _, _, _ => rfl

theorem lowerStatements_trimmed : ∀ {ss ss' : List Statement}, StatementsTrimmed ss ss' →
    ∀ (options : Options) (within : List Text),
      lowerStatements options within ss' = lowerStatements options within ss
  | _, _, .nil, _, _ => rfl
  | _, _, .cons (.declaration h) hrest, options, within => by
      simp only [lowerStatements, lower_trimmed h, lowerStatements_trimmed hrest]
  | _, _, .cons (.exportDeclaration h) hrest, options, within => by
      simp only [lowerStatements, lower_trimmed h, lowerStatements_trimmed hrest]
  | _, _, .cons (.exportDefaultDeclaration h) hrest, options, within => by
      simp only [lowerStatements, lower_trimmed h, lowerStatements_trimmed hrest]
  | _, _, .cons (.same s) hrest, options, within => by
      cases s <;> simp only [lowerStatements, lowerStatements_trimmed hrest]

end

end Lowering

namespace Composition

open Source Rust

variable (options : Options)

mutual

theorem composeDeclaration_trimmed : ∀ {d d' : Declaration}, d.Trimmed d' →
    ∀ items : List Item,
      composeDeclaration options items d' = composeDeclaration options items d
  | _, _, .classDeclaration h, items => by
      simp only [composeDeclaration, Lowering.lower_trimmed (.classDeclaration h)]
  | _, _, .space (.block h), items => by
      simp only [composeDeclaration, Lowering.lower_trimmed (.space (.block h)),
        composeStatements_trimmed h]
  | _, _, .space (.nested h), items => by
      simp only [composeDeclaration, Lowering.lower_trimmed (.space (.nested h))]
  | _, _, .space (.same _), _ => rfl
  | _, _, .same _, _ => rfl

theorem composeStatements_trimmed : ∀ {ss ss' : List Statement}, StatementsTrimmed ss ss' →
    ∀ items : List Item,
      composeStatements options items ss' = composeStatements options items ss
  | _, _, .nil, _ => rfl
  | _, _, .cons (.declaration h) hrest, items => by
      simp only [composeStatements, composeDeclaration_trimmed h, composeStatements_trimmed hrest]
  | _, _, .cons (.exportDeclaration h) hrest, items => by
      simp only [composeStatements, composeDeclaration_trimmed h, composeStatements_trimmed hrest]
  | _, _, .cons (.exportDefaultDeclaration h) hrest, items => by
      simp only [composeStatements, composeDeclaration_trimmed h, composeStatements_trimmed hrest]
  | _, _, .cons (.same s) hrest, items => by
      cases s <;> simp only [composeStatements, composeStatements_trimmed hrest]

end

theorem composeDeclarations_trimmed {ds ds' : List Declaration}
    (h : List.Forall₂ Declaration.Trimmed ds ds') (items : List Item) :
    composeDeclarations options items ds' = composeDeclarations options items ds := by
  induction h generalizing items with
  | nil => rfl
  | cons hd _ ih => simp only [composeDeclarations, composeDeclaration_trimmed options hd, ih]

end Composition

namespace Source

theorem map_trimmed {α : Type} {f : Statement → α}
    (hf : ∀ {s s' : Statement}, s.Trimmed s' → f s' = f s) {ss ss' : List Statement}
    (h : List.Forall₂ Statement.Trimmed ss ss') : ss'.map f = ss.map f := by
  induction h with
  | nil => rfl
  | cons hs _ ih => rw [List.map_cons, List.map_cons, hf hs, ih]

namespace Module

theorem isModuleFile_trimmed {m : Module} {body : List Statement} {loc : Option Location}
    (h : List.Forall₂ Statement.Trimmed m.body body) :
    Module.isModuleFile { body, loc } = m.isModuleFile := by
  have hmodules : ∀ {s s' : Statement}, s.Trimmed s' → s'.isModuleSyntax = s.isModuleSyntax := by
    rintro _ _ (_ | _ | _ | _) <;> rfl
  have hany : ∀ ss : List Statement,
      ss.any Statement.isModuleSyntax = (ss.map Statement.isModuleSyntax).any id := by
    intro ss
    rw [List.any_map]
    rfl
  rw [isModuleFile, isModuleFile, hany, hany, map_trimmed hmodules h]

theorem exportedNames_trimmed {m : Module} {body : List Statement} {loc : Option Location}
    (h : List.Forall₂ Statement.Trimmed m.body body) :
    Module.exportedNames { body, loc } = m.exportedNames := by
  have hnames : ∀ {s s' : Statement}, s.Trimmed s' → s'.exportedNames = s.exportedNames := by
    rintro _ _ (_ | _ | _ | _) <;> rfl
  rw [exportedNames, exportedNames, List.flatMap_def, List.flatMap_def, map_trimmed hnames h]

theorem isGlobalSpace_trimmed {d d' : Declaration} (h : d.Trimmed d') :
    isGlobalSpace d' = isGlobalSpace d := by
  rcases h with _ | _ | _ <;> rfl

theorem exposed_trimmed {s s' : Statement} (h : s.Trimmed s') (exported : List Text) :
    Option.Rel Declaration.Trimmed (exposed exported s) (exposed exported s') := by
  rcases h with hd | hd | hd | s
  · rw [exposed, exposed, isGlobalSpace_trimmed hd, Lowering.name?_trimmed hd]
    split
    · exact .some hd
    · exact .none
  · exact .some hd
  · exact .some hd
  · cases exposed exported s with
    | none => exact .none
    | some d => exact .some (.same d)

theorem visibleDeclarations_trimmed {m : Module} {body : List Statement} {loc : Option Location}
    (h : List.Forall₂ Statement.Trimmed m.body body) :
    List.Forall₂ Declaration.Trimmed m.visibleDeclarations
      (Module.visibleDeclarations { body, loc }) := by
  rw [visibleDeclarations, visibleDeclarations, isModuleFile_trimmed h, exportedNames_trimmed h]
  split
  · apply List.rel_filterMap _ h
    intro s s' hs
    exact exposed_trimmed hs _
  · apply List.rel_filterMap _ h
    rintro s s' (hd | _ | _ | s)
    · exact .some hd
    · exact .none
    · exact .none
    · cases s with
      | declaration d => exact .some (.same d)
      | _ => exact .none

end Module

end Source

namespace Composition

open Source

variable (options : Options)

theorem uses_trimmed {ss ss' : List Statement} (h : List.Forall₂ Statement.Trimmed ss ss') :
    uses options ss' = uses options ss := by
  have hlink : ∀ {s s' : Statement}, s.Trimmed s' → link options s' = link options s := by
    rintro _ _ (_ | _ | _ | _) <;> rfl
  induction h with
  | nil => rfl
  | cons hs _ ih => rw [uses, uses, hlink hs, ih]

theorem scriptNames_trimmed {ss ss' : List Statement} (h : List.Forall₂ Statement.Trimmed ss ss') :
    scriptNames ss' = scriptNames ss := by
  rw [scriptNames, scriptNames]
  induction h with
  | nil => rfl
  | cons hs _ ih =>
      rw [List.filterMap_cons, List.filterMap_cons, ih]
      rcases hs with _ | _ | _ | _ <;> rfl

theorem compose_trimmed {m : Module} {body : List Statement} {loc : Option Location}
    (h : List.Forall₂ Statement.Trimmed m.body body) :
    compose options { body, loc } = compose options m := by
  rw [compose, compose, uses_trimmed options h, scriptNames_trimmed h,
    composeDeclarations_trimmed options (Module.visibleDeclarations_trimmed h)]

end Composition

namespace Source.Module

theorem exportsByReference_of_mem {m : Module} {name : Text} (h : name ∈ m.exportedNames) :
    m.ExportsByReference name := by
  rw [exportedNames, List.mem_flatMap] at h
  obtain ⟨s, hs, hname⟩ := h
  rw [Statement.exportedNames.eq_def] at hname
  split at hname
  · rw [List.mem_singleton.mp hname]
    exact .default hs
  · rw [List.mem_singleton.mp hname]
    exact .assigned hs
  · rw [List.mem_map] at hname
    obtain ⟨specifier, hspecifier, rfl⟩ := hname
    obtain ⟨hmem, hkind⟩ := List.mem_filter.mp hspecifier
    exact .listed hs rfl hmem (of_decide_eq_true hkind)
  · cases hname

theorem exposed_of_hidden {m : Module} {d : Declaration} (hglobal : isGlobalSpace d = false)
    (hname : ∀ name, d.name? = some name → ¬ m.ExportsByReference name) :
    exposed m.exportedNames (.declaration d) = none := by
  have hnone : d.name?.any m.exportedNames.contains = false := by
    cases hd : d.name? with
    | none => rfl
    | some name =>
        have hexports := hname name hd
        rw [Option.any_some, Bool.eq_false_iff]
        intro hcontains
        exact hexports (exportsByReference_of_mem (List.contains_iff_mem.mp hcontains))
  rw [exposed, hglobal, hnone]
  rfl

end Source.Module

namespace Composition

open Source

variable (options : Options)

theorem uses_dropped {m : Module} {ss ss' : List Statement} (h : DeclarationsDropped m ss ss') :
    uses options ss' = uses options ss := by
  induction h with
  | nil => rfl
  | keep s _ ih => rw [uses, uses, ih]
  | drop hglobal hname _ ih => simp only [uses, link, pure_bind, List.nil_append, bind_pure, ih]

theorem scriptNames_dropped {m : Module} {ss ss' : List Statement}
    (h : DeclarationsDropped m ss ss') : scriptNames ss' = scriptNames ss := by
  rw [scriptNames, scriptNames]
  induction h with
  | nil => rfl
  | keep s _ ih => rw [List.filterMap_cons, List.filterMap_cons, ih]
  | drop hglobal hname _ ih => rw [List.filterMap_cons, ih]

theorem isModuleFile_dropped {m : Module} {ss ss' : List Statement}
    (h : DeclarationsDropped m ss ss') :
    ss'.any Statement.isModuleSyntax = ss.any Statement.isModuleSyntax ∧
      ss'.flatMap Statement.exportedNames = ss.flatMap Statement.exportedNames := by
  induction h with
  | nil => exact ⟨rfl, rfl⟩
  | keep s _ ih =>
      rw [List.any_cons, List.any_cons, List.flatMap_cons, List.flatMap_cons, ih.1, ih.2]
      exact ⟨rfl, rfl⟩
  | drop hglobal hname _ ih => exact ih

theorem filterMap_exposed_dropped {m : Module} {ss ss' : List Statement}
    (h : DeclarationsDropped m ss ss') :
    ss'.filterMap (Module.exposed m.exportedNames) =
      ss.filterMap (Module.exposed m.exportedNames) := by
  induction h with
  | nil => rfl
  | keep s _ ih => rw [List.filterMap_cons, List.filterMap_cons, ih]
  | drop hglobal hname _ ih =>
      rw [List.filterMap_cons, Module.exposed_of_hidden hglobal hname, ih]

theorem compose_dropped {m trimmed : Module} {body : List Statement} {loc : Option Location}
    (hfile : trimmed.isModuleFile = true) (hexported : trimmed.exportedNames = m.exportedNames)
    (h : DeclarationsDropped m trimmed.body body) :
    compose options { body, loc } = compose options trimmed := by
  obtain ⟨hmodules, hnames⟩ := isModuleFile_dropped h
  have hmodule : Module.isModuleFile { body, loc } = true := hmodules.trans hfile
  have hsame : Module.exportedNames { body, loc } = m.exportedNames := hnames.trans hexported
  have hvisible : Module.visibleDeclarations { body, loc } = trimmed.visibleDeclarations := by
    rw [Module.visibleDeclarations, Module.visibleDeclarations, if_pos hmodule, if_pos hfile,
      hsame, hexported]
    exact filterMap_exposed_dropped h
  rw [compose, compose, uses_dropped options h, scriptNames_dropped h, hvisible]

theorem compose_concealed {m m' : Module} (h : m.Concealed m') :
    compose options m' = compose options m := by
  rcases h with h | ⟨hfile, htrim, hdrop⟩
  · exact compose_trimmed options h
  · rename_i trimmed body loc
    have hmodule : Module.isModuleFile { body := trimmed, loc } = true :=
      (Module.isModuleFile_trimmed htrim).trans hfile
    calc compose options { body, loc }
        = compose options { body := trimmed, loc } :=
          compose_dropped options hmodule (Module.exportedNames_trimmed htrim) hdrop
      _ = compose options m := compose_trimmed options htrim

end Composition

/-- The hidden surface of a module has no influence on what the module compiles to: without parts
of it the module has the same unit, or the same failure, after the same warnings. -/
theorem compileModule_concealed (options : Options) {m m' : Source.Module} (h : m.Concealed m') :
    compileModule options m' = compileModule options m := by
  rw [compileModule, compileModule, Composition.compose_concealed options h]

def boxConstructor (access : Option Source.Access) : Source.Member :=
  .constructorMember ⟨.word, "constructor", none⟩ [] access none

/-- A namespace with a class, before other statements. -/
def boxNamespace (members : List Source.Member) (rest : List Source.Statement) : Source.Module :=
  { body := .exportDeclaration (.space ⟨"Shapes", .block [
        .declaration (.classDeclaration ⟨some "Box", members, [], none, [], false, none⟩)] none,
      false, false, none⟩) none :: rest }

/-- A module whose hidden surface could not be bound: the class has a second constructor, which is
private, and an enumeration is not exported. -/
def guardedModule : Source.Module :=
  boxNamespace [boxConstructor (some .owner), boxConstructor none]
    [.declaration (.enumeration ⟨"Kind", [], false, none⟩)]

theorem guardedModule_concealed :
    guardedModule.Concealed (boxNamespace [boxConstructor none] []) ∧
      compileModule .standard (boxNamespace [boxConstructor none] []) =
        compileModule .standard guardedModule := by
  have hmembers : Source.MembersTrimmed [boxConstructor (some .owner), boxConstructor none]
      [boxConstructor none] := .drop (.owner rfl) (.keep _ .nil)
  have hconcealed : guardedModule.Concealed (boxNamespace [boxConstructor none] []) := by
    refine .declarations rfl (.cons (.exportDeclaration (.space (.block (.cons (.declaration
      (.classDeclaration hmembers)) .nil)))) (.cons (.same _) .nil)) (.keep _ (.drop rfl ?_ .nil))
    rintro name hname (⟨h⟩ | ⟨h⟩ | ⟨h⟩) <;> simp [guardedModule, boxNamespace] at h
  exact ⟨hconcealed, compileModule_concealed .standard hconcealed⟩

end HostBindings

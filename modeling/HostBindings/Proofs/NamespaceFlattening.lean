import HostBindings.Composition.Unit
import HostBindings.Proofs.Origins
import HostBindings.Proofs.ScopeAssembly

/-!
Two ways to bind namespaces agree. Composition builds a scope module for each namespace and joins
those of one name; lowering gives the bindings of a namespace one after another. Both fail for the
same reason, and where they succeed they hold the same bindings.
-/

namespace HostBindings

/-- Why work ends early, without the place: the cause of a failure, or the fault. -/
def Halt.reason : Halt → Cause ⊕ Fault
  | failure f => .inl f.cause
  | fault f => .inr f

theorem Halt.reason_within (declaration member : Option Text) (span : Option Span) (h : Halt) :
    (h.within declaration member span).reason = h.reason := by
  cases h <;> rfl

/-- Two results agree: both are there and `R` relates them, or both are missing for one reason. -/
inductive Agree {α β : Type} (R : α → β → Prop) : Except Halt α → Except Halt β → Prop
  | ok {a : α} {b : β} (h : R a b) : Agree R (.ok a) (.ok b)
  | error {e e' : Halt} (h : e.reason = e'.reason) : Agree R (.error e) (.error e')

namespace Agree

variable {α β γ δ : Type} {R : α → β → Prop} {S : γ → δ → Prop}

theorem bind {x : Except Halt α} {y : Except Halt β} {f : α → Except Halt γ}
    {g : β → Except Halt δ} (h : Agree R x y) (hfg : ∀ a b, R a b → Agree S (f a) (g b)) :
    Agree S (x.bind f) (y.bind g) := by
  cases h with
  | ok h => exact hfg _ _ h
  | error h => exact error h

theorem imp {x : Except Halt α} {y : Except Halt β} {T : α → β → Prop} (h : Agree R x y)
    (hRT : ∀ a b, y = .ok b → R a b → T a b) : Agree T x y := by
  cases h with
  | ok h => exact ok (hRT _ _ rfl h)
  | error h => exact error h

theorem within {x : Except Halt α} {y : Outcome β} (h : Agree R x y.result)
    (declaration member : Option Text) (loc : Option Location) :
    Agree R x (y.within declaration member loc).result := by
  rw [Outcome.result_within]
  cases hy : y.result with
  | ok b =>
      rw [hy] at h
      exact h
  | error e =>
      rw [hy] at h
      cases h with
      | error h => exact error (h.trans (Halt.reason_within _ _ _ e).symm)

end Agree

namespace Lowering

open Source Outcome

/-- The bindings of declarations, one after another. -/
def lowerAll (options : Options) : List Declaration → Outcome (List Binding)
  | [] => return []
  | d :: rest => do
    let head ← lower options [] d
    let tail ← lowerAll options rest
    return head ++ tail

/-- The origins of declarations, one after another. -/
def originsOfAll (declarations : List Declaration) : List Origin :=
  declarations.flatMap (originsIn [])

theorem lowerAll_lowered {options : Options} {declarations : List Declaration}
    {bindings : List Binding} (h : (lowerAll options declarations).result = .ok bindings) :
    List.Forall₂ (Lowered options) (originsOfAll declarations) bindings := by
  induction declarations generalizing bindings with
  | nil =>
      rw [← Except.ok.inj h]
      exact List.Forall₂.nil
  | cons d rest ih =>
      simp only [lowerAll, result_bind_eq_ok_iff] at h
      obtain ⟨head, hhead, tail, htail, hreturn⟩ := h
      rw [← Except.ok.inj hreturn]
      exact List.rel_append (lower_lowered hhead) (ih htail)

theorem lowerAll_made {options : Options} {declarations : List Declaration}
    {bindings : List Binding} (h : (lowerAll options declarations).result = .ok bindings) :
    List.Forall₂ Made (originsOfAll declarations) bindings :=
  (lowerAll_lowered h).imp fun _ _ hb => hb.made

end Lowering

namespace Composition

open Source Rust Outcome Lowering

/-- Items that grew out of others by these bindings. -/
def Extends (items : List Item) (grown : List Item) (bindings : List Binding) : Prop :=
  Item.UniqueScopes grown ∧
    (Item.allBindings grown).Perm (Item.allBindings items ++ bindings)

theorem Extends.trans {items grown further : List Item} {head tail : List Binding}
    (h : Extends items grown head) (h' : Extends grown further tail) :
    Extends items further (head ++ tail) := by
  refine ⟨h'.1, h'.2.trans ?_⟩
  rw [← List.append_assoc]
  exact h.2.append_right tail

theorem extends_addBindings {items : List Item} (h : Item.UniqueScopes items)
    (bindings : List Binding) : Extends items (Item.addBindings bindings items) bindings :=
  ⟨Item.uniqueScopes_of_scopes_eq h (Item.scopes_addBindings bindings items),
    Item.allBindings_addBindings bindings items⟩

theorem uniqueScopes_scopeOf (options : Options) (name : Text) {inner : List Item}
    (h : Item.UniqueScopes inner) : Item.UniqueScopes [scopeOf options name inner] := by
  refine ⟨List.nodup_singleton _, ?_⟩
  intro scope hmem
  rw [List.mem_singleton.mp hmem]
  exact Item.uniqueScopes_of_scopes_eq (h.mapBlocksOf _) rfl

theorem extends_addTo_scopeOf {items inner : List Item} {bindings : List Binding}
    (options : Options) (name : Text) (h : Item.UniqueScopes items)
    (hinner : Extends [] inner bindings) :
    Extends items (Item.addTo items (scopeOf options name inner))
      (bindings.map (Binding.enclose name)) := by
  have hbindings : (Item.allBindings [scopeOf options name inner]).Perm
      (bindings.map (Binding.enclose name)) := by
    simp only [scopeOf, Item.allBindings_scope_cons, Item.allBindings_use_cons,
      Item.allBindings_nil, List.append_nil, Item.allBindings_enclose]
    exact hinner.2.map _
  have hscope := uniqueScopes_scopeOf options name hinner.1
  have hgrows := Item.grows_addTo h (scopeOf options name inner) hscope
  exact ⟨hgrows.unique, hgrows.allBindings.trans (hbindings.append_left _)⟩

theorem agree_of_lowered {options : Options} {items : List Item} {d : Declaration}
    (h : Item.UniqueScopes items)
    (hcompose : composeDeclaration options items d = do
      let bindings ← lower options [] d
      return Item.addBindings bindings items) :
    Agree (Extends items) (composeDeclaration options items d).result
      (lower options [] d).result := by
  rw [hcompose, result_bind]
  cases (lower options [] d).result with
  | ok bindings => exact Agree.ok (extends_addBindings h bindings)
  | error e => exact Agree.error rfl

theorem agree_append {items grown : List Item} {head : List Binding}
    {x : Except Halt (List Item)} {y : Except Halt (List Binding)} (h : Extends items grown head)
    (hrest : Agree (Extends grown) x y) :
    Agree (Extends items) x (y.bind fun tail => .ok (head ++ tail)) := by
  cases hrest with
  | ok htail => exact Agree.ok (h.trans htail)
  | error hreason => exact Agree.error hreason

mutual

theorem agree_composeDeclaration (options : Options) {items : List Item}
    (h : Item.UniqueScopes items) (d : Declaration) :
    Agree (Extends items) (composeDeclaration options items d).result
      (lower options [] d).result := by
  cases d with
  | space d =>
      obtain ⟨name, body, isStringName, isGlobal, loc⟩ := d
      cases body with
      | missing => exact agree_of_lowered h (by simp only [composeDeclaration])
      | nested inner => exact agree_of_lowered h (by simp only [composeDeclaration])
      | block statements blockLoc =>
          cases hplain : isStringName || isGlobal with
          | true => exact agree_of_lowered h (by simp only [composeDeclaration, hplain, if_true])
          | false =>
              obtain ⟨rfl, rfl⟩ := Bool.or_eq_false_iff.mp hplain
              simp only [composeDeclaration, lower, inDeclaration, Bool.or_self,
                Bool.false_eq_true, if_false]
              apply Agree.within
              simp only [lowerNamespace, Bool.false_eq_true, if_false, result_bind]
              -- the names around a place show in warnings only, so both bodies are lowered alike
              rw [result_lowerStatements]
              refine (agree_composeStatements options Item.uniqueScopes_nil statements).bind ?_
              intro inner bindings hinner
              exact Agree.ok (extends_addTo_scopeOf options name h hinner)
  | _ => exact agree_of_lowered h (by simp only [composeDeclaration])

theorem agree_composeStatements (options : Options) {items : List Item}
    (h : Item.UniqueScopes items) (statements : List Statement) :
    Agree (Extends items) (composeStatements options items statements).result
      (lowerStatements options [] statements).result := by
  match statements with
  | [] => exact Agree.ok ⟨h, by simp⟩
  | .declaration d :: rest | .exportDeclaration d _ :: rest
  | .exportDefaultDeclaration d _ :: rest =>
      simp only [composeStatements, lowerStatements, result_bind]
      refine (agree_composeDeclaration options h d).bind ?_
      intro grown head hgrown
      exact agree_append hgrown (agree_composeStatements options hgrown.1 rest)
  | .importDeclaration _ :: rest | .importAlias _ :: rest | .exportList _ :: rest
  | .exportDefaultName _ _ :: rest | .exportAll _ _ _ :: rest | .exportAssignment _ _ :: rest
  | .exportAsNamespace _ _ :: rest | .stray _ :: rest =>
      simp only [composeStatements, lowerStatements]
      exact agree_composeStatements options h rest

end

theorem agree_composeDeclarations (options : Options) {items : List Item}
    (h : Item.UniqueScopes items) (declarations : List Declaration) :
    Agree (Extends items) (composeDeclarations options items declarations).result
      (lowerAll options declarations).result := by
  induction declarations generalizing items with
  | nil => exact Agree.ok ⟨h, by simp⟩
  | cons d rest ih =>
      simp only [composeDeclarations, lowerAll, result_bind]
      refine (agree_composeDeclaration options h d).bind ?_
      intro grown head hgrown
      exact agree_append hgrown (ih hgrown.1)

theorem allBindings_foldl_enclose (names : List Text) (items : List Item) :
    Item.allBindings (names.foldl (fun items name => Item.enclose name items) items) =
      (Item.allBindings items).map (Binding.encloseAll names.reverse) := by
  induction names generalizing items with
  | nil => exact (List.map_id _).symm
  | cons name rest ih =>
      rw [List.foldl_cons, ih, Item.allBindings_enclose, List.map_map]
      apply List.map_congr_left
      intro b _
      simp [Binding.encloseAll]

/-- Whether a statement is an alias of a module that it does not name. -/
def lacksModule : Statement → Bool
  | .importAlias { target := .required none, .. } => true
  | _ => false

theorem exists_linkAll {α : Type} {f : α → Outcome (Option Use)} {as : List α}
    (h : ∀ a ∈ as, ∃ use, (f a).result = .ok use) : ∃ links, (linkAll f as).result = .ok links := by
  induction as with
  | nil => exact ⟨[], rfl⟩
  | cons a rest ih =>
      obtain ⟨head, hhead⟩ := h a List.mem_cons_self
      obtain ⟨tail, htail⟩ := ih fun b hb => h b (List.mem_cons_of_mem _ hb)
      exact ⟨head.toList ++ tail, by
        simp only [linkAll, result_bind, hhead, htail, result_pure, Except.bind]⟩

theorem exists_linkImport (path : List Text) (source : Text) (s : ImportSpecifier) :
    ∃ use, (linkImport path source s).result = .ok use := by
  rw [linkImport]
  split <;> exact ⟨_, rfl⟩

theorem exists_linkExport (options : Options) (source : Option Text) (s : ExportSpecifier) :
    ∃ use, (linkExport options source s).result = .ok use := by
  simp only [linkExport]
  split
  · exact ⟨_, rfl⟩
  · cases source <;> exact ⟨_, rfl⟩

theorem exists_linkAlias (options : Options) {a : ImportAlias}
    (h : lacksModule (.importAlias a) = false) :
    ∃ use, (linkAlias options a).result = .ok use := by
  have hpath : ∃ use, aliasUse? options a = .ok use := by
    obtain ⟨name, target, isExport, loc⟩ := a
    rcases target with (_ | specifier) | segments
    · cases h
    · simp only [aliasUse?]
      split
      · exact ⟨_, rfl⟩
      · split <;> exact ⟨_, rfl⟩
    · simp only [aliasUse?]
      split <;> exact ⟨_, rfl⟩
  obtain ⟨use, huse⟩ := hpath
  rw [linkAlias, huse]
  cases use <;> exact ⟨_, rfl⟩

theorem exists_link (options : Options) {statement : Statement}
    (h : lacksModule statement = false) : ∃ links, (link options statement).result = .ok links := by
  cases statement with
  | importDeclaration d => exact exists_linkAll fun s _ => exists_linkImport _ _ s
  | exportList d => exact exists_linkAll fun s _ => exists_linkExport _ _ s
  | importAlias a =>
      refine exists_linkAll fun b hb => ?_
      rw [List.mem_singleton.mp hb]
      exact exists_linkAlias options h
  | _ => exact ⟨_, rfl⟩

theorem link_of_lacksModule (options : Options) {statement : Statement}
    (h : lacksModule statement = true) :
    (link options statement).result = .error (.fault .emptyPath) := by
  cases statement with
  | importAlias a =>
      obtain ⟨name, target, isExport, loc⟩ := a
      rcases target with (_ | specifier) | segments
      · rfl
      · cases h
      · cases h
  | _ => cases h

theorem exists_uses (options : Options) {body : List Statement}
    (h : body.any lacksModule = false) : ∃ links, (uses options body).result = .ok links := by
  induction body with
  | nil => exact ⟨[], rfl⟩
  | cons statement rest ih =>
      rw [List.any_cons, Bool.or_eq_false_iff] at h
      obtain ⟨head, hhead⟩ := exists_link options h.1
      obtain ⟨tail, htail⟩ := ih h.2
      exact ⟨head ++ tail, by
        simp only [uses, result_bind, hhead, htail, result_pure, Except.bind]⟩

theorem uses_of_lacksModule (options : Options) {body : List Statement}
    (h : body.any lacksModule = true) :
    (uses options body).result = .error (.fault .emptyPath) := by
  induction body with
  | nil => cases h
  | cons statement rest ih =>
      simp only [uses, result_bind]
      cases hstatement : lacksModule statement with
      | true => rw [link_of_lacksModule options hstatement, Except.bind]
      | false =>
          obtain ⟨head, hhead⟩ := exists_link options hstatement
          have hrest : rest.any lacksModule = true := by
            simpa [hstatement] using h
          rw [hhead, ih hrest]
          rfl

theorem bindings_unit (links : List Use) (options : Options) (items : List Item) :
    (SourceUnit.mk (links.map Item.use ++ preludeItems options items ++ items)).bindings =
      Item.allBindings items := by
  have huses : Item.allBindings (links.map Item.use) = [] := by
    rw [Item.allBindings, Item.blocksOf_map_use, List.flatMap_nil]
  have hprelude : Item.allBindings (preludeItems options items) = [] := by
    rw [preludeItems]
    split <;> rfl
  change Item.allBindings (links.map Item.use ++ preludeItems options items ++ items) = _
  rw [Item.allBindings_append, Item.allBindings_append, huses, hprelude, List.nil_append,
    List.nil_append]

theorem agree_compose (options : Options) {m : Module} (h : m.body.any lacksModule = false) :
    Agree
      (fun u lowered =>
        u.bindings.Perm (lowered.map (Binding.encloseAll (scriptNames m.body).reverse)))
      (compose options m).result (lowerAll options m.visibleDeclarations).result := by
  obtain ⟨links, hlinks⟩ := exists_uses options h
  have hagree := agree_composeDeclarations options Item.uniqueScopes_nil m.visibleDeclarations
  simp only [compose, result_bind, hlinks]
  generalize (composeDeclarations options [] m.visibleDeclarations).result = composed at hagree ⊢
  generalize (lowerAll options m.visibleDeclarations).result = lowered at hagree ⊢
  cases hagree with
  | error hreason => exact Agree.error hreason
  | ok hgrown =>
      refine Agree.ok ?_
      rw [bindings_unit, allBindings_foldl_enclose]
      exact hgrown.2.map _

theorem compose_of_lacksModule (options : Options) {m : Module}
    (h : m.body.any lacksModule = true) :
    (compose options m).result = .error (.fault .emptyPath) := by
  simp only [compose, result_bind, uses_of_lacksModule options h, Except.bind]

/-- A composed unit holds one binding for each origin of the module's visible declarations, inside
the names for scripts. -/
theorem lowered_of_compose {options : Options} {m : Module} {u : SourceUnit}
    (h : (compose options m).result = .ok u) :
    ∃ lowered, List.Forall₂ (Lowered options) (originsOfAll m.visibleDeclarations) lowered ∧
      u.bindings.Perm (lowered.map (Binding.encloseAll (scriptNames m.body).reverse)) := by
  cases hlacks : m.body.any lacksModule with
  | true =>
      rw [compose_of_lacksModule options hlacks] at h
      cases h
  | false =>
      have hagree := agree_compose options hlacks
      rw [h] at hagree
      generalize hlowered : (lowerAll options m.visibleDeclarations).result = result at hagree
      cases hagree with
      | ok hperm => exact ⟨_, lowerAll_lowered hlowered, hperm⟩

theorem bindings_of_compose {options : Options} {m : Module} {u : SourceUnit}
    (h : (compose options m).result = .ok u) :
    ∃ lowered, List.Forall₂ Made (originsOfAll m.visibleDeclarations) lowered ∧
      u.bindings.Perm (lowered.map (Binding.encloseAll (scriptNames m.body).reverse)) := by
  obtain ⟨lowered, hlowered, hperm⟩ := lowered_of_compose h
  exact ⟨lowered, hlowered.imp fun _ _ hb => hb.made, hperm⟩

theorem standsFor_of_perm {around : List Text} {origins : List Origin} {u : SourceUnit}
    {lowered : List Binding} (hmade : List.Forall₂ Made origins lowered)
    (hperm : u.bindings.Perm (lowered.map (Binding.encloseAll around))) :
    ∃ ordered : List Origin, ordered.Perm origins ∧
      List.Forall₂ (StandsFor around) ordered u.bindings := by
  have hstands : List.Forall₂ (fun b o => StandsFor around o b)
      (lowered.map (Binding.encloseAll around)) origins := by
    rw [List.forall₂_map_left_iff]
    refine hmade.flip.imp fun b o hb => ?_
    simpa using hb.standsFor.encloseAll around
  obtain ⟨ordered, hordered, hpermuted⟩ := List.perm_comp_forall₂ hperm hstands
  exact ⟨ordered, hpermuted, hordered.flip⟩

/-- What a composed unit of a module has to do with the bindings of its visible declarations, taken
one after another: the unit holds the same ones inside the names for scripts, and apart from these
the namespaces of each binding are those that stand around its origin. -/
structure Flattened (m : Module) (u : SourceUnit) (lowered : List Binding) : Prop where
  perm : u.bindings.Perm (lowered.map (Binding.encloseAll (scriptNames m.body).reverse))
  lowered_origins : List.Forall₂ (StandsFor []) (originsOfAll m.visibleDeclarations) lowered
  composed_origins : ∃ ordered : List Origin,
    ordered.Perm (originsOfAll m.visibleDeclarations) ∧
      List.Forall₂ (StandsFor (scriptNames m.body).reverse) ordered u.bindings

/-- Composition and lowering agree on every module but those with an alias of a module that they do
not name. There composition breaks off before it looks at a declaration. -/
theorem compose_agrees_with_lowering (options : Options) (m : Module) :
    if m.body.any lacksModule then
      (compose options m).result = .error (.fault .emptyPath)
    else
      Agree (Flattened m) (compose options m).result
        (lowerAll options m.visibleDeclarations).result := by
  split
  · rename_i hlacks
    exact compose_of_lacksModule options hlacks
  · rename_i hnames
    refine (agree_compose options (Bool.eq_false_iff.mpr hnames)).imp ?_
    intro u lowered hlowered hperm
    have hmade := lowerAll_made hlowered
    exact ⟨hperm, hmade.imp fun o b hb => hb.standsFor, standsFor_of_perm hmade hperm⟩

/-- A module with nothing but an alias of a module that it does not name. -/
def unnamedRequire : Module := { body := [.importAlias ⟨"a", .required none, false, none⟩] }

/-- There is no declaration that could fail, yet there is no unit. -/
theorem unnamedRequire_disagrees :
    (lowerAll .standard unnamedRequire.visibleDeclarations).result = .ok [] ∧
      (compose .standard unnamedRequire).result = .error (.fault .emptyPath) ∧
      ¬ Agree (Flattened unnamedRequire) (compose .standard unnamedRequire).result
        (lowerAll .standard unnamedRequire.visibleDeclarations).result :=
  ⟨rfl, rfl, nofun⟩

end Composition

end HostBindings

import HostBindings.Proofs.HostSurface
import HostBindings.Proofs.LoweringResults

/-!
The order of declarations. A module whose top-level declarations stand in another order compiles if
and only if the module does, and the host sees the same of both units. Order decides which of two
bindings keeps a name, and where a binding stands in its scope.
-/

namespace HostBindings

namespace Source

/-- Whether a statement is a declaration, plain or exported. -/
def Statement.isDeclaration : Statement → Bool
  | declaration _ | exportDeclaration _ _ | exportDefaultDeclaration _ _ => true
  | _ => false

namespace Module

/-- The declarations of a module in another order; the other statements have kept theirs. -/
structure Reordered (m m' : Module) : Prop where
  body : m'.body.Perm m.body
  others : m'.body.filter (fun s => !s.isDeclaration) = m.body.filter fun s => !s.isDeclaration

variable {m m' : Module}

theorem Reordered.symm (h : m.Reordered m') : m'.Reordered m := ⟨h.body.symm, h.others.symm⟩

theorem Reordered.isModuleFile (h : m.Reordered m') : m'.isModuleFile = m.isModuleFile := by
  rw [Module.isModuleFile, Module.isModuleFile, h.body.any_eq]

theorem Reordered.visibleDeclarations (h : m.Reordered m') :
    m'.visibleDeclarations.Perm m.visibleDeclarations := by
  have hexposed : exposed m'.exportedNames = exposed m.exportedNames := by
    have hcontains : m'.exportedNames.contains = m.exportedNames.contains := by
      funext name
      exact (h.body.flatMap_right _).contains_eq
    funext s
    cases s <;> simp only [exposed, hcontains]
  rw [Module.visibleDeclarations, Module.visibleDeclarations, h.isModuleFile, hexposed]
  split
  · exact h.body.filterMap _
  · exact h.body.filterMap _

end Module

end Source

namespace Composition

open Source Rust Outcome

theorem uses_filter (options : Options) (body : List Statement) :
    uses options (body.filter fun s => !s.isDeclaration) = uses options body := by
  induction body with
  | nil => rfl
  | cons s rest ih =>
      cases hdeclaration : s.isDeclaration with
      | true =>
          have hlink : link options s = pure [] := by
            cases s with
            | declaration | exportDeclaration | exportDefaultDeclaration => rfl
            | _ => cases hdeclaration
          rw [List.filter_cons_of_neg (by simp [hdeclaration]), ih, uses, hlink]
          simp
      | false => rw [List.filter_cons_of_pos (by simp [hdeclaration]), uses, ih, uses]

theorem scriptNames_filter (body : List Statement) :
    scriptNames (body.filter fun s => !s.isDeclaration) = scriptNames body := by
  rw [scriptNames, scriptNames, List.filterMap_filter]
  congr 1
  funext s
  cases s <;> rfl

theorem exists_encloseInScripts (m : Module) : ∃ f : Binding → Binding, ∀ items,
    encloseInScripts m items = Item.mapBlocksOf (List.map f) items := by
  simp only [encloseInScripts]
  induction scriptNames m.body with
  | nil => exact ⟨id, fun items => by rw [List.map_id_fun, Item.mapBlocksOf_id]; rfl⟩
  | cons name rest ih =>
      obtain ⟨f, hf⟩ := ih
      refine ⟨f ∘ Binding.enclose name, fun items => ?_⟩
      rw [List.foldl_cons, hf, Item.enclose, Item.mapBlocksOf_mapBlocksOf]
      congr 1
      funext block
      exact List.map_map

theorem preludeItems_perm (options : Options) {items items' : List Item}
    (h : (Item.placed [] items').Perm (Item.placed [] items)) :
    preludeItems options items' = preludeItems options items := by
  have hbindings : ∀ items, (SourceUnit.mk items).bindings = (Item.placed [] items).map (·.2) :=
    Item.allBindings_eq []
  rw [preludeItems, preludeItems, hbindings, hbindings, (h.map _).isEmpty_eq]

theorem exists_compose_reordered (options : Options) {m m' : Module} (h : m.Reordered m')
    {u : SourceUnit} (hu : (compose options m).result = .ok u) :
    ∃ u', (compose options m').result = .ok u' ∧ u.SameContents u' := by
  obtain ⟨links, items, hlinks, hitems, rfl⟩ := compose_eq_ok_iff.mp hu
  obtain ⟨items', hitems', hplaced, hscopes⟩ :=
    exists_composeDeclarations_perm h.visibleDeclarations hitems
  -- links and names for scripts come from the statements that have kept their order
  have huses : uses options m'.body = uses options m.body := by
    rw [← uses_filter, h.others, uses_filter]
  have hscripts : encloseInScripts m' = encloseInScripts m := by
    funext items
    rw [encloseInScripts, encloseInScripts, ← scriptNames_filter, h.others, scriptNames_filter]
  refine ⟨_, compose_eq_ok_iff.mpr ⟨links, items', by rwa [huses], hitems', rfl⟩, ?_⟩
  rw [hscripts]
  obtain ⟨f, hf⟩ := exists_encloseInScripts m
  have henclosed : (Item.placed [] (encloseInScripts m items')).Perm
      (Item.placed [] (encloseInScripts m items)) := by
    rw [hf, hf, Item.placed_mapBlocksOf_map, Item.placed_mapBlocksOf_map]
    exact hplaced.map _
  have hpaths : (Item.scopePathsOf [] (encloseInScripts m items')).Perm
      (Item.scopePathsOf [] (encloseInScripts m items)) := by
    rwa [hf, hf, Item.scopePathsOf_mapBlocksOf, Item.scopePathsOf_mapBlocksOf]
  rw [preludeItems_perm options henclosed]
  exact sameContents_append _
    (wellShaped_encloseInScripts m (wellShaped_composeDeclarations hitems)).arranged
    (wellShaped_encloseInScripts m (wellShaped_composeDeclarations hitems')).arranged
    henclosed hpaths

end Composition

open Source Rust

theorem exists_compileModule_reordered (options : Options) {m m' : Module} (h : m.Reordered m')
    {u : SourceUnit} (hu : (compileModule options m).result = .ok u) :
    ∃ u', (compileModule options m').result = .ok u' ∧ u.SameSurface u' := by
  obtain ⟨composed, hcomposed, rfl⟩ := (compileModule_eq_ok_iff options m u).mp hu
  obtain ⟨composed', hcomposed', hsame⟩ :=
    Composition.exists_compose_reordered options h hcomposed
  exact ⟨_, (compileModule_eq_ok_iff options m' _).mpr ⟨composed', hcomposed', rfl⟩,
    hsame.finish options⟩

/-- The order of the declarations decides neither whether a module compiles nor what it binds. -/
theorem compileModule_reordered (options : Options) {m m' : Module} (h : m.Reordered m') :
    ((∃ u, (compileModule options m).result = .ok u) ↔
      ∃ u', (compileModule options m').result = .ok u') ∧
    ∀ u u', (compileModule options m).result = .ok u →
      (compileModule options m').result = .ok u' → u.SameSurface u' := by
  refine ⟨⟨?_, ?_⟩, ?_⟩
  · rintro ⟨u, hu⟩
    obtain ⟨u', hu', _⟩ := exists_compileModule_reordered options h hu
    exact ⟨u', hu'⟩
  · rintro ⟨u', hu'⟩
    obtain ⟨u, hu, _⟩ := exists_compileModule_reordered options h.symm hu'
    exact ⟨u, hu⟩
  · intro u u' hu hu'
    obtain ⟨other, hother, hsame⟩ := exists_compileModule_reordered options h hu
    rw [hu'] at hother
    rwa [Except.ok.inj hother]

/-- Two functions of one name and a namespace that is opened twice, around an import. -/
def penModule : Module :=
  let function (name : Text) (word : Keyword) : Declaration :=
    .function ⟨some name, ⟨[⟨.name "to" none, some (.keyword word none), false, false, none⟩], none,
      []⟩, none⟩
  let tools (d : Declaration) : Declaration :=
    .space ⟨"tools", .block [.declaration d] none, false, false, none⟩
  { body := [
      .exportDeclaration (function "draw" .number) none,
      .exportDeclaration (tools (function "ink" .string)) none,
      .importDeclaration ⟨[⟨.named, "Paper", none, none⟩], "./paper", false, none⟩,
      .exportDeclaration (function "draw" .string) none,
      .exportDeclaration (tools (function "nib" .number)) none] }

/-- From its end to its beginning, the module gives the other function the plain name. -/
theorem penModule_reversed :
    ∃ u u', penModule.Reordered { penModule with body := penModule.body.reverse } ∧
      (compileModule .standard penModule).result = .ok u ∧
      (compileModule .standard { penModule with body := penModule.body.reverse }).result = .ok u' ∧
      (u.bindings.map fun b => (b.name, b.types)) =
        ([("ink", [.string]), ("nib", [.primitive "f64"]), ("draw", [.primitive "f64"]),
          ("draw_1", [.string])] : List (Text × List BindingType)) ∧
      (u'.bindings.map fun b => (b.name, b.types)) =
        ([("nib", [.primitive "f64"]), ("ink", [.string]), ("draw", [.string]),
          ("draw_1", [.primitive "f64"])] : List (Text × List BindingType)) ∧
      u.SameSurface u' := by
  have h : penModule.Reordered { penModule with body := penModule.body.reverse } :=
    ⟨List.reverse_perm _, rfl⟩
  exact ⟨_, _, h, rfl, rfl, rfl, rfl, (compileModule_reordered .standard h).2 _ _ rfl rfl⟩

end HostBindings

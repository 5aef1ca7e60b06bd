import HostBindings.Proofs.BoundaryClosure
import HostBindings.Proofs.CollisionFreedom
import HostBindings.Proofs.NamespaceFlattening

/-!
Host names through the whole compilation. Whatever happens to the Rust name of a binding on the way,
the host still knows it by the name that the source writes.
-/

namespace HostBindings

open Source Rust Lowering HostBindings.Composition

theorem exists_sublist_of_forall₂ {α β : Type} {R : α → β → Prop} {as : List α}
    {bs kept : List β} (h : List.Forall₂ R as bs) (hkept : kept.Sublist bs) :
    ∃ left, left.Sublist as ∧ List.Forall₂ R left kept := by
  induction hkept generalizing as with
  | slnil => exact ⟨[], List.nil_sublist as, List.Forall₂.nil⟩
  | cons b _ ih =>
      cases h with
      | @cons a _ as _ _ hrest =>
          obtain ⟨left, hleft, hrel⟩ := ih hrest
          exact ⟨left, hleft.cons a, hrel⟩
  | cons_cons b _ ih =>
      cases h with
      | @cons a _ as _ hab hrest =>
          obtain ⟨left, hleft, hrel⟩ := ih hrest
          exact ⟨a :: left, hleft.cons_cons a, List.Forall₂.cons hab hrel⟩

theorem forall₂_trans {α β γ : Type} {R : α → β → Prop} {S : β → γ → Prop} {T : α → γ → Prop}
    (hT : ∀ a b c, R a b → S b c → T a c) {as : List α} {bs : List β} {cs : List γ}
    (h : List.Forall₂ R as bs) (h' : List.Forall₂ S bs cs) : List.Forall₂ T as cs := by
  induction h generalizing cs with
  | nil =>
      cases h' with
      | nil => exact List.Forall₂.nil
  | cons hab _ ih =>
      cases h' with
      | cons hbc hrest => exact List.Forall₂.cons (hT _ _ _ hab hbc) (ih hrest)

namespace Lowering

variable {around : List Text} {o : Origin} {b : Binding}

theorem StandsFor.rename (h : StandsFor around o b) (name : Text) :
    StandsFor around o (Collision.rename name b) := by
  refine ⟨h.kind, h.loc, h.namespacePath, h.owner, h.isConstructor, ?_⟩
  intro hplain
  have hconstructor : Collision.isConstructor b = false := by
    obtain ⟨own, shape, attributes, loc⟩ := b
    cases shape with
    | function params result => exact hplain rfl
    | hostType => rfl
    | static type => rfl
  rw [h.hostName hplain]
  simp only [Binding.hostName, Collision.rename, hconstructor, Bool.false_eq_true, if_false]
  cases b.attributes.hostName <;> rfl

theorem StandsFor.withBases (h : StandsFor around o b) (bases : List (List Text)) :
    StandsFor around o (Collision.withBases bases b) :=
  ⟨h.kind, h.loc, h.namespacePath, h.owner, h.isConstructor, h.hostName⟩

theorem StandsFor.prepared (h : StandsFor around o b) :
    StandsFor around o (Collision.prepared b) := by
  obtain ⟨f, hf⟩ := Collision.prepared_eq_mapTypes b
  rw [hf]
  exact h.mapTypes f

theorem StandsFor.becomes {block : List Binding} {after : Binding} (h : StandsFor around o b)
    (hafter : Collision.Becomes block b after) : StandsFor around o after := by
  rw [Collision.Becomes] at hafter
  split at hafter
  · rw [hafter]
    exact h.withBases _
  · rcases hafter with rfl | ⟨k, rfl⟩
    · exact h.prepared
    · exact h.prepared.rename _

end Lowering

/-- One binding stands for all that another one stands for. -/
def Inherits (before after : Binding) : Prop :=
  ∀ around o, StandsFor around o before → StandsFor around o after

/-- What a binding that stays becomes when its unit is finished: the collisions of its block are
resolved, then its types are replaced. -/
def Finishes (before after : Binding) : Prop :=
  ∃ block resolved f, Collision.Becomes block before resolved ∧
    after = Binding.mapTypes f resolved

theorem Finishes.inherits {before after : Binding} (h : Finishes before after) :
    Inherits before after := by
  obtain ⟨block, resolved, f, hresolved, rfl⟩ := h
  exact fun around o ho => (ho.becomes hresolved).mapTypes f

theorem exists_kept_resolve (blocks : List (List Text × List Binding)) :
    ∃ kept, kept.Sublist (blocks.flatMap (·.2)) ∧
      List.Forall₂ (fun before after => ∃ block, Collision.Becomes block before after) kept
        (blocks.flatMap fun block => Collision.resolve block.2) := by
  induction blocks with
  | nil => exact ⟨[], List.Sublist.slnil, List.Forall₂.nil⟩
  | cons block rest ih =>
      obtain ⟨kept, hkept, hbecomes⟩ := ih
      have hblock := (Collision.invariant_foldl_step block.2).becomes
      refine ⟨Collision.survivors [] block.2 ++ kept,
        (Collision.survivors_sublist [] block.2).append hkept, ?_⟩
      exact List.rel_append (hblock.imp fun _ _ hafter => ⟨_, hafter⟩) hbecomes

theorem bindings_resolveCollisions (u : SourceUnit) :
    u.resolveCollisions.bindings = u.blocks.flatMap fun block => Collision.resolve block.2 := by
  rw [SourceUnit.resolveCollisions, SourceUnit.bindings, SourceUnit.blocks_mapBlocks,
    List.flatMap_map]

theorem bindings_finish (options : Options) (u : SourceUnit) :
    ∃ f : Bool → BindingType → BindingType,
      (finish options u).bindings = u.resolveCollisions.bindings.map (Binding.mapTypes f) := by
  refine ⟨Boundary.legalizeType u.resolveCollisions.customPaths, ?_⟩
  have hlegalize : u.resolveCollisions.legalize.bindings =
      u.resolveCollisions.bindings.map
        (Binding.mapTypes (Boundary.legalizeType u.resolveCollisions.customPaths)) := by
    rw [SourceUnit.legalize, SourceUnit.legalizeWith, SourceUnit.bindings,
      SourceUnit.blocks_mapBlocks, List.flatMap_map, SourceUnit.bindings, List.map_flatMap]
  rw [finish]
  split
  · rw [SourceUnit.bindings, SourceUnit.blocks_addHostUses, ← SourceUnit.bindings, hlegalize]
  · exact hlegalize

/-- Finishing a unit drops bindings at most. -/
theorem exists_finishes (options : Options) (u : SourceUnit) :
    ∃ kept, kept.Sublist u.bindings ∧
      List.Forall₂ Finishes kept (finish options u).bindings := by
  obtain ⟨kept, hkept, hbecomes⟩ := exists_kept_resolve u.blocks
  obtain ⟨f, hf⟩ := bindings_finish options u
  refine ⟨kept, hkept, ?_⟩
  rw [hf, bindings_resolveCollisions, List.forall₂_map_right_iff]
  exact hbecomes.imp fun before after ⟨block, h⟩ => ⟨block, after, f, h, rfl⟩

theorem exists_kept_finish (options : Options) (u : SourceUnit) :
    ∃ kept, kept.Sublist u.bindings ∧
      List.Forall₂ Inherits kept (finish options u).bindings := by
  obtain ⟨kept, hkept, hfinishes⟩ := exists_finishes options u
  exact ⟨kept, hkept, hfinishes.imp fun _ _ h => h.inherits⟩

/-- Every binding of a compiled unit stands for an origin of its own in the module: it has the raw
name of that declaration or member as its host name, however its Rust name came about. -/
theorem compileModule_hostNames (options : Options) (m : Module) (u : SourceUnit)
    (h : (compileModule options m).result = .ok u) :
    ∃ origins : List Origin, origins.Subperm (originsOfAll m.visibleDeclarations) ∧
      List.Forall₂ (StandsFor (scriptNames m.body).reverse) origins u.bindings := by
  obtain ⟨composed, hcomposed, rfl⟩ := (compileModule_eq_ok_iff options m u).mp h
  obtain ⟨lowered, hmade, hperm⟩ := bindings_of_compose hcomposed
  obtain ⟨ordered, hordered, hstands⟩ := standsFor_of_perm hmade hperm
  obtain ⟨kept, hkept, hinherits⟩ := exists_kept_finish options composed
  -- repeated types are gone from the unit, so their origins go too
  obtain ⟨origins, horigins, hleft⟩ := exists_sublist_of_forall₂ hstands hkept
  refine ⟨origins, horigins.subperm.trans hordered.subperm, ?_⟩
  exact forall₂_trans (fun o before after ho hafter => hafter _ o ho) hleft hinherits

/-- A variable with a keyword as its name, and a class in a namespace with a constructor, a getter
and two methods, one of which has the name that the getter takes. -/
def widgetModule : Module :=
  let key (name : Text) : PropertyKey := ⟨.string, name, none⟩
  let method (name : Text) (kind : MethodKind) : Member :=
    .method (key name) kind ⟨[], none, []⟩ false none false false none
  { body := [
      .declaration (.variableDeclaration ⟨"const", [⟨.name "type" none, none, none⟩], none⟩),
      .declaration (.space ⟨"ui", .block [
        .declaration (.classDeclaration ⟨some "HTMLWidget", [
          .constructorMember (key "constructor") [] none none, method "x-pos" .getter,
          method "get_x_pos" .method, method "draw" .method], [], none, [], false, none⟩)]
        none, false, false, none⟩)] }

theorem widgetModule_hostNames :
    ∃ u, (compileModule .standard widgetModule).result = .ok u ∧
      (u.bindings.map fun b => (b.name, b.hostName)) =
        ([("HtmlWidget", "HTMLWidget"), ("new", "new"), ("get_x_pos", "x-pos"),
          ("get_x_pos_1", "get_x_pos"), ("draw", "draw"), ("r#type", "type")] :
          List (Text × Text)) ∧
      ∃ origins : List Origin, origins.Subperm (originsOfAll widgetModule.visibleDeclarations) ∧
        List.Forall₂ (StandsFor (scriptNames widgetModule.body).reverse) origins u.bindings :=
  ⟨_, rfl, rfl, compileModule_hostNames .standard widgetModule _ rfl⟩

end HostBindings

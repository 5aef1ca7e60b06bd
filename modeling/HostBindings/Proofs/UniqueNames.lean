import HostBindings.Proofs.CollisionFreedom
import HostBindings.Proofs.NamespaceFlattening

/-!
Names in a composed unit after its collisions were resolved. What the resolution of one block asks
of its bindings holds of everything that composition makes.
-/

namespace HostBindings

open Source Rust Lowering HostBindings.Composition

theorem names_of_compose {options : Options} {m : Module} {u : SourceUnit}
    (h : (compose options m).result = .ok u) {b : Binding} (hb : b ∈ u.bindings) :
    Identifier.IsRust b.name ∧
      ∀ owner, b.attributes.owner = some owner → owner ≠ Text.ofString "Self" := by
  obtain ⟨lowered, hmade, hperm⟩ := bindings_of_compose h
  obtain ⟨original, horiginal, rfl⟩ := List.mem_map.mp (hperm.mem_iff.mp hb)
  obtain ⟨o, _, ho⟩ := Collision.exists_of_mem_right hmade horiginal
  refine ⟨?_, fun owner howner => (ho.standsFor.encloseAll _).owner_ne_self howner⟩
  rw [Binding.encloseAll_eq]
  exact ho.isRust

theorem resolveCollisions_resolveCollisions {u : SourceUnit}
    (h : ∀ block ∈ u.blocks, Collision.resolve (Collision.resolve block.2) =
      Collision.resolve block.2) :
    u.resolveCollisions.resolveCollisions = u.resolveCollisions := by
  apply SourceUnit.mapBlocks_eq_self
  intro block hblock
  rw [SourceUnit.resolveCollisions, SourceUnit.blocks_mapBlocks] at hblock
  obtain ⟨original, horiginal, rfl⟩ := List.mem_map.mp hblock
  exact h original horiginal

/-- In every block of a composed unit the resolution of collisions leaves each name once, loses
nothing but repeated types and keeps the order; a second resolution finds nothing to do. -/
theorem compose_resolveCollisions (options : Options) (m : Module) (u : SourceUnit)
    (h : (compose options m).result = .ok u) :
    List.Forall₂
        (fun before after => after.1 = before.1 ∧ Collision.Resolved before.2 after.2)
        u.blocks u.resolveCollisions.blocks ∧
      u.resolveCollisions.resolveCollisions = u.resolveCollisions := by
  constructor
  · rw [SourceUnit.resolveCollisions, SourceUnit.blocks_mapBlocks, List.forall₂_map_right_iff,
      List.forall₂_same]
    intro block hblock
    refine ⟨rfl, Collision.resolved_resolve fun b hb _ => ?_⟩
    exact (names_of_compose h (SourceUnit.mem_bindings hblock hb)).1
  · apply resolveCollisions_resolveCollisions
    intro block hblock
    apply Collision.resolve_resolve
    intro b hb
    exact (names_of_compose h (SourceUnit.mem_bindings hblock hb)).2

/-- Two classes of one name with different bases, and two functions of one name around a third that
has the first alternative for it. -/
def overloadModule : Module :=
  let node (base : Text) : Declaration :=
    .classDeclaration ⟨some "Node", [], [], some { segments := [base] }, [], false, none⟩
  let function (name : Text) : Declaration := .function ⟨some name, ⟨[], none, []⟩, none⟩
  { body := [
      .declaration (node "Base"), .declaration (function "type"), .declaration (node "Other"),
      .declaration (function "type_1"), .declaration (function "type")] }

theorem overloadModule_resolveCollisions :
    ∃ u, (compose .standard overloadModule).result = .ok u ∧
      (u.resolveCollisions.bindings.map fun b => (b.name, b.attributes.bases)) =
        ([("Node", [["Base"], ["Other"]]), ("r#type", []), ("type_1", []), ("type_2", [])] :
          List (Text × List (List Text))) ∧
      List.Forall₂
        (fun before after => after.1 = before.1 ∧ Collision.Resolved before.2 after.2)
        u.blocks u.resolveCollisions.blocks ∧
      u.resolveCollisions.resolveCollisions = u.resolveCollisions :=
  ⟨_, rfl, rfl, compose_resolveCollisions .standard overloadModule _ rfl⟩

end HostBindings

import HostBindings.Proofs.ExportLinkage
import HostBindings.Proofs.HostSurface
import HostBindings.Proofs.PlacedOrigins

/-!
Qualified references meet the types that they name. A reference is mapped by its segments alone; the
type is bound in a scope module that nesting, reopening and joining put together. Both arrive at the
same path, and that path is one of those that cross the boundary.
-/

namespace HostBindings

open Source Rust Outcome Lowering HostBindings.Composition

namespace Source

/-- A declaration stands inside another one, below a chain of namespaces of these names, outermost
first. Each has a block of its own, and none is a foreign module or the global scope. -/
inductive StandsIn : List Text → Declaration → Declaration → Prop
  | here (d : Declaration) : StandsIn [] d d
  | inside {name : Text} {names : List Text} {statements : List Statement}
      {blockLoc loc : Option Location} {inner d : Declaration}
      (hinner : inner ∈ ({ body := statements } : Module).topDeclarations)
      (h : StandsIn names inner d) :
      StandsIn (name :: names) (.space ⟨name, .block statements blockLoc, false, false, loc⟩) d

end Source

/-- The types of slots that hold a given type: that type itself, a reference to it, an option of it,
or a slice of it that may be missing as a whole. -/
inductive BindingType.Holds (ty : BindingType) : BindingType → Prop
  | plain : Holds ty ty
  | reference : Holds ty (.reference ty)
  | option : Holds ty (.option ty)
  | boxedSlice : Holds ty (.boxedSlice ty)
  | optionalSlice : Holds ty (.option (.boxedSlice ty))

namespace Rust.SourceUnit

/-- From one unit to the other no binding moves and no slot with one of these types changes. -/
def KeepsSlots (P : BindingType → Prop) (u u' : SourceUnit) : Prop :=
  List.Forall₂
    (fun before after => after.1 = before.1 ∧ List.Forall₂
      (fun slot slot' => slot'.1 = slot.1 ∧ (P slot.2 → slot'.2 = slot.2))
      before.2.shape.slots after.2.shape.slots)
    u.placed u'.placed

theorem placed_legalizeWith (custom : List (List Text)) (u : SourceUnit) :
    (u.legalizeWith custom).placed =
      u.placed.map fun place =>
        (place.1, place.2.mapTypes (Boundary.legalizeType custom)) :=
  Item.placed_mapBlocksOf_map _ [] u.items

theorem legalizeType_of_holds {custom : List (List Text)} {path : List Text}
    (hpath : path ∈ custom) {ty : BindingType} (hty : BindingType.Holds (.named path) ty)
    (isResult : Bool) : Boundary.legalizeType custom isResult ty = ty := by
  have hknown : Boundary.isKnownPath custom path = true := by
    simp [Boundary.isKnownPath, hpath]
  have hsafe : Boundary.isSafe custom ty = true := by
    cases hty <;> simp [Boundary.isSafe, Boundary.isBase, Boundary.isSliceable, hknown]
  apply Boundary.legalizeType_of_legal
  cases isResult with
  | false => exact Or.inl hsafe
  | true => exact ⟨hsafe, Boundary.isCallableReference_of_isSafe hsafe⟩

theorem keepsSlots_legalize {u : SourceUnit} {path : List Text} (hpath : path ∈ u.customPaths) :
    KeepsSlots (BindingType.Holds (.named path)) u u.legalize := by
  rw [KeepsSlots, legalize, placed_legalizeWith, List.forall₂_map_right_iff, List.forall₂_same]
  intro place _
  refine ⟨rfl, ?_⟩
  rw [Binding.shape_mapTypes, BindingShape.slots_mapTypes, List.forall₂_map_right_iff,
    List.forall₂_same]
  exact fun slot _ => ⟨rfl, fun hheld => legalizeType_of_holds hpath hheld slot.1⟩

theorem mem_customPaths_of_placed {u : SourceUnit} {path : List Text} {b : Binding}
    (hb : (path, b) ∈ u.placed) (htype : b.isHostType = true) :
    path ++ [b.name] ∈ u.customPaths := by
  obtain ⟨block, hblock, hmem⟩ := List.mem_flatMap.mp hb
  obtain ⟨bound, hbound, hplace⟩ := List.mem_map.mp hmem
  obtain ⟨rfl, rfl⟩ := Prod.mk.inj hplace
  have hname : bound.name ∈ Binding.hostTypeNames block.2 :=
    Binding.mem_hostTypeNames.mpr ⟨bound, hbound, htype, rfl⟩
  rw [customPaths_eq]
  refine List.mem_append_left _ (List.mem_flatMap.mpr ⟨block, hblock, ?_⟩)
  refine List.mem_flatMap.mpr ⟨bound.name, hname, ?_⟩
  exact List.mem_cons_of_mem _ (List.mem_singleton_self _)

end Rust.SourceUnit

namespace Composition

variable {options : Options} {path spaces : List Text}

theorem mem_placedOf {statements : List Statement} {d : Declaration}
    (hd : d ∈ ({ body := statements } : Module).topDeclarations) {o : List Text × Origin}
    (ho : o ∈ placedIn options path spaces d) : o ∈ placedOf options path spaces statements := by
  induction statements with
  | nil => cases hd
  | cons statement rest ih =>
      obtain ⟨declaring, hmem, hsome⟩ := List.mem_filterMap.mp hd
      rcases List.mem_cons.mp hmem with rfl | hrest
      · cases declaring with
        | declaration d' | exportDeclaration d' loc | exportDefaultDeclaration d' loc =>
            obtain rfl : d' = d := Option.some.inj hsome
            simp only [placedOf, List.mem_append]
            exact Or.inl ho
        | _ => cases hsome
      · have hlater := ih (List.mem_filterMap.mpr ⟨declaring, hrest, hsome⟩)
        cases statement <;> simp only [placedOf, List.mem_append] <;>
          first | exact Or.inr hlater | exact hlater

theorem origin_mem_of_declaresType (spaces : List Text) {d : Declaration}
    (htype : declaresType d = true) :
    makesScope d = false ∧ ⟨spaces, d, none⟩ ∈ originsIn spaces d := by
  cases d with
  | classDeclaration d => exact ⟨rfl, by simp [originsIn]⟩
  | typeAlias d => exact ⟨rfl, by simp [originsIn]⟩
  | interface d => exact ⟨rfl, by simp [originsIn]⟩
  | _ => cases htype

/-- A type below a chain of namespaces is bound in the scopes of their names. -/
theorem mem_placedIn_of_standsIn (path spaces : List Text) {names : List Text}
    {outer d : Declaration} (h : StandsIn names outer d) (htype : declaresType d = true) :
    (path ++ names.map options.scopeName, ⟨spaces ++ names, d, none⟩) ∈
      placedIn options path spaces outer := by
  induction h generalizing path spaces with
  | here d =>
      obtain ⟨hplain, horigin⟩ := origin_mem_of_declaresType spaces htype
      rw [placedIn_of_plain hplain, List.map_nil, List.append_nil, List.append_nil]
      exact List.mem_map_of_mem horigin
  | @inside name names statements blockLoc loc inner d hinner _ ih =>
      have hbelow := ih (path ++ [options.scopeName name]) (spaces ++ [name]) htype
      simp only [placedIn, Bool.or_self, Bool.false_eq_true, if_false]
      rw [List.append_assoc, List.append_assoc] at hbelow
      exact mem_placedOf hinner hbelow

theorem mapType_reference_of_ne_nil {qualifier : List Text} (h : qualifier ≠ [])
    (within : List Text) (name : Text) (args : List TypeExpr) (loc : Option Location) :
    mapType options within (.reference qualifier name args loc) =
      pure (.named (qualifier.map options.scopeName ++ [Identifier.rustName name])) := by
  have hqualified : (!qualifier.isEmpty) = true := by simpa using h
  rw [mapType.eq_def]
  dsimp only
  rw [if_pos hqualified]
  rfl

/-- A reference to a type below a chain of namespaces, written from the root, is mapped to the
path at which the unit binds that type. A slot that holds the type crosses the boundary as it is,
before the collisions are resolved and after. -/
theorem qualifiedReference_meets_type (options : Options) (m : Module) (u : SourceUnit)
    (h : (compose options m).result = .ok u) {outer d : Declaration}
    (houter : outer ∈ m.visibleDeclarations) {names : List Text} (hnested : names ≠ [])
    (hd : StandsIn names outer d) (htype : declaresType d = true) {name : Text}
    (hname : d.name? = some name) :
    ∃ path b, (path, b) ∈ u.placed ∧
      b = typeBinding d name ((scriptNames m.body).reverse ++ names) ∧
      (∀ within args loc, mapType options within (.reference names name args loc) =
        pure (.named (path ++ [b.name]))) ∧
      u.KeepsSlots (BindingType.Holds (.named (path ++ [b.name]))) u.legalize ∧
      u.resolveCollisions.KeepsSlots (BindingType.Holds (.named (path ++ [b.name])))
        u.resolveCollisions.legalize := by
  have horigin : (names.map options.scopeName, ⟨names, d, none⟩) ∈
      placedAll options m.visibleDeclarations :=
    List.mem_flatMap.mpr ⟨outer, houter, mem_placedIn_of_standsIn [] [] hd htype⟩
  obtain ⟨hplaced, hhost⟩ :=
    (typeBinding_mem_placed_iff h).mpr ⟨names, d, name, horigin, htype, hname, rfl⟩
  refine ⟨_, _, hplaced, rfl, ?_, ?_, ?_⟩
  · intro within args loc
    rw [name_typeBinding]
    exact mapType_reference_of_ne_nil hnested within name args loc
  · exact SourceUnit.keepsSlots_legalize (SourceUnit.mem_customPaths_of_placed hplaced hhost)
  · -- resolving collisions may drop the binding itself, but some type of its name stays
    exact SourceUnit.keepsSlots_legalize
      (SourceUnit.mem_customPaths_resolveCollisions.mpr
        (Or.inl ⟨_, hplaced, hhost, Or.inr rfl⟩))

/-- An interface with an acronym in its name. -/
def nodeInterface : Declaration := .interface ⟨"XMLNode", [], [], [], none⟩

/-- A namespace inside another one; both are opened a second time, and only then declare the
interface. -/
def reopenedSpace : Declaration :=
  let space (name : Text) (body : List Statement) : Declaration :=
    .space ⟨name, .block body none, false, false, none⟩
  space "svg" [.declaration (space "x-y" [.declaration nodeInterface])]

/-- A function that takes many nodes and may give one back, after two openings of a namespace. -/
def atlasModule : Module :=
  let node : TypeExpr := .reference ["svg", "x-y"] "XMLNode" [] none
  let params : List Param := [⟨.name "nodes" none, some (.array node none), false, false, none⟩]
  { body := [
      .declaration (.space ⟨"svg", .block [.declaration (.space ⟨"x-y", .block [
        .declaration (.interface ⟨"Point", [], [], [], none⟩)] none, false, false, none⟩)] none,
        false, false, none⟩),
      .declaration reopenedSpace,
      .declaration (.function ⟨some "find", ⟨params, some (.optional node none), []⟩, none⟩),
      .exportAsNamespace "Atlas" none] }

theorem atlasModule_reference_meets_type :
    ∃ u, (compose .standard atlasModule).result = .ok u ∧
      u.placed.map (fun place => (place.1, place.2.name)) =
        ([(["svgMod", "x_yMod"], "Point"), (["svgMod", "x_yMod"], "XmlNode"), ([], "find")] :
          List (List Text × Text)) ∧
      ∃ path b, (path, b) ∈ u.placed ∧
        b = typeBinding nodeInterface "XMLNode" ["Atlas", "svg", "x-y"] ∧
        (∀ within args loc,
          mapType .standard within (.reference ["svg", "x-y"] "XMLNode" args loc) =
            pure (.named (path ++ [b.name]))) ∧
        u.KeepsSlots (BindingType.Holds (.named (path ++ [b.name]))) u.legalize ∧
        u.resolveCollisions.KeepsSlots (BindingType.Holds (.named (path ++ [b.name])))
          u.resolveCollisions.legalize := by
  refine ⟨_, rfl, rfl, ?_⟩
  have hstands : StandsIn ["svg", "x-y"] reopenedSpace nodeInterface :=
    .inside (List.mem_singleton_self _) (.inside (List.mem_singleton_self _) (.here _))
  exact qualifiedReference_meets_type .standard atlasModule _ rfl
    (List.mem_cons_of_mem _ List.mem_cons_self) (by simp) hstands rfl rfl

end Composition

end HostBindings

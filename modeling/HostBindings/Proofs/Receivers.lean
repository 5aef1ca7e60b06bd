import HostBindings.Proofs.ComposedUnits
import HostBindings.Proofs.ErasureLaws
import HostBindings.Proofs.HostNames
import Mathlib.Order.Fin.Basic

/-!
Members and their owners. A method receives its owner and a constructor gives one; the owner is a
type of the same extern block. The owner's name is printed like any other, so a type parameter with
that name takes it over: then both slots hold the dynamic value.
-/

namespace HostBindings

open Source Rust Lowering HostBindings.Composition

namespace Lowering

/-- The owner of every member is a host type among the bindings. -/
def OwnersDeclared (bindings : List Binding) : Prop :=
  ∀ b ∈ bindings, ∀ owner, b.attributes.owner = some owner →
    owner ∈ Binding.hostTypeNames bindings

theorem declaresType_of_mem_boundMembers {d : Declaration} {member : Member}
    (h : member ∈ boundMembers d) : declaresType d = true := by
  cases d with
  | classDeclaration d => rfl
  | typeAlias d => rfl
  | interface d => rfl
  | _ => cases h

mutual

theorem declaration_mem_originsIn {spaces : List Text} {d : Declaration} {o : Origin}
    (h : o ∈ originsIn spaces d) {member : Member} (hmember : o.member = some member) :
    ⟨o.spaces, o.declaration, none⟩ ∈ originsIn spaces d ∧
      declaresType o.declaration = true := by
  cases d with
  | space d =>
      obtain ⟨name, body, isStringName, isGlobal, loc⟩ := d
      cases body with
      | block statements blockLoc =>
          simp only [originsIn] at h ⊢
          split at h
          · cases h
          · rename_i hstring
            rw [if_neg hstring]
            exact declaration_mem_originsOf h hmember
      | missing => cases h
      | nested inner => cases h
  | enumeration d => cases h
  | stray s => cases h
  | _ =>
      simp only [originsIn, List.mem_cons, List.mem_map] at h ⊢
      rcases h with rfl | ⟨bound, hbound, rfl⟩
      · cases hmember
      · exact ⟨Or.inl rfl, declaresType_of_mem_boundMembers hbound⟩

theorem declaration_mem_originsOf {spaces : List Text} {statements : List Statement} {o : Origin}
    (h : o ∈ originsOf spaces statements) {member : Member} (hmember : o.member = some member) :
    ⟨o.spaces, o.declaration, none⟩ ∈ originsOf spaces statements ∧
      declaresType o.declaration = true := by
  match statements with
  | [] => cases h
  | .declaration d :: rest | .exportDeclaration d _ :: rest
  | .exportDefaultDeclaration d _ :: rest =>
      simp only [originsOf, List.mem_append] at h ⊢
      rcases h with hhead | htail
      · obtain ⟨hdeclared, htype⟩ := declaration_mem_originsIn hhead hmember
        exact ⟨Or.inl hdeclared, htype⟩
      · obtain ⟨hdeclared, htype⟩ := declaration_mem_originsOf htail hmember
        exact ⟨Or.inr hdeclared, htype⟩
  | .importDeclaration _ :: rest | .importAlias _ :: rest | .exportList _ :: rest
  | .exportDefaultName _ _ :: rest | .exportAll _ _ _ :: rest | .exportAssignment _ _ :: rest
  | .exportAsNamespace _ _ :: rest | .stray _ :: rest =>
      simp only [originsOf] at h ⊢
      exact declaration_mem_originsOf h hmember

end

theorem Made.isTypeNamed {spaces : List Text} {d : Declaration} {name : Text} {b : Binding}
    (h : Made ⟨spaces, d, none⟩ b) (htype : declaresType d = true) (hname : d.name? = some name) :
    Collision.isTypeNamed (Identifier.rustName name) b = true := by
  cases h with
  | declared spaces hform =>
      rw [Binding.encloseAll_eq]
      cases hform with
      | hostType _ hother =>
          obtain rfl : _ = name := Option.some.inj (hother.symm.trans hname)
          simp [Collision.isTypeNamed, Binding.isHostType, hostType, Identifier.rustName]
      | function _ _ _ => cases htype
      | static _ _ => cases htype

theorem lower_ownersDeclared {options : Options} {within : List Text} {d : Declaration}
    {bindings : List Binding} (h : (lower options within d).result = .ok bindings) :
    OwnersDeclared bindings := by
  have hmade := lower_made h
  intro b hb owner howner
  obtain ⟨o, ho, hob⟩ := Collision.exists_of_mem_right hmade hb
  rw [hob.standsFor.owner, Origin.owner?, Option.bind_eq_some_iff] at howner
  obtain ⟨member, hmember, howner⟩ := howner
  obtain ⟨name, hname, rfl⟩ := Option.map_eq_some_iff.mp howner
  obtain ⟨hdeclared, htype⟩ := declaration_mem_originsIn ho hmember
  obtain ⟨type, htypeMem, htypeMade⟩ := Collision.exists_of_mem_right hmade.flip hdeclared
  rw [Collision.mem_hostTypeNames]
  exact List.any_eq_true.mpr ⟨type, htypeMem, htypeMade.isTypeNamed htype hname⟩

theorem OwnersDeclared.append {xs ys : List Binding} (hx : OwnersDeclared xs)
    (hy : OwnersDeclared ys) : OwnersDeclared (xs ++ ys) := by
  intro b hb owner howner
  rw [Collision.hostTypeNames_append]
  rcases List.mem_append.mp hb with hleft | hright
  · exact List.mem_append_left _ (hx b hleft owner howner)
  · exact List.mem_append_right _ (hy b hright owner howner)

theorem OwnersDeclared.enclose (name : Text) {xs : List Binding} (h : OwnersDeclared xs) :
    OwnersDeclared (xs.map (Binding.enclose name)) := by
  have hnames : Binding.hostTypeNames (xs.map (Binding.enclose name)) =
      Binding.hostTypeNames xs := by
    rw [Binding.hostTypeNames, List.filter_map, List.map_map]
    rfl
  intro b hb owner howner
  obtain ⟨original, horiginal, rfl⟩ := List.mem_map.mp hb
  rw [hnames]
  exact h original horiginal owner howner

theorem composable_ownersDeclared (options : Options) : Composable options OwnersDeclared :=
  ⟨lower_ownersDeclared, OwnersDeclared.append, OwnersDeclared.enclose⟩

/-- The type parameters that stand around an origin or belong to it. -/
def Origin.scope (o : Origin) : GenericScope :=
  declarationScope o.declaration ++ (o.member.map memberScope).getD []

/-- The slots of a member that hold its owner: a method has its receiver as the first parameter, and
a constructor gives its result. -/
structure OwnerSlots (receiver result : BindingType) (b : Binding) : Prop where
  receiver : b.attributes.isMethod = true →
    ∃ params out, b.shape = .function (⟨"this", receiver⟩ :: params) out
  result : b.attributes.isConstructor = true →
    ∃ params, b.shape = .function params (some result)

theorem OwnerSlots.mapTypes {receiver result : BindingType} {b : Binding}
    (h : OwnerSlots receiver result b) (f : Bool → BindingType → BindingType) :
    OwnerSlots (f false receiver) (f true result) (b.mapTypes f) := by
  constructor
  · intro hmethod
    obtain ⟨params, out, hshape⟩ := h.receiver hmethod
    rw [Binding.shape_mapTypes, hshape]
    exact ⟨_, _, rfl⟩
  · intro hconstructor
    obtain ⟨params, hshape⟩ := h.result hconstructor
    rw [Binding.shape_mapTypes, hshape]
    exact ⟨_, rfl⟩

theorem OwnerSlots.congr {receiver result : BindingType} {b c : Binding}
    (h : OwnerSlots receiver result b) (hshape : c.shape = b.shape)
    (hmethod : c.attributes.isMethod = b.attributes.isMethod)
    (hconstructor : c.attributes.isConstructor = b.attributes.isConstructor) :
    OwnerSlots receiver result c := by
  constructor
  · rw [hshape, hmethod]
    exact h.receiver
  · rw [hshape, hconstructor]
    exact h.result

theorem MemberForm.ownerSlots {owner : Text} {member : Member} {form : Binding}
    (h : MemberForm owner member form) :
    OwnerSlots (.reference (.named [owner])) (.named [owner]) form := by
  cases h with
  | constructor hmember params => exact ⟨nofun, fun _ => ⟨params, rfl⟩⟩
  | method hkey isStatic params result =>
      refine ⟨?_, nofun⟩
      intro hmethod
      cases isStatic with
      | true => cases hmethod
      | false => exact ⟨params, result, rfl⟩
  | accessor hkey mark isStatic result value =>
      refine ⟨?_, nofun⟩
      intro hmethod
      cases isStatic with
      | true => cases hmethod
      | false => exact ⟨value.toList, result, rfl⟩

/-- A lowered binding with the mark of a method or a constructor is that of a member, and type
parameters are erased from the slots that hold the owner as from all others. -/
theorem Made.ownerSlots {o : Origin} {b : Binding} (h : Made o b)
    (hmark : b.attributes.isMethod = true ∨ b.attributes.isConstructor = true) :
    ∃ owner, b.attributes.owner = some owner ∧ b.shape.kind = .function ∧
      OwnerSlots ((BindingType.reference (.named [owner])).erase o.scope)
        ((BindingType.named [owner]).erase o.scope) b := by
  cases h with
  | declared spaces hform =>
      rw [Binding.encloseAll_eq] at hmark
      cases hform <;> rcases hmark with hmark | hmark <;> cases hmark
  | @member d name member _ spaces hname hmade =>
      obtain ⟨form, hform, rfl⟩ := hmade
      let scope := declarationScope d ++ memberScope member
      have hstands : StandsFor [] ⟨[], d, some member⟩ (form.erase scope) :=
        (hform.standsFor hname).mapTypes _
      have hslots : OwnerSlots _ _ (form.erase scope) :=
        hform.ownerSlots.mapTypes fun _ type => type.erase scope
      rw [Binding.encloseAll_eq]
      refine ⟨Identifier.rustName name, ?_, hstands.kind, hslots.congr rfl rfl rfl⟩
      refine hstands.owner.trans ?_
      simp [Origin.owner?, hname]

end Lowering

theorem ownerSlots_of_compose {options : Options} {m : Module} {u : SourceUnit}
    (h : (compose options m).result = .ok u) {b : Binding} (hb : b ∈ u.bindings)
    (hmark : b.attributes.isMethod = true ∨ b.attributes.isConstructor = true) :
    ∃ o ∈ originsOfAll m.visibleDeclarations, ∃ owner,
      StandsFor (scriptNames m.body).reverse o b ∧ b.attributes.owner = some owner ∧
      b.shape.kind = .function ∧
      OwnerSlots ((BindingType.reference (.named [owner])).erase o.scope)
        ((BindingType.named [owner]).erase o.scope) b := by
  obtain ⟨lowered, hmade, hperm⟩ := bindings_of_compose h
  obtain ⟨original, horiginal, rfl⟩ := List.mem_map.mp (hperm.mem_iff.mp hb)
  obtain ⟨o, ho, horiginalMade⟩ := Collision.exists_of_mem_right hmade horiginal
  have hstands := horiginalMade.standsFor.encloseAll (scriptNames m.body).reverse
  rw [List.append_nil] at hstands
  rw [Binding.encloseAll_eq] at hmark hstands ⊢
  obtain ⟨owner, howner, hkind, hslots⟩ := horiginalMade.ownerSlots hmark
  exact ⟨o, ho, owner, hstands, howner, hkind, hslots.congr rfl rfl rfl⟩

namespace Rust.Collision

theorem Becomes.attributes_eq {block : List Binding} {before after : Binding}
    (h : Becomes block before after) :
    ∃ hostName bases,
      after.attributes = { before.attributes with hostName := hostName, bases := bases } := by
  have hprepared : (prepared before).attributes = before.attributes := by
    obtain ⟨f, hf⟩ := prepared_eq_mapTypes before
    rw [hf, Binding.attributes_mapTypes]
  rw [Becomes] at h
  split at h
  · rw [h]
    exact ⟨_, _, rfl⟩
  · rcases h with rfl | ⟨k, rfl⟩
    · exact ⟨_, _, hprepared⟩
    · rw [rename, hprepared]
      exact ⟨_, _, rfl⟩

theorem Becomes.shape_eq {block : List Binding} {before after : Binding} {owner : Text}
    (h : Becomes block before after) (hkind : before.shape.kind = .function)
    (howner : before.attributes.owner = some owner) :
    after.shape = before.shape.mapTypes fun _ type => type.substitute "Self" (.named [owner]) := by
  obtain ⟨name, shape, attributes, loc⟩ := before
  cases shape with
  | hostType => cases hkind
  | static type => cases hkind
  | function params result =>
      replace howner : attributes.owner = some owner := howner
      have hprepared : prepared ⟨name, .function params result, attributes, loc⟩ =
          Binding.mapTypes (fun _ type => type.substitute "Self" (.named [owner]))
            ⟨name, .function params result, attributes, loc⟩ := by
        simp only [prepared, resolveSelf, howner]
      rw [Becomes, hprepared] at h
      rcases h with rfl | ⟨k, rfl⟩
      · rfl
      · rfl

end Rust.Collision

theorem Lowering.OwnerSlots.becomes {receiver result : BindingType} {block : List Binding}
    {before after : Binding} {owner : Text} (h : OwnerSlots receiver result before)
    (hkind : before.shape.kind = .function) (howner : before.attributes.owner = some owner)
    (hafter : Collision.Becomes block before after) :
    OwnerSlots (receiver.substitute "Self" (.named [owner]))
      (result.substitute "Self" (.named [owner])) after := by
  obtain ⟨hostName, bases, hattributes⟩ := hafter.attributes_eq
  refine (h.mapTypes fun _ type => type.substitute "Self" (.named [owner])).congr
    (hafter.shape_eq hkind howner) ?_ ?_
  · rw [hattributes, Binding.attributes_mapTypes]
  · rw [hattributes, Binding.attributes_mapTypes]

section

variable {custom : List (List Text)} {scope : GenericScope} {owner : Text}

theorem substitute_erase_owner (hself : owner ≠ Text.ofString "Self") :
    ((BindingType.named [owner]).erase scope).substitute "Self" (.named [owner]) =
      if owner ∈ scope then .dynamic else .named [owner] := by
  split
  · rename_i hmem
    rw [BindingType.erase_named_of_mem hmem]
    rfl
  · rename_i hmem
    rw [BindingType.erase_named_of_not_mem hmem, BindingType.substitute_eq_replaceNames]
    exact BindingType.replaceNames_named_of_none _ (if_neg hself)

theorem legalize_result (hself : owner ≠ Text.ofString "Self") (hcustom : [owner] ∈ custom) :
    Boundary.legalizeType custom true
        (((BindingType.named [owner]).erase scope).substitute "Self" (.named [owner])) =
      if owner ∈ scope then .dynamic else .named [owner] := by
  rw [substitute_erase_owner hself]
  apply Boundary.legalizeType_of_legal
  split
  · exact ⟨rfl, rfl⟩
  · exact ⟨by simp [Boundary.isSafe, Boundary.isBase, Boundary.isKnownPath, hcustom], rfl⟩

theorem legalize_receiver (hself : owner ≠ Text.ofString "Self") (hcustom : [owner] ∈ custom) :
    Boundary.legalizeType custom false
        (((BindingType.reference (.named [owner])).erase scope).substitute "Self"
          (.named [owner])) =
      if owner ∈ scope then .dynamic else .reference (.named [owner]) := by
  rw [BindingType.erase_reference, BindingType.substitute_eq_replaceNames,
    BindingType.replaceNames_reference, ← BindingType.substitute_eq_replaceNames,
    substitute_erase_owner hself]
  split
  · rfl
  · apply Boundary.legalizeType_of_legal
    exact Or.inl (by simp [Boundary.isSafe, Boundary.isBase, Boundary.isKnownPath, hcustom])

end

/-- Every method of a compiled unit receives its owner by reference as `this`, every constructor
gives its owner, and the owner is a type of the same extern block. Only where a type parameter of
the owner or of the member has the owner's Rust name do both slots hold the dynamic value. -/
theorem compileModule_receivers (options : Options) (m : Module) (u : SourceUnit)
    (h : (compileModule options m).result = .ok u) :
    ∀ block ∈ u.blocks, ∀ b ∈ block.2,
      b.attributes.isMethod = true ∨ b.attributes.isConstructor = true →
      ∃ o ∈ originsOfAll m.visibleDeclarations, ∃ owner,
        StandsFor (scriptNames m.body).reverse o b ∧ b.attributes.owner = some owner ∧
        owner ∈ Binding.hostTypeNames block.2 ∧
        OwnerSlots (if owner ∈ o.scope then .dynamic else .reference (.named [owner]))
          (if owner ∈ o.scope then .dynamic else .named [owner]) b := by
  obtain ⟨composed, hcomposed, rfl⟩ := (compileModule_eq_ok_iff options m u).mp h
  rintro block hblock b hb hmark
  rw [blocks_finish] at hblock
  obtain ⟨before, hbefore, rfl⟩ := List.mem_map.mp hblock
  obtain ⟨settled, hsettled, rfl⟩ := List.mem_map.mp hb
  have hinvariant := Collision.invariant_foldl_step before.2
  obtain ⟨original, horiginal, hbecomes⟩ :=
    Collision.exists_of_mem_right hinvariant.becomes hsettled
  have hblockMem : original ∈ before.2 :=
    (Collision.survivors_sublist [] before.2).subset horiginal
  obtain ⟨hostName, bases, hattributes⟩ := hbecomes.attributes_eq
  rw [Binding.attributes_mapTypes, hattributes] at hmark
  obtain ⟨o, ho, owner, hstands, howner, hkind, hslots⟩ :=
    ownerSlots_of_compose hcomposed (SourceUnit.mem_bindings hbefore hblockMem) hmark
  have hdeclared : owner ∈ Binding.hostTypeNames (Collision.resolve before.2) :=
    Collision.mem_hostTypeNames_resolve.mpr
      ((composable_ownersDeclared options).of_mem_blocks hcomposed hbefore _ hblockMem _ howner)
  have hself := hstands.owner_ne_self howner
  -- the owner is a type of the unit itself, so its name crosses the boundary
  have hcustom : [owner] ∈ composed.resolveCollisions.customPaths := by
    rw [SourceUnit.customPaths_eq, SourceUnit.resolveCollisions, SourceUnit.blocks_mapBlocks]
    apply List.mem_append_left
    refine List.mem_flatMap.mpr ⟨_, List.mem_map_of_mem hbefore, ?_⟩
    exact List.mem_flatMap.mpr ⟨owner, hdeclared, List.mem_cons_self⟩
  refine ⟨o, ho, owner, (hstands.becomes hbecomes).mapTypes _, ?_, ?_, ?_⟩
  · rw [Binding.attributes_mapTypes, hattributes]
    exact howner
  · rw [finishBlock, Binding.hostTypeNames_map_mapTypes]
    exact hdeclared
  · rw [← legalize_receiver hself hcustom, ← legalize_result hself hcustom]
    exact (hslots.becomes hkind howner hbecomes).mapTypes _

/-- A class with a constructor and two methods, the second of which has a type parameter with the
name of the class. -/
def boxModule : Module :=
  let key (name : Text) : PropertyKey := ⟨.word, name, none⟩
  let method (name : Text) (typeParams : List TypeParam) : Member :=
    .method (key name) .method ⟨[], none, typeParams⟩ false none false false none
  { body := [
      .declaration (.classDeclaration ⟨some "Box", [
        .constructorMember (key "constructor") [] none none, method "open" [],
        method "map" [⟨"Box", none, none, none⟩]], [], none, [], false, none⟩)] }

theorem boxModule_receivers :
    ∃ u, (compileModule .standard boxModule).result = .ok u ∧
      u.bindings.map Binding.types =
        [[], [.named ["Box"]], [.reference (.named ["Box"])], [.dynamic]] ∧
      ∀ block ∈ u.blocks, ∀ b ∈ block.2,
        b.attributes.isMethod = true ∨ b.attributes.isConstructor = true →
        ∃ o ∈ originsOfAll boxModule.visibleDeclarations, ∃ owner,
          StandsFor (scriptNames boxModule.body).reverse o b ∧ b.attributes.owner = some owner ∧
          owner ∈ Binding.hostTypeNames block.2 ∧
          OwnerSlots (if owner ∈ o.scope then .dynamic else .reference (.named [owner]))
            (if owner ∈ o.scope then .dynamic else .named [owner]) b :=
  ⟨_, rfl, rfl, compileModule_receivers .standard boxModule _ rfl⟩

/-- The second method does not receive its class by reference. -/
theorem boxModule_receiver_captured :
    ∃ u, (compileModule .standard boxModule).result = .ok u ∧
      ∃ block ∈ u.blocks, ∃ b ∈ block.2, b.attributes.isMethod = true ∧
        b.attributes.owner = some (Text.ofString "Box") ∧
        ¬ OwnerSlots (.reference (.named ["Box"])) (.named ["Box"]) b := by
  refine ⟨_, rfl, _, List.mem_cons_self, _, List.mem_of_getLast? rfl, rfl, rfl, ?_⟩
  intro hslots
  obtain ⟨params, out, hshape⟩ := hslots.receiver rfl
  cases hshape

end HostBindings

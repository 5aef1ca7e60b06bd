import HostBindings.Proofs.PlacedOrigins

/-!
Which types fold into one. A block keeps the first type of each Rust name and drops the others. They
are openings of one host type only if the source keeps different host types apart: if no two of them
have one Rust name in one scope. A step of the resolution looks at no host name, so this condition
on the source is all there is to it.
-/

namespace HostBindings

open Source Rust

namespace Rust.Collision

/-- Two bindings are known to the host by one name in the same namespaces. -/
def SameOnHost (a b : Binding) : Prop :=
  a.hostName = b.hostName ∧ a.attributes.namespacePath = b.attributes.namespacePath

theorem SameOnHost.symm {a b : Binding} (h : SameOnHost a b) : SameOnHost b a :=
  ⟨h.1.symm, h.2.symm⟩

theorem SameOnHost.trans {a b c : Binding} (h : SameOnHost a b) (h' : SameOnHost b c) :
    SameOnHost a c :=
  ⟨h.1.trans h'.1, h.2.trans h'.2⟩

/-- At some step the resolution drops a type of the block, since it has kept the other one under the
same Rust name. -/
def Drops (block : List Binding) (first repeated : Binding) : Prop :=
  ∃ before after, block = before ++ repeated :: after ∧
    first ∈ (before.foldl step {}).kept ∧ repeated.isHostType = true ∧
    isTypeNamed repeated.name first = true

theorem Drops.append {block : List Binding} {first repeated : Binding}
    (h : Drops block first repeated) (more : List Binding) :
    Drops (block ++ more) first repeated := by
  obtain ⟨before, after, rfl, hfirst⟩ := h
  exact ⟨before, after ++ more, by simp, hfirst⟩

theorem sameOnHost_foldInto (repeated b : Binding) : SameOnHost (foldInto repeated b) b := by
  rw [foldInto]
  split <;> exact ⟨rfl, rfl⟩

theorem Becomes.sameOnHost {block : List Binding} {before after : Binding}
    (h : Becomes block before after) (htype : before.isHostType = true) :
    SameOnHost after before := by
  rw [Becomes, if_pos htype] at h
  rw [h]
  exact ⟨rfl, rfl⟩

/-- Each kept type is on the host what all types of its name are. -/
def Represents (kept block : List Binding) : Prop :=
  ∀ first ∈ kept, first.isHostType = true →
    ∀ b ∈ block, isTypeNamed first.name b = true → SameOnHost first b

theorem Represents.snoc {kept block : List Binding} {b : Binding} (h : Represents kept block)
    (hdropped : ∀ first ∈ kept, b.isHostType = true → isTypeNamed b.name first = true →
      SameOnHost first b) : Represents kept (block ++ [b]) := by
  intro first hfirst htype other hother hnamed
  rcases List.mem_append.mp hother with hmem | hlast
  · exact h first hfirst htype other hmem hnamed
  · rw [List.mem_singleton.mp hlast] at hnamed ⊢
    obtain ⟨hb, hname⟩ : b.isHostType = true ∧ b.name = first.name := by
      simpa [isTypeNamed] using hnamed
    exact hdropped first hfirst hb (by simp [isTypeNamed, htype, hname])

theorem Represents.step {block : List Binding} {s : State} (hinvariant : Invariant block s)
    (h : Represents s.kept block) {b : Binding}
    (hdropped : ∀ first ∈ s.kept, b.isHostType = true → isTypeNamed b.name first = true →
      SameOnHost first b) :
    Represents (Collision.step s b).kept (block ++ [b]) := by
  have hkept := h.snoc hdropped
  intro first hfirst htype other hother hnamed
  cases hb : b.isHostType with
  | false =>
      rw [step_of_isMember (by simp [isMember, hb]), keep] at hfirst
      rcases List.mem_append.mp hfirst with hbefore | hlast
      · exact hkept first hbefore htype other hother hnamed
      · -- what was kept last is no type
        rw [List.mem_singleton.mp hlast] at htype
        rcases (settle_spec s.taken (nameSpace b) (prepared b)).2 with heq | ⟨k, heq⟩
        · rw [heq, isHostType_prepared, hb] at htype
          cases htype
        · rw [heq, isHostType_rename, isHostType_prepared, hb] at htype
          cases htype
  | true =>
      cases hknown : s.kept.any (isTypeNamed b.name) with
      | true =>
          rw [step_of_repeated_type hb hknown, foldType_eq_map] at hfirst
          obtain ⟨original, horiginal, rfl⟩ := List.mem_map.mp hfirst
          rw [isHostType_foldInto] at htype
          rw [name_foldInto] at hnamed
          exact (sameOnHost_foldInto b original).trans
            (hkept original horiginal htype other hother hnamed)
      | false =>
          have hfresh : block.any (isTypeNamed b.name) = false := by
            rw [← hinvariant.knows_types, hknown]
          rw [step_of_fresh_type hb hknown] at hfirst
          rcases List.mem_append.mp hfirst with hbefore | hlast
          · exact hkept first hbefore htype other hother hnamed
          · -- the first type of a name has no other one before it
            rw [List.mem_singleton.mp hlast] at hnamed ⊢
            rcases List.mem_append.mp hother with hmem | hsame
            · exact absurd (List.any_eq_true.mpr ⟨other, hmem, hnamed⟩) (by simp [hfresh])
            · rw [List.mem_singleton.mp hsame]
              exact ⟨rfl, rfl⟩

theorem represents_foldl_step {block : List Binding}
    (h : ∀ first repeated, Drops block first repeated → SameOnHost first repeated) :
    Represents (block.foldl step {}).kept block := by
  induction block using List.reverseRecOn with
  | nil =>
      intro first hfirst
      cases hfirst
  | append_singleton block b ih =>
      rw [List.foldl_append]
      refine Represents.step (invariant_foldl_step block)
        (ih fun first repeated hdrops => h first repeated (hdrops.append [b])) ?_
      intro first hfirst htype hnamed
      exact h first b ⟨block, [], rfl, hfirst, htype, hnamed⟩

/-- All that a block drops is the same on the host as what it is dropped for, just if types of one
name are the same on the host throughout the block. -/
theorem dropsSameOnHost_iff {block : List Binding} :
    (∀ first repeated, Drops block first repeated → SameOnHost first repeated) ↔
      ∀ b ∈ block, ∀ b' ∈ block, b.isHostType = true → b'.isHostType = true →
        b.name = b'.name → SameOnHost b b' := by
  constructor
  · intro h b hb b' hb' htype htype' hname
    have hrepresents := represents_foldl_step h
    have hnamed : isTypeNamed b.name b = true := by simp [isTypeNamed, htype]
    have hknown : (block.foldl step {}).kept.any (isTypeNamed b.name) = true := by
      rw [(invariant_foldl_step block).knows_types]
      exact List.any_eq_true.mpr ⟨b, hb, hnamed⟩
    obtain ⟨first, hfirst, hfirstNamed⟩ := List.any_eq_true.mp hknown
    obtain ⟨hfirstType, hfirstName⟩ : first.isHostType = true ∧ first.name = b.name := by
      simpa [isTypeNamed] using hfirstNamed
    have hall := hrepresents first hfirst hfirstType
    exact (hall b hb (by simp [isTypeNamed, htype, hfirstName])).symm.trans
      (hall b' hb' (by simp [isTypeNamed, htype', hfirstName, hname]))
  · rintro h first repeated ⟨before, after, rfl, hfirst, htype, hnamed⟩
    obtain ⟨original, horiginal, hbecomes⟩ :=
      exists_of_mem_right (invariant_foldl_step before).becomes hfirst
    obtain ⟨hfirstType, hfirstName⟩ : first.isHostType = true ∧ first.name = repeated.name := by
      simpa [isTypeNamed] using hnamed
    have hmember := hbecomes.isMember_eq
    have horiginalType : original.isHostType = true := by
      simpa [isMember, hfirstType] using hmember.symm
    have hname : original.name = repeated.name := by
      rw [Becomes, if_pos horiginalType] at hbecomes
      rw [← hfirstName, hbecomes]
      rfl
    have hbefore : original ∈ before := (survivors_sublist [] before).subset horiginal
    exact (hbecomes.sameOnHost horiginalType).trans
      (h original (List.mem_append_left _ hbefore) repeated (by simp) horiginalType htype hname)

end Rust.Collision

namespace Composition

open Outcome Lowering Collision

/-- Whatever the blocks of a unit drop is the same on the host as what it is dropped for. -/
def FoldsOneTypeOnly (u : SourceUnit) : Prop :=
  ∀ block ∈ u.blocks, ∀ first repeated,
    Drops block.2 first repeated → SameOnHost first repeated

/-- A module declares a type of this name in these namespaces, and its binding has this place. -/
def TypeAt (options : Options) (m : Module) (path spaces : List Text) (name : Text) : Prop :=
  ∃ d, (path, ⟨spaces, d, none⟩) ∈ placedAll options m.visibleDeclarations ∧
    declaresType d = true ∧ d.name? = some name

/-- In each scope, different types have different Rust names. -/
def KeepsTypesApart (options : Options) (m : Module) : Prop :=
  ∀ path spaces spaces' name name', TypeAt options m path spaces name →
    TypeAt options m path spaces' name' →
    Identifier.rustName name = Identifier.rustName name' → name = name' ∧ spaces = spaces'

/-- The types that fold in a composed unit are openings of one host type, just if the module keeps
different types apart. -/
theorem foldsOneTypeOnly_iff (options : Options) (m : Module) (u : SourceUnit)
    (h : (compose options m).result = .ok u) :
    FoldsOneTypeOnly u ↔ KeepsTypesApart options m := by
  simp only [FoldsOneTypeOnly, dropsSameOnHost_iff]
  constructor
  · intro hsame path spaces spaces' name name' ⟨d, hd, htype, hname⟩ ⟨d', hd', htype', hname'⟩
      hrust
    obtain ⟨hplaced, hhost⟩ :=
      (typeBinding_mem_placed_iff h).mpr ⟨spaces, d, name, hd, htype, hname, rfl⟩
    obtain ⟨hplaced', hhost'⟩ :=
      (typeBinding_mem_placed_iff h).mpr ⟨spaces', d', name', hd', htype', hname', rfl⟩
    obtain ⟨block, hblock, _, hmem, hmem'⟩ := exists_block_of_placed h hplaced hplaced'
    obtain ⟨hnames, hspaces⟩ := hsame block hblock _ hmem _ hmem' hhost hhost'
      (by rw [name_typeBinding, name_typeBinding, hrust])
    rw [hostName_typeBinding, hostName_typeBinding] at hnames
    rw [namespacePath_typeBinding, namespacePath_typeBinding] at hspaces
    exact ⟨hnames, List.append_cancel_left hspaces⟩
  · intro hapart block hblock b hb b' hb' htype htype' hname
    have hplaced : ∀ {c}, c ∈ block.2 → (block.1, c) ∈ u.placed := fun hc =>
      List.mem_flatMap.mpr ⟨block, hblock, List.mem_map_of_mem hc⟩
    obtain ⟨spaces, d, name, hd, hdeclares, hdname, rfl⟩ :=
      (typeBinding_mem_placed_iff h).mp ⟨hplaced hb, htype⟩
    obtain ⟨spaces', d', name', hd', hdeclares', hdname', rfl⟩ :=
      (typeBinding_mem_placed_iff h).mp ⟨hplaced hb', htype'⟩
    rw [name_typeBinding, name_typeBinding] at hname
    obtain ⟨rfl, rfl⟩ := hapart block.1 spaces spaces' name name' ⟨d, hd, hdeclares, hdname⟩
      ⟨d', hd', hdeclares', hdname'⟩ hname
    refine ⟨?_, ?_⟩
    · rw [hostName_typeBinding, hostName_typeBinding]
    · rw [namespacePath_typeBinding, namespacePath_typeBinding]

/-- An interface that is merged with a class of its name, in a namespace that is opened twice. -/
def mergedModule : Module :=
  let space (d : Declaration) : Statement :=
    .declaration (.space ⟨"dom", .block [.declaration d] none, false, false, none⟩)
  { body := [space (.interface ⟨"XMLNode", [], [], [], none⟩),
      space (.classDeclaration ⟨some "XMLNode", [], [], none, [], false, none⟩)] }

theorem typeAt_mergedModule {path spaces : List Text} {name : Text}
    (h : TypeAt .standard mergedModule path spaces name) : name = "XMLNode" ∧ spaces = ["dom"] := by
  obtain ⟨d, hd, _, hname⟩ := h
  have hplaced : placedAll .standard mergedModule.visibleDeclarations =
      ([(["domMod"], ⟨["dom"], .interface ⟨"XMLNode", [], [], [], none⟩, none⟩),
        (["domMod"], ⟨["dom"],
          .classDeclaration ⟨some "XMLNode", [], [], none, [], false, none⟩, none⟩)] :
        List (List Text × Origin)) := rfl
  rw [hplaced, List.mem_cons, List.mem_singleton] at hd
  rcases hd with heq | heq
  · cases heq
    exact ⟨(Option.some.inj hname).symm, rfl⟩
  · cases heq
    exact ⟨(Option.some.inj hname).symm, rfl⟩

theorem mergedModule_foldsOneTypeOnly :
    ∃ u, (compose .standard mergedModule).result = .ok u ∧
      u.resolveCollisions.bindings.length = 1 ∧ FoldsOneTypeOnly u := by
  refine ⟨_, rfl, rfl, (foldsOneTypeOnly_iff .standard mergedModule _ rfl).mpr ?_⟩
  intro path spaces spaces' name name' h h' _
  obtain ⟨rfl, rfl⟩ := typeAt_mergedModule h
  obtain ⟨rfl, rfl⟩ := typeAt_mergedModule h'
  exact ⟨rfl, rfl⟩

/-- Two interfaces whose names differ in case. -/
def twoNodesModule : Module :=
  { body := [.declaration (.interface ⟨"XMLNode", [], [], [], none⟩),
      .declaration (.interface ⟨"XmlNode", [], [], [], none⟩)] }

/-- The second interface is dropped for the first one, and the host knows them by two names. -/
theorem twoNodesModule_folds_different_types :
    ∃ u, (compose .standard twoNodesModule).result = .ok u ∧ ¬ FoldsOneTypeOnly u := by
  refine ⟨_, rfl, ?_⟩
  intro hfolds
  obtain ⟨hname, _⟩ := hfolds _ (List.mem_singleton_self _) _ _
    ⟨[_], [], rfl, List.mem_singleton_self _, rfl, rfl⟩
  exact absurd hname (by decide)

end Composition

end HostBindings

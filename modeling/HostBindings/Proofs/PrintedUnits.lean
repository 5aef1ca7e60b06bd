import HostBindings.Proofs.ComposedUnits
import HostBindings.Proofs.LegalBindings
import HostBindings.Proofs.OrderedSets
import HostBindings.Proofs.PrintedTypes

/-!
Printed units. Every name that a compiled unit binds is a legal identifier, whatever the strings of
the source and however names collide; the unit has a written form, and that is printable ASCII with
line ends. Names reach the text from the sanitizer, from fixed words and from the options; host
names and namespaces reach it as escaped literals.
-/

namespace HostBindings

open Rust

namespace Rust

/-- The names that a binding writes: its own, those of its parameters, the type that it is static on
and the segments of its bases. -/
def boundNames (b : Binding) : List Text :=
  b.name :: b.shape.parameters.map (·.name) ++ b.attributes.staticOf.toList ++
    b.attributes.bases.flatten

mutual

/-- The names that stand in binding positions below an item: what the bindings write, the names of
scopes, and the names and aliases of uses. -/
def Item.boundNames : Item → List Text
  | .use u => u.name.toList ++ u.rename.toList
  | .block bindings => bindings.flatMap Rust.boundNames
  | .scope name items => name :: boundNamesOf items
  | .stray _ => []

def Item.boundNamesOf : List Item → List Text
  | [] => []
  | item :: rest => item.boundNames ++ boundNamesOf rest

end

def SourceUnit.boundNames (u : SourceUnit) : List Text := Item.boundNamesOf u.items

/-- A use that can be written and whose names are legal; only a glob has none. -/
structure Use.IsLegal (u : Use) : Prop where
  path : ∀ segment ∈ u.path, segment.isPrintable = true
  name : ∀ name ∈ u.name, Identifier.IsLegal name
  rename : ∀ name ∈ u.rename, Identifier.IsLegal name
  named : u.glob = false → u.name.isSome = true

/-- Items with legal names throughout. -/
abbrev Item.Legal : List Item → Prop :=
  Item.Throughout Identifier.IsLegal Use.IsLegal fun bindings => ∀ b ∈ bindings, b.IsLegal

theorem isLegal_of_mem_boundNames {b : Binding} (h : b.IsLegal) {name : Text}
    (hname : name ∈ boundNames b) : Identifier.IsLegal name := by
  simp only [boundNames, List.mem_append, List.mem_cons, List.mem_map, Option.mem_toList,
    List.mem_flatten] at hname
  rcases hname with ((rfl | ⟨p, hp, rfl⟩) | hstatic) | ⟨base, hbase, hsegment⟩
  · exact h.name
  · exact h.parameters p hp
  · exact h.staticOf name hstatic
  · exact h.bases base hbase name hsegment

theorem Item.Legal.of_mem_boundNamesOf {items : List Item} (h : Item.Legal items) {name : Text}
    (hname : name ∈ Item.boundNamesOf items) : Identifier.IsLegal name := by
  induction h with
  | nil => cases hname
  | use hu _ ih =>
      rcases List.mem_append.mp hname with hfirst | hrest
      · rcases List.mem_append.mp hfirst with hown | halias
        · exact hu.name name (by simpa using hown)
        · exact hu.rename name (by simpa using halias)
      · exact ih hrest
  | block hblock _ ih =>
      rcases List.mem_append.mp hname with hfirst | hrest
      · obtain ⟨b, hb, hmem⟩ := List.mem_flatMap.mp hfirst
        exact isLegal_of_mem_boundNames (hblock b hb) hmem
      · exact ih hrest
  | scope hscope _ _ ihinner ihrest =>
      rcases List.mem_append.mp hname with hfirst | hrest
      · rcases List.mem_cons.mp hfirst with rfl | hinner
        · exact hscope
        · exact ihinner hinner
      · exact ihrest hrest

end Rust

namespace Composition

open Source Outcome

variable {options : Options}

theorem isPrintable_of_mem_specifierPath {specifier segment : Text}
    (h : segment ∈ options.specifierPath specifier) : segment.isPrintable = true :=
  (Lowering.isSegment_of_mem_specifierPath h).isPrintable

theorem isLegal_useOf {path : List Text} {name : Text} {rename : Option Text} {isPublic : Bool}
    (hpath : ∀ segment ∈ path, segment.isPrintable = true) :
    (useOf path name rename isPublic).IsLegal := by
  refine ⟨hpath, ?_, ?_, fun _ => rfl⟩
  · rintro _ ⟨⟩
    exact Identifier.isLegal_rustName name
  · intro bound hbound
    obtain ⟨hrename, _⟩ := Option.mem_filter_iff.mp hbound
    obtain ⟨raw, _, rfl⟩ := Option.map_eq_some_iff.mp hrename
    exact Identifier.isLegal_rustName raw

theorem isLegal_default : Identifier.IsLegal "default" :=
  Identifier.isLegal_of_isSpelled rfl (by decide) (by decide)

theorem gives_drop {P : Use → Prop} (concern : Concern) (loc : Option Location) :
    (drop concern loc).Gives fun use => ∀ u ∈ use, P u :=
  gives_warn_bind (gives_pure nofun)

theorem gives_linkImport (source : Text) (s : ImportSpecifier) :
    (linkImport (options.specifierPath source) source s).Gives
      fun use => ∀ u ∈ use, Use.IsLegal u := by
  rw [linkImport]
  split
  · apply gives_pure
    rintro _ ⟨⟩
    exact isLegal_useOf fun _ => isPrintable_of_mem_specifierPath
  · apply gives_pure
    rintro _ ⟨⟩
    refine ⟨fun _ => isPrintable_of_mem_specifierPath, ?_, ?_, fun _ => rfl⟩
    · rintro _ ⟨⟩
      exact isLegal_default
    · rintro _ ⟨⟩
      exact Identifier.isLegal_rustName s.localName
  · exact gives_drop _ _

theorem isPrintable_self {segment : Text} (h : segment ∈ ([Text.ofString "self"] : List Text)) :
    segment.isPrintable = true := by
  rw [List.mem_singleton.mp h]
  rfl

theorem gives_linkExport (source : Option Text) (s : ExportSpecifier) :
    (linkExport options source s).Gives fun use => ∀ u ∈ use, Use.IsLegal u := by
  rw [linkExport.eq_def]
  split
  · exact gives_drop _ _
  · split
    · apply gives_pure
      intro use huse
      split at huse
      · cases huse
      · obtain rfl := Option.some.inj huse
        exact isLegal_useOf fun _ => isPrintable_self
    · apply gives_pure
      rintro _ ⟨⟩
      exact isLegal_useOf fun _ => isPrintable_of_mem_specifierPath

theorem isLegal_aliasUse {a : ImportAlias} {use : Use}
    (h : aliasUse? options a = .ok (some use)) : use.IsLegal := by
  rw [aliasUse?] at h
  split at h
  · cases h
  · rename_i specifier _
    dsimp only at h
    split at h
    · cases h
    · rename_i name hlast
      split at h
      · cases h
      · rename_i hsuper
        obtain rfl := Option.some.inj (Except.ok.inj h)
        have hmem := List.mem_of_getLast? hlast
        refine ⟨fun segment hsegment =>
          isPrintable_of_mem_specifierPath (List.dropLast_subset _ hsegment), ?_, ?_, fun _ => rfl⟩
        · rintro _ ⟨⟩
          -- the last segment does not leave a module, so it is the name of one
          rcases Lowering.mem_pathOf hmem with hname | ⟨raw, rfl⟩
          · exact absurd hname hsuper
          · exact Identifier.isLegal_rustName _
        · rintro _ ⟨⟩
          exact Identifier.isLegal_rustName a.name
  · split at h
    · cases h
    · obtain rfl := Option.some.inj (Except.ok.inj h)
      apply isLegal_useOf
      intro segment hsegment
      rcases List.mem_cons.mp hsegment with rfl | hscope
      · rfl
      · obtain ⟨raw, _, rfl⟩ := List.mem_map.mp hscope
        exact (Identifier.isLegal_rustName _).isPrintable

theorem gives_linkAlias (a : ImportAlias) :
    (linkAlias options a).Gives fun use => ∀ u ∈ use, Use.IsLegal u := by
  rw [linkAlias]
  split
  · exact gives_breakOff _
  · rename_i use huse
    apply gives_pure
    rintro _ ⟨⟩
    exact isLegal_aliasUse huse
  · exact gives_drop _ _

theorem gives_linkAll {α : Type} {P : Use → Prop} {f : α → Outcome (Option Use)}
    (hf : ∀ a, (f a).Gives fun use => ∀ u ∈ use, P u) (as : List α) :
    (linkAll f as).Gives fun uses => ∀ u ∈ uses, P u := by
  induction as with
  | nil => exact gives_pure (List.forall_mem_nil _)
  | cons a rest ih =>
      rw [linkAll]
      refine (hf a).bind fun head hhead => ih.bind fun tail htail => gives_pure ?_
      exact List.forall_mem_append.mpr ⟨by simpa using hhead, htail⟩

theorem gives_link (statement : Statement) :
    (link options statement).Gives fun uses => ∀ u ∈ uses, u.IsLegal := by
  rw [link.eq_def]
  split
  · exact gives_linkAll (gives_linkImport _) _
  · exact gives_linkAll (gives_linkExport _) _
  · apply gives_pure
    intro u hu
    rw [List.mem_singleton.mp hu]
    exact ⟨fun _ => isPrintable_of_mem_specifierPath, nofun, nofun, nofun⟩
  · apply gives_pure
    intro u hu
    rw [List.mem_singleton.mp hu]
    refine ⟨fun _ => isPrintable_self, ?_, ?_, fun _ => rfl⟩
    · rintro _ ⟨⟩
      exact Identifier.isLegal_rustName _
    · rintro _ ⟨⟩
      exact isLegal_default
  · exact gives_linkAll gives_linkAlias _
  · exact gives_pure (List.forall_mem_nil _)

theorem gives_uses_of_link {P : Use → Prop}
    (hlink : ∀ statement, (link options statement).Gives fun uses => ∀ u ∈ uses, P u)
    (body : List Statement) : (uses options body).Gives fun uses => ∀ u ∈ uses, P u := by
  induction body with
  | nil => exact gives_pure (List.forall_mem_nil _)
  | cons statement rest ih =>
      rw [uses]
      refine (hlink statement).bind fun head hhead => ih.bind fun tail htail => gives_pure ?_
      exact List.forall_mem_append.mpr ⟨hhead, htail⟩

theorem gives_uses (body : List Statement) :
    (uses options body).Gives fun uses => ∀ u ∈ uses, u.IsLegal :=
  gives_uses_of_link gives_link body

theorem composable_lawful {P Q : BindingType → Prop} (hstable : BindingType.Stable P Q)
    (options : Options) : Composable options fun bindings => ∀ b ∈ bindings, b.Lawful Q where
  lowered h := Lowering.gives_lower hstable [] _ _ h
  append hxs hys := List.forall_mem_append.mpr ⟨hxs, hys⟩
  enclose name _ h := List.forall_mem_map.mpr fun b hb => (h b hb).enclose name

/-- Composition makes units with legal names, if the path of the binding attribute is printable. -/
theorem legal_of_compose {m : Module} {u : SourceUnit}
    (hpath : ∀ segment ∈ options.bindgenPath, segment.isPrintable = true)
    (h : (compose options m).result = .ok u) : Item.Legal u.items := by
  obtain ⟨links, items, hlinks, hitems, rfl⟩ := compose_eq_ok_iff.mp h
  have hQ := composable_lawful BindingType.stable_isSpelled options
  have hcomposed : Item.Legal (encloseInScripts m items) := by
    apply (hQ.encloseInScripts m (hQ.composeDeclarations .nil hitems)).mono
    · rintro _ ⟨raw, rfl⟩
      exact Identifier.isLegal_rustName _
    · rintro _ rfl
      refine ⟨?_, ?_, ?_, ?_⟩
      · intro segment hsegment
        rw [List.mem_singleton.mp hsegment]
        rfl
      · rintro _ ⟨⟩
      · rintro _ ⟨⟩
      · rintro ⟨⟩
  refine ((Item.throughout_map_use (gives_uses m.body _ hlinks)).append ?_).append hcomposed
  rw [preludeItems]
  split
  · exact .nil
  · refine .use ⟨?_, ?_, ?_, fun _ => rfl⟩ .nil
    · intro segment hsegment
      rcases List.mem_append.mp hsegment with hgiven | hprelude
      · exact hpath segment hgiven
      · rw [List.mem_singleton.mp hprelude]
        rfl
    · rintro _ ⟨⟩
      exact Identifier.isLegal_of_isSpelled rfl (by decide) (by decide)
    · rintro _ ⟨⟩

end Composition

theorem Text.ofString_mem_map {s : String} {names : List String} :
    ofString s ∈ names.map ofString ↔ s ∈ names :=
  List.mem_map_of_injective fun _ _ => ofString_inj.mp

set_option maxRecDepth 8000 in
theorem Catalog.crateOf?_eq_none {word : String} (h : word = "super" ∨ word = "Self") :
    crateOf? word = none := by
  have hbrowser : Text.ofString word ∉ browserTypes := by
    rw [browserTypes, Text.ofString_mem_map]
    rcases h with rfl | rfl <;>
      simp [browserTypesAB, browserTypesC, browserTypesDF, browserTypesGH, browserTypesIL,
        browserTypesMO, browserTypesPQ, browserTypesR, browserTypesS, browserTypesTV,
        browserTypesWZ]
  have hlanguage : Text.ofString word ∉ languageTypes := by
    rw [languageTypes, Text.ofString_mem_map]
    rcases h with rfl | rfl <;> simp
  simp [crateOf?, hbrowser, hlanguage]

namespace Rust

section

variable {P Q : BindingType → Prop} (hstable : BindingType.Stable P Q)

include hstable

theorem Collision.lawful_prepared {b : Binding} (h : b.Lawful Q) :
    (Collision.prepared b).Lawful Q := by
  rw [prepared]
  split
  · rw [resolveSelf]
    split
    · rename_i owner howner
      exact h.mapTypes fun _ _ hty => hstable.resolveSlot hty (h.owner owner howner)
    · exact h
  · exact h

theorem Collision.Becomes.lawful {block : List Binding} {before after : Binding}
    (h : Collision.Becomes block before after) (hblock : ∀ b ∈ block, b.Lawful Q)
    (hbefore : before.Lawful Q) : after.Lawful Q := by
  rw [Becomes] at h
  split at h
  · rw [h]
    refine ⟨hbefore.name, hbefore.parameters, hbefore.types, hbefore.owner, hbefore.staticOf, ?_⟩
    intro base hbase
    rcases mem_extendedBases.mp hbase with hown | hmore
    · exact hbefore.bases base hown
    · obtain ⟨b, hb, hmem⟩ := List.mem_flatMap.mp hmore
      exact (hblock b (List.mem_of_mem_filter (List.mem_of_mem_tail hb))).bases base hmem
  · have hprepared := lawful_prepared hstable hbefore
    rcases h with rfl | ⟨k, rfl⟩
    · exact hprepared
    · exact ⟨isLegal_numbered hbefore.name k, hprepared.parameters, hprepared.types,
        hprepared.owner, hprepared.staticOf, hprepared.bases⟩

theorem Collision.lawful_of_mem_resolve {block : List Binding} (h : ∀ b ∈ block, b.Lawful Q) :
    ∀ b ∈ resolve block, b.Lawful Q := by
  intro after hafter
  obtain ⟨before, hbefore, hbecomes⟩ :=
    exists_of_mem_right (invariant_foldl_step block).becomes hafter
  exact hbecomes.lawful hstable h (h before ((survivors_sublist [] block).subset hbefore))

theorem lawful_of_mem_finishBlock {Q' : BindingType → Prop} {custom : List (List Text)}
    (hlegalize : ∀ isResult ty, Q ty → Q' (Boundary.legalizeType custom isResult ty))
    {block : List Binding} (h : ∀ b ∈ block, b.Lawful Q) :
    ∀ b ∈ finishBlock custom block, b.Lawful Q' :=
  List.forall_mem_map.mpr fun b hb =>
    (Collision.lawful_of_mem_resolve hstable h b hb).mapTypes hlegalize

end

theorem Boundary.isSpelled_legalizeType (custom : List (List Text)) (isResult : Bool)
    {ty : BindingType} (h : ty.IsSpelled) : (legalizeType custom isResult ty).IsSpelled := by
  rcases legalizeType_eq_or custom isResult ty with hkept | hreplaced
  · rwa [hkept]
  · rw [hreplaced]
    exact .dynamic

theorem SourceUnit.legal_legalize {N : Text → Prop} {P : Use → Prop} {u : SourceUnit}
    (h : Item.Throughout N P (fun bindings => ∀ b ∈ bindings, b.IsLegal) u.items) :
    Item.Throughout N P (fun bindings => ∀ b ∈ bindings, b.IsLegal)
      u.resolveCollisions.legalize.items := by
  rw [legalize, legalizeWith, mapBlocks, resolveCollisions, mapBlocks, Item.mapBlocksOf_mapBlocksOf]
  apply h.mapBlocksOf
  intro bindings hbindings
  exact lawful_of_mem_finishBlock BindingType.stable_isSpelled
    (fun isResult _ => Boundary.isSpelled_legalizeType _ isResult) hbindings

theorem SourceUnit.isSegment_of_mem_referencedNames {u : SourceUnit} (h : Item.Legal u.items)
    {name : Text} (hname : name ∈ u.referencedNames) : Identifier.IsSegment name := by
  obtain ⟨b, hb, hin⟩ := List.mem_flatMap.mp (Ordered.mem_ofList.mp hname)
  obtain ⟨block, hblock, hmem⟩ := List.mem_flatMap.mp hb
  have hlegal : b.IsLegal := h.of_mem_blocksOf hblock b hmem
  rcases List.mem_append.mp hin with htype | hbase
  · obtain ⟨node, hnode, hsimple⟩ := List.mem_filterMap.mp htype
    obtain ⟨ty, hty, hwalk⟩ := List.mem_flatMap.mp hnode
    rw [BindingType.simpleName?.eq_def] at hsimple
    split at hsimple
    · obtain rfl := Option.some.inj hsimple
      exact (hlegal.types ty hty).of_mem_walk hwalk
    · cases hsimple
  · obtain ⟨base, hmember, hsingle⟩ := List.mem_filterMap.mp hbase
    split at hsingle
    · obtain rfl := Option.some.inj hsingle
      exact Or.inl (hlegal.bases _ hmember _ List.mem_cons_self)
    · cases hsingle

theorem isLegal_of_crateOf? {name : Text} {crate : HostCrate}
    (h : Identifier.IsSegment name) (hcrate : Catalog.crateOf? name = some crate) :
    Identifier.IsLegal name := by
  rcases h with hlegal | hsuper | hself
  · exact hlegal
  · rw [hsuper, Catalog.crateOf?_eq_none (Or.inl rfl)] at hcrate
    cases hcrate
  · rw [hself, Catalog.crateOf?_eq_none (Or.inr rfl)] at hcrate
    cases hcrate

theorem SourceUnit.isLegal_of_mem_hostUses {options : Options} {u : SourceUnit}
    (hcrates : ∀ crate, (options.crateName crate).isPrintable = true) (h : Item.Legal u.items)
    {use : Use} (huse : use ∈ u.hostUses options) : use.IsLegal := by
  obtain ⟨host, name, rfl, hreferenced, _, hhost⟩ := mem_hostUses_iff.mp huse
  have hsegment := isSegment_of_mem_referencedNames h hreferenced
  refine ⟨?_, ?_, ?_, fun _ => rfl⟩
  · intro segment hmem
    rcases List.mem_pair.mp hmem with rfl | rfl
    · rfl
    · exact hcrates host
  · rintro _ ⟨⟩
    exact isLegal_of_crateOf? hsegment hhost
  · rintro _ ⟨⟩

theorem legal_finish {options : Options} {u : SourceUnit}
    (hcrates : ∀ crate, (options.crateName crate).isPrintable = true) (h : Item.Legal u.items) :
    Item.Legal (finish options u).items := by
  have hlegalized := SourceUnit.legal_legalize h
  rw [finish]
  split
  · exact (Item.throughout_map_use fun _ =>
      SourceUnit.isLegal_of_mem_hostUses hcrates hlegalized).append hlegalized
  · exact hlegalized

/-- There is a text and it is printable. -/
def Written (text : Option Text) : Prop := ∃ t, text = some t ∧ t.isPrintable = true

/-- There are texts and all of them are printable. -/
def AllWritten (texts : Option (List Text)) : Prop :=
  ∃ ts, texts = some ts ∧ ∀ t ∈ ts, t.isPrintable = true

theorem allWritten_mapM {α : Type} {f : α → Option Text} {as : List α}
    (h : ∀ a ∈ as, Written (f a)) : AllWritten (as.mapM f) := by
  induction as with
  | nil => exact ⟨[], rfl, List.forall_mem_nil _⟩
  | cons a rest ih =>
      obtain ⟨ha, hrest⟩ := List.forall_mem_cons.mp h
      obtain ⟨head, hhead, hprintable⟩ := ha
      obtain ⟨tail, htail, hall⟩ := ih hrest
      refine ⟨head :: tail, ?_, List.forall_mem_cons.mpr ⟨hprintable, hall⟩⟩
      rw [List.mapM_cons, hhead, htail]
      rfl

theorem allWritten_renderTypes {tys : List BindingType} (h : ∀ ty ∈ tys, Written (renderType ty)) :
    AllWritten (renderTypes tys) := by
  rw [renderTypes_eq_mapM]
  exact allWritten_mapM h

theorem written_renderResult {result : Option BindingType}
    (h : ∀ ty ∈ result, Written (renderType ty)) : Written (renderResult result) := by
  cases result with
  | none => exact ⟨[], rfl, rfl⟩
  | some ty =>
      obtain ⟨text, htext, hprintable⟩ := h ty rfl
      refine ⟨" -> " ++ text, by rw [renderResult, htext]; rfl, ?_⟩
      rw [Text.isPrintable_append, hprintable]
      rfl

theorem isPrintable_primitivePath {name : Text} (h : name.isPrintable = true) :
    (primitivePath name).isPrintable = true := by
  rw [primitivePath]
  split
  · rfl
  · split
    · rfl
    · rw [Text.isPrintable_append, h]
      rfl

theorem written_renderType {ty : BindingType} (h : ty.IsSpelled) : Written (renderType ty) := by
  induction h with
  | primitive h => exact ⟨_, rfl, isPrintable_primitivePath h⟩
  | dynamic => exact ⟨_, rfl, rfl⟩
  | named h =>
      exact ⟨_, rfl, Text.isPrintable_join rfl fun segment hs => (h segment hs).isPrintable⟩
  | reference _ ih =>
      obtain ⟨text, htext, hprintable⟩ := ih
      refine ⟨"&" ++ text, by rw [renderType, htext]; rfl, ?_⟩
      rw [Text.isPrintable_append, hprintable]
      rfl
  | option _ ih =>
      obtain ⟨text, htext, hprintable⟩ := ih
      refine ⟨"::std::option::Option<" ++ text ++ ">", by rw [renderType, htext]; rfl, ?_⟩
      rw [Text.isPrintable_append, Text.isPrintable_append, hprintable]
      rfl
  | boxedSlice _ ih =>
      obtain ⟨text, htext, hprintable⟩ := ih
      refine ⟨"::std::boxed::Box<[" ++ text ++ "]>", by rw [renderType, htext]; rfl, ?_⟩
      rw [Text.isPrintable_append, Text.isPrintable_append, hprintable]
      rfl
  | tuple _ ih =>
      obtain ⟨parts, hparts, hprintable⟩ := allWritten_renderTypes ih
      match parts with
      | [part] =>
          refine ⟨"(" ++ part ++ ",)", by rw [renderType, hparts]; rfl, ?_⟩
          rw [Text.isPrintable_append, Text.isPrintable_append, hprintable part List.mem_cons_self]
          rfl
      | [] => exact ⟨_, by rw [renderType, hparts]; rfl, rfl⟩
      | first :: second :: rest =>
          refine ⟨_, by rw [renderType, hparts]; rfl, ?_⟩
          rw [Text.isPrintable_append, Text.isPrintable_append,
            Text.isPrintable_join rfl hprintable]
          rfl
  | callable _ _ ihparams ihresult =>
      obtain ⟨params, hparams, hprintable⟩ := allWritten_renderTypes ihparams
      obtain ⟨result, hresult, hprinted⟩ := written_renderResult ihresult
      refine ⟨_, by rw [renderType, hparams, hresult]; rfl, ?_⟩
      rw [Text.isPrintable_append, Text.isPrintable_append, Text.isPrintable_append,
        Text.isPrintable_join rfl hprintable, hprinted]
      rfl

theorem written_renderUse {u : Use} (h : u.IsLegal) : Written (renderUse u) := by
  have hvisibility : Text.isPrintable (if u.isPublic then "pub " else []) = true := by
    split <;> rfl
  rw [renderUse]
  dsimp only
  split
  · refine ⟨_, rfl, ?_⟩
    have hpath : (Text.join "::" (u.path ++ [("*" : Text)])).isPrintable = true := by
      refine Text.isPrintable_join rfl (List.forall_mem_append.mpr ⟨h.path, ?_⟩)
      intro part hpart
      rw [List.mem_singleton.mp hpart]
      rfl
    simp only [Text.isPrintable_append, hvisibility, hpath]
    rfl
  · rename_i hglob
    obtain ⟨name, hname⟩ := Option.isSome_iff_exists.mp (h.named (Bool.eq_false_iff.mpr hglob))
    rw [hname]
    refine ⟨_, rfl, ?_⟩
    have hpath : (Text.join "::" (u.path ++ [name])).isPrintable = true := by
      refine Text.isPrintable_join rfl (List.forall_mem_append.mpr ⟨h.path, ?_⟩)
      intro part hpart
      rw [List.mem_singleton.mp hpart]
      exact (h.name name hname).isPrintable
    cases hrename : u.rename with
    | none =>
        simp only [Text.isPrintable_append, hvisibility, hpath]
        rfl
    | some bound =>
        have hbound := (h.rename bound hrename).isPrintable
        simp only [Text.isPrintable_append, hvisibility, hpath, hbound]
        rfl

theorem isPrintable_unitEscape (n : Nat) : (Text.Quoted.unitEscape n).isPrintable = true := by
  have hdigit : ∀ k, (Text.Quoted.hexDigit k).isPrintable = true := by
    have hbelow : ∀ k < 16, (CodePoint.ofChar (Nat.digitChar k)).isPrintable = true := by decide
    exact fun k => hbelow (k % 16) (Nat.mod_lt k (by decide))
  simp only [Text.Quoted.unitEscape, Text.Quoted.hex4, Text.isPrintable, List.all_cons, hdigit,
    List.all_nil]
  rfl

theorem isPrintable_escape (c : CodePoint) : (Text.Quoted.escape c).isPrintable = true := by
  rw [Text.Quoted.escape]
  split
  · rfl
  · split
    · rfl
    · split
      · rename_i hvisible
        simpa [Text.isPrintable, CodePoint.isPrintable] using hvisible
      · split
        · rename_i letter hletter
          simp only [Text.Quoted.controlLetter?] at hletter
          repeat' split at hletter
          all_goals cases hletter
          all_goals rfl
        · simp only [Text.isPrintable, List.all_flatMap, List.all_eq_true]
          intro n _
          exact List.all_eq_true.mp (isPrintable_unitEscape n)

theorem isPrintable_literal (t : Text) : (Text.Quoted.literal t).isPrintable = true := by
  have hbody : Text.isPrintable (t.flatMap Text.Quoted.escape) = true := by
    simp only [Text.isPrintable, List.all_flatMap, List.all_eq_true]
    intro c _
    exact List.all_eq_true.mp (isPrintable_escape c)
  rw [Text.Quoted.literal, Text.isPrintable_append, Text.isPrintable_append, hbody]
  rfl

theorem isPrintable_renderNamespace (path : List Text) :
    (renderNamespace path).isPrintable = true := by
  rw [renderNamespace.eq_def]
  split
  · split
    · rename_i name hplain
      rw [isPlainName.eq_def] at hplain
      split at hplain
      · cases hplain
      · exact Identifier.isPrintable_of_isWord (Bool.and_eq_true_iff.mp hplain).1
    · rw [Text.isPrintable_append, Text.isPrintable_append, isPrintable_literal]
      rfl
  · have hparts : (Text.join ", " (path.map Text.Quoted.literal)).isPrintable = true :=
      Text.isPrintable_join rfl (List.forall_mem_map.mpr fun name _ => isPrintable_literal name)
    rw [Text.isPrintable_append, Text.isPrintable_append, hparts]
    rfl

theorem isPrintable_of_mem_flag {set : Bool} {argument part : Text}
    (h : argument.isPrintable = true) (hpart : part ∈ flag set argument) :
    part.isPrintable = true := by
  rw [flag] at hpart
  split at hpart
  · rwa [List.mem_singleton.mp hpart]
  · cases hpart

theorem isPrintable_of_mem_setting {key part : Text} {value : Option Text}
    (hkey : key.isPrintable = true) (h : ∀ v ∈ value, v.isPrintable = true)
    (hpart : part ∈ setting key value) : part.isPrintable = true := by
  simp only [setting, Option.mem_toList, Option.map_eq_some_iff] at hpart
  obtain ⟨v, hv, rfl⟩ := hpart
  rw [Text.isPrintable_append, hkey, h v hv]
  rfl

theorem isPrintable_of_mem_attributeArguments {b : Binding} (h : b.IsLegal) {part : Text}
    (hpart : part ∈ attributeArguments b.attributes) : part.isPrintable = true := by
  simp only [attributeArguments, List.mem_append] at hpart
  rcases hpart with ((((((h1 | h2) | h3) | h4) | h5) | h6) | h7) | h8
  · exact isPrintable_of_mem_flag rfl h1
  · exact isPrintable_of_mem_setting rfl (fun v hv => (h.staticOf v hv).isPrintable) h2
  · exact isPrintable_of_mem_flag rfl h3
  · exact isPrintable_of_mem_flag rfl h4
  · exact isPrintable_of_mem_flag rfl h5
  · obtain ⟨base, hbase, rfl⟩ := List.mem_map.mp h6
    rw [Text.isPrintable_append,
      Text.isPrintable_join rfl fun s hs => (h.bases base hbase s hs).isPrintable]
    rfl
  · refine isPrintable_of_mem_setting rfl ?_ h7
    intro v hv
    obtain ⟨raw, _, rfl⟩ := Option.map_eq_some_iff.mp hv
    exact isPrintable_literal raw
  · refine isPrintable_of_mem_flag ?_ h8
    rw [Text.isPrintable_append, isPrintable_renderNamespace]
    rfl

theorem isPrintable_renderAttributes {b : Binding} (h : b.IsLegal) :
    (renderAttributes b.attributes).isPrintable = true := by
  have harguments := fun part => @isPrintable_of_mem_attributeArguments b h part
  rw [renderAttributes]
  split
  · rfl
  · rw [Text.isPrintable_append, Text.isPrintable_append, Text.isPrintable_join rfl harguments]
    rfl

theorem written_renderParameter {p : Parameter} (hname : Identifier.IsLegal p.name)
    (htype : p.type.IsSpelled) : Written (renderParameter p) := by
  obtain ⟨type, htext, hprintable⟩ := written_renderType htype
  refine ⟨_, by rw [renderParameter, htext]; rfl, ?_⟩
  rw [Text.isPrintable_append, Text.isPrintable_append, hname.isPrintable, hprintable]
  rfl

theorem written_renderDeclaration {b : Binding} (h : b.IsLegal) :
    Written (renderDeclaration b) := by
  obtain ⟨name, shape, attributes, loc⟩ := b
  have hname : name.isPrintable = true := h.name.isPrintable
  cases shape with
  | hostType =>
      refine ⟨_, rfl, ?_⟩
      rw [Text.isPrintable_append, Text.isPrintable_append, hname]
      rfl
  | static type =>
      obtain ⟨text, htext, hprintable⟩ := written_renderType (h.types type List.mem_cons_self)
      refine ⟨_, by simp only [renderDeclaration, htext]; rfl, ?_⟩
      simp only [Text.isPrintable_append, hname, hprintable]
      rfl
  | function params result =>
      have hparams : AllWritten (params.mapM renderParameter) := by
        apply allWritten_mapM
        intro p hp
        exact written_renderParameter (h.parameters p hp)
          (h.types p.type (List.mem_append_left _ (List.mem_map_of_mem hp)))
      have hresult : Written (renderResult result) := by
        apply written_renderResult
        intro ty hty
        exact written_renderType
          (h.types ty (List.mem_append_right _ (Option.mem_toList.mpr hty)))
      obtain ⟨parts, hparts, hall⟩ := hparams
      obtain ⟨text, htext, hprintable⟩ := hresult
      refine ⟨_, by simp only [renderDeclaration, hparts, htext]; rfl, ?_⟩
      have hjoined : (Text.join ", " parts).isPrintable = true := Text.isPrintable_join rfl hall
      simp only [Text.isPrintable_append, hname, hprintable, hjoined]
      rfl

theorem allWritten_renderBinding {b : Binding} (h : b.IsLegal) :
    AllWritten (renderBinding b) := by
  obtain ⟨text, htext, hprintable⟩ := written_renderDeclaration h
  have hattributes := isPrintable_renderAttributes h
  rw [renderBinding, htext]
  dsimp only [Option.bind_eq_bind, Option.bind_some]
  split
  · exact ⟨_, rfl, List.forall_mem_singleton.mpr hprintable⟩
  · refine ⟨_, rfl, List.forall_mem_cons.mpr ⟨hattributes, ?_⟩⟩
    exact List.forall_mem_singleton.mpr hprintable

theorem isPrintable_of_mem_braced {marker opening line : Text} {lines : List Text}
    (hmarker : marker.isPrintable = true) (hopening : opening.isPrintable = true)
    (hlines : ∀ line ∈ lines, line.isPrintable = true)
    (h : line ∈ braced marker opening lines) : line.isPrintable = true := by
  simp only [braced, List.mem_append, List.mem_cons, List.not_mem_nil, or_false,
    List.mem_map] at h
  rcases h with ((rfl | rfl) | ⟨inner, hinner, rfl⟩) | rfl
  · exact hmarker
  · rw [Text.isPrintable_append, hopening]
    rfl
  · rw [indent]
    split
    · exact hlines inner hinner
    · rw [Text.isPrintable_append, hlines inner hinner]
      rfl
  · rfl

theorem allWritten_renderBlock {bindings : List Binding} (h : ∀ b ∈ bindings, b.IsLegal) :
    AllWritten (renderItem (.block bindings)) := by
  have hlines : ∃ lines, bindings.mapM renderBinding = some lines ∧
      ∀ line ∈ lines.flatten, line.isPrintable = true := by
    induction bindings with
    | nil => exact ⟨[], rfl, List.forall_mem_nil _⟩
    | cons b rest ih =>
        obtain ⟨hb, hrest⟩ := List.forall_mem_cons.mp h
        obtain ⟨head, hhead, hprintable⟩ := allWritten_renderBinding hb
        obtain ⟨tail, htail, hall⟩ := ih hrest
        refine ⟨head :: tail, by rw [List.mapM_cons, hhead, htail]; rfl, ?_⟩
        exact List.forall_mem_append.mpr ⟨hprintable, hall⟩
  obtain ⟨lines, hlines, hprintable⟩ := hlines
  refine ⟨_, by rw [renderItem, hlines]; rfl, ?_⟩
  intro line hline
  exact isPrintable_of_mem_braced rfl rfl hprintable hline

theorem isPrintable_of_mem_gapBefore {afterUse : Option Bool} {isUse : Bool} {line : Text}
    (h : line ∈ gapBefore afterUse isUse) : line.isPrintable = true := by
  have hempty : line = [] := by
    rw [gapBefore.eq_def] at h
    split at h
    · cases h
    · split at h
      · cases h
      · exact List.mem_singleton.mp h
  rw [hempty]
  rfl

theorem renderItems_cons (afterUse : Option Bool) (item : Item) (rest : List Item) :
    ∃ isUse, renderItems afterUse (item :: rest) = do
      let head ← renderItem item
      let tail ← renderItems (some isUse) rest
      return gapBefore afterUse isUse ++ head ++ tail := by
  cases item with
  | use u => exact ⟨true, by rw [renderItems]⟩
  | block | scope | stray => exact ⟨false, by rw [renderItems]; nofun⟩

theorem allWritten_renderItems_cons {item : Item} {rest : List Item} {afterUse : Option Bool}
    (hitem : AllWritten (renderItem item))
    (hrest : ∀ afterUse, AllWritten (renderItems afterUse rest)) :
    AllWritten (renderItems afterUse (item :: rest)) := by
  obtain ⟨isUse, hcons⟩ := renderItems_cons afterUse item rest
  obtain ⟨head, hhead, hfirst⟩ := hitem
  obtain ⟨tail, htail, hlast⟩ := hrest (some isUse)
  refine ⟨_, by rw [hcons, hhead, htail]; rfl, ?_⟩
  exact List.forall_mem_append.mpr ⟨List.forall_mem_append.mpr
    ⟨fun _ => isPrintable_of_mem_gapBefore, hfirst⟩, hlast⟩

theorem Item.Legal.allWritten_renderItems {items : List Item} (h : Item.Legal items)
    (afterUse : Option Bool) : AllWritten (renderItems afterUse items) := by
  induction h generalizing afterUse with
  | nil => exact ⟨[], rfl, List.forall_mem_nil _⟩
  | use hu _ ih =>
      apply allWritten_renderItems_cons _ ih
      obtain ⟨text, htext, hprintable⟩ := written_renderUse hu
      exact ⟨[text], by rw [renderItem, htext]; rfl, List.forall_mem_singleton.mpr hprintable⟩
  | block hblock _ ih => exact allWritten_renderItems_cons (allWritten_renderBlock hblock) ih
  | scope hname _ _ ihinner ihrest =>
      apply allWritten_renderItems_cons _ ihrest
      obtain ⟨lines, hlines, hprintable⟩ := ihinner none
      refine ⟨_, by rw [renderItem, hlines]; rfl, ?_⟩
      intro line hline
      refine isPrintable_of_mem_braced rfl ?_ hprintable hline
      rw [Text.isPrintable_append, hname.isPrintable]
      rfl

theorem Item.Legal.render_eq_ok {u : SourceUnit} (h : Item.Legal u.items) :
    ∃ text, render u = .ok text ∧ ∀ c ∈ text, c.isPrintable = true ∨ c = '\n' := by
  obtain ⟨lines, hlines, hprintable⟩ := h.allWritten_renderItems none
  refine ⟨_, by rw [render, hlines], ?_⟩
  intro c hc
  obtain ⟨line, hline, hmem⟩ := List.mem_flatMap.mp hc
  rcases List.mem_append.mp hmem with hinner | hend
  · exact Or.inl (List.all_eq_true.mp (hprintable line hline) c hinner)
  · exact Or.inr (List.mem_singleton.mp hend)

end Rust

/-- Whatever texts a module holds, every name that its compiled unit binds is a legal identifier,
and the unit is printed in ASCII. The options bring no other characters in, if the path of the
binding attribute and the names of the host crates are printable. -/
theorem compileModule_printable (options : Options) (m : Source.Module) (u : SourceUnit)
    (hpath : ∀ segment ∈ options.bindgenPath, segment.isPrintable = true)
    (hcrates : ∀ crate, (options.crateName crate).isPrintable = true)
    (h : (compileModule options m).result = .ok u) :
    (∀ name ∈ u.boundNames, Identifier.IsLegal name) ∧
      ∃ text, render u = .ok text ∧ ∀ c ∈ text, c.isPrintable = true ∨ c = '\n' := by
  obtain ⟨composed, hcomposed, rfl⟩ := (compileModule_eq_ok_iff options m u).mp h
  have hlegal := legal_finish hcrates (Composition.legal_of_compose hpath hcomposed)
  exact ⟨fun name => hlegal.of_mem_boundNamesOf, hlegal.render_eq_ok⟩

/-- An interface with the name of the receiver's type in a namespace whose name is half of a
surrogate pair. One method has a keyword for its name, twice, and one a line end; their parameters
have an empty name and a lone underscore. -/
def strangeModule : Source.Module :=
  let method (name param : Text) : Source.Member :=
    .methodSignature ⟨.string, name, none⟩
      ⟨[⟨.name param none, none, false, false, none⟩], none, []⟩ false none
  { body := [
      .declaration (.space ⟨[⟨0xD800, by decide⟩], .block [
        .declaration (.interface ⟨"Self",
          [method "type" [], method "type" "_", method "\n" "ß"], [], [], none⟩)] none,
        false, false, none⟩)] }

theorem strangeModule_printable :
    ∃ u, (compileModule .standard strangeModule).result = .ok u ∧
      u.boundNames =
        ([ "wasm_bindgen", "_Mod", "Self_rs", "r#type", "this", "__", "type_1", "this", "__", "__",
          "this", "__"] : List Text) ∧
      (∀ name ∈ u.boundNames, Identifier.IsLegal name) ∧
      ∃ text, render u = .ok text ∧ ∀ c ∈ text, c.isPrintable = true ∨ c = '\n' :=
  ⟨_, rfl, rfl, compileModule_printable .standard strangeModule _ (by decide)
    (fun crate => by cases crate <;> rfl) rfl⟩

end HostBindings

import HostBindings.Proofs.RunPhases

/-!
Parent modules over runs into one destination. What earlier runs left there is any tree of files;
after the last run, a directory with modules that have files lists just these, at files that are
there. A directory without such a module keeps the list that it had.
-/

namespace HostBindings.ModuleTree

variable {m : ModuleTree}

/-- What a run leaves in the list of a directory with modules `names`, between the files after its
compilation and the last files. Units left the texts `own`. -/
structure ListsModules (m : ModuleTree) (base r : Place) (names : List Text)
    (own : Place → Option Text) (built last : FileTree) : Prop where
  /-- Without a module that has a file, whatever list there was stays. -/
  kept : listing last base r m names = [] →
    last.node? (base ++ ownPlace r) = built.node? (base ++ ownPlace r) ∧
      (r ≠ [] → last.node? (base ++ besidePlace r) = built.node? (base ++ besidePlace r))
  /-- A list in the directory's own file is all of it; one in the file beside it comes after what
  the file held. -/
  written : listing last base r m names ≠ [] →
    last.node? (base ++ listPlace last base r) = some (.file (beforeList built base r ++
      Text.Utf8.encode (Entry.listText (listing last base r m names))))
  /-- No entry points to a file that is not there. -/
  target : ∀ e ∈ listing last base r m names,
    last.hasFile (e.target (base ++ listPlace last base r)) = true
  /-- No module is declared twice, if the modules have different names. -/
  distinct : (∀ a ∈ names, ∀ b ∈ names, m.options.scopeName a = m.options.scopeName b → a = b) →
    ((listing last base r m names).map Entry.name).Nodup
  /-- The list is what one reads in its file, if a file beside the directory comes from this run. -/
  read : listing last base r m names ≠ [] →
    (isBeside last base r = true → ∃ rust, own (base ++ besidePlace r) = some rust) →
    (∀ part ∈ r.getLastD [] :: names, part.all Entry.isPlain = true) →
      Entry.ofFile last own (base ++ listPlace last base r) = some (listing last base r m names)

section

variable {base r : Place} {rs : List Place} {built last : Session}

theorem isBeside_last (h : ParentsListed m base rs built last)
    (hr : r.getLastD [] ≠ Text.ofString "mod") :
    isBeside last.files base r = isBeside built.files base r := by
  have hfile := h.lists.hasFile (base ++ besidePlace r) fun other _ heq =>
    hr (besidePlace_eq_ownPlace_iff.mp (List.append_cancel_left heq)).2
  rw [isBeside, isBeside, hfile]

theorem Turn.listing_eq (h : ParentsListed m base rs built last)
    (hr : r.getLastD [] ≠ Text.ofString "mod") {names : List Text}
    (hnames : ∀ name ∈ names, Path.isPart name = true ∧ name ≠ Text.ofString "mod")
    {t t' : FileTree} (hturn : Turn m rs names base r built.files t t' last.files) :
    listing t base r m names = listing last.files base r m names := by
  refine listing_congr (hturn.isBeside_eq.trans (isBeside_last h hr).symm) fun name hname => ?_
  obtain ⟨hpart, hmod⟩ := hnames name hname
  have hunit := h.lists.hasFile (base ++ (r ++ [name ++ moduleEnding])) fun other _ heq => by
    have hname := (List.append_inj' (List.append_cancel_left heq) rfl).2
    rw [parentName_eq, List.singleton_inj] at hname
    exact hmod (List.append_cancel_right hname)
  have hparent := hturn.parent_file name
  rw [modulePlace?, modulePlace?, hturn.unit_file, hunit, List.filter_cons, if_pos hpart,
    List.filter_nil]
  simp only [List.singleton_append, hparent]

theorem Turn.list_node (h : ParentsListed m base rs built last)
    (hr : r.getLastD [] ≠ Text.ofString "mod") {names : List Text}
    {t t' : FileTree} (hturn : Turn m rs names base r built.files t t' last.files) :
    last.files.node? (base ++ listPlace last.files base r) =
      t'.node? (base ++ listPlace t base r) := by
  rw [listPlace, listPlace, isBeside_last h hr, hturn.isBeside_eq]
  split
  · rename_i hbeside
    exact hturn.beside_stays (isBeside_iff.mp hbeside).1 hr
  · exact hturn.own_stays

theorem Turn.beforeList_eq {names : List Text} {t t' : FileTree}
    (hturn : Turn m rs names base r built.files t t' last.files) :
    beforeList t base r = beforeList built.files base r := by
  rw [beforeList, beforeList, hturn.isBeside_eq]
  split
  · rename_i hbeside
    rw [FileTree.bytesAt, hturn.beside_node (isBeside_iff.mp hbeside).1]
    rfl
  · rfl

/-- A directory without a module that has a file is left as it was. -/
theorem node?_of_listing_eq_nil (h : ParentsListed m base rs built last)
    (hr : r.getLastD [] ≠ Text.ofString "mod") (hmod : r ++ [Text.ofString "mod"] ∉ rs)
    (hnames : ∀ name ∈ built.children.namesIn (m.dest.below r),
      Path.isPart name = true ∧ name ≠ Text.ofString "mod")
    (hnil : listing last.files base r m (built.children.namesIn (m.dest.below r)) = []) :
    last.files.node? (base ++ ownPlace r) = built.files.node? (base ++ ownPlace r) ∧
      (r ≠ [] → last.files.node? (base ++ besidePlace r) =
        built.files.node? (base ++ besidePlace r)) := by
  by_cases hmem : r ∈ rs
  · obtain ⟨t, t', hturn⟩ := h.turn r hmem
    have hsame : t' = t := by
      cases hturn.listed with
      | nothing _ => rfl
      | list hne _ _ _ => exact absurd ((hturn.listing_eq h hr hnames).trans hnil) hne
    subst hsame
    exact ⟨hturn.own_stays.trans (hturn.own_node hmod),
      fun hne => (hturn.beside_stays hne hr).trans (hturn.beside_node hne)⟩
  · constructor
    · refine h.lists.node _ fun other hother => ⟨fun heq => ?_, fun hne heq => ?_⟩
      · rw [ownPlace_injective (List.append_cancel_left heq)] at hmem
        exact hmem hother
      · obtain ⟨rfl, hname⟩ := besidePlace_eq_ownPlace_iff.mp (List.append_cancel_left heq).symm
        rw [← hname, dropLast_concat_getLastD hne] at hmod
        exact hmod hother
    · intro hne
      refine h.lists.node _ fun other hother => ⟨fun heq => ?_, fun hne' heq => ?_⟩
      · exact hr (besidePlace_eq_ownPlace_iff.mp (List.append_cancel_left heq)).2
      · rw [besidePlace_injOn hne hne' (List.append_cancel_left heq)] at hmem
        exact hmem hother

theorem node?_of_listing_ne_nil (h : ParentsListed m base rs built last)
    (hr : r.getLastD [] ≠ Text.ofString "mod")
    (hnames : ∀ name ∈ built.children.namesIn (m.dest.below r),
      Path.isPart name = true ∧ name ≠ Text.ofString "mod")
    (hne : listing last.files base r m (built.children.namesIn (m.dest.below r)) ≠ []) :
    last.files.node? (base ++ listPlace last.files base r) =
        some (.file (beforeList built.files base r ++ Text.Utf8.encode (Entry.listText
          (listing last.files base r m (built.children.namesIn (m.dest.below r)))))) ∧
      (Entry.listText (listing last.files base r m
        (built.children.namesIn (m.dest.below r)))).any CodePoint.isSurrogate = false := by
  have hmem : r ∈ rs := by
    obtain ⟨e, he⟩ := List.exists_mem_of_ne_nil _ hne
    obtain ⟨name, hname, _⟩ := mem_listing.mp he
    exact (h.mem_iff r).mpr ⟨name, mem_namesIn.mp hname⟩
  obtain ⟨t, t', hturn⟩ := h.turn r hmem
  have hlisting := hturn.listing_eq h hr hnames
  cases hturn.listed with
  | nothing hnil => exact absurd (hlisting.symm.trans hnil) hne
  | list _ _ hnode hplain =>
      rw [hlisting] at hnode hplain
      exact ⟨(hturn.list_node h hr).trans (hturn.beforeList_eq ▸ hnode), hplain⟩

end

theorem run_listsModules {t : FileTree} {written : Text} {results : List UnitResult}
    {last : Session} (hwell : t.WellFormed) (hnamed : t.Named)
    (hdest : m.dest = Path.ofText written)
    (hrun : m.run.run { files := t } = .ok results last)
    (hnames : ∀ c ∈ last.children, Path.IsName c.2 ∧ c.2 ≠ Text.ofString "mod") :
    ∃ units prepared built, Phases m t units results prepared built last ∧
      ∀ r : Place, r.getLastD [] ≠ Text.ofString "mod" →
        ListsModules m (m.dest.place t.home) r (last.children.namesIn (m.dest.below r))
          (m.unitText? t.home units results) built.files last.files := by
  obtain ⟨units, prepared, built, hphases⟩ := run_eq_ok_iff.mp hrun
  have hran := hphases.ran hwell hnamed hdest
  obtain ⟨rs, hlisted⟩ := hran.listed
  refine ⟨units, prepared, built, hphases, fun r hr => ?_⟩
  rw [hlisted.children_eq] at hnames ⊢
  have hhome : prepared.files.home = t.home := hran.discovered.files.home_eq
  have hmodules : ∀ name ∈ built.children.namesIn (m.dest.below r),
      Path.IsName name ∧ name ≠ Text.ofString "mod" :=
    fun name hname => hnames _ (mem_namesIn.mp hname)
  have hparts : ∀ name ∈ built.children.namesIn (m.dest.below r),
      Path.isPart name = true ∧ name ≠ Text.ofString "mod" :=
    fun name hname => ⟨(hmodules name hname).1.1, (hmodules name hname).2⟩
  -- a directory `mod` would put its list beside it, where `r` has its own
  have hmod : r ++ [Text.ofString "mod"] ∉ rs := by
    intro hmem
    obtain ⟨inner, hinner⟩ := (hlisted.mem_iff _).mp hmem
    exact (hnames _ (noted_above hran.discovered rfl hran.compiled hinner)).2 rfl
  have hlead : ∀ name ∈ built.children.namesIn (m.dest.below r), r ≠ [] →
      Path.IsName (r.getLastD []) := by
    intro name hname hne
    have hnoted := mem_namesIn.mp hname
    rw [← dropLast_concat_getLastD hne] at hnoted
    exact (hnames _ (noted_above hran.discovered rfl hran.compiled hnoted)).1
  refine ⟨node?_of_listing_eq_nil hlisted hr hmod hparts,
    fun hne => (node?_of_listing_ne_nil hlisted hr hparts hne).1, ?target, ?distinct, ?read⟩
  case target =>
    intro e he
    obtain ⟨name, hname, parts, hplace, rfl⟩ := mem_listing.mp he
    obtain ⟨hpart, hclimb, hslash, hallowed⟩ := (hmodules name hname).1
    obtain ⟨hshape, hfile, hnamed⟩ :=
      of_modulePlace? ⟨hclimb, hallowed⟩ hslash (Or.inl hpart) hplace
    rw [target_location _ (fun hbeside => hlead name hname (isBeside_iff.mp hbeside).1) hnamed]
    · exact hfile
    · rcases hshape with rfl | ⟨_, rfl⟩ <;> simp
  case distinct =>
    intro hdistinct
    rw [map_name_listing]
    refine List.Nodup.map_on ?_ ((Ordered.nodup_ofList _).filter _)
    intro a ha b hb
    exact hdistinct a (List.mem_of_mem_filter ha) b (List.mem_of_mem_filter hb)
  case read =>
    intro hne hsibling hplain
    obtain ⟨hnode, htext⟩ := node?_of_listing_ne_nil hlisted hr hparts hne
    have hread := fun e (he : e ∈ listing last.files (m.dest.place t.home) r m
      (built.children.namesIn (m.dest.below r))) => isReadable_of_mem_listing hplain he
    rw [listPlace, beforeList, ← isBeside_last hlisted hr] at hnode
    rw [listPlace]
    cases hbeside : isBeside last.files (m.dest.place t.home) r with
    | true =>
        rw [hbeside, if_pos rfl, if_pos rfl] at hnode
        obtain ⟨rust, hown⟩ := hsibling hbeside
        obtain ⟨unit, result, hmem, hok, hrust, hplace⟩ := exists_of_unitText? hown
        obtain ⟨_, rust', hrust', hplainRust, hbuilt⟩ := hran.compiled.of_ok hmem hok
        obtain rfl : rust' = rust := Option.some.inj (hrust'.symm.trans hrust)
        rw [hhome, hplace] at hbuilt
        have hbytes : built.files.bytesAt (m.dest.place t.home ++ besidePlace r) =
            Text.Utf8.encode rust' := by
          rw [FileTree.bytesAt, hbuilt]
        rw [hbytes] at hnode
        exact Entry.ofFile_of_append hown hnode hplainRust htext hread
    | false =>
        rw [hbeside, if_neg Bool.false_ne_true, if_neg Bool.false_ne_true, List.nil_append] at hnode
        refine Entry.ofFile_of_list (unitText?_ownPlace ?_ ?_ r) hnode htext hread
        · exact fun unit hunit => Pool.climb_not_mem hran.discovered hunit
        · exact fun unit result hmem hok => (hnames _ (hran.compiled.noted_of_ok hmem hok)).2

/-- A tree with one source. -/
def soleTree : ModuleTree :=
  { source := { parts := ["src"] }, dest := { parts := ["out"] }, options := .standard }

/-- The files of that tree: the bytes of the source, and what there is below the destination. -/
def soleFiles (source : List UInt8) (outputs : List (Place × FileNode)) : FileTree :=
  let sources : List (Place × FileNode) :=
    [(["src"], .directory), (["src", "a.d.ts"], .file source)]
  { entries := outputs ++ sources }

def soleResult : UnitResult := emptyResult (soleTree.unitAt ["a.d.ts"])

def soleEntry : Entry := { location := "a.rs", name := "aMod" }

def soleList : FileNode := .file (Text.Utf8.encode (Entry.listText [soleEntry]))

/-- What a run leaves if the source has bindings. -/
def soleLast : Session :=
  { files := soleFiles [] [(["out", "mod.rs"], soleList), (["out", "a.rs"], .file []),
      (["out"], .directory)]
    children := [({ parts := ["out"] }, "a")] }

theorem compileAll_soleTree {prepared built : Session}
    (htext : sourceText? prepared.files { parts := ["src", "a.d.ts"] } = some [])
    (hstore : (store { parts := ["out", "a.rs"] } soleResult).run
      { prepared with children := prepared.children.record { parts := ["out"] } "a" } =
        .ok () built) :
    (soleTree.compileAll [soleTree.unitAt ["a.d.ts"]]).run prepared = .ok [soleResult] built := by
  rw [compileAll_of_jobs (by decide)]
  exact run_mapM_cons (compileUnit_of_empty rfl htext hstore) rfl

/-- Files with the list of an earlier run, whose module is no longer there. -/
def relistedFiles : FileTree :=
  soleFiles [] [(["out", "mod.rs"], .file (Text.Utf8.encode (Entry.listText
    [{ location := "gone.rs", name := "goneMod" }]))), (["out"], .directory)]

theorem relistedFiles_listsModules :
    relistedFiles.WellFormed ∧ relistedFiles.Named ∧ soleTree.dest = Path.ofText "out" ∧
      soleTree.run.run { files := relistedFiles } = .ok [soleResult] soleLast ∧
      (∀ c ∈ soleLast.children, Path.IsName c.2 ∧ c.2 ≠ Text.ofString "mod") ∧
      ∃ units prepared built,
        Phases soleTree relistedFiles units [soleResult] prepared built soleLast ∧
        ∀ r : Place, r.getLastD [] ≠ Text.ofString "mod" →
          ListsModules soleTree (soleTree.dest.place relistedFiles.home) r
            (soleLast.children.namesIn (soleTree.dest.below r))
            (soleTree.unitText? relistedFiles.home units [soleResult]) built.files
            soleLast.files := by
  have hwell : relistedFiles.WellFormed := FileTree.wellFormed_of_entries rfl (by decide)
  have hnamed : relistedFiles.Named := by decide
  have hnames : ∀ c ∈ soleLast.children, Path.IsName c.2 ∧ c.2 ≠ Text.ofString "mod" := by decide
  have hrun : soleTree.run.run { files := relistedFiles } = .ok [soleResult] soleLast := by
    refine run_eq_ok_iff.mpr ⟨_, _, _, rfl, compileAll_soleTree rfl rfl, ?_⟩
    rw [run_writeParents_of_singleton rfl]
    rfl
  have hdest : soleTree.dest = Path.ofText "out" := rfl
  exact ⟨hwell, hnamed, hdest, hrun, hnames, run_listsModules hwell hnamed hdest hrun hnames⟩

/-- What a run leaves after that if the source cannot be read any more. -/
def soleFailed : Session :=
  { files := { entries := [(["src", "a.d.ts"], .file [0xFF]), (["out", "mod.rs"], soleList),
      (["out"], .directory), (["src"], .directory)] }
    children := [({ parts := ["out"] }, "a")] }

/-- An entry stays when the last module of a directory fails: the run removes the module's file and
then has no list to write. -/
theorem soleTree_keeps_dangling_entry :
    soleTree.run.run { files := soleFiles [] [] } = .ok [soleResult] soleLast ∧
      soleTree.run.run { files := soleLast.files.put ["src", "a.d.ts"] (.file [0xFF]) } =
        .ok [UnitProblem.result { parts := ["src", "a.d.ts"] }
          (.unreadable { parts := ["src", "a.d.ts"] })] soleFailed ∧
      Entry.ofFile soleFailed.files (fun _ => none) ["out", "mod.rs"] = some [soleEntry] ∧
      soleFailed.files.hasFile (soleEntry.target ["out", "mod.rs"]) = false := by
  refine ⟨?_, ?_, Entry.ofFile_of_list rfl rfl rfl ?_, rfl⟩
  · refine run_eq_ok_iff.mpr ⟨_, _, _, rfl, compileAll_soleTree rfl rfl, ?_⟩
    rw [run_writeParents_of_singleton rfl]
    rfl
  · refine run_eq_ok_iff.mpr ⟨_, _, _, rfl, rfl, ?_⟩
    rw [run_writeParents_of_singleton rfl]
    rfl
  · intro e he
    rw [List.mem_singleton.mp he]
    exact ⟨rfl, rfl⟩

end HostBindings.ModuleTree

import HostBindings.Proofs.FreshModules

/-!
Ways through the files of a run. Entries lead from the parent file of the destination to the output
of every unit that ended well, in one way, and to no other output.
-/

namespace HostBindings.ModuleTree

variable {m : ModuleTree}

/-- The module that one gets to from a module by the numbers of modules right below. -/
def descend (below : Place → List Text) (q : Place) : List Nat → Option Place
  | [] => some q
  | i :: route => (below q)[i]?.bind fun name => descend below (q ++ [name]) route

theorem prefix_of_descend {below : Place → List Text} {route : List Nat} {q p : Place}
    (h : descend below q route = some p) : q <+: p := by
  induction route generalizing q with
  | nil => exact Option.some.inj h ▸ List.prefix_rfl
  | cons i route ih =>
      obtain ⟨name, _, hrest⟩ := Option.bind_eq_some_iff.mp h
      exact (List.prefix_append q [name]).trans (ih hrest)

/-- There is one way down to a module if the names right below each module are distinct. -/
theorem descend_inj {below : Place → List Text} (hnodup : ∀ q, (below q).Nodup)
    {route route' : List Nat} {q p : Place} (h : descend below q route = some p)
    (h' : descend below q route' = some p) : route = route' := by
  -- a way that goes on does not come back
  have hlonger : ∀ {i : Nat} {route : List Nat}, descend below p (i :: route) ≠ some p := by
    intro i route h
    obtain ⟨name, _, hrest⟩ := Option.bind_eq_some_iff.mp h
    have hlength := (prefix_of_descend hrest).length_le
    rw [List.length_append, List.length_singleton] at hlength
    omega
  induction route generalizing q route' with
  | nil =>
      obtain rfl := Option.some.inj h
      cases route' with
      | nil => rfl
      | cons i route' => exact absurd h' hlonger
  | cons i route ih =>
      cases route' with
      | nil =>
          obtain rfl := Option.some.inj h'
          exact absurd h hlonger
      | cons i' route' =>
          obtain ⟨name, hname, hrest⟩ := Option.bind_eq_some_iff.mp h
          obtain ⟨name', hname', hrest'⟩ := Option.bind_eq_some_iff.mp h'
          -- both first steps lead to the module right below `q` that `p` is in
          have hsame : q ++ [name] = q ++ [name'] := by
            have hunder := prefix_of_descend hrest
            have hunder' := prefix_of_descend hrest'
            refine (List.prefix_of_prefix_length_le hunder hunder' ?_).eq_of_length ?_ <;> simp
          obtain rfl : name = name' := by simpa using hsame
          obtain ⟨hi, hget⟩ := List.getElem?_eq_some_iff.mp hname
          obtain ⟨hi', hget'⟩ := List.getElem?_eq_some_iff.mp hname'
          rw [(hnodup q).getElem_inj_iff.mp (hget.trans hget'.symm), ih hrest hrest']

theorem exists_descend {below : Place → List Text} {q p : Place} (hunder : q <+: p)
    (hbelow : ∀ q name, q ++ [name] <+: p → name ∈ below q) :
    ∃ route, descend below q route = some p := by
  obtain ⟨rest, rfl⟩ := hunder
  induction rest generalizing q with
  | nil => exact ⟨[], by rw [List.append_nil]; rfl⟩
  | cons name rest ih =>
      have hstep : q ++ name :: rest = q ++ [name] ++ rest := by simp
      rw [hstep] at hbelow ⊢
      obtain ⟨i, hi, hget⟩ := List.mem_iff_getElem.mp (hbelow q name (List.prefix_append _ _))
      obtain ⟨route, hroute⟩ := ih hbelow
      refine ⟨i :: route, ?_⟩
      rw [descend, List.getElem?_eq_getElem hi, hget]
      exact hroute

/-- The entries in files: those of its module in the file of each module that is alive. -/
structure IsLists (m : ModuleTree) (base : Place) (oks : List Place) (children : Children)
    (lists : Place → List Entry) : Prop where
  alive : ∀ q, Alive oks q → lists (base ++ filePlace oks q) = moduleEntries m oks children q
  other : ∀ place, (∀ q, Alive oks q → place ≠ base ++ filePlace oks q) → lists place = []

namespace Fresh

variable {base : Place} {oks rs : List Place} {own : Place → Option Text} {built last : Session}

theorem exists_lists (h : Fresh m base oks rs own built last) :
    ∃ lists, IsLists m base oks built.children lists := by
  classical
  refine ⟨fun place => if hplace : ∃ q, Alive oks q ∧ place = base ++ filePlace oks q then
    moduleEntries m oks built.children hplace.choose else [], ?_, ?_⟩
  · intro q hq
    have hplace : ∃ p, Alive oks p ∧ base ++ filePlace oks q = base ++ filePlace oks p :=
      ⟨q, hq, rfl⟩
    have hchoose : hplace.choose = q :=
      (h.filePlace_injOn (List.append_cancel_left hplace.choose_spec.2)).symm
    exact (dif_pos hplace).trans (by rw [hchoose])
  · intro place hplace
    exact dif_neg fun ⟨q, hq, heq⟩ => hplace q hq heq

variable {lists : Place → List Entry}

theorem follow_eq (h : Fresh m base oks rs own built last)
    (hlists : IsLists m base oks built.children lists)
    {q : Place} (hq : Alive oks q) (route : List Nat) :
    Entry.follow lists (base ++ filePlace oks q) route =
      (descend (kids m oks built.children) q route).map fun p => base ++ filePlace oks p := by
  induction route generalizing q with
  | nil => rfl
  | cons i route ih =>
      rw [Entry.follow, hlists.alive q hq, moduleEntries, List.getElem?_map, descend]
      cases hname : (kids m oks built.children q)[i]? with
      | none => rfl
      | some name =>
          have halive := h.mem_kids.mp (List.mem_of_getElem? hname)
          rw [Option.map_some, Option.bind_some, h.target_eq halive, Option.bind_some]
          exact ih halive

theorem existsUnique_follow (h : Fresh m base oks rs own built last)
    (hlists : IsLists m base oks built.children lists) {o : Place} (ho : o ∈ oks) :
    ∃! route, Entry.follow lists (base ++ [parentName]) route = some (base ++ besidePlace o) := by
  have hroot : Alive oks [] := ⟨o, ho, List.nil_prefix⟩
  have hdescend : ∀ route,
      Entry.follow lists (base ++ [parentName]) route = some (base ++ besidePlace o) ↔
        descend (kids m oks built.children) [] route = some o := by
    intro route
    rw [← h.filePlace_nil, ← filePlace_of_mem ho, h.follow_eq hlists hroot, Option.map_eq_some_iff]
    constructor
    · rintro ⟨p, hp, heq⟩
      rwa [h.filePlace_injOn (List.append_cancel_left heq)] at hp
    · exact fun hp => ⟨o, hp, rfl⟩
  simp only [hdescend]
  obtain ⟨route, hroute⟩ := exists_descend List.nil_prefix fun q name hunder =>
    h.mem_kids.mpr ⟨o, ho, hunder⟩
  refine ⟨route, hroute, fun route' hroute' => descend_inj (fun q => ?_) hroute' hroute⟩
  exact (Ordered.nodup_ofList _).filter _

theorem mem_of_follow (h : Fresh m base oks rs own built last)
    (hlists : IsLists m base oks built.children lists)
    {route : List Nat} {p : Place} (hp : p ≠ []) (hmod : p.getLastD [] ≠ Text.ofString "mod")
    (hfollow : Entry.follow lists (base ++ [parentName]) route = some (base ++ besidePlace p)) :
    p ∈ oks := by
  have hown : ∀ q, ownPlace q ≠ besidePlace p := fun q heq =>
    hmod (besidePlace_eq_ownPlace_iff.mp heq.symm).2
  by_cases halive : Alive oks []
  · rw [← h.filePlace_nil, h.follow_eq hlists halive, Option.map_eq_some_iff] at hfollow
    obtain ⟨q, _, heq⟩ := hfollow
    have heq := List.append_cancel_left heq
    rw [filePlace] at heq
    split at heq
    · rename_i hq
      rwa [← besidePlace_injOn (h.ne_nil q hq) hp heq]
    · exact absurd heq (hown q)
  · cases route with
    | nil => exact absurd (List.append_cancel_left (Option.some.inj hfollow)) (hown [])
    | cons i route =>
        have hnil : lists (base ++ [parentName]) = [] := by
          refine hlists.other _ ?_
          rintro q ⟨o, ho, _⟩ _
          exact halive ⟨o, ho, List.nil_prefix⟩
        rw [Entry.follow, hnil] at hfollow
        cases hfollow

end Fresh

/-- How the files of a run into an empty destination lead to each other, if `lists` are the entries
in them. -/
structure Navigable (m : ModuleTree) (home : Place) (units : List SourceFile)
    (results : List UnitResult) (lists : Place → List Entry) (last : FileTree) : Prop where
  /-- The output of a unit that ended well holds its text, and nothing behind it but a list. -/
  unit_text : ∀ unit result, (unit, result) ∈ units.zip results → result.ok = true →
    ∃ rust, result.rust = some rust ∧ last.node? ((m.outputPath unit).place home) =
      some (.file (Text.Utf8.encode (if lists ((m.outputPath unit).place home) = [] then rust
        else rust ++ Text.ofString "\n" ++
          Entry.listText (lists ((m.outputPath unit).place home)))))
  /-- One way leads to it from the parent file of the destination. -/
  reached : ∀ unit result, (unit, result) ∈ units.zip results → result.ok = true →
    ∃! route, Entry.follow lists (m.dest.place home ++ [parentName]) route =
      some ((m.outputPath unit).place home)
  /-- A file that is no unit's output is a list. -/
  parent_text : ∀ rest, rest ≠ [] → last.hasFile (m.dest.place home ++ rest) = true →
    m.unitText? home units results (m.dest.place home ++ rest) = none →
      last.node? (m.dest.place home ++ rest) =
        some (.file (Text.Utf8.encode (Entry.listText (lists (m.dest.place home ++ rest)))))
  /-- Every entry points to a file that is there. -/
  target : ∀ rest, rest ≠ [] → last.hasFile (m.dest.place home ++ rest) = true →
    ∀ e ∈ lists (m.dest.place home ++ rest),
      last.hasFile (e.target (m.dest.place home ++ rest)) = true
  /-- No way leads to the output of units that failed. -/
  only_ok : ∀ route unit, unit ∈ units →
    Entry.follow lists (m.dest.place home ++ [parentName]) route =
      some ((m.outputPath unit).place home) →
    ∃ other result, (other, result) ∈ units.zip results ∧ result.ok = true ∧
      m.outputPath other = m.outputPath unit
  /-- The lists are what one reads in the files, if the names of modules stand for themselves
  between quotes. -/
  read : (∀ o ∈ okModules units results, ∀ part ∈ o, part.all Entry.isPlain = true) →
    ∀ rest, rest ≠ [] → last.hasFile (m.dest.place home ++ rest) = true →
      Entry.ofFile last (m.unitText? home units results) (m.dest.place home ++ rest) =
        some (lists (m.dest.place home ++ rest))

/-- A run into an empty destination makes files that lead to the outputs of all units that ended
well, to each in one way, and to nothing else. -/
theorem run_navigable {t : FileTree} {written : Text} {units : List SourceFile}
    {results : List UnitResult} {prepared last : Session} (hwell : t.WellFormed) (hnamed : t.Named)
    (hdest : m.dest = Path.ofText written)
    (hempty : ∀ rest, rest ≠ [] → t.node? (m.dest.place t.home ++ rest) = none)
    (hprepare : m.prepare.run { files := t } = .ok units prepared)
    (hstem : ∀ unit ∈ units, stem unit.path ≠ Text.ofString "mod")
    (hrun : m.run.run { files := t } = .ok results last) :
    ∃ lists, Navigable m t.home units results lists last.files := by
  obtain ⟨units', prepared', built, hphases⟩ := run_eq_ok_iff.mp hrun
  obtain ⟨rfl, rfl⟩ : units = units' ∧ prepared = prepared' := by
    have hsame := hprepare.symm.trans hphases.prepare
    exact ⟨EStateM.Result.ok.inj hsame |>.1, EStateM.Result.ok.inj hsame |>.2⟩
  have hran := hphases.ran hwell hnamed hdest
  obtain ⟨rs, hfresh⟩ := hran.fresh hempty hstem
  obtain ⟨lists, hlists⟩ := hfresh.exists_lists
  have hplace : ∀ unit ∈ units, (m.outputPath unit).place t.home =
      m.dest.place t.home ++ besidePlace (unit.directory ++ [stem unit.path]) :=
    fun unit hunit => place_outputPath_eq_besidePlace (Pool.climb_not_mem hran.discovered hunit) _
  have hmodule : ∀ unit result, (unit, result) ∈ units.zip results → result.ok = true →
      unit.directory ++ [stem unit.path] ∈ okModules units results :=
    fun unit result hmem hok => mem_okModules.mpr ⟨unit, result, hmem, hok, rfl⟩
  refine ⟨lists, ?unit_text, ?reached, ?parent_text, ?target, ?only_ok, ?read⟩
  case unit_text =>
    intro unit result hmem hok
    have ho := hmodule unit result hmem hok
    have hunit := (List.of_mem_zip hmem).1
    obtain ⟨_, rust, hrust, _, _⟩ := hran.compiled.of_ok hmem hok
    have hown := hran.compiled.unitText?_eq hmem hok hrust
    rw [hran.discovered.files.home_eq, hplace unit hunit] at hown
    have hlist := hlists.alive _ (.of_mem ho)
    rw [Fresh.filePlace_of_mem ho] at hlist
    rw [hplace unit hunit, hlist]
    refine ⟨rust, hrust, ?_⟩
    rcases hfresh.node?_besidePlace ho hown with ⟨hnil, hnode⟩ | ⟨hne, hnode, _⟩
    · rw [if_pos hnil]
      exact hnode
    · rw [if_neg hne, Text.Utf8.encode_append, Text.Utf8.encode_append]
      exact hnode
  case reached =>
    intro unit result hmem hok
    rw [hplace unit (List.of_mem_zip hmem).1]
    exact hfresh.existsUnique_follow hlists (hmodule unit result hmem hok)
  case parent_text =>
    intro rest hrest hexists hown
    obtain ⟨q, halive, rfl⟩ := (hfresh.hasFile_iff hrest).mp hexists
    by_cases hq : q ∈ okModules units results
    · obtain ⟨rust, htext, _⟩ := hfresh.own_text q hq
      rw [Fresh.filePlace_of_mem hq, htext] at hown
      cases hown
    · rw [hlists.alive q halive, filePlace, if_neg hq]
      exact (hfresh.node?_ownPlace halive hq).1
  case target =>
    intro rest hrest hexists e he
    obtain ⟨q, halive, rfl⟩ := (hfresh.hasFile_iff hrest).mp hexists
    rw [hlists.alive q halive] at he
    exact hfresh.hasFile_target he
  case only_ok =>
    intro route unit hunit hfollow
    rw [hplace unit hunit] at hfollow
    have hmem := hfresh.mem_of_follow hlists (by simp)
      (by rw [List.getLastD_concat]; exact hstem unit hunit) hfollow
    obtain ⟨other, result, hother, hok, hsame⟩ := mem_okModules.mp hmem
    obtain ⟨hdirectory, hname⟩ := List.append_inj' hsame rfl
    refine ⟨other, result, hother, hok, ?_⟩
    rw [outputPath_eq, outputPath_eq, hdirectory, List.singleton_inj.mp hname]
  case read =>
    intro hplain rest hrest hexists
    obtain ⟨q, halive, rfl⟩ := (hfresh.hasFile_iff hrest).mp hexists
    rw [hlists.alive q halive]
    exact hfresh.ofFile_eq hplain halive

/-- A tree with a unit beside a directory of its name, and one that cannot be read. -/
def nestedTree : ModuleTree :=
  { source := { parts := ["src"] }, dest := { parts := ["out"] }, options := .standard }

def nestedFiles : FileTree :=
  { entries := [(["src"], .directory), (["src", "bad.d.ts"], .file [0xFF]),
      (["src", "dom"], .directory), (["src", "dom", "x.d.ts"], .file []),
      (["src", "dom.d.ts"], .file [])] }

def nestedUnits : List SourceFile :=
  [nestedTree.unitAt ["bad.d.ts"], nestedTree.unitAt ["dom", "x.d.ts"],
    nestedTree.unitAt ["dom.d.ts"]]

def nestedPrepared : Session :=
  { files := { entries := (["out", "dom"], .directory) :: (["out"], .directory) ::
      nestedFiles.entries }
    children := [({ parts := ["out"] }, "dom")] }

def nestedResults : List UnitResult :=
  [UnitProblem.result { parts := ["src", "bad.d.ts"] }
      (.unreadable { parts := ["src", "bad.d.ts"] }),
    emptyResult (nestedTree.unitAt ["dom", "x.d.ts"]), emptyResult (nestedTree.unitAt ["dom.d.ts"])]

def nestedChildren : Children :=
  [({ parts := ["out"] }, "dom"), ({ parts := ["out"] }, "bad"), ({ parts := ["out", "dom"] }, "x")]

/-- The session when the unit in the directory is compiled. -/
def nestedInner : Session :=
  { files := { entries := (["out", "dom", "x.rs"], .file []) :: nestedPrepared.files.entries }
    children := nestedChildren }

def nestedBuilt : Session :=
  { files := { entries := (["out", "dom.rs"], .file []) :: nestedInner.files.entries }
    children := nestedChildren }

def nestedLast : Session :=
  { files := { entries :=
      (["out", "mod.rs"], .file (Text.Utf8.encode
        (Entry.listText [{ location := "dom.rs", name := "domMod" }]))) ::
      (["out", "dom.rs"], .file (Text.Utf8.encode (Text.ofString "\n" ++
        Entry.listText [{ location := "dom/x.rs", name := "xMod" }]))) ::
      (["out", "dom", "x.rs"], .file []) :: nestedPrepared.files.entries }
    children := nestedChildren }

theorem compileAll_nestedTree :
    (nestedTree.compileAll nestedUnits).run nestedPrepared = .ok nestedResults nestedBuilt := by
  have hbad : (nestedTree.compileUnit (nestedTree.claims nestedUnits)
      (nestedTree.unitAt ["bad.d.ts"])).run nestedPrepared =
      .ok (UnitProblem.result { parts := ["src", "bad.d.ts"] }
        (.unreadable { parts := ["src", "bad.d.ts"] }))
        { nestedPrepared with
          children := [({ parts := ["out"] }, "dom"), ({ parts := ["out"] }, "bad")] } := rfl
  have hinner : (nestedTree.compileUnit (nestedTree.claims nestedUnits)
      (nestedTree.unitAt ["dom", "x.d.ts"])).run { nestedPrepared with
        children := [({ parts := ["out"] }, "dom"), ({ parts := ["out"] }, "bad")] } =
      .ok (emptyResult (nestedTree.unitAt ["dom", "x.d.ts"])) nestedInner :=
    compileUnit_of_empty rfl rfl rfl
  have houter : (nestedTree.compileUnit (nestedTree.claims nestedUnits)
      (nestedTree.unitAt ["dom.d.ts"])).run nestedInner =
      .ok (emptyResult (nestedTree.unitAt ["dom.d.ts"])) nestedBuilt :=
    compileUnit_of_empty rfl rfl rfl
  rw [compileAll_of_jobs (by decide)]
  exact run_mapM_cons hbad (run_mapM_cons hinner (run_mapM_cons houter rfl))

theorem nestedFiles_navigable :
    nestedFiles.WellFormed ∧ nestedFiles.Named ∧ nestedTree.dest = Path.ofText "out" ∧
      (∀ rest, rest ≠ [] →
        nestedFiles.node? (nestedTree.dest.place nestedFiles.home ++ rest) = none) ∧
      nestedTree.prepare.run { files := nestedFiles } = .ok nestedUnits nestedPrepared ∧
      (∀ unit ∈ nestedUnits, stem unit.path ≠ Text.ofString "mod") ∧
      nestedTree.run.run { files := nestedFiles } = .ok nestedResults nestedLast ∧
      ∃ lists, Navigable nestedTree nestedFiles.home nestedUnits nestedResults lists
        nestedLast.files := by
  have hwell : nestedFiles.WellFormed := FileTree.wellFormed_of_entries rfl (by decide)
  have hnamed : nestedFiles.Named := by decide
  have hdest : nestedTree.dest = Path.ofText "out" := rfl
  have hempty : ∀ rest, rest ≠ [] →
      nestedFiles.node? (nestedTree.dest.place nestedFiles.home ++ rest) = none := fun _ _ => rfl
  have hprepare : nestedTree.prepare.run { files := nestedFiles } =
    .ok nestedUnits nestedPrepared := rfl
  have hstem : ∀ unit ∈ nestedUnits, stem unit.path ≠ Text.ofString "mod" := by decide
  have hrun : nestedTree.run.run { files := nestedFiles } = .ok nestedResults nestedLast := by
    refine run_eq_ok_iff.mpr ⟨_, _, _, hprepare, compileAll_nestedTree, ?_⟩
    rw [run_writeParents_of_pair rfl rfl]
    rfl
  exact ⟨hwell, hnamed, hdest, hempty, hprepare, hstem, hrun,
    run_navigable hwell hnamed hdest hempty hprepare hstem hrun⟩

/-- A tree with one source, whose name has a quote in it. -/
def quotedFiles : FileTree :=
  { entries := [(["src"], .directory), (["src", "a\"b.d.ts"], .file [])] }

def quotedUnit : SourceFile := nestedTree.unitAt ["a\"b.d.ts"]

def quotedEntry : Entry := { location := "a\"b.rs", name := "a_bMod" }

def quotedBuilt : Session :=
  { files := { entries :=
      (["out", "a\"b.rs"], .file []) :: (["out"], .directory) :: quotedFiles.entries }
    children := [({ parts := ["out"] }, "a\"b")] }

def quotedLast : Session :=
  { quotedBuilt with
    files := { entries := (["out", "mod.rs"], .file (Text.Utf8.encode
      (Entry.listText [quotedEntry]))) :: quotedBuilt.files.entries } }

/-- A quote in a name ends the location of its entry when it is read, so that no way leads to the
output of the unit. -/
theorem quotedUnit_not_reached :
    nestedTree.run.run { files := quotedFiles } = .ok [emptyResult quotedUnit] quotedLast ∧
      (emptyResult quotedUnit).ok = true ∧
      ∀ route, Entry.follow
        (fun place => (Entry.ofFile quotedLast.files
          (nestedTree.unitText? [] [quotedUnit] [emptyResult quotedUnit]) place).getD [])
        ["out", "mod.rs"] route ≠ some ((nestedTree.outputPath quotedUnit).place []) := by
  refine ⟨?_, rfl, ?_⟩
  · refine run_eq_ok_iff.mpr ⟨[quotedUnit], _, quotedBuilt, rfl, ?_, ?_⟩
    · rw [compileAll_of_jobs (by decide)]
      exact run_mapM_cons (compileUnit_of_empty rfl rfl rfl) rfl
    · rw [run_writeParents_of_singleton rfl]
      rfl
  · have hunread : Entry.ofFile quotedLast.files
        (nestedTree.unitText? [] [quotedUnit] [emptyResult quotedUnit]) ["out", "mod.rs"] =
          none := by
      rw [Entry.ofFile_eq_ofText rfl rfl rfl]
      rfl
    intro route
    cases route with
    | nil =>
        intro h
        exact absurd h (by decide)
    | cons i route =>
        rw [Entry.follow, hunread]
        exact fun h => nomatch h

end HostBindings.ModuleTree

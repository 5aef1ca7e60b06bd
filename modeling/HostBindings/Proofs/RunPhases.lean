import HostBindings.Proofs.ParentListings

/-!
The phases of a whole run, with what is known after each: the units are found, they are compiled,
and the directories list their modules.
-/

namespace HostBindings

namespace Run

variable {α β : Type}

theorem run_settle (part : Run α) (s : Session) :
    (settle part).run s =
      match part.run s with
      | .ok a s' => .ok (.ok a) s'
      | .error e s' => .ok (.error e) s' := by
  change EStateM.tryCatch (EStateM.map Except.ok part) (fun e => pure (.error e)) s = _
  delta EStateM.tryCatch EStateM.map
  rw [EStateM.run]
  cases part s <;> rfl

/-- Parts that are settled and all end well end as they do one after the other. -/
theorem mapM_of_mapM_settle {part : α → Run β} {as : List α} {found : List (Except RunError β)}
    {results : List β} {s s' now now' : Session}
    (hfound : (as.mapM fun a => settle (part a)).run s = .ok found s')
    (hresults : (found.mapM ofExcept : Run (List β)).run now = .ok results now') :
    (as.mapM part).run s = .ok results s' ∧ now' = now := by
  induction as generalizing s found results with
  | nil =>
      cases hfound
      cases hresults
      exact ⟨rfl, rfl⟩
  | cons a rest ih =>
      rw [List.mapM_cons] at hfound ⊢
      obtain ⟨first, s₁, hfirst, hfound⟩ := run_bind_eq_ok_iff.mp hfound
      obtain ⟨others, s₂, hothers, hfound⟩ := run_bind_eq_ok_iff.mp hfound
      cases hfound
      rw [List.mapM_cons] at hresults
      obtain ⟨b, now₁, hb, hresults⟩ := run_bind_eq_ok_iff.mp hresults
      obtain ⟨bs, now₂, hbs, hresults⟩ := run_bind_eq_ok_iff.mp hresults
      cases hresults
      obtain ⟨rfl, rfl⟩ := run_ofExcept_eq_ok_iff.mp hb
      obtain ⟨hrest, hnow⟩ := ih hothers hbs
      have hpart : (part a).run s = .ok b s₁ := by
        rw [run_settle] at hfirst
        cases hrun : (part a).run s with
        | ok b' s'' =>
            rw [hrun] at hfirst
            cases hfirst
            rfl
        | error e s'' =>
            rw [hrun] at hfirst
            cases hfirst
      refine ⟨?_, hnow⟩
      exact run_bind_eq_ok_iff.mpr ⟨b, s₁, hpart, run_bind_eq_ok_iff.mpr ⟨bs, _, hrest, rfl⟩⟩

end Run

namespace ModuleTree

variable {m : ModuleTree}

/-- However many units are worked on at a time, they end as they do one after the other. -/
theorem mapM_of_compileAll {units : List SourceFile} {results : List UnitResult} {s s' : Session}
    (h : (m.compileAll units).run s = .ok results s') :
    (units.mapM (m.compileUnit (m.claims units))).run s = .ok results s' := by
  rw [compileAll] at h
  split at h
  · obtain ⟨found, s₁, hfound, hresults⟩ := run_bind_eq_ok_iff.mp h
    obtain ⟨hmapM, rfl⟩ := Run.mapM_of_mapM_settle hfound hresults
    exact hmapM
  · exact h

theorem stem_eq_takeWhile (p : Path) :
    stem p = p.name.takeWhile fun c => !c == CodePoint.ofChar '.' :=
  Text.headD_split _ _

theorem mem_name_of_mem_stem {p : Path} {c : CodePoint} (h : c ∈ stem p) : c ∈ p.name := by
  rw [stem_eq_takeWhile] at h
  exact List.takeWhile_sublist _ |>.subset h

theorem isEnterable_stem {p : Path} (h : Path.IsName p.name) : Path.IsEnterable (stem p) := by
  refine ⟨fun hclimb => ?_, ?_⟩
  · have hpoint : CodePoint.ofChar '.' ∈ stem p := by
      rw [hclimb]
      decide
    rw [stem_eq_takeWhile] at hpoint
    have hother := List.all_eq_true.mp List.all_takeWhile _ hpoint
    simp at hother
  · rw [List.all_eq_true]
    exact fun c hc => List.all_eq_true.mp h.2.2.2 c (mem_name_of_mem_stem hc)

section

variable {units : List SourceFile} {results : List UnitResult} {start prepared compiled : Session}

theorem noted_of_compiled (hdiscovered : Discovered m units start prepared)
    (hstart : start.children = []) (hcompiled : Compiled m units prepared results compiled) :
    Noted m compiled.children := by
  intro c hc
  rcases (hcompiled.mem_children c).mp hc with hc | ⟨unit, hunit, _, rfl⟩
  · rcases hdiscovered.mem_children c hc with hc | ⟨r, name, rfl, hparts⟩
    · rw [hstart] at hc
      cases hc
    · exact ⟨r, name, rfl, hparts⟩
  · refine ⟨unit.directory, stem unit.path, by rw [parent_outputPath], fun part hpart => ?_⟩
    rcases List.mem_append.mp hpart with hpart | hpart
    · obtain ⟨_, hclimb, _, hallowed⟩ := hdiscovered.directory unit hunit part hpart
      exact ⟨hclimb, hallowed⟩
    · rw [List.mem_singleton.mp hpart]
      exact isEnterable_stem (hdiscovered.name unit hunit)

theorem noted_above (hdiscovered : Discovered m units start prepared)
    (hstart : start.children = []) (hcompiled : Compiled m units prepared results compiled)
    {r : Place} {name inner : Text} (h : (m.dest.below (r ++ [name]), inner) ∈ compiled.children) :
    (m.dest.below r, name) ∈ compiled.children := by
  refine (hcompiled.mem_children _).mpr (Or.inl ?_)
  rcases (hcompiled.mem_children _).mp h with h | ⟨unit, hunit, _, heq⟩
  · rcases hdiscovered.closed r name inner h with h | h
    · rw [hstart] at h
      cases h
    · exact h
  · rw [parent_outputPath] at heq
    have hdirectory := below_injective m.dest (Prod.mk.inj heq).1
    exact hdiscovered.noted unit hunit r name (hdirectory ▸ List.prefix_rfl)

theorem Compiled.of_ok (hcompiled : Compiled m units prepared results compiled) {unit : SourceFile}
    {result : UnitResult} (hmem : (unit, result) ∈ units.zip results) (hok : result.ok = true) :
    m.otherHolder? (m.claims units) unit = none ∧
      ∃ rust, result.rust = some rust ∧ rust.any CodePoint.isSurrogate = false ∧
        compiled.files.node? ((m.outputPath unit).place prepared.files.home) =
          some (.file (Text.Utf8.encode rust)) := by
  obtain ⟨houtcome, hstorable⟩ := (List.forall₂_iff_zip.mp hcompiled.ends).2 hmem
  have hnone : m.otherHolder? (m.claims units) unit = none := by
    rw [outcome] at houtcome
    cases hholder : m.otherHolder? (m.claims units) unit with
    | none => rfl
    | some holder =>
        rw [hholder] at houtcome
        rw [← Except.ok.inj houtcome] at hok
        cases hok
  refine ⟨hnone, ?_⟩
  cases hrust : result.rust with
  | none => simp [UnitResult.ok, hrust] at hok
  | some rust =>
      have hwritten := UnitResult.written?_eq_some_iff.mpr ⟨hok, hrust⟩
      have hstorable := hstorable hnone
      rw [Storable, hwritten] at hstorable
      have houtput := hcompiled.output unit (List.of_mem_zip hmem).1 hnone result houtcome
      rw [nodeAfter, hwritten] at houtput
      exact ⟨rust, rfl, hstorable.2, houtput⟩

theorem Compiled.exists_mem_zip (hcompiled : Compiled m units prepared results compiled)
    {unit : SourceFile} (hunit : unit ∈ units) :
    ∃ result, (unit, result) ∈ units.zip results ∧
      m.outcome (m.claims units) prepared.files unit = .ok result := by
  obtain ⟨i, hi, rfl⟩ := List.mem_iff_getElem.mp hunit
  obtain ⟨hlength, hget⟩ := List.forall₂_iff_get.mp hcompiled.ends
  have hi' : i < results.length := hlength ▸ hi
  refine ⟨results[i], List.mem_iff_getElem.mpr ⟨i, ?_, ?_⟩, (hget i hi hi').1⟩
  · rw [List.length_zip]
    omega
  · rw [List.getElem_zip]

end

/-- The text that a unit left at a place. -/
def unitText? (m : ModuleTree) (home : Place) (units : List SourceFile) (results : List UnitResult)
    (place : Place) : Option Text :=
  (units.zip results).findSome? fun e =>
    if (m.outputPath e.1).place home = place then e.2.written? else none

theorem exists_of_unitText? {home : Place} {units : List SourceFile} {results : List UnitResult}
    {place : Place} {rust : Text} (h : m.unitText? home units results place = some rust) :
    ∃ unit result, (unit, result) ∈ units.zip results ∧ result.ok = true ∧
      result.rust = some rust ∧ (m.outputPath unit).place home = place := by
  obtain ⟨⟨unit, result⟩, hmem, hfound⟩ := List.exists_of_findSome?_eq_some h
  rw [Option.ite_none_right_eq_some, UnitResult.written?_eq_some_iff] at hfound
  exact ⟨unit, result, hmem, hfound.2.1, hfound.2.2, hfound.1⟩

theorem Compiled.unitText?_eq {units : List SourceFile} {results : List UnitResult}
    {prepared built : Session} (h : Compiled m units prepared results built) {unit : SourceFile}
    {result : UnitResult} {rust : Text} (hmem : (unit, result) ∈ units.zip results)
    (hok : result.ok = true) (hrust : result.rust = some rust) :
    m.unitText? prepared.files.home units results ((m.outputPath unit).place prepared.files.home) =
      some rust := by
  obtain ⟨other, hother⟩ : ∃ other, m.unitText? prepared.files.home units results
      ((m.outputPath unit).place prepared.files.home) = some other := by
    rw [← Option.isSome_iff_exists, unitText?, List.findSome?_isSome_iff]
    refine ⟨(unit, result), hmem, ?_⟩
    rw [if_pos rfl, UnitResult.written?_eq_some_iff.mpr ⟨hok, hrust⟩]
    rfl
  obtain ⟨unit', result', hmem', hok', hrust', hplace⟩ := exists_of_unitText? hother
  obtain ⟨_, rust₁, hrust₁, htext, hnode⟩ := h.of_ok hmem hok
  obtain ⟨_, rust₂, hrust₂, htext', hnode'⟩ := h.of_ok hmem' hok'
  -- one file holds the bytes of both texts
  have hbytes : Text.Utf8.encode rust₁ = Text.Utf8.encode rust₂ := by
    rw [hplace, hnode] at hnode'
    simpa using hnode'
  have hsame : some rust₁ = some rust₂ := by
    rw [← Text.Utf8.decode_encode htext, ← Text.Utf8.decode_encode htext', hbytes]
  rw [hother, ← hrust', hrust₂, ← hsame, ← hrust₁, hrust]

theorem Compiled.noted_of_ok {units : List SourceFile} {results : List UnitResult}
    {prepared built : Session} (h : Compiled m units prepared results built) {unit : SourceFile}
    {result : UnitResult} (hmem : (unit, result) ∈ units.zip results) (hok : result.ok = true) :
    (m.dest.below unit.directory, stem unit.path) ∈ built.children := by
  refine (h.mem_children _).mpr (Or.inr ⟨unit, (List.of_mem_zip hmem).1, (h.of_ok hmem hok).1, ?_⟩)
  rw [parent_outputPath]

theorem unitText?_ownPlace {home : Place} {units : List SourceFile} {results : List UnitResult}
    (hclimb : ∀ unit ∈ units, Path.climb ∉ unit.directory)
    (hstem : ∀ unit result, (unit, result) ∈ units.zip results → result.ok = true →
      stem unit.path ≠ Text.ofString "mod") (r : Place) :
    m.unitText? home units results (m.dest.place home ++ ownPlace r) = none := by
  cases hfound : m.unitText? home units results (m.dest.place home ++ ownPlace r) with
  | none => rfl
  | some rust =>
      obtain ⟨unit, result, hmem, hok, _, hplace⟩ := exists_of_unitText? hfound
      rw [place_outputPath (hclimb unit (List.of_mem_zip hmem).1), ownPlace, parentName_eq]
        at hplace
      have hname := (List.append_inj' (List.append_cancel_left hplace) rfl).2
      exact absurd (List.append_cancel_right (List.singleton_inj.mp hname))
        (hstem unit result hmem hok)

/-- The phases of a run from files `t`. -/
structure Phases (m : ModuleTree) (t : FileTree) (units : List SourceFile)
    (results : List UnitResult) (prepared built last : Session) : Prop where
  prepare : m.prepare.run { files := t } = .ok units prepared
  compileAll : (m.compileAll units).run prepared = .ok results built
  writeParents : m.writeParents.run built = .ok () last

/-- What is known after each phase of a run. -/
structure Ran (m : ModuleTree) (t : FileTree) (units : List SourceFile)
    (results : List UnitResult) (prepared built last : Session) : Prop where
  discovered : Discovered m units { files := t } prepared
  compiled : Compiled m units prepared results built
  noted : Noted m built.children
  listed : ∃ rs, ParentsListed m (m.dest.place t.home) rs built last

section

variable {t : FileTree} {units : List SourceFile} {results : List UnitResult}
  {prepared built last : Session}

theorem run_eq_ok_iff : m.run.run { files := t } = .ok results last ↔
    ∃ units prepared built, Phases m t units results prepared built last := by
  rw [run_eq]
  constructor
  · intro h
    obtain ⟨units, prepared, hprepare, h⟩ := run_bind_eq_ok_iff.mp h
    obtain ⟨_, built, hcompile, h⟩ := run_bind_eq_ok_iff.mp h
    obtain ⟨_, _, hlist, h⟩ := run_bind_eq_ok_iff.mp h
    cases h
    exact ⟨units, prepared, built, hprepare, hcompile, hlist⟩
  · rintro ⟨units, prepared, built, hprepare, hcompile, hlist⟩
    refine run_bind_eq_ok_iff.mpr ⟨units, prepared, hprepare, ?_⟩
    refine run_bind_eq_ok_iff.mpr ⟨results, built, hcompile, ?_⟩
    exact run_bind_eq_ok_iff.mpr ⟨(), last, hlist, rfl⟩

theorem Phases.ran (h : Phases m t units results prepared built last) (hwell : t.WellFormed)
    (hnamed : t.Named) {written : Text} (hdest : m.dest = Path.ofText written) :
    Ran m t units results prepared built last := by
  have hdiscovered : Discovered m units { files := t } prepared :=
    discovered_of_prepare hwell hnamed h.prepare
  have hwell' := hdiscovered.files.wellFormed hwell
  have hcompiled := compiled_of_mapM hdiscovered hwell' (mapM_of_compileAll h.compileAll)
  have hnoted := noted_of_compiled hdiscovered rfl hcompiled
  have hhome : built.files.home = t.home :=
    hcompiled.same.forth.home_eq.trans hdiscovered.files.home_eq
  have hlocate := (hdiscovered.dest.mono hcompiled.same.forth).locate hdest
  rw [hhome] at hlocate
  exact ⟨hdiscovered, hcompiled, hnoted,
    parentsListed_of_writeParents hcompiled.wellFormed hlocate hnoted h.writeParents⟩

end

/-- The result of a unit whose source is empty. -/
def emptyResult (unit : SourceFile) : UnitResult :=
  { file := some unit.path.toText, rust := some [], diagnostics := [] }

theorem compileUnit_of_empty {claims : Claims} {unit : SourceFile} {s s' : Session}
    (hholder : m.otherHolder? claims unit = none)
    (htext : sourceText? s.files unit.path = some [])
    (hstore : (store (m.outputPath unit) (emptyResult unit)).run
      { s with children := s.children.record (m.outputPath unit).parent (stem unit.path) } =
        .ok () s') :
    (m.compileUnit claims unit).run s = .ok (emptyResult unit) s' :=
  compileUnit_of_compileSource hholder htext (compileSource_nil ..) hstore

theorem compileAll_of_jobs {units : List SourceFile} (hjobs : ¬ 1 < m.options.jobs) :
    m.compileAll units = units.mapM (m.compileUnit (m.claims units)) := by
  rw [compileAll, if_neg hjobs]

theorem run_mapM_cons {α β : Type} {part : α → Run β} {a : α} {as : List α} {b : β} {bs : List β}
    {s s' s'' : Session} (h : (part a).run s = .ok b s') (h' : (as.mapM part).run s' = .ok bs s'') :
    ((a :: as).mapM part).run s = .ok (b :: bs) s'' := by
  rw [List.mapM_cons]
  exact run_bind_eq_ok_iff.mpr ⟨b, s', h, run_bind_eq_ok_iff.mpr ⟨bs, s'', h', rfl⟩⟩

theorem run_writeParents_of_singleton {s : Session} {directory : Path}
    (h : s.children.directories = [directory]) :
    m.writeParents.run s = (m.writeParent directory).run s := by
  have hsorted : s.children.directories.mergeSort writesBefore = [directory] := by
    rw [h, List.mergeSort_singleton]
  rw [writeParents, EStateM.run_bind, EStateM.run_get]
  dsimp only
  rw [hsorted, List.forM_eq_forM, List.forM_cons, List.forM_nil, bind_pure_unit]

theorem run_writeParents_of_pair {s : Session} {first second : Path}
    (h : s.children.directories = [first, second]) (hbefore : writesBefore first second = false) :
    m.writeParents.run s = (do m.writeParent second; m.writeParent first).run s := by
  have hsorted : s.children.directories.mergeSort writesBefore = [second, first] := by
    rw [h]
    simp [List.mergeSort, hbefore]
  rw [writeParents, EStateM.run_bind, EStateM.run_get]
  dsimp only
  rw [hsorted, List.forM_eq_forM, List.forM_cons, List.forM_cons, List.forM_nil, bind_pure_unit]

end ModuleTree

end HostBindings

import HostBindings.ModuleTree.Layout
import HostBindings.Proofs.IdentifierLaws
import HostBindings.Proofs.TextLaws

/-!
Where the path of a specifier leads among the modules of a tree. A unit is a module below the
modules of its directories; the path of a specifier that leaves the unit once ends at the module of
the file that the specifier denotes, if cutting off file endings keeps the names of the modules that
it enters.
-/

namespace HostBindings

theorem Identifier.rustName_not_mem_keywords (raw : Text) : rustName raw ∉ keywords := by
  intro hkeyword
  rcases isRust_rustName raw with ⟨_, hfree⟩ | ⟨word, _, hword⟩
  · exact hfree hkeyword
  · have hbare := bareName_of_isWord (isWord_of_mem_keywords hkeyword)
    rw [hword, bareName_rawMark_append] at hbare
    have hlength := congrArg List.length hbare
    simp only [rawMark, Text.ofString, List.length_append, List.length_map] at hlength
    simp at hlength

/-- The module of a unit: its directories and then the unit itself, each by its module name. -/
def SourceFile.modulePath (options : Options) (unit : SourceFile) : List Text :=
  unit.directory.map options.scopeName ++ [options.scopeName (ModuleTree.stem unit.path)]

namespace Specifier

/-- The module that a path leads to: `super` leaves a module, every other segment enters one. -/
def enter (module : List Text) : List Text → Option (List Text)
  | [] => some module
  | segment :: rest =>
    if segment = "super" then
      if module = [] then none else enter module.dropLast rest
    else enter (module ++ [segment]) rest

/-- The place that segments lead to as a file path: the directories of the start that are kept, and
the names that are entered after them. No way leads out of the tree. -/
def follow (kept entered : List Text) : List Text → Option (List Text × List Text)
  | [] => some (kept, entered)
  | segment :: rest =>
    if segment = [] || segment = "." then follow kept entered rest
    else if segment = ".." then
      if entered ≠ [] then follow kept entered.dropLast rest
      else if kept ≠ [] then follow kept.dropLast [] rest
      else none
    else follow kept (entered ++ [segment]) rest

/-- The ways to write a source file in a specifier, by its name without the ending. -/
def writtenNames (name : Text) : List Text :=
  [name, name ++ Text.ofString ".js", name ++ Text.ofString ".ts", name ++ ModuleTree.sourceEnding]

/-- A relative specifier that denotes the file of `v` from the directory of `u`: it keeps some
directories of `u`, enters others and then the file. -/
structure Denotes (u v : SourceFile) (specifier : Text) (kept entered : List Text)
    (name written : Text) : Prop where
  relative : isRelative specifier = true
  follow_eq : follow u.directory [] (specifier.split '/') = some (kept, entered ++ [written])
  directory_eq : kept ++ entered = v.directory
  name_eq : v.path.name = name ++ ModuleTree.sourceEnding
  written_mem : written ∈ writtenNames name

/-- Whether the dot segments leave the unit just once: a single `.`, or `..` alone. -/
def leavesOnce (segments : List Text) : Bool :=
  (segments.count (Text.ofString ".") = 1 && !segments.contains (Text.ofString "..")) ||
    (!segments.contains (Text.ofString ".") && segments.contains (Text.ofString ".."))

theorem scopeName_ne_super (suffix raw : Text) :
    Identifier.scopeName suffix raw ≠ Text.ofString "super" := by
  intro h
  apply Identifier.rustName_not_mem_keywords (raw ++ suffix)
  rw [← Identifier.scopeName, h]
  decide

/-- Once the unit is left, the path of the segments follows them as a file path. -/
theorem enter_pathOf (suffix : Text) (climbed : Bool) {segments : List Text}
    (hdot : Text.ofString "." ∉ segments)
    (hclimbed : climbed = true ∨ Text.ofString ".." ∉ segments)
    {kept entered kept' entered' : List Text}
    (h : follow kept entered segments = some (kept', entered')) :
    enter (kept.map (Identifier.scopeName suffix) ++
        entered.map fun segment => Identifier.scopeName suffix (stem segment))
      (pathOf suffix climbed segments) =
      some (kept'.map (Identifier.scopeName suffix) ++
        entered'.map fun segment => Identifier.scopeName suffix (stem segment)) := by
  induction segments generalizing kept entered with
  | nil =>
      obtain ⟨rfl, rfl⟩ := Prod.mk.inj (Option.some.inj h)
      rfl
  | cons segment rest ih =>
      have hsegment : segment ≠ Text.ofString "." := Ne.symm (List.ne_of_not_mem_cons hdot)
      have hrest : Text.ofString "." ∉ rest := List.not_mem_of_not_mem_cons hdot
      have hlater : climbed = true ∨ Text.ofString ".." ∉ rest :=
        hclimbed.imp_right fun hfree hmem => hfree (List.mem_cons_of_mem segment hmem)
      rw [follow] at h
      rw [pathOf]
      split at h
      · rename_i hstays
        have hempty : segment = [] := by simpa [hsegment] using hstays
        rw [if_pos hempty]
        exact ih hrest hlater h
      · rename_i hmoves
        simp only [Bool.or_eq_true, decide_eq_true_eq, not_or] at hmoves
        rw [if_neg hmoves.1, if_neg hmoves.2]
        split at h
        · rename_i hup
          have htrue : climbed = true := by
            rcases hclimbed with htrue | hfree
            · exact htrue
            · exact absurd (hup ▸ List.mem_cons_self) hfree
          rw [if_pos hup, if_pos htrue, enter, if_pos rfl]
          subst htrue
          -- names that were entered are left first, then directories of the unit
          split at h
          · rename_i hentered
            rw [if_neg (by simp [hentered]),
              List.dropLast_append_of_ne_nil (by simpa using hentered), ← List.map_dropLast]
            exact ih hrest hlater h
          · rename_i hentered
            obtain rfl : entered = [] := Decidable.not_not.mp hentered
            split at h
            · rename_i hkept
              rw [if_neg (by simpa using hkept), List.map_nil, List.append_nil,
                ← List.map_dropLast]
              simpa using ih hrest hlater h
            · cases h
        · rename_i hname
          rw [if_neg hname, enter, if_neg (scopeName_ne_super suffix _)]
          simpa using ih hrest hlater h

theorem exists_segments_of_isRelative {specifier : Text} (h : isRelative specifier = true) :
    (∃ rest, specifier.split '/' = Text.ofString "." :: rest) ∨
      ∃ rest, specifier.split '/' = Text.ofString ".." :: rest := by
  have hone : CodePoint.ofChar '/' ∉ Text.ofString "." := by decide
  have htwo : CodePoint.ofChar '/' ∉ Text.ofString ".." := by decide
  simp only [isRelative, Text.startsWith, Bool.or_eq_true, decide_eq_true_eq,
    List.isPrefixOf_iff_prefix] at h
  rcases h with ((rfl | rfl) | ⟨rest, rfl⟩) | ⟨rest, rfl⟩
  · exact Or.inl ⟨[], Text.split_eq_singleton hone⟩
  · exact Or.inr ⟨[], Text.split_eq_singleton htwo⟩
  · exact Or.inl ⟨_, Text.split_append_cons hone rest⟩
  · exact Or.inr ⟨_, Text.split_append_cons htwo rest⟩

/-- A specifier that leaves the unit once leads to the kept directories and the entered names. -/
theorem enter_modulePath (options : Options) (u : SourceFile) {specifier : Text}
    (hrelative : isRelative specifier = true) (honce : leavesOnce (specifier.split '/') = true)
    {kept entered : List Text}
    (h : follow u.directory [] (specifier.split '/') = some (kept, entered)) :
    enter (u.modulePath options) (options.specifierPath specifier) =
      some (kept.map options.scopeName ++
        entered.map fun segment => options.scopeName (stem segment)) := by
  simp only [leavesOnce, Bool.or_eq_true, Bool.and_eq_true, decide_eq_true_eq, Bool.not_eq_true',
    List.contains_eq_mem, decide_eq_false_iff_not] at honce
  rw [Options.specifierPath, path]
  rcases exists_segments_of_isRelative hrelative with ⟨rest, hrest⟩ | ⟨rest, hrest⟩
  · rw [hrest] at honce h ⊢
    obtain ⟨hcount, hup⟩ : (Text.ofString "." :: rest).count (Text.ofString ".") = 1 ∧
        Text.ofString ".." ∉ Text.ofString "." :: rest :=
      honce.resolve_right fun hno => hno.1 List.mem_cons_self
    have hdot : Text.ofString "." ∉ rest := by
      rw [List.count_cons_self, Nat.add_eq_right, List.count_eq_zero] at hcount
      exact hcount
    rw [pathOf, if_neg (by decide), if_pos rfl, enter, if_pos rfl,
      if_neg (by simp [SourceFile.modulePath]), SourceFile.modulePath, List.dropLast_concat]
    have hfollow : follow u.directory [] rest = some (kept, entered) := by
      simpa [follow] using h
    have hlead := enter_pathOf options.moduleSuffix false hdot
      (Or.inr fun hmem => hup (List.mem_cons_of_mem _ hmem)) hfollow
    rwa [List.map_nil, List.append_nil] at hlead
  · rw [hrest] at honce h ⊢
    have hdot : Text.ofString "." ∉ rest := by
      rcases honce with ⟨_, hno⟩ | ⟨hno, _⟩
      · exact absurd List.mem_cons_self hno
      · exact fun hmem => hno (List.mem_cons_of_mem _ hmem)
    rw [follow, if_neg (by decide), if_pos rfl, if_neg (by simp)] at h
    split at h
    · rename_i hkept
      rw [pathOf, if_neg (by decide), if_neg (by decide), if_pos rfl, if_neg (by simp), enter,
        if_pos rfl, if_neg (by simp [SourceFile.modulePath]), SourceFile.modulePath,
        List.dropLast_concat, enter, if_pos rfl, if_neg (by simpa using hkept), ← List.map_dropLast]
      have hlead := enter_pathOf options.moduleSuffix true hdot (Or.inl rfl) h
      rwa [List.map_nil, List.append_nil] at hlead
    · cases h

theorem stem_of_dot_not_mem {name : Text} (h : CodePoint.ofChar '.' ∉ name) : stem name = name := by
  have hnone : (extensions.find? fun ending =>
      name.endsWith ending && ending.length < name.length) = none := by
    rw [List.find?_eq_none]
    intro ending hending hmatch
    have hdots : (extensions.all fun ending => ending.contains (CodePoint.ofChar '.')) = true := rfl
    have hdot : CodePoint.ofChar '.' ∈ ending := by
      simpa using List.all_eq_true.mp hdots ending hending
    rw [Bool.and_eq_true, Text.endsWith, List.isSuffixOf_iff_suffix] at hmatch
    exact h (hmatch.1.subset hdot)
  rw [stem, hnone]

theorem stem_append {name ending : Text} (before after : List Text)
    (hlist : extensions = before ++ ending :: after) (hne : name ≠ [])
    (hbefore : ∀ other ∈ before, (name ++ ending).endsWith other = false) :
    stem (name ++ ending) = name := by
  have hfits : (name ++ ending).endsWith ending = true := by
    rw [Text.endsWith, List.isSuffixOf_iff_suffix]
    exact List.suffix_append name ending
  have hlonger : ending.length < (name ++ ending).length := by
    have hpos := List.length_pos_iff.mpr hne
    rw [List.length_append]
    omega
  have hfirst : (extensions.find? fun other =>
      (name ++ ending).endsWith other && other.length < (name ++ ending).length) = some ending := by
    rw [hlist, List.find?_append, List.find?_eq_none.mpr, Option.none_or,
      List.find?_cons_of_pos (by rw [hfits, decide_eq_true hlonger]; rfl)]
    intro other hother
    simp [hbefore other hother]
  rw [stem, hfirst]
  simp

theorem stem_of_mem_writtenNames {name written : Text} (hne : name ≠ [])
    (hdot : CodePoint.ofChar '.' ∉ name) (h : written ∈ writtenNames name) :
    stem written = name := by
  simp only [writtenNames, List.mem_cons, List.not_mem_nil, or_false] at h
  rcases h with rfl | rfl | rfl | rfl
  · exact stem_of_dot_not_mem hdot
  · refine stem_append [".d.ts", ".ts"] [] rfl hne ?_
    simp only [List.mem_cons, List.not_mem_nil, or_false, forall_eq_or_imp, forall_eq,
      Text.endsWith, List.isSuffixOf, List.reverse_append]
    exact ⟨rfl, rfl⟩
  · refine stem_append [".d.ts"] [".js"] rfl hne ?_
    rintro other hother
    obtain rfl := List.mem_singleton.mp hother
    rw [← Bool.not_eq_true, Text.endsWith, List.isSuffixOf, List.reverse_append,
      List.isPrefixOf_iff_prefix]
    rintro ⟨rest, hrest⟩
    have hreverse : Text.ofString "d." ++ rest = name.reverse :=
      List.append_cancel_left (show Text.ofString "st." ++ _ = Text.ofString "st." ++ _ from hrest)
    apply hdot
    rw [← List.mem_reverse, ← hreverse]
    exact List.mem_append_left rest (by decide)
  · exact stem_append [] [".ts", ".js"] rfl hne (by simp)

theorem moduleStem_of_name_eq {unit : SourceFile} {name : Text}
    (hname : unit.path.name = name ++ ModuleTree.sourceEnding)
    (hdot : CodePoint.ofChar '.' ∉ name) : ModuleTree.stem unit.path = name := by
  have hending : ModuleTree.sourceEnding = CodePoint.ofChar '.' :: Text.ofString "d.ts" := rfl
  rw [ModuleTree.stem, hname, hending, Text.split_append_cons hdot, List.headD_cons]

/-- A relative specifier that leaves the unit once leads to the module of the file that it denotes
just if the names that it enters, cut back to their stems, have the names of the modules there. It
does so whenever the directories that it enters are not written like files and the name of the file
has no point before its ending. -/
theorem specifierPath_reaches (options : Options) {u v : SourceFile} {specifier : Text}
    {kept entered : List Text} {name written : Text}
    (h : Denotes u v specifier kept entered name written)
    (honce : leavesOnce (specifier.split '/') = true) :
    (enter (u.modulePath options) (options.specifierPath specifier) = some (v.modulePath options) ↔
      (∀ d ∈ entered, options.scopeName (stem d) = options.scopeName d) ∧
        options.scopeName (stem written) = options.scopeName (ModuleTree.stem v.path)) ∧
    ((∀ d ∈ entered, stem d = d) → name ≠ [] → CodePoint.ofChar '.' ∉ name →
      enter (u.modulePath options) (options.specifierPath specifier) =
        some (v.modulePath options)) := by
  have hreached := enter_modulePath options u h.relative honce h.follow_eq
  have hiff : enter (u.modulePath options) (options.specifierPath specifier) =
      some (v.modulePath options) ↔
      (∀ d ∈ entered, options.scopeName (stem d) = options.scopeName d) ∧
        options.scopeName (stem written) = options.scopeName (ModuleTree.stem v.path) := by
    rw [hreached, Option.some_inj, SourceFile.modulePath, ← h.directory_eq, List.map_append,
      List.map_append, List.append_assoc, List.append_cancel_left_eq, List.map_singleton]
    constructor
    · intro hsame
      obtain ⟨hdirectories, hfile⟩ := List.append_inj' hsame rfl
      exact ⟨List.map_inj_left.mp hdirectories, List.singleton_inj.mp hfile⟩
    · rintro ⟨hdirectories, hfile⟩
      rw [List.map_inj_left.mpr hdirectories, hfile]
  refine ⟨hiff, ?_⟩
  intro hdirectories hne hdot
  refine hiff.mpr ⟨fun d hd => congrArg options.scopeName (hdirectories d hd), ?_⟩
  rw [stem_of_mem_writtenNames hne hdot h.written_mem, moduleStem_of_name_eq h.name_eq hdot]

/-- The unit at a place below the root of a tree of sources. -/
def unitAt (place : List Text) : SourceFile :=
  ⟨Path.below ⟨[], ["src"]⟩ place, place.dropLast⟩

/-- A specifier that climbs, enters a directory and names a file by another ending. -/
theorem listModule_reaches :
    Denotes (unitAt ["app", "main.d.ts"]) (unitAt ["lib", "list.d.ts"]) "../lib/list.js"
        [] ["lib"] "list" "list.js" ∧
      leavesOnce (Text.split '/' "../lib/list.js") = true ∧
      enter ((unitAt ["app", "main.d.ts"]).modulePath .standard)
          (Options.standard.specifierPath "../lib/list.js") =
        some ((unitAt ["lib", "list.d.ts"]).modulePath .standard) := by
  have h : Denotes (unitAt ["app", "main.d.ts"]) (unitAt ["lib", "list.d.ts"]) "../lib/list.js"
      [] ["lib"] "list" "list.js" :=
    ⟨by decide, by decide, by decide, by decide, by decide⟩
  have honce : leavesOnce (Text.split '/' "../lib/list.js") = true := by decide
  exact ⟨h, honce,
    (specifierPath_reaches .standard h honce).2 (by decide) (by decide) (by decide)⟩

/-- A file name with a point leads to a module that the tree does not have, and so does a path that
leaves the unit twice. -/
theorem dottedModule_not_reached :
    (Denotes (unitAt ["index.d.ts"]) (unitAt ["jquery.min.d.ts"]) "./jquery.min"
        [] [] "jquery.min" "jquery.min" ∧
      enter ((unitAt ["index.d.ts"]).modulePath .standard)
          (Options.standard.specifierPath "./jquery.min") ≠
        some ((unitAt ["jquery.min.d.ts"]).modulePath .standard)) ∧
    (Denotes (unitAt ["app", "ui", "main.d.ts"]) (unitAt ["app", "list.d.ts"]) "./../list"
        ["app"] [] "list" "list" ∧
      enter ((unitAt ["app", "ui", "main.d.ts"]).modulePath .standard)
          (Options.standard.specifierPath "./../list") ≠
        some ((unitAt ["app", "list.d.ts"]).modulePath .standard)) :=
  ⟨⟨⟨by decide, by decide, by decide, by decide, by decide⟩, by decide⟩,
    ⟨⟨by decide, by decide, by decide, by decide, by decide⟩, by decide⟩⟩

end Specifier

end HostBindings

import HostBindings.Proofs.OrderedSets
import HostBindings.Proofs.UnitTasks
import Mathlib.Data.List.Nodup

/-!
What a run finds before it compiles: every source once, with the directories of its output made, and
every directory noted as a module of the one above it.
-/

namespace HostBindings

open FileTree (Enterable Extends WellFormed)
open FileTree.Change (Made)

/-- A name that a file or a directory can have. -/
def Path.IsName (name : Text) : Prop :=
  isPart name = true ∧ name ≠ climb ∧ CodePoint.ofChar '/' ∉ name ∧ name.all isAllowed = true

instance (name : Text) : Decidable (Path.IsName name) := inferInstanceAs (Decidable (_ ∧ _))

namespace FileTree

/-- Whether everything in a tree has a name. -/
def Named (t : FileTree) : Prop := ∀ entry ∈ t.entries, ∀ name ∈ entry.1, Path.IsName name

instance (t : FileTree) : Decidable t.Named :=
  inferInstanceAs (Decidable (∀ entry ∈ t.entries, ∀ name ∈ entry.1, Path.IsName name))

theorem exists_node?_iff {t : FileTree} {place : Place} (hplace : place ≠ []) :
    (∃ node, t.node? place = some node) ↔ ∃ node, (place, node) ∈ t.entries := by
  rw [← Option.isSome_iff_exists, node?, if_neg hplace, List.lookup_isSome_iff]
  constructor
  · rintro ⟨⟨other, node⟩, hmem, heq⟩
    obtain rfl : place = other := by simpa using heq
    exact ⟨node, hmem⟩
  · rintro ⟨node, hmem⟩
    exact ⟨_, hmem, by simp⟩

theorem Named.node? {t : FileTree} (h : t.Named) {place : Place} {node : FileNode}
    (hnode : t.node? place = some node) : ∀ name ∈ place, Path.IsName name := by
  intro name hname
  obtain ⟨node', hmem⟩ := (exists_node?_iff (List.ne_nil_of_mem hname)).mp ⟨node, hnode⟩
  exact h _ hmem name hname

theorem Named.enterable {t : FileTree} (h : t.Named) : t.Enterable := by
  intro place node hnode name hname
  obtain ⟨_, hclimb, _, hallowed⟩ := h.node? hnode name hname
  exact ⟨hclimb, hallowed⟩

theorem wellFormed_of_entries {t : FileTree} (hhome : t.node? t.home = some .directory)
    (hentries : ∀ entry ∈ t.entries, t.node? entry.1.dropLast = some .directory) :
    t.WellFormed := by
  refine ⟨hhome, fun place node hnode => ?_⟩
  by_cases hplace : place = []
  · rw [hplace]
    rfl
  · obtain ⟨_, hmem⟩ := (exists_node?_iff hplace).mp ⟨node, hnode⟩
    exact hentries _ hmem

theorem nodup_placesBelow (t : FileTree) (p : Path) : (t.placesBelow p).Nodup := by
  rw [placesBelow]
  split
  · exact List.nodup_nil
  · exact Ordered.nodup_ofList _

theorem mem_placesBelow {t : FileTree} {p : Path} {place : Place}
    (hlocate : t.locate p = .ok place) (rest : Place) :
    rest ∈ t.placesBelow p ↔ rest ≠ [] ∧ ∃ node, t.node? (place ++ rest) = some node := by
  rw [placesBelow, hlocate]
  dsimp only
  rw [Ordered.mem_ofList, List.mem_filterMap]
  constructor
  · rintro ⟨⟨found, node⟩, hmem, hrest⟩
    rw [Option.ite_none_right_eq_some, Bool.and_eq_true, List.isPrefixOf_iff_prefix,
      decide_eq_true_eq] at hrest
    obtain ⟨⟨⟨tail, rfl⟩, hlength⟩, hdrop⟩ := hrest
    obtain rfl : tail = rest := by simpa using hdrop
    have hne : tail ≠ [] := by
      rintro rfl
      simp at hlength
    exact ⟨hne, (exists_node?_iff (by simp [hne])).mpr ⟨node, hmem⟩⟩
  · rintro ⟨hne, hnode⟩
    obtain ⟨node, hmem⟩ := (exists_node?_iff (by simp [hne])).mp hnode
    refine ⟨_, hmem, ?_⟩
    have hlength : 0 < rest.length := List.length_pos_of_ne_nil hne
    simp [hlength]

end FileTree

namespace ModuleTree

variable {m : ModuleTree}

/-- The unit of a source file at a place below the source. -/
def unitAt (m : ModuleTree) (place : Place) : SourceFile :=
  { path := m.source.below place, directory := place.dropLast }

/-- Whether there is a source file at a place below the source. -/
def isUnitAt (t : FileTree) (source place : Place) : Bool :=
  t.node? (source ++ place) != some .directory && (place.getLastD []).endsWith sourceEnding

/-- The first part of a run: the destination is made, and the units are found. -/
def prepare (m : ModuleTree) : Run (List SourceFile) := do
  Run.change (.makeDirectories m.dest)
  m.discover

theorem run_eq (m : ModuleTree) :
    m.run = (do
      let units ← m.prepare
      let results ← m.compileAll units
      m.writeParents
      return results) := by
  simp only [run, prepare, bind_assoc]

theorem dropLast_concat_getLastD {place : Place} (hplace : place ≠ []) :
    place.dropLast ++ [place.getLastD []] = place := by
  rw [List.getLastD_eq_getLast?, List.getLast?_eq_getLast_of_ne_nil hplace]
  exact List.dropLast_concat_getLast hplace

theorem name_below (p : Path) {place : Place} (hplace : place ≠ []) :
    (p.below place).name = place.getLastD [] := by
  rw [Path.name, Path.below, ← List.dropLast_concat_getLast hplace, ← List.append_assoc,
    List.getLastD_concat, List.getLastD_concat]

theorem parent_below (p : Path) {place : Place} (hplace : place ≠ []) :
    (p.below place).parent = p.below place.dropLast := by
  simp [Path.parent, Path.below, List.dropLast_append_of_ne_nil hplace]

section Visits

variable {t : FileTree} {source : Place}

theorem visit_eq_ok {s s' : Session} (hwell : s.files.WellFormed) (henter : s.files.Enterable)
    (hlocate : s.files.locate m.source = .ok source) {place : Place} (hne : place ≠ [])
    {node : FileNode} (hnode : s.files.node? (source ++ place) = some node)
    {found : List SourceFile} (h : (m.visit place).run s = .ok found s') :
    s.files.Extends s'.files ∧
      found = ([place].filter (isUnitAt s.files source)).map m.unitAt ∧
      (node = .directory → Made s'.files (m.dest.below place)) ∧
      ∀ c, c ∈ s'.children ↔ c ∈ s.children ∨
        node = .directory ∧ c = (m.dest.below place.dropLast, place.getLastD []) := by
  obtain ⟨isDirectory, s₁, hask, h⟩ := run_bind_eq_ok_iff.mp h
  obtain ⟨hfound, hsame⟩ := Run.ask_eq_ok_iff.mp hask
  rw [hsame] at h
  have hpath : s.files.locate (m.source.below place) = .ok (source ++ place) := by
    rcases henter.locate_below hwell hlocate hnode with hok | hlong
    · exact hok
    · rw [FileTree.isDirectory, FileTree.look_eq, hlong] at hfound
      cases hfound
  have hdirectory : isDirectory = true ↔ node = .directory := by
    have hlook : s.files.look (m.source.below place) = .ok (some node) := by
      simp only [FileTree.look_eq, hpath, hnode]
    rw [FileTree.isDirectory, hlook] at hfound
    rw [← Except.ok.inj hfound]
    simp
  cases isDirectory with
  | true =>
      obtain rfl := hdirectory.mp rfl
      obtain ⟨_, s₁, hchange, h⟩ := run_bind_eq_ok_iff.mp h
      obtain ⟨files, hmake, rfl⟩ := Run.change_eq_ok_iff.mp hchange
      obtain ⟨hextends, hmade⟩ := FileTree.Change.makeDirectories_eq_ok hmake
      cases h
      refine ⟨hextends, ?_, fun _ => hmade, fun c => ?_⟩
      · simp [isUnitAt, hnode]
      · rw [Children.mem_record, parent_below _ hne, name_below _ hne]
        simp
  | false =>
      have hfile : node ≠ .directory := by
        intro heq
        cases hdirectory.mpr heq
      have hkept : found = ([place].filter (isUnitAt s.files source)).map m.unitAt ∧ s' = s := by
        have hunit : isUnitAt s.files source place =
            (place.getLastD []).endsWith sourceEnding := by
          have hother : (some node != some FileNode.directory) = true := by simpa using hfile
          rw [isUnitAt, hnode, hother, Bool.true_and]
        rw [List.filter_cons, hunit, List.filter_nil]
        simp only [Bool.false_eq_true, if_false, name_below _ hne] at h
        split at h
        · rename_i hending
          cases h
          rw [if_pos hending]
          exact ⟨rfl, rfl⟩
        · rename_i hending
          cases h
          rw [if_neg hending]
          exact ⟨rfl, rfl⟩
      obtain ⟨hunits, rfl⟩ := hkept
      exact ⟨.refl _, hunits, fun heq => absurd heq hfile, by simp [hfile]⟩

/-- What the visits of places do. The tree only gains directories meanwhile, so that what is found
is what the tree `t` of the beginning holds. -/
theorem mapM_visit_eq_ok (hwell : t.WellFormed) (henter : t.Enterable)
    (hlocate : t.locate m.source = .ok source) {places : List Place}
    (hplaces : ∀ place ∈ places, place ≠ [] ∧ ∃ node, t.node? (source ++ place) = some node)
    {s s' : Session} (hstart : t.Extends s.files) {found : List (List SourceFile)}
    (h : (places.mapM m.visit).run s = .ok found s') :
    s.files.Extends s'.files ∧
      found.flatten = (places.filter (isUnitAt t source)).map m.unitAt ∧
      (∀ place ∈ places, t.node? (source ++ place) = some .directory →
        Made s'.files (m.dest.below place)) ∧
      ∀ c, c ∈ s'.children ↔ c ∈ s.children ∨ ∃ place ∈ places,
        t.node? (source ++ place) = some .directory ∧
          c = (m.dest.below place.dropLast, place.getLastD []) := by
  induction places generalizing s found with
  | nil =>
      cases h
      exact ⟨.refl _, rfl, fun _ hplace => absurd hplace List.not_mem_nil, by simp⟩
  | cons place rest ih =>
      rw [List.mapM_cons] at h
      obtain ⟨first, s₁, hfirst, h⟩ := run_bind_eq_ok_iff.mp h
      obtain ⟨others, s₂, hrest, h⟩ := run_bind_eq_ok_iff.mp h
      cases h
      obtain ⟨hne, node, hnode⟩ := hplaces place List.mem_cons_self
      have hnow := hstart.node _ _ hnode
      obtain ⟨hextends, hunits, hmade, hchildren⟩ :=
        visit_eq_ok (hstart.wellFormed hwell) (hstart.enterable hwell henter)
          (hstart.keepsDirectories.locate hlocate) hne hnow hfirst
      obtain ⟨hextends', hunits', hmade', hchildren'⟩ :=
        ih (fun other hother => hplaces other (List.mem_cons_of_mem _ hother))
          (hstart.trans hextends) hrest
      refine ⟨hextends.trans hextends', ?_, ?_, ?_⟩
      · have hsame : isUnitAt s.files source place = isUnitAt t source place := by
          rw [isUnitAt, isUnitAt, hnow, hnode]
        rw [List.flatten_cons, hunits, hunits', ← List.map_append, List.filter_cons, hsame,
          List.filter_nil, List.filter_cons]
        split <;> rfl
      · intro other hother hdirectory
        rcases List.mem_cons.mp hother with rfl | hother
        · rw [hnode] at hdirectory
          exact (hmade (Option.some.inj hdirectory)).mono hextends'.keepsDirectories
        · exact hmade' other hother hdirectory
      · intro c
        rw [hchildren', hchildren, or_assoc]
        simp only [List.mem_cons, exists_eq_or_imp, hnode, Option.some.injEq]

end Visits

/-- What is known once the units are found. -/
structure Discovered (m : ModuleTree) (units : List SourceFile) (before after : Session) :
    Prop where
  files : before.files.Extends after.files
  dest : Made after.files m.dest
  nodup : (units.map SourceFile.path).Nodup
  made : ∀ unit ∈ units, Made after.files (m.dest.below unit.directory)
  source_ending : ∀ unit ∈ units, unit.path.name.endsWith sourceEnding = true
  name : ∀ unit ∈ units, Path.IsName unit.path.name
  directory : ∀ unit ∈ units, ∀ name ∈ unit.directory, Path.IsName name
  noted : ∀ unit ∈ units, ∀ above name, above ++ [name] <+: unit.directory →
    (m.dest.below above, name) ∈ after.children
  mem_children : ∀ c ∈ after.children, c ∈ before.children ∨ ∃ above name,
    c = (m.dest.below above, name) ∧ ∀ part ∈ above ++ [name], Path.IsEnterable part
  kept : ∀ c ∈ before.children, c ∈ after.children
  closed : ∀ above name inner, (m.dest.below (above ++ [name]), inner) ∈ after.children →
    (m.dest.below (above ++ [name]), inner) ∈ before.children ∨
      (m.dest.below above, name) ∈ after.children

theorem exists_place_eq_concat (home : Place) {p : Path} (hparts : p.parts ≠ [])
    (hclimb : p.name ≠ Path.climb) : ∃ above, p.place home = above ++ [p.name] := by
  have hname : p.name = p.parts.getLast hparts := by
    simp [Path.name, List.getLast?_eq_getLast_of_ne_nil hparts]
  rw [Path.place, ← List.dropLast_concat_getLast hparts, List.foldl_append, List.foldl_cons,
    List.foldl_nil, ← hname, Path.advance, if_neg hclimb]
  exact ⟨_, rfl⟩

theorem exists_place_eq_concat_of_endsWith (home : Place) {p : Path}
    (h : p.name.endsWith sourceEnding = true) : ∃ above, p.place home = above ++ [p.name] := by
  refine exists_place_eq_concat home ?_ ?_
  · intro hparts
    rw [Path.name, hparts] at h
    exact absurd h (by decide)
  · intro hclimb
    rw [hclimb] at h
    exact absurd h (by decide)

theorem unitAt_injective (m : ModuleTree) :
    Function.Injective fun place => (m.unitAt place).path := by
  intro place place' h
  exact List.append_cancel_left (congrArg Path.parts h)

section Found

variable {t : FileTree} {source : Place}

/-- What the name of a place starts with names directories. -/
theorem node?_of_prefix_dropLast (hwell : t.WellFormed) {above place : Place} (hne : place ≠ [])
    (hstarts : above <+: place.dropLast) {node : FileNode}
    (hnode : t.node? (source ++ place) = some node) :
    t.node? (source ++ above) = some .directory := by
  obtain ⟨rest, hrest⟩ := hstarts
  have hplace : place = above ++ (rest ++ [place.getLast hne]) := by
    rw [← List.append_assoc, hrest]
    exact (List.dropLast_concat_getLast hne).symm
  have hbelow : t.node? (source ++ above ++ (rest ++ [place.getLast hne])) ≠ none := by
    rw [List.append_assoc, ← hplace, hnode]
    exact Option.some_ne_none node
  exact hwell.directory_above (by simp) hbelow

theorem exists_file_of_mem_units (hlocate : t.locate m.source = .ok source) {unit : SourceFile}
    (hunit : unit ∈ ((t.placesBelow m.source).filter (isUnitAt t source)).map m.unitAt) :
    ∃ place bytes, unit = m.unitAt place ∧ place ≠ [] ∧
      t.node? (source ++ place) = some (.file bytes) ∧
      (place.getLastD []).endsWith sourceEnding = true := by
  obtain ⟨place, hplace, rfl⟩ := List.mem_map.mp hunit
  rw [List.mem_filter, FileTree.mem_placesBelow hlocate, isUnitAt, Bool.and_eq_true,
    bne_iff_ne] at hplace
  obtain ⟨⟨hne, node, hnode⟩, hother, hending⟩ := hplace
  cases node with
  | directory => exact absurd hnode hother
  | file bytes => exact ⟨place, bytes, rfl, hne, hnode, hending⟩

theorem nodup_units (m : ModuleTree) (t : FileTree) (source : Place) :
    ((((t.placesBelow m.source).filter (isUnitAt t source)).map m.unitAt).map
      SourceFile.path).Nodup := by
  rw [List.map_map]
  exact ((t.nodup_placesBelow m.source).filter _).map (unitAt_injective m)

theorem discovered_of_visits {s₀ s : Session} (hwell : s₀.files.WellFormed)
    (hnamed : s₀.files.Named) (hextends : s₀.files.Extends t) (hdest : Made t m.dest)
    (hlocate : t.locate m.source = .ok source) {found : List (List SourceFile)}
    (h : ((t.placesBelow m.source).mapM m.visit).run { s₀ with files := t } = .ok found s) :
    Discovered m found.flatten s₀ s := by
  have hwell' := hextends.wellFormed hwell
  have henter := hextends.enterable hwell hnamed.enterable
  have hplaces := FileTree.mem_placesBelow hlocate
  obtain ⟨hlater, hunits, hmade, hchildren⟩ :=
    mapM_visit_eq_ok hwell' henter hlocate (fun place => (hplaces place).mp) (.refl t) h
  have hnames : ∀ place bytes, t.node? (source ++ place) = some (.file bytes) →
      ∀ name ∈ place, Path.IsName name := fun place bytes hnode name hname =>
    hnamed.node? (hextends.node?_of_file hnode) name (List.mem_append_right source hname)
  have hdirectory : ∀ above name, t.node? (source ++ (above ++ [name])) = some .directory →
      (m.dest.below above, name) ∈ s.children := by
    intro above name hnode
    refine (hchildren _).mpr (Or.inr
      ⟨above ++ [name], (hplaces _).mpr ⟨by simp, _, hnode⟩, hnode, ?_⟩)
    rw [List.dropLast_concat, List.getLastD_concat]
  rw [hunits]
  refine ⟨hextends.trans hlater, hdest.mono hlater.keepsDirectories, nodup_units m t source,
    ?made, ?source_ending, ?name, ?directory_name, ?noted, ?mem_children, ?kept, ?closed⟩
  case made =>
    intro unit hmem
    obtain ⟨place, bytes, rfl, hne, hnode, _⟩ := exists_file_of_mem_units hlocate hmem
    by_cases hroot : place.dropLast = []
    · change Made s.files (m.dest.below place.dropLast)
      rw [hroot, Path.below, List.append_nil]
      exact hdest.mono hlater.keepsDirectories
    · have habove := node?_of_prefix_dropLast hwell' hne List.prefix_rfl hnode
      exact hmade _ ((hplaces _).mpr ⟨hroot, _, habove⟩) habove
  case source_ending =>
    intro unit hmem
    obtain ⟨place, bytes, rfl, hne, _, hending⟩ := exists_file_of_mem_units hlocate hmem
    rw [unitAt, name_below _ hne]
    exact hending
  case name =>
    intro unit hmem
    obtain ⟨place, bytes, rfl, hne, hnode, _⟩ := exists_file_of_mem_units hlocate hmem
    refine hnames place bytes hnode _ ?_
    rw [unitAt, name_below _ hne, List.getLastD_eq_getLast?, List.getLast?_eq_getLast_of_ne_nil hne]
    exact List.getLast_mem hne
  case directory_name =>
    intro unit hmem name hname
    obtain ⟨place, bytes, rfl, _, hnode, _⟩ := exists_file_of_mem_units hlocate hmem
    exact hnames place bytes hnode name (List.dropLast_subset _ hname)
  case noted =>
    intro unit hmem above name hstarts
    obtain ⟨place, bytes, rfl, hne, hnode, _⟩ := exists_file_of_mem_units hlocate hmem
    exact hdirectory above name (node?_of_prefix_dropLast hwell' hne hstarts hnode)
  case mem_children =>
    intro c hc
    refine ((hchildren c).mp hc).imp_right ?_
    rintro ⟨place, hplace, hnode, rfl⟩
    have hne := ((hplaces place).mp hplace).1
    refine ⟨place.dropLast, place.getLastD [], rfl, fun part hpart => ?_⟩
    rw [dropLast_concat_getLastD hne] at hpart
    exact henter _ _ hnode part (List.mem_append_right source hpart)
  case kept =>
    exact fun c hc => (hchildren c).mpr (Or.inl hc)
  case closed =>
    intro above name inner hmem
    refine ((hchildren _).mp hmem).imp_right ?_
    rintro ⟨place, hplace, hnode, heq⟩
    obtain ⟨hdest', rfl⟩ := Prod.mk.inj heq
    have habove : above ++ [name] = place.dropLast :=
      List.append_cancel_left (congrArg Path.parts hdest')
    have hne := ((hplaces place).mp hplace).1
    exact hdirectory above name
      (node?_of_prefix_dropLast hwell' hne (habove ▸ List.prefix_rfl) hnode)

end Found

theorem discovered_of_prepare {units : List SourceFile} {s₀ s : Session}
    (hwell : s₀.files.WellFormed) (hnamed : s₀.files.Named)
    (h : m.prepare.run s₀ = .ok units s) : Discovered m units s₀ s := by
  obtain ⟨_, s₁, hchange, h⟩ := run_bind_eq_ok_iff.mp h
  obtain ⟨t, hmake, rfl⟩ := Run.change_eq_ok_iff.mp hchange
  obtain ⟨hextends, hdest⟩ := FileTree.Change.makeDirectories_eq_ok hmake
  -- what holds if no unit was found
  have hnothing : Discovered m [] s₀ { s₀ with files := t } :=
    { files := hextends, dest := hdest, nodup := List.nodup_nil
      made := by simp, source_ending := by simp, name := by simp, directory := by simp
      noted := by simp, mem_children := fun _ => Or.inl, kept := fun _ => id
      closed := fun _ _ _ => Or.inl }
  obtain ⟨isFile, s₂, hask, h⟩ := run_bind_eq_ok_iff.mp h
  obtain ⟨hfile, rfl⟩ := Run.ask_eq_ok_iff.mp hask
  cases isFile with
  | true =>
      cases h
      split
      · rename_i hending
        obtain ⟨place, bytes, hlocate, hnode⟩ := FileTree.isFile_eq_true_iff.mp hfile
        have hname : Path.IsName m.source.name := by
          obtain ⟨above, habove⟩ := exists_place_eq_concat_of_endsWith t.home hending
          rw [FileTree.locate_eq_ok hlocate, habove] at hnode
          exact hnamed.node? (hextends.node?_of_file hnode) _ (by simp)
        refine { hnothing with nodup := ?_, made := ?_, source_ending := ?_, name := ?_,
                               directory := ?_, noted := ?_ }
        · exact List.nodup_singleton _
        · intro unit hunit
          rw [List.mem_singleton.mp hunit]
          simpa [Path.below] using hdest
        · intro unit hunit
          rw [List.mem_singleton.mp hunit]
          exact hending
        · intro unit hunit
          rw [List.mem_singleton.mp hunit]
          exact hname
        · intro unit hunit
          rw [List.mem_singleton.mp hunit]
          simp
        · intro unit hunit
          rw [List.mem_singleton.mp hunit]
          simp
      · exact hnothing
  | false =>
      obtain ⟨_, _, hfiles, h⟩ := run_bind_eq_ok_iff.mp h
      cases hfiles
      obtain ⟨found, s', hvisits, h⟩ := run_bind_eq_ok_iff.mp h
      cases h
      cases hlocate : t.locate m.source with
      | error e =>
          rw [FileTree.placesBelow, hlocate] at hvisits
          cases hvisits
          exact hnothing
      | ok source => exact discovered_of_visits hwell hnamed hextends hdest hlocate hvisits

end ModuleTree

end HostBindings

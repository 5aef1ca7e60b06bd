import HostBindings.Proofs.Discovery
import HostBindings.Proofs.EmptySources
import Mathlib.Algebra.GroupWithZero.Nat
import Mathlib.Data.List.Forall2
import Mathlib.Logic.Relation

/-!
Units in any order. However the steps of the units of a run are mixed, each unit ends with the same
result, and all of them together leave the same files and the same noted modules.
-/

namespace HostBindings

open FileTree.Change (Made)

namespace ModuleTree

variable {m : ModuleTree}

theorem isPart_append_moduleEnding (name : Text) : Path.isPart (name ++ moduleEnding) = true := by
  have hlength : 2 ≤ (name ++ moduleEnding).length := by
    rw [List.length_append]
    exact Nat.le_add_left_of_le (by decide)
  rw [Path.isPart, Bool.and_eq_true, bne_iff_ne, bne_iff_ne]
  constructor
  · intro h
    rw [h] at hlength
    exact absurd hlength (by decide)
  · intro h
    rw [h] at hlength
    exact absurd hlength (by decide)

theorem append_moduleEnding_ne_climb (name : Text) : name ++ moduleEnding ≠ Path.climb := by
  intro h
  have hlength := congrArg List.length h
  rw [List.length_append] at hlength
  exact absurd hlength (by
    have : moduleEnding.length = 3 := by decide
    have : Path.climb.length = 2 := by decide
    omega)

theorem outputPath_eq (m : ModuleTree) (unit : SourceFile) :
    m.outputPath unit = m.dest.below (unit.directory ++ [stem unit.path ++ moduleEnding]) := by
  rw [outputPath, Path.child, List.filter_cons, if_pos (isPart_append_moduleEnding _)]
  simp [Path.below]

theorem parent_outputPath (m : ModuleTree) (unit : SourceFile) :
    (m.outputPath unit).parent = m.dest.below unit.directory := by
  rw [outputPath_eq, parent_below _ (by simp), List.dropLast_concat]

theorem place_outputPath {unit : SourceFile} (h : Path.climb ∉ unit.directory) (home : Place) :
    (m.outputPath unit).place home =
      m.dest.place home ++ (unit.directory ++ [stem unit.path ++ moduleEnding]) := by
  rw [outputPath_eq, Path.place_below]
  rw [List.mem_append, List.mem_singleton]
  rintro (hdirectory | hname)
  · exact h hdirectory
  · exact append_moduleEnding_ne_climb _ hname.symm

theorem outputPath_eq_of_place {unit other : SourceFile} (h : Path.climb ∉ unit.directory)
    (h' : Path.climb ∉ other.directory) {home : Place}
    (hplace : (m.outputPath unit).place home = (m.outputPath other).place home) :
    m.outputPath unit = m.outputPath other := by
  rw [place_outputPath h, place_outputPath h'] at hplace
  rw [outputPath_eq, outputPath_eq, List.append_cancel_left hplace]

theorem append_moduleEnding_not_source (name : Text) :
    (name ++ moduleEnding).endsWith sourceEnding = false := by
  rw [Text.endsWith, Bool.eq_false_iff, ne_eq, List.isSuffixOf_iff_suffix]
  intro h
  obtain ⟨rest, hrest⟩ := List.reverse_prefix.mpr h
  rw [List.reverse_append] at hrest
  have hletter := congrArg (·[1]?) hrest
  rw [List.getElem?_append_left (by decide), List.getElem?_append_left (by decide)] at hletter
  exact absurd hletter (by decide)

theorem place_source_ne_place_outputPath {unit other : SourceFile}
    (hsource : unit.path.name.endsWith sourceEnding = true) (h : Path.climb ∉ other.directory)
    (home : Place) : unit.path.place home ≠ (m.outputPath other).place home := by
  obtain ⟨above, habove⟩ := exists_place_eq_concat_of_endsWith home hsource
  rw [habove, place_outputPath h, ← List.append_assoc]
  intro heq
  have hname := (List.append_inj_right' heq rfl)
  rw [List.singleton_inj] at hname
  rw [hname, append_moduleEnding_not_source] at hsource
  cases hsource

theorem lookup_claims (m : ModuleTree) (units : List SourceFile) (p : Path) :
    (m.claims units).lookup p =
      (units.find? fun unit => m.outputPath unit = p).map SourceFile.path := by
  have hfoldl : ∀ claims : Claims, (units.foldl m.claim claims).lookup p =
      (claims.lookup p).or
        ((units.find? fun unit => m.outputPath unit = p).map SourceFile.path) := by
    induction units with
    | nil => simp
    | cons unit rest ih =>
        intro claims
        rw [List.foldl_cons, ih, claim, List.find?_cons]
        by_cases hp : m.outputPath unit = p
        · subst hp
          cases hheld : claims.lookup (m.outputPath unit) <;>
            simp [hheld, List.lookup_append]
        · have hother : (p == m.outputPath unit) = false := by simpa using Ne.symm hp
          split <;> simp [hp, List.lookup_append, hother]
  rw [claims, hfoldl]
  rfl

theorem otherHolder?_eq_none_iff {units : List SourceFile} {unit : SourceFile}
    (hmem : unit ∈ units) :
    m.otherHolder? (m.claims units) unit = none ↔
      (m.claims units).lookup (m.outputPath unit) = some unit.path := by
  rw [otherHolder?, lookup_claims]
  cases hfind : units.find? fun other => decide (m.outputPath other = m.outputPath unit) with
  | none => simpa using List.find?_eq_none.mp hfind unit hmem
  | some holder => simp [Option.filter]

theorem path_eq_of_holders {units : List SourceFile} {unit other : SourceFile}
    (hunit : unit ∈ units) (hother : other ∈ units)
    (h : m.otherHolder? (m.claims units) unit = none)
    (h' : m.otherHolder? (m.claims units) other = none)
    (houtput : m.outputPath unit = m.outputPath other) : unit.path = other.path := by
  rw [otherHolder?_eq_none_iff hunit, houtput] at h
  rw [otherHolder?_eq_none_iff hother] at h'
  exact Option.some.inj (h.symm.trans h')

theorem exists_holder {units : List SourceFile} {unit : SourceFile} (hunit : unit ∈ units) :
    ∃ holder ∈ units, m.outputPath holder = m.outputPath unit ∧
      m.otherHolder? (m.claims units) holder = none := by
  cases hfind : units.find? fun other => decide (m.outputPath other = m.outputPath unit) with
  | none => simpa using List.find?_eq_none.mp hfind unit hunit
  | some holder =>
      have hmem := List.mem_of_find?_eq_some hfind
      have houtput : m.outputPath holder = m.outputPath unit := by
        simpa using List.find?_some hfind
      refine ⟨holder, hmem, houtput, ?_⟩
      rw [otherHolder?_eq_none_iff hmem, lookup_claims, houtput, hfind]
      rfl

namespace Task

/-- Whether the module of a unit was noted, if the unit holds its output. -/
def isNoted : Task → Bool
  | .claim => false
  | .note => false
  | _ => true

variable {claims : Claims} {unit : SourceFile} {task task' : Task} {t : FileTree} {s s' : Session}

theorem Stepped.isNoted_iff (h : Stepped m claims unit s task task' s')
    (hnone : m.otherHolder? claims unit = none) :
    task'.isNoted = true ↔ task.isNoted = true ∨ task = .note := by
  cases h with
  | taken holder htaken =>
      rw [htaken] at hnone
      cases hnone
  | compiled _ _ =>
      rw [storing]
      split <;> simp [isNoted]
  | _ => simp [isNoted]

/-- What a unit has noted after a step: what it had noted, or its module, if the step notes it. -/
theorem Stepped.noted_iff (h : Stepped m claims unit s task task' s')
    (hknows : task.Knows m claims t unit) {c : Path × Text} :
    (m.otherHolder? claims unit = none ∧ task'.isNoted = true ∧
        c = ((m.outputPath unit).parent, stem unit.path)) ↔
      (m.otherHolder? claims unit = none ∧ task.isNoted = true ∧
        c = ((m.outputPath unit).parent, stem unit.path)) ∨
      task = .note ∧ c = ((m.outputPath unit).parent, stem unit.path) := by
  constructor
  · rintro ⟨hnone, hnoted, hc⟩
    rcases (h.isNoted_iff hnone).mp hnoted with hnoted | hnote
    · exact Or.inl ⟨hnone, hnoted, hc⟩
    · exact Or.inr ⟨hnote, hc⟩
  · rintro (⟨hnone, hnoted, hc⟩ | ⟨rfl, hc⟩)
    · exact ⟨hnone, (h.isNoted_iff hnone).mpr (Or.inl hnoted), hc⟩
    · exact ⟨hknows, (h.isNoted_iff hknows).mpr (Or.inr rfl), hc⟩

theorem Stepped.files_eq (h : Stepped m claims unit s task task' s')
    (hknows : task.Knows m claims t unit) (htaken : m.otherHolder? claims unit ≠ none) :
    s'.files = s.files := by
  cases h with
  | prepared _ => exact absurd hknows.1 htaken
  | emptied _ _ => exact absurd hknows.1 htaken
  | filled _ _ _ => exact absurd hknows.1 htaken
  | removed _ _ => exact absurd hknows.1 htaken
  | _ => rfl

end Task

/-- Units that are worked on at a time: what they share, and what is left to do for each. -/
structure Pool where
  session : Session
  tasks : List (SourceFile × Task)

namespace Pool

/-- Units of which none was started. -/
def start (units : List SourceFile) (s : Session) : Pool :=
  { session := s, tasks := units.map fun unit => (unit, .claim) }

/-- Whether all units are finished, with these results. -/
def Finished (pool : Pool) (results : List UnitResult) : Prop :=
  pool.tasks.map Prod.snd = results.map .finished

/-- The number of steps that a pool can take at most. -/
def rank (pool : Pool) : Nat := (pool.tasks.map fun e => e.2.rank).sum

/-- One step of any one unit. -/
inductive Step (m : ModuleTree) (claims : Claims) : Pool → Pool → Prop
  | work {before after : List (SourceFile × Task)} {unit : SourceFile} {task task' : Task}
      {s s' : Session} (hrank : 0 < task.rank)
      (h : (task.step m claims unit).run s = .ok task' s') :
      Step m claims { session := s, tasks := before ++ (unit, task) :: after }
        { session := s', tasks := before ++ (unit, task') :: after }

/-- Steps in any order. -/
abbrev Reaches (m : ModuleTree) (claims : Claims) : Pool → Pool → Prop :=
  Relation.ReflTransGen (Step m claims)

theorem Step.rank_lt {claims : Claims} {pool pool' : Pool} (h : Step m claims pool pool') :
    pool'.rank < pool.rank := by
  cases h with
  | work hrank h =>
      have hlt := Task.rank_lt_of_stepped (Task.stepped_of_step hrank h)
      simp only [rank, List.map_append, List.map_cons, List.sum_append, List.sum_cons]
      omega

/-- What holds of a pool at any time, if its units started in session `s`. -/
structure Sound (m : ModuleTree) (units : List SourceFile) (s : Session) (pool : Pool) : Prop where
  units_eq : pool.tasks.map Prod.fst = units
  wellFormed : pool.session.files.WellFormed
  agrees : ∀ e ∈ pool.tasks,
    e.2.Agrees m (m.claims units) s.files e.1 pool.session.files
  knows : ∀ e ∈ pool.tasks, e.2.Knows m (m.claims units) s.files e.1
  same : s.files.SameDirectories pool.session.files
  node : ∀ place, (∀ unit ∈ units, place ≠ (m.outputPath unit).place s.files.home) →
    pool.session.files.node? place = s.files.node? place
  mem_children : ∀ c, c ∈ pool.session.children ↔ c ∈ s.children ∨ ∃ e ∈ pool.tasks,
    m.otherHolder? (m.claims units) e.1 = none ∧ e.2.isNoted = true ∧
      c = ((m.outputPath e.1).parent, stem e.1.path)

theorem sound_start (m : ModuleTree) (units : List SourceFile) {s : Session}
    (hwell : s.files.WellFormed) : Sound m units s (start units s) := by
  have htask : ∀ e ∈ (start units s).tasks, e.2 = .claim := by
    intro e he
    obtain ⟨unit, _, rfl⟩ := List.mem_map.mp he
    rfl
  refine ⟨?_, hwell, ?_, ?_, .refl _, fun _ _ => rfl, ?_⟩
  · rw [start, List.map_map]
    exact List.map_id units
  · intro e he
    rw [htask e he]
    exact ⟨.refl _, rfl, fun _ => rfl⟩
  · intro e he
    rw [htask e he]
    trivial
  · intro c
    constructor
    · exact Or.inl
    · rintro (hc | ⟨e, he, _, hnoted, _⟩)
      · exact hc
      · rw [htask e he] at hnoted
        cases hnoted

section

variable {units : List SourceFile} {before s : Session} {pool pool' : Pool}

theorem climb_not_mem (h : Discovered m units before s) {unit : SourceFile}
    (hunit : unit ∈ units) : Path.climb ∉ unit.directory :=
  fun hmem => (h.directory unit hunit _ hmem).2.1 rfl

theorem made_parent (h : Discovered m units before s) {unit : SourceFile} (hunit : unit ∈ units) :
    Made s.files (m.outputPath unit).parent := by
  rw [parent_outputPath]
  exact h.made unit hunit

theorem agrees_of_other (hdiscovered : Discovered m units before s) {unit other : SourceFile}
    (hunit : unit ∈ units) (hother : other ∈ units) (hne : other.path ≠ unit.path)
    {files files' : FileTree} (hsame : s.files.SameDirectories files)
    (hchange : files.ChangesAt ((m.outputPath unit).place files.home) files')
    (htaken : m.otherHolder? (m.claims units) unit ≠ none → files' = files) {task : Task}
    (hagrees : task.Agrees m (m.claims units) s.files other files) :
    task.Agrees m (m.claims units) s.files other files' := by
  rw [hsame.forth.home_eq] at hchange
  refine ⟨hsame.trans hchange.same, ?_, ?_⟩
  · rw [← hagrees.source]
    apply hchange.same.read?_congr
    apply hchange.node
    rw [hsame.forth.home_eq]
    exact place_source_ne_place_outputPath (hdiscovered.source_ending other hother)
      (climb_not_mem hdiscovered hunit) _
  · intro hnone
    rw [← hagrees.output hnone]
    by_cases hholds : m.otherHolder? (m.claims units) unit = none
    · apply hchange.node
      intro hplace
      have houtput := outputPath_eq_of_place (climb_not_mem hdiscovered hother)
        (climb_not_mem hdiscovered hunit) hplace
      exact hne (path_eq_of_holders hother hunit hnone hholds houtput)
    · rw [htaken hholds]

theorem path_ne_of_nodup {first last : List (SourceFile × Task)} {unit : SourceFile} {task : Task}
    (hnodup : (((first ++ (unit, task) :: last).map Prod.fst).map SourceFile.path).Nodup) :
    ∀ e ∈ first ++ last, e.1.path ≠ unit.path := by
  rw [List.map_map, List.map_append, List.map_cons, List.nodup_middle, ← List.map_append,
    List.nodup_cons] at hnodup
  intro e he heq
  exact hnodup.1 (List.mem_map.mpr ⟨e, he, heq⟩)

/-- One step of any unit keeps what holds of a pool. -/
theorem Sound.step (hdiscovered : Discovered m units before s) (hsound : Sound m units s pool)
    (h : Step m (m.claims units) pool pool') : Sound m units s pool' := by
  cases h with
  | @work first last unit task task' now next hrank h =>
      have hstepped := Task.stepped_of_step hrank h
      have hmem : (unit, task) ∈ first ++ (unit, task) :: last := by simp
      have hagrees := hsound.agrees _ hmem
      have hknows := hsound.knows _ hmem
      have hunits : (first ++ (unit, task) :: last).map Prod.fst = units := hsound.units_eq
      have hin : ∀ e ∈ first ++ (unit, task) :: last, e.1 ∈ units := by
        intro e he
        rw [← hunits]
        exact List.mem_map_of_mem he
      have hunit : unit ∈ units := hin _ hmem
      have hmade := made_parent hdiscovered hunit
      have hchange := hstepped.changesAt hsound.wellFormed (hmade.mono hsound.same.forth)
      have htaken := hstepped.files_eq hknows
      obtain ⟨hknows', houtput⟩ := hstepped.knows hmade hagrees hsound.wellFormed hknows
      have hothers : ∀ e ∈ first ++ last, e.1.path ≠ unit.path :=
        path_ne_of_nodup (hunits ▸ hdiscovered.nodup)
      have hentry : ∀ task e, e ∈ first ++ (unit, task) :: last ↔
          e = (unit, task) ∨ e ∈ first ++ last := by
        intro task e
        simp only [List.mem_append, List.mem_cons]
        exact or_left_comm
      have hold : ∀ e ∈ first ++ last, e ∈ first ++ (unit, task) :: last :=
        fun e he => (hentry task e).mpr (Or.inr he)
      refine ⟨?units_eq, hchange.wellFormed, ?agrees, ?knows,
        hsound.same.trans hchange.same, ?node, ?mem_children⟩
      case units_eq =>
        simpa using hunits
      case agrees =>
        intro e he
        rcases (hentry task' e).mp he with rfl | he
        · refine ⟨hsound.same.trans hchange.same, ?_, houtput⟩
          rw [← hagrees.source]
          apply hchange.same.read?_congr
          apply hchange.node
          exact place_source_ne_place_outputPath (hdiscovered.source_ending unit hunit)
            (climb_not_mem hdiscovered hunit) _
        · exact agrees_of_other hdiscovered hunit (hin e (hold e he)) (hothers e he) hsound.same
            hchange htaken (hsound.agrees e (hold e he))
      case knows =>
        intro e he
        rcases (hentry task' e).mp he with rfl | he
        · exact hknows'
        · exact hsound.knows e (hold e he)
      case node =>
        intro place hplace
        rw [← hsound.node place hplace]
        apply hchange.node
        rw [hsound.same.forth.home_eq]
        exact hplace unit hunit
      case mem_children =>
        intro c
        rw [hstepped.mem_children, hsound.mem_children]
        simp only [hentry, exists_eq_or_imp, hstepped.noted_iff hknows]
        rw [or_assoc, or_right_comm]

theorem Sound.reaches (hdiscovered : Discovered m units before s) (hsound : Sound m units s pool)
    (h : Reaches m (m.claims units) pool pool') : Sound m units s pool' := by
  induction h with
  | refl => exact hsound
  | tail _ hstep ih => exact ih.step hdiscovered hstep

end

theorem Finished.forall₂ {pool : Pool} {results : List UnitResult} (h : pool.Finished results)
    {holds : SourceFile → UnitResult → Prop}
    (hholds : ∀ unit r, (unit, .finished r) ∈ pool.tasks → holds unit r) :
    List.Forall₂ holds (pool.tasks.map Prod.fst) results := by
  rw [Finished] at h
  generalize pool.tasks = tasks at h hholds
  induction tasks generalizing results with
  | nil =>
      rw [List.map_nil, eq_comm, List.map_eq_nil_iff] at h
      rw [h]
      exact .nil
  | cons e rest ih =>
      obtain ⟨unit, task⟩ := e
      obtain ⟨r, others, rfl, rfl, hothers⟩ := List.map_eq_cons_iff.mp h.symm
      refine .cons (hholds unit r List.mem_cons_self) (ih hothers.symm ?_)
      exact fun other r hmem => hholds other r (List.mem_cons_of_mem _ hmem)

theorem Finished.exists_finished {pool : Pool} {results : List UnitResult}
    (h : pool.Finished results) {e : SourceFile × Task} (he : e ∈ pool.tasks) :
    ∃ r, e.2 = .finished r := by
  have hmem : e.2 ∈ pool.tasks.map Prod.snd := List.mem_map_of_mem he
  rw [h, List.mem_map] at hmem
  obtain ⟨r, _, hr⟩ := hmem
  exact ⟨r, hr.symm⟩

end Pool

/-- What holds when all units are compiled: it says for every place what stands there, and which
modules are noted. -/
structure Compiled (m : ModuleTree) (units : List SourceFile) (s : Session)
    (results : List UnitResult) (s' : Session) : Prop where
  ends : List.Forall₂ (m.Ends (m.claims units) s.files) units results
  wellFormed : s'.files.WellFormed
  same : s.files.SameDirectories s'.files
  output : ∀ unit ∈ units, m.otherHolder? (m.claims units) unit = none →
    ∀ r, m.outcome (m.claims units) s.files unit = .ok r →
      s'.files.node? ((m.outputPath unit).place s.files.home) =
        nodeAfter s.files (m.outputPath unit) r
  node : ∀ place, (∀ unit ∈ units, place ≠ (m.outputPath unit).place s.files.home) →
    s'.files.node? place = s.files.node? place
  mem_children : ∀ c, c ∈ s'.children ↔ c ∈ s.children ∨ ∃ unit ∈ units,
    m.otherHolder? (m.claims units) unit = none ∧
      c = ((m.outputPath unit).parent, stem unit.path)

namespace Compiled

variable {units : List SourceFile} {s s₁ s₂ : Session} {results results' : List UnitResult}

theorem of_sound {pool : Pool} (hsound : pool.Sound m units s)
    (h : pool.Finished results) : Compiled m units s results pool.session := by
  have hunit : ∀ unit, unit ∈ units ↔ ∃ e ∈ pool.tasks, e.1 = unit := by
    intro unit
    rw [← hsound.units_eq, List.mem_map]
  refine ⟨?_, hsound.wellFormed, hsound.same, ?_, hsound.node, ?_⟩
  · have hforall := h.forall₂ fun unit r hmem => hsound.knows _ hmem
    rwa [hsound.units_eq] at hforall
  · intro unit hmem hnone r hr
    obtain ⟨e, he, rfl⟩ := (hunit unit).mp hmem
    obtain ⟨r', hr'⟩ := h.exists_finished he
    have hends := hsound.knows e he
    have houtput := (hsound.agrees e he).output hnone
    rw [hr'] at hends houtput
    rw [houtput, ← Except.ok.inj (hr.symm.trans hends.1)]
    rfl
  · intro c
    rw [hsound.mem_children]
    apply or_congr_right
    constructor
    · rintro ⟨e, he, hnone, _, hc⟩
      exact ⟨e.1, (hunit e.1).mpr ⟨e, he, rfl⟩, hnone, hc⟩
    · rintro ⟨unit, hmem, hnone, hc⟩
      obtain ⟨e, he, rfl⟩ := (hunit unit).mp hmem
      obtain ⟨r, hr⟩ := h.exists_finished he
      exact ⟨e, he, hnone, by rw [hr]; rfl, hc⟩

theorem results_eq (h₁ : Compiled m units s results s₁) (h₂ : Compiled m units s results' s₂) :
    results = results' := by
  refine List.right_unique_forall₂' ?_ h₁.ends h₂.ends
  intro unit r r' hr hr'
  exact Except.ok.inj (hr.1.symm.trans hr'.1)

theorem exists_ends (h : Compiled m units s results s₁) {unit : SourceFile}
    (hunit : unit ∈ units) : ∃ r, m.Ends (m.claims units) s.files unit r := by
  obtain ⟨i, rfl⟩ := List.get_of_mem hunit
  obtain ⟨hlength, hget⟩ := List.forall₂_iff_get.mp h.ends
  exact ⟨_, hget i i.2 (hlength ▸ i.2)⟩

/-- The files depend on what the units started with alone. -/
theorem node?_eq (h₁ : Compiled m units s results s₁) (h₂ : Compiled m units s results' s₂)
    (place : Place) : s₁.files.node? place = s₂.files.node? place := by
  by_cases hplace : ∃ unit ∈ units, place = (m.outputPath unit).place s.files.home
  · obtain ⟨unit, hunit, rfl⟩ := hplace
    obtain ⟨holder, hholder, houtput, hnone⟩ := exists_holder (m := m) hunit
    obtain ⟨r, hr, _⟩ := h₁.exists_ends hholder
    rw [← houtput, h₁.output holder hholder hnone r hr, h₂.output holder hholder hnone r hr]
  · have hfree : ∀ unit ∈ units, place ≠ (m.outputPath unit).place s.files.home :=
      fun unit hunit heq => hplace ⟨unit, hunit, heq⟩
    rw [h₁.node place hfree, h₂.node place hfree]

theorem mem_children_iff (h₁ : Compiled m units s results s₁)
    (h₂ : Compiled m units s results' s₂) (c : Path × Text) :
    c ∈ s₁.children ↔ c ∈ s₂.children := by
  rw [h₁.mem_children, h₂.mem_children]

end Compiled

namespace Pool

variable {units : List SourceFile} {before s s' : Session}

theorem reaches_of_compileUnit {claims : Claims} {unit : SourceFile} {r : UnitResult}
    (h : (m.compileUnit claims unit).run s = .ok r s') (first last : List (SourceFile × Task)) :
    Reaches m claims { session := s, tasks := first ++ (unit, .claim) :: last }
      { session := s', tasks := first ++ (unit, .finished r) :: last } := by
  refine Task.compileUnit_induction
    (fun task now => Reaches m claims { session := s, tasks := first ++ (unit, .claim) :: last }
      { session := now, tasks := first ++ (unit, task) :: last }) .refl ?_ h
  intro task now task' next hnow hstep
  have hrank := Task.rank_lt_of_stepped hstep
  exact hnow.tail (.work (Nat.zero_lt_of_lt hrank) (Task.step_of_stepped hstep))

theorem reaches_of_mapM {claims : Claims} {results : List UnitResult}
    (h : (units.mapM (m.compileUnit claims)).run s = .ok results s')
    (first : List (SourceFile × Task)) :
    ∃ tasks, Reaches m claims
        { session := s, tasks := first ++ units.map fun unit => (unit, .claim) }
        { session := s', tasks := first ++ tasks } ∧
      tasks.map Prod.snd = results.map .finished := by
  induction units generalizing s results first with
  | nil =>
      cases h
      exact ⟨[], .refl, rfl⟩
  | cons unit rest ih =>
      rw [List.mapM_cons] at h
      obtain ⟨r, s₁, hunit, h⟩ := run_bind_eq_ok_iff.mp h
      obtain ⟨others, s₂, hrest, h⟩ := run_bind_eq_ok_iff.mp h
      cases h
      have hnow := reaches_of_compileUnit hunit first (rest.map fun unit => (unit, .claim))
      obtain ⟨tasks, hlater, hfinished⟩ := ih hrest (first ++ [(unit, .finished r)])
      rw [List.append_assoc, List.append_assoc] at hlater
      exact ⟨(unit, .finished r) :: tasks, hnow.trans hlater, by simp [hfinished]⟩

end Pool

theorem compiled_of_mapM {units : List SourceFile} {before s s' : Session}
    (hdiscovered : Discovered m units before s) (hwell : s.files.WellFormed)
    {results : List UnitResult}
    (h : (units.mapM (m.compileUnit (m.claims units))).run s = .ok results s') :
    Compiled m units s results s' := by
  obtain ⟨tasks, hreaches, hfinished⟩ := Pool.reaches_of_mapM h []
  exact .of_sound ((Pool.sound_start m units hwell).reaches hdiscovered hreaches) hfinished

theorem otherHolder?_of_find? {first last : List SourceFile} {unit : SourceFile}
    (hnodup : ((first ++ unit :: last).map SourceFile.path).Nodup) :
    m.otherHolder? (m.claims (first ++ unit :: last)) unit =
      (first.find? fun other => m.outputPath other = m.outputPath unit).map
        SourceFile.path := by
  rw [otherHolder?, lookup_claims, List.find?_append]
  cases hfind : first.find? fun other => decide (m.outputPath other = m.outputPath unit) with
  | none => simp [Option.filter]
  | some holder =>
      have hne : holder.path ≠ unit.path := by
        rw [List.map_append, List.map_cons] at hnodup
        exact (List.nodup_append.mp hnodup).2.2 _
          (List.mem_map_of_mem (List.mem_of_find?_eq_some hfind)) _ List.mem_cons_self
      simp [Option.filter, hne]

/-- Whether the units of a run end the same in whatever order they are worked on: as they do one
after the other, with `results` and in session `s'`. -/
structure ScheduleIndependent (m : ModuleTree) (units : List SourceFile) (s : Session)
    (results : List UnitResult) (s' : Session) : Prop where
  /-- No unit is kept from its next step by what others have done. -/
  progress : ∀ pool, Pool.Reaches m (m.claims units) (.start units s) pool →
    ∀ first unit task last, pool.tasks = first ++ (unit, task) :: last → 0 < task.rank →
      ∃ task' next, (task.step m (m.claims units) unit).run pool.session = .ok task' next
  /-- Every step brings the end closer. -/
  terminates : ∀ pool pool', Pool.Step m (m.claims units) pool pool' → pool'.rank < pool.rank
  /-- Whenever all units are finished, the results, the files and the noted modules are the same. -/
  agrees : ∀ pool results', Pool.Reaches m (m.claims units) (.start units s) pool →
    pool.Finished results' →
      results' = results ∧ pool.session.files.home = s'.files.home ∧
        (∀ place, pool.session.files.node? place = s'.files.node? place) ∧
        ∀ c, c ∈ pool.session.children ↔ c ∈ s'.children
  /-- The first unit with an output is compiled, from the source that it had at first. -/
  first_compiled : ∀ first unit last, units = first ++ unit :: last →
    (first.find? fun other => m.outputPath other = m.outputPath unit) = none →
      ∃ result, results[first.length]? = some result ∧
        match sourceText? s.files unit.path with
        | none => result = UnitProblem.result unit.path (.unreadable unit.path)
        | some text => compileSource m.options (some unit.path.toText) text = .ok result
  /-- A later one fails, names the first and leaves everything as it is. -/
  later_refused : ∀ first unit last holder, units = first ++ unit :: last →
    (first.find? fun other => m.outputPath other = m.outputPath unit) = some holder →
      ∃ result, result =
          UnitProblem.result unit.path (.outputTaken (m.outputPath unit) holder.path) ∧
        results[first.length]? = some result ∧
        ∀ now, (m.compileUnit (m.claims units) unit).run now = .ok result now
  /-- A unit touches at most its own output, besides making directories. -/
  touches : ∀ unit result now next, now.files.WellFormed →
    (m.compileUnit (m.claims units) unit).run now = .ok result next →
      ∀ place, place ≠ (m.outputPath unit).place now.files.home →
        next.files.node? place = now.files.node? place ∨
          now.files.node? place = none ∧ next.files.node? place = some .directory

/-- The units that a run finds end the same in whatever order their steps are taken, if they end one
after the other. -/
theorem prepare_scheduleIndependent {units : List SourceFile} {start s s' : Session}
    {results : List UnitResult} (hwell : start.files.WellFormed) (hnamed : start.files.Named)
    (hprepare : m.prepare.run start = .ok units s)
    (hcompile : (units.mapM (m.compileUnit (m.claims units))).run s = .ok results s') :
    ScheduleIndependent m units s results s' := by
  have hdiscovered := discovered_of_prepare hwell hnamed hprepare
  have hwell' := hdiscovered.files.wellFormed hwell
  have hcompiled := compiled_of_mapM hdiscovered hwell' hcompile
  have hsound : ∀ pool, Pool.Reaches m (m.claims units) (.start units s) pool →
      pool.Sound m units s :=
    fun pool hreaches => (Pool.sound_start m units hwell').reaches hdiscovered hreaches
  have hresult : ∀ first unit last, units = first ++ unit :: last →
      ∃ result, results[first.length]? = some result ∧
        m.outcome (m.claims units) s.files unit = .ok result := by
    rintro first unit last rfl
    obtain ⟨hlength, hget⟩ := List.forall₂_iff_get.mp hcompiled.ends
    have hindex : first.length < (first ++ unit :: last).length := by simp
    have hends := hget first.length hindex (hlength ▸ hindex)
    refine ⟨_, List.getElem?_eq_getElem (hlength ▸ hindex), ?_⟩
    simpa using hends.1
  refine ⟨?progress, fun _ _ => Pool.Step.rank_lt, ?agrees, ?first_compiled, ?later_refused,
    ?touches⟩
  case progress =>
    intro pool hreaches first unit task last htasks hrank
    have hpool := hsound pool hreaches
    have hmem : (unit, task) ∈ pool.tasks := by simp [htasks]
    have hunit : unit ∈ units := by
      rw [← hpool.units_eq]
      exact List.mem_map_of_mem hmem
    obtain ⟨r, hends⟩ := hcompiled.exists_ends hunit
    obtain ⟨task', next, hstep⟩ := Task.exists_stepped (Pool.made_parent hdiscovered hunit)
      (hpool.agrees _ hmem) (hpool.knows _ hmem) hends hrank
    exact ⟨task', next, Task.step_of_stepped hstep⟩
  case agrees =>
    intro pool results' hreaches hfinished
    have hpool := Compiled.of_sound (hsound pool hreaches) hfinished
    refine ⟨hpool.results_eq hcompiled, ?_, hpool.node?_eq hcompiled,
      hpool.mem_children_iff hcompiled⟩
    exact hpool.same.forth.home_eq.trans hcompiled.same.forth.home_eq.symm
  case first_compiled =>
    intro first unit last hunits hfind
    obtain ⟨result, hget, houtcome⟩ := hresult first unit last hunits
    refine ⟨result, hget, ?_⟩
    have hholder : m.otherHolder? (m.claims units) unit = none := by
      rw [hunits, otherHolder?_of_find? (hunits ▸ hdiscovered.nodup), hfind]
      rfl
    rw [outcome, hholder] at houtcome
    cases htext : sourceText? s.files unit.path with
    | none =>
        rw [htext] at houtcome
        exact (Except.ok.inj houtcome).symm
    | some text =>
        rw [htext] at houtcome
        exact houtcome
  case later_refused =>
    intro first unit last holder hunits hfind
    obtain ⟨result, hget, houtcome⟩ := hresult first unit last hunits
    have hholder : m.otherHolder? (m.claims units) unit = some holder.path := by
      rw [hunits, otherHolder?_of_find? (hunits ▸ hdiscovered.nodup), hfind]
      rfl
    rw [outcome, hholder] at houtcome
    refine ⟨result, (Except.ok.inj houtcome).symm, hget, fun now => ?_⟩
    rw [compileUnit, hholder, ← Except.ok.inj houtcome]
    rfl
  case touches =>
    intro unit result now next hnow hrun
    exact (Task.touches_of_compileUnit hnow hrun).node

/-- A tree for three sources: two have one output, and the third cannot be read. -/
def collidingTree : ModuleTree :=
  { source := { parts := ["src"] }, dest := { parts := ["out"] }, options := .standard }

def collidingFiles : FileTree :=
  { entries := [(["src"], .directory), (["src", "a.d.ts"], .file []),
      (["src", "a.v2.d.ts"], .file []), (["src", "b.d.ts"], .file [0xFF])] }

def collidingUnits : List SourceFile :=
  [collidingTree.unitAt ["a.d.ts"], collidingTree.unitAt ["a.v2.d.ts"],
    collidingTree.unitAt ["b.d.ts"]]

def collidingPrepared : Session :=
  { files := { entries := (["out"], .directory) :: collidingFiles.entries } }

def collidingResults : List UnitResult :=
  [{ file := some "src/a.d.ts", rust := some [], diagnostics := [] },
    UnitProblem.result { parts := ["src", "a.v2.d.ts"] }
      (.outputTaken { parts := ["out", "a.rs"] } { parts := ["src", "a.d.ts"] }),
    UnitProblem.result { parts := ["src", "b.d.ts"] }
      (.unreadable { parts := ["src", "b.d.ts"] })]

def collidingCompiled : Session :=
  { files := { entries := (["out", "a.rs"], .file []) :: collidingPrepared.files.entries }
    children := [({ parts := ["out"] }, "a"), ({ parts := ["out"] }, "b")] }

theorem collidingUnits_scheduleIndependent :
    collidingFiles.WellFormed ∧ collidingFiles.Named ∧
      collidingTree.prepare.run { files := collidingFiles } =
        .ok collidingUnits collidingPrepared ∧
      (collidingUnits.mapM
        (collidingTree.compileUnit (collidingTree.claims collidingUnits))).run collidingPrepared =
        .ok collidingResults collidingCompiled ∧
      ScheduleIndependent collidingTree collidingUnits collidingPrepared collidingResults
        collidingCompiled := by
  have hwell : collidingFiles.WellFormed := FileTree.wellFormed_of_entries rfl (by decide)
  have hnamed : collidingFiles.Named := by decide
  have hprepare : collidingTree.prepare.run { files := collidingFiles } =
    .ok collidingUnits collidingPrepared := rfl
  have hcompile : (collidingUnits.mapM
      (collidingTree.compileUnit (collidingTree.claims collidingUnits))).run collidingPrepared =
      .ok collidingResults collidingCompiled := by
    rw [collidingUnits, List.mapM_cons]
    refine run_bind_eq_ok_iff.mpr
      ⟨{ file := some "src/a.d.ts", rust := some [], diagnostics := [] },
      { collidingCompiled with children := [({ parts := ["out"] }, "a")] }, ?_, rfl⟩
    have htext : sourceText? collidingPrepared.files { parts := ["src", "a.d.ts"] } = some [] := rfl
    exact compileUnit_of_compileSource rfl htext (compileSource_nil ..) rfl
  exact ⟨hwell, hnamed, hprepare, hcompile,
    prepare_scheduleIndependent hwell hnamed hprepare hcompile⟩

end ModuleTree

end HostBindings

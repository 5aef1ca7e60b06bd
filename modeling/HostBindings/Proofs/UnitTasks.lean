import HostBindings.ModuleTree.Run
import HostBindings.Proofs.FileTrees

/-!
The compilation of a unit in steps, one for each access to what units share: the claims, the noted
modules and the files. A step touches no file but the output of its unit, and what it does depends
on nothing but the directories, that output and the source.
-/

namespace HostBindings

open FileTree (ChangesAt SameDirectories WellFormed)
open FileTree.Change (Made)

namespace Run

variable {α : Type} {s s' : Session}

theorem run_ask (question : FileTree → Except PathError α) (s : Session) :
    (ask question).run s =
      match question s.files with
      | .ok a => .ok a s
      | .error e => .error (.path e) s := by
  simp only [ask, files, EStateM.run_bind, EStateM.run_get, EStateM.run_pure]
  cases question s.files <;> rfl

theorem ask_eq_ok_iff {question : FileTree → Except PathError α} {a : α} :
    (ask question).run s = .ok a s' ↔ question s.files = .ok a ∧ s' = s := by
  rw [run_ask]
  cases question s.files with
  | ok b => simp [eq_comm]
  | error e => simp

theorem run_change (c : FileTree.Change) (s : Session) :
    (change c).run s =
      match c.run s.files with
      | .ok _ files => .ok () { s with files }
      | .error e files => .error (.path e) { s with files } := by
  simp only [change, EStateM.run_bind, EStateM.run_get]
  cases c.run s.files <;> rfl

theorem change_eq_ok_iff {c : FileTree.Change} :
    (change c).run s = .ok () s' ↔
      ∃ files, c.run s.files = .ok () files ∧ s' = { s with files } := by
  rw [run_change]
  cases c.run s.files with
  | ok a files => simp [eq_comm]
  | error e files => simp

theorem change_bind (a b : FileTree.Change) : change (do a; b) = (do change a; change b) := by
  funext s
  change (change (do a; b)).run s = (do change a; change b).run s
  rw [EStateM.run_bind, run_change, run_change, EStateM.run_bind]
  cases a.run s.files with
  | error e files => rfl
  | ok x files => exact (run_change b { s with files }).symm

end Run

theorem Children.mem_record {children : Children} {directory : Path} {name : Text}
    {c : Path × Text} :
    c ∈ children.record directory name ↔ c ∈ children ∨ c = (directory, name) := by
  rw [Children.record]
  split
  · rename_i hmem
    rw [List.contains_iff_mem] at hmem
    exact ⟨Or.inl, fun h => h.elim id fun heq => heq ▸ hmem⟩
  · simp

/-- The text that a result leaves in its output. -/
def UnitResult.written? (r : UnitResult) : Option Text := r.rust.filter fun _ => r.ok

theorem UnitResult.written?_eq_some_iff {result : UnitResult} {rust : Text} :
    result.written? = some rust ↔ result.ok = true ∧ result.rust = some rust := by
  rw [UnitResult.written?, Option.filter_eq_some_iff, and_comm]

namespace ModuleTree

theorem store_eq (output : Path) (r : UnitResult) :
    store output r =
      match r.written? with
      | some rust => do
        Run.change (.makeDirectories output.parent)
        Run.change (.writeText output rust)
      | none => Run.change (.discard output) := by
  rw [store, UnitResult.written?]
  cases r.rust with
  | none => rfl
  | some rust => cases r.ok <;> simp [Option.filter]

theorem compileUnit_of_compileSource {m : ModuleTree} {claims : Claims} {unit : SourceFile}
    {text : Text} {r : UnitResult} {s s' : Session} (hholder : m.otherHolder? claims unit = none)
    (htext : sourceText? s.files unit.path = some text)
    (hcompile : compileSource m.options (some unit.path.toText) text = .ok r)
    (hstore : (store (m.outputPath unit) r).run
      { s with children := s.children.record (m.outputPath unit).parent (stem unit.path) } =
        .ok () s') :
    (m.compileUnit claims unit).run s = .ok r s' := by
  rw [compileUnit, hholder]
  refine run_bind_eq_ok_iff.mpr ⟨(), _, rfl, ?_⟩
  refine run_bind_eq_ok_iff.mpr ⟨s.files, _, rfl, ?_⟩
  rw [htext]
  dsimp only
  rw [hcompile]
  exact run_bind_eq_ok_iff.mpr ⟨(), s', hstore, rfl⟩

/-- What is left to do for a unit. -/
inductive Task
  /-- Look up who holds the output. -/
  | claim
  /-- Note the module. -/
  | note
  /-- Read the source; it is compiled then. -/
  | read
  /-- Make the directory of the output. -/
  | prepare (rust : Text) (result : UnitResult)
  /-- Open the output, which empties it. -/
  | empty (rust : Text) (result : UnitResult)
  /-- Write the text. -/
  | fill (rust : Text) (result : UnitResult)
  /-- Look for an old output. -/
  | check (result : UnitResult)
  /-- Take away an old output. -/
  | remove (result : UnitResult)
  | finished (result : UnitResult)

namespace Task

/-- What is left to do with a result. -/
def storing (result : UnitResult) : Task :=
  match result.written? with
  | some rust => .prepare rust result
  | none => .check result

/-- The next step for a unit. -/
def step (m : ModuleTree) (claims : Claims) (unit : SourceFile) : Task → Run Task
  | .claim =>
    match m.otherHolder? claims unit with
    | some holder =>
      return .finished (UnitProblem.result unit.path (.outputTaken (m.outputPath unit) holder))
    | none => return .note
  | .note => do
    Run.record (m.outputPath unit).parent (stem unit.path)
    return .read
  | .read => do
    let files ← Run.files
    match sourceText? files unit.path with
    | none => return .check (UnitProblem.result unit.path (.unreadable unit.path))
    | some text =>
      match compileSource m.options (some unit.path.toText) text with
      | .error fault => throw (.fault fault)
      | .ok result => return storing result
  | .prepare rust result => do
    Run.change (.makeDirectories (m.outputPath unit).parent)
    return .empty rust result
  | .empty rust result => do
    Run.change (.write (m.outputPath unit) [])
    return .fill rust result
  | .fill rust result => do
    if rust.any CodePoint.isSurrogate then throw (.path .unencodable)
    Run.change (.write (m.outputPath unit) (Text.Utf8.encode rust))
    return .finished result
  | .check result => do
    if ← Run.ask (·.isFile (m.outputPath unit)) then return .remove result
    else return .finished result
  | .remove result => do
    if ← Run.ask (·.isFile (m.outputPath unit)) then
      Run.change (.discard (m.outputPath unit))
      return .finished result
    else throw (.path .missing)
  | .finished result => return .finished result

/-- An upper bound of the number of steps left. -/
def rank : Task → Nat
  | .claim => 6
  | .note => 5
  | .read => 4
  | .prepare _ _ => 3
  | .empty _ _ => 2
  | .fill _ _ => 1
  | .check _ => 2
  | .remove _ => 1
  | .finished _ => 0

variable (m : ModuleTree) (claims : Claims) (unit : SourceFile)

/-- The steps by what they ask for and change. -/
inductive Stepped (s : Session) : Task → Task → Session → Prop
  | taken (holder : Path) (h : m.otherHolder? claims unit = some holder) :
      Stepped s .claim
        (.finished (UnitProblem.result unit.path (.outputTaken (m.outputPath unit) holder))) s
  | free (h : m.otherHolder? claims unit = none) : Stepped s .claim .note s
  | noted :
      Stepped s .note .read
        { s with children := s.children.record (m.outputPath unit).parent (stem unit.path) }
  | unreadable (h : sourceText? s.files unit.path = none) :
      Stepped s .read (.check (UnitProblem.result unit.path (.unreadable unit.path))) s
  | compiled {text : Text} {result : UnitResult} (h : sourceText? s.files unit.path = some text)
      (hcompile : compileSource m.options (some unit.path.toText) text = .ok result) :
      Stepped s .read (storing result) s
  | prepared {rust : Text} {result : UnitResult} {files : FileTree}
      (h : (FileTree.Change.makeDirectories (m.outputPath unit).parent).run s.files =
        .ok () files) :
      Stepped s (.prepare rust result) (.empty rust result) { s with files }
  | emptied {rust : Text} {result : UnitResult} {place : Place}
      (hlocate : s.files.locate (m.outputPath unit) = .ok place)
      (hplace : s.files.node? place ≠ some .directory) :
      Stepped s (.empty rust result) (.fill rust result)
        { s with files := s.files.put place (.file []) }
  | filled {rust : Text} {result : UnitResult} {place : Place}
      (hbytes : rust.any CodePoint.isSurrogate = false)
      (hlocate : s.files.locate (m.outputPath unit) = .ok place)
      (hplace : s.files.node? place ≠ some .directory) :
      Stepped s (.fill rust result) (.finished result)
        { s with files := s.files.put place (.file (Text.Utf8.encode rust)) }
  | absent {result : UnitResult} (h : s.files.isFile (m.outputPath unit) = .ok false) :
      Stepped s (.check result) (.finished result) s
  | present {result : UnitResult} (h : s.files.isFile (m.outputPath unit) = .ok true) :
      Stepped s (.check result) (.remove result) s
  | removed {result : UnitResult} {place : Place} {bytes : List UInt8}
      (hlocate : s.files.locate (m.outputPath unit) = .ok place)
      (hfile : s.files.node? place = some (.file bytes)) :
      Stepped s (.remove result) (.finished result) { s with files := s.files.clear place }

variable {m claims unit} {task task' : Task} {s s' : Session}

theorem stepped_of_step (hrank : 0 < task.rank)
    (h : (task.step m claims unit).run s = .ok task' s') :
    Stepped m claims unit s task task' s' := by
  cases task with
  | claim =>
      rw [step] at h
      split at h <;> cases h
      · exact .taken _ ‹_›
      · exact .free ‹_›
  | note =>
      cases h
      exact .noted
  | read =>
      obtain ⟨_, _, hfiles, h⟩ := run_bind_eq_ok_iff.mp h
      cases hfiles
      split at h
      · cases h
        exact .unreadable ‹_›
      · rename_i text htext
        split at h
        · cases h
        · cases h
          exact .compiled htext ‹_›
  | prepare rust result =>
      obtain ⟨_, _, hchange, h⟩ := run_bind_eq_ok_iff.mp h
      obtain ⟨files, hmake, rfl⟩ := Run.change_eq_ok_iff.mp hchange
      cases h
      exact .prepared hmake
  | empty rust result =>
      obtain ⟨_, _, hchange, h⟩ := run_bind_eq_ok_iff.mp h
      obtain ⟨files, hwrite, rfl⟩ := Run.change_eq_ok_iff.mp hchange
      obtain ⟨place, hlocate, hplace, rfl⟩ := FileTree.Change.write_eq_ok_iff.mp hwrite
      cases h
      exact .emptied hlocate hplace
  | fill rust result =>
      rw [step] at h
      dsimp only at h
      split at h
      · obtain ⟨_, _, hthrow, _⟩ := run_bind_eq_ok_iff.mp h
        cases hthrow
      · rename_i hbytes
        obtain ⟨_, _, hchange, h⟩ := run_bind_eq_ok_iff.mp h
        obtain ⟨files, hwrite, rfl⟩ := Run.change_eq_ok_iff.mp hchange
        obtain ⟨place, hlocate, hplace, rfl⟩ := FileTree.Change.write_eq_ok_iff.mp hwrite
        cases h
        exact .filled (by simpa using hbytes) hlocate hplace
  | check result =>
      obtain ⟨found, _, hask, h⟩ := run_bind_eq_ok_iff.mp h
      obtain ⟨hfound, rfl⟩ := Run.ask_eq_ok_iff.mp hask
      cases found <;> cases h
      · exact .absent hfound
      · exact .present hfound
  | remove result =>
      obtain ⟨found, _, hask, h⟩ := run_bind_eq_ok_iff.mp h
      obtain ⟨hfound, rfl⟩ := Run.ask_eq_ok_iff.mp hask
      cases found with
      | false => cases h
      | true =>
          obtain ⟨_, _, hchange, h⟩ := run_bind_eq_ok_iff.mp h
          obtain ⟨files, hdiscard, rfl⟩ := Run.change_eq_ok_iff.mp hchange
          cases h
          rcases FileTree.Change.discard_eq_ok_iff.mp hdiscard with
            ⟨habsent, _⟩ | ⟨place, bytes, hlocate, hfile, rfl⟩
          · rw [hfound] at habsent
            cases habsent
          · exact .removed hlocate hfile
  | finished result => exact absurd hrank (Nat.lt_irrefl 0)

theorem step_of_stepped (h : Stepped m claims unit s task task' s') :
    (task.step m claims unit).run s = .ok task' s' := by
  cases h with
  | taken holder h =>
      simp only [step, h]
      rfl
  | free h =>
      simp only [step, h]
      rfl
  | noted => rfl
  | unreadable h =>
      refine run_bind_eq_ok_iff.mpr ⟨s.files, s, rfl, ?_⟩
      simp only [h]
      rfl
  | compiled h hcompile =>
      refine run_bind_eq_ok_iff.mpr ⟨s.files, s, rfl, ?_⟩
      simp only [h, hcompile]
      rfl
  | prepared h =>
      exact run_bind_eq_ok_iff.mpr ⟨_, _, Run.change_eq_ok_iff.mpr ⟨_, h, rfl⟩, rfl⟩
  | emptied hlocate hplace =>
      refine run_bind_eq_ok_iff.mpr ⟨_, _, Run.change_eq_ok_iff.mpr ⟨_, ?_, rfl⟩, rfl⟩
      exact FileTree.Change.write_eq_ok_iff.mpr ⟨_, hlocate, hplace, rfl⟩
  | filled hbytes hlocate hplace =>
      simp only [step, hbytes, Bool.false_eq_true, if_false]
      refine run_bind_eq_ok_iff.mpr ⟨_, _, Run.change_eq_ok_iff.mpr ⟨_, ?_, rfl⟩, rfl⟩
      exact FileTree.Change.write_eq_ok_iff.mpr ⟨_, hlocate, hplace, rfl⟩
  | absent h => exact run_bind_eq_ok_iff.mpr ⟨_, _, Run.ask_eq_ok_iff.mpr ⟨h, rfl⟩, rfl⟩
  | present h => exact run_bind_eq_ok_iff.mpr ⟨_, _, Run.ask_eq_ok_iff.mpr ⟨h, rfl⟩, rfl⟩
  | removed hlocate hfile =>
      have hfound := FileTree.isFile_eq_true_iff.mpr ⟨_, _, hlocate, hfile⟩
      have hdiscard :=
        FileTree.Change.discard_eq_ok_iff.mpr (Or.inr ⟨_, _, hlocate, hfile, rfl⟩)
      refine run_bind_eq_ok_iff.mpr ⟨_, _, Run.ask_eq_ok_iff.mpr ⟨hfound, rfl⟩, ?_⟩
      exact run_bind_eq_ok_iff.mpr ⟨_, _, Run.change_eq_ok_iff.mpr ⟨_, hdiscard, rfl⟩, rfl⟩

theorem rank_lt_of_stepped (h : Stepped m claims unit s task task' s') :
    task'.rank < task.rank := by
  cases h with
  | compiled _ _ =>
      rw [storing]
      split <;> simp [rank]
  | _ => simp [rank]

section

variable (m claims unit)

/-- A number of steps, one after the other. -/
def work : Nat → Task → Run Task
  | 0, task => return task
  | n + 1, task => do work n (← task.step m claims unit)

theorem work_finished (n : Nat) (r : UnitResult) :
    work m claims unit n (.finished r) = return .finished r := by
  induction n with
  | zero => rfl
  | succ n ih => rw [work, step, pure_bind, ih]

end

theorem work_of_stepped (h : Stepped m claims unit s task task' s') (n : Nat) :
    (work m claims unit (n + 1) task).run s = (work m claims unit n task').run s' := by
  rw [work, EStateM.run_bind, step_of_stepped h]

variable (m claims unit)

theorem work_check (n : Nat) (r : UnitResult) :
    work m claims unit (n + 2) (.check r) = (do
      Run.change (.discard (m.outputPath unit))
      return Task.finished r) := by
  funext s
  change (work m claims unit (n + 2) (.check r)).run s =
    (do Run.change (.discard (m.outputPath unit)); return Task.finished r).run s
  rw [EStateM.run_bind, Run.run_change]
  cases hfile : s.files.isFile (m.outputPath unit) with
  | error e =>
      have hdiscard : (FileTree.Change.discard (m.outputPath unit)).run s.files =
          .error e s.files := by
        simp only [FileTree.Change.discard, EStateM.run_bind, EStateM.run_get, hfile]
        rfl
      simp only [work, step, EStateM.run_bind, Run.run_ask, hfile, hdiscard]
  | ok found =>
      cases found with
      | false =>
          rw [FileTree.Change.discard_eq_ok_iff.mpr (Or.inl ⟨hfile, rfl⟩),
            work_of_stepped (.absent hfile), work_finished]
      | true =>
          obtain ⟨place, bytes, hlocate, hnode⟩ := FileTree.isFile_eq_true_iff.mp hfile
          rw [FileTree.Change.discard_eq_ok_iff.mpr (Or.inr ⟨place, bytes, hlocate, hnode, rfl⟩),
            work_of_stepped (.present hfile), work_of_stepped (.removed hlocate hnode),
            work_finished]

theorem work_prepare (n : Nat) (rust : Text) (r : UnitResult) :
    work m claims unit (n + 3) (.prepare rust r) = (do
      Run.change (.makeDirectories (m.outputPath unit).parent)
      Run.change (.writeText (m.outputPath unit) rust)
      return Task.finished r) := by
  simp only [work, step, bind_assoc, pure_bind, FileTree.Change.writeText, Run.change_bind]
  by_cases hbytes : rust.any CodePoint.isSurrogate
  · simp only [hbytes, if_true, Run.change_bind, bind_assoc]
    rfl
  · simp [hbytes, work_finished]

theorem work_storing (n : Nat) (r : UnitResult) :
    work m claims unit (n + 3) (storing r) = (do
      store (m.outputPath unit) r
      return Task.finished r) := by
  rw [storing, store_eq]
  cases r.written? with
  | none => exact work_check m claims unit (n + 1) r
  | some rust => exact (work_prepare m claims unit n rust r).trans (bind_assoc ..).symm

/-- Six steps are enough for a unit, and they do just what its compilation does. -/
theorem work_claim :
    work m claims unit 6 .claim = Task.finished <$> m.compileUnit claims unit := by
  rw [compileUnit, work, step]
  cases m.otherHolder? claims unit with
  | some holder => rw [pure_bind, work_finished, map_pure]
  | none =>
      rw [pure_bind, work, step]
      simp only [bind_assoc, pure_bind, map_bind]
      congr 1
      funext _
      rw [work, step, bind_assoc]
      congr 1
      funext files
      cases sourceText? files unit.path with
      | none =>
          simp only [pure_bind, map_bind, map_pure]
          exact work_check ..
      | some text =>
          dsimp only
          cases compileSource m.options (some unit.path.toText) text with
          | error fault => rfl
          | ok result =>
              simp only [pure_bind, map_bind, map_pure]
              exact work_storing ..

end Task

namespace Task

variable {m : ModuleTree} {claims : Claims} {unit : SourceFile} {s s' : Session}

/-- What holds at first and is kept by every step holds when a unit is compiled. -/
theorem compileUnit_induction (holds : Task → Session → Prop) (hstart : holds .claim s)
    (hstep : ∀ {task now task' next}, holds task now →
      Stepped m claims unit now task task' next → holds task' next)
    {r : UnitResult} (h : (m.compileUnit claims unit).run s = .ok r s') :
    holds (.finished r) s' := by
  have hwork : ∀ n task now, holds task now →
      (work m claims unit n task).run now = .ok (.finished r) s' → holds (.finished r) s' := by
    intro n
    induction n with
    | zero =>
        intro task now hnow h
        cases h
        exact hnow
    | succ n ih =>
        intro task now hnow h
        by_cases hrank : 0 < task.rank
        · obtain ⟨task', next, hrun, hrest⟩ := run_bind_eq_ok_iff.mp h
          exact ih task' next (hstep hnow (stepped_of_step hrank hrun)) hrest
        · -- only a finished task has no step left
          have hfinished : ∃ result, task = .finished result := by
            cases task <;> simp_all [rank]
          obtain ⟨result, rfl⟩ := hfinished
          rw [work_finished] at h
          cases h
          exact hnow
  refine hwork 6 .claim s hstart ?_
  rw [work_claim, map_eq_pure_bind]
  exact run_bind_eq_ok_iff.mpr ⟨r, s', h, rfl⟩

end Task

/-- The result of a unit, by the holder of its output and by its source. -/
def outcome (m : ModuleTree) (claims : Claims) (files : FileTree) (unit : SourceFile) :
    Except Fault UnitResult :=
  match m.otherHolder? claims unit with
  | some holder => .ok (UnitProblem.result unit.path (.outputTaken (m.outputPath unit) holder))
  | none =>
    match sourceText? files unit.path with
    | none => .ok (UnitProblem.result unit.path (.unreadable unit.path))
    | some text => compileSource m.options (some unit.path.toText) text

/-- Whether a file can be written at a path. -/
def Writable (t : FileTree) (p : Path) : Prop :=
  ∃ place, t.locate p = .ok place ∧ t.node? place ≠ some .directory

/-- Whether a result can be stored. -/
def Storable (t : FileTree) (output : Path) (r : UnitResult) : Prop :=
  match r.written? with
  | some rust => Writable t output ∧ rust.any CodePoint.isSurrogate = false
  | none => ∃ found, t.isFile output = .ok found

/-- What stands at an output when a result is stored. -/
def nodeAfter (t : FileTree) (output : Path) (r : UnitResult) : Option FileNode :=
  match r.written? with
  | some rust => some (.file (Text.Utf8.encode rust))
  | none =>
    match t.isFile output with
    | .ok true => none
    | _ => t.node? (output.place t.home)

/-- A result that a unit ends with, and that can be stored if the output is its own. -/
def Ends (m : ModuleTree) (claims : Claims) (t : FileTree) (unit : SourceFile)
    (r : UnitResult) : Prop :=
  m.outcome claims t unit = .ok r ∧
    (m.otherHolder? claims unit = none → Storable t (m.outputPath unit) r)

namespace Task

variable (m : ModuleTree) (claims : Claims) (t : FileTree) (unit : SourceFile)

/-- What is known of a unit whose task has come that far, if the units started with files `t`. -/
def Knows : Task → Prop
  | .claim => True
  | .note => m.otherHolder? claims unit = none
  | .read => m.otherHolder? claims unit = none
  | .prepare rust r =>
    m.otherHolder? claims unit = none ∧ m.outcome claims t unit = .ok r ∧ r.written? = some rust
  | .empty rust r =>
    m.otherHolder? claims unit = none ∧ m.outcome claims t unit = .ok r ∧ r.written? = some rust
  | .fill rust r =>
    m.otherHolder? claims unit = none ∧ m.outcome claims t unit = .ok r ∧
      r.written? = some rust ∧ Writable t (m.outputPath unit)
  | .check r =>
    m.otherHolder? claims unit = none ∧ m.outcome claims t unit = .ok r ∧ r.written? = none
  | .remove r =>
    m.otherHolder? claims unit = none ∧ m.outcome claims t unit = .ok r ∧
      r.written? = none ∧ t.isFile (m.outputPath unit) = .ok true
  | .finished r => m.Ends claims t unit r

/-- What stands at the output of a unit whose task has come that far. -/
def node (output : Path) : Task → Option FileNode
  | .fill _ _ => some (.file [])
  | .finished r => nodeAfter t output r
  | _ => t.node? (output.place t.home)

/-- Whether files are, for a unit, those that the units started with: all that can differ is what
other units have done to their outputs. -/
structure Agrees (task : Task) (files : FileTree) : Prop where
  same : t.SameDirectories files
  source : files.read? unit.path = t.read? unit.path
  output : m.otherHolder? claims unit = none →
    files.node? ((m.outputPath unit).place t.home) = task.node t (m.outputPath unit)

variable {m claims t unit} {task task' : Task} {s s' : Session}

theorem sourceText?_of_agrees (h : Agrees m claims t unit task s.files) :
    sourceText? s.files unit.path = sourceText? t unit.path := by
  rw [sourceText?, sourceText?, h.source]

theorem Agrees.made (h : Agrees m claims t unit task s.files)
    (hmade : Made t (m.outputPath unit).parent) : Made s.files (m.outputPath unit).parent :=
  hmade.mono h.same.forth

theorem Stepped.changesAt (hwell : s.files.WellFormed)
    (hmade : Made s.files (m.outputPath unit).parent) (h : Stepped m claims unit s task task' s') :
    s.files.ChangesAt ((m.outputPath unit).place s.files.home) s'.files := by
  cases h with
  | prepared hmake =>
      rw [FileTree.Change.makeDirectories_of_made hmade] at hmake
      cases hmake
      exact .refl hwell
  | emptied hlocate hplace => exact .put hwell hlocate hplace []
  | filled _ hlocate hplace => exact .put hwell hlocate hplace _
  | removed hlocate hfile => exact .clear hwell hlocate hfile
  | _ => exact .refl hwell

theorem Stepped.touches (hwell : s.files.WellFormed) (h : Stepped m claims unit s task task' s') :
    s.files.Touches ((m.outputPath unit).place s.files.home) s'.files := by
  cases h with
  | prepared hmake =>
      exact (FileTree.Change.makeDirectories_eq_ok hmake).1.touches hwell _
  | emptied hlocate hplace => exact (ChangesAt.put hwell hlocate hplace []).touches
  | filled _ hlocate hplace => exact (ChangesAt.put hwell hlocate hplace _).touches
  | removed hlocate hfile => exact (ChangesAt.clear hwell hlocate hfile).touches
  | _ => exact (ChangesAt.refl hwell).touches

theorem touches_of_compileUnit (hwell : s.files.WellFormed) {r : UnitResult}
    (h : (m.compileUnit claims unit).run s = .ok r s') :
    s.files.Touches ((m.outputPath unit).place s.files.home) s'.files := by
  refine compileUnit_induction
    (fun _ now => s.files.Touches ((m.outputPath unit).place s.files.home) now.files) ?_ ?_ h
  · exact (ChangesAt.refl hwell).touches
  · intro task now task' next hbefore hstep
    have hnow := hstep.touches hbefore.wellFormed
    rw [hbefore.home_eq] at hnow
    exact hbefore.trans hnow

theorem Stepped.mem_children (h : Stepped m claims unit s task task' s') {c : Path × Text} :
    c ∈ s'.children ↔
      c ∈ s.children ∨ task = .note ∧ c = ((m.outputPath unit).parent, stem unit.path) := by
  cases h with
  | noted =>
      rw [Children.mem_record]
      simp
  | _ => simp

theorem Agrees.locate_iff (h : Agrees m claims t unit task s.files) {p : Path} {place : Place} :
    s.files.locate p = .ok place ↔ t.locate p = .ok place :=
  ⟨h.same.back.locate, h.same.forth.locate⟩

theorem Agrees.isFile_iff (h : Agrees m claims t unit task s.files)
    (hnone : m.otherHolder? claims unit = none)
    (hnode : task.node t (m.outputPath unit) = t.node? ((m.outputPath unit).place t.home)) :
    s.files.isFile (m.outputPath unit) = .ok true ↔ t.isFile (m.outputPath unit) = .ok true := by
  have houtput := (h.output hnone).trans hnode
  rw [FileTree.isFile_eq_true_iff, FileTree.isFile_eq_true_iff]
  constructor
  · rintro ⟨place, bytes, hlocate, hfile⟩
    have hstart := h.locate_iff.mp hlocate
    rw [← FileTree.locate_eq_ok hstart] at houtput
    exact ⟨place, bytes, hstart, houtput ▸ hfile⟩
  · rintro ⟨place, bytes, hlocate, hfile⟩
    rw [← FileTree.locate_eq_ok hlocate] at houtput
    exact ⟨place, bytes, h.locate_iff.mpr hlocate, houtput ▸ hfile⟩

/-- What a step finds out is right, and it leaves the output as its new task says. -/
theorem Stepped.knows (hmade : Made t (m.outputPath unit).parent)
    (hagrees : Agrees m claims t unit task s.files) (hwell : s.files.WellFormed)
    (hknows : task.Knows m claims t unit) (h : Stepped m claims unit s task task' s') :
    task'.Knows m claims t unit ∧
      (m.otherHolder? claims unit = none →
        s'.files.node? ((m.outputPath unit).place t.home) =
          task'.node t (m.outputPath unit)) := by
  cases h with
  | taken holder h =>
      refine ⟨⟨?_, ?_⟩, ?_⟩
      · rw [outcome, h]
      · intro hnone
        rw [h] at hnone
        cases hnone
      · intro hnone
        rw [h] at hnone
        cases hnone
  | free h => exact ⟨h, hagrees.output⟩
  | noted => exact ⟨hknows, hagrees.output⟩
  | unreadable h =>
      rw [sourceText?_of_agrees hagrees] at h
      refine ⟨⟨hknows, ?_, rfl⟩, hagrees.output⟩
      rw [outcome, hknows]
      dsimp only
      rw [h]
  | @compiled text result h hcompile =>
      rw [sourceText?_of_agrees hagrees] at h
      have houtcome : m.outcome claims t unit = .ok result := by
        rw [outcome, hknows]
        dsimp only
        rw [h]
        exact hcompile
      rw [storing]
      split
      · rename_i rust hrust
        exact ⟨⟨hknows, houtcome, hrust⟩, hagrees.output⟩
      · rename_i hrust
        exact ⟨⟨hknows, houtcome, hrust⟩, hagrees.output⟩
  | prepared hmake =>
      rw [FileTree.Change.makeDirectories_of_made (hagrees.made hmade)] at hmake
      cases hmake
      exact ⟨hknows, hagrees.output⟩
  | emptied hlocate hplace =>
      -- no other unit changes the output before, so that it could be opened at the start too
      obtain ⟨hnone, houtcome, hrust⟩ := hknows
      have hstart := hagrees.locate_iff.mp hlocate
      have hbefore : s.files.node? ((m.outputPath unit).place t.home) =
        t.node? ((m.outputPath unit).place t.home) := hagrees.output hnone
      rw [← FileTree.locate_eq_ok hstart] at hbefore ⊢
      refine ⟨⟨hnone, houtcome, hrust, _, hstart, ?_⟩, fun _ => ?_⟩
      · rwa [← hbefore]
      · rw [FileTree.node?_put _ (FileTree.ne_nil_of_ne_directory hplace), if_pos rfl]
        rfl
  | filled hbytes hlocate hplace =>
      obtain ⟨hnone, houtcome, hrust, hwritable⟩ := hknows
      refine ⟨⟨houtcome, fun _ => ?_⟩, fun _ => ?_⟩
      · rw [Storable, hrust]
        exact ⟨hwritable, hbytes⟩
      · rw [← FileTree.locate_eq_ok (hagrees.locate_iff.mp hlocate),
          FileTree.node?_put _ (FileTree.ne_nil_of_ne_directory hplace), if_pos rfl, node,
          nodeAfter, hrust]
  | absent h =>
      obtain ⟨hnone, houtcome, hrust⟩ := hknows
      refine ⟨⟨houtcome, fun _ => ?_⟩, fun _ => ?_⟩
      · rw [Storable, hrust]
        exact hagrees.same.forth.exists_isFile h
      · rw [hagrees.output hnone]
        simp only [node, nodeAfter, hrust]
        split
        · rename_i hfile
          have hfound := (hagrees.isFile_iff hnone rfl).mpr hfile
          rw [h] at hfound
          cases hfound
        · rfl
  | present h =>
      obtain ⟨hnone, houtcome, hrust⟩ := hknows
      exact ⟨⟨hnone, houtcome, hrust, (hagrees.isFile_iff hnone rfl).mp h⟩, hagrees.output⟩
  | removed hlocate hfile =>
      obtain ⟨hnone, houtcome, hrust, hfound⟩ := hknows
      refine ⟨⟨houtcome, fun _ => ?_⟩, fun _ => ?_⟩
      · rw [Storable, hrust]
        exact ⟨true, hfound⟩
      · rw [← FileTree.locate_eq_ok (hagrees.locate_iff.mp hlocate),
          hwell.node?_clear_file hfile, if_pos rfl, node, nodeAfter, hrust]
        dsimp only
        rw [hfound]

/-- A unit that can be stored is never kept from its next step. -/
theorem exists_stepped (hmade : Made t (m.outputPath unit).parent)
    (hagrees : Agrees m claims t unit task s.files) (hknows : task.Knows m claims t unit)
    {r : UnitResult} (hends : m.Ends claims t unit r) (hrank : 0 < task.rank) :
    ∃ task' s', Stepped m claims unit s task task' s' := by
  obtain ⟨houtcome, hstorable⟩ := hends
  cases task with
  | claim =>
      cases hholder : m.otherHolder? claims unit with
      | none => exact ⟨_, _, .free hholder⟩
      | some holder => exact ⟨_, _, .taken holder hholder⟩
  | note => exact ⟨_, _, .noted⟩
  | read =>
      have hnone : m.otherHolder? claims unit = none := hknows
      rw [outcome, hnone] at houtcome
      dsimp only at houtcome
      cases htext : sourceText? t unit.path with
      | none => exact ⟨_, _, .unreadable ((sourceText?_of_agrees hagrees).trans htext)⟩
      | some text =>
          rw [htext] at houtcome
          exact ⟨_, _, .compiled ((sourceText?_of_agrees hagrees).trans htext) houtcome⟩
  | prepare rust result =>
      exact ⟨_, _, .prepared (FileTree.Change.makeDirectories_of_made (hagrees.made hmade))⟩
  | empty rust result =>
      obtain ⟨hnone, hresult, hrust⟩ := hknows
      obtain rfl : r = result := Except.ok.inj (houtcome.symm.trans hresult)
      have hstore := hstorable hnone
      rw [Storable, hrust] at hstore
      obtain ⟨⟨place, hlocate, hplace⟩, _⟩ := hstore
      refine ⟨_, _, .emptied (hagrees.locate_iff.mpr hlocate) ?_⟩
      rw [FileTree.locate_eq_ok hlocate] at hplace ⊢
      rw [hagrees.output hnone]
      exact hplace
  | fill rust result =>
      obtain ⟨hnone, hresult, hrust, place, hlocate, hplace⟩ := hknows
      obtain rfl : r = result := Except.ok.inj (houtcome.symm.trans hresult)
      have hstore := hstorable hnone
      rw [Storable, hrust] at hstore
      refine ⟨_, _, .filled hstore.2 (hagrees.locate_iff.mpr hlocate) ?_⟩
      rw [FileTree.locate_eq_ok hlocate, hagrees.output hnone, node]
      simp
  | check result =>
      obtain ⟨hnone, hresult, hrust⟩ := hknows
      obtain rfl : r = result := Except.ok.inj (houtcome.symm.trans hresult)
      have hstore := hstorable hnone
      rw [Storable, hrust] at hstore
      obtain ⟨_, hstart⟩ := hstore
      obtain ⟨found, hfound⟩ := hagrees.same.back.exists_isFile hstart
      cases found with
      | false => exact ⟨_, _, .absent hfound⟩
      | true => exact ⟨_, _, .present hfound⟩
  | remove result =>
      obtain ⟨hnone, _, _, hfound⟩ := hknows
      obtain ⟨place, bytes, hlocate, hnode⟩ := FileTree.isFile_eq_true_iff.mp hfound
      have hfile : s.files.node? place = some (.file bytes) := by
        rw [FileTree.locate_eq_ok hlocate] at hnode ⊢
        rw [hagrees.output hnone]
        exact hnode
      exact ⟨_, _, .removed (hagrees.locate_iff.mpr hlocate) hfile⟩
  | finished result => exact absurd hrank (Nat.lt_irrefl 0)

end Task

end ModuleTree

end HostBindings

import HostBindings.CommandLine.Arguments
import HostBindings.CommandLine.Report
import HostBindings.ModuleTree.Run

/-!
The command: make the modules of a source below a destination and report.
-/

namespace HostBindings.CommandLine

/-- What a command leaves besides files. -/
inductive Ending
  /-- It ran, with what it wrote to the two outputs. -/
  | finished (exitCode : Nat) (output errors : Text)
  /-- The arguments asked for help, or could not be understood. -/
  | usage (exitCode : Nat)

/-- The results of a run, or why it did not start. -/
inductive Attempt
  | ran (results : List UnitResult)
  | refused (message : Text)

/-- Runs with the arguments, if the options are valid and the source is there. A value that was
left out is missed where it is needed. -/
def attempt (a : Arguments) : Run Attempt := do
  match a.settings.validate with
  | .error problem => return .refused problem.message
  | .ok options =>
    if a.lacksJobs then throw (.fault .missingValue)
    if ← Run.ask (·.contains a.source) then
      match a.dest with
      | none => throw (.fault .missingValue)
      | some dest => return .ran (← ModuleTree.run { source := a.source, dest, options })
    else return .refused ("source path does not exist: " ++ a.source.toText)

namespace Attempt

def diagnostics : Attempt → List Diagnostic
  | ran results => results.flatMap (·.diagnostics)
  | refused message => [{ message, phase := some Phase.driving.label }]

/-- Zero if the run started and every unit has an output. -/
def exitCode : Attempt → Nat
  | ran results => if results.all UnitResult.ok then 0 else 1
  | refused _ => 1

/-- The units that were worked on. -/
def files : Attempt → List Text
  | ran results => results.filterMap (·.file)
  | refused _ => []

/-- What the user gets to see. -/
def report (a : Arguments) (attempt : Attempt) : Ending :=
  let source := a.source.toText
  if a.json then
    .finished attempt.exitCode
      (lines [structuredReport source attempt.exitCode attempt.diagnostics]) []
  else
    .finished attempt.exitCode (if a.verbose then lines attempt.files else [])
      (plainReport source attempt.diagnostics)

end Attempt

/-- Runs the command with its arguments as given. -/
def command (argv : List Text) : Run Ending :=
  match Arguments.parse argv with
  | .error .help => return .usage 0
  | .error .misuse => return .usage 2
  | .ok a => do
    let attempt ← attempt a
    return attempt.report a

end HostBindings.CommandLine

import HostBindings.Diagnostic
import HostBindings.Text.Quoted

/-!
Reports of diagnostics: a line of structured text, or lines for people.
-/

namespace HostBindings.CommandLine

/-- A value, or the word for none. -/
def orNull {α : Type} (write : α → Text) : Option α → Text
  | none => "null"
  | some a => write a

/-- A list in brackets. -/
def bracketed (items : List Text) : Text := "[" ++ Text.join ", " items ++ "]"

/-- Fields in braces. -/
def braced (fields : List (Text × Text)) : Text :=
  "\x7b" ++ Text.join ", " (fields.map fun f => Text.Quoted.literal f.1 ++ ": " ++ f.2) ++ "\x7d"

/-- A diagnostic as an object. -/
def diagnosticObject (defaultFile : Text) (d : Diagnostic) : Text :=
  let text := orNull Text.Quoted.literal
  let number := orNull Text.integer
  braced [
    ("phase", text d.phase), ("code", text d.code), ("message", Text.Quoted.literal d.message),
    ("severity", Text.Quoted.literal d.severity.label),
    ("file", text (d.reportedFile (some defaultFile))), ("line", number d.span.line),
    ("column", number d.span.column), ("notes", bracketed (d.notes.map Text.Quoted.literal))]

/-- The structured report of a run. -/
def structuredReport (defaultFile : Text) (exitCode : Nat) (diagnostics : List Diagnostic) :
    Text :=
  braced [
    ("exit_code", Text.decimal exitCode),
    ("diagnostics", bracketed (diagnostics.map (diagnosticObject defaultFile)))]

/-- Texts with a line end after each. -/
def lines (ts : List Text) : Text := ts.flatMap fun t => t ++ "\n"

/-- The report of a run for people. -/
def plainReport (defaultFile : Text) (diagnostics : List Diagnostic) : Text :=
  lines (diagnostics.map (Diagnostic.render (some defaultFile)))

end HostBindings.CommandLine

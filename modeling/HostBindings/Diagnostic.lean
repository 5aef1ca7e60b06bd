import HostBindings.Text

/-!
Diagnostics: where something was found, how bad it is, and what to say about it.
-/

namespace HostBindings

/-- A place in a source text; lines and columns count from one. A tree that is built by hand may
name any place. -/
structure Location where
  line : Int
  column : Int
deriving DecidableEq, Repr

namespace Location

/-- The start of a text. -/
def origin : Location := ⟨1, 1⟩

/-- The place after a code point; only a line feed ends a line. -/
def next (l : Location) (c : CodePoint) : Location :=
  if c = '\n' then ⟨l.line + 1, 1⟩ else ⟨l.line, l.column + 1⟩

/-- The place after a text. -/
def after (l : Location) (t : Text) : Location := t.foldl next l

end Location

/-- A place as far as it is known. -/
structure Span where
  file : Option Text := none
  line : Option Int := none
  column : Option Int := none
deriving DecidableEq, Repr

namespace Span

def ofLocation (loc : Option Location) : Span :=
  { line := loc.map (·.line), column := loc.map (·.column) }

/-- Names the file of a span that has none. -/
def inFile (file : Option Text) (s : Span) : Span :=
  if s.file.isNone then { s with file := file } else s

def isKnown (s : Span) : Bool := s.line.isSome

/-- A number, or a question mark for one that is not known. -/
def part : Option Int → Text
  | none => "?"
  | some n => Text.integer n

/-- `file:line:column`; a file that is missing or has no name is the input. -/
def describe (s : Span) : Text :=
  let file : Text := match s.file with
    | none | some [] => "<input>"
    | some name => name
  file ++ ":" ++ part s.line ++ ":" ++ part s.column

end Span

/-- How bad a diagnostic is. -/
inductive Severity
  | error
  | warning
  | other (label : Text)
deriving DecidableEq, Repr

namespace Severity

def label : Severity → Text
  | error => "error"
  | warning => "warning"
  | other label => label

def ofLabel (label : Text) : Severity :=
  if label = "error" then .error else if label = "warning" then .warning else .other label

end Severity

/-- The part of the work that a diagnostic comes from. -/
inductive Phase
  | reading
  | typing
  | lowering
  | composing
  | driving
deriving DecidableEq, Repr

def Phase.label : Phase → Text
  | reading => "parser"
  | typing => "typemap"
  | lowering => "lower"
  | composing => "compose"
  | driving => "driver"

/-- Something worth telling the user. -/
structure Diagnostic where
  message : Text
  code : Option Text := none
  phase : Option Text := none
  severity : Severity := .error
  span : Span := {}
  notes : List Text := []
deriving DecidableEq, Repr

namespace Diagnostic

def isError (d : Diagnostic) : Bool := d.severity = .error

/-- Names the file of a diagnostic that has none. -/
def inFile (file : Option Text) (d : Diagnostic) : Diagnostic :=
  { d with span := d.span.inFile file }

/-- `file:line:column: severity: message`, then one line per note. -/
def render (defaultFile : Option Text) (d : Diagnostic) : Text :=
  let first := (d.span.inFile defaultFile).describe ++ ": " ++ d.severity.label ++ ": " ++ d.message
  Text.join "\n" (first :: d.notes.map fun note => "  note: " ++ note)

/-- The file that a structured report names: an empty name counts as missing. -/
def reportedFile (defaultFile : Option Text) (d : Diagnostic) : Option Text :=
  match d.span.file with
  | none | some [] => defaultFile
  | some name => some name

end Diagnostic

/-- The diagnostics of one unit in order; diagnostics without a file get the unit's. -/
structure Log where
  file : Option Text
  entries : List Diagnostic := []
deriving DecidableEq, Repr

namespace Log

/-- The diagnostic as the log keeps it. -/
def stamp (log : Log) (d : Diagnostic) : Diagnostic := d.inFile log.file

def emit (log : Log) (d : Diagnostic) : Log := { log with entries := log.entries ++ [log.stamp d] }

def hasErrors (log : Log) : Bool := log.entries.any Diagnostic.isError

end Log

end HostBindings

import HostBindings.Diagnostic
import HostBindings.Text.Display

/-!
Failures: what ends the work on a unit.

A failure means that a construct has no sound binding, or that the source cannot be read. It is
reported as an error and the unit has no output. A fault is a value that no part of the library
produces and that a pass cannot handle; it has no diagnostic.
-/

namespace HostBindings

/-- The classes of failures. -/
inductive FailureKind
  | general
  | unsupported
  | invariant
  | malformed
deriving DecidableEq, Repr

namespace FailureKind

def code : FailureKind → Text
  | general => "E-BINDGEN"
  | unsupported => "E-UNSUPPORTED"
  | invariant => "E-INVARIANT"
  | malformed => "E-SYNTAX"

def phase : FailureKind → Phase
  | malformed => .reading
  | _ => .lowering

end FailureKind

/-- Type expressions without a counterpart at the boundary. -/
inductive Inexpressible
  | keyword (word : Text)
  | destructuring
  | constructorType
  | indexedAccess
  | query (segments : List Text)
  | mapped
  | conditional
  | predicate
  | inferred
  | restElement
  | operator (op : Text)
deriving DecidableEq, Repr

def Inexpressible.describe : Inexpressible → Text
  | keyword word => "`" ++ word ++ "` type"
  | destructuring => "destructuring parameter in function type"
  | constructorType => "constructor type"
  | indexedAccess => "indexed access type"
  | query segments => "`typeof " ++ Text.join "." segments ++ "`"
  | mapped => "mapped type"
  | conditional => "conditional type"
  | predicate => "type predicate"
  | inferred => "`infer` type"
  | restElement => "rest element type"
  | operator op => "`" ++ op ++ "` type operator"

/-- Why the work on a unit ends. -/
inductive Cause
  | inexpressible (what : Inexpressible)
  | unmappedType (kind : Text)
  | unknownKeyword (word : Text)
  | unloweredStatement (kind : Text)
  | destructuringParameter
  | destructuringVariable
  | classIndexSignature
  | staticBlock
  | emptyMember
  | constructorKey (key : Text)
  | secondConstructor
  | unsupportedMember (kind : Text)
  | enumeration
  | nameless (what : Text)
  | declaratorCount (count : Nat)
  | unexpectedToken (text : Text)
  | unexpectedCharacter (c : CodePoint)
  | stated (kind : FailureKind) (message : Text)
deriving DecidableEq, Repr

namespace Cause

def kind : Cause → FailureKind
  | nameless _ | declaratorCount _ => .invariant
  | unexpectedToken _ | unexpectedCharacter _ => .malformed
  | stated kind _ => kind
  | _ => .unsupported

def message : Cause → Text
  | inexpressible what => what.describe ++ " cannot be expressed in bindings"
  | unmappedType kind => "no type mapping for " ++ kind
  | unknownKeyword word => "unknown keyword type `" ++ word ++ "`"
  | unloweredStatement kind => "no lowering for " ++ kind
  | destructuringParameter => "destructuring parameters are not supported"
  | destructuringVariable => "destructuring variable declarations are not supported"
  | classIndexSignature => "index signatures in classes are not supported"
  | staticBlock => "static blocks are not supported"
  | emptyMember => "empty class members are not supported"
  | constructorKey key => "constructor declared with key `" ++ key ++ "`"
  | secondConstructor => "more than one constructor"
  | unsupportedMember kind => "unsupported class member " ++ kind
  | enumeration => "enums are not supported"
  | nameless what => what ++ " declaration without a name"
  | declaratorCount count =>
    "variable statement declares " ++ Text.decimal count ++ " bindings; expected exactly one"
  | unexpectedToken text => "unexpected token " ++ Text.Display.quoted text
  | unexpectedCharacter c => "unexpected character " ++ Text.Display.quoted [c]
  | stated _ message => message

end Cause

/-- A cause with the declaration, the member and the place it came from. -/
structure Failure where
  cause : Cause
  declaration : Option Text := none
  member : Option Text := none
  span : Option Span := none
deriving DecidableEq, Repr

namespace Failure

/-- A failure at a place in the source. -/
def ofCause (cause : Cause) (loc : Option Location) : Failure :=
  { cause, span := loc.map fun l => Span.ofLocation (some l) }

/-- Fills in what was not known where the failure arose. -/
def within (declaration member : Option Text) (span : Option Span) (f : Failure) : Failure :=
  { f with
    declaration := f.declaration <|> declaration
    member := f.member <|> member
    span := f.span <|> span }

/-- `declaration.member`, or the one of them that has a name. -/
def context (f : Failure) : Text :=
  match f.declaration.getD [], f.member.getD [] with
  | [], member => member
  | declaration, [] => declaration
  | declaration, member => declaration ++ "." ++ member

/-- The cause, followed by where it arose. -/
def message (f : Failure) : Text :=
  if f.context = [] then f.cause.message
  else f.cause.message ++ " (in `" ++ f.context ++ "`)"

def toDiagnostic (file : Option Text) (f : Failure) : Diagnostic :=
  { message := f.message
    code := some f.cause.kind.code
    phase := some f.cause.kind.phase.label
    severity := .error
    span := (f.span.getD {}).inFile file }

end Failure

/-- Values that no source leads to and that a part of the work cannot handle. -/
inductive Fault
  /-- A type or a use without a written form. -/
  | unwritable
  /-- An escape that names a number above the last code point. -/
  | escapeOutOfRange
  /-- An escape that names a number above the machine's integers. -/
  | escapeOverflow
  /-- A node that lacks a part it has to have. -/
  | incomplete
  /-- A path without segments where its last one is needed. -/
  | emptyPath
  /-- A value that was left out where it is needed. -/
  | missingValue
deriving DecidableEq, Repr

/-- Why work ends early: a failure, which is reported, or a fault. -/
inductive Halt
  | failure (f : Failure)
  | fault (f : Fault)
deriving DecidableEq, Repr

/-- Adds to a failure what is known about where it arose. -/
def Halt.within (declaration member : Option Text) (span : Option Span) : Halt → Halt
  | failure f => failure (f.within declaration member span)
  | fault f => fault f

end HostBindings

import HostBindings.Binding.Erasure
import HostBindings.Options
import HostBindings.Outcome
import HostBindings.Source.TypeExpr

/-!
Boundary types of type expressions.

Each kind of type expression has a boundary type, degrades to the dynamic value with a warning, or
fails. `within` names the declaration and the member that the expression stands in.
-/

namespace HostBindings.Lowering

open Source

/-- A type that degrades to the dynamic value. -/
def degrade (within : List Text) (what : Degraded) (loc : Option Location) :
    Outcome BindingType := do
  Outcome.warn (.degraded what within) loc
  return .dynamic

def inexpressible {α : Type} (what : Inexpressible) (loc : Option Location) : Outcome α :=
  Outcome.fail (.inexpressible what) loc

/-- Ends the work at a stray node; one without a place cannot be reported. -/
def strayed {α : Type} (cause : Text → Cause) : Stray → Outcome α
  | .node kind loc => Outcome.fail (cause kind) loc
  | .value => Outcome.breakOff .incomplete

def keywordType (word : Keyword) (loc : Option Location) : Outcome BindingType :=
  match word with
  | .number => return .float
  | .boolean => return .bool
  | .string => return .string
  | .void => return .unit
  | .any | .unknown | .null | .undefined | .never | .object => return .dynamic
  | .bigint | .symbol | .intrinsic => inexpressible (.keyword word.word) loc
  | .other word => Outcome.fail (.unknownKeyword word) loc

/-- The names of the array types, whose argument is the element type. -/
def arrayNames : List Text := ["Array", "ReadonlyArray"]

/-- The path of a name inside namespaces. -/
def scopedPath (options : Options) (qualifier : List Text) (name : Text) : List Text :=
  qualifier.map options.scopeName ++ [Identifier.rustName name]

/-- A type without the parentheses around it. -/
def stripParens : TypeExpr → TypeExpr
  | .paren inner _ => stripParens inner
  | ty => ty

/-- Whether a type stands for the absence of a value. -/
def isNullish (ty : TypeExpr) : Bool :=
  match stripParens ty with
  | .keyword .null _ | .keyword .undefined _ => true
  | _ => false

def isVoid : TypeExpr → Bool
  | .keyword .void _ => true
  | _ => false

/-- An import type: a relative specifier and a name in that module. -/
def importedType (options : Options) (within : List Text) (specifier : Text)
    (qualifier : List Text) (loc : Option Location) : Outcome BindingType :=
  if !Specifier.isRelative specifier then degrade within (.packageImport specifier) loc
  else
    match qualifier.getLast? with
    | none => degrade within (.wholeModule specifier) loc
    | some name =>
      return .named (options.specifierPath specifier ++
        scopedPath options qualifier.dropLast name)

mutual

/-- The boundary type of a type expression. -/
def mapType (options : Options) (within : List Text) : TypeExpr → Outcome BindingType
  | .keyword word loc => keywordType word loc
  | .this _ => return .self
  | .reference qualifier name args _ =>
    if !qualifier.isEmpty then return .named (scopedPath options qualifier name)
    else if arrayNames.contains name then
      match args with
      | [] => return .boxedSlice .dynamic
      | element :: _ => do
        let element ← mapType options within element
        return .boxedSlice element
    else if Catalog.isStringType name then return .string
    else return .named [Identifier.rustName name]
  | .unnamed _ _ => Outcome.breakOff .emptyPath
  | .function params result typeParams _ => do
    let params ← mapParams options within params
    let result ← mapResult options within result
    let scope := GenericScope.ofNames (typeParams.map (·.name))
    return .reference ((BindingType.callable params result).erase scope)
  | .array element _ => do
    let element ← mapType options within element
    return .boxedSlice element
  | .optional inner _ => do
    let inner ← mapType options within inner
    return inner.optional
  | .union members loc =>
    match members with
    | [first, second] =>
      if isNullish second && !isNullish first then do
        let inner ← mapType options within first
        return inner.optional
      else if isNullish first && !isNullish second then do
        let inner ← mapType options within second
        return inner.optional
      else degrade within .union loc
    | _ => degrade within .union loc
  | .intersection members loc =>
    match members with
    | [] => degrade within .emptyIntersection loc
    | first :: _ => mapType options within first
  | .tuple elements _ => do
    let elements ← mapTypes options within elements
    return .tuple elements
  | .paren inner _ => mapType options within inner
  | .importType specifier qualifier _ loc => importedType options within specifier qualifier loc
  | .object _ loc => degrade within .objectType loc
  | .literal kind _ loc => degrade within (.literal kind.label) loc
  | .constructorType _ _ _ _ loc => inexpressible .constructorType loc
  | .indexed _ _ loc => inexpressible .indexedAccess loc
  | .query segments loc => inexpressible (.query segments) loc
  | .mapped _ _ _ loc => inexpressible .mapped loc
  | .conditional _ _ _ _ loc => inexpressible .conditional loc
  | .predicate _ _ _ loc => inexpressible .predicate loc
  | .infer _ loc => inexpressible .inferred loc
  | .rest _ loc => inexpressible .restElement loc
  | .operator op _ loc => inexpressible (.operator op) loc
  | .stray s => strayed .unmappedType s

def mapTypes (options : Options) (within : List Text) :
    List TypeExpr → Outcome (List BindingType)
  | [] => return []
  | ty :: rest => do
    let head ← mapType options within ty
    let tail ← mapTypes options within rest
    return head :: tail

/-- The boundary types of the parameters of a function type. -/
def mapParams (options : Options) (within : List Text) : List Param → Outcome (List BindingType)
  | [] => return []
  | ⟨pattern, annotated, isOptional, _, loc⟩ :: rest => do
    match pattern with
    | .name _ _ =>
      let type ← mapAnnotated options within annotated
      let tail ← mapParams options within rest
      return (if isOptional then type.optional else type) :: tail
    | .absent => Outcome.breakOff .incomplete
    | _ => inexpressible .destructuring loc

/-- The boundary type of an annotated place; without a type it holds the dynamic value. -/
def mapAnnotated (options : Options) (within : List Text) : Option TypeExpr → Outcome BindingType
  | none => return .dynamic
  | some ty => mapType options within ty

/-- The boundary type of a result; a missing type and `void` mean that there is none. -/
def mapResult (options : Options) (within : List Text) :
    Option TypeExpr → Outcome (Option BindingType)
  | none => return none
  | some ty =>
    if isVoid ty then return none
    else do
      let ty ← mapType options within ty
      return some ty

end

end HostBindings.Lowering

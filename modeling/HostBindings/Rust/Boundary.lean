import HostBindings.Catalog
import HostBindings.Failure
import HostBindings.Rust.Unit

/-!
Types that may cross the boundary.

Only a closed set of types crosses to the host: built-in scalars and strings, host types of the
catalogs and the types that the unit provides; references to, options of and, where the host
allows them, slices of these; and the dynamic value. Every other slot is filled by the dynamic
value, which carries anything. A reference to a callable may be passed but never returned.
-/

namespace HostBindings.Rust.Boundary

/-- Built-in types with slices. -/
def sliceablePrimitives : List Text :=
  ["i32", "isize", "i64", "u32", "usize", "u64", "f32", "f64"]

/-- Built-in types without slices. -/
def plainPrimitives : List Text := ["bool", "char", "()", "String"]

/-- Whether a path names a host type or one of the unit's own. -/
def isKnownPath (custom : List (List Text)) (path : List Text) : Bool :=
  custom.contains path ||
    match path with
    | [name] => Catalog.isKnown name
    | _ => false

/-- Types of which slices cross the boundary. -/
def isSliceable (custom : List (List Text)) : BindingType → Bool
  | .primitive name => sliceablePrimitives.contains name
  | .named path => isKnownPath custom path
  | _ => false

/-- Types that cross as they are, by reference and as options. -/
def isBase (custom : List (List Text)) : BindingType → Bool
  | .primitive name => sliceablePrimitives.contains name || plainPrimitives.contains name
  | .named path => isKnownPath custom path
  | _ => false

/-- The closed set of types that cross the boundary. -/
def isSafe (custom : List (List Text)) : BindingType → Bool
  | .dynamic => true
  | .reference inner => isBase custom inner
  | .option (.boxedSlice inner) => isSliceable custom inner
  | .option inner => isBase custom inner
  | .boxedSlice inner => isSliceable custom inner
  | ty => isBase custom ty

/-- Whether a type is a callable reference, or options and slices around one. -/
def hasCallableCore : BindingType → Bool
  | .option inner => hasCallableCore inner
  | .boxedSlice inner => hasCallableCore inner
  | ty => ty.isCallableReference

/-- The type that stands in a slot instead of `ty`. -/
def legalizeType (custom : List (List Text)) (isResult : Bool) (ty : BindingType) : BindingType :=
  if isResult && hasCallableCore ty then .dynamic
  else if ty.isCallableReference then ty
  else if isSafe custom ty then ty
  else .dynamic

/-- Whether the type in a slot has to be looked up in the closed set. -/
def needsLookup (isResult : Bool) (ty : BindingType) : Bool :=
  !(isResult && hasCallableCore ty) && !ty.isCallableReference

/-- The type that stands in a slot instead of `ty`; a node that is no type cannot be looked up. -/
def legalizeSlot (custom : List (List Text)) (isResult : Bool) (ty : BindingType) :
    Except Fault BindingType :=
  if needsLookup isResult ty && ty.hasStray then .error .unwritable
  else .ok (legalizeType custom isResult ty)

/-- Work that may meet a fault; after one it leaves everything as it is. -/
abbrev Cautious := StateM (Option Fault)

/-- Replaces a value, unless there was a fault; a fault leaves it as it is. -/
def attempt {α : Type} (f : α → Except Fault α) (a : α) : Cautious α := do
  if (← get).isSome then return a
  match f a with
  | .ok a => return a
  | .error fault =>
    set (some fault)
    return a

/-- Replaces the types of a binding: those of the parameters together, then that of the result. -/
def legalizeShape (custom : List (List Text)) : BindingShape → Cautious BindingShape
  | .hostType => return .hostType
  | .function params result => do
    let params ← attempt (fun params => params.mapM fun p => do
      return { p with type := ← legalizeSlot custom false p.type }) params
    let result ← attempt (fun result => result.mapM (legalizeSlot custom true)) result
    return .function params result
  | .static type => do
    let type ← attempt (legalizeSlot custom false) type
    return .static type

def legalizeBinding (custom : List (List Text)) (b : Binding) : Cautious Binding := do
  let shape ← legalizeShape custom b.shape
  return { b with shape := shape }

mutual

/-- Replaces the types of the bindings below an item. -/
def legalizeItem (custom : List (List Text)) : Item → Cautious Item
  | .block bindings => do
    let bindings ← bindings.mapM (legalizeBinding custom)
    return .block bindings
  | .scope name items => do
    let items ← legalizeItems custom items
    return .scope name items
  | item => return item

def legalizeItems (custom : List (List Text)) : List Item → Cautious (List Item)
  | [] => return []
  | item :: rest => do
    let head ← legalizeItem custom item
    let tail ← legalizeItems custom rest
    return head :: tail

end

end HostBindings.Rust.Boundary

namespace HostBindings.Rust.SourceUnit

/-- Paths of the types that a unit provides: each of its types by its name and by its path from
the root, and each public use by the name it binds. -/
def customPaths (u : SourceUnit) : List (List Text) :=
  (u.blocks.flatMap fun (path, bindings) =>
    (bindings.filter Binding.isHostType).flatMap fun b => [[b.name], path ++ [b.name]]) ++
  (u.allUses.filter (·.isPublic)).filterMap fun use => use.boundName.map fun name => [name]

/-- Replaces every type that may not cross the boundary, given the unit's own types. -/
def legalizeWith (custom : List (List Text)) (u : SourceUnit) : SourceUnit :=
  u.mapBlocks fun bindings => bindings.map (Binding.mapTypes (Boundary.legalizeType custom))

/-- Replaces every type that may not cross the boundary. -/
def legalize (u : SourceUnit) : SourceUnit := u.legalizeWith u.customPaths

/-- Legalization of a unit that may hold nodes that are no types. It stops at the first one that
has to be looked up, and what was done before stays. -/
def legalizeCautiously (u : SourceUnit) : SourceUnit × Option Fault :=
  let (items, fault) := (Boundary.legalizeItems u.customPaths u.items).run none
  (⟨items⟩, fault)

end HostBindings.Rust.SourceUnit

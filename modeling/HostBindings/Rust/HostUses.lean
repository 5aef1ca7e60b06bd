import HostBindings.Options
import HostBindings.Ordered
import HostBindings.Rust.Unit

/-!
Imports of host types.

A type that a unit refers to by a single name and does not provide itself is imported from the
host crate that exports it.
-/

namespace HostBindings.Rust.SourceUnit

/-- Names of one segment that the types and the bases of a binding refer to. -/
def namesIn (b : Binding) : List Text :=
  (b.types.flatMap BindingType.walk).filterMap BindingType.simpleName? ++
  b.attributes.bases.filterMap fun
    | [name] => some name
    | _ => none

/-- Names of one segment that the unit refers to, in code point order. -/
def referencedNames (u : SourceUnit) : List Text :=
  Ordered.ofList (u.bindings.flatMap namesIn)

/-- Names that the unit provides: its types, and what the uses at its root bind. -/
def declaredNames (u : SourceUnit) : List Text :=
  Ordered.ofList
    ((u.bindings.filter Binding.isHostType).map (·.name) ++ u.rootUses.filterMap Use.boundName)

/-- The import of a name from a crate. -/
def hostUse (crate name : Text) : Use :=
  { path := [[], crate], name := some name, isPublic := false }

/-- Imports of the host types that the unit refers to and that are not among the provided names,
by crate and then by name. -/
def hostUsesBeyond (options : Options) (provided : List Text) (u : SourceUnit) : List Use :=
  let needed := u.referencedNames.filter fun name => !provided.contains name
  let keys := needed.filterMap fun name =>
    (Catalog.crateOf? name).map fun crate => (options.crateName crate, name)
  (Ordered.ofList (keys.map fun key => [key.1, key.2])).filterMap fun
    | [crate, name] => some (hostUse crate name)
    | _ => none

/-- Imports of the host types that the unit refers to and does not provide. -/
def hostUses (options : Options) (u : SourceUnit) : List Use :=
  u.hostUsesBeyond options u.declaredNames

/-- The unit with its imports of host types in front. -/
def addHostUses (options : Options) (u : SourceUnit) : SourceUnit :=
  { items := (u.hostUses options).map Item.use ++ u.items }

end HostBindings.Rust.SourceUnit

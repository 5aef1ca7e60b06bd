import HostBindings.Options
import HostBindings.Outcome
import HostBindings.Rust.Unit
import HostBindings.Source.Module

/-!
Uses from imports and exports.

Every unit is a module of its own and reaches the others through the tree of modules, so an import
is a public use of another unit's module, which passes the name on. An import or export of a whole
module under one name has no use that keeps its meaning; it is dropped with a warning.
-/

namespace HostBindings.Composition

open Source Rust

/-- A use of a foreign name; an alias that changes nothing is left out. -/
def useOf (path : List Text) (name : Text) (rename : Option Text) (isPublic : Bool) : Use :=
  let name := Identifier.rustName name
  let rename := (rename.map Identifier.rustName).filter (· != name)
  { path, name := some name, rename, isPublic }

/-- The exported name that an import asks for. -/
def importedName (s : ImportSpecifier) : Text :=
  match s.imported with
  | none | some [] => s.localName
  | some name => name

/-- Leaves out an import or export that has no use. -/
def drop (concern : Concern) (loc : Option Location) : Outcome (Option Use) := do
  Outcome.warn concern loc
  return none

def linkImport (path : List Text) (source : Text) (s : ImportSpecifier) : Outcome (Option Use) :=
  match s.kind with
  | .named => return some (useOf path (importedName s) (some s.localName) true)
  | .default =>
    return some { path, name := some "default", rename := some (Identifier.rustName s.localName) }
  | .whole => drop (.namespaceImport s.localName source) s.loc

/-- Whether an exported name is that of the declaration itself, which is public already. -/
def keepsName (s : ExportSpecifier) : Bool :=
  s.exported.all fun name => Identifier.rustName name = Identifier.rustName s.name

def linkExport (options : Options) (source : Option Text) (s : ExportSpecifier) :
    Outcome (Option Use) :=
  if s.kind = .whole then drop (.namespaceReexport s.exported source) s.loc
  else
    match source with
    | none => return if keepsName s then none else some (useOf ["self"] s.name s.exported true)
    | some source => return some (useOf (options.specifierPath source) s.name s.exported true)

/-- The use of an alias; the outer segments of an entity are namespaces of the same unit. -/
def aliasUse? (options : Options) (a : ImportAlias) : Except Fault (Option Use) :=
  match a.target with
  | .required none => .error .emptyPath
  | .required (some specifier) =>
    let path := options.specifierPath specifier
    match path.getLast? with
    | none => .ok none
    | some name =>
      if name = "super" then .ok none
      else
        .ok (some { path := path.dropLast, name := some name
                    rename := some (Identifier.rustName a.name), isPublic := a.isExport })
  | .entity segments =>
    match segments.getLast? with
    | none => .ok none
    | some name =>
      .ok (some (useOf ("self" :: segments.dropLast.map options.scopeName) name (some a.name)
        a.isExport))

def linkAlias (options : Options) (a : ImportAlias) : Outcome (Option Use) :=
  match aliasUse? options a with
  | .error fault => Outcome.breakOff fault
  | .ok (some use) => return some use
  | .ok none => drop (.unresolvedImport a.name) a.loc

/-- The uses of a list of imports or exports that have one. -/
def linkAll {α : Type} (f : α → Outcome (Option Use)) : List α → Outcome (List Use)
  | [] => return []
  | a :: rest => do
    let head ← f a
    let tail ← linkAll f rest
    return head.toList ++ tail

/-- The uses of a statement; only imports and exports by reference have some. -/
def link (options : Options) : Statement → Outcome (List Use)
  | .importDeclaration d =>
    linkAll (linkImport (options.specifierPath d.source) d.source) d.specifiers
  | .exportList d => linkAll (linkExport options d.source) d.specifiers
  | .exportAll source _ _ => return [{ path := options.specifierPath source, glob := true }]
  | .exportDefaultName name _ =>
    return [{ path := ["self"], name := some (Identifier.rustName name)
              rename := some "default" }]
  | .importAlias a => linkAll (linkAlias options) [a]
  | _ => return []

/-- The uses for the imports and exports of a module, in source order. -/
def uses (options : Options) : List Statement → Outcome (List Use)
  | [] => return []
  | statement :: rest => do
    let head ← link options statement
    let tail ← uses options rest
    return head ++ tail

end HostBindings.Composition

import HostBindings.Composition.Uses
import HostBindings.Lowering.Declarations
import HostBindings.Rust.Assembly
import HostBindings.Source.Visibility

/-!
Composition of a unit from a module.

A composed unit holds the uses of its imports and exports, the use of the binding attribute if it
binds anything, a scope module per namespace, and one extern block with the bindings at the root.
A scope starts with a use of all names around it, so that they resolve unchanged inside; every
binding below it carries the name of the namespace.
-/

namespace HostBindings.Composition

open Source Rust

/-- The use that makes the names around a scope visible inside it. -/
def enclosingUse : Use := { path := ["super"], isPublic := false, glob := true }

/-- The scope module of a namespace. -/
def scopeOf (options : Options) (name : Text) (items : List Item) : Item :=
  .scope (options.scopeName name) (.use enclosingUse :: Item.enclose name items)

mutual

/-- Adds what a declaration gives to the items composed before it: a namespace with a block of its
own becomes a scope module, any other declaration becomes bindings. -/
def composeDeclaration (options : Options) (items : List Item) :
    Declaration → Outcome (List Item)
  | .space ⟨name, .block statements blockLoc, isStringName, isGlobal, loc⟩ =>
    if isStringName || isGlobal then do
      let bindings ← Lowering.lower options []
        (.space ⟨name, .block statements blockLoc, isStringName, isGlobal, loc⟩)
      return Item.addBindings bindings items
    else do
      let inner ← composeStatements options [] statements
      return Item.addTo items (scopeOf options name inner)
  | d => do
    let bindings ← Lowering.lower options [] d
    return Item.addBindings bindings items

/-- Adds the declarations of a namespace's body; all of them are visible, exported or not. -/
def composeStatements (options : Options) (items : List Item) :
    List Statement → Outcome (List Item)
  | [] => return items
  | .declaration d :: rest | .exportDeclaration d _ :: rest
  | .exportDefaultDeclaration d _ :: rest => do
    let items ← composeDeclaration options items d
    composeStatements options items rest
  | _ :: rest => composeStatements options items rest

end

/-- Adds declarations in order. -/
def composeDeclarations (options : Options) (items : List Item) :
    List Declaration → Outcome (List Item)
  | [] => return items
  | d :: rest => do
    let items ← composeDeclaration options items d
    composeDeclarations options items rest

/-- The names under which a module is available to scripts. -/
def scriptNames (body : List Statement) : List Text :=
  body.filterMap fun
    | .exportAsNamespace name _ => some name
    | _ => none

/-- The use of the binding attribute. -/
def preludeUse (options : Options) : Use :=
  { path := options.bindgenPath ++ [Text.ofString "prelude"], name := some "wasm_bindgen"
    isPublic := false }

/-- The use of the binding attribute, where there is something to bind. -/
def preludeItems (options : Options) (items : List Item) : List Item :=
  if (SourceUnit.mk items).bindings.isEmpty then [] else [.use (preludeUse options)]

/-- The unit of a module. Each name for scripts goes around all bindings. -/
def compose (options : Options) (m : Module) : Outcome SourceUnit := do
  let uses ← uses options m.body
  let items ← composeDeclarations options [] m.visibleDeclarations
  let items := (scriptNames m.body).foldl (fun items name => Item.enclose name items) items
  return ⟨uses.map Item.use ++ preludeItems options items ++ items⟩

end HostBindings.Composition

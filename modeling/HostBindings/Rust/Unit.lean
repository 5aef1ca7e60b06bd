import HostBindings.Binding.Basic

/-!
The tree of one output file: uses, scope modules and extern blocks.
-/

namespace HostBindings.Rust

/-- A use declaration. A path that starts with an empty segment is absolute; a glob has no name. -/
structure Use where
  path : List Text
  name : Option Text := none
  rename : Option Text := none
  isPublic : Bool := true
  glob : Bool := false
deriving DecidableEq, Repr

/-- The name that a use brings into scope; a glob brings none of its own. -/
def Use.boundName (u : Use) : Option Text :=
  if u.glob then none
  else
    match u.rename with
    | some (c :: rest) => some (c :: rest)
    | _ => u.name

/-- An item of a file or of a scope module. -/
inductive Item
  | use (u : Use)
  | block (bindings : List Binding)
  | scope (name : Text) (items : List Item)
  /-- A node that is no item, as it was given. Composition makes none; a tree built by hand may hold
  one, which cannot be written. -/
  | stray (written : Text)
deriving Repr

/-- The items of one output file. -/
structure SourceUnit where
  items : List Item
deriving Repr

namespace Item

mutual

/-- Every extern block below an item, with the scopes that lead to it. -/
def blocks (path : List Text) : Item → List (List Text × List Binding)
  | .use _ | .stray _ => []
  | .block bindings => [(path, bindings)]
  | .scope name items => blocksOf (path ++ [name]) items

def blocksOf (path : List Text) : List Item → List (List Text × List Binding)
  | [] => []
  | item :: rest => blocks path item ++ blocksOf path rest

end

mutual

/-- Applies `f` to every extern block below an item. -/
def mapBlocks (f : List Binding → List Binding) : Item → Item
  | .use u => .use u
  | .stray written => .stray written
  | .block bindings => .block (f bindings)
  | .scope name items => .scope name (mapBlocksOf f items)

def mapBlocksOf (f : List Binding → List Binding) : List Item → List Item
  | [] => []
  | item :: rest => mapBlocks f item :: mapBlocksOf f rest

end

mutual

/-- Every use below an item, scope modules included. -/
def uses : Item → List Use
  | .use u => [u]
  | .block _ | .stray _ => []
  | .scope _ items => usesOf items

def usesOf : List Item → List Use
  | [] => []
  | item :: rest => uses item ++ usesOf rest

end

/-- Puts a namespace around every binding below the items. -/
def enclose (name : Text) (items : List Item) : List Item :=
  mapBlocksOf (fun bindings => bindings.map (Binding.enclose name)) items

end Item

namespace SourceUnit

/-- Every extern block with the scope path that leads to it, in the order of the text. -/
def blocks (u : SourceUnit) : List (List Text × List Binding) := Item.blocksOf [] u.items

/-- Every binding, in the order of the text. -/
def bindings (u : SourceUnit) : List Binding := u.blocks.flatMap (·.2)

/-- Applies `f` to every extern block. -/
def mapBlocks (f : List Binding → List Binding) (u : SourceUnit) : SourceUnit :=
  { items := Item.mapBlocksOf f u.items }

/-- The uses at the root. -/
def rootUses (u : SourceUnit) : List Use :=
  u.items.filterMap fun
    | .use u => some u
    | _ => none

/-- Every use, scope modules included. -/
def allUses (u : SourceUnit) : List Use := Item.usesOf u.items

end SourceUnit

end HostBindings.Rust

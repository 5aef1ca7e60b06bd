import HostBindings.Rust.Unit

/-!
Assembly of items: a list of items holds each scope module once and at most one extern block, the
block last. Adding a scope that is there already joins the two.
-/

namespace HostBindings.Rust.Item

/-- Adds bindings to the first extern block, or in a block of their own at the end. -/
def addBindings (bindings : List Binding) : List Item → List Item
  | [] => if bindings.isEmpty then [] else [.block bindings]
  | .block existing :: rest => .block (existing ++ bindings) :: rest
  | item :: rest => item :: addBindings bindings rest

/-- Puts an item before the first extern block. -/
def insertBeforeBlock (item : Item) : List Item → List Item
  | [] => [item]
  | .block bindings :: rest => item :: .block bindings :: rest
  | other :: rest => other :: insertBeforeBlock item rest

/-- Whether there is a scope module of that name. -/
def hasScope (name : Text) (items : List Item) : Bool :=
  items.any fun
    | .scope other _ => other == name
    | _ => false

/-- Applies `f` to the items of the scope modules of that name. -/
def mapScope (name : Text) (f : List Item → List Item) (items : List Item) : List Item :=
  items.map fun
    | .scope other inner => if other == name then .scope other (f inner) else .scope other inner
    | item => item

mutual

/-- Adds an item of a reopened scope: bindings join the block, a scope joins the one of its name.
Uses are left out, since each scope starts with the same one. -/
def addTo (items : List Item) : Item → List Item
  | .use _ | .stray _ => items
  | .block bindings => addBindings bindings items
  | .scope name inner =>
    if hasScope name items then mapScope name (fun existing => addAllTo existing inner) items
    else insertBeforeBlock (.scope name inner) items

def addAllTo (items : List Item) : List Item → List Item
  | [] => items
  | item :: rest => addAllTo (addTo items item) rest

end

end HostBindings.Rust.Item

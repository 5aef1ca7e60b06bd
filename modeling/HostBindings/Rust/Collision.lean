import HostBindings.Rust.Unit

/-!
Name collisions within one extern block.

The source may repeat a name, the output may not. Free functions and statics share one name space
and each type's members share another. The first binding of a name keeps it; each later one gets
the first free numbered name and remembers its host name. Repeated types fold into the first one.
-/

namespace HostBindings.Rust.Collision

/-- A name together with the owner whose members it has to differ from. -/
structure Claim where
  owner : Option Text
  name : Text
deriving DecidableEq, Repr

/-- What is known after some bindings of a block: the names taken and the bindings kept. -/
structure State where
  taken : List Claim := []
  kept : List Binding := []

/-- The `k`-th alternative for a name. -/
def numbered (base : Text) (k : Nat) : Text := base ++ "_" ++ Text.decimal k

/-- The first alternative from the `k`-th on that is not taken, among as many as the fuel says. -/
def firstFree (isTaken : Text → Bool) (base : Text) : Nat → Nat → Text
  | 0, k => numbered base k
  | fuel + 1, k =>
    if isTaken (numbered base k) then firstFree isTaken base fuel (k + 1) else numbered base k

/-- The first free alternative; of more alternatives than taken names one is free. -/
def freshName (taken : List Claim) (owner : Option Text) (base : Text) : Text :=
  firstFree (fun name => taken.contains ⟨owner, name⟩) base taken.length 1

/-- Whether a binding is a constructor, which has no host name. -/
def isConstructor (b : Binding) : Bool :=
  match b.shape with
  | .function _ _ => b.attributes.isConstructor
  | _ => false

/-- The binding under another name, with its host name noted. -/
def rename (name : Text) (b : Binding) : Binding :=
  let base := Identifier.bareName b.name
  let hostName :=
    if isConstructor b then b.attributes.hostName else b.attributes.hostName <|> some base
  { b with name := name, attributes := { b.attributes with hostName := hostName } }

/-- The binding under a name that its owner has not given away. -/
def settle (taken : List Claim) (owner : Option Text) (b : Binding) : Binding :=
  if taken.contains ⟨owner, b.name⟩ then
    rename (freshName taken owner (Identifier.bareName b.name)) b
  else b

/-- In a member's signature the receiver's type is the owner. -/
def resolveSelf (b : Binding) : Binding :=
  match b.attributes.owner with
  | some owner => b.mapTypes fun _ type => type.substitute "Self" (.named [owner])
  | none => b

/-- Adds the bases that are not there yet, in order. -/
def mergeBases (bases more : List (List Text)) : List (List Text) :=
  more.foldl (fun acc base => if acc.contains base then acc else acc ++ [base]) bases

/-- Adds the bases of a repeated type to the first type of that name. -/
def foldType (repeated : Binding) (kept : List Binding) : List Binding :=
  kept.map fun b =>
    if b.isHostType && b.name == repeated.name then
      { b with
        attributes :=
          { b.attributes with bases := mergeBases b.attributes.bases repeated.attributes.bases } }
    else b

/-- Keeps a function or static under a free name of its owner. -/
def keep (s : State) (owner : Option Text) (b : Binding) : State :=
  let settled := settle s.taken owner b
  { taken := ⟨owner, settled.name⟩ :: s.taken, kept := s.kept ++ [settled] }

/-- Takes in the next binding of a block. -/
def step (s : State) (b : Binding) : State :=
  match b.shape with
  | .hostType =>
    if s.kept.any fun other => other.isHostType && other.name == b.name then
      { s with kept := foldType b s.kept }
    else { s with kept := s.kept ++ [b] }
  | .function _ _ => keep s b.attributes.owner (resolveSelf b)
  | .static _ => keep s none b

/-- The bindings of a block without collisions. -/
def resolve (bindings : List Binding) : List Binding :=
  (bindings.foldl step {}).kept

end HostBindings.Rust.Collision

namespace HostBindings.Rust.SourceUnit

/-- Resolves the collisions of every extern block. -/
def resolveCollisions (u : SourceUnit) : SourceUnit := u.mapBlocks Collision.resolve

end HostBindings.Rust.SourceUnit

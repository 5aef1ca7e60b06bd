import HostBindings.Binding.Type

/-!
Erasure of generics. The boundary knows no type parameters, so a reference to one in scope becomes
the dynamic value. Scopes of nested declarations are joined.
-/

namespace HostBindings

/-- The Rust names of the type parameters in scope. -/
abbrev GenericScope := List Text

namespace GenericScope

/-- The scope of a list of type parameters, by their foreign names. -/
def ofNames (names : List Text) : GenericScope := names.map Identifier.rustName

end GenericScope

namespace BindingType

/-- Whether a type is a bare reference to a name in scope; a longer path never is. -/
def isParameter (scope : GenericScope) : BindingType → Bool
  | .named [name] => scope.contains name
  | _ => false

/-- Every reference to a name in scope becomes the dynamic value. -/
def erase (scope : GenericScope) (ty : BindingType) : BindingType :=
  if scope.isEmpty then ty
  else ty.replace fun node => if node.isParameter scope then some .dynamic else none

end BindingType

end HostBindings

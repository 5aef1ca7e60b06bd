import HostBindings.Catalog.BrowserTypes
import HostBindings.Catalog.LanguageTypes
import HostBindings.Catalog.StringTypes
import HostBindings.Ordered

/-!
The known host types: which names cross the boundary as strings, and which are exported by the
host binding crates.
-/

namespace HostBindings

/-- The crates that export host types. -/
inductive HostCrate
  | browser
  | language
deriving DecidableEq, Repr

namespace Catalog

def isStringType (name : Text) : Bool := stringTypes.contains name

/-- The crate that exports a name; the browser's wins where both do. -/
def crateOf? (name : Text) : Option HostCrate :=
  if browserTypes.contains name then some .browser
  else if languageTypes.contains name then some .language
  else none

/-- Whether any catalog lists a name. -/
def isKnown (name : Text) : Bool :=
  stringTypes.contains name || browserTypes.contains name || languageTypes.contains name

/-- Every catalog name, once, in code point order. -/
def knownTypes : List Text := Ordered.ofList (stringTypes ++ browserTypes ++ languageTypes)

end Catalog

end HostBindings

import HostBindings.Identifier

/-!
Boundary types: what a binding says about the values that cross to the host.
-/

namespace HostBindings

/-- A type of the output, as far as bindings need one. A callable stands under a reference. -/
inductive BindingType
  /-- A built-in type such as `f64`, `bool`, `String` or `()`. -/
  | primitive (name : Text)
  /-- The host value of no particular type. -/
  | dynamic
  | named (path : List Text)
  | reference (inner : BindingType)
  | option (inner : BindingType)
  | boxedSlice (inner : BindingType)
  | tuple (elements : List BindingType)
  /-- A function of the host; without a result it returns nothing. -/
  | callable (params : List BindingType) (result : Option BindingType)
  /-- No type at all. Lowering leaves no slot empty; a tree built by hand may. -/
  | absent
  /-- A node that is no boundary type, as it was given. Lowering makes none; a tree built by hand
  may hold one, and passes that have to know the type refuse it. -/
  | stray (kind written : Text)
deriving Repr

namespace BindingType

def float : BindingType := .primitive "f64"

def bool : BindingType := .primitive "bool"

def string : BindingType := .primitive "String"

def unit : BindingType := .primitive "()"

/-- The type of the receiver, before its name is known. -/
def self : BindingType := .named ["Self"]

/-- The option of a type, in normal form: an option of an option is one option, and the dynamic
value is its own option. -/
def optional : BindingType → BindingType
  | .option inner => optional inner
  | .dynamic => .dynamic
  | ty => .option ty

/-- A node whose children are done: replaced if `f` says so, options in normal form. -/
def settle (f : BindingType → Option BindingType) (ty : BindingType) : BindingType :=
  match f ty with
  | none => ty
  | some (.option inner) => optional inner
  | some out => out

mutual

/-- Replaces nodes from the leaves up; where `f` has no answer the node stays. -/
def replace (f : BindingType → Option BindingType) : BindingType → BindingType
  | .reference inner => settle f (.reference (replace f inner))
  | .option inner => settle f (optional (replace f inner))
  | .boxedSlice inner => settle f (.boxedSlice (replace f inner))
  | .tuple elements => settle f (.tuple (replaceAll f elements))
  | .callable params result => settle f (.callable (replaceAll f params) (replaceResult f result))
  | ty => settle f ty

def replaceAll (f : BindingType → Option BindingType) : List BindingType → List BindingType
  | [] => []
  | ty :: rest => replace f ty :: replaceAll f rest

def replaceResult (f : BindingType → Option BindingType) :
    Option BindingType → Option BindingType
  | none => none
  | some ty => some (replace f ty)

end

mutual

/-- A type and all types inside it, each before its parts. -/
def walk : BindingType → List BindingType
  | .reference inner => .reference inner :: walk inner
  | .option inner => .option inner :: walk inner
  | .boxedSlice inner => .boxedSlice inner :: walk inner
  | .tuple elements => .tuple elements :: walkAll elements
  | .callable params result => .callable params result :: (walkAll params ++ walkResult result)
  | ty => [ty]

def walkAll : List BindingType → List BindingType
  | [] => []
  | ty :: rest => walk ty ++ walkAll rest

def walkResult : Option BindingType → List BindingType
  | none => []
  | some ty => walk ty

end

/-- The name of a type that is named by one segment. -/
def simpleName? : BindingType → Option Text
  | .named [name] => some name
  | _ => none

/-- Whether a type is a reference to a callable. -/
def isCallableReference : BindingType → Bool
  | .reference (.callable _ _) => true
  | _ => false

/-- Whether some node inside is no boundary type. -/
def hasStray (ty : BindingType) : Bool :=
  ty.walk.any fun
    | .stray _ _ => true
    | _ => false

/-- Replaces every type named by the single segment `name`. -/
def substitute (ty : BindingType) (name : Text) (replacement : BindingType) : BindingType :=
  ty.replace fun
    | .named [n] => if n = name then some replacement else none
    | _ => none

end BindingType

end HostBindings

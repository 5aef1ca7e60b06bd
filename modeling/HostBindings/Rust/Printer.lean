import HostBindings.Failure
import HostBindings.Rust.Unit
import HostBindings.Text.Quoted

/-!
The text of an output file.

Built-in types are written with full paths, so that a foreign type of the same name cannot shadow
them. Writing fails only on values that no pass produces: a node that is no type, or a use without
a name.
-/

namespace HostBindings.Rust

/-- The written form of a built-in type. -/
def primitivePath (name : Text) : Text :=
  if name = "String" then "::std::string::String"
  else if name = "()" then "()"
  else "::core::primitive::" ++ name

mutual

/-- The written form of a type, if it has one. -/
def renderType : BindingType → Option Text
  | .primitive name => some (primitivePath name)
  | .dynamic => some "::wasm_bindgen::JsValue"
  | .named path => some (Text.join "::" path)
  | .reference inner => do
    let inner ← renderType inner
    return "&" ++ inner
  | .option inner => do
    let inner ← renderType inner
    return "::std::option::Option<" ++ inner ++ ">"
  | .boxedSlice inner => do
    let inner ← renderType inner
    return "::std::boxed::Box<[" ++ inner ++ "]>"
  | .tuple elements => do
    let parts ← renderTypes elements
    match parts with
    | [part] => return "(" ++ part ++ ",)"
    | parts => return "(" ++ Text.join ", " parts ++ ")"
  | .callable params result => do
    let params ← renderTypes params
    let result ← renderResult result
    return "dyn Fn(" ++ Text.join ", " params ++ ")" ++ result
  | .absent | .stray _ _ => none

def renderTypes : List BindingType → Option (List Text)
  | [] => some []
  | ty :: rest => do
    let head ← renderType ty
    let tail ← renderTypes rest
    return head :: tail

/-- The result of a signature, with its arrow. -/
def renderResult : Option BindingType → Option Text
  | none => some []
  | some ty => do
    let text ← renderType ty
    return " -> " ++ text

end

def renderUse (u : Use) : Option Text := do
  let visibility : Text := if u.isPublic then "pub " else []
  if u.glob then
    return visibility ++ "use " ++ Text.join "::" (u.path ++ [("*" : Text)]) ++ ";"
  let name ← u.name
  let renamed : Text := match u.rename with
    | some name => " as " ++ name
    | none => []
  return visibility ++ "use " ++ Text.join "::" (u.path ++ [name]) ++ renamed ++ ";"

/-- Whether a namespace can be written as a plain identifier. -/
def isPlainName (name : Text) : Bool :=
  match name with
  | [] => false
  | c :: _ => name.all CodePoint.isWord && !c.isDigit

/-- A namespace path: a single plain name as it is, all else as a list of literals. -/
def renderNamespace : List Text → Text
  | [name] => if isPlainName name then name else "[" ++ Text.Quoted.literal name ++ "]"
  | path => "[" ++ Text.join ", " (path.map Text.Quoted.literal) ++ "]"

/-- An argument that is written only under a condition. -/
def flag (set : Bool) (argument : Text) : List Text := if set then [argument] else []

/-- An argument with a value, if there is one. -/
def setting (key : Text) (value : Option Text) : List Text := (value.map (key ++ ·)).toList

/-- The arguments of the binding attribute, in their fixed order. -/
def attributeArguments (a : Attributes) : List Text :=
  flag a.isConstructor "constructor" ++
  setting "static_method_of = " a.staticOf ++
  flag a.isMethod "method" ++
  flag a.isGetter "getter" ++
  flag a.isSetter "setter" ++
  a.bases.map (fun base => "extends = " ++ Text.join "::" base) ++
  setting "js_name = " (a.hostName.map Text.Quoted.literal) ++
  flag (!a.namespacePath.isEmpty) ("js_namespace = " ++ renderNamespace a.namespacePath)

/-- The binding attribute; without arguments there is none. -/
def renderAttributes (a : Attributes) : Text :=
  match attributeArguments a with
  | [] => []
  | args => "#[wasm_bindgen(" ++ Text.join ", " args ++ ")]"

def renderParameter (p : Parameter) : Option Text := do
  let type ← renderType p.type
  return p.name ++ ": " ++ type

def renderDeclaration (b : Binding) : Option Text :=
  match b.shape with
  | .hostType => some ("pub type " ++ b.name ++ ";")
  | .function params result => do
    let params ← params.mapM renderParameter
    let result ← renderResult result
    return "pub fn " ++ b.name ++ "(" ++ Text.join ", " params ++ ")" ++ result ++ ";"
  | .static type => do
    let type ← renderType type
    return "pub static " ++ b.name ++ ": " ++ type ++ ";"

/-- The lines of a binding: its attribute, if any, and its declaration. -/
def renderBinding (b : Binding) : Option (List Text) := do
  let declaration ← renderDeclaration b
  match renderAttributes b.attributes with
  | [] => return [declaration]
  | attributes => return [attributes, declaration]

/-- Indents a line by one level; an empty line stays empty. -/
def indent (line : Text) : Text := if line.isEmpty then line else "    " ++ line

/-- Lines in braces, after a marker line and an opening. -/
def braced (marker opening : Text) (lines : List Text) : List Text :=
  [marker, opening ++ " \x7b"] ++ lines.map indent ++ [Text.ofString "\x7d"]

/-- What stands before an item: nothing at the start and between two uses, else an empty line. -/
def gapBefore (afterUse : Option Bool) (isUse : Bool) : List Text :=
  match afterUse with
  | none => []
  | some previous => if previous && isUse then [] else [[]]

mutual

def renderItem : Item → Option (List Text)
  | .use u => do
    let line ← renderUse u
    return [line]
  | .block bindings => do
    let lines ← bindings.mapM renderBinding
    return braced "#[wasm_bindgen]" "extern \"C\"" lines.flatten
  | .scope name items => do
    let lines ← renderItems none items
    return braced "#[allow(non_snake_case)]" ("pub mod " ++ name) lines
  | .stray _ => none

/-- The lines of items in order; `afterUse` tells what came before, if anything did. -/
def renderItems (afterUse : Option Bool) : List Item → Option (List Text)
  | [] => some []
  | item :: rest => do
    let isUse := match item with
      | .use _ => true
      | _ => false
    let head ← renderItem item
    let tail ← renderItems (some isUse) rest
    return gapBefore afterUse isUse ++ head ++ tail

end

/-- The text of a file, each line ended; a file without items is empty. -/
def render (u : SourceUnit) : Except Fault Text :=
  match renderItems none u.items with
  | none => .error .unwritable
  | some lines => .ok (lines.flatMap fun line => line ++ "\n")

end HostBindings.Rust

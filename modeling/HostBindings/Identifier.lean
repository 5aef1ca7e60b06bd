import HostBindings.Text

/-!
Rust identifiers for foreign names.

Besides making a name legal, the casing of acronyms is brought to the spelling of the host crates
(`HTMLElement` becomes `HtmlElement`), so that references to host types meet their exports.
-/

namespace HostBindings

/-- A legal Rust identifier, with the foreign spelling when the two differ. The name may be a raw
identifier (`r#type`); the raw mark alone does not count as a difference. -/
structure Identifier where
  name : Text
  foreign : Option Text
deriving DecidableEq, Repr

namespace Identifier

/-- Strict and reserved keywords of the 2021 edition, and `gen`. -/
def keywords : List Text :=
  List.map Text.ofString
    ["as", "break", "const", "continue", "crate", "else", "enum", "extern", "false", "fn", "for",
      "if", "impl", "in", "let", "loop", "match", "mod", "move", "mut", "pub", "ref", "return",
      "self", "Self", "static", "struct", "super", "trait", "true", "type", "unsafe", "use",
      "where", "while", "async", "await", "dyn", "abstract", "become", "box", "do", "final",
      "macro", "override", "priv", "typeof", "unsized", "virtual", "yield", "try", "gen"]

/-- Keywords that no raw identifier can spell. -/
def neverRaw : List Text := ["self", "Self", "super", "crate"]

/-- The mark of a raw identifier. -/
def rawMark : Text := "r#"

/-- A name without its raw mark. -/
def bareName (name : Text) : Text :=
  if name.startsWith rawMark then name.drop 2 else name

/-- The identifier without its raw mark. -/
def bare (i : Identifier) : Text := bareName i.name

/-- Whether a code point opens or continues a run of capitals. -/
def isCapital (c : CodePoint) : Bool := c.isUpper || c.isDigit

/-- Lowers every code point that follows a capital and stands before a capital letter or at the
end; `afterCapital` tells whether the previous one was a capital. -/
def foldCapitals (afterCapital : Bool) : Text → Text
  | [] => []
  | c :: rest =>
    let beforeCapital := match rest with
      | [] => true
      | next :: _ => next.isUpper
    (if afterCapital && beforeCapital then c.toLower else c) :: foldCapitals (isCapital c) rest

/-- Acronym casing of the host crates; a name without lower-case letters is kept. -/
def normalizeCase (raw : Text) : Text :=
  if raw.all (fun c => !c.isLower) then raw else foldCapitals false raw

/-- Every code point that no identifier may hold becomes an underscore. -/
def replaceInvalid (t : Text) : Text := t.map fun c => if c.isWord then c else '_'

/-- Makes a sequence of word characters start and read like an identifier. -/
def repairStart (name : Text) : Text :=
  if name = [] || name = "_" then "__"
  else if (name.headD '_').isDigit then '_' :: name
  else name

/-- The identifier of a foreign name. -/
def sanitize (raw : Text) : Identifier :=
  let name : Text :=
    if neverRaw.contains raw then raw ++ "_rs"
    else repairStart (replaceInvalid (normalizeCase raw))
  { name := if keywords.contains name then rawMark ++ name else name
    foreign := if name = raw then none else some raw }

/-- The Rust name of a foreign name. -/
def rustName (raw : Text) : Text := (sanitize raw).name

/-- The name of the module that holds the bindings of a namespace or file. -/
def scopeName (suffix raw : Text) : Text := rustName (raw ++ suffix)

end Identifier

end HostBindings

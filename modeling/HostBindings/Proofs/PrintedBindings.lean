import HostBindings.Proofs.PrintedTypes
import HostBindings.Proofs.RustLiterals

/-!
Printed bindings. The lines of a binding tell it up to what is written nowhere: its place in the
source, the owner of a member, the difference between the empty tuple and the unit type, and that
between a code point above `FFFF` and its surrogate pair. The attribute is read back argument by
argument, the declaration by its keyword.
-/

namespace HostBindings

/-- The annotations with the UTF-16 code units of the names of the host. -/
def Attributes.inCodeUnits (a : Attributes) : Attributes :=
  { a with
    hostName := a.hostName.map Text.codeUnits
    namespacePath := a.namespacePath.map Text.codeUnits }

/-- A binding whose lines tell it: its names are identifiers, its types can be told, and its bases
are paths that are not empty. -/
structure Binding.IsLegible (b : Binding) : Prop where
  name : Identifier.IsLegal b.name
  parameters : ∀ p ∈ b.shape.parameters, Identifier.IsLegal p.name
  types : ∀ ty ∈ b.types, ty.IsLegible
  staticOf : ∀ owner ∈ b.attributes.staticOf, Identifier.IsLegal owner
  bases : ∀ base ∈ b.attributes.bases,
    base ≠ [] ∧ ∀ segment ∈ base, Identifier.IsSegment segment

/-- What the lines of a binding tell of it. -/
def Binding.printed (b : Binding) : Binding :=
  { name := b.name
    shape := b.shape.mapTypes fun _ => BindingType.unitForm
    attributes := { b.attributes.inCodeUnits with owner := none } }

/-- Two bindings that agree in all that is told: the kind, the name, the names of the parameters,
the types up to the empty tuple, the tags, the type that a member is static on, the bases, and the
UTF-16 encodings of the names of the host. -/
structure Binding.Agrees (b b' : Binding) : Prop where
  name : b.name = b'.name
  shape : (b.shape.mapTypes fun _ => BindingType.unitForm) =
    b'.shape.mapTypes fun _ => BindingType.unitForm
  isConstructor : b.attributes.isConstructor = b'.attributes.isConstructor
  isMethod : b.attributes.isMethod = b'.attributes.isMethod
  isGetter : b.attributes.isGetter = b'.attributes.isGetter
  isSetter : b.attributes.isSetter = b'.attributes.isSetter
  staticOf : b.attributes.staticOf = b'.attributes.staticOf
  bases : b.attributes.bases = b'.attributes.bases
  hostName : b.attributes.hostName.map Text.codeUnits = b'.attributes.hostName.map Text.codeUnits
  namespacePath :
    b.attributes.namespacePath.map Text.codeUnits = b'.attributes.namespacePath.map Text.codeUnits

theorem Binding.printed_eq_iff {b b' : Binding} : b.printed = b'.printed ↔ b.Agrees b' := by
  simp only [printed, Attributes.inCodeUnits, Binding.mk.injEq, Attributes.mk.injEq]
  constructor
  · rintro ⟨hname, hshape,
      ⟨hhost, hpath, hconstructor, hmethod, hgetter, hsetter, hstatic, _, hbases⟩, _⟩
    exact ⟨hname, hshape, hconstructor, hmethod, hgetter, hsetter, hstatic, hbases, hhost, hpath⟩
  · intro h
    exact ⟨h.name, h.shape, ⟨h.hostName, h.namespacePath, h.isConstructor, h.isMethod, h.isGetter,
      h.isSetter, h.staticOf, trivial, h.bases⟩, trivial⟩

namespace Rust

namespace Reading

open Text (dropPrefix?_append dropPrefix?_cons_of_ne)

/-- Reads a quoted text. -/
def readLiteral (t : Text) : Option (Text × Text) := do
  let n ← Source.Lexeme.quoted Source.Lexeme.doubleQuote false t
  let value ← (Source.StringLiteral.decode (t.take n)).toOption
  return (value, t.drop n)

theorem reads_literal (t : Text) : Reads readLiteral (Text.Quoted.literal t) t.codeUnits where
  opens := ⟨'"', rfl, by decide, by decide⟩
  reads {rest} _ := by
    rw [readLiteral, Source.Lexeme.quoted_append (by decide) (Text.Quoted.isQuoted_literal t)]
    simp [Text.Quoted.decode_literal, Except.toOption]

theorem isPlainName_iff {name : Text} : isPlainName name = true ↔
    ∃ c rest, name = c :: rest ∧ c.isDigit = false ∧ name.all CodePoint.isWord = true := by
  cases name with
  | nil => simp [isPlainName]
  | cons c rest => simp [isPlainName, and_comm, and_assoc]

theorem codeUnits_of_isWord {name : Text} (h : name.all CodePoint.isWord = true) :
    name.codeUnits = name := by
  refine Text.codeUnits_eq_self_iff.mpr fun c hc => ?_
  have hprintable := CodePoint.isPrintable_of_isWord (List.all_eq_true.mp h c hc)
  simp only [CodePoint.isPrintable, Bool.and_eq_true, decide_eq_true_eq] at hprintable
  omega

theorem isPlain_or_isListed {path : List Text} (hne : path ≠ []) :
    (∃ name, path = [name] ∧ isPlainName name = true) ∨ IsListed path := by
  by_cases hplain : ∃ name, path = [name] ∧ isPlainName name = true
  · exact Or.inl hplain
  · refine Or.inr ⟨hne, fun name hname => Bool.eq_false_iff.mpr fun h => hplain ⟨name, hname, h⟩⟩

/-- What stands only under a condition. -/
def flagged {α : Type} (isSet : Bool) (a : α) : List α := if isSet then [a] else []

theorem map_flagged {α β : Type} (f : α → β) (isSet : Bool) (a : α) :
    (flagged isSet a).map f = flagged isSet (f a) := by
  cases isSet <;> rfl

/-- An argument of the binding attribute. -/
inductive Argument
  | isConstructor
  | staticOf (name : Text)
  | isMethod
  | isGetter
  | isSetter
  | base (path : List Text)
  | hostName (name : Text)
  | namespacePath (path : List Text)

namespace Argument

/-- An argument with a key and a value. -/
def keyed (key value : Text) : Text := key ++ (Text.ofString " = " ++ value)

def text : Argument → Text
  | .isConstructor => "constructor"
  | .staticOf name => keyed "static_method_of" name
  | .isMethod => "method"
  | .isGetter => "getter"
  | .isSetter => "setter"
  | .base path => keyed "extends" (Text.join "::" path)
  | .hostName name => keyed "js_name" (Text.Quoted.literal name)
  | .namespacePath path => keyed "js_namespace" (renderNamespace path)

/-- The UTF-16 code units of the names of the host. -/
def inCodeUnits : Argument → Argument
  | .hostName name => .hostName name.codeUnits
  | .namespacePath path => .namespacePath (path.map Text.codeUnits)
  | argument => argument

/-- Puts an argument into the annotations of a binding. -/
def set (a : Attributes) : Argument → Attributes
  | .isConstructor => { a with isConstructor := true }
  | .staticOf name => { a with staticOf := some name }
  | .isMethod => { a with isMethod := true }
  | .isGetter => { a with isGetter := true }
  | .isSetter => { a with isSetter := true }
  | .base path => { a with bases := a.bases ++ [path] }
  | .hostName name => { a with hostName := some name }
  | .namespacePath path => { a with namespacePath := path }

/-- Reads the value of an argument with the key. -/
def readValue (key t : Text) : Option (Argument × Text) :=
  if key = "static_method_of" then readRun isNameChar (fun name t => some (.staticOf name, t)) t
  else if key = "extends" then
    readRun isPathChar (fun word t => some (.base (segmentsOf word), t)) t
  else if key = "js_name" then do
    let (name, t) ← readLiteral t
    return (.hostName name, t)
  else
    match t.dropPrefix? "[" with
    | some t => do
      let (path, t) ← readList readLiteral ']' t
      return (.namespacePath path, t)
    | none => readRun CodePoint.isWord (fun name t => some (.namespacePath [name], t)) t

/-- Reads an argument by its key. -/
def read : Text → Option (Argument × Text) := readRun CodePoint.isWord fun key t =>
  if key = "constructor" then some (.isConstructor, t)
  else if key = "method" then some (.isMethod, t)
  else if key = "getter" then some (.isGetter, t)
  else if key = "setter" then some (.isSetter, t)
  else (t.dropPrefix? " = ").bind (readValue key)

/-- The arguments of a binding, in their fixed order. -/
def list (a : Attributes) : List Argument :=
  flagged a.isConstructor isConstructor ++ (a.staticOf.map staticOf).toList ++
    flagged a.isMethod isMethod ++ flagged a.isGetter isGetter ++ flagged a.isSetter isSetter ++
    a.bases.map base ++ (a.hostName.map hostName).toList ++
    flagged (!a.namespacePath.isEmpty) (namespacePath a.namespacePath)

theorem attributeArguments_eq (a : Attributes) : attributeArguments a = (list a).map text := by
  have hkeys : Text.ofString "static_method_of = " = Text.ofString "static_method_of" ++ " = " ∧
      Text.ofString "extends = " = Text.ofString "extends" ++ " = " ∧
      Text.ofString "js_name = " = Text.ofString "js_name" ++ " = " ∧
      Text.ofString "js_namespace = " = Text.ofString "js_namespace" ++ " = " := by
    decide
  obtain ⟨hstatic, hextends, hname, hnamespace⟩ := hkeys
  rw [attributeArguments, hstatic, hextends, hname, hnamespace]
  have hflag : ∀ (isSet : Bool) (argument : Text), flag isSet argument = flagged isSet argument :=
    fun _ _ => rfl
  simp only [list, List.map_append, map_flagged, Option.toList_map, List.map_map, setting, hflag,
    text, keyed, Option.map_map, Function.comp_def, List.append_assoc]

theorem map_inCodeUnits_list (a : Attributes) : (list a).map inCodeUnits = list a.inCodeUnits := by
  simp only [list, List.map_append, map_flagged, Option.toList_map, List.map_map,
    Attributes.inCodeUnits, inCodeUnits, Function.comp_def, List.isEmpty_map]

theorem foldl_set_list (a : Attributes) : (list a).foldl set {} = { a with owner := none } := by
  have hflags : ∀ (acc : Attributes) (isSet : Bool),
      (flagged isSet isConstructor).foldl set acc =
          { acc with isConstructor := acc.isConstructor || isSet } ∧
        (flagged isSet isMethod).foldl set acc = { acc with isMethod := acc.isMethod || isSet } ∧
        (flagged isSet isGetter).foldl set acc = { acc with isGetter := acc.isGetter || isSet } ∧
        (flagged isSet isSetter).foldl set acc =
          { acc with isSetter := acc.isSetter || isSet } := by
    intro acc isSet
    cases isSet <;> simp [flagged, set]
  have hsettings : ∀ (acc : Attributes) (value : Option Text),
      (value.map staticOf).toList.foldl set acc =
          { acc with staticOf := value.or acc.staticOf } ∧
        (value.map hostName).toList.foldl set acc =
          { acc with hostName := value.or acc.hostName } := by
    intro acc value
    cases value <;> simp [set]
  have hbases : ∀ (bases : List (List Text)) (acc : Attributes),
      (bases.map base).foldl set acc = { acc with bases := acc.bases ++ bases } := by
    intro bases
    induction bases with
    | nil => simp
    | cons path rest ih => simp [set, ih]
  have hnamespace : ∀ (acc : Attributes) (path : List Text), acc.namespacePath = [] →
      (flagged (!path.isEmpty) (namespacePath path)).foldl set acc =
        { acc with namespacePath := path } := by
    rintro acc path hacc
    cases path with
    | nil => simp [flagged, ← hacc]
    | cons => rfl
  simp only [list, List.foldl_append, hflags, hsettings, hbases]
  rw [hnamespace _ _ rfl]
  simp

/-- An argument whose text tells it: its name is one, its path is not empty. -/
def IsLegible : Argument → Prop
  | .staticOf name => IsName name
  | .base path => path ≠ [] ∧ ∀ segment ∈ path, IsName segment
  | .namespacePath path => path ≠ []
  | _ => True

theorem isPathChar_of_isWord {c : CodePoint} (h : c.isWord = true) : isPathChar c = true := by
  simp [isPathChar, isNameChar, h]

theorem reads_keyed (key value : Text) {argument : Argument}
    (hkey : key.all CodePoint.isWord = true) (hopens : Opens key)
    (hfree : key ∉ (["constructor", "method", "getter", "setter"] : List Text))
    (h : ∀ rest, Ends rest → readValue key (value ++ rest) = some (argument, rest)) :
    Reads read (keyed key value) argument := by
  have hopened : Opens (keyed key value) := by
    obtain ⟨c, hc, hne⟩ := hopens
    exact ⟨c, by rw [keyed, List.head?_append, hc]; rfl, hne⟩
  refine reads_readRun (fun _ => isPathChar_of_isWord) key _ hkey rfl hopened fun rest hends => ?_
  simp only [List.mem_cons, List.not_mem_nil, or_false, not_or] at hfree
  rw [if_neg hfree.1, if_neg hfree.2.1, if_neg hfree.2.2.1, if_neg hfree.2.2.2, List.append_assoc,
    dropPrefix?_append]
  exact h rest hends

theorem reads_text {argument : Argument} (h : argument.IsLegible) :
    Reads read argument.text argument.inCodeUnits := by
  have hpath : ∀ {c : CodePoint}, c.isWord = true → isPathChar c = true := isPathChar_of_isWord
  cases argument with
  | isConstructor =>
      exact reads_readRun (fun _ => hpath) "constructor" [] rfl rfl ⟨'c', rfl, by decide, by decide⟩
        fun _ _ => rfl
  | staticOf name =>
      refine reads_keyed "static_method_of" name rfl ⟨'s', rfl, by decide, by decide⟩ (by decide)
        fun rest hends => ?_
      have hstops : rest.head?.any isNameChar = false :=
        hends.any_eq_false fun c hc => by simp [isPathChar, hc]
      rw [readValue, if_pos rfl, readRun_append h.2 hstops]
      rfl
  | isMethod =>
      exact reads_readRun (fun _ => hpath) "method" [] rfl rfl ⟨'m', rfl, by decide, by decide⟩
        fun _ _ => rfl
  | isGetter =>
      exact reads_readRun (fun _ => hpath) "getter" [] rfl rfl ⟨'g', rfl, by decide, by decide⟩
        fun _ _ => rfl
  | isSetter =>
      exact reads_readRun (fun _ => hpath) "setter" [] rfl rfl ⟨'s', rfl, by decide, by decide⟩
        fun _ _ => rfl
  | base path =>
      obtain ⟨hne, hnames⟩ := h
      refine reads_keyed "extends" (Text.join "::" path) rfl ⟨'e', rfl, by decide, by decide⟩
        (by decide) fun rest hends => ?_
      rw [readValue, if_neg (by decide), if_pos rfl,
        readRun_append (isPath_join hnames) (hends.any_eq_false fun _ hc => hc),
        segmentsOf_join hne hnames]
      rfl
  | hostName name =>
      refine reads_keyed "js_name" (Text.Quoted.literal name) rfl ⟨'j', rfl, by decide, by decide⟩
        (by decide) fun rest hends => ?_
      rw [readValue, if_neg (by decide), if_neg (by decide), if_pos rfl,
        (reads_literal name).reads hends]
      rfl
  | namespacePath path =>
      refine reads_keyed "js_namespace" (renderNamespace path) rfl ⟨'j', rfl, by decide, by decide⟩
        (by decide) fun rest hends => ?_
      rw [readValue, if_neg (by decide), if_neg (by decide), if_neg (by decide)]
      rcases isPlain_or_isListed h with ⟨name, rfl, hplain⟩ | hlisted
      · obtain ⟨c, more, rfl, _, hword⟩ := isPlainName_iff.mp hplain
        have hne : c ≠ '[' := by
          rintro rfl
          cases hword
        have hplainly : (c :: more ++ rest).dropPrefix? "[" = none := dropPrefix?_cons_of_ne hne _ _
        rw [renderNamespace, if_pos hplain, hplainly]
        dsimp only
        rw [readRun_append hword (hends.any_eq_false fun _ => isPathChar_of_isWord), inCodeUnits,
          List.map_singleton, codeUnits_of_isWord hword]
      · have hparts : List.Forall₂ (Reads readLiteral) (path.map Text.Quoted.literal)
            (path.map Text.codeUnits) := by
          rw [List.forall₂_map_left_iff, List.forall₂_map_right_iff, List.forall₂_same]
          exact fun name _ => reads_literal name
        have hlist : readList readLiteral ']' (Text.join ", " (path.map Text.Quoted.literal) ++
            (Text.ofString "]" ++ rest)) = some (path.map Text.codeUnits, rest) :=
          readList_join hparts (Or.inr rfl) rest
        rw [renderNamespace_of_isListed hlisted, List.append_assoc, List.append_assoc,
          dropPrefix?_append]
        dsimp only
        rw [hlist]
        rfl

end Argument

/-- Reads the line of an attribute. -/
def readAttributes (line : Text) : Option Attributes := do
  let t ← line.dropPrefix? "#[wasm_bindgen("
  let (arguments, _) ← readList Argument.read ')' t
  return arguments.foldl Argument.set {}

theorem renderAttributes_of_ne_nil {a : Attributes} (h : attributeArguments a ≠ []) :
    renderAttributes a =
      Text.ofString "#[wasm_bindgen(" ++ (Text.join ", " (attributeArguments a) ++ ")]") := by
  rw [renderAttributes]
  split
  · rename_i hnone
    exact absurd hnone h
  · exact List.append_assoc _ _ _

theorem readAttributes_renderAttributes {a : Attributes}
    (h : ∀ argument ∈ Argument.list a, argument.IsLegible) (hne : attributeArguments a ≠ []) :
    readAttributes (renderAttributes a) = some { a.inCodeUnits with owner := none } := by
  have hparts : List.Forall₂ (Reads Argument.read) (attributeArguments a)
      (Argument.list a.inCodeUnits) := by
    rw [Argument.attributeArguments_eq, ← Argument.map_inCodeUnits_list,
      List.forall₂_map_left_iff, List.forall₂_map_right_iff, List.forall₂_same]
    exact fun argument hargument => Argument.reads_text (h argument hargument)
  have hlist : readList Argument.read ')' (Text.join ", " (attributeArguments a) ++ ")]") =
      some (Argument.list a.inCodeUnits, Text.ofString "]") :=
    readList_join hparts (Or.inl rfl) _
  rw [renderAttributes_of_ne_nil hne, readAttributes, dropPrefix?_append, Option.bind_eq_bind,
    Option.bind_some, hlist]
  exact congrArg some (Argument.foldl_set_list a.inCodeUnits)

/-- Reads a parameter. -/
def readParameter (depth : Nat) : Text → Option (Parameter × Text) :=
  readRun isNameChar fun name t => do
    let t ← t.dropPrefix? ": "
    let (type, t) ← readType depth t
    return (⟨name, type⟩, t)

/-- Reads a declaration by its keyword. -/
def readDeclaration (depth : Nat) (line : Text) : Option (Text × BindingShape) :=
  match line.dropPrefix? "pub type ", line.dropPrefix? "pub fn " with
  | some t, _ => some ((t.span isNameChar).1, .hostType)
  | none, some t => do
    let (name, t) := t.span isNameChar
    let t ← t.dropPrefix? "("
    let (params, t) ← readList (readParameter depth) ')' t
    let (result, _) ← readResult (readType depth) t
    return (name, .function params result)
  | none, none => do
    let t ← line.dropPrefix? "pub static "
    let (name, t) := t.span isNameChar
    let t ← t.dropPrefix? ": "
    let (type, _) ← readType depth t
    return (name, .static type)

theorem tells_renderParameter {depth : Nat} {p : Parameter} (hname : IsName p.name)
    (htype : p.type.IsLegible) (hdepth : sizeOf p.type ≤ depth) :
    Tells (readParameter depth) (renderParameter p) { p with type := p.type.unitForm } := by
  obtain ⟨text, htext, hreads⟩ := tells_renderType htype hdepth
  refine ⟨p.name ++ (Text.ofString ": " ++ text), ?_, ?_⟩
  · rw [renderParameter, htext]
    simp only [Option.bind_eq_bind, Option.bind_some, List.append_assoc]
    rfl
  · obtain ⟨c, hc, hfirst⟩ := hname.head?_eq (Text.ofString ": " ++ text)
    refine reads_readRun (fun c hc => by simp [isPathChar, hc]) p.name _ hname.2 rfl
      (opens_of_isNameChar hfirst hc) fun rest hends => ?_
    rw [List.append_assoc, dropPrefix?_append]
    simp only [hreads.reads hends, Option.bind_eq_bind, Option.bind_some]
    rfl

theorem exists_renderDeclaration {b : Binding} (h : b.IsLegible) {depth : Nat}
    (hdepth : ∀ ty ∈ b.types, sizeOf ty ≤ depth) :
    ∃ line, renderDeclaration b = some line ∧ readDeclaration depth line =
      some (b.name, b.shape.mapTypes fun _ => BindingType.unitForm) := by
  obtain ⟨name, shape, attributes, loc⟩ := b
  have hname : IsName name := isName_of_isLegal h.name
  have hends : Ends (Text.ofString ";") := rfl
  have hfn : ∀ t, (Text.ofString "pub fn " ++ t).dropPrefix? "pub type " = none := fun _ => rfl
  have hstatic : ∀ t, (Text.ofString "pub static " ++ t).dropPrefix? "pub type " = none ∧
      (Text.ofString "pub static " ++ t).dropPrefix? "pub fn " = none := fun _ => ⟨rfl, rfl⟩
  cases shape with
  | hostType =>
      refine ⟨Text.ofString "pub type " ++ (name ++ Text.ofString ";"), ?_, ?_⟩
      · rw [renderDeclaration, ← List.append_assoc]
      · rw [readDeclaration, dropPrefix?_append]
        dsimp only
        rw [Text.span_append hname.2 rfl]
        rfl
  | function params result =>
      have hparams : ∀ p ∈ params, Tells (readParameter depth) (renderParameter p)
          { p with type := p.type.unitForm } := by
        intro p hp
        have hmem : p.type ∈ params.map (·.type) ++ result.toList :=
          List.mem_append_left _ (List.mem_map_of_mem hp)
        exact tells_renderParameter (isName_of_isLegal (h.parameters p hp)) (h.types _ hmem)
          (hdepth _ hmem)
      have hresult : ∀ ty ∈ result, Tells (readType depth) (renderType ty) ty.unitForm := by
        intro ty hty
        have hmem : ty ∈ params.map (·.type) ++ result.toList :=
          List.mem_append_right _ (Option.mem_toList.mpr hty)
        exact tells_renderType (h.types ty hmem) (hdepth ty hmem)
      obtain ⟨parts, hparts, hall⟩ := exists_mapM hparams
      obtain ⟨text, htext, hreads⟩ := exists_renderResult hresult
      refine ⟨Text.ofString "pub fn " ++ (name ++ (Text.ofString "(" ++ (Text.join ", " parts ++
        (Text.ofString ")" ++ (text ++ Text.ofString ";"))))), ?_, ?_⟩
      · simp only [renderDeclaration, hparts, htext, Option.bind_eq_bind, Option.bind_some,
          Option.pure_def, List.append_assoc]
      · have hlist : readList (readParameter depth) ')' (Text.join ", " parts ++
            (Text.ofString ")" ++ (text ++ Text.ofString ";"))) =
              some (params.map fun p => { p with type := p.type.unitForm },
                text ++ Text.ofString ";") :=
          readList_join hall (Or.inl rfl) _
        rw [readDeclaration, hfn, dropPrefix?_append]
        dsimp only
        rw [Text.span_append hname.2 rfl]
        simp only [dropPrefix?_append, hlist, hreads _ hends, Option.bind_eq_bind, Option.bind_some,
          BindingType.unitFormResult_eq_map]
        rfl
  | static type =>
      obtain ⟨text, htext, hreads⟩ := tells_renderType (h.types type List.mem_cons_self)
        (hdepth type List.mem_cons_self)
      refine ⟨Text.ofString "pub static " ++ (name ++ (Text.ofString ": " ++
        (text ++ Text.ofString ";"))), ?_, ?_⟩
      · simp only [renderDeclaration, htext, Option.bind_eq_bind, Option.bind_some, Option.pure_def,
          List.append_assoc]
      · rw [readDeclaration, (hstatic _).1, (hstatic _).2]
        dsimp only
        rw [dropPrefix?_append, Option.bind_eq_bind, Option.bind_some,
          Text.span_append hname.2 rfl]
        simp only [dropPrefix?_append, hreads.reads hends, Option.bind_eq_bind, Option.bind_some]
        rfl

/-- Reads the lines of a binding. -/
def readBinding (depth : Nat) : List Text → Option Binding
  | [declaration] => do
    let (name, shape) ← readDeclaration depth declaration
    return { name, shape }
  | [attributes, declaration] => do
    let attributes ← readAttributes attributes
    let (name, shape) ← readDeclaration depth declaration
    return { name, shape, attributes }
  | _ => none

theorem isLegible_of_mem_list {b : Binding} (h : b.IsLegible) {argument : Argument}
    (hargument : argument ∈ Argument.list b.attributes) : argument.IsLegible := by
  have hflag : ∀ {isSet : Bool} {flag : Argument}, argument ∈ flagged isSet flag →
      isSet = true ∧ argument = flag := by
    intro isSet flag hmem
    cases isSet with
    | true => exact ⟨rfl, List.mem_singleton.mp hmem⟩
    | false => cases hmem
  simp only [Argument.list, List.mem_append] at hargument
  rcases hargument with ((((((h1 | h2) | h3) | h4) | h5) | h6) | h7) | h8
  · rw [(hflag h1).2]
    trivial
  · simp only [Option.mem_toList, Option.map_eq_some_iff] at h2
    obtain ⟨owner, howner, rfl⟩ := h2
    exact isName_of_isLegal (h.staticOf owner howner)
  · rw [(hflag h3).2]
    trivial
  · rw [(hflag h4).2]
    trivial
  · rw [(hflag h5).2]
    trivial
  · obtain ⟨base, hbase, rfl⟩ := List.mem_map.mp h6
    obtain ⟨hne, hsegments⟩ := h.bases base hbase
    exact ⟨hne, fun segment hsegment => isName_of_isSegment (hsegments segment hsegment)⟩
  · simp only [Option.mem_toList, Option.map_eq_some_iff] at h7
    obtain ⟨name, _, rfl⟩ := h7
    trivial
  · obtain ⟨hsome, rfl⟩ := hflag h8
    have hne : b.attributes.namespacePath ≠ [] := by simpa using hsome
    exact hne

/-- The lines of a binding are read back as what they tell. -/
theorem exists_renderBinding {b : Binding} (h : b.IsLegible) {depth : Nat}
    (hdepth : ∀ ty ∈ b.types, sizeOf ty ≤ depth) :
    ∃ lines, renderBinding b = some lines ∧ readBinding depth lines = some b.printed := by
  obtain ⟨line, hline, hreads⟩ := exists_renderDeclaration h hdepth
  by_cases hnone : attributeArguments b.attributes = []
  · have hattributes : renderAttributes b.attributes = [] := by rw [renderAttributes, hnone]
    refine ⟨[line], ?_, ?_⟩
    · rw [renderBinding, hline, Option.bind_eq_bind, Option.bind_some, hattributes]
      rfl
    · have hlist : Argument.list b.attributes.inCodeUnits = [] := by
        rw [← Argument.map_inCodeUnits_list, List.map_eq_nil_iff]
        rwa [Argument.attributeArguments_eq, List.map_eq_nil_iff] at hnone
      have htold := Argument.foldl_set_list b.attributes.inCodeUnits
      rw [hlist, List.foldl_nil] at htold
      rw [readBinding, hreads, Binding.printed, ← htold]
      rfl
  · have hattributes : renderAttributes b.attributes ≠ [] := by
      rw [renderAttributes_of_ne_nil hnone]
      exact List.append_ne_nil_of_left_ne_nil (by decide) _
    refine ⟨[renderAttributes b.attributes, line], ?_, ?_⟩
    · rw [renderBinding, hline, Option.bind_eq_bind, Option.bind_some]
      split
      · rename_i hnil
        exact absurd hnil hattributes
      · rfl
    · rw [readBinding, readAttributes_renderAttributes
        (fun argument hargument => isLegible_of_mem_list h hargument) hnone, hreads]
      rfl

end Reading

open Reading

theorem IsListed.codeUnits {path : List Text} (h : IsListed path) :
    IsListed (path.map Text.codeUnits) := by
  refine ⟨fun hnil => h.1 (List.map_eq_nil_iff.mp hnil), ?_⟩
  intro units hunits
  obtain ⟨name, hname, rfl⟩ := List.map_eq_singleton_iff.mp hunits
  rw [Bool.eq_false_iff]
  intro hplain
  obtain ⟨_, _, _, _, hword⟩ := isPlainName_iff.mp hplain
  -- code units that are word characters are those of word characters
  have hself : name.codeUnits = name := by
    refine Text.codeUnits_eq_self_iff.mpr fun c hc => Nat.le_of_not_lt fun hlt => ?_
    have hunit : ⟨0xD800 + (c.val - 0x10000) / 0x400, by omega⟩ ∈ name.codeUnits := by
      refine List.mem_flatMap.mpr ⟨c, hc, ?_⟩
      rw [CodePoint.codeUnits, if_neg (by omega)]
      exact List.mem_cons_self
    have hprintable := CodePoint.isPrintable_of_isWord (List.all_eq_true.mp hword _ hunit)
    simp only [CodePoint.isPrintable, Bool.and_eq_true, decide_eq_true_eq] at hprintable
    omega
  rw [hself, h.2 name hname] at hplain
  cases hplain

theorem renderNamespace_codeUnits (path : List Text) :
    renderNamespace (path.map Text.codeUnits) = renderNamespace path := by
  by_cases hnil : path = []
  · rw [hnil]
    rfl
  · rcases isPlain_or_isListed hnil with ⟨name, rfl, hplain⟩ | hlisted
    · obtain ⟨_, _, _, _, hword⟩ := isPlainName_iff.mp hplain
      rw [List.map_singleton, codeUnits_of_isWord hword]
    · have hliteral : Text.Quoted.literal ∘ Text.codeUnits = Text.Quoted.literal :=
        funext Text.Quoted.literal_codeUnits
      rw [renderNamespace_of_isListed hlisted, renderNamespace_of_isListed hlisted.codeUnits,
        List.map_map, hliteral]

theorem Reading.Argument.text_inCodeUnits (argument : Argument) :
    argument.inCodeUnits.text = argument.text := by
  cases argument with
  | hostName name => rw [inCodeUnits, text, Text.Quoted.literal_codeUnits, text]
  | namespacePath path => rw [inCodeUnits, text, renderNamespace_codeUnits, text]
  | _ => rfl

theorem renderAttributes_inCodeUnits (a : Attributes) :
    renderAttributes a.inCodeUnits = renderAttributes a := by
  have harguments : attributeArguments a.inCodeUnits = attributeArguments a := by
    rw [Argument.attributeArguments_eq, Argument.attributeArguments_eq,
      ← Argument.map_inCodeUnits_list, List.map_map]
    exact List.map_congr_left fun argument _ => argument.text_inCodeUnits
  rw [renderAttributes, renderAttributes, harguments]

theorem renderDeclaration_printed (b : Binding) :
    renderDeclaration b.printed = renderDeclaration b := by
  obtain ⟨name, shape, attributes, loc⟩ := b
  cases shape with
  | hostType => rfl
  | function params result =>
      have hparams : (params.map fun p => { p with type := p.type.unitForm }).mapM renderParameter =
          params.mapM renderParameter := by
        rw [List.mapM_map]
        refine congrArg (List.mapM · params) (funext fun p => ?_)
        simp only [Function.comp_apply, renderParameter, renderType_unitForm]
      have hresult := renderResult_unitFormResult result
      rw [BindingType.unitFormResult_eq_map] at hresult
      simp only [renderDeclaration, Binding.printed, BindingShape.mapTypes, hparams, hresult]
  | static type =>
      simp only [renderDeclaration, Binding.printed, BindingShape.mapTypes, renderType_unitForm]

theorem renderBinding_printed (b : Binding) : renderBinding b.printed = renderBinding b := by
  have hattributes : renderAttributes b.printed.attributes = renderAttributes b.attributes :=
    renderAttributes_inCodeUnits b.attributes
  rw [renderBinding, renderBinding, renderDeclaration_printed, hattributes]

/-- A binding has lines, and two bindings have the same lines just if they agree in all that is
told. -/
theorem renderBinding_eq_iff {b b' : Binding} (h : b.IsLegible) (h' : b'.IsLegible) :
    (∃ lines, renderBinding b = some lines) ∧
      (renderBinding b = renderBinding b' ↔ b.Agrees b') := by
  obtain ⟨depth, hdepth⟩ : ∃ depth, ∀ ty ∈ b.types ++ b'.types, sizeOf ty ≤ depth :=
    ⟨sizeOf (b.types ++ b'.types), fun ty hty => Nat.le_of_lt (List.sizeOf_lt_of_mem hty)⟩
  obtain ⟨hdepth, hdepth'⟩ := List.forall_mem_append.mp hdepth
  obtain ⟨lines, hlines, hreads⟩ := exists_renderBinding h hdepth
  obtain ⟨lines', hlines', hreads'⟩ := exists_renderBinding h' hdepth'
  refine ⟨⟨lines, hlines⟩, ?_⟩
  rw [← Binding.printed_eq_iff]
  constructor
  · intro hsame
    rw [hlines, hlines'] at hsame
    obtain rfl := Option.some.inj hsame
    exact Option.some.inj (hreads.symm.trans hreads')
  · intro hprinted
    rw [← renderBinding_printed b, hprinted, renderBinding_printed]

/-- A method with a callback, under a name of the host. -/
def listenerBinding (hostName : Text) (result : BindingType) : Binding :=
  { name := "on"
    shape := .function
      [⟨"this", .reference (.named ["Bus"])⟩,
        ⟨"listener", .reference (.callable [.option (.named ["super", "Bus"])] result)⟩] none
    attributes := { hostName := some hostName, isMethod := true } }

theorem isLegible_listenerBinding (hostName : Text) {result : BindingType}
    (h : result.IsLegible) : (listenerBinding hostName result).IsLegible := by
  have hwords : ∀ word ∈ (["on", "this", "listener", "Bus"] : List Text),
      Identifier.isSpelled word = true ∧ word ≠ "_" ∧ word ∉ Identifier.keywords := by
    decide
  have hlegal : ∀ word ∈ (["on", "this", "listener", "Bus"] : List Text),
      Identifier.IsLegal word := by
    intro word hword
    obtain ⟨hspelled, hne, hfree⟩ := hwords word hword
    exact Identifier.isLegal_of_isSpelled hspelled hne hfree
  simp only [List.forall_mem_cons] at hlegal
  obtain ⟨hon, hthis, hlistener, hbus, -⟩ := hlegal
  have hself : (BindingType.named ["Bus"]).IsLegible :=
    .named (List.cons_ne_nil _ _) (List.forall_mem_singleton.mpr (Or.inl hbus))
  have hevent : (BindingType.named ["super", "Bus"]).IsLegible := by
    refine .named (List.cons_ne_nil _ _) ?_
    simp only [List.forall_mem_cons]
    exact ⟨Or.inr (Or.inl rfl), Or.inl hbus, List.forall_mem_nil _⟩
  have hcallback : (BindingType.callable [.option (.named ["super", "Bus"])] result).IsLegible := by
    refine .callable (List.forall_mem_singleton.mpr (.option hevent)) ?_
    rintro _ ⟨⟩
    exact h
  refine ⟨hon, ?_, ?_, nofun, List.forall_mem_nil _⟩
  · exact List.forall_mem_cons.mpr ⟨hthis, List.forall_mem_singleton.mpr hlistener⟩
  · exact List.forall_mem_cons.mpr
      ⟨.reference hself, List.forall_mem_singleton.mpr (.reference hcallback)⟩

/-- A code point above `FFFF` and its surrogate pair are one name in the text. -/
theorem listenerBinding_agrees :
    (∃ lines, renderBinding (listenerBinding [⟨0x1F4E1, by decide⟩] (.tuple [])) = some lines) ∧
      (listenerBinding [⟨0x1F4E1, by decide⟩] (.tuple [])).Agrees
        (listenerBinding [⟨0xD83D, by decide⟩, ⟨0xDCE1, by decide⟩] .unit) := by
  have hunit : BindingType.unit.IsLegible := .primitive (by decide)
  have hpair := isLegible_listenerBinding [⟨0xD83D, by decide⟩, ⟨0xDCE1, by decide⟩] hunit
  obtain ⟨hlines, hsame⟩ := renderBinding_eq_iff (isLegible_listenerBinding [⟨0x1F4E1, by decide⟩]
    (.tuple (List.forall_mem_nil _))) hpair
  exact ⟨hlines, hsame.mp (by decide)⟩

end Rust

end HostBindings

import HostBindings.Proofs.LegalBindings
import HostBindings.Proofs.TextLaws
import HostBindings.Rust.Boundary
import HostBindings.Rust.Printer
import Mathlib.Data.List.Forall2

/-!
Printed types. The written form of a type tells the type, whatever follows it: types are read back
from the text by recursive descent, where a run of path characters tells built-in types, wrappers
and callables apart from paths. Only the empty tuple and the unit type are written alike.
-/

namespace HostBindings

namespace BindingType

/-- The tuple of the elements; without elements that is the unit type. -/
def tupleOf : List BindingType → BindingType
  | [] => .unit
  | elements => .tuple elements

mutual

/-- The unit type in place of every empty tuple inside a type. -/
def unitForm : BindingType → BindingType
  | .reference inner => .reference (unitForm inner)
  | .option inner => .option (unitForm inner)
  | .boxedSlice inner => .boxedSlice (unitForm inner)
  | .tuple elements => tupleOf (unitFormAll elements)
  | .callable params result => .callable (unitFormAll params) (unitFormResult result)
  | ty => ty

def unitFormAll : List BindingType → List BindingType
  | [] => []
  | ty :: rest => unitForm ty :: unitFormAll rest

def unitFormResult : Option BindingType → Option BindingType
  | none => none
  | some ty => some (unitForm ty)

end

theorem unitFormAll_eq_map (tys : List BindingType) : unitFormAll tys = tys.map unitForm := by
  induction tys with
  | nil => rfl
  | cons ty rest ih => rw [unitFormAll, ih, List.map_cons]

theorem unitFormResult_eq_map (result : Option BindingType) :
    unitFormResult result = result.map unitForm := by
  cases result <;> rfl

/-- A type whose text tells it: its built-in types are those that may cross the boundary, and its
paths are not empty and made of names and of words that lead to a module or a receiver. -/
inductive IsLegible : BindingType → Prop
  | primitive {name : Text}
      (h : name ∈ Rust.Boundary.sliceablePrimitives ++ Rust.Boundary.plainPrimitives) :
      IsLegible (.primitive name)
  | dynamic : IsLegible .dynamic
  | named {path : List Text} (hne : path ≠ [])
      (h : ∀ segment ∈ path, Identifier.IsSegment segment) : IsLegible (.named path)
  | reference {inner : BindingType} (h : IsLegible inner) : IsLegible (.reference inner)
  | option {inner : BindingType} (h : IsLegible inner) : IsLegible (.option inner)
  | boxedSlice {inner : BindingType} (h : IsLegible inner) : IsLegible (.boxedSlice inner)
  | tuple {elements : List BindingType} (h : ∀ ty ∈ elements, IsLegible ty) :
      IsLegible (.tuple elements)
  | callable {params : List BindingType} {result : Option BindingType}
      (hparams : ∀ ty ∈ params, IsLegible ty) (hresult : ∀ ty ∈ result, IsLegible ty) :
      IsLegible (.callable params result)

end BindingType

namespace Rust

theorem renderTypes_eq_mapM (tys : List BindingType) : renderTypes tys = tys.mapM renderType := by
  induction tys with
  | nil => rfl
  | cons ty rest ih => rw [renderTypes, ih, List.mapM_cons]

mutual

theorem renderType_unitForm (ty : BindingType) : renderType ty.unitForm = renderType ty := by
  cases ty with
  | primitive | dynamic | named | absent | stray => rfl
  | reference inner | option inner | boxedSlice inner =>
      rw [BindingType.unitForm, renderType, renderType_unitForm inner, renderType]
  | tuple elements =>
      cases elements with
      | nil => rfl
      | cons ty rest =>
          have hparts := renderTypes_unitFormAll (ty :: rest)
          rw [BindingType.unitForm, BindingType.unitFormAll, BindingType.tupleOf, renderType,
            ← BindingType.unitFormAll, hparts, renderType]
          nofun
  | callable params result =>
      rw [BindingType.unitForm, renderType, renderTypes_unitFormAll params,
        renderResult_unitFormResult result, renderType]

theorem renderTypes_unitFormAll (tys : List BindingType) :
    renderTypes (BindingType.unitFormAll tys) = renderTypes tys := by
  cases tys with
  | nil => rfl
  | cons ty rest =>
      rw [BindingType.unitFormAll, renderTypes, renderType_unitForm ty,
        renderTypes_unitFormAll rest, renderTypes]

theorem renderResult_unitFormResult (result : Option BindingType) :
    renderResult (BindingType.unitFormResult result) = renderResult result := by
  cases result with
  | none => rfl
  | some ty => rw [BindingType.unitFormResult, renderResult, renderType_unitForm ty, renderResult]

end

namespace Reading

open Text (dropPrefix?_append dropPrefix?_cons_of_ne)

/-- The characters of names. -/
def isNameChar (c : CodePoint) : Bool := c.isWord || c = '#'

/-- The characters of paths. -/
def isPathChar (c : CodePoint) : Bool := isNameChar c || c = ':'

/-- Whether a text may follow a type: neither a path nor a result goes on in it. -/
def Ends (rest : Text) : Prop := rest.head?.any (fun c => isPathChar c || c = ' ') = false

theorem Ends.any_eq_false {rest : Text} (h : Ends rest) {p : CodePoint → Bool}
    (hp : ∀ c, p c = true → isPathChar c = true) : rest.head?.any p = false := by
  cases rest with
  | nil => rfl
  | cons c rest =>
      have hpath : isPathChar c = false := (Bool.or_eq_false_iff.mp h).1
      exact Bool.eq_false_iff.mpr fun hc => absurd (hp c hc) (Bool.eq_false_iff.mp hpath)

/-- Whether a text may stand in a list: it does not start with a bracket that closes one. -/
def Opens (text : Text) : Prop := ∃ c, text.head? = some c ∧ c ≠ ')' ∧ c ≠ ']'

/-- A text that is read as the value, whatever may follow it. -/
structure Reads {α : Type} (read : Text → Option (α × Text)) (text : Text) (value : α) : Prop where
  opens : Opens text
  reads {rest : Text} (h : Ends rest) : read (text ++ rest) = some (value, rest)

/-- There is a text, and it is read as the value. -/
def Tells {α : Type} (read : Text → Option (α × Text)) (text : Option Text) (value : α) : Prop :=
  ∃ t, text = some t ∧ Reads read t value

section

variable {α : Type}

/-- Reads the run of code points that satisfy `p`, and goes on from there. -/
def readRun (p : CodePoint → Bool) (behind : Text → Text → Option (α × Text)) (t : Text) :
    Option (α × Text) :=
  behind (t.span p).1 (t.span p).2

variable (read : Text → Option (α × Text))

/-- Reads values as long as there are commas between them. -/
def readMore : Nat → Text → Option (List α × Text)
  | 0, t => some ([], t)
  | n + 1, t =>
    match t.dropPrefix? ", " with
    | none => some ([], t)
    | some t => do
      let (a, t) ← read t
      let (more, t) ← readMore n t
      return (a :: more, t)

/-- Reads a list up to its closing bracket; a comma may stand before it. -/
def readList (closing : CodePoint) (t : Text) : Option (List α × Text) :=
  match t.dropPrefix? [closing] with
  | some t => some ([], t)
  | none => do
    let (a, t) ← read t
    let (more, t) ← readMore read t.length t
    let t ← ((t.dropPrefix? ",").getD t).dropPrefix? [closing]
    return (a :: more, t)

theorem readRun_append {p : CodePoint → Bool} {behind : Text → Text → Option (α × Text)}
    {word rest : Text} (hword : word.all p = true) (hrest : rest.head?.any p = false) :
    readRun p behind (word ++ rest) = behind word rest := by
  rw [readRun, Text.span_append hword hrest]

theorem reads_readRun {p : CodePoint → Bool} {behind : Text → Text → Option (α × Text)} {value : α}
    (hp : ∀ c, p c = true → isPathChar c = true) (word more : Text) (hword : word.all p = true)
    (hmore : more.head?.any p = false) (hopens : Opens (word ++ more))
    (h : ∀ rest, Ends rest → behind word (more ++ rest) = some (value, rest)) :
    Reads (readRun p behind) (word ++ more) value where
  opens := hopens
  reads {rest} hends := by
    have hstops : (more ++ rest).head?.any p = false := by
      cases more with
      | nil => exact hends.any_eq_false hp
      | cons => exact hmore
    rw [List.append_assoc, readRun_append hword hstops]
    exact h rest hends

variable {read} {part : Text} {value : α} {parts : List Text} {values : List α}

theorem ends_flatMap {rest : Text} (h : Ends rest) (parts : List Text) :
    Ends (parts.flatMap (Text.ofString ", " ++ ·) ++ rest) := by
  cases parts with
  | nil => exact h
  | cons => rfl

theorem readMore_flatMap (h : List.Forall₂ (Reads read) parts values) {n : Nat}
    (hn : parts.length ≤ n) {rest : Text} (hends : Ends rest)
    (hrest : rest.dropPrefix? ", " = none) :
    readMore read n (parts.flatMap (Text.ofString ", " ++ ·) ++ rest) = some (values, rest) := by
  induction h generalizing n with
  | nil =>
      cases n with
      | zero => rfl
      | succ n => rw [List.flatMap_nil, List.nil_append, readMore, hrest]
  | @cons part value more _ hpart _ ih =>
      cases n with
      | zero => cases hn
      | succ n =>
          rw [List.flatMap_cons, List.append_assoc, List.append_assoc, readMore,
            dropPrefix?_append]
          dsimp only
          rw [hpart.reads (ends_flatMap hends more), Option.bind_eq_bind, Option.bind_some,
            ih (Nat.le_of_succ_le_succ hn)]
          rfl

theorem readList_nil (closing : CodePoint) (rest : Text) :
    readList read closing (closing :: rest) = some ([], rest) := by
  rw [readList, ← List.singleton_append, dropPrefix?_append]

theorem length_le_length_flatMap (parts : List Text) :
    parts.length ≤ (parts.flatMap (Text.ofString ", " ++ ·)).length := by
  induction parts with
  | nil => exact Nat.le_refl 0
  | cons part more ih =>
      rw [List.flatMap_cons, List.length_append, List.length_append, List.length_cons]
      have hcomma : (Text.ofString ", ").length = 2 := rfl
      omega

theorem readList_cons (hpart : Reads read part value)
    (hmore : List.Forall₂ (Reads read) parts values) {closing : CodePoint}
    (hclosing : closing = ')' ∨ closing = ']') {trailing : Text}
    (htrailing : trailing = [] ∨ trailing = ",") (rest : Text) :
    readList read closing (Text.join ", " (part :: parts) ++ (trailing ++ closing :: rest)) =
      some (value :: values, rest) := by
  -- a list with values is told from one without by its first character
  have hopens : (part ++ (parts.flatMap (Text.ofString ", " ++ ·) ++
      (trailing ++ closing :: rest))).dropPrefix? [closing] = none := by
    obtain ⟨c, hc, hround, hsquare⟩ := hpart.opens
    obtain ⟨more, rfl⟩ := List.head?_eq_some_iff.mp hc
    apply dropPrefix?_cons_of_ne
    rcases hclosing with rfl | rfl
    · exact hround
    · exact hsquare
  have hends : Ends (trailing ++ closing :: rest) := by
    rcases htrailing with rfl | rfl <;> rcases hclosing with rfl | rfl <;> rfl
  have hstops : (trailing ++ closing :: rest).dropPrefix? ", " = none := by
    rcases htrailing with rfl | rfl <;> rcases hclosing with rfl | rfl <;> rfl
  have hcloses : (((trailing ++ closing :: rest).dropPrefix? ",").getD
      (trailing ++ closing :: rest)).dropPrefix? [closing] = some rest := by
    have hne : closing ≠ ',' := by
      rcases hclosing with rfl | rfl <;> decide
    rcases htrailing with rfl | rfl
    · have hnone : (closing :: rest).dropPrefix? "," = none := dropPrefix?_cons_of_ne hne rest []
      rw [List.nil_append, hnone]
      exact dropPrefix?_append [closing] rest
    · rw [dropPrefix?_append]
      exact dropPrefix?_append [closing] rest
  have hlength : parts.length ≤ (parts.flatMap (Text.ofString ", " ++ ·) ++
      (trailing ++ closing :: rest)).length := by
    rw [List.length_append]
    exact Nat.le_add_right_of_le (length_le_length_flatMap parts)
  rw [Text.join_cons, List.append_assoc, readList, hopens]
  dsimp only
  rw [hpart.reads (ends_flatMap hends parts), Option.bind_eq_bind, Option.bind_some,
    readMore_flatMap hmore hlength hends hstops, Option.bind_eq_bind, Option.bind_some, hcloses]
  rfl

theorem readList_join (h : List.Forall₂ (Reads read) parts values) {closing : CodePoint}
    (hclosing : closing = ')' ∨ closing = ']') (rest : Text) :
    readList read closing (Text.join ", " parts ++ closing :: rest) = some (values, rest) := by
  cases h with
  | nil => exact readList_nil closing rest
  | cons hpart hmore => exact readList_cons hpart hmore hclosing (Or.inl rfl) rest

end

/-- The segments of a path. -/
def segmentsOf (word : Text) : List Text :=
  (Text.split ':' word).filter fun segment => !segment.isEmpty

/-- The type that a run of path characters names. A path that starts with a separator is that of a
built-in type. -/
def wordType (word : Text) : BindingType :=
  if word = "::std::string::String" then .string
  else if word = "::wasm_bindgen::JsValue" then .dynamic
  else
    match word.dropPrefix? "::core::primitive::" with
    | some name => .primitive name
    | none => .named (segmentsOf word)

/-- Reads the result of a signature, if there is one. -/
def readResult (read : Text → Option (BindingType × Text)) (t : Text) :
    Option (Option BindingType × Text) :=
  match t.dropPrefix? " -> " with
  | none => some (none, t)
  | some t => do
    let (ty, t) ← read t
    return (some ty, t)

/-- Reads a type from behind the run of path characters that it starts with. -/
def readBehind (read : Text → Option (BindingType × Text)) (word t : Text) :
    Option (BindingType × Text) :=
  if word = [] then
    match t.dropPrefix? "&" with
    | some t => do
      let (inner, t) ← read t
      return (.reference inner, t)
    | none => do
      let t ← t.dropPrefix? "("
      let (elements, t) ← readList read ')' t
      return (.tupleOf elements, t)
  else if word = "::std::option::Option" then do
    let t ← t.dropPrefix? "<"
    let (inner, t) ← read t
    let t ← t.dropPrefix? ">"
    return (.option inner, t)
  else if word = "::std::boxed::Box" then do
    let t ← t.dropPrefix? "<["
    let (inner, t) ← read t
    let t ← t.dropPrefix? "]>"
    return (.boxedSlice inner, t)
  else if word = "dyn" then do
    let t ← t.dropPrefix? " Fn("
    let (params, t) ← readList read ')' t
    let (result, t) ← readResult read t
    return (.callable params result, t)
  else some (wordType word, t)

/-- Reads a type whose parts are nested no deeper than the number. -/
def readType : Nat → Text → Option (BindingType × Text)
  | 0 => fun _ => none
  | depth + 1 => readRun isPathChar (readBehind (readType depth))

theorem reads_readType {depth : Nat} (word more : Text) {ty : BindingType}
    (hword : word.all isPathChar = true) (hmore : more.head?.any isPathChar = false)
    (hopens : Opens (word ++ more))
    (h : ∀ rest, Ends rest → readBehind (readType depth) word (more ++ rest) = some (ty, rest)) :
    Reads (readType (depth + 1)) (word ++ more) ty :=
  reads_readRun (fun _ hc => hc) word more hword hmore hopens h

/-- Whether a text may stand for a name or a segment. -/
def IsName (name : Text) : Prop := name ≠ [] ∧ name.all isNameChar = true

theorem isName_of_isSpelled {name : Text} (h : Identifier.isSpelled name = true) : IsName name := by
  have hword := Identifier.isWord_iff.mp (Identifier.isWord_of_isSpelled h)
  refine ⟨?_, List.all_eq_true.mpr fun c hc => by simp [isNameChar, hword c hc]⟩
  rintro rfl
  cases h

theorem isName_of_isLegal {name : Text} (h : Identifier.IsLegal name) : IsName name := by
  rcases h.cases with ⟨hspelled, _⟩ | ⟨word, _, hspelled, rfl⟩
  · exact isName_of_isSpelled hspelled
  · have hmark : Identifier.rawMark.all isNameChar = true := rfl
    refine ⟨List.append_ne_nil_of_left_ne_nil (by decide) word, ?_⟩
    rw [List.all_append, hmark, (isName_of_isSpelled hspelled).2]
    rfl

theorem isName_of_isSegment {segment : Text} (h : Identifier.IsSegment segment) :
    IsName segment := by
  rcases h with hlegal | rfl | rfl
  · exact isName_of_isLegal hlegal
  · exact ⟨by decide, rfl⟩
  · exact ⟨by decide, rfl⟩

theorem IsName.head?_eq {name : Text} (h : IsName name) (t : Text) :
    ∃ c, (name ++ t).head? = some c ∧ isNameChar c = true := by
  obtain ⟨c, more, rfl⟩ := List.exists_cons_of_ne_nil h.1
  exact ⟨c, rfl, List.all_eq_true.mp h.2 c List.mem_cons_self⟩

theorem opens_of_isNameChar {c : CodePoint} (hname : isNameChar c = true) {t : Text}
    (hc : t.head? = some c) : Opens t := by
  refine ⟨c, hc, ?_, ?_⟩
  · rintro rfl
    cases hname
  · rintro rfl
    cases hname

section

variable {path : List Text} (hne : path ≠ []) (h : ∀ segment ∈ path, IsName segment)

include h in
theorem isPath_join : (Text.join "::" path).all isPathChar = true := by
  rw [Text.all_join rfl, List.all_eq_true]
  intro segment hsegment
  rw [List.all_eq_true]
  intro c hc
  simp [isPathChar, List.all_eq_true.mp (h segment hsegment).2 c hc]

include hne h

theorem segmentsOf_join : segmentsOf (Text.join "::" path) = path := by
  refine Text.filter_split_join hne fun segment hsegment =>
    ⟨(h segment hsegment).1, fun hcolon => ?_⟩
  have hname := List.all_eq_true.mp (h segment hsegment).2 _ hcolon
  cases hname

theorem head?_join : ∃ c, (Text.join "::" path).head? = some c ∧ isNameChar c = true := by
  obtain ⟨segment, rest, rfl⟩ := List.exists_cons_of_ne_nil hne
  rw [Text.join_cons]
  exact (h segment List.mem_cons_self).head?_eq _

theorem opens_join : Opens (Text.join "::" path) := by
  obtain ⟨c, hc, hname⟩ := head?_join hne h
  exact opens_of_isNameChar hname hc

end

theorem not_isSegment_dyn : ¬ Identifier.IsSegment "dyn" := by
  rintro (hlegal | h | h)
  · have hkeyword : Text.ofString "dyn" ∈ Identifier.keywords := by decide
    exact absurd (hlegal.rawMark_iff.mpr hkeyword) (by decide)
  · exact absurd h (by decide)
  · exact absurd h (by decide)

theorem readBehind_join (read : Text → Option (BindingType × Text)) {path : List Text}
    (hne : path ≠ []) (h : ∀ segment ∈ path, Identifier.IsSegment segment) (t : Text) :
    readBehind read (Text.join "::" path) t = some (.named path, t) := by
  have hnames := fun segment hsegment => isName_of_isSegment (h segment hsegment)
  have hsegments := segmentsOf_join hne hnames
  obtain ⟨c, hc, hname⟩ := head?_join hne hnames
  generalize Text.join "::" path = word at hsegments hc
  obtain ⟨more, rfl⟩ := List.head?_eq_some_iff.mp hc
  have hcolon : c ≠ ':' := by
    rintro rfl
    cases hname
  have habsolute : ∀ builtIn : Text, builtIn.head? = some (CodePoint.ofChar ':') →
      c :: more ≠ builtIn := by
    rintro _ hhead rfl
    exact hcolon (Option.some.inj hhead)
  have hdyn : c :: more ≠ Text.ofString "dyn" := by
    intro hword
    rw [hword] at hsegments
    apply not_isSegment_dyn
    exact h _ (hsegments ▸ List.mem_cons_self)
  have hprimitive : (c :: more).dropPrefix? "::core::primitive::" = none :=
    dropPrefix?_cons_of_ne hcolon _ _
  rw [readBehind, if_neg (List.cons_ne_nil c more), if_neg (habsolute _ rfl),
    if_neg (habsolute _ rfl), if_neg hdyn, wordType, if_neg (habsolute _ rfl),
    if_neg (habsolute _ rfl), hprimitive]
  dsimp only
  rw [hsegments]

theorem exists_mapM {ι α : Type} {read : Text → Option (α × Text)} {write : ι → Option Text}
    {view : ι → α} {as : List ι} (h : ∀ a ∈ as, Tells read (write a) (view a)) :
    ∃ parts, as.mapM write = some parts ∧ List.Forall₂ (Reads read) parts (as.map view) := by
  induction as with
  | nil => exact ⟨[], rfl, .nil⟩
  | cons a rest ih =>
      obtain ⟨⟨part, hpart, hreads⟩, hrest⟩ := List.forall_mem_cons.mp h
      obtain ⟨parts, hparts, hall⟩ := ih hrest
      refine ⟨part :: parts, ?_, .cons hreads hall⟩
      rw [List.mapM_cons, hpart, hparts]
      rfl

theorem exists_renderResult {read : Text → Option (BindingType × Text)}
    {result : Option BindingType} (h : ∀ ty ∈ result, Tells read (renderType ty) ty.unitForm) :
    ∃ text, renderResult result = some text ∧ ∀ rest, Ends rest →
      readResult read (text ++ rest) = some (BindingType.unitFormResult result, rest) := by
  cases result with
  | none =>
      refine ⟨[], rfl, fun rest hends => ?_⟩
      have hnone : rest.dropPrefix? " -> " = none := by
        cases rest with
        | nil => rfl
        | cons c rest =>
            apply dropPrefix?_cons_of_ne
            rintro rfl
            cases hends
      rw [List.nil_append, readResult, hnone]
      rfl
  | some ty =>
      obtain ⟨text, htext, hreads⟩ := h ty rfl
      refine ⟨" -> " ++ text, by rw [renderResult, htext]; rfl, fun rest hends => ?_⟩
      rw [List.append_assoc, readResult, dropPrefix?_append]
      dsimp only
      rw [hreads.reads hends]
      rfl

/-- The elements of a tuple, up to its closing bracket. One element has a comma behind it. -/
theorem exists_renderTuple {read : Text → Option (BindingType × Text)} {elements : List BindingType}
    (h : ∀ ty ∈ elements, Tells read (renderType ty) ty.unitForm) :
    ∃ text, renderType (.tuple elements) = some (Text.ofString "(" ++ text) ∧
      ∀ rest, readList read ')' (text ++ rest) =
        some (elements.map BindingType.unitForm, rest) := by
  obtain ⟨parts, hparts, hall⟩ := exists_mapM h
  rw [← renderTypes_eq_mapM] at hparts
  generalize elements.map BindingType.unitForm = values at hall
  cases hall with
  | nil =>
      refine ⟨")", by rw [renderType, hparts]; rfl, fun rest => ?_⟩
      exact readList_nil ')' rest
  | @cons first _ more _ hfirst hmore =>
      cases hmore with
      | nil =>
          refine ⟨first ++ ",)", by rw [renderType, hparts]; rfl, fun rest => ?_⟩
          have hlist := readList_cons hfirst .nil (Or.inl rfl) (Or.inr rfl) rest
          rw [Text.join_cons, List.flatMap_nil, List.append_nil] at hlist
          rw [List.append_assoc]
          exact hlist
      | @cons second _ more _ hsecond hmore =>
          refine ⟨Text.join ", " (first :: second :: more) ++ ")", by rw [renderType, hparts]; rfl,
            fun rest => ?_⟩
          rw [List.append_assoc]
          exact readList_join (.cons hfirst (.cons hsecond hmore)) (Or.inl rfl) rest

section

variable {depth : Nat}

theorem tells_tuple {elements : List BindingType}
    (h : ∀ ty ∈ elements, Tells (readType depth) (renderType ty) ty.unitForm) :
    Tells (readType (depth + 1)) (renderType (.tuple elements))
      (BindingType.tuple elements).unitForm := by
  obtain ⟨text, htext, hreads⟩ := exists_renderTuple h
  refine ⟨_, htext, ?_⟩
  refine reads_readType [] (Text.ofString "(" ++ text) rfl rfl ⟨'(', rfl, by decide, by decide⟩
    fun rest _ => ?_
  have hnone : (Text.ofString "(" ++ (text ++ rest)).dropPrefix? "&" = none := rfl
  rw [List.append_assoc, readBehind, if_pos rfl, hnone]
  dsimp only
  rw [dropPrefix?_append, Option.bind_eq_bind, Option.bind_some, hreads, BindingType.unitForm,
    BindingType.unitFormAll_eq_map]
  rfl

theorem tells_primitive {name : Text}
    (h : name ∈ Boundary.sliceablePrimitives ++ Boundary.plainPrimitives) :
    Tells (readType (depth + 1)) (renderType (.primitive name)) (.primitive name) := by
  by_cases hunit : name = "()"
  · -- the unit type is written as the tuple without elements
    rw [hunit]
    exact tells_tuple (List.forall_mem_nil _)
  · have hwords : ∀ name ∈ Boundary.sliceablePrimitives ++ Boundary.plainPrimitives,
        name ≠ "()" → (primitivePath name).all isPathChar = true ∧
          (primitivePath name).head? = some (CodePoint.ofChar ':') := by
      decide
    obtain ⟨hword, hcolon⟩ := hwords name h hunit
    refine ⟨primitivePath name, rfl, ?_⟩
    rw [← List.append_nil (primitivePath name)]
    refine reads_readType _ _ hword rfl ⟨':', by rwa [List.append_nil], by decide, by decide⟩
      fun rest _ => ?_
    simp only [Boundary.sliceablePrimitives, Boundary.plainPrimitives, List.mem_append,
      List.mem_cons, List.not_mem_nil, or_false] at h
    rcases h with (rfl | rfl | rfl | rfl | rfl | rfl | rfl | rfl) | rfl | rfl | rfl | rfl
    all_goals first | rfl | exact absurd rfl hunit

theorem tells_callable {params : List BindingType} {result : Option BindingType}
    (hparams : ∀ ty ∈ params, Tells (readType depth) (renderType ty) ty.unitForm)
    (hresult : ∀ ty ∈ result, Tells (readType depth) (renderType ty) ty.unitForm) :
    Tells (readType (depth + 1)) (renderType (.callable params result))
      (BindingType.callable params result).unitForm := by
  obtain ⟨parts, hparts, hall⟩ := exists_mapM hparams
  obtain ⟨text, htext, hreads⟩ := exists_renderResult hresult
  rw [← renderTypes_eq_mapM] at hparts
  refine ⟨Text.ofString "dyn" ++ (Text.ofString " Fn(" ++ (Text.join ", " parts ++
    (Text.ofString ")" ++ text))), ?_, ?_⟩
  · rw [renderType, hparts, htext]
    simp only [Option.bind_eq_bind, Option.bind_some, Option.pure_def, List.append_assoc]
    rfl
  · refine reads_readType _ _ rfl rfl ⟨'d', rfl, by decide, by decide⟩ fun rest hends => ?_
    have hlist : readList (readType depth) ')' (Text.join ", " parts ++
        (Text.ofString ")" ++ (text ++ rest))) =
          some (params.map BindingType.unitForm, text ++ rest) :=
      readList_join hall (Or.inl rfl) (text ++ rest)
    rw [List.append_assoc, List.append_assoc, List.append_assoc, readBehind, if_neg (by decide),
      if_neg (by decide), if_neg (by decide), if_pos rfl]
    simp only [dropPrefix?_append, hlist, hreads rest hends, Option.bind_eq_bind, Option.bind_some,
      BindingType.unitForm, BindingType.unitFormAll_eq_map]
    rfl

/-- The text of a type is read back as the type. -/
theorem tells_renderType {ty : BindingType} (h : ty.IsLegible) (hdepth : sizeOf ty ≤ depth) :
    Tells (readType depth) (renderType ty) ty.unitForm := by
  -- by the depth of the reader: every part is read at the depth below
  induction depth generalizing ty with
  | zero => cases h <;> simp at hdepth
  | succ depth ih =>
      cases h with
      | primitive h => exact tells_primitive h
      | dynamic =>
          refine ⟨_, rfl, ?_⟩
          refine reads_readType "::wasm_bindgen::JsValue" [] rfl rfl
            ⟨':', rfl, by decide, by decide⟩ fun rest _ => ?_
          rfl
      | @named path hne h =>
          have hnames := fun segment hsegment => isName_of_isSegment (h segment hsegment)
          refine ⟨Text.join "::" path, rfl, ?_⟩
          rw [← List.append_nil (Text.join "::" path)]
          refine reads_readType _ _ (isPath_join hnames) rfl ?_ fun rest _ => ?_
          · rw [List.append_nil]
            exact opens_join hne hnames
          · exact readBehind_join _ hne h rest
      | @reference inner h =>
          rw [BindingType.reference.sizeOf_spec] at hdepth
          obtain ⟨text, htext, hreads⟩ := ih h (by omega)
          refine ⟨Text.ofString "&" ++ text, by rw [renderType, htext]; rfl, ?_⟩
          refine reads_readType [] (Text.ofString "&" ++ text) rfl rfl
            ⟨'&', rfl, by decide, by decide⟩ fun rest hends => ?_
          rw [List.append_assoc, readBehind, if_pos rfl, dropPrefix?_append]
          dsimp only
          rw [hreads.reads hends]
          rfl
      | @option inner h =>
          rw [BindingType.option.sizeOf_spec] at hdepth
          obtain ⟨text, htext, hreads⟩ := ih h (by omega)
          refine ⟨Text.ofString "::std::option::Option" ++ (Text.ofString "<" ++ (text ++ ">")),
            by rw [renderType, htext]; rfl, ?_⟩
          refine reads_readType _ _ rfl rfl ⟨':', rfl, by decide, by decide⟩ fun rest _ => ?_
          have hends : Ends (Text.ofString ">" ++ rest) := rfl
          rw [List.append_assoc, List.append_assoc, readBehind, if_neg (by decide), if_pos rfl]
          simp only [dropPrefix?_append, hreads.reads hends, Option.bind_eq_bind, Option.bind_some]
          rfl
      | @boxedSlice inner h =>
          rw [BindingType.boxedSlice.sizeOf_spec] at hdepth
          obtain ⟨text, htext, hreads⟩ := ih h (by omega)
          refine ⟨Text.ofString "::std::boxed::Box" ++ (Text.ofString "<[" ++ (text ++ "]>")),
            by rw [renderType, htext]; rfl, ?_⟩
          refine reads_readType _ _ rfl rfl ⟨':', rfl, by decide, by decide⟩ fun rest _ => ?_
          have hends : Ends (Text.ofString "]>" ++ rest) := rfl
          rw [List.append_assoc, List.append_assoc, readBehind, if_neg (by decide),
            if_neg (by decide), if_pos rfl]
          simp only [dropPrefix?_append, hreads.reads hends, Option.bind_eq_bind, Option.bind_some]
          rfl
      | @tuple elements h =>
          rw [BindingType.tuple.sizeOf_spec] at hdepth
          refine tells_tuple fun ty hty => ih (h ty hty) ?_
          have hlt := List.sizeOf_lt_of_mem hty
          omega
      | @callable params result hparams hresult =>
          rw [BindingType.callable.sizeOf_spec] at hdepth
          refine tells_callable (fun ty hty => ih (hparams ty hty) ?_) fun ty hty =>
            ih (hresult ty hty) ?_
          · have hlt := List.sizeOf_lt_of_mem hty
            omega
          · obtain rfl := Option.mem_def.mp hty
            rw [Option.some.sizeOf_spec] at hdepth
            omega

end

end Reading

end Rust

end HostBindings

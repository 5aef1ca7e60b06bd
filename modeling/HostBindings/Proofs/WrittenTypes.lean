import HostBindings.Proofs.SpacedWords
import HostBindings.Source.TypeExpr

/-!
Type expressions as they are written. A type is written as the words of its parts with the marks of
its form around and between them; what may stand in a place without parentheses is fixed by the
level of the place. Types of objects, literals, queries and the like are not written here.
-/

namespace HostBindings.Source

def BindingPattern.bare : BindingPattern → BindingPattern
  | .name w _ => .name w none
  | p => p

mutual

/-- A type without the places of the forms that are written here; two types that are bare the same
differ in their places only. -/
def TypeExpr.bare : TypeExpr → TypeExpr
  | .keyword word _ => .keyword word none
  | .this _ => .this none
  | .reference qualifier name args _ => .reference qualifier name (TypeExpr.bareAll args) none
  | .function params result typeParams _ =>
    .function (Param.bareAll params) (TypeExpr.bareIn result) typeParams none
  | .array element _ => .array element.bare none
  | .optional inner _ => .optional inner.bare none
  | .union members _ => .union (TypeExpr.bareAll members) none
  | .intersection members _ => .intersection (TypeExpr.bareAll members) none
  | .tuple elements _ => .tuple (TypeExpr.bareAll elements) none
  | .paren inner _ => .paren inner.bare none
  | .rest inner _ => .rest inner.bare none
  | t => t

def TypeExpr.bareAll : List TypeExpr → List TypeExpr
  | [] => []
  | t :: rest => t.bare :: TypeExpr.bareAll rest

def TypeExpr.bareIn : Option TypeExpr → Option TypeExpr
  | none => none
  | some t => some t.bare

def Param.bare : Param → Param
  | ⟨pattern, annotated, isOptional, isRest, _⟩ =>
    ⟨pattern.bare, TypeExpr.bareIn annotated, isOptional, isRest, none⟩

def Param.bareAll : List Param → List Param
  | [] => []
  | p :: rest => p.bare :: Param.bareAll rest

end

@[simp] theorem TypeExpr.bareAll_eq (ts : List TypeExpr) :
    TypeExpr.bareAll ts = ts.map TypeExpr.bare := by
  induction ts with
  | nil => rfl
  | cons t rest ih => rw [TypeExpr.bareAll, ih, List.map_cons]

@[simp] theorem TypeExpr.bareIn_eq (t : Option TypeExpr) :
    TypeExpr.bareIn t = t.map TypeExpr.bare := by
  cases t <;> rfl

@[simp] theorem Param.bareAll_eq (ps : List Param) : Param.bareAll ps = ps.map Param.bare := by
  induction ps with
  | nil => rfl
  | cons p rest ih => rw [Param.bareAll, ih, List.map_cons]

/-- A name that refers to a type where it stands alone, and is not read as a type of its own. -/
def IsReferring (w : Text) : Prop :=
  Keyword.ofWord? w = none ∧ w ≠ "this" ∧ w ≠ "true" ∧ w ≠ "false"

instance (w : Text) : Decidable (IsReferring w) :=
  inferInstanceAs (Decidable (_ ∧ _ ∧ _ ∧ _))

/-- The places where types stand, from those that take any type to the operands of intersections
and arrays. -/
inductive TypeLevel
  | whole
  | union
  | intersection
  | operand
deriving DecidableEq

/-- The next level that takes more types; the first takes all. -/
def TypeLevel.looser : TypeLevel → TypeLevel
  | whole | union => whole
  | intersection => union
  | operand => intersection

/-- What is written. -/
inductive Phrase
  | name (w : Text)
  /-- A type where a level allows it. -/
  | type (level : TypeLevel) (t : TypeExpr)
  /-- An element of a tuple. -/
  | element (t : TypeExpr)
  | param (p : Param)
  /-- The type of a parameter with its colon, or nothing. -/
  | annotated (t : Option TypeExpr)
  /-- Phrases with separators between them. -/
  | list (separator : Terminal) (items : List Phrase)

/-- How phrases are written. -/
inductive Writes : Phrase → List Word → Prop
  | name {w : Text} (h : IsLexeme (some .name) w) : Writes (.name w) [Word.name w]
  | keyword {k : Keyword} (hk : k ∈ Keyword.all) (loc : Option Location) :
      Writes (.type .operand (.keyword k loc)) [Word.name k.word]
  | this (loc : Option Location) : Writes (.type .operand (.this loc)) [Word.name "this"]
  | reference {qualifier : List Text} {name : Text} {ws : List Word}
      (hreferring : qualifier = [] → IsReferring name)
      (hnames : Writes (.list .dot ((qualifier ++ [name]).map .name)) ws)
      (loc : Option Location) : Writes (.type .operand (.reference qualifier name [] loc)) ws
  | application {qualifier : List Text} {name : Text} {args : List TypeExpr} {ws us : List Word}
      (hnames : Writes (.list .dot ((qualifier ++ [name]).map .name)) ws) (hne : args ≠ [])
      (hargs : Writes (.list .comma (args.map (.type .whole))) us) (loc : Option Location) :
      Writes (.type .operand (.reference qualifier name args loc))
        (ws ++ Word.mark .less :: (us ++ [Word.mark .greater]))
  | array {element : TypeExpr} {ws : List Word} (h : Writes (.type .operand element) ws)
      (loc : Option Location) :
      Writes (.type .operand (.array element loc))
        (ws ++ [Word.mark .openBracket, Word.mark .closeBracket])
  | tuple {elements : List TypeExpr} {ws : List Word}
      (h : Writes (.list .comma (elements.map .element)) ws) (loc : Option Location) :
      Writes (.type .operand (.tuple elements loc))
        (Word.mark .openBracket :: (ws ++ [Word.mark .closeBracket]))
  | paren {inner : TypeExpr} {ws : List Word} (h : Writes (.type .whole inner) ws)
      (loc : Option Location) :
      Writes (.type .operand (.paren inner loc))
        (Word.mark .openParen :: (ws ++ [Word.mark .closeParen]))
  | intersection {members : List TypeExpr} {ws : List Word} (hmany : 2 ≤ members.length)
      (h : Writes (.list .ampersand (members.map (.type .operand))) ws) (loc : Option Location) :
      Writes (.type .intersection (.intersection members loc)) ws
  | union {members : List TypeExpr} {ws : List Word} (hmany : 2 ≤ members.length)
      (h : Writes (.list .bar (members.map (.type .intersection))) ws) (loc : Option Location) :
      Writes (.type .union (.union members loc)) ws
  | function {params : List Param} {result : TypeExpr} {ws us : List Word}
      (hparams : Writes (.list .comma (params.map .param)) ws)
      (hresult : Writes (.type .whole result) us) (loc : Option Location) :
      Writes (.type .whole (.function params (some result) [] loc))
        (Word.mark .openParen :: (ws ++ Word.mark .closeParen :: Word.mark .arrow :: us))
  /-- A level takes the types of the tighter ones as they are. -/
  | loosen {level : TypeLevel} {t : TypeExpr} {ws : List Word} (h : Writes (.type level t) ws) :
      Writes (.type level.looser t) ws
  | element {t : TypeExpr} {ws : List Word} (h : Writes (.type .whole t) ws) :
      Writes (.element t) ws
  | optionalElement {t : TypeExpr} {ws : List Word} (h : Writes (.type .whole t) ws)
      (loc : Option Location) : Writes (.element (.optional t loc)) (ws ++ [Word.mark .question])
  | restElement {t : TypeExpr} {ws : List Word} (h : Writes (.type .whole t) ws)
      (loc : Option Location) : Writes (.element (.rest t loc)) (Word.mark .ellipsis :: ws)
  | unannotated : Writes (.annotated none) []
  | annotated {t : TypeExpr} {ws : List Word} (h : Writes (.type .whole t) ws) :
      Writes (.annotated (some t)) (Word.mark .colon :: ws)
  | param {w : Text} {annotated : Option TypeExpr} {ws : List Word}
      (hname : IsLexeme (some .name) w) (isOptional : Bool)
      (h : Writes (.annotated annotated) ws) (patternLoc loc : Option Location) :
      Writes (.param ⟨.name w patternLoc, annotated, isOptional, false, loc⟩)
        (Word.name w :: ((if isOptional then [Word.mark .question] else []) ++ ws))
  | restParam {w : Text} {annotated : Option TypeExpr} {ws : List Word}
      (hname : IsLexeme (some .name) w) (h : Writes (.annotated annotated) ws)
      (patternLoc loc : Option Location) :
      Writes (.param ⟨.name w patternLoc, annotated, false, true, loc⟩)
        (Word.mark .ellipsis :: Word.name w :: ws)
  | none (separator : Terminal) : Writes (.list separator []) []
  | single {p : Phrase} {ws : List Word} (h : Writes p ws) (separator : Terminal) :
      Writes (.list separator [p]) ws
  | more {separator : Terminal} {p q : Phrase} {rest : List Phrase} {ws us : List Word}
      (h : Writes p ws) (hmark : separator ∈ Terminal.marks)
      (hrest : Writes (.list separator (q :: rest)) us) :
      Writes (.list separator (p :: q :: rest)) (ws ++ Word.mark separator :: us)

theorem isLexeme_name_of_all {w : Text} (hname :
    (w.head?.any Lexeme.isNameStart && w.all Lexeme.isNamePart) = true)
    (hword : ∀ k ∈ Terminal.words, k.spelling ≠ w) : IsLexeme (some .name) w :=
  .name (Lexeme.isName_of_all hname) hword

theorem isLexeme_keyword {k : Keyword} (hk : k ∈ Keyword.all) : IsLexeme (some .name) k.word := by
  have hkeywords : ∀ k ∈ Keyword.all,
      (k.word.head?.any Lexeme.isNameStart && k.word.all Lexeme.isNamePart) = true ∧
        ∀ other ∈ Terminal.words, other.spelling ≠ k.word := by
    decide
  exact isLexeme_name_of_all (hkeywords k hk).1 (hkeywords k hk).2

theorem Writes.isPlain {p : Phrase} {ws : List Word} (h : Writes p ws) : ∀ w ∈ ws, w.IsPlain := by
  induction h with
  | name h => exact List.forall_mem_singleton.mpr (.name h)
  | keyword hk => exact List.forall_mem_singleton.mpr (.name (isLexeme_keyword hk))
  | this =>
      refine List.forall_mem_singleton.mpr (.name ?_)
      exact isLexeme_name_of_all (by decide) (by decide)
  | reference _ _ _ ih | intersection _ _ _ ih | union _ _ _ ih | loosen _ ih | element _ ih
  | single _ _ ih => exact ih
  | unannotated | none => exact List.forall_mem_nil _
  | application _ _ _ _ ihnames ihargs =>
      rw [List.forall_mem_append, List.forall_mem_cons, List.forall_mem_append,
        List.forall_mem_singleton]
      exact ⟨ihnames, .mark (by decide), ihargs, .mark (by decide)⟩
  | array _ _ ih =>
      rw [List.forall_mem_append, List.forall_mem_cons, List.forall_mem_singleton]
      exact ⟨ih, .mark (by decide), .mark (by decide)⟩
  | tuple _ _ ih | paren _ _ ih =>
      rw [List.forall_mem_cons, List.forall_mem_append, List.forall_mem_singleton]
      exact ⟨.mark (by decide), ih, .mark (by decide)⟩
  | function _ _ _ ihparams ihresult =>
      rw [List.forall_mem_cons, List.forall_mem_append, List.forall_mem_cons,
        List.forall_mem_cons]
      exact ⟨.mark (by decide), ihparams, .mark (by decide), .mark (by decide), ihresult⟩
  | optionalElement _ _ ih =>
      rw [List.forall_mem_append, List.forall_mem_singleton]
      exact ⟨ih, .mark (by decide)⟩
  | restElement _ _ ih | annotated _ ih => exact List.forall_mem_cons.mpr ⟨.mark (by decide), ih⟩
  | param hname isOptional _ _ _ ih =>
      rw [List.forall_mem_cons, List.forall_mem_append]
      refine ⟨.name hname, ?_, ih⟩
      cases isOptional with
      | true => exact List.forall_mem_singleton.mpr (.mark (by decide))
      | false => exact List.forall_mem_nil _
  | restParam hname _ _ _ ih =>
      rw [List.forall_mem_cons, List.forall_mem_cons]
      exact ⟨.mark (by decide), .name hname, ih⟩
  | more _ hmark _ ih ihrest =>
      rw [List.forall_mem_append, List.forall_mem_cons]
      exact ⟨ih, .mark hmark, ihrest⟩

end HostBindings.Source

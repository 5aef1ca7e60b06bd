import HostBindings.Proofs.QuotedTexts
import HostBindings.Rust.Printer
import Mathlib.Data.List.Forall2

/-!
String literals of the output. Host names are written as quoted texts, and read by the lexical rules
of Rust. The two agree on visible ASCII characters and on the escapes of the quote, the backslash,
the line feed, the carriage return and the tab; no other escape of a quoted text is one of Rust. So
a name made of these code points has a literal whose value it is, and any other name has none.
-/

namespace HostBindings.Rust

namespace Literal

open Source.StringLiteral (hexNumber isHex)

/-- The letters of escapes, each with the code point that it stands for. -/
def letters : List (CodePoint × CodePoint) :=
  [('n', '\n'), ('r', '\r'), ('t', '\t'), ('\\', '\\'), ('0', '\x00'), ('"', '"'),
    (Source.Lexeme.singleQuote, Source.Lexeme.singleQuote)]

/-- What may follow a backslash, and the code point that it stands for. -/
inductive IsEscape : Text → CodePoint → Prop
  | letter {l c : CodePoint} (h : (l, c) ∈ letters) : IsEscape [l] c
  | byte {high low c : CodePoint} (hhigh : isHex high = true) (hlow : isHex low = true)
      (hvalue : hexNumber [high, low] = c.val) (hascii : c.val ≤ 0x7F) :
      IsEscape [CodePoint.ofChar 'x', high, low] c
  /-- Up to six digits in braces, with underscores behind the first of them. -/
  | unicode {digits : Text} {c : CodePoint} (hhead : digits.head?.any isHex = true)
      (hdigits : ∀ d ∈ digits, isHex d = true ∨ d = '_')
      (hlength : (digits.filter isHex).length ≤ 6)
      (hvalue : hexNumber (digits.filter isHex) = c.val) (hscalar : c.isSurrogate = false) :
      IsEscape (CodePoint.ofChar 'u' :: CodePoint.ofChar '\x7b' ::
        (digits ++ [CodePoint.ofChar '\x7d'])) c

/-- The blanks that are dropped at the start of a line that is joined to the one before. -/
def isIndentation (c : CodePoint) : Bool := c = ' ' || c = '\t' || c = '\r' || c = '\n'

/-- What may stand between the quotes of a literal, and its value. A backslash at the end of a line
joins the next line to it, without the blanks in between. -/
inductive Body : Text → Text → Prop
  | nil : Body [] []
  | plain {c : CodePoint} {rest value : Text} (hquote : c ≠ '"') (hslash : c ≠ '\\')
      (hreturn : c ≠ '\r') (hscalar : c.isSurrogate = false) (hrest : Body rest value) :
      Body (c :: rest) (c :: value)
  | escape {text rest value : Text} {c : CodePoint} (hescape : IsEscape text c)
      (hrest : Body rest value) : Body (CodePoint.ofChar '\\' :: (text ++ rest)) (c :: value)
  | joined {blanks rest value : Text} (hblanks : blanks.all isIndentation = true)
      (hend : rest.head?.any isIndentation = false) (hrest : Body rest value) :
      Body (CodePoint.ofChar '\\' :: CodePoint.ofChar '\n' :: (blanks ++ rest)) value

/-- A text is a string literal of the value. -/
def Denotes (literal value : Text) : Prop :=
  ∃ body, literal = Source.Lexeme.doubleQuote :: (body ++ [Source.Lexeme.doubleQuote]) ∧
    Body body value

/-- The code points for which quoted texts and the lexical rules have the same spelling: visible
ASCII characters, and what has a letter in both. -/
def isShared (c : CodePoint) : Bool :=
  (0x20 ≤ c.val && c.val ≤ 0x7E) || c = '\n' || c = '\r' || c = '\t'

theorem body_cons {c : CodePoint} {rest value : Text} (hslash : c ≠ '\\')
    (h : Body (c :: rest) value) : ∃ tail, value = c :: tail ∧ Body rest tail := by
  cases h with
  | plain _ _ _ _ hrest => exact ⟨_, rfl, hrest⟩
  | escape => exact absurd rfl hslash
  | joined => exact absurd rfl hslash

theorem body_backslash {l : CodePoint} {rest value : Text}
    (h : Body (CodePoint.ofChar '\\' :: l :: rest) value) :
    (∃ c tail, (l, c) ∈ letters ∧ value = c :: tail ∧ Body rest tail) ∨ l = 'x' ∨
      (l = 'u' ∧ rest.head? = some (CodePoint.ofChar '\x7b')) ∨ l = '\n' := by
  generalize htext : CodePoint.ofChar '\\' :: l :: rest = text at h
  cases h with
  | nil => cases htext
  | plain _ hslash _ _ _ => exact absurd (List.cons.inj htext).1.symm hslash
  | joined _ _ _ => exact Or.inr (Or.inr (Or.inr (List.cons.inj (List.cons.inj htext).2).1))
  | escape hescape hrest =>
      obtain ⟨_, htail⟩ := List.cons.inj htext
      cases hescape with
      | letter hletter =>
          obtain ⟨rfl, rfl⟩ := List.cons.inj htail
          exact Or.inl ⟨_, _, hletter, rfl, hrest⟩
      | byte _ _ _ _ => exact Or.inr (Or.inl (List.cons.inj htail).1)
      | unicode _ _ _ _ _ =>
          obtain ⟨hu, hmore⟩ := List.cons.inj htail
          exact Or.inr (Or.inr (Or.inl ⟨hu, by rw [hmore]; rfl⟩))

open Text.Quoted (escape_forms)

theorem exists_flatMap_unitEscape (c : CodePoint) :
    ∃ k more, (Text.Quoted.units c).flatMap Text.Quoted.unitEscape =
      CodePoint.ofChar '\\' :: CodePoint.ofChar 'u' :: Text.Quoted.hexDigit k :: more := by
  rw [Text.Quoted.units]
  split
  · exact ⟨_, _, rfl⟩
  · exact ⟨_, _, rfl⟩

/-- Only the code points with a spelling in common are read as they were written. -/
theorem shared_of_body {c : CodePoint} {rest value : Text}
    (h : Body (Text.Quoted.escape c ++ rest) value) :
    isShared c = true ∧ ∃ tail, value = c :: tail ∧ Body rest tail := by
  have hforms : ∀ pair ∈ Text.Quoted.letters, pair.2 ≠ CodePoint.ofChar 'x' ∧
      pair.2 ≠ CodePoint.ofChar 'u' ∧ pair.2 ≠ CodePoint.ofChar '\n' :=
    List.all_iff_forall_prop.mp (by decide)
  have hagree : ∀ pair ∈ Text.Quoted.letters, ∀ own ∈ letters, own.1 = pair.2 →
      own.2 = pair.1 ∧ isShared pair.1 = true := by
    have hall : (Text.Quoted.letters.all fun pair => letters.all fun own =>
        decide (own.1 = pair.2 → own.2 = pair.1 ∧ isShared pair.1 = true)) = true := by
      decide
    simpa only [List.all_eq_true, decide_eq_true_eq] using hall
  rcases escape_forms c with ⟨hescape, _, hslash, hlow, hhigh⟩ | ⟨letter, hescape, hmem⟩ |
    ⟨hescape, _⟩
  · rw [hescape] at h
    exact ⟨by simp [isShared, hlow, hhigh], body_cons hslash h⟩
  · rw [hescape] at h
    obtain ⟨hx, hu, hline⟩ := hforms _ hmem
    rcases body_backslash h with ⟨own, tail, hown, hvalue, hrest⟩ | heq | ⟨heq, _⟩ | heq
    · obtain ⟨rfl, hshared⟩ := hagree _ hmem _ hown rfl
      exact ⟨hshared, tail, hvalue, hrest⟩
    · exact absurd heq hx
    · exact absurd heq hu
    · exact absurd heq hline
  · -- numeric escapes have braces in one spelling and none in the other
    obtain ⟨k, more, hunits⟩ := exists_flatMap_unitEscape c
    have hletters : ∀ own ∈ letters, own.1 ≠ CodePoint.ofChar 'u' :=
      List.all_iff_forall_prop.mp (by decide)
    rw [hescape, hunits] at h
    rcases body_backslash h with ⟨own, tail, hown, _⟩ | heq | ⟨_, heq⟩ | heq
    · exact absurd rfl (hletters _ hown)
    · exact absurd heq (by decide)
    · exact absurd (Option.some.inj heq) (Text.Quoted.hexDigit_spec k).2.2.2.2
    · exact absurd heq (by decide)

theorem body_of_shared {c : CodePoint} {rest value : Text} (hc : isShared c = true)
    (h : Body rest value) : Body (Text.Quoted.escape c ++ rest) (c :: value) := by
  have hforms : ∀ pair ∈ Text.Quoted.letters, isShared pair.1 = true →
      (pair.2, pair.1) ∈ letters :=
    List.all_iff_forall_prop.mp (by decide)
  rcases escape_forms c with ⟨hescape, hquote, hslash, hlow, hhigh⟩ | ⟨letter, hescape, hmem⟩ |
    ⟨_, hvisible, hnone⟩
  · rw [hescape]
    refine .plain hquote hslash ?_ ?_ h
    · rintro rfl
      exact absurd hlow (by decide)
    · simp only [CodePoint.isSurrogate, Bool.and_eq_false_iff, decide_eq_false_iff_not]
      omega
  · rw [hescape]
    exact .escape (.letter (hforms _ hmem hc)) h
  · simp only [isShared, Bool.or_eq_true, Bool.and_eq_true, decide_eq_true_eq] at hc
    rcases hc with ((hc | rfl) | rfl) | rfl
    · exact absurd hc hvisible
    · exact absurd (by decide) (hnone 'n')
    · exact absurd (by decide) (hnone 'r')
    · exact absurd (by decide) (hnone 't')

theorem body_flatMap_escape_iff {t value : Text} :
    Body (t.flatMap Text.Quoted.escape) value ↔ value = t ∧ t.all isShared = true := by
  induction t generalizing value with
  | nil =>
      constructor
      · intro h
        cases h
        exact ⟨rfl, rfl⟩
      · rintro ⟨rfl, _⟩
        exact .nil
  | cons c rest ih =>
      rw [List.flatMap_cons, List.all_cons, Bool.and_eq_true]
      constructor
      · intro h
        obtain ⟨hc, tail, rfl, htail⟩ := shared_of_body h
        obtain ⟨rfl, hrest⟩ := ih.mp htail
        exact ⟨rfl, hc, hrest⟩
      · rintro ⟨rfl, hc, hrest⟩
        exact body_of_shared hc (ih.mpr ⟨rfl, hrest⟩)

/-- A quoted text is a literal just if its code points have a spelling in common, and then it is the
literal of the text. -/
theorem denotes_literal_iff {t value : Text} :
    Denotes (Text.Quoted.literal t) value ↔ value = t ∧ t.all isShared = true := by
  rw [← body_flatMap_escape_iff, Denotes, Text.Quoted.literal_eq]
  constructor
  · rintro ⟨body, hbody, h⟩
    rwa [List.append_cancel_right (List.cons.inj hbody).2]
  · intro h
    exact ⟨_, rfl, h⟩

end Literal

/-- Whether a namespace path is written as a list of literals: it is not empty, and not one plain
name. -/
def IsListed (path : List Text) : Prop :=
  path ≠ [] ∧ ∀ name, path = [name] → isPlainName name = false

theorem renderNamespace_of_isListed {path : List Text} (h : IsListed path) :
    renderNamespace path = "[" ++ Text.join ", " (path.map Text.Quoted.literal) ++ "]" := by
  rw [renderNamespace.eq_def]
  split
  · rename_i name
    rw [if_neg (by rw [h.2 name rfl]; decide)]
    simp [Text.join]
  · rfl

/-- The host name and the names of a listed namespace path are written as literals of themselves
where their code points have a spelling in common with the lexical rules, and else as no literal of
any text. -/
theorem attributeArguments_denote_iff (a : Attributes) :
    (∀ name ∈ a.hostName, ∃ literal,
      Text.ofString "js_name = " ++ literal ∈ attributeArguments a ∧
      ∀ value, Literal.Denotes literal value ↔
        value = name ∧ name.all Literal.isShared = true) ∧
    (IsListed a.namespacePath → ∃ literals : List Text,
      Text.ofString "js_namespace = [" ++ Text.join ", " literals ++ "]" ∈ attributeArguments a ∧
      List.Forall₂ (fun name literal => ∀ value, Literal.Denotes literal value ↔
        value = name ∧ name.all Literal.isShared = true) a.namespacePath literals) := by
  constructor
  · intro name hname
    refine ⟨Text.Quoted.literal name, ?_, fun _ => Literal.denotes_literal_iff⟩
    have hsetting : Text.ofString "js_name = " ++ Text.Quoted.literal name ∈
        setting "js_name = " (a.hostName.map Text.Quoted.literal) := by
      rw [Option.mem_def.mp hname]
      exact List.mem_singleton_self _
    simp only [attributeArguments, List.mem_append, hsetting, or_true, true_or]
  · intro hlisted
    refine ⟨a.namespacePath.map Text.Quoted.literal, ?_, ?_⟩
    · have hflag : Text.ofString "js_namespace = [" ++
          Text.join ", " (a.namespacePath.map Text.Quoted.literal) ++ "]" ∈
          flag (!a.namespacePath.isEmpty)
            ("js_namespace = " ++ renderNamespace a.namespacePath) := by
        rw [renderNamespace_of_isListed hlisted, flag, if_pos (by simpa using hlisted.1)]
        exact List.mem_singleton.mpr rfl
      exact List.mem_append_right _ hflag
    · rw [List.forall₂_map_right_iff, List.forall₂_same]
      exact fun _ _ _ => Literal.denotes_literal_iff

/-- A host name with quotes, in a namespace that has to be listed. -/
def quotedAttributes : Attributes :=
  { hostName := some "say \"hi\"\n", namespacePath := ["my-lib"] }

theorem quotedAttributes_denoted :
    (∃ literal, Text.ofString "js_name = " ++ literal ∈ attributeArguments quotedAttributes ∧
      Literal.Denotes literal "say \"hi\"\n") ∧
    IsListed quotedAttributes.namespacePath ∧
    ∃ literal, Text.ofString "js_namespace = [" ++ Text.join ", " [literal] ++ "]" ∈
      attributeArguments quotedAttributes ∧ Literal.Denotes literal "my-lib" := by
  obtain ⟨hname, hnamespace⟩ := attributeArguments_denote_iff quotedAttributes
  have hlisted : IsListed quotedAttributes.namespacePath := by
    refine ⟨List.cons_ne_nil _ _, fun name hname => ?_⟩
    rw [← (List.cons.inj hname).1]
    decide
  refine ⟨?_, hlisted, ?_⟩
  · obtain ⟨literal, hargument, hdenotes⟩ := hname _ rfl
    exact ⟨literal, hargument, (hdenotes _).mpr ⟨rfl, by decide⟩⟩
  · obtain ⟨literals, hargument, hdenotes⟩ := hnamespace hlisted
    obtain ⟨literal, _, hliteral, hrest, rfl⟩ := List.forall₂_cons_left_iff.mp hdenotes
    obtain rfl := List.forall₂_nil_left_iff.mp hrest
    exact ⟨literal, hargument, (hliteral _).mpr ⟨rfl, by decide⟩⟩

/-- The escape that is written for a letter with an accent is none of the lexical rules. -/
theorem accentedName_denotes_nothing :
    attributeArguments { hostName := some "\u00e9" } = [Text.ofString "js_name = \"\\u00e9\""] ∧
      ¬ ∃ value, Literal.Denotes "\"\\u00e9\"" value := by
  refine ⟨by decide, ?_⟩
  rintro ⟨value, hvalue⟩
  have hliteral : Text.Quoted.literal "\u00e9" = Text.ofString "\"\\u00e9\"" := by decide
  rw [← hliteral] at hvalue
  have hshared := (Literal.denotes_literal_iff.mp hvalue).2
  exact absurd hshared (by decide)

end HostBindings.Rust

import HostBindings.Proofs.DeclarationGrammar
import HostBindings.Proofs.LexedTexts
import HostBindings.Source.Reader

/-!
Parsing accepts exactly the declaration language: the texts that are made of lexemes and whose
tokens the grammar derives. What is read from an accepted text is read from a derivation of its
tokens.
-/

namespace HostBindings.Source

open Grammar

/-- The token sequences of the declaration language. -/
def IsDerivable (kinds : List Terminal) : Prop :=
  (Pattern.rule .sourceFile).Derives Nonterminal.production kinds

/-- A derivation of a whole source file from all tokens. -/
def IsDerivation (tokens : List Token) (d : Derivation Terminal Nonterminal) : Prop :=
  d.Reads grammar (tokens.map (·.kind)) (.category (.named .sourceFile)) 0 tokens.length

/-- The tokens of a text that has no lexeme at some place are refused or not enough. -/
theorem parse_of_stop (file : Option Text) {source : Text} {place : Location × CodePoint}
    (hstop : (Tokens.ofText source).stop = some place) :
    ∃ failure, Module.parse file source = .ok (.error failure) := by
  rw [Module.parse]
  rcases derive_cases ((Tokens.ofText source).tokens.map (·.kind)) with
    ⟨d, hd, _⟩ | ⟨_, hunfinished | ⟨position, hlt, hrefused⟩⟩
  · rw [hd, hstop]
    exact ⟨_, rfl⟩
  · rw [hunfinished, hstop]
    exact ⟨_, rfl⟩
  · rw [List.length_map] at hlt
    rw [hrefused]
    dsimp only
    rw [List.getElem?_eq_getElem hlt]
    exact ⟨_, rfl⟩

theorem parse_of_lexes (file : Option Text) {source : Text} {tokens : List Token}
    (hlexes : Lexes Location.origin source tokens) :
    (∃ d, IsDerivable (tokens.map (·.kind)) ∧ IsDerivation tokens d ∧
      Module.parse file source = (Reader.module (Concrete.ofDerivation tokens d)).map .ok) ∨
    ¬ IsDerivable (tokens.map (·.kind)) ∧
      ∃ failure, Module.parse file source = .ok (.error failure) := by
  rw [Module.parse, ofText_eq_iff_lexes.mpr hlexes]
  rcases derive_cases (tokens.map (·.kind)) with
    ⟨d, hd, hreads, hderives⟩ | ⟨hnone, hunfinished | ⟨position, hlt, hrefused⟩⟩
  · rw [List.length_map] at hreads
    exact Or.inl ⟨d, hderives, hreads, by rw [hd]⟩
  · exact Or.inr ⟨hnone, by rw [hunfinished]; exact ⟨_, rfl⟩⟩
  · rw [List.length_map] at hlt
    refine Or.inr ⟨hnone, ?_⟩
    rw [hrefused]
    dsimp only
    rw [List.getElem?_eq_getElem hlt]
    exact ⟨_, rfl⟩

theorem exists_lexes_or_stop (source : Text) :
    (∃ tokens, Lexes Location.origin source tokens) ∨
      ∃ place, (Tokens.ofText source).stop = some place ∧
        ∀ tokens, ¬ Lexes Location.origin source tokens := by
  cases hstop : (Tokens.ofText source).stop with
  | none => exact Or.inl ⟨_, ofText_eq_iff_lexes.mp (by rw [← hstop])⟩
  | some place =>
      refine Or.inr ⟨place, rfl, fun tokens hlexes => ?_⟩
      rw [ofText_eq_iff_lexes.mpr hlexes] at hstop
      cases hstop

/-- Parsing reports a failure exactly for the texts outside the declaration language, and a module
that it gives is read from a derivation of the tokens of the text. -/
theorem parse_accepts_grammar (file : Option Text) (source : Text) :
    ((∃ failure, Module.parse file source = .ok (.error failure)) ↔
      ¬ ∃ tokens, Lexes Location.origin source tokens ∧
        (Pattern.rule .sourceFile).Derives Nonterminal.production (tokens.map (·.kind))) ∧
    ∀ m, Module.parse file source = .ok (.ok m) → ∃ tokens d,
      Lexes Location.origin source tokens ∧
      d.Reads grammar (tokens.map (·.kind)) (.category (.named .sourceFile)) 0 tokens.length ∧
      Reader.module (Concrete.ofDerivation tokens d) = .ok m := by
  rcases exists_lexes_or_stop source with ⟨tokens, hlexes⟩ | ⟨place, hstop, hnone⟩
  · have hunique : ∀ other, Lexes Location.origin source other → other = tokens := by
      intro other hother
      have hsame := ofText_eq_iff_lexes.mpr hlexes
      rw [ofText_eq_iff_lexes.mpr hother] at hsame
      exact (Tokens.mk.inj hsame).1
    rcases parse_of_lexes file hlexes with ⟨d, hderives, hreads, hparse⟩ | ⟨hnot, failure, hfailure⟩
    · rw [hparse]
      refine ⟨⟨?_, fun h => absurd ⟨tokens, hlexes, hderives⟩ h⟩, ?_⟩
      · rintro ⟨failure, hfailure⟩
        cases hmodule : Reader.module (Concrete.ofDerivation tokens d) with
        | error fault =>
            rw [hmodule] at hfailure
            cases hfailure
        | ok m =>
            rw [hmodule] at hfailure
            cases hfailure
      · intro m hm
        refine ⟨tokens, d, hlexes, hreads, ?_⟩
        cases hmodule : Reader.module (Concrete.ofDerivation tokens d) with
        | error fault =>
            rw [hmodule] at hm
            cases hm
        | ok m' =>
            rw [hmodule] at hm
            obtain rfl : m' = m := Except.ok.inj (Except.ok.inj hm)
            rfl
    · rw [hfailure]
      refine ⟨⟨fun _ => ?_, fun _ => ⟨failure, rfl⟩⟩, fun m hm => by cases hm⟩
      rintro ⟨other, hother, hderives⟩
      obtain rfl := hunique other hother
      exact hnot hderives
  · obtain ⟨failure, hfailure⟩ := parse_of_stop file hstop
    rw [hfailure]
    refine ⟨⟨fun _ => ?_, fun _ => ⟨failure, rfl⟩⟩, fun m hm => by cases hm⟩
    rintro ⟨tokens, hlexes, _⟩
    exact hnone tokens hlexes

end HostBindings.Source

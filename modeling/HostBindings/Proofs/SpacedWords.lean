import HostBindings.Proofs.LayoutInsensitivity
import Mathlib.Tactic.FinCases

/-!
Words with spaces between them. A name or a mark is a whole lexeme where a space or the end of the
text follows, so a text that is written word by word has these words for its tokens.
-/

namespace HostBindings.Source

open Lexeme

/-- What a token says: its kind and its text. -/
abbrev Word := Terminal × Text

namespace Word

def name (w : Text) : Word := (.name, w)

def mark (k : Terminal) : Word := (k, k.spelling)

/-- Names and marks. -/
inductive IsPlain : Word → Prop
  | name {w : Text} (h : IsLexeme (some .name) w) : IsPlain (name w)
  | mark {k : Terminal} (h : k ∈ Terminal.marks) : IsPlain (mark k)

/-- Names and marks, and the words that the language has for itself. -/
inductive IsWritable : Word → Prop
  | plain {w : Word} (h : w.IsPlain) : IsWritable w
  | word {k : Terminal} (h : k ∈ Terminal.words) : IsWritable (mark k)

theorem IsPlain.notMem_words {w : Word} (h : w.IsPlain) : w.1 ∉ Terminal.words := by
  have hmarks : ∀ k ∈ Terminal.marks, k ∉ Terminal.words := by decide
  cases h with
  | name => exact (by decide : Terminal.name ∉ Terminal.words)
  | mark hk => exact hmarks _ hk

/-- The text of words with a space between them. -/
def spaced (ws : List Word) : Text := Text.join " " (ws.map (·.2))

end Word

/-- Whether a text is at its end or goes on with a space. -/
def IsApart (rest : Text) : Prop := rest = [] ∨ ∃ more, rest = CodePoint.ofChar ' ' :: more

theorem next?_of_isName {w rest : Text} (hw : IsName w) (hrest : IsApart rest) :
    next? (w ++ rest) = some (some (Terminal.ofWord w), w.length) := by
  have hgroup := opens_name w hw
  obtain ⟨c, parts, rfl, hstart, hparts⟩ := hw
  obtain ⟨d, others, hcons, hd⟩ := hgroup
  obtain ⟨rfl, rfl⟩ := List.cons.inj hcons
  have hskipped : ((blank (c :: parts ++ rest) <|> lineComment (c :: parts ++ rest) <|>
      blockComment (c :: parts ++ rest)).map fun n => ((none : Option Terminal), n)) = none := by
    cases hfound : (blank (c :: parts ++ rest) <|> lineComment (c :: parts ++ rest) <|>
      blockComment (c :: parts ++ rest)).map fun n => ((none : Option Terminal), n) with
    | none => rfl
    | some r =>
        obtain ⟨e, more, hhead, he⟩ := recognizes_skipped.opens_of_eq_some hfound
        obtain ⟨rfl, _⟩ := List.cons.inj hhead
        rw [hd] at he
        cases he
  have hrun : run isNamePart (parts ++ rest) = parts.length := by
    rw [run_append hparts]
    rcases hrest with rfl | ⟨more, rfl⟩
    · rfl
    · rw [run_cons_of_neg (by decide), Nat.add_zero]
  have hname : name (c :: parts ++ rest) = some (c :: parts).length := by
    rw [List.cons_append, name, if_pos hstart, hrun, List.length_cons, Nat.add_comm]
  rw [next?, hskipped, hname]
  simp

theorem next?_of_mark {k : Terminal} (hk : k ∈ Terminal.marks) {rest : Text}
    (hrest : IsApart rest) : next? (k.spelling ++ rest) = some (some k, k.spelling.length) := by
  rcases hrest with rfl | ⟨more, rfl⟩
  · rw [List.append_nil]
    exact (by decide : ∀ k ∈ Terminal.marks,
      next? k.spelling = some (some k, k.spelling.length)) k hk
  · fin_cases hk <;> rfl

theorem Word.IsWritable.isNext {w : Word} (h : w.IsWritable) {rest : Text}
    (hrest : IsApart rest) : IsNext (some w.1) w.2 rest := by
  have hnext : next? (w.2 ++ rest) = some (some w.1, w.2.length) := by
    cases h with
    | plain h =>
        cases h with
        | name hw =>
            obtain ⟨hname, hword⟩ := isLexeme_name_iff.mp hw
            have hfound := next?_of_isName hname hrest
            rwa [ofWord_of_ne hword] at hfound
        | mark hk => exact next?_of_mark hk hrest
    | @word k hk =>
        have hfound := next?_of_isName (isName_of_mem_words hk) hrest
        rwa [ofWord_spelling k hk] at hfound
  obtain ⟨_, _, hisNext⟩ := isNext_of_next? hnext
  rwa [List.take_left, List.drop_left] at hisNext

theorem isBlank_eq_false {c : CodePoint} (h : group c ≠ 0) : isBlank c = false := by
  rw [Bool.eq_false_iff]
  intro hblank
  rw [group, hblank] at h
  exact h rfl

theorem Word.IsWritable.exists_cons {w : Word} (h : w.IsWritable) :
    ∃ c rest, w.2 = c :: rest ∧ isBlank c = false := by
  have hname : ∀ {t}, IsName t → ∃ c rest, t = c :: rest ∧ isBlank c = false := by
    intro t ht
    obtain ⟨c, rest, rfl, hc⟩ := opens_name t ht
    exact ⟨c, rest, rfl, isBlank_eq_false (by rw [hc]; decide)⟩
  cases h with
  | plain h =>
      cases h with
      | name hw => exact hname (isLexeme_name_iff.mp hw).1
      | mark hk =>
          obtain ⟨c, rest, hspelling, hc⟩ := exists_spelling_cons hk
          exact ⟨c, rest, hspelling, isBlank_eq_false (by rw [hc]; decide)⟩
  | word hk => exact hname (isName_of_mem_words hk)

theorem isNext_space {c : CodePoint} (hc : isBlank c = false) (rest : Text) :
    IsNext none [CodePoint.ofChar ' '] (c :: rest) := by
  have hrun : run isBlank (CodePoint.ofChar ' ' :: c :: rest) = 1 := by
    simp [run, hc, show isBlank (CodePoint.ofChar ' ') = true from rfl]
  have hnext : next? (CodePoint.ofChar ' ' :: c :: rest) = some (none, 1) := by
    rw [next?, blank, run1, hrun]
    rfl
  exact (isNext_of_next? hnext).2.2

theorem isApart_flatMap (ws : List Word) :
    IsApart (ws.flatMap fun w => CodePoint.ofChar ' ' :: w.2) := by
  cases ws with
  | nil => exact Or.inl rfl
  | cons w rest => exact Or.inr ⟨_, rfl⟩

theorem exists_lexes_flatMap {ws : List Word} (h : ∀ w ∈ ws, w.IsWritable) (loc : Location) :
    ∃ tokens, Lexes loc (ws.flatMap fun w => CodePoint.ofChar ' ' :: w.2) tokens ∧
      tokens.map Token.content = ws := by
  induction ws generalizing loc with
  | nil => exact ⟨[], .nil loc, rfl⟩
  | cons w rest ih =>
      obtain ⟨hw, hrest⟩ := List.forall_mem_cons.mp h
      obtain ⟨c, more, hcons, hc⟩ := hw.exists_cons
      obtain ⟨tokens, hlexes, hcontent⟩ :=
        ih hrest ((loc.after [CodePoint.ofChar ' ']).after w.2)
      have hspace := isNext_space hc (more ++ rest.flatMap fun w => CodePoint.ofChar ' ' :: w.2)
      rw [← List.cons_append, ← hcons] at hspace
      have hall := Lexes.skip hspace (.token (hw.isNext (isApart_flatMap rest)) hlexes)
      rw [List.flatMap_cons]
      exact ⟨_, hall, by rw [List.map_cons, hcontent, Token.content]⟩

/-- The text of words with spaces between them has these words for its tokens. -/
theorem exists_lexes_spaced {ws : List Word} (h : ∀ w ∈ ws, w.IsWritable) :
    ∃ tokens, Lexes Location.origin (Word.spaced ws) tokens ∧
      tokens.map Token.content = ws := by
  cases ws with
  | nil => exact ⟨[], .nil _, rfl⟩
  | cons w rest =>
      obtain ⟨hw, hrest⟩ := List.forall_mem_cons.mp h
      obtain ⟨tokens, hlexes, hcontent⟩ :=
        exists_lexes_flatMap hrest (Location.origin.after w.2)
      have hall := Lexes.token (hw.isNext (isApart_flatMap rest)) hlexes
      rw [Word.spaced, List.map_cons, Text.join_cons, List.flatMap_map]
      exact ⟨_, hall, by rw [List.map_cons, hcontent, Token.content]⟩

end HostBindings.Source

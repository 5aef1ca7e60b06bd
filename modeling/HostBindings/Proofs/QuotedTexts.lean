import HostBindings.Proofs.EscapeRanges
import HostBindings.Proofs.LexedTexts
import HostBindings.Text.Quoted
import Mathlib.Data.Bool.AllAny

/-!
Quoted texts. The literal that is written for a text names its UTF-16 code units, so it is one
string token of the declaration language, and what that token stands for is the text with a
surrogate pair for every code point above `FFFF`. A text without such code points comes back as it
was.
-/

namespace HostBindings

/-- The UTF-16 code units of a code point: itself, or the surrogate pair of one above `FFFF`. -/
def CodePoint.codeUnits (c : CodePoint) : Text :=
  if c.val ≤ 0xFFFF then [c]
  else
    [⟨0xD800 + (c.val - 0x10000) / 0x400, by omega⟩, ⟨0xDC00 + (c.val - 0x10000) % 0x400, by omega⟩]

/-- The UTF-16 code units of a text. -/
def Text.codeUnits (t : Text) : Text := t.flatMap CodePoint.codeUnits

theorem CodePoint.codeUnits_of_le {c : CodePoint} (h : c.val ≤ 0xFFFF) : codeUnits c = [c] :=
  if_pos h

theorem CodePoint.le_of_mem_codeUnits {c unit : CodePoint} (h : unit ∈ codeUnits c) :
    unit.val ≤ 0xFFFF := by
  rw [codeUnits] at h
  split at h
  · rwa [List.mem_singleton.mp h]
  · rcases List.mem_pair.mp h with rfl | rfl
    · dsimp only
      omega
    · dsimp only
      omega

namespace Text

theorem le_of_mem_codeUnits {t : Text} {unit : CodePoint} (h : unit ∈ codeUnits t) :
    unit.val ≤ 0xFFFF := by
  obtain ⟨c, _, hunit⟩ := List.mem_flatMap.mp h
  exact CodePoint.le_of_mem_codeUnits hunit

theorem codeUnits_eq_self_iff {t : Text} : codeUnits t = t ↔ ∀ c ∈ t, c.val ≤ 0xFFFF := by
  constructor
  · intro h c hc
    rw [← h] at hc
    exact le_of_mem_codeUnits hc
  · intro h
    calc codeUnits t = t.flatMap fun c => [c] := by
          refine List.flatMap_congr fun c hc => ?_
          exact CodePoint.codeUnits_of_le (h c hc)
      _ = t := List.flatMap_singleton' t

end Text

namespace Text.Quoted

open Source

/-- The code points that a letter names after a backslash, each with its letter. -/
def letters : List (CodePoint × CodePoint) :=
  [('"', '"'), ('\\', '\\'), ('\n', 'n'), ('\r', 'r'), ('\t', 't'), ('\x08', 'b'), ('\x0C', 'f')]

theorem mem_letters_iff {c letter : CodePoint} : (c, letter) ∈ letters ↔
    (c = '"' ∧ letter = '"') ∨ (c = '\\' ∧ letter = '\\') ∨ controlLetter? c = some letter := by
  constructor
  · intro hmem
    simp only [letters, List.mem_cons, Prod.mk.injEq, List.not_mem_nil, or_false] at hmem
    rcases hmem with ⟨rfl, rfl⟩ | ⟨rfl, rfl⟩ | ⟨rfl, rfl⟩ | ⟨rfl, rfl⟩ | ⟨rfl, rfl⟩ | ⟨rfl, rfl⟩ |
      ⟨rfl, rfl⟩ <;> decide
  · rintro (⟨rfl, rfl⟩ | ⟨rfl, rfl⟩ | hletter)
    · decide
    · decide
    · have hchar : ∀ char : Char, c.val = char.toNat → c = char := fun char h => Fin.ext h
      rw [controlLetter?] at hletter
      split at hletter
      · rename_i h
        rw [hchar '\n' h, ← Option.some.inj hletter]
        decide
      · split at hletter
        · rename_i h
          rw [hchar '\r' h, ← Option.some.inj hletter]
          decide
        · split at hletter
          · rename_i h
            rw [hchar '\t' h, ← Option.some.inj hletter]
            decide
          · split at hletter
            · rename_i h
              rw [hchar '\x08' h, ← Option.some.inj hletter]
              decide
            · split at hletter
              · rename_i h
                rw [hchar '\x0C' h, ← Option.some.inj hletter]
                decide
              · cases hletter

theorem escape_forms (c : CodePoint) :
    (escape c = [c] ∧ c ≠ '"' ∧ c ≠ '\\' ∧ 0x20 ≤ c.val ∧ c.val ≤ 0x7E) ∨
      (∃ letter : CodePoint, escape c = [CodePoint.ofChar '\\', letter] ∧ (c, letter) ∈ letters) ∨
      (escape c = (units c).flatMap unitEscape ∧ ¬ (0x20 ≤ c.val ∧ c.val ≤ 0x7E) ∧
        ∀ letter, (c, letter) ∉ letters) := by
  rw [escape]
  split
  · rename_i hquote
    rw [hquote]
    exact Or.inr (Or.inl ⟨_, rfl, by decide⟩)
  · rename_i hquote
    split
    · rename_i hslash
      rw [hslash]
      exact Or.inr (Or.inl ⟨_, rfl, by decide⟩)
    · rename_i hslash
      split
      · rename_i hvisible
        simp only [Bool.and_eq_true, decide_eq_true_eq] at hvisible
        exact Or.inl ⟨rfl, hquote, hslash, hvisible⟩
      · rename_i hvisible
        simp only [Bool.and_eq_true, decide_eq_true_eq] at hvisible
        split
        · rename_i letter hletter
          exact Or.inr (Or.inl ⟨letter, rfl, mem_letters_iff.mpr (Or.inr (Or.inr hletter))⟩)
        · rename_i hnone
          refine Or.inr (Or.inr ⟨rfl, hvisible, fun letter hmem => ?_⟩)
          rcases mem_letters_iff.mp hmem with ⟨h, _⟩ | ⟨h, _⟩ | h
          · exact hquote h
          · exact hslash h
          · rw [hnone] at h
            cases h

theorem units_eq (c : CodePoint) : units c = (CodePoint.codeUnits c).map (·.val) := by
  rw [units, CodePoint.codeUnits]
  split
  · rw [if_pos (by omega)]
    rfl
  · rw [if_neg (by omega)]
    rfl

theorem escape_of_lt {c : CodePoint} (h : 0x7E < c.val) :
    escape c = (units c).flatMap unitEscape := by
  have hletters : ∀ pair ∈ letters, pair.1.val ≤ 0x7E := List.all_iff_forall_prop.mp (by decide)
  rcases escape_forms c with ⟨_, _, _, _, hle⟩ | ⟨letter, _, hmem⟩ | ⟨hescape, _⟩
  · omega
  · have hle := hletters _ hmem
    dsimp only at hle
    omega
  · exact hescape

/-- A code point above `FFFF` is written as its surrogate pair is. -/
theorem flatMap_escape_codeUnits (c : CodePoint) :
    (CodePoint.codeUnits c).flatMap escape = escape c := by
  by_cases h : c.val ≤ 0xFFFF
  · simp [CodePoint.codeUnits_of_le h]
  · have hunit : ∀ unit ∈ CodePoint.codeUnits c, escape unit = unitEscape unit.val := by
      intro unit hmem
      have hle := CodePoint.le_of_mem_codeUnits hmem
      have hlt : 0x7E < unit.val := by
        rw [CodePoint.codeUnits, if_neg h] at hmem
        rcases List.mem_pair.mp hmem with rfl | rfl
        · dsimp only
          omega
        · dsimp only
          omega
      rw [escape_of_lt hlt, units, if_pos (by omega), List.flatMap_singleton]
    calc (CodePoint.codeUnits c).flatMap escape
        = (CodePoint.codeUnits c).flatMap fun unit => unitEscape unit.val :=
          List.flatMap_congr hunit
      _ = (units c).flatMap unitEscape := by rw [units_eq, List.flatMap_map]
      _ = escape c := (escape_of_lt (by omega)).symm

theorem literal_codeUnits (t : Text) : literal (codeUnits t) = literal t := by
  have hbody : (codeUnits t).flatMap escape = t.flatMap escape := by
    rw [codeUnits, List.flatMap_assoc]
    exact List.flatMap_congr fun c _ => flatMap_escape_codeUnits c
  rw [literal, literal, hbody]

theorem literal_eq (t : Text) :
    literal t = Lexeme.doubleQuote :: (t.flatMap escape ++ [Lexeme.doubleQuote]) := by
  rfl

theorem hexDigit_spec (k : Nat) : (hexDigit k).hexValue? = some (k % 16) ∧
    hexDigit k ≠ Lexeme.doubleQuote ∧ hexDigit k ≠ CodePoint.ofChar '\\' ∧
      hexDigit k ≠ CodePoint.ofChar '\n' ∧ hexDigit k ≠ CodePoint.ofChar '\x7b' := by
  have hbelow : ∀ n < 16, CodePoint.hexValue? (CodePoint.ofChar (Nat.digitChar n)) = some n ∧
      CodePoint.ofChar (Nat.digitChar n) ≠ Lexeme.doubleQuote ∧
      CodePoint.ofChar (Nat.digitChar n) ≠ CodePoint.ofChar '\\' ∧
      CodePoint.ofChar (Nat.digitChar n) ≠ CodePoint.ofChar '\n' ∧
      CodePoint.ofChar (Nat.digitChar n) ≠ CodePoint.ofChar '\x7b' := by
    decide
  exact hbelow (k % 16) (Nat.mod_lt k (by decide))

theorem isQuotedBody_unitEscape (n : Nat) {rest : Text}
    (h : Lexeme.IsQuotedBody Lexeme.doubleQuote false rest) :
    Lexeme.IsQuotedBody Lexeme.doubleQuote false (unitEscape n ++ rest) := by
  have hdigit : ∀ (k : Nat) {more : Text}, Lexeme.IsQuotedBody Lexeme.doubleQuote false more →
      Lexeme.IsQuotedBody Lexeme.doubleQuote false (hexDigit k :: more) := by
    intro k more hmore
    obtain ⟨_, hquote, hslash, hline, _⟩ := hexDigit_spec k
    exact .plain hquote hslash (Or.inr hline) hmore
  exact .escaped (by decide) (hdigit _ (hdigit _ (hdigit _ (hdigit _ h))))

theorem isQuotedBody_escape (c : CodePoint) {rest : Text}
    (h : Lexeme.IsQuotedBody Lexeme.doubleQuote false rest) :
    Lexeme.IsQuotedBody Lexeme.doubleQuote false (escape c ++ rest) := by
  have hletters : ∀ pair ∈ letters, pair.2 ≠ CodePoint.ofChar '\n' :=
    List.all_iff_forall_prop.mp (by decide)
  rcases escape_forms c with ⟨hescape, hquote, hslash, hlow, _⟩ | ⟨letter, hescape, hmem⟩ |
    ⟨hescape, _⟩
  · rw [hescape]
    refine .plain hquote hslash (Or.inr ?_) h
    rintro rfl
    exact absurd hlow (by decide)
  · rw [hescape]
    exact .escaped (hletters _ hmem) h
  · rw [hescape]
    induction units c with
    | nil => exact h
    | cons n more ih =>
        rw [List.flatMap_cons, List.append_assoc]
        exact isQuotedBody_unitEscape n ih

theorem isQuoted_literal (t : Text) : Lexeme.IsQuoted Lexeme.doubleQuote false (literal t) := by
  refine ⟨t.flatMap escape, literal_eq t, ?_⟩
  induction t with
  | nil => exact .nil
  | cons c rest ih =>
      rw [List.flatMap_cons]
      exact isQuotedBody_escape c ih

theorem lexes_literal (t : Text) (loc : Location) :
    Lexes loc (literal t) [⟨.string, literal t, loc⟩] := by
  have hnext : IsNext (some .string) (literal t) [] := by
    refine ⟨.string (Or.inl rfl) (isQuoted_literal t), fun _ l _ hl => ?_⟩
    rw [List.append_nil] at hl
    exact hl.length_le
  have hlexes := Lexes.token hnext (.nil (loc.after (literal t)))
  rwa [List.append_nil] at hlexes

open StringLiteral

theorem hexNumber_hex4 {n : Nat} (h : n ≤ 0xFFFF) : hexNumber (hex4 n) = n := by
  simp only [hexNumber, hex4, List.foldl_cons, List.foldl_nil, (hexDigit_spec _).1,
    Option.getD_some]
  omega

theorem resolve_passing (passed rest : Text) :
    resolve (.passing passed.length) (passed ++ rest) = resolve (.passing 0) rest := by
  induction passed with
  | nil => rfl
  | cons c more ih => rw [List.length_cons, List.cons_append, resolve, ih]

theorem escape_hex4 {n : Nat} (h : n ≤ 0xFFFF) (rest : Text) :
    StringLiteral.escape (CodePoint.ofChar 'u') (hex4 n ++ rest) =
      (.ok [⟨n, by omega⟩], (hex4 n).length) := by
  have hbraced : braced? (hex4 n ++ rest) = none := by
    rw [hex4, List.cons_append, braced?]
    simp [(hexDigit_spec (n / 4096)).2.2.2.2]
  have hhex : (hex4 n).all isHex = true := by
    simp [hex4, isHex, hexDigit_spec]
  have hfixed : fixed? 4 (hex4 n ++ rest) = some (hex4 n) := by
    rw [fixed?]
    have htake : (hex4 n ++ rest).take 4 = hex4 n := rfl
    simp only [htake, hhex]
    rfl
  rw [StringLiteral.escape]
  simp only [hbraced, hfixed, if_true, hexNumber_hex4 h,
    codePoint_of_lt (show n < 0x110000 by omega)]
  rfl

theorem resolve_escape {c : CodePoint} (h : c.val ≤ 0xFFFF) {rest tail : Text}
    (hrest : resolve (.passing 0) rest = .ok tail) :
    resolve (.passing 0) (escape c ++ rest) = .ok (c :: tail) := by
  have hletters : ∀ pair ∈ letters,
      pair.2 ≠ CodePoint.ofChar 'u' ∧ pair.2 ≠ CodePoint.ofChar 'x' ∧ simple pair.2 = [pair.1] :=
    List.all_iff_forall_prop.mp (by decide)
  rcases escape_forms c with ⟨hescape, _, hslash, _⟩ | ⟨letter, hescape, hmem⟩ | ⟨hescape, _⟩
  · rw [hescape, List.singleton_append, resolve, if_neg hslash, hrest]
    rfl
  · obtain ⟨hu, hx, hsimple⟩ := hletters _ hmem
    rw [hescape, List.cons_append, List.singleton_append, resolve, if_pos rfl, resolve,
      StringLiteral.escape, if_neg hu, if_neg hx, hsimple]
    dsimp only
    rw [hrest]
    rfl
  · rw [hescape, units, if_pos (by omega), List.flatMap_singleton, unitEscape, List.cons_append,
      List.cons_append, resolve, if_pos rfl, resolve, escape_hex4 h]
    dsimp only
    rw [resolve_passing, hrest]
    rfl

theorem resolve_flatMap_escape {t : Text} (h : ∀ c ∈ t, c.val ≤ 0xFFFF) :
    resolve (.passing 0) (t.flatMap escape) = .ok t := by
  induction t with
  | nil => rfl
  | cons c rest ih =>
      obtain ⟨hc, hrest⟩ := List.forall_mem_cons.mp h
      rw [List.flatMap_cons]
      exact resolve_escape hc (ih hrest)

theorem decode_literal (t : Text) : decode (literal t) = .ok (codeUnits t) := by
  rw [← literal_codeUnits, decode, literal_eq, List.drop_one, List.tail_cons, List.dropLast_concat]
  exact resolve_flatMap_escape fun _ => le_of_mem_codeUnits

/-- The literal of a text is one string token from its start to its end, and stands for the code
units of the text, which are the text itself if none of its code points is above `FFFF`. -/
theorem literal_readsBack (t : Text) :
    Tokens.ofText (literal t) = ⟨[⟨.string, literal t, Location.origin⟩], none⟩ ∧
      decode (literal t) = .ok (codeUnits t) ∧
      (codeUnits t = t ↔ ∀ c ∈ t, c.val ≤ 0xFFFF) :=
  ⟨ofText_eq_iff_lexes.mpr (lexes_literal t Location.origin), decode_literal t,
    codeUnits_eq_self_iff⟩

end Text.Quoted

end HostBindings

import HostBindings.Source.StringLiteral
import Mathlib.Algebra.Group.Nat.Defs
import Mathlib.Data.List.Induction

/-!
String literals without an escape above the last code point have a text. Which backslash starts an
escape is told by the backslashes before it: one after an even number of them does.
-/

namespace HostBindings.Source.StringLiteral

/-- The number of backslashes at the end of a text. -/
def trailing (t : Text) : Nat := (t.reverse.takeWhile (· = CodePoint.ofChar '\\')).length

/-- Whether the escape with these hexadecimal digits in braces occurs in a text. -/
def HasEscape (t digits : Text) : Prop :=
  ∃ front rest : Text, t = front ++ "\\u\x7b" ++ digits ++ "\x7d" ++ rest ∧ trailing front % 2 = 0 ∧
    digits ≠ [] ∧ digits.all isHex = true

/-- A literal all of whose escapes in braces name code points. -/
def InRange (literal : Text) : Prop :=
  ∀ digits, HasEscape (literal.drop 1).dropLast digits → hexNumber digits ≤ 0x10FFFF

theorem trailing_concat (t : Text) (c : CodePoint) :
    trailing (t ++ [c]) = if c = '\\' then trailing t + 1 else 0 := by
  rw [trailing, List.reverse_concat, List.takeWhile_cons]
  by_cases h : c = CodePoint.ofChar '\\'
  · simp [h, trailing]
  · simp [h]

theorem hexValue?_lt {c : CodePoint} {n : Nat} (h : c.hexValue? = some n) : n < 16 := by
  simp only [CodePoint.hexValue?, CodePoint.isDigit, Bool.and_eq_true, decide_eq_true_eq] at h
  split at h
  · cases h
    omega
  · split at h
    · cases h
      omega
    · split at h
      · cases h
        omega
      · cases h

theorem hexNumber_lt (digits : Text) : hexNumber digits < 16 ^ digits.length := by
  have hdigit : ∀ c : CodePoint, c.hexValue?.getD 0 < 16 := by
    intro c
    cases h : c.hexValue? with
    | none => decide
    | some n => exact hexValue?_lt h
  rw [hexNumber]
  induction digits using List.reverseRecOn with
  | nil => decide
  | append_singleton front c ih =>
      rw [List.foldl_append, List.length_append, List.length_singleton, Nat.pow_succ]
      have hlast := hdigit c
      simp only [List.foldl_cons, List.foldl_nil]
      omega

theorem braced?_eq_some {t digits : Text} (h : braced? t = some digits) :
    digits ≠ [] ∧ digits.all isHex = true ∧
      ∃ rest : Text,
        t = CodePoint.ofChar '\x7b' :: (digits ++ CodePoint.ofChar '\x7d' :: rest) := by
  cases t with
  | nil => cases h
  | cons c rest =>
      simp only [braced?, Bool.and_eq_true, decide_eq_true_eq, Bool.not_eq_true'] at h
      split at h
      · rename_i hbraced
        obtain ⟨⟨rfl, hsome⟩, hclosed⟩ := hbraced
        cases h
        have hsplit := List.prefix_iff_eq_append.mp (List.takeWhile_prefix (l := rest) isHex)
        obtain ⟨more, hmore⟩ := List.head?_eq_some_iff.mp hclosed
        refine ⟨by simpa using hsome, List.all_takeWhile, more, ?_⟩
        rw [← hmore, hsplit]
      · cases h

theorem fixed?_eq_some {n : Nat} {t digits : Text} (h : fixed? n t = some digits) :
    digits.length = n ∧ digits.all isHex = true ∧ t.take n = digits := by
  simp only [fixed?, Bool.and_eq_true, decide_eq_true_eq] at h
  split at h
  · rename_i hdigits
    cases h
    exact ⟨hdigits.1, hdigits.2, rfl⟩
  · cases h

/-- What an escape can be: digits in braces after a letter, digits of a fixed number, or a single
code point. -/
theorem escape_cases (c : CodePoint) (rest : Text) :
    (∃ digits more : Text, c = 'u' ∧ digits ≠ [] ∧ digits.all isHex = true ∧
      rest = CodePoint.ofChar '\x7b' :: (digits ++ CodePoint.ofChar '\x7d' :: more) ∧
      escape c rest = ((codePoint (hexNumber digits)).map fun p => [p], digits.length + 2)) ∨
    (∃ digits : Text, 0 < digits.length ∧ digits.length ≤ 4 ∧ digits.all isHex = true ∧
      rest.take digits.length = digits ∧
      escape c rest = ((codePoint (hexNumber digits)).map fun p => [p], digits.length)) ∨
    escape c rest = (.ok (simple c), 0) := by
  rw [escape]
  dsimp only
  split
  · rename_i hletter
    split
    · rename_i digits hbraced
      obtain ⟨hne, hhex, more, hrest⟩ := braced?_eq_some hbraced
      exact Or.inl ⟨digits, more, hletter, hne, hhex, hrest, rfl⟩
    · split
      · rename_i digits hfixed
        obtain ⟨hlength, hhex, htake⟩ := fixed?_eq_some hfixed
        refine Or.inr (Or.inl ⟨digits, by omega, by omega, hhex, ?_, rfl⟩)
        rw [hlength, htake]
      · exact Or.inr (Or.inr rfl)
  · split
    · split
      · rename_i digits hfixed
        obtain ⟨hlength, hhex, htake⟩ := fixed?_eq_some hfixed
        refine Or.inr (Or.inl ⟨digits, by omega, by omega, hhex, ?_, rfl⟩)
        rw [hlength, htake]
      · exact Or.inr (Or.inr rfl)
    · exact Or.inr (Or.inr rfl)

theorem codePoint_of_lt {n : Nat} (h : n < 0x110000) : codePoint n = .ok ⟨n, h⟩ := dif_pos h

/-- What is known about a text where the reading stands between its two parts. -/
def Position.Stands (done rest : Text) : Position → Prop
  | .escaped => ∃ before : Text, done = before ++ [CodePoint.ofChar '\\'] ∧ trailing before % 2 = 0
  | .passing count =>
      (∀ c ∈ rest.take count, c ≠ CodePoint.ofChar '\\') ∧ (count = 0 → trailing done % 2 = 0)

theorem even_trailing_concat {done : Text} {c : CodePoint} (h : c ≠ CodePoint.ofChar '\\') :
    trailing (done ++ [c]) % 2 = 0 := by
  rw [trailing_concat, if_neg h]

theorem Position.stands_next {done rest : Text} {c : CodePoint} {count : Nat}
    (h : Position.Stands done (c :: rest) (.passing (count + 1))) :
    Position.Stands (done ++ [c]) rest (.passing count) := by
  obtain ⟨hpassed, _⟩ := h
  rw [List.take_succ_cons] at hpassed
  obtain ⟨hc, hrest⟩ := List.forall_mem_cons.mp hpassed
  exact ⟨hrest, fun _ => even_trailing_concat hc⟩

theorem ne_backslash_of_isHex {c : CodePoint} (h : isHex c = true) :
    c ≠ CodePoint.ofChar '\\' := by
  rintro rfl
  cases h

theorem escape_eq_ok {body done rest : Text} {c : CodePoint}
    (hrange : ∀ digits, HasEscape body digits → hexNumber digits ≤ 0x10FFFF)
    (hbody : body = done ++ c :: rest) (hstands : Position.Stands done (c :: rest) .escaped) :
    ∃ value count, escape c rest = (.ok value, count) ∧
      Position.Stands (done ++ [c]) rest (.passing count) := by
  obtain ⟨before, rfl, heven⟩ := hstands
  rcases escape_cases c rest with ⟨digits, more, rfl, hne, hhex, rfl, hescape⟩ |
    ⟨digits, hpos, hle, hhex, htake, hescape⟩ | hescape
  · have hlt : hexNumber digits < 0x110000 := by
      refine Nat.lt_succ_of_le (hrange digits ⟨before, more, ?_, heven, hne, hhex⟩)
      rw [hbody]
      simp [Text.ofString]
    rw [codePoint_of_lt hlt] at hescape
    refine ⟨_, _, hescape, ?_, by simp⟩
    -- what is passed over is the digits and their braces
    have hpassed : (CodePoint.ofChar '\x7b' :: (digits ++ CodePoint.ofChar '\x7d' :: more)).take
        (digits.length + 2) = CodePoint.ofChar '\x7b' :: (digits ++ [CodePoint.ofChar '\x7d']) := by
      simp [List.take_append, List.take_of_length_le]
    rw [hpassed]
    intro x hx
    simp only [List.mem_cons, List.mem_append, List.not_mem_nil, or_false] at hx
    rcases hx with rfl | hdigit | rfl
    · decide
    · exact ne_backslash_of_isHex (List.all_eq_true.mp hhex x hdigit)
    · decide
  · have hlt : hexNumber digits < 0x110000 := by
      have hbound := hexNumber_lt digits
      have hpow : 16 ^ digits.length ≤ 16 ^ 4 := Nat.pow_le_pow_right (by decide) hle
      omega
    rw [codePoint_of_lt hlt] at hescape
    refine ⟨_, _, hescape, ?_, by omega⟩
    rw [htake]
    exact fun x hx => ne_backslash_of_isHex (List.all_eq_true.mp hhex x hx)
  · refine ⟨_, _, hescape, by simp, fun _ => ?_⟩
    rw [trailing_concat, trailing_concat, if_pos rfl]
    split <;> omega

/-- Resolving goes through, from wherever it stands. -/
theorem resolve_eq_ok {body : Text}
    (hrange : ∀ digits, HasEscape body digits → hexNumber digits ≤ 0x10FFFF) {done rest : Text}
    {position : Position} (hbody : body = done ++ rest) (hstands : position.Stands done rest) :
    ∃ t, resolve position rest = .ok t := by
  induction rest generalizing done position with
  | nil =>
      cases position with
      | escaped => exact ⟨[], rfl⟩
      | passing count => cases count <;> exact ⟨[], rfl⟩
  | cons c rest ih =>
      have hnext : body = (done ++ [c]) ++ rest := by rw [hbody, List.append_assoc]; rfl
      cases position with
      | escaped =>
          obtain ⟨value, count, hescape, hstands⟩ := escape_eq_ok hrange hbody hstands
          obtain ⟨tail, htail⟩ := ih hnext hstands
          refine ⟨value ++ tail, ?_⟩
          rw [resolve, hescape]
          simp [htail]
          rfl
      | passing count =>
          cases count with
          | succ count =>
              rw [resolve]
              exact ih hnext (Position.stands_next hstands)
          | zero =>
              rw [resolve]
              split
              · rename_i hc
                exact ih hnext ⟨done, by rw [hc], hstands.2 rfl⟩
              · rename_i hc
                have hstands : Position.Stands (done ++ [c]) rest (.passing 0) :=
                  ⟨by simp, fun _ => even_trailing_concat hc⟩
                obtain ⟨tail, htail⟩ := ih hnext hstands
                exact ⟨c :: tail, by rw [htail]; rfl⟩

theorem decode_eq_ok {literal : Text} (h : InRange literal) : ∃ t, decode literal = .ok t := by
  have hstands : Position.Stands [] (literal.drop 1).dropLast (.passing 0) :=
    ⟨by simp, fun _ => rfl⟩
  exact resolve_eq_ok h (List.nil_append _).symm hstands

theorem inRange_of_length {literal : Text} (h : literal.length ≤ 11) : InRange literal := by
  rintro digits ⟨front, rest, hbody, _⟩
  have hlength := congrArg List.length hbody
  simp only [List.length_append, List.length_dropLast, List.length_drop] at hlength
  have hopening : (Text.ofString "\\u\x7b").length = 3 := rfl
  have hclosing : (Text.ofString "\x7d").length = 1 := rfl
  have hnumber := hexNumber_lt digits
  have hpow : 16 ^ digits.length ≤ 16 ^ 5 := Nat.pow_le_pow_right (by decide) (by omega)
  omega

end HostBindings.Source.StringLiteral

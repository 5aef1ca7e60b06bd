import HostBindings.Identifier

/-!
Laws of Rust identifiers. A sanitized name is a word that is no keyword, or a keyword behind the raw
mark; so names stay apart when the raw mark is dropped, and the foreign spelling can always be read
back from an identifier.
-/

namespace HostBindings

namespace Text

theorem isDigit_of_mem_decimal {n : Nat} {c : CodePoint} (h : c ∈ decimal n) :
    c.isDigit = true := by
  obtain ⟨digit, hdigit, rfl⟩ := List.mem_map.mp h
  have hchar : digit.isDigit = true :=
    Nat.isDigit_of_mem_toDigits (by decide) (by decide) hdigit
  simp only [Char.isDigit, Bool.and_eq_true, decide_eq_true_eq] at hchar
  simp only [CodePoint.isDigit, CodePoint.ofChar, Bool.and_eq_true]
  exact ⟨decide_eq_true (UInt32.le_iff_toNat_le.mp hchar.1),
    decide_eq_true (UInt32.le_iff_toNat_le.mp hchar.2)⟩

theorem decimal_ne_nil (n : Nat) : decimal n ≠ [] := by
  simp [decimal, Nat.toDigits_ne_nil]

theorem ofChar_injective : Function.Injective CodePoint.ofChar := by
  intro a b h
  have hval : a.toNat = b.toNat := Fin.mk.inj h
  exact Char.toNat_inj.mp hval

theorem ofString_inj {s t : String} : ofString s = ofString t ↔ s = t := by
  constructor
  · intro h
    exact String.toList_injective (List.map_inj_right ofChar_injective |>.mp h)
  · rintro rfl
    rfl

theorem decimal_injective : Function.Injective decimal := by
  intro m n h
  have hdigits : Nat.toDigits 10 m = Nat.toDigits 10 n :=
    List.map_inj_right ofChar_injective |>.mp h
  calc
    m = Nat.ofDigitChars 10 (Nat.toDigits 10 m) 0 := Nat.ofDigitChars_ten_toDigits.symm
    _ = Nat.ofDigitChars 10 (Nat.toDigits 10 n) 0 := by rw [hdigits]
    _ = n := Nat.ofDigitChars_ten_toDigits

end Text

namespace Identifier

/-- The spelling of a foreign name in the output, before a keyword gets its raw mark. -/
def spelling (raw : Text) : Text :=
  if neverRaw.contains raw then raw ++ "_rs"
  else repairStart (replaceInvalid (normalizeCase raw))

theorem sanitize_eq (raw : Text) :
    sanitize raw =
      { name := if keywords.contains (spelling raw) then rawMark ++ spelling raw else spelling raw
        foreign := if spelling raw = raw then none else some raw } := rfl

/-- Whether a name is made of word characters only. -/
def isWord (name : Text) : Bool := name.all CodePoint.isWord

theorem isWord_iff {name : Text} : isWord name = true ↔ ∀ c ∈ name, c.isWord = true :=
  List.all_eq_true

theorem isWord_replaceInvalid (t : Text) : isWord (replaceInvalid t) = true := by
  rw [isWord_iff]
  intro c hc
  obtain ⟨original, _, rfl⟩ := List.mem_map.mp hc
  split
  · assumption
  · rfl

theorem isWord_repairStart {t : Text} (h : isWord t = true) : isWord (repairStart t) = true := by
  rw [repairStart]
  split
  · rfl
  · split
    · have hmark : (CodePoint.ofChar '_').isWord = true := rfl
      simpa [isWord, hmark] using h
    · exact h

theorem isWord_spelling (raw : Text) : isWord (spelling raw) = true := by
  rw [spelling]
  split
  · rename_i hnever
    have hall : (neverRaw.all fun word => isWord (word ++ Text.ofString "_rs")) = true :=
      rfl
    exact List.all_eq_true.mp hall raw (by simpa using hnever)
  · exact isWord_repairStart (isWord_replaceInvalid (normalizeCase raw))

theorem isWord_of_mem_keywords {word : Text} (h : word ∈ keywords) : isWord word = true := by
  have hall : keywords.all isWord = true := rfl
  exact List.all_eq_true.mp hall word h

theorem bareName_rawMark_append (name : Text) : bareName (rawMark ++ name) = name := by
  rw [bareName, if_pos (by simp [Text.startsWith])]
  rfl

/-- The hash of the raw mark is no word character, so a word never starts with the mark. -/
theorem bareName_of_isWord {name : Text} (h : isWord name = true) : bareName name = name := by
  rw [bareName, if_neg]
  intro hmark
  obtain ⟨rest, rfl⟩ := List.isPrefixOf_iff_prefix.mp hmark
  have hhash : CodePoint.ofChar '#' ∈ rawMark ++ rest :=
    List.mem_append_left rest (List.mem_cons_of_mem _ List.mem_cons_self)
  have hword := isWord_iff.mp h _ hhash
  exact absurd hword (by decide)

/-- Whether a name may stand in the output: a word that is no keyword, or a keyword behind the raw
mark. -/
def IsRust (name : Text) : Prop :=
  (isWord name = true ∧ name ∉ keywords) ∨ ∃ word ∈ keywords, name = rawMark ++ word

theorem isRust_rustName (raw : Text) : IsRust (rustName raw) := by
  simp only [rustName, sanitize_eq]
  split
  · rename_i hkeyword
    exact Or.inr ⟨spelling raw, by simpa using hkeyword, rfl⟩
  · rename_i hkeyword
    exact Or.inl ⟨isWord_spelling raw, by simpa using hkeyword⟩

theorem isWord_bareName {name : Text} (h : IsRust name) : isWord (bareName name) = true := by
  rcases h with ⟨hword, _⟩ | ⟨word, hkeyword, rfl⟩
  · rwa [bareName_of_isWord hword]
  · rw [bareName_rawMark_append]
    exact isWord_of_mem_keywords hkeyword

/-- Names of the output stay apart without their raw marks. -/
theorem bareName_inj {a b : Text} (ha : IsRust a) (hb : IsRust b)
    (h : bareName a = bareName b) : a = b := by
  rcases ha with ⟨hword, hfree⟩ | ⟨word, hkeyword, rfl⟩
  · rcases hb with ⟨hword', _⟩ | ⟨word', hkeyword', rfl⟩
    · rwa [bareName_of_isWord hword, bareName_of_isWord hword'] at h
    · rw [bareName_of_isWord hword, bareName_rawMark_append] at h
      exact absurd (h ▸ hkeyword') hfree
  · rcases hb with ⟨hword', hfree'⟩ | ⟨word', hkeyword', rfl⟩
    · rw [bareName_of_isWord hword', bareName_rawMark_append] at h
      exact absurd (h ▸ hkeyword) hfree'
    · rw [bareName_rawMark_append, bareName_rawMark_append] at h
      rw [h]

theorem bareName_rustName (raw : Text) : bareName (rustName raw) = spelling raw := by
  simp only [rustName, sanitize_eq]
  split
  · exact bareName_rawMark_append (spelling raw)
  · exact bareName_of_isWord (isWord_spelling raw)

theorem foreign_getD_bareName (raw : Text) :
    (sanitize raw).foreign.getD (bareName (sanitize raw).name) = raw := by
  have hbare : bareName (sanitize raw).name = spelling raw := bareName_rustName raw
  rw [hbare]
  simp only [sanitize_eq]
  split
  · assumption
  · rfl

theorem spelling_ne_nil (raw : Text) : spelling raw ≠ [] := by
  rw [spelling]
  split
  · exact List.append_ne_nil_of_right_ne_nil _ (by decide)
  · rw [repairStart]
    split
    · decide
    · rename_i hstart
      split
      · exact List.cons_ne_nil _ _
      · intro hnil
        simp [hnil] at hstart

theorem rustName_ne_nil (raw : Text) : rustName raw ≠ [] := by
  simp only [rustName, sanitize_eq]
  split
  · exact List.append_ne_nil_of_right_ne_nil _ (spelling_ne_nil raw)
  · exact spelling_ne_nil raw

theorem rustName_ne_self (raw : Text) : rustName raw ≠ Text.ofString "Self" := by
  intro h
  have hrust := isRust_rustName raw
  rw [h] at hrust
  rcases hrust with ⟨_, hfree⟩ | ⟨word, hkeyword, hword⟩
  · exact hfree (by decide)
  · have hmark : (Text.ofString "Self").startsWith rawMark = true := by
      rw [hword]
      simp [Text.startsWith]
    exact absurd hmark (by decide)

end Identifier

end HostBindings

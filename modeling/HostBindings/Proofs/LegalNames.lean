import HostBindings.Proofs.FreshNames

/-!
Legal names. Every name that the sanitizer makes is an identifier of the output: it has the
spelling of one, it is not the lone underscore, and the raw mark stands before keywords only, and
never before one that has no raw form. Casing folds runs of capitals; it cannot turn another name
into one of those keywords, so none of them needs the mark.
-/

namespace HostBindings

namespace CodePoint

/-- The visible ASCII characters and the space. -/
def isPrintable (c : CodePoint) : Bool := 0x20 ≤ c.val && c.val ≤ 0x7E

theorem isPrintable_of_isWord {c : CodePoint} (h : c.isWord = true) : c.isPrintable = true := by
  simp only [isWord, isLetter, isUpper, isLower, isDigit, isPrintable, Bool.or_eq_true,
    Bool.and_eq_true, decide_eq_true_eq, beq_iff_eq] at h ⊢
  rcases h with (h | h) | rfl
  · omega
  · omega
  · decide

end CodePoint

namespace Text

def isPrintable (t : Text) : Bool := t.all CodePoint.isPrintable

@[simp] theorem isPrintable_nil : isPrintable [] = true := rfl

@[simp] theorem isPrintable_append (a b : Text) :
    isPrintable (a ++ b) = (isPrintable a && isPrintable b) :=
  List.all_append

theorem isPrintable_join {separator : Text} {parts : List Text}
    (hseparator : isPrintable separator = true) (h : ∀ part ∈ parts, isPrintable part = true) :
    isPrintable (join separator parts) = true := by
  simp only [join]
  induction parts with
  | nil => rfl
  | cons part rest ih =>
      have hrest := ih fun other hother => h other (List.mem_cons_of_mem _ hother)
      cases rest with
      | nil => simpa using h part List.mem_cons_self
      | cons next more => simp [h part List.mem_cons_self, hseparator, hrest]

end Text

namespace Identifier

/-- Whether a text is spelled like an identifier: word characters, the first of them no digit. -/
def isSpelled (name : Text) : Bool :=
  match name with
  | [] => false
  | c :: rest => (c.isLetter || c == '_') && rest.all CodePoint.isWord

/-- What makes a name an identifier of the output. -/
structure IsLegal (name : Text) : Prop where
  spelled : isSpelled (bareName name) = true
  ne_underscore : name ≠ "_"
  rawMark_iff : name.startsWith rawMark = true ↔ bareName name ∈ keywords
  not_neverRaw : ∀ word ∈ neverRaw, name ≠ rawMark ++ word

theorem isWord_of_isSpelled {name : Text} (h : isSpelled name = true) : isWord name = true := by
  match name with
  | [] => cases h
  | c :: rest =>
      simp only [isSpelled, Bool.and_eq_true, Bool.or_eq_true] at h
      have hfirst : c.isWord = true := by
        rcases h.1 with hletter | hline <;> simp [CodePoint.isWord, *]
      rw [isWord, List.all_cons, hfirst, h.2]
      rfl

theorem isSpelled_append {a b : Text} (ha : isSpelled a = true) (hb : isWord b = true) :
    isSpelled (a ++ b) = true := by
  match a with
  | [] => cases ha
  | c :: rest =>
      simp only [isSpelled, Bool.and_eq_true] at ha
      rw [isWord] at hb
      simp [isSpelled, ha, hb]

theorem isPrintable_of_isWord {name : Text} (h : isWord name = true) :
    name.isPrintable = true := by
  rw [Text.isPrintable, List.all_eq_true]
  intro c hc
  exact CodePoint.isPrintable_of_isWord (isWord_iff.mp h c hc)

theorem isLegal_of_isSpelled {name : Text} (hspelled : isSpelled name = true)
    (hne : name ≠ Text.ofString "_") (hfree : name ∉ keywords) : IsLegal name := by
  have hbare : bareName name = name := bareName_of_isWord (isWord_of_isSpelled hspelled)
  have hmark : ¬ name.startsWith rawMark = true := by
    intro hmark
    have hdrop : name.drop 2 = name := by rwa [bareName, if_pos hmark] at hbare
    have hlength := congrArg List.length hdrop
    rw [List.length_drop] at hlength
    have hnil : name = [] := List.length_eq_zero_iff.mp (by omega)
    rw [hnil] at hspelled
    cases hspelled
  refine ⟨by rwa [hbare], hne, ?_, ?_⟩
  · rw [hbare]
    exact iff_of_false hmark hfree
  · rintro word _ rfl
    exact hmark (by simp [Text.startsWith])

theorem isLegal_rawMark_append {word : Text} (hkeyword : word ∈ keywords)
    (hraw : word ∉ neverRaw) : IsLegal (rawMark ++ word) := by
  have hall : keywords.all isSpelled = true := rfl
  refine ⟨?_, ?_, ?_, ?_⟩
  · rw [bareName_rawMark_append]
    exact List.all_eq_true.mp hall word hkeyword
  · intro h
    have hlength := congrArg List.length h
    simp [rawMark, Text.ofString] at hlength
  · rw [bareName_rawMark_append]
    exact iff_of_true (by simp [Text.startsWith]) hkeyword
  · intro other hother h
    exact hraw (List.append_cancel_left h ▸ hother)

theorem IsLegal.cases {name : Text} (h : IsLegal name) :
    (isSpelled name = true ∧ name ∉ keywords) ∨
      ∃ word ∈ keywords, isSpelled word = true ∧ name = rawMark ++ word := by
  obtain ⟨hspelled, _, hmark, _⟩ := h
  by_cases hstarts : name.startsWith rawMark = true
  · obtain ⟨word, rfl⟩ := List.isPrefixOf_iff_prefix.mp hstarts
    rw [bareName_rawMark_append] at hspelled hmark
    exact Or.inr ⟨word, hmark.mp hstarts, hspelled, rfl⟩
  · rw [bareName, if_neg hstarts] at hspelled hmark
    exact Or.inl ⟨hspelled, fun hkeyword => hstarts (hmark.mpr hkeyword)⟩

theorem IsLegal.isPrintable {name : Text} (h : IsLegal name) : name.isPrintable = true := by
  rcases h.cases with ⟨hspelled, _⟩ | ⟨word, _, hspelled, rfl⟩
  · exact isPrintable_of_isWord (isWord_of_isSpelled hspelled)
  · have hmark : rawMark.isPrintable = true := rfl
    rw [Text.isPrintable_append, hmark, isPrintable_of_isWord (isWord_of_isSpelled hspelled)]
    rfl

theorem toLower_of_isLower {c : CodePoint} (h : c.isLower = true) : c.toLower = c := by
  simp only [CodePoint.isLower, Bool.and_eq_true, decide_eq_true_eq] at h
  rw [CodePoint.toLower, dif_neg (by omega)]

theorem not_isCapital_of_isLower {c : CodePoint} (h : c.isLower = true) : isCapital c = false := by
  simp only [CodePoint.isLower, Bool.and_eq_true, decide_eq_true_eq] at h
  simp only [isCapital, CodePoint.isUpper, CodePoint.isDigit, Bool.or_eq_false_iff,
    Bool.and_eq_false_iff, decide_eq_false_iff_not]
  omega

theorem isUpper_of_isLower_toLower {c : CodePoint} (h : c.toLower.isLower = true)
    (hnot : c.isLower = false) : c.isUpper = true := by
  by_contra hupper
  have hkept : c.toLower = c := by
    rw [CodePoint.toLower, dif_neg]
    simpa [CodePoint.isUpper] using hupper
  rw [hkept, hnot] at h
  cases h

theorem not_isLower_of_isUpper {c : CodePoint} (h : c.isUpper = true) : c.isLower = false := by
  simp only [CodePoint.isUpper, CodePoint.isLower, Bool.and_eq_true, Bool.and_eq_false_iff,
    decide_eq_true_eq, decide_eq_false_iff_not] at h ⊢
  omega

/-- Whether what follows lets a code point be lowered: a capital letter, or nothing. -/
def standsBeforeCapital : Text → Bool
  | [] => true
  | next :: _ => next.isUpper

theorem foldCapitals_cons (afterCapital : Bool) (c : CodePoint) (rest : Text) :
    foldCapitals afterCapital (c :: rest) =
      (if afterCapital && standsBeforeCapital rest then c.toLower else c) ::
        foldCapitals (isCapital c) rest := by
  cases rest <;> rfl

theorem eq_of_foldCapitals_false {t : Text}
    (h : (foldCapitals false t).all CodePoint.isLower = true) : foldCapitals false t = t := by
  induction t with
  | nil => rfl
  | cons c rest ih =>
      simp only [foldCapitals_cons, Bool.false_and, Bool.false_eq_true, if_false, List.all_cons,
        Bool.and_eq_true] at h ⊢
      rw [not_isCapital_of_isLower h.1] at h ⊢
      rw [ih h.2]

theorem eq_or_of_foldCapitals_true {t : Text}
    (h : (foldCapitals true t).all CodePoint.isLower = true) :
    foldCapitals true t = t ∨ t.all (fun c => !c.isLower) = true := by
  induction t with
  | nil => exact Or.inl rfl
  | cons c rest ih =>
      rw [foldCapitals_cons, Bool.true_and, List.all_cons, Bool.and_eq_true] at h
      obtain ⟨hhead, htail⟩ := h
      cases hc : c.isLower with
      | true =>
          left
          rw [not_isCapital_of_isLower hc] at htail
          rw [foldCapitals_cons, toLower_of_isLower hc, ite_self, not_isCapital_of_isLower hc,
            eq_of_foldCapitals_false htail]
      | false =>
          right
          -- the head was lowered, so it is a capital letter that stands before another one
          split at hhead
          · rename_i hbefore
            rw [isCapital, isUpper_of_isLower_toLower hhead hc, Bool.true_or] at htail
            rcases ih htail with hsame | hcapitals
            · cases rest with
              | nil => simp [hc]
              | cons next more =>
                  rw [hsame, List.all_cons, not_isLower_of_isUpper hbefore] at htail
                  cases htail
            · simpa [hc] using hcapitals
          · rw [hc] at hhead
            cases hhead

/-- Casing makes a word with at most one capital, the first letter, out of that word only. -/
theorem eq_of_normalizeCase_eq_cons {raw word : Text} {c : CodePoint}
    (hlower : word.all CodePoint.isLower = true) (h : normalizeCase raw = c :: word) :
    raw = c :: word := by
  rw [normalizeCase] at h
  split at h
  · exact h
  · rename_i hmixed
    match raw with
    | [] => cases h
    | first :: rest =>
        rw [foldCapitals_cons, Bool.false_and, if_neg Bool.false_ne_true] at h
        obtain ⟨rfl, hrest⟩ := List.cons.inj h
        rw [← hrest] at hlower ⊢
        cases hcapital : isCapital first with
        | false =>
            rw [hcapital] at hlower
            rw [eq_of_foldCapitals_false hlower]
        | true =>
            rw [hcapital] at hlower
            rcases eq_or_of_foldCapitals_true hlower with hsame | hcapitals
            · rw [hsame]
            · have hfirst : first.isLower = false := by
                by_contra hfirst
                rw [not_isCapital_of_isLower (by simpa using hfirst)] at hcapital
                cases hcapital
              simp [hfirst, hcapitals] at hmixed

theorem eq_of_replaceInvalid_eq {t word : Text} (hword : CodePoint.ofChar '_' ∉ word)
    (h : replaceInvalid t = word) : t = word := by
  rw [← h, replaceInvalid]
  conv_lhs => rw [← List.map_id t]
  apply List.map_congr_left
  intro c hc
  have hmem : (if c.isWord then c else CodePoint.ofChar '_') ∈ word := by
    rw [← h]
    exact List.mem_map_of_mem hc
  split
  · rfl
  · rename_i hinvalid
    rw [if_neg hinvalid] at hmem
    exact absurd hmem hword

theorem eq_of_repairStart_eq {t word : Text} (hword : CodePoint.ofChar '_' ∉ word)
    (h : repairStart t = word) : t = word := by
  rw [repairStart] at h
  split at h
  · rw [← h] at hword
    exact absurd List.mem_cons_self hword
  · split at h
    · rw [← h] at hword
      exact absurd List.mem_cons_self hword
    · exact h

theorem eq_of_spelling_eq_cons {raw word : Text} {c : CodePoint}
    (hline : CodePoint.ofChar '_' ∉ c :: word) (hlower : word.all CodePoint.isLower = true)
    (h : spelling raw = c :: word) : raw = c :: word ∧ raw ∉ neverRaw := by
  rw [spelling] at h
  split at h
  · rw [← h] at hline
    exact absurd (List.mem_append_right _ List.mem_cons_self) hline
  · rename_i hraw
    have hcase := eq_of_replaceInvalid_eq hline (eq_of_repairStart_eq hline h)
    exact ⟨eq_of_normalizeCase_eq_cons hlower hcase, by simpa using hraw⟩

theorem spelling_not_mem_neverRaw (raw : Text) : spelling raw ∉ neverRaw := by
  intro hmem
  have hshape : (neverRaw.all fun word =>
      !(word.contains (CodePoint.ofChar '_')) && !word.tail.isEmpty &&
        word.tail.all CodePoint.isLower) = true := rfl
  have hword := List.all_eq_true.mp hshape _ hmem
  simp only [Bool.and_eq_true, Bool.not_eq_true', List.contains_eq_mem, decide_eq_false_iff_not,
    List.isEmpty_eq_false_iff] at hword
  obtain ⟨⟨hline, hne⟩, hlower⟩ := hword
  obtain ⟨c, rest, hspelled⟩ : ∃ c rest, spelling raw = c :: rest :=
    List.exists_cons_of_ne_nil fun h => hne (by rw [h]; rfl)
  rw [hspelled] at hmem hline hlower
  obtain ⟨hraw, hnever⟩ := eq_of_spelling_eq_cons hline hlower hspelled
  exact hnever (hraw ▸ hmem)

theorem isSpelled_repairStart {t : Text} (h : isWord t = true) :
    isSpelled (repairStart t) = true := by
  rw [repairStart]
  split
  · rfl
  · rename_i hne
    cases t with
    | nil => simp at hne
    | cons c rest =>
        simp only [isWord, List.all_cons, Bool.and_eq_true] at h
        split
        · simp only [isSpelled, List.all_cons, h.1, h.2]
          rfl
        · rename_i hdigit
          have hletter : (c.isLetter || c == CodePoint.ofChar '_') = true := by
            have hfirst := h.1
            rw [List.headD_cons] at hdigit
            rwa [CodePoint.isWord, Bool.eq_false_iff.mpr hdigit, Bool.or_false] at hfirst
          rw [isSpelled, hletter, h.2]
          rfl

theorem repairStart_ne_underscore (t : Text) : repairStart t ≠ Text.ofString "_" := by
  rw [repairStart]
  split
  · decide
  · rename_i hne
    split
    · rename_i hdigit
      intro h
      obtain ⟨_, rfl⟩ := List.cons.inj h
      cases hdigit
    · intro h
      simp [h] at hne

theorem isSpelled_spelling (raw : Text) : isSpelled (spelling raw) = true := by
  rw [spelling]
  split
  · rename_i hnever
    have hall : (neverRaw.all fun word => isSpelled (word ++ Text.ofString "_rs")) = true := rfl
    exact List.all_eq_true.mp hall raw (by simpa using hnever)
  · exact isSpelled_repairStart (isWord_replaceInvalid (normalizeCase raw))

theorem spelling_ne_underscore (raw : Text) : spelling raw ≠ Text.ofString "_" := by
  rw [spelling]
  split
  · intro h
    have hlength := congrArg List.length h
    simp [Text.ofString] at hlength
  · exact repairStart_ne_underscore _

theorem isLegal_rustName (raw : Text) : IsLegal (rustName raw) := by
  simp only [rustName, sanitize_eq]
  split
  · rename_i hkeyword
    exact isLegal_rawMark_append (by simpa using hkeyword) (spelling_not_mem_neverRaw raw)
  · rename_i hkeyword
    exact isLegal_of_isSpelled (isSpelled_spelling raw) (spelling_ne_underscore raw)
      (by simpa using hkeyword)

end Identifier

/-- A numbered name is legal without a raw mark, even if the name that it numbers is a keyword. -/
theorem Rust.Collision.isLegal_numbered {name : Text} (h : Identifier.IsLegal name) (k : Nat) :
    Identifier.IsLegal (numbered (Identifier.bareName name) k) := by
  have hdigits : Identifier.isWord (Text.ofString "_" ++ Text.decimal k) = true :=
    isWord_numbered (rfl : Identifier.isWord [] = true) k
  have hspelled : Identifier.isSpelled (numbered (Identifier.bareName name) k) = true := by
    rw [numbered, List.append_assoc]
    exact Identifier.isSpelled_append h.spelled hdigits
  refine Identifier.isLegal_of_isSpelled hspelled ?_ (numbered_not_mem_keywords _ k)
  intro hline
  have hlength := congrArg List.length hline
  have hdecimal := List.length_pos_iff.mpr (Text.decimal_ne_nil k)
  simp only [numbered, List.length_append, Text.ofString, List.length_map] at hlength
  simp at hlength
  omega

end HostBindings

import HostBindings.Proofs.LegalNames

/-!
Settled names. A spelling is made in several passes, and each of them leaves a text in which no pass
finds anything to change; so to sanitize an identifier without its raw mark gives the identifier
itself, with no foreign name to note.
-/

namespace HostBindings

namespace CodePoint

theorem toLower_of_not_isUpper {c : CodePoint} (h : c.isUpper = false) : c.toLower = c := by
  rw [toLower, dif_neg]
  simpa [isUpper] using h

theorem isUpper_toLower (c : CodePoint) : c.toLower.isUpper = false := by
  rw [toLower]
  split
  · simp only [isUpper, Bool.and_eq_false_iff, decide_eq_false_iff_not]
    omega
  · rename_i h
    simpa [isUpper] using h

theorem isDigit_toLower (c : CodePoint) : c.toLower.isDigit = c.isDigit := by
  rw [toLower]
  split
  · rename_i h
    have hupper : c.isDigit = false := by
      simp only [isDigit, Bool.and_eq_false_iff, decide_eq_false_iff_not]
      omega
    rw [hupper]
    simp only [isDigit, Bool.and_eq_false_iff, decide_eq_false_iff_not]
    omega
  · rfl

end CodePoint

namespace Identifier

open CodePoint

theorem isCapital_toLower {c : CodePoint} (h : isCapital c.toLower = true) :
    isCapital c = true := by
  rw [isCapital, isUpper_toLower, Bool.false_or, isDigit_toLower] at h
  rw [isCapital, h, Bool.or_true]

/-- No capital letter stands after a capital and before a capital letter or the end. -/
def IsFolded (afterCapital : Bool) : Text → Prop
  | [] => True
  | c :: rest =>
    (afterCapital = true → standsBeforeCapital rest = true → c.isUpper = false) ∧
      IsFolded (isCapital c) rest

theorem foldCapitals_of_isFolded {afterCapital : Bool} {t : Text} (h : IsFolded afterCapital t) :
    foldCapitals afterCapital t = t := by
  induction t generalizing afterCapital with
  | nil => rfl
  | cons c rest ih =>
      obtain ⟨hhead, hrest⟩ := h
      rw [foldCapitals_cons, ih hrest]
      split
      · rename_i hfolds
        rw [Bool.and_eq_true] at hfolds
        rw [toLower_of_not_isUpper (hhead hfolds.1 hfolds.2)]
      · rfl

theorem IsFolded.mono {after after' : Bool} {t : Text} (h : IsFolded after t)
    (himp : after' = true → after = true) : IsFolded after' t := by
  cases t with
  | nil => trivial
  | cons c rest => exact ⟨fun hafter hopens => h.1 (himp hafter) hopens, h.2⟩

theorem standsBeforeCapital_of_foldCapitals {afterCapital : Bool} {t : Text}
    (h : standsBeforeCapital (foldCapitals afterCapital t) = true) :
    standsBeforeCapital t = true := by
  cases t with
  | nil => rfl
  | cons c rest =>
      rw [foldCapitals_cons] at h
      split at h
      · rw [standsBeforeCapital, isUpper_toLower] at h
        cases h
      · exact h

/-- Folding leaves nothing to fold. What opened or followed a folded letter before does so no more,
never the other way round. -/
theorem isFolded_foldCapitals (afterCapital : Bool) (t : Text) :
    IsFolded afterCapital (foldCapitals afterCapital t) := by
  induction t generalizing afterCapital with
  | nil => trivial
  | cons c rest ih =>
      rw [foldCapitals_cons]
      refine ⟨fun hafter hopens => ?_, (ih (isCapital c)).mono fun hcapital => ?_⟩
      · rw [hafter, standsBeforeCapital_of_foldCapitals hopens]
        exact isUpper_toLower c
      · split at hcapital
        · exact isCapital_toLower hcapital
        · exact hcapital

/-- A text without a lower-case letter, or one with nothing to fold. -/
def IsCased (t : Text) : Prop := (∀ c ∈ t, c.isLower = false) ∨ IsFolded false t

theorem all_not_isLower_iff {t : Text} :
    (t.all fun c => !c.isLower) = true ↔ ∀ c ∈ t, c.isLower = false := by
  simp

theorem normalizeCase_of_isCased {t : Text} (h : IsCased t) : normalizeCase t = t := by
  rw [normalizeCase]
  split
  · rfl
  · rename_i hlower
    rw [all_not_isLower_iff] at hlower
    exact foldCapitals_of_isFolded (h.resolve_left hlower)

theorem isCased_normalizeCase (raw : Text) : IsCased (normalizeCase raw) := by
  rw [normalizeCase]
  split
  · rename_i hnone
    exact Or.inl (all_not_isLower_iff.mp hnone)
  · exact Or.inr (isFolded_foldCapitals false raw)

theorem isUpper_of_not_isWord {c : CodePoint} (h : c.isWord = false) : c.isUpper = false := by
  simp only [CodePoint.isWord, isLetter, Bool.or_eq_false_iff] at h
  exact h.1.1.1

theorem isCapital_of_not_isWord {c : CodePoint} (h : c.isWord = false) : isCapital c = false := by
  simp only [CodePoint.isWord, isLetter, Bool.or_eq_false_iff] at h
  rw [isCapital, h.1.1.1, h.1.2]
  rfl

theorem replaceInvalid_of_isWord {t : Text} (h : isWord t = true) : replaceInvalid t = t := by
  rw [replaceInvalid]
  conv => rhs; rw [← List.map_id t]
  refine List.map_congr_left fun c hc => ?_
  rw [if_pos (isWord_iff.mp h c hc)]
  rfl

theorem standsBeforeCapital_replaceInvalid (t : Text) :
    standsBeforeCapital (replaceInvalid t) = standsBeforeCapital t := by
  cases t with
  | nil => rfl
  | cons c rest =>
      cases hword : c.isWord with
      | true => simp [replaceInvalid, standsBeforeCapital, hword]
      | false =>
          have hline : (CodePoint.ofChar '_').isUpper = false := rfl
          simp [replaceInvalid, standsBeforeCapital, hword, hline, isUpper_of_not_isWord hword]

theorem IsFolded.replaceInvalid {afterCapital : Bool} {t : Text} (h : IsFolded afterCapital t) :
    IsFolded afterCapital (replaceInvalid t) := by
  induction t generalizing afterCapital with
  | nil => trivial
  | cons c rest ih =>
      obtain ⟨hhead, hrest⟩ := h
      have hcapital : isCapital (if c.isWord then c else CodePoint.ofChar '_') = isCapital c := by
        cases hword : c.isWord with
        | true => rfl
        | false =>
            rw [isCapital_of_not_isWord hword]
            rfl
      refine ⟨fun hafter hopens => ?_, ?_⟩
      · have hopens' : standsBeforeCapital rest = true := by
          rwa [← standsBeforeCapital_replaceInvalid]
        dsimp only
        split
        · exact hhead hafter hopens'
        · rfl
      · rw [hcapital]
        exact ih hrest

theorem IsCased.replaceInvalid {t : Text} (h : IsCased t) : IsCased (replaceInvalid t) := by
  rcases h with hnone | hfolded
  · refine Or.inl fun c hc => ?_
    obtain ⟨original, horiginal, rfl⟩ := List.mem_map.mp hc
    split
    · exact hnone original horiginal
    · rfl
  · exact Or.inr hfolded.replaceInvalid

/-- A word that starts and reads like an identifier. -/
structure IsStarted (t : Text) : Prop where
  ne_nil : t ≠ []
  ne_line : t ≠ Text.ofString "_"
  head : (t.headD (CodePoint.ofChar '_')).isDigit = false

theorem repairStart_of_isStarted {t : Text} (h : IsStarted t) : repairStart t = t := by
  rw [repairStart, if_neg (by simp [h.ne_nil, h.ne_line]), if_neg (by rw [h.head]; decide)]

theorem repairStart_cases (t : Text) :
    repairStart t = Text.ofString "__" ∨
      (t ≠ [] ∧ repairStart t = CodePoint.ofChar '_' :: t) ∨ IsStarted t ∧ repairStart t = t := by
  rw [repairStart]
  split
  · exact Or.inl rfl
  · rename_i hempty
    obtain ⟨hnil, hline⟩ : t ≠ [] ∧ t ≠ Text.ofString "_" := by simpa using hempty
    split
    · exact Or.inr (Or.inl ⟨hnil, rfl⟩)
    · rename_i hdigit
      exact Or.inr (Or.inr ⟨⟨hnil, hline, by simpa using hdigit⟩, rfl⟩)

theorem isStarted_repairStart (t : Text) : IsStarted (repairStart t) := by
  rcases repairStart_cases t with h | ⟨hnil, h⟩ | ⟨hstarted, h⟩
  · rw [h]
    exact ⟨by decide, by decide, by decide⟩
  · rw [h]
    refine ⟨List.cons_ne_nil _ _, fun hline => hnil (List.cons.inj hline).2, ?_⟩
    rw [List.headD_cons]
    rfl
  · rw [h]
    exact hstarted

theorem IsCased.repairStart {t : Text} (h : IsCased t) : IsCased (repairStart t) := by
  rcases repairStart_cases t with heq | ⟨_, heq⟩ | ⟨_, heq⟩
  · rw [heq]
    exact Or.inl (all_not_isLower_iff.mp rfl)
  · rw [heq]
    rcases h with hnone | hfolded
    · exact Or.inl (List.forall_mem_cons.mpr ⟨rfl, hnone⟩)
    · exact Or.inr ⟨nofun, hfolded⟩
  · rw [heq]
    exact h

theorem isCased_spelling (raw : Text) : IsCased (spelling raw) := by
  rw [spelling]
  split
  · rename_i hnever
    have hfolded : ∀ word ∈ neverRaw,
        foldCapitals false (word ++ Text.ofString "_rs") = word ++ Text.ofString "_rs" := by
      decide
    have hsame := hfolded raw (by simpa using hnever)
    exact Or.inr (hsame ▸ isFolded_foldCapitals false _)
  · exact (isCased_normalizeCase raw).replaceInvalid.repairStart

theorem isStarted_spelling (raw : Text) : IsStarted (spelling raw) := by
  rw [spelling]
  split
  · rename_i hnever
    have hkept : ∀ word ∈ neverRaw,
        repairStart (word ++ Text.ofString "_rs") = word ++ Text.ofString "_rs" := by decide
    have hsame := hkept raw (by simpa using hnever)
    exact hsame ▸ isStarted_repairStart _
  · exact isStarted_repairStart _

theorem spelling_spelling (raw : Text) : spelling (spelling raw) = spelling raw := by
  have hnever : neverRaw.contains (spelling raw) = false := by
    simpa using spelling_not_mem_neverRaw raw
  have hcase := normalizeCase_of_isCased (isCased_spelling raw)
  have hword := replaceInvalid_of_isWord (isWord_spelling raw)
  have hstart := repairStart_of_isStarted (isStarted_spelling raw)
  generalize spelling raw = name at hnever hcase hword hstart
  rw [spelling, hnever, if_neg Bool.false_ne_true, hcase, hword, hstart]

theorem bare_sanitize (raw : Text) : (sanitize raw).bare = spelling raw := bareName_rustName raw

/-- To sanitize an identifier without its raw mark gives the same identifier, and notes no foreign
name; and the foreign name is always there, as noted or as the identifier without its raw mark. -/
theorem sanitize_settles (raw : Text) :
    sanitize (sanitize raw).bare = { name := (sanitize raw).name, foreign := none } ∧
      (sanitize raw).foreign.getD (sanitize raw).bare = raw := by
  refine ⟨?_, foreign_getD_bareName raw⟩
  rw [bare_sanitize, sanitize_eq (spelling raw), spelling_spelling, if_pos rfl, sanitize_eq]

end Identifier

end HostBindings

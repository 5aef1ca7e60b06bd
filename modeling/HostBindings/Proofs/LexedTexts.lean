import HostBindings.Proofs.Lexemes

/-!
Cutting a text into lexemes. The first matcher that fits gives the longest lexeme that opens a
text, with its kind; so scanning a text comes to its end exactly when the text is made of lexemes,
and gives its tokens then.
-/

namespace HostBindings.Source

open Text.DecimalDigit (isDecimal)

namespace Lexeme

/-- Every text of a class opens with a code point of a kind. -/
def Opens (L : Text → Prop) (opens : CodePoint → Prop) : Prop :=
  ∀ l, L l → ∃ c rest, l = c :: rest ∧ opens c

theorem Opens.mono {L : Text → Prop} {opens opens' : CodePoint → Prop} (h : Opens L opens)
    (himp : ∀ c, opens c → opens' c) : Opens L opens' := by
  intro l hl
  obtain ⟨c, rest, rfl, hc⟩ := h l hl
  exact ⟨c, rest, rfl, himp c hc⟩

theorem Opens.or {L M : Text → Prop} {opens : CodePoint → Prop} (hL : Opens L opens)
    (hM : Opens M opens) : Opens (fun t => L t ∨ M t) opens := by
  rintro l (hl | hl)
  · exact hL l hl
  · exact hM l hl

theorem Finds.opens {m : Matcher} {L : Text → Prop} {opens : CodePoint → Prop} (h : Finds m L)
    (hopens : Opens L opens) {t : Text} {n : Nat} (hn : m t = some n) :
    ∃ c rest, t = c :: rest ∧ opens c := by
  obtain ⟨c, rest, htake, hc⟩ := hopens _ (h.sound hn).2
  exact ⟨c, rest ++ t.drop n, by rw [← List.cons_append, ← htake, List.take_append_drop], hc⟩

theorem Finds.or {first second : Matcher} {L M : Text → Prop} {opens opens' : CodePoint → Prop}
    (hfirst : Finds first L) (hsecond : Finds second M) (hL : Opens L opens) (hM : Opens M opens')
    (hopens : ∀ c, opens c → ¬ opens' c) :
    Finds (fun t => first t <|> second t) fun t => L t ∨ M t := by
  refine hfirst.orElse hsecond fun {t n n'} hn hn' => ?_
  obtain ⟨c, rest, rfl, hc⟩ := hfirst.opens hL hn
  obtain ⟨d, rest', heq, hd⟩ := hsecond.opens hM hn'
  obtain ⟨rfl, _⟩ := List.cons.inj heq
  exact absurd hd (hopens c hc)

/-- The group of lexemes that a code point opens, in the order in which they are tried; numbers and
marks are one group. -/
def group (c : CodePoint) : Nat :=
  if isBlank c || c = CodePoint.ofChar '/' then 0
  else if isNameStart c then 1
  else if c = CodePoint.ofChar '#' then 2
  else if c = doubleQuote || c = singleQuote then 3
  else if c = backquote then 4
  else 5

/-- A lexer gives the longest lexeme of some kinds that opens a text. `groups` tells in which groups
these lexemes are. -/
structure Recognizes (next : Text → Option (Option Terminal × Nat))
    (L : Option Terminal → Text → Prop) (groups : Nat → Prop) : Prop where
  sound : ∀ {t k n}, next t = some (k, n) → n ≤ t.length ∧ L k (t.take n)
  longest : ∀ {k l}, L k l → ∀ rest, ∃ k' n, next (l ++ rest) = some (k', n) ∧ l.length ≤ n ∧
    (n = l.length → k' = k)
  opens : ∀ {k}, Opens (L k) fun c => groups (group c)

section

variable {next next' : Text → Option (Option Terminal × Nat)}
  {L M : Option Terminal → Text → Prop} {groups : Nat → Prop}

theorem Recognizes.opens_of_eq_some (h : Recognizes next L groups) {t : Text}
    {r : Option Terminal × Nat} (hr : next t = some r) :
    ∃ c rest, t = c :: rest ∧ groups (group c) := by
  obtain ⟨k, n⟩ := r
  obtain ⟨c, rest, htake, hc⟩ := h.opens _ (h.sound hr).2
  exact ⟨c, rest ++ t.drop n, by rw [← List.cons_append, ← htake, List.take_append_drop], hc⟩

theorem Recognizes.orElse (h : Recognizes next L groups) (h' : Recognizes next' M groups)
    (hlonger : ∀ {t r r'}, next t = some r → next' t = some r' → r'.2 < r.2) :
    Recognizes (fun t => next t <|> next' t) (fun k l => L k l ∨ M k l) groups where
  sound {t k n} hn := by
    cases hr : next t with
    | some r =>
        rw [hr] at hn
        obtain rfl : r = (k, n) := Option.some.inj hn
        exact ⟨(h.sound hr).1, Or.inl (h.sound hr).2⟩
    | none =>
        rw [hr] at hn
        exact ⟨(h'.sound hn).1, Or.inr (h'.sound hn).2⟩
  longest {k l} hl rest := by
    rcases hl with hl | hl
    · obtain ⟨k', n, hn, hle, hkind⟩ := h.longest hl rest
      exact ⟨k', n, by rw [hn]; rfl, hle, hkind⟩
    · obtain ⟨k', n, hn, hle, hkind⟩ := h'.longest hl rest
      cases hr : next (l ++ rest) with
      | none => exact ⟨k', n, hn, hle, hkind⟩
      | some r =>
          have hlt : n < r.2 := hlonger hr hn
          exact ⟨r.1, r.2, rfl, by omega, fun heq => by omega⟩
  opens := h.opens.or h'.opens

theorem Recognizes.mono {groups' : Nat → Prop} (h : Recognizes next L groups)
    (himp : ∀ i, groups i → groups' i) : Recognizes next L groups' :=
  ⟨h.sound, h.longest, h.opens.mono fun _ hc => himp _ hc⟩

theorem Recognizes.congr (h : Recognizes next L groups) (hiff : ∀ k l, L k l ↔ M k l) :
    Recognizes next M groups where
  sound hn := ⟨(h.sound hn).1, (hiff _ _).mp (h.sound hn).2⟩
  longest hl := h.longest ((hiff _ _).mpr hl)
  opens _ hl := h.opens _ ((hiff _ _).mpr hl)

theorem Recognizes.or {i : Nat} (h : Recognizes next L (· = i))
    (h' : Recognizes next' M (i < ·)) :
    Recognizes (fun t => next t <|> next' t) (fun k l => L k l ∨ M k l) (i ≤ ·) := by
  refine (h.mono fun _ => Nat.le_of_eq ∘ Eq.symm).orElse (h'.mono fun _ => Nat.le_of_lt) ?_
  intro t r r' hr hr'
  obtain ⟨c, rest, rfl, hc⟩ := h.opens_of_eq_some hr
  obtain ⟨d, rest', heq, hd⟩ := h'.opens_of_eq_some hr'
  obtain ⟨rfl, _⟩ := List.cons.inj heq
  omega

end

theorem Finds.recognizes {m : Matcher} {L : Text → Prop} (h : Finds m L)
    (kind : Text → Option Terminal) {groups : Nat → Prop}
    (hopens : Opens L fun c => groups (group c)) :
    Recognizes (fun t => (m t).map fun n => (kind (t.take n), n)) (fun k l => L l ∧ k = kind l)
      groups where
  sound {t k n} hn := by
    obtain ⟨i, hi, heq⟩ := Option.map_eq_some_iff.mp hn
    obtain ⟨rfl, rfl⟩ := Prod.mk.inj heq
    exact ⟨(h.sound hi).1, (h.sound hi).2, rfl⟩
  longest {k l} hl rest := by
    obtain ⟨n, hn, hle⟩ := h.longest hl.1 rest
    refine ⟨_, n, by rw [hn, Option.map_some], hle, fun heq => ?_⟩
    rw [heq, List.take_left, hl.2]
  opens _ hl := hopens _ hl.1

/-- White space. -/
def IsSpace (t : Text) : Prop := t ≠ [] ∧ ∀ c ∈ t, isBlank c = true

def IsComment (t : Text) : Prop :=
  (∃ body, t = CodePoint.ofChar '/' :: CodePoint.ofChar '/' :: body ∧
    ∀ c ∈ body, c ≠ CodePoint.ofChar '\n') ∨
  ∃ rest, t = CodePoint.ofChar '/' :: CodePoint.ofChar '*' :: rest ∧ IsCommentRest rest

theorem opens_space : Opens IsSpace fun c => isBlank c = true := by
  rintro l ⟨hne, hall⟩
  obtain ⟨c, rest, rfl⟩ := List.exists_cons_of_ne_nil hne
  exact ⟨c, rest, rfl, hall c List.mem_cons_self⟩

theorem opens_comment : Opens IsComment fun c => c = CodePoint.ofChar '/' := by
  rintro l (⟨body, rfl, _⟩ | ⟨body, rfl, _⟩)
  · exact ⟨_, _, rfl, rfl⟩
  · exact ⟨_, _, rfl, rfl⟩

theorem finds_comment : Finds (fun t => lineComment t <|> blockComment t) IsComment := by
  refine finds_lineComment.orElse finds_blockComment fun {t n n'} hn hn' => ?_
  match t with
  | [] => cases hn
  | [c] => cases hn
  | c :: d :: rest =>
      rw [lineComment] at hn
      rw [blockComment] at hn'
      split at hn
      · rename_i hslash
        split at hn'
        · rename_i hstar
          simp only [Bool.and_eq_true, decide_eq_true_eq] at hslash hstar
          exact absurd (hslash.2.symm.trans hstar.2) (by decide)
        · cases hn'
      · cases hn

theorem recognizes_skipped :
    Recognizes (fun t => (blank t <|> lineComment t <|> blockComment t).map fun n => (none, n))
      (fun k l => (IsSpace l ∨ IsComment l) ∧ k = none) (· = 0) := by
  have hskipped := (finds_run1 isBlank).or finds_comment opens_space opens_comment (by
    rintro _ hblank rfl
    exact absurd hblank (by decide))
  refine hskipped.recognizes (fun _ => none) (Opens.or ?_ ?_)
  · exact opens_space.mono fun c hc => by simp [group, hc]
  · exact opens_comment.mono fun c hc => by simp [group, hc]

theorem isName_of_all {w : Text}
    (h : (w.head?.any isNameStart && w.all isNamePart) = true) : IsName w := by
  cases w with
  | nil => simp at h
  | cons c rest =>
      simp only [List.head?_cons, Option.any_some, List.all_cons, Bool.and_eq_true,
        List.all_eq_true] at h
      exact ⟨c, rest, rfl, h.1, h.2.2⟩

theorem isName_of_mem_words {k : Terminal} (hk : k ∈ Terminal.words) : IsName k.spelling := by
  have hwords : ∀ k ∈ Terminal.words,
      (k.spelling.head?.any isNameStart && k.spelling.all isNamePart) = true := by decide
  exact isName_of_all (hwords k hk)

theorem ofWord_spelling : ∀ k ∈ Terminal.words, Terminal.ofWord k.spelling = k := by decide

theorem ofWord_of_ne {t : Text} (h : ∀ k ∈ Terminal.words, k.spelling ≠ t) :
    Terminal.ofWord t = .name := by
  have hnone : (Terminal.words.find? fun k => k.spelling = t) = none := by
    rw [List.find?_eq_none]
    intro k hk
    simpa using h k hk
  rw [Terminal.ofWord, hnone]
  rfl

theorem isLexeme_name_iff {w : Text} :
    IsLexeme (some .name) w ↔ IsName w ∧ ∀ k ∈ Terminal.words, k.spelling ≠ w := by
  constructor
  · intro h
    cases h with
    | word hk => exact absurd hk (by decide)
    | name hname hword => exact ⟨hname, hword⟩
    | mark hk => exact absurd hk (by decide)
  · rintro ⟨hname, hword⟩
    exact .name hname hword

theorem isLexeme_ofWord {t : Text} (h : IsName t) : IsLexeme (some (Terminal.ofWord t)) t := by
  cases hfind : Terminal.words.find? fun k => k.spelling = t with
  | none =>
      have hne : ∀ k ∈ Terminal.words, k.spelling ≠ t := by
        intro k hk
        simpa using List.find?_eq_none.mp hfind k hk
      rw [ofWord_of_ne hne]
      exact .name h hne
  | some k =>
      have hk := List.mem_of_find?_eq_some hfind
      have hspelling : k.spelling = t := by simpa using List.find?_some hfind
      rw [← hspelling, ofWord_spelling k hk]
      exact .word hk

theorem opens_name : Opens IsName fun c => group c = 1 := by
  rintro l ⟨c, rest, rfl, hc, _⟩
  refine ⟨c, rest, rfl, ?_⟩
  have hother : (isBlank c || decide (c = CodePoint.ofChar '/')) = false := by
    rw [Bool.eq_false_iff]
    intro hblank
    simp only [isBlank, Bool.or_eq_true, decide_eq_true_eq] at hblank
    rcases hblank with ((((rfl | rfl) | hfeed) | rfl) | rfl) | rfl
    · exact absurd hc (by decide)
    · exact absurd hc (by decide)
    · obtain rfl : c = 0x0C := Fin.ext hfeed
      exact absurd hc (by decide)
    · exact absurd hc (by decide)
    · exact absurd hc (by decide)
    · exact absurd hc (by decide)
  simp [group, hother, hc]

theorem recognizes_name :
    Recognizes (fun t => (name t).map fun n => (some (Terminal.ofWord (t.take n)), n))
      (fun k l => IsName l ∧ k = some (Terminal.ofWord l)) (· = 1) :=
  finds_name.recognizes (fun t => some (Terminal.ofWord t)) opens_name

theorem recognizes_privateName :
    Recognizes (fun t => (privateName t).map fun n => (some .privateName, n))
      (fun k l => (∃ rest, l = CodePoint.ofChar '#' :: rest ∧ IsName rest) ∧ k = some .privateName)
      (· = 2) := by
  refine finds_privateName.recognizes (fun _ => some .privateName) ?_
  rintro l ⟨rest, rfl, _⟩
  exact ⟨_, rest, rfl, by decide⟩

theorem opens_quoted (quote : CodePoint) (multiline : Bool) :
    Opens (IsQuoted quote multiline) fun c => c = quote := by
  rintro l ⟨body, rfl, _⟩
  exact ⟨quote, _, rfl, rfl⟩

theorem recognizes_string :
    Recognizes (fun t => (string t).map fun n => (some .string, n))
      (fun k l => (IsQuoted doubleQuote false l ∨ IsQuoted singleQuote false l) ∧ k = some .string)
      (· = 3) := by
  have hdouble : Finds (quoted doubleQuote false) (IsQuoted doubleQuote false) :=
    finds_quoted (by decide)
  have hsingle : Finds (quoted singleQuote false) (IsQuoted singleQuote false) :=
    finds_quoted (by decide)
  have hstring := hdouble.or hsingle (opens_quoted _ _) (opens_quoted _ _) (by
    rintro _ rfl
    decide)
  refine hstring.recognizes (fun _ => some .string) (Opens.or ?_ ?_)
  · exact (opens_quoted _ _).mono fun c hc => by rw [hc]; decide
  · exact (opens_quoted _ _).mono fun c hc => by rw [hc]; decide

theorem recognizes_template :
    Recognizes (fun t => (template t).map fun n => (some .template, n))
      (fun k l => IsQuoted backquote true l ∧ k = some .template) (· = 4) :=
  (finds_quoted (by decide)).recognizes (fun _ => some .template)
    ((opens_quoted backquote true).mono fun c hc => by rw [hc]; decide)

theorem group_of_isDecimal {c : CodePoint} (h : isDecimal c = true) : group c = 5 := by
  have hval := val_of_isDecimal h
  have hne : ∀ d : CodePoint, (d.val < 0x30 ∨ 0x39 < d.val) → d.val < 0x660 → c ≠ d := by
    rintro d hlow hhigh rfl
    omega
  have hblank : isBlank c = false := by
    have hfeed : c.val ≠ 0x0C := by omega
    simp [isBlank, hne (CodePoint.ofChar ' ') (by decide) (by decide),
      hne (CodePoint.ofChar '\t') (by decide) (by decide), hfeed,
      hne (CodePoint.ofChar '\r') (by decide) (by decide),
      hne (CodePoint.ofChar '\n') (by decide) (by decide)]
  have hname : isNameStart c = false := by
    have hletter : c.isLetter = false := by
      rw [Bool.eq_false_iff]
      intro hletter
      simp only [CodePoint.isLetter, CodePoint.isUpper, CodePoint.isLower, Bool.or_eq_true,
        Bool.and_eq_true, decide_eq_true_eq] at hletter
      omega
    simp [isNameStart, hletter, hne (CodePoint.ofChar '_') (by decide) (by decide),
      hne (CodePoint.ofChar '$') (by decide) (by decide)]
  simp [group, hblank, hname, hne (CodePoint.ofChar '/') (by decide) (by decide),
    hne (CodePoint.ofChar '#') (by decide) (by decide), hne doubleQuote (by decide) (by decide),
    hne singleQuote (by decide) (by decide), hne backquote (by decide) (by decide)]

theorem recognizes_number :
    Recognizes (fun t => (number t).map fun n => (some .number, n))
      (fun k l => IsNumber l ∧ k = some .number) (· = 5) := by
  refine finds_number.recognizes (fun _ => some .number) fun l hl => ?_
  cases hl with
  | radix _ _ _ _ => exact ⟨_, _, rfl, by decide⟩
  | decimal hwhole _ _ _ =>
      obtain ⟨c, rest, rfl, hc, _⟩ := hwhole
      exact ⟨c, _, rfl, group_of_isDecimal hc⟩
  | point _ _ _ => exact ⟨_, _, rfl, by decide⟩

theorem pairwise_marks : Terminal.marks.Pairwise fun a b => ¬ a.spelling <+: b.spelling := by
  decide

theorem exists_spelling_cons {k : Terminal} (hk : k ∈ Terminal.marks) :
    ∃ c rest, k.spelling = c :: rest ∧ group c = 5 := by
  have hheads : ∀ k ∈ Terminal.marks, (k.spelling.head?.any fun c => group c == 5) = true := by
    decide
  have hhead := hheads k hk
  cases hspelling : k.spelling with
  | nil => simp [hspelling] at hhead
  | cons c rest => exact ⟨c, rest, rfl, by simpa [hspelling] using hhead⟩

theorem mark?_eq_some {t : Text} {k : Terminal} {n : Nat} (h : mark? t = some (k, n)) :
    k ∈ Terminal.marks ∧ k.spelling <+: t ∧ n = k.spelling.length := by
  obtain ⟨mark, hfind, heq⟩ := Option.map_eq_some_iff.mp h
  obtain ⟨rfl, rfl⟩ := Prod.mk.inj heq
  refine ⟨List.mem_of_find?_eq_some hfind, ?_, rfl⟩
  simpa [Text.startsWith] using List.find?_some hfind

theorem recognizes_mark :
    Recognizes (fun t => (mark? t).map fun (kind, n) => (some kind, n))
      (fun k l => ∃ mark ∈ Terminal.marks, k = some mark ∧ l = mark.spelling) (· = 5) where
  sound {t k n} hn := by
    obtain ⟨⟨mark, i⟩, hi, heq⟩ := Option.map_eq_some_iff.mp hn
    obtain ⟨rfl, rfl⟩ := Prod.mk.inj heq
    obtain ⟨hmem, hpre, rfl⟩ := mark?_eq_some hi
    exact ⟨hpre.length_le, mark, hmem, rfl, (List.prefix_iff_eq_take.mp hpre).symm⟩
  longest {k l} hl rest := by
    obtain ⟨mark, hmem, rfl, rfl⟩ := hl
    have hstarts : Text.startsWith (mark.spelling ++ rest) mark.spelling = true :=
      List.isPrefixOf_iff_prefix.mpr (List.prefix_append _ _)
    cases hfind : Terminal.marks.find? fun m =>
        Text.startsWith (mark.spelling ++ rest) m.spelling with
    | none => exact absurd hstarts (List.find?_eq_none.mp hfind mark hmem)
    | some found =>
        refine ⟨some found, found.spelling.length, by rw [mark?, hfind]; rfl, ?_⟩
        obtain ⟨hfound, before, after, hsplit, hbefore⟩ := List.find?_eq_some_iff_append.mp hfind
        -- the mark is the one that was found or stands after it, and then goes no further
        have hcases : mark = found ∨ ¬ found.spelling <+: mark.spelling := by
          rw [hsplit, List.mem_append, List.mem_cons] at hmem
          rcases hmem with hmem | rfl | hmem
          · have hnot := hbefore mark hmem
            rw [hstarts] at hnot
            cases hnot
          · exact Or.inl rfl
          · have hpairs := pairwise_marks
            rw [hsplit] at hpairs
            exact Or.inr (List.rel_of_pairwise_cons (List.pairwise_append.mp hpairs).2.1 hmem)
        rcases hcases with rfl | hnot
        · exact ⟨Nat.le_refl _, fun _ => rfl⟩
        · have hlt : mark.spelling.length < found.spelling.length := by
            apply Nat.lt_of_not_le
            intro hle
            exact hnot (List.prefix_of_prefix_length_le (List.isPrefixOf_iff_prefix.mp hfound)
              (List.prefix_append _ _) hle)
          exact ⟨Nat.le_of_lt hlt, fun heq => absurd heq (Nat.ne_of_gt hlt)⟩
  opens {k} l hl := by
    obtain ⟨mark, hmem, _, rfl⟩ := hl
    exact exists_spelling_cons hmem

/-- A number that opens with a point goes on with a digit, so no mark is as long. -/
theorem mark_lt_number {t : Text} {n n' : Nat} {k : Terminal} (hn : number t = some n)
    (hmark : mark? t = some (k, n')) : n' < n := by
  obtain ⟨hmem, ⟨after, rfl⟩, rfl⟩ := mark?_eq_some hmark
  have hdecimals : ∀ k ∈ Terminal.marks,
      (k.spelling.all fun c => (c.val < 0x30 || 0x39 < c.val) && c.val < 0x660) = true := by
    decide
  have hpoints : ∀ k ∈ Terminal.marks, k.spelling.head? = some (CodePoint.ofChar '.') →
      k.spelling = [CodePoint.ofChar '.'] ∨ k.spelling[1]? = some (CodePoint.ofChar '.') := by
    decide
  obtain ⟨c, rest, hspelling, _⟩ := exists_spelling_cons hmem
  have hdecimal : ∀ d, isDecimal d = true → c ≠ d := by
    rintro d hd rfl
    have hval := List.all_eq_true.mp (hdecimals k hmem) c
      (by rw [hspelling]; exact List.mem_cons_self)
    simp only [Bool.and_eq_true, Bool.or_eq_true, decide_eq_true_eq] at hval
    have := val_of_isDecimal hd
    omega
  obtain ⟨hle, hnumber⟩ := finds_number.sound hn
  rw [hspelling] at hnumber ⊢
  -- the only number that opens with a mark is one that opens with a point
  obtain ⟨d, hc, hd, hsecond, hlt⟩ : ∃ d, c = CodePoint.ofChar '.' ∧ isDecimal d = true ∧
      (rest ++ after)[0]? = some d ∧ 1 < n := by
    have hpos : n ≠ 0 := by
      rintro rfl
      obtain ⟨_, _, hnil, _⟩ := (recognizes_number.opens _ ⟨hnumber, rfl⟩)
      cases hnil
    obtain ⟨i, rfl⟩ := Nat.exists_eq_succ_of_ne_zero hpos
    generalize hl : (c :: rest ++ after).take (i + 1) = l at hnumber
    rw [List.cons_append, List.take_succ_cons] at hl
    cases hnumber with
    | radix _ _ _ _ => exact absurd (List.cons.inj hl).1 (hdecimal _ (by decide))
    | decimal hwhole _ _ _ =>
        obtain ⟨e, parts, rfl, he, _⟩ := hwhole
        exact absurd (List.cons.inj hl).1 (hdecimal e he)
    | point hdigits _ _ =>
        obtain ⟨e, parts, rfl, he, _⟩ := hdigits
        obtain ⟨hc, htake⟩ := List.cons.inj hl
        have hi : i ≠ 0 := by
          rintro rfl
          cases htake
        refine ⟨e, hc, he, ?_, by omega⟩
        rw [← List.getElem?_take_of_lt (Nat.pos_of_ne_zero hi), htake]
        rfl
  rcases hpoints k hmem (by rw [hspelling, hc]; rfl) with hone | hmark
  · rw [hspelling] at hone
    rwa [hone]
  · rw [hspelling] at hmark
    cases rest with
    | nil => cases hmark
    | cons e more =>
        obtain rfl : e = d := Option.some.inj hsecond
        obtain rfl : e = CodePoint.ofChar '.' := Option.some.inj hmark
        exact absurd hd (by decide)

/-- The lexer gives the longest lexeme that opens a text, with its kind. -/
theorem recognizes_next? : Recognizes next? IsLexeme (0 ≤ ·) := by
  have hliteral := recognizes_number.orElse recognizes_mark (by
    rintro t ⟨_, n⟩ ⟨_, n'⟩ hn hn'
    obtain ⟨i, hi, heq⟩ := Option.map_eq_some_iff.mp hn
    obtain ⟨⟨k, j⟩, hj, heq'⟩ := Option.map_eq_some_iff.mp hn'
    obtain ⟨_, rfl⟩ := Prod.mk.inj heq
    obtain ⟨_, rfl⟩ := Prod.mk.inj heq'
    exact mark_lt_number hi hj)
  have hall := recognizes_skipped.or <| recognizes_name.or <| recognizes_privateName.or <|
    recognizes_string.or <| recognizes_template.or <| hliteral.mono fun i hi => by omega
  apply hall.congr
  intro k l
  constructor
  · rintro (⟨(⟨hne, hblank⟩ | ⟨body, rfl, hbody⟩ | ⟨rest, rfl, hrest⟩), rfl⟩ | ⟨hname, rfl⟩ |
      ⟨⟨rest, rfl, hname⟩, rfl⟩ | ⟨(hquoted | hquoted), rfl⟩ | ⟨hquoted, rfl⟩ | ⟨hnumber, rfl⟩ |
      ⟨mark, hmark, rfl, rfl⟩)
    · exact .blank hne hblank
    · exact .lineComment hbody
    · exact .blockComment hrest
    · exact isLexeme_ofWord hname
    · exact .privateName hname
    · exact .string (Or.inl rfl) hquoted
    · exact .string (Or.inr rfl) hquoted
    · exact .template hquoted
    · exact .number hnumber
    · exact .mark hmark
  · intro hl
    cases hl with
    | blank hne hblank => exact Or.inl ⟨Or.inl ⟨hne, hblank⟩, rfl⟩
    | lineComment hbody => exact Or.inl ⟨Or.inr (Or.inl ⟨_, rfl, hbody⟩), rfl⟩
    | blockComment hrest => exact Or.inl ⟨Or.inr (Or.inr ⟨_, rfl, hrest⟩), rfl⟩
    | @word k hk =>
        exact Or.inr (Or.inl ⟨isName_of_mem_words hk, by rw [ofWord_spelling k hk]⟩)
    | name hname hword => exact Or.inr (Or.inl ⟨hname, by rw [ofWord_of_ne hword]⟩)
    | privateName hname => exact Or.inr (Or.inr (Or.inl ⟨⟨_, rfl, hname⟩, rfl⟩))
    | string hquote hquoted =>
        refine Or.inr (Or.inr (Or.inr (Or.inl ⟨?_, rfl⟩)))
        rcases hquote with rfl | rfl
        · exact Or.inl hquoted
        · exact Or.inr hquoted
    | template hquoted => exact Or.inr (Or.inr (Or.inr (Or.inr (Or.inl ⟨hquoted, rfl⟩))))
    | number hnumber =>
        exact Or.inr (Or.inr (Or.inr (Or.inr (Or.inr (Or.inl ⟨hnumber, rfl⟩)))))
    | mark hmark =>
        exact Or.inr (Or.inr (Or.inr (Or.inr (Or.inr (Or.inr ⟨_, hmark, rfl, rfl⟩)))))

theorem isNext_of_next? {t : Text} {k : Option Terminal} {n : Nat} (h : next? t = some (k, n)) :
    n ≤ t.length ∧ 0 < n ∧ IsNext k (t.take n) (t.drop n) := by
  obtain ⟨hle, hlexeme⟩ := recognizes_next?.sound h
  have hpos : 0 < n := by
    obtain ⟨c, rest, htake, _⟩ := recognizes_next?.opens _ hlexeme
    apply Nat.pos_of_ne_zero
    rintro rfl
    cases htake
  refine ⟨hle, hpos, hlexeme, fun other l hl hpre => ?_⟩
  rw [List.take_append_drop] at hpre
  obtain ⟨rest, rfl⟩ := hpre
  obtain ⟨_, m, hm, hlength, _⟩ := recognizes_next?.longest hl rest
  rw [h] at hm
  obtain ⟨_, rfl⟩ := Prod.mk.inj (Option.some.inj hm)
  rw [List.length_take, Nat.min_eq_left hle]
  exact hlength

theorem next?_of_isNext {k : Option Terminal} {lexeme rest : Text} (h : IsNext k lexeme rest) :
    next? (lexeme ++ rest) = some (k, lexeme.length) := by
  obtain ⟨k', n, hn, hlength, hkind⟩ := recognizes_next?.longest h.isLexeme rest
  obtain ⟨hle, hlexeme⟩ := recognizes_next?.sound hn
  have hsame : n = lexeme.length := by
    have := h.longest k' _ hlexeme (List.take_prefix n _)
    rw [List.length_take, Nat.min_eq_left hle] at this
    omega
  rw [hn, hkind hsame, hsame]

theorem next?_eq_none_iff {t : Text} : next? t = none ↔ NoneOpens t := by
  constructor
  · rintro hnone kind lexeme hlexeme ⟨rest, rfl⟩
    obtain ⟨_, _, hsome, _⟩ := recognizes_next?.longest hlexeme rest
    rw [hnone] at hsome
    cases hsome
  · intro hnone
    cases hnext : next? t with
    | none => rfl
    | some found =>
        obtain ⟨_, _, hisNext⟩ := isNext_of_next? hnext
        exact absurd (List.take_prefix _ _) (hnone _ _ hisNext.isLexeme)

theorem exists_isNext_or_noneOpens (t : Text) :
    (∃ kind lexeme rest, t = lexeme ++ rest ∧ IsNext kind lexeme rest) ∨ NoneOpens t := by
  cases hnext : next? t with
  | none => exact Or.inr (next?_eq_none_iff.mp hnext)
  | some found =>
      obtain ⟨_, _, hisNext⟩ := isNext_of_next? hnext
      exact Or.inl ⟨_, _, _, (List.take_append_drop _ _).symm, hisNext⟩

end Lexeme

open Lexeme

theorem IsNext.ne_nil {k : Option Terminal} {lexeme rest : Text} (h : IsNext k lexeme rest) :
    lexeme ≠ [] := by
  obtain ⟨c, more, rfl, _⟩ := recognizes_next?.opens _ h.isLexeme
  exact List.cons_ne_nil c more

theorem IsNext.not_noneOpens {k : Option Terminal} {lexeme rest : Text}
    (h : IsNext k lexeme rest) : ¬ NoneOpens (lexeme ++ rest) := fun hnone =>
  hnone k lexeme h.isLexeme (List.prefix_append lexeme rest)

theorem Tokens.scan_of_isNext {k : Option Terminal} {lexeme rest : Text} (h : IsNext k lexeme rest)
    (fuel : Nat) (loc : Location) :
    Tokens.scan (fuel + 1) loc (lexeme ++ rest) =
      match k with
      | none => Tokens.scan fuel (loc.after lexeme) rest
      | some kind => { Tokens.scan fuel (loc.after lexeme) rest with
          tokens := ⟨kind, lexeme, loc⟩ :: (Tokens.scan fuel (loc.after lexeme) rest).tokens } := by
  obtain ⟨c, more, rfl⟩ := List.exists_cons_of_ne_nil h.ne_nil
  have hnext := next?_of_isNext h
  rw [List.cons_append] at hnext ⊢
  rw [Tokens.scan.eq_def]
  dsimp only
  rw [hnext]
  have htake : (c :: (more ++ rest)).take (c :: more).length = c :: more := List.take_left
  have hdrop : (c :: (more ++ rest)).drop (c :: more).length = rest := List.drop_left
  dsimp only
  rw [htake, hdrop]
  cases k with
  | none => rfl
  | some kind => rfl

theorem Tokens.scan_of_noneOpens {t : Text} (h : NoneOpens t) (fuel : Nat) (loc : Location) :
    Tokens.scan fuel loc t = ⟨[], t.head?.map fun c => (loc, c)⟩ := by
  cases t with
  | nil => cases fuel <;> rfl
  | cons c rest =>
      cases fuel with
      | zero => rfl
      | succ fuel =>
          rw [Tokens.scan.eq_def]
          dsimp only
          rw [next?_eq_none_iff.mpr h]
          rfl

theorem Lexes.scan {loc : Location} {t : Text} {tokens : List Token} (h : Lexes loc t tokens)
    {fuel : Nat} (hfuel : t.length ≤ fuel) : Tokens.scan fuel loc t = ⟨tokens, none⟩ := by
  induction h generalizing fuel with
  | nil loc =>
      cases fuel with
      | zero => rfl
      | succ fuel => rfl
  | @skip loc lexeme rest tokens hnext _ ih =>
      have hpos := List.length_pos_iff.mpr hnext.ne_nil
      rw [List.length_append] at hfuel
      obtain ⟨i, rfl⟩ := Nat.exists_eq_succ_of_ne_zero (n := fuel) (by omega)
      rw [Tokens.scan_of_isNext hnext, ih (by omega)]
  | @token loc kind lexeme rest tokens hnext _ ih =>
      have hpos := List.length_pos_iff.mpr hnext.ne_nil
      rw [List.length_append] at hfuel
      obtain ⟨i, rfl⟩ := Nat.exists_eq_succ_of_ne_zero (n := fuel) (by omega)
      rw [Tokens.scan_of_isNext hnext, ih (by omega)]

theorem lexes_of_scan {fuel : Nat} {loc : Location} {t : Text}
    (hstop : (Tokens.scan fuel loc t).stop = none) :
    Lexes loc t (Tokens.scan fuel loc t).tokens := by
  induction fuel generalizing loc t with
  | zero =>
      cases t with
      | nil => exact .nil loc
      | cons c rest => cases hstop
  | succ fuel ih =>
      rcases exists_isNext_or_noneOpens t with ⟨kind, lexeme, rest, rfl, hnext⟩ | hnone
      · rw [Tokens.scan_of_isNext hnext] at hstop ⊢
        cases kind with
        | none => exact .skip hnext (ih hstop)
        | some kind => exact .token hnext (ih hstop)
      · rw [Tokens.scan_of_noneOpens hnone] at hstop ⊢
        cases t with
        | nil => exact .nil loc
        | cons c rest => cases hstop

/-- A source text is scanned to its end exactly when it is made of lexemes, and the tokens are then
those of the lexemes. -/
theorem ofText_eq_iff_lexes {source : Text} {tokens : List Token} :
    Tokens.ofText source = ⟨tokens, none⟩ ↔ Lexes Location.origin source tokens := by
  constructor
  · intro h
    have hlexes := @lexes_of_scan source.length Location.origin source (by rw [← Tokens.ofText, h])
    rwa [← Tokens.ofText, h] at hlexes
  · intro h
    exact h.scan (Nat.le_refl _)

end HostBindings.Source

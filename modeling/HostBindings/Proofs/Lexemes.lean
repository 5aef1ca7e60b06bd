import HostBindings.Proofs.IdentifierLaws
import HostBindings.Source.Token
import Mathlib.Data.List.Infix

/-!
The lexical grammar, and what the matchers find. A lexeme is described by the class it belongs to,
without saying how it is found. A text is cut into lexemes from its start on, each as long as the
classes allow; what is white space or a comment is dropped. Every matcher finds the longest lexeme
of its class, and the classes differ in what they open with, so the first matcher that fits gives
the longest lexeme of all.
-/

namespace HostBindings.Source

open Text.DecimalDigit (isDecimal)

namespace Lexeme

/-- One code point of a class and then any number of another class. -/
def IsHeaded (isHead isPart : CodePoint → Bool) (t : Text) : Prop :=
  ∃ c rest, t = c :: rest ∧ isHead c = true ∧ ∀ d ∈ rest, isPart d = true

def IsName : Text → Prop := IsHeaded isNameStart isNamePart

def IsDigits : Text → Prop := IsHeaded isDecimal isDecimalPart

/-- What may stand between quotes. -/
inductive IsQuotedBody (quote : CodePoint) (multiline : Bool) : Text → Prop
  | nil : IsQuotedBody quote multiline []
  | plain {c : CodePoint} {rest : Text} (hquote : c ≠ quote)
      (hbackslash : c ≠ CodePoint.ofChar '\\')
      (hline : multiline = true ∨ c ≠ CodePoint.ofChar '\n')
      (hrest : IsQuotedBody quote multiline rest) : IsQuotedBody quote multiline (c :: rest)
  | escaped {c : CodePoint} {rest : Text} (hline : c ≠ CodePoint.ofChar '\n')
      (hrest : IsQuotedBody quote multiline rest) :
      IsQuotedBody quote multiline (CodePoint.ofChar '\\' :: c :: rest)

def IsQuoted (quote : CodePoint) (multiline : Bool) (t : Text) : Prop :=
  ∃ body, t = quote :: (body ++ [quote]) ∧ IsQuotedBody quote multiline body

/-- The end of a block comment. -/
def commentMark : Text := [CodePoint.ofChar '*', CodePoint.ofChar '/']

/-- The rest of a block comment up to its first end. -/
def IsCommentRest (t : Text) : Prop :=
  ∃ body, t = body ++ commentMark ∧ ¬ commentMark <:+: body ++ [CodePoint.ofChar '*']

/-- The big-integer mark, or nothing. -/
def IsBigMark (t : Text) : Prop := t = [] ∨ t = [CodePoint.ofChar 'n']

/-- A point and any digits, or nothing. -/
def IsFraction (t : Text) : Prop :=
  t = [] ∨ ∃ digits, t = CodePoint.ofChar '.' :: digits ∧ ∀ c ∈ digits, isDecimalPart c = true

def IsSign (t : Text) : Prop :=
  t = [] ∨ t = [CodePoint.ofChar '+'] ∨ t = [CodePoint.ofChar '-']

/-- An exponent, or nothing. -/
def IsExponent (t : Text) : Prop :=
  t = [] ∨ ∃ e sign digits, t = e :: (sign ++ digits) ∧
    (e = CodePoint.ofChar 'e' ∨ e = CodePoint.ofChar 'E') ∧ IsSign sign ∧ digits ≠ [] ∧
    ∀ c ∈ digits, isDecimal c = true

/-- The letters of a radix and its digits. -/
inductive IsRadix : CodePoint → (CodePoint → Bool) → Prop
  | hex {letter : CodePoint} (h : letter = CodePoint.ofChar 'x' ∨ letter = CodePoint.ofChar 'X') :
      IsRadix letter isHexPart
  | binary {letter : CodePoint}
      (h : letter = CodePoint.ofChar 'b' ∨ letter = CodePoint.ofChar 'B') :
      IsRadix letter isBinaryPart
  | octal {letter : CodePoint} (h : letter = CodePoint.ofChar 'o' ∨ letter = CodePoint.ofChar 'O') :
      IsRadix letter isOctalPart

inductive IsNumber : Text → Prop
  | radix {letter : CodePoint} {isPart : CodePoint → Bool} {digits big : Text}
      (hletter : IsRadix letter isPart) (hne : digits ≠ [])
      (hdigits : ∀ c ∈ digits, isPart c = true)
      (hbig : IsBigMark big) : IsNumber (CodePoint.ofChar '0' :: letter :: (digits ++ big))
  | decimal {whole fraction exponent big : Text} (hwhole : IsDigits whole)
      (hfraction : IsFraction fraction) (hexponent : IsExponent exponent) (hbig : IsBigMark big) :
      IsNumber (whole ++ fraction ++ exponent ++ big)
  | point {digits exponent big : Text} (hdigits : IsDigits digits) (hexponent : IsExponent exponent)
      (hbig : IsBigMark big) : IsNumber (CodePoint.ofChar '.' :: digits ++ exponent ++ big)

end Lexeme

open Lexeme

/-- The lexemes with their kinds; those without a kind stand between tokens. A word that is a
terminal of its own is not a name. -/
inductive IsLexeme : Option Terminal → Text → Prop
  | blank {t : Text} (hne : t ≠ []) (h : ∀ c ∈ t, isBlank c = true) : IsLexeme none t
  | lineComment {body : Text} (h : ∀ c ∈ body, c ≠ CodePoint.ofChar '\n') :
      IsLexeme none (CodePoint.ofChar '/' :: CodePoint.ofChar '/' :: body)
  | blockComment {rest : Text} (h : IsCommentRest rest) :
      IsLexeme none (CodePoint.ofChar '/' :: CodePoint.ofChar '*' :: rest)
  | word {k : Terminal} (h : k ∈ Terminal.words) : IsLexeme (some k) k.spelling
  | name {t : Text} (h : IsName t) (hword : ∀ k ∈ Terminal.words, k.spelling ≠ t) :
      IsLexeme (some .name) t
  | privateName {t : Text} (h : IsName t) : IsLexeme (some .privateName) (CodePoint.ofChar '#' :: t)
  | string {quote : CodePoint} {t : Text} (hquote : quote = doubleQuote ∨ quote = singleQuote)
      (h : IsQuoted quote false t) : IsLexeme (some .string) t
  | template {t : Text} (h : IsQuoted backquote true t) : IsLexeme (some .template) t
  | number {t : Text} (h : IsNumber t) : IsLexeme (some .number) t
  | mark {k : Terminal} (h : k ∈ Terminal.marks) : IsLexeme (some k) k.spelling

/-- A lexeme is the longest one that opens a text. -/
structure IsNext (kind : Option Terminal) (lexeme rest : Text) : Prop where
  isLexeme : IsLexeme kind lexeme
  longest : ∀ other l, IsLexeme other l → l <+: lexeme ++ rest → l.length ≤ lexeme.length

/-- No lexeme opens a text. -/
def NoneOpens (t : Text) : Prop := ∀ kind lexeme, IsLexeme kind lexeme → ¬ lexeme <+: t

/-- The tokens of a text that is made of lexemes only, from a place on. -/
inductive Lexes : Location → Text → List Token → Prop
  | nil (loc : Location) : Lexes loc [] []
  | skip {loc : Location} {lexeme rest : Text} {tokens : List Token}
      (hnext : IsNext none lexeme rest)
      (hrest : Lexes (loc.after lexeme) rest tokens) : Lexes loc (lexeme ++ rest) tokens
  | token {loc : Location} {kind : Terminal} {lexeme rest : Text} {tokens : List Token}
      (hnext : IsNext (some kind) lexeme rest) (hrest : Lexes (loc.after lexeme) rest tokens) :
      Lexes loc (lexeme ++ rest) (⟨kind, lexeme, loc⟩ :: tokens)

namespace Lexeme

/-- A matcher gives the longest beginning of a text that is in a class. -/
structure Finds (m : Matcher) (L : Text → Prop) : Prop where
  sound : ∀ {t : Text} {n : Nat}, m t = some n → n ≤ t.length ∧ L (t.take n)
  longest : ∀ {l : Text}, L l → ∀ rest, ∃ n, m (l ++ rest) = some n ∧ l.length ≤ n

/-- The same for a matcher that may take nothing. -/
structure Takes (m : Text → Nat) (L : Text → Prop) : Prop where
  sound : ∀ t : Text, m t ≤ t.length ∧ L (t.take (m t))
  longest : ∀ {l : Text}, L l → ∀ rest, l.length ≤ m (l ++ rest)

section

variable {isIn : CodePoint → Bool} {c : CodePoint} {l rest t : Text}

theorem take_run (isIn : CodePoint → Bool) (t : Text) : t.take (run isIn t) = t.takeWhile isIn :=
  (List.prefix_iff_eq_take.mp (List.takeWhile_prefix isIn)).symm

theorem run_le_length (isIn : CodePoint → Bool) (t : Text) : run isIn t ≤ t.length :=
  (List.takeWhile_prefix isIn).length_le

theorem run_append (h : ∀ c ∈ l, isIn c = true) (rest : Text) :
    run isIn (l ++ rest) = l.length + run isIn rest := by
  rw [run, List.takeWhile_append_of_pos h, List.length_append]
  rfl

theorem run_cons_of_neg (h : isIn c = false) : run isIn (c :: rest) = 0 := by
  rw [run, List.takeWhile_cons_of_neg (by simp [h]), List.length_nil]

theorem takes_run (isIn : CodePoint → Bool) : Takes (run isIn) fun t => ∀ c ∈ t, isIn c = true where
  sound t := by
    refine ⟨run_le_length isIn t, fun c hc => ?_⟩
    rw [take_run] at hc
    exact List.all_eq_true.mp List.all_takeWhile c hc
  longest {l} h rest := by
    rw [run_append h]
    exact Nat.le_add_right _ _

theorem finds_run1 (isIn : CodePoint → Bool) :
    Finds (run1 isIn) fun t => t ≠ [] ∧ ∀ c ∈ t, isIn c = true where
  sound {t n} h := by
    obtain ⟨hne, rfl⟩ : run isIn t ≠ 0 ∧ run isIn t = n := by
      rw [run1] at h
      split at h
      · cases h
      · rename_i hzero
        exact ⟨hzero, Option.some.inj h⟩
    obtain ⟨hle, hall⟩ := (takes_run isIn).sound t
    refine ⟨hle, fun hnil => hne ?_, hall⟩
    rcases List.take_eq_nil_iff.mp hnil with hzero | rfl
    · exact hzero
    · rfl
  longest {l} h rest := by
    refine ⟨run isIn (l ++ rest), ?_, (takes_run isIn).longest h.2 rest⟩
    have hpos : 0 < l.length := List.length_pos_iff.mpr h.1
    have hle := (takes_run isIn).longest h.2 rest
    rw [run1]
    split
    · omega
    · rfl

theorem finds_headed {m : Matcher} {isHead isPart : CodePoint → Bool} (hnil : m [] = none)
    (hcons : ∀ c rest, m (c :: rest) = if isHead c then some (1 + run isPart rest) else none) :
    Finds m (IsHeaded isHead isPart) where
  sound {t n} h := by
    cases t with
    | nil =>
        rw [hnil] at h
        cases h
    | cons c rest =>
        rw [hcons] at h
        split at h
        · rename_i hhead
          obtain rfl := Option.some.inj h
          obtain ⟨hle, hall⟩ := (takes_run isPart).sound rest
          refine ⟨by rw [List.length_cons]; omega, c, rest.take (run isPart rest), ?_, hhead, hall⟩
          rw [Nat.add_comm, List.take_succ_cons]
        · cases h
  longest {l} h rest := by
    obtain ⟨c, parts, rfl, hhead, hparts⟩ := h
    refine ⟨1 + run isPart (parts ++ rest), by rw [List.cons_append, hcons, if_pos hhead], ?_⟩
    have := (takes_run isPart).longest hparts rest
    rw [List.length_cons]
    omega

theorem finds_after {m after : Matcher} {L : Text → Prop} {x : CodePoint} (hafter : Finds after L)
    (hnil : m [] = none)
    (hcons : ∀ c rest, m (c :: rest) = if c = x then (after rest).map (· + 1) else none) :
    Finds m fun t => ∃ rest, t = x :: rest ∧ L rest where
  sound {t n} h := by
    cases t with
    | nil =>
        rw [hnil] at h
        cases h
    | cons c rest =>
        rw [hcons] at h
        split at h
        · rename_i hc
          obtain ⟨k, hk, rfl⟩ := Option.map_eq_some_iff.mp h
          obtain ⟨hle, hL⟩ := hafter.sound hk
          exact ⟨Nat.succ_le_succ hle, rest.take k, by rw [List.take_succ_cons, hc], hL⟩
        · cases h
  longest {l} h rest := by
    obtain ⟨body, rfl, hbody⟩ := h
    obtain ⟨n, hn, hle⟩ := hafter.longest hbody rest
    refine ⟨n + 1, by rw [List.cons_append, hcons, if_pos rfl, hn]; rfl, ?_⟩
    rw [List.length_cons]
    omega

theorem finds_afterTwo {m after : Matcher} {L : Text → Prop} (x : CodePoint)
    (isSecond : CodePoint → Bool) (hafter : Finds after L) (hnil : m [] = none)
    (hone : ∀ c, m [c] = none)
    (hcons : ∀ c d rest, m (c :: d :: rest) =
      if c = x && isSecond d then (after rest).map (· + 2) else none) :
    Finds m fun t => ∃ d rest, t = x :: d :: rest ∧ isSecond d = true ∧ L rest where
  sound {t n} h := by
    match t with
    | [] =>
        rw [hnil] at h
        cases h
    | [c] =>
        rw [hone] at h
        cases h
    | c :: d :: rest =>
        rw [hcons] at h
        split at h
        · rename_i hboth
          simp only [Bool.and_eq_true, decide_eq_true_eq] at hboth
          obtain ⟨k, hk, rfl⟩ := Option.map_eq_some_iff.mp h
          obtain ⟨hle, hL⟩ := hafter.sound hk
          refine ⟨Nat.succ_le_succ (Nat.succ_le_succ hle), d, rest.take k, ?_, hboth.2, hL⟩
          rw [List.take_succ_cons, List.take_succ_cons, hboth.1]
        · cases h
  longest {l} h rest := by
    obtain ⟨d, body, rfl, hd, hbody⟩ := h
    obtain ⟨n, hn, hle⟩ := hafter.longest hbody rest
    refine ⟨n + 2, ?_, ?_⟩
    · rw [List.cons_append, List.cons_append, hcons, hn]
      simp [hd]
    · rw [List.length_cons, List.length_cons]
      omega

/-- A lexeme of one class and then of another. What belongs to the second class does not let the
first lexeme go on. -/
theorem Finds.followedBy {first : Matcher} {second : Text → Nat} {L M : Text → Prop}
    (hfirst : Finds first L) (hsecond : Takes second M)
    (hstops : ∀ {l : Text}, L l → ∀ {k : Text}, M k → k ≠ [] → ∀ rest,
      first (l ++ (k ++ rest)) = some l.length) :
    Finds (followedBy first second) fun t => ∃ l k, t = l ++ k ∧ L l ∧ M k where
  sound {t n} h := by
    obtain ⟨i, hi, rfl⟩ := Option.map_eq_some_iff.mp h
    obtain ⟨hle, hL⟩ := hfirst.sound hi
    obtain ⟨hle', hM⟩ := hsecond.sound (t.drop i)
    rw [List.length_drop] at hle'
    exact ⟨by omega, _, _, List.take_add, hL, hM⟩
  longest {t} h rest := by
    obtain ⟨l, k, rfl, hl, hk⟩ := h
    rw [List.append_assoc, List.length_append]
    rcases eq_or_ne k [] with rfl | hne
    · obtain ⟨n, hn, hle⟩ := hfirst.longest hl ([] ++ rest)
      exact ⟨_, by rw [Lexeme.followedBy, hn, Option.map_some],
        by simpa using Nat.le_add_right_of_le hle⟩
    · refine ⟨_, by rw [Lexeme.followedBy, hstops hl hk hne rest, Option.map_some], ?_⟩
      rw [List.drop_left]
      exact Nat.add_le_add_left (hsecond.longest hk rest) _

theorem Finds.orElse {first second : Matcher} {L M : Text → Prop} (hfirst : Finds first L)
    (hsecond : Finds second M)
    (hlonger : ∀ {t n n'}, first t = some n → second t = some n' → n' ≤ n) :
    Finds (fun t => first t <|> second t) fun t => L t ∨ M t where
  sound {t n} h := by
    cases hn : first t with
    | some i =>
        rw [hn] at h
        obtain rfl : i = n := Option.some.inj h
        exact ⟨(hfirst.sound hn).1, Or.inl (hfirst.sound hn).2⟩
    | none =>
        rw [hn] at h
        exact ⟨(hsecond.sound h).1, Or.inr (hsecond.sound h).2⟩
  longest {l} h rest := by
    rcases h with h | h
    · obtain ⟨n, hn, hle⟩ := hfirst.longest h rest
      exact ⟨n, by rw [hn]; rfl, hle⟩
    · obtain ⟨n, hn, hle⟩ := hsecond.longest h rest
      cases hi : first (l ++ rest) with
      | none => exact ⟨n, hn, hle⟩
      | some i => exact ⟨i, rfl, Nat.le_trans hle (hlonger hi hn)⟩

end

theorem Finds.congr {m : Matcher} {L M : Text → Prop} (h : Finds m L) (hiff : ∀ t, L t ↔ M t) :
    Finds m M where
  sound hn := ⟨(h.sound hn).1, (hiff _).mp (h.sound hn).2⟩
  longest hl := h.longest ((hiff _).mpr hl)

theorem finds_name : Finds name IsName := finds_headed rfl fun _ _ => rfl

theorem finds_privateName :
    Finds privateName fun t => ∃ rest, t = CodePoint.ofChar '#' :: rest ∧ IsName rest :=
  finds_after finds_name rfl fun _ _ => rfl

theorem quoteEnd_append_cons {quote : CodePoint} {multiline : Bool} {body : Text}
    (hquote : quote ≠ CodePoint.ofChar '\\') (h : IsQuotedBody quote multiline body) (rest : Text) :
    quoteEnd quote multiline false (body ++ quote :: rest) = some (body.length + 1) := by
  induction h with
  | nil => simp [quoteEnd]
  | @plain c more hc hslash hline _ ih =>
      have hends : ¬ (c = CodePoint.ofChar '\n' ∧ multiline = false) := by
        rintro ⟨rfl, hsingle⟩
        rcases hline with hmulti | hne
        · rw [hsingle] at hmulti
          cases hmulti
        · exact hne rfl
      simp [quoteEnd, hc, hslash, hends, ih]
  | @escaped c more hline _ ih =>
      simp [quoteEnd, hquote.symm, hline, ih]

theorem quoted_append {quote : CodePoint} {multiline : Bool} {l : Text}
    (hquote : quote ≠ CodePoint.ofChar '\\') (h : IsQuoted quote multiline l) (rest : Text) :
    quoted quote multiline (l ++ rest) = some l.length := by
  obtain ⟨body, rfl, hbody⟩ := h
  rw [List.cons_append, List.append_assoc, List.singleton_append, quoted, if_pos rfl,
    quoteEnd_append_cons hquote hbody]
  simp

theorem finds_quoteEnd {quote : CodePoint} {multiline : Bool}
    (hquote : quote ≠ CodePoint.ofChar '\\') :
    Finds (quoteEnd quote multiline false)
      fun t => ∃ body, t = body ++ [quote] ∧ IsQuotedBody quote multiline body where
  sound {t n} h := by
    -- after a backslash one more code point is taken, whatever it is
    have hboth : ∀ (t : Text) (escaped : Bool) (n : Nat),
        quoteEnd quote multiline escaped t = some n → n ≤ t.length ∧
          ∃ body, t.take n = body ++ [quote] ∧
            IsQuotedBody quote multiline
              (if escaped then CodePoint.ofChar '\\' :: body else body) := by
      intro t
      induction t with
      | nil =>
          intro escaped n h
          cases h
      | cons c rest ih =>
          intro escaped n h
          rw [quoteEnd] at h
          cases escaped with
          | true =>
              rw [if_pos rfl] at h
              split at h
              · cases h
              · rename_i hline
                obtain ⟨k, hk, rfl⟩ := Option.map_eq_some_iff.mp h
                obtain ⟨hle, body, hbody, hquoted⟩ := ih false k hk
                refine ⟨Nat.succ_le_succ hle, c :: body, ?_, .escaped hline hquoted⟩
                rw [List.take_succ_cons, hbody, List.cons_append]
          | false =>
              rw [if_neg (by decide)] at h
              split at h
              · rename_i hc
                obtain rfl := Option.some.inj h
                exact ⟨by simp, [], by simp [hc], .nil⟩
              rename_i hc
              split at h
              · rename_i hslash
                obtain ⟨k, hk, rfl⟩ := Option.map_eq_some_iff.mp h
                obtain ⟨hle, body, hbody, hquoted⟩ := ih true k hk
                refine ⟨Nat.succ_le_succ hle, c :: body, ?_, hslash ▸ hquoted⟩
                rw [List.take_succ_cons, hbody, List.cons_append]
              rename_i hslash
              split at h
              · cases h
              · rename_i hline
                obtain ⟨k, hk, rfl⟩ := Option.map_eq_some_iff.mp h
                obtain ⟨hle, body, hbody, hquoted⟩ := ih false k hk
                refine ⟨Nat.succ_le_succ hle, c :: body, ?_, .plain hc hslash ?_ hquoted⟩
                · rw [List.take_succ_cons, hbody, List.cons_append]
                · cases multiline with
                  | true => exact Or.inl rfl
                  | false => exact Or.inr (by simpa using hline)
    exact hboth t false n h
  longest {l} h rest := by
    obtain ⟨body, rfl, hbody⟩ := h
    refine ⟨body.length + 1, ?_, Nat.le_of_eq (List.length_append)⟩
    rw [List.append_assoc, List.singleton_append]
    exact quoteEnd_append_cons hquote hbody rest

theorem finds_quoted {quote : CodePoint} {multiline : Bool}
    (hquote : quote ≠ CodePoint.ofChar '\\') :
    Finds (quoted quote multiline) (IsQuoted quote multiline) := by
  apply (finds_after (finds_quoteEnd hquote) rfl fun _ _ => rfl).congr
  intro t
  constructor
  · rintro ⟨_, rfl, body, rfl, hbody⟩
    exact ⟨body, rfl, hbody⟩
  · rintro ⟨body, rfl, hbody⟩
    exact ⟨_, rfl, body, rfl, hbody⟩

theorem commentMark_infix_cons {c : CodePoint} {t : Text} :
    commentMark <:+: c :: t ↔
      (c = CodePoint.ofChar '*' ∧ t.head? = some (CodePoint.ofChar '/')) ∨ commentMark <:+: t := by
  rw [List.infix_cons_iff, commentMark, List.cons_prefix_cons]
  cases t with
  | nil => simp
  | cons d rest => simp [eq_comm]

theorem finds_commentEnd : Finds commentEnd IsCommentRest where
  sound {t n} h := by
    induction t generalizing n with
    | nil => cases h
    | cons c rest ih =>
        rw [commentEnd] at h
        split at h
        · rename_i hends
          obtain rfl := Option.some.inj h
          simp only [Bool.and_eq_true, decide_eq_true_eq] at hends
          obtain ⟨rfl, hslash⟩ := hends
          cases rest with
          | nil => cases hslash
          | cons d more =>
              obtain rfl : d = CodePoint.ofChar '/' := Option.some.inj hslash
              refine ⟨by simp, [], rfl, ?_⟩
              intro hinfix
              have := hinfix.length_le
              simp [commentMark] at this
        · rename_i hgoes
          simp only [Bool.and_eq_true, decide_eq_true_eq] at hgoes
          obtain ⟨k, hk, rfl⟩ := Option.map_eq_some_iff.mp h
          obtain ⟨hle, body, hbody, hnone⟩ := ih hk
          refine ⟨Nat.succ_le_succ hle, c :: body, ?_, ?_⟩
          · rw [List.take_succ_cons, hbody, List.cons_append]
          · rw [List.cons_append, commentMark_infix_cons]
            rintro (⟨hstar, hslash⟩ | hinfix)
            · refine hgoes ⟨hstar, ?_⟩
              cases body with
              | nil => simp [CodePoint.ofChar] at hslash
              | cons d more =>
                  have hd : d = CodePoint.ofChar '/' := Option.some.inj hslash
                  cases rest with
                  | nil => simp at hbody
                  | cons e others =>
                      have hk : k ≠ 0 := by
                        rintro rfl
                        simp at hbody
                      obtain ⟨i, rfl⟩ := Nat.exists_eq_succ_of_ne_zero hk
                      rw [List.take_succ_cons, List.cons_append] at hbody
                      rw [List.head?_cons, (List.cons.inj hbody).1, hd]
            · exact hnone hinfix
  longest {l} h rest := by
    obtain ⟨body, rfl, hnone⟩ := h
    refine ⟨(body ++ commentMark).length, ?_, Nat.le_refl _⟩
    induction body with
    | nil => simp [commentMark, commentEnd]
    | cons c body ih =>
        rw [List.cons_append, commentMark_infix_cons, not_or] at hnone
        have hgoes : ¬ (c = CodePoint.ofChar '*' ∧
            (body ++ (commentMark ++ rest)).head? = some (CodePoint.ofChar '/')) := by
          rintro ⟨hstar, hslash⟩
          refine hnone.1 ⟨hstar, ?_⟩
          cases body with
          | nil => simp [commentMark, CodePoint.ofChar] at hslash
          | cons d more => simpa using hslash
        have hrest := ih hnone.2
        rw [List.append_assoc] at hrest ⊢
        rw [List.cons_append, commentEnd, if_neg (by simpa using hgoes), hrest]
        simp

theorem finds_lineComment : Finds lineComment fun t => ∃ body,
    t = CodePoint.ofChar '/' :: CodePoint.ofChar '/' :: body ∧
      ∀ c ∈ body, c ≠ CodePoint.ofChar '\n' := by
  have hbody : Finds (fun t => some (run (· != CodePoint.ofChar '\n') t))
      fun t => ∀ c ∈ t, (c != CodePoint.ofChar '\n') = true :=
    { sound := fun {t n} h => by
        obtain rfl := Option.some.inj h
        exact (takes_run _).sound t
      longest := fun h rest => ⟨_, rfl, (takes_run _).longest h rest⟩ }
  have hafter := finds_afterTwo (CodePoint.ofChar '/') (fun d => d = CodePoint.ofChar '/') hbody
    (m := lineComment) rfl (fun _ => rfl) fun c d rest => by
      simp only [lineComment, Option.map_some, Nat.add_comm]
  apply hafter.congr
  intro t
  simp

theorem finds_blockComment : Finds blockComment fun t => ∃ rest,
    t = CodePoint.ofChar '/' :: CodePoint.ofChar '*' :: rest ∧ IsCommentRest rest := by
  have hafter := finds_afterTwo (CodePoint.ofChar '/') (fun d => d = CodePoint.ofChar '*')
    finds_commentEnd (m := blockComment) rfl (fun _ => rfl) fun c d rest => rfl
  apply hafter.congr
  intro t
  simp

theorem val_of_isDecimal {c : CodePoint} (h : isDecimal c = true) :
    (0x30 ≤ c.val ∧ c.val ≤ 0x39) ∨ 0x660 ≤ c.val := by
  rw [isDecimal, Text.DecimalDigit.value?, Option.isSome_map, List.find?_isSome] at h
  obtain ⟨start, hstart, hrange⟩ := h
  simp only [Bool.and_eq_true, decide_eq_true_eq] at hrange
  have hzeros : ∀ start ∈ Text.DecimalDigit.zeros, start = 0x30 ∨ 0x660 ≤ start := by decide
  rcases hzeros start hstart with rfl | hlarge
  · omega
  · omega

theorem takes_bigMark : Takes bigMark IsBigMark where
  sound t := by
    cases t with
    | nil => exact ⟨Nat.le_refl _, Or.inl rfl⟩
    | cons c rest =>
        rw [bigMark]
        split
        · rename_i hc
          exact ⟨by simp, Or.inr (by simp [hc])⟩
        · exact ⟨Nat.zero_le _, Or.inl rfl⟩
  longest {l} h rest := by
    rcases h with rfl | rfl
    · exact Nat.zero_le _
    · exact Nat.le_refl 1

theorem takes_sign : Takes sign IsSign where
  sound t := by
    cases t with
    | nil => exact ⟨Nat.le_refl _, Or.inl rfl⟩
    | cons c rest =>
        rw [sign]
        split
        · rename_i hc
          simp only [Bool.or_eq_true, decide_eq_true_eq] at hc
          refine ⟨by simp, Or.inr ?_⟩
          rcases hc with rfl | rfl
          · exact Or.inl rfl
          · exact Or.inr rfl
        · exact ⟨Nat.zero_le _, Or.inl rfl⟩
  longest {l} h rest := by
    rcases h with rfl | rfl | rfl
    · exact Nat.zero_le _
    · exact Nat.le_refl 1
    · exact Nat.le_refl 1

theorem takes_fraction : Takes fraction IsFraction where
  sound t := by
    cases t with
    | nil => exact ⟨Nat.le_refl _, Or.inl rfl⟩
    | cons c rest =>
        rw [fraction]
        split
        · rename_i hc
          obtain ⟨hle, hall⟩ := (takes_run isDecimalPart).sound rest
          refine ⟨by rw [List.length_cons]; omega, Or.inr ⟨_, ?_, hall⟩⟩
          rw [Nat.add_comm, List.take_succ_cons, hc]
        · exact ⟨Nat.zero_le _, Or.inl rfl⟩
  longest {l} h rest := by
    rcases h with rfl | ⟨digits, rfl, hdigits⟩
    · exact Nat.zero_le _
    · have := (takes_run isDecimalPart).longest hdigits rest
      rw [List.cons_append, fraction, if_pos rfl, List.length_cons]
      omega

theorem sign_append {sign digits : Text} (hsign : IsSign sign) (hne : digits ≠ [])
    (hdigits : ∀ c ∈ digits, isDecimal c = true) (rest : Text) :
    Lexeme.sign (sign ++ (digits ++ rest)) = sign.length := by
  rcases hsign with rfl | rfl | rfl
  · obtain ⟨c, more, rfl⟩ := List.exists_cons_of_ne_nil hne
    have hval := val_of_isDecimal (hdigits c List.mem_cons_self)
    have hplus : c ≠ CodePoint.ofChar '+' := by
      rintro rfl
      exact absurd hval (by decide)
    have hminus : c ≠ CodePoint.ofChar '-' := by
      rintro rfl
      exact absurd hval (by decide)
    simp [Lexeme.sign, hplus, hminus]
  · rfl
  · rfl

theorem exponent_append {e : CodePoint} {sign digits : Text}
    (he : e = CodePoint.ofChar 'e' ∨ e = CodePoint.ofChar 'E') (hsign : IsSign sign)
    (hne : digits ≠ []) (hdigits : ∀ c ∈ digits, isDecimal c = true) (rest : Text) :
    exponent (e :: (sign ++ digits) ++ rest) =
      (e :: (sign ++ digits)).length + run isDecimal rest := by
  have hpos : 0 < digits.length := List.length_pos_iff.mpr hne
  rw [List.cons_append, List.append_assoc, exponent, if_pos (by simpa using he),
    sign_append hsign hne hdigits, List.drop_left, run_append hdigits]
  split
  · omega
  · simp only [List.length_cons, List.length_append]
    omega

theorem takes_exponent : Takes exponent IsExponent where
  sound t := by
    cases t with
    | nil => exact ⟨Nat.le_refl _, Or.inl rfl⟩
    | cons c rest =>
        rw [exponent]
        split
        · rename_i hc
          simp only [Bool.or_eq_true, decide_eq_true_eq] at hc
          split
          · exact ⟨Nat.zero_le _, Or.inl rfl⟩
          · rename_i n hn
            obtain ⟨hsign, hisSign⟩ := takes_sign.sound rest
            obtain ⟨hle, hall⟩ := (takes_run isDecimal).sound (rest.drop (sign rest))
            rw [List.length_drop] at hle
            refine ⟨by rw [List.length_cons]; omega, Or.inr ⟨c, rest.take (sign rest), _, ?_, hc,
              hisSign, ?_, hall⟩⟩
            · rw [Nat.add_assoc, Nat.add_comm, List.take_succ_cons, ← List.take_add]
            · intro hnil
              rcases List.take_eq_nil_iff.mp hnil with hzero | hempty
              · exact hn hzero
              · rw [hempty] at hn
                exact hn rfl
        · exact ⟨Nat.zero_le _, Or.inl rfl⟩
  longest {l} h rest := by
    rcases h with rfl | ⟨e, sign, digits, rfl, he, hsign, hne, hdigits⟩
    · exact Nat.zero_le _
    · rw [exponent_append he hsign hne hdigits]
      exact Nat.le_add_right _ _

theorem finds_digits : Finds digits IsDigits := finds_headed rfl fun _ _ => rfl

theorem digits_stops {l : Text} (h : IsDigits l) {x : CodePoint} (hx : isDecimalPart x = false)
    (rest : Text) : digits (l ++ x :: rest) = some l.length := by
  obtain ⟨c, parts, rfl, hhead, hparts⟩ := h
  rw [List.cons_append, digits, if_pos hhead, run_append hparts, run_cons_of_neg hx,
    List.length_cons, Nat.add_zero, Nat.add_comm]

/-- The digits of a number with its point. -/
def IsMantissa (t : Text) : Prop :=
  (∃ whole fraction, t = whole ++ fraction ∧ IsDigits whole ∧ IsFraction fraction) ∨
    ∃ digits, t = CodePoint.ofChar '.' :: digits ∧ IsDigits digits

def mantissa : Matcher := fun t => followedBy digits fraction t <|> pointFirst t

theorem not_isDecimal_point : isDecimal (CodePoint.ofChar '.') = false := by decide

theorem followedBy_digits_point (rest : Text) :
    followedBy digits fraction (CodePoint.ofChar '.' :: rest) = none := by
  simp [followedBy, digits, not_isDecimal_point]

theorem finds_mantissa : Finds mantissa IsMantissa := by
  have hwhole : Finds (followedBy digits fraction)
      fun t => ∃ l k, t = l ++ k ∧ IsDigits l ∧ IsFraction k := by
    apply finds_digits.followedBy takes_fraction
    rintro l hl k (rfl | ⟨ds, rfl, _⟩) hne rest
    · exact absurd rfl hne
    · exact digits_stops hl (by decide) _
  refine hwhole.orElse (finds_after finds_digits rfl fun _ _ => rfl) ?_
  intro t n n' hn hn'
  cases t with
  | nil => cases hn'
  | cons c rest =>
      rw [pointFirst] at hn'
      split at hn'
      · rename_i hc
        rw [hc, followedBy_digits_point] at hn
        cases hn
      · cases hn'

theorem mantissa_stops {l : Text} (h : IsMantissa l) {x : CodePoint} (hx : isDecimalPart x = false)
    (hpoint : x ≠ CodePoint.ofChar '.') (rest : Text) :
    mantissa (l ++ x :: rest) = some l.length := by
  rcases h with ⟨whole, frac, rfl, hwhole, rfl | ⟨ds, rfl, hds⟩⟩ | ⟨ds, rfl, hds⟩
  · have hdigits := digits_stops hwhole hx rest
    simp [mantissa, followedBy, hdigits, fraction, hpoint]
  · have hdigits := digits_stops hwhole (x := CodePoint.ofChar '.') (by decide) (ds ++ x :: rest)
    have hrun : run isDecimalPart (ds ++ x :: rest) = ds.length := by
      rw [run_append hds, run_cons_of_neg hx, Nat.add_zero]
    simp [mantissa, followedBy, hdigits, fraction, hrun, Nat.add_comm]
  · have hdigits := digits_stops hds hx rest
    rw [mantissa, List.cons_append, followedBy_digits_point]
    simp [pointFirst, hdigits]

theorem finds_decimalNumber : Finds decimalNumber fun t => ∃ l k, t = l ++ k ∧
    (∃ l' k', l = l' ++ k' ∧ IsMantissa l' ∧ IsExponent k') ∧ IsBigMark k := by
  have hexponent : Finds (followedBy mantissa exponent)
      fun t => ∃ l k, t = l ++ k ∧ IsMantissa l ∧ IsExponent k := by
    apply finds_mantissa.followedBy takes_exponent
    rintro l hl k (rfl | ⟨e, sign, ds, rfl, he, _⟩) hne rest
    · exact absurd rfl hne
    · rcases he with rfl | rfl
      · exact mantissa_stops hl (by decide) (by decide) _
      · exact mantissa_stops hl (by decide) (by decide) _
  apply hexponent.followedBy takes_bigMark
  rintro _ ⟨l, k, rfl, hl, hk⟩ _ (rfl | rfl) hne rest
  · exact absurd rfl hne
  rw [List.singleton_append, List.append_assoc, List.length_append]
  rcases hk with rfl | ⟨e, sign, ds, rfl, he, hsign, hds, hall⟩
  · have hmantissa := mantissa_stops hl (x := CodePoint.ofChar 'n') (by decide) (by decide) rest
    simp only [List.nil_append, followedBy, hmantissa, Option.map_some, List.drop_left,
      List.length_nil]
    rfl
  · have hmantissa : mantissa (l ++ (e :: (sign ++ ds) ++ CodePoint.ofChar 'n' :: rest)) =
        some l.length := by
      rcases he with rfl | rfl
      · exact mantissa_stops hl (by decide) (by decide) _
      · exact mantissa_stops hl (by decide) (by decide) _
    simp only [followedBy, hmantissa, Option.map_some, List.drop_left,
      exponent_append he hsign hds hall, run_cons_of_neg
        (show isDecimal (CodePoint.ofChar 'n') = false by decide), Nat.add_zero]

/-- A number with a radix letter after a zero. -/
def IsRadixNumber (lower upper : CodePoint) (isPart : CodePoint → Bool) (t : Text) : Prop :=
  ∃ letter rest, t = CodePoint.ofChar '0' :: letter :: rest ∧
    (decide (letter = lower) || decide (letter = upper)) = true ∧
    ∃ digits big, rest = digits ++ big ∧ (digits ≠ [] ∧ ∀ c ∈ digits, isPart c = true) ∧
      IsBigMark big

theorem finds_radixNumber (lower upper : CodePoint) {isPart : CodePoint → Bool}
    (hpart : isPart (CodePoint.ofChar 'n') = false) :
    Finds (radixNumber lower upper isPart) (IsRadixNumber lower upper isPart) := by
  refine finds_afterTwo (CodePoint.ofChar '0')
    (fun d => decide (d = lower) || decide (d = upper)) ?_ rfl (fun _ => rfl) (fun _ _ _ => rfl)
  apply (finds_run1 isPart).followedBy takes_bigMark
  rintro l ⟨hne, hl⟩ k (rfl | rfl) hmark rest
  · exact absurd rfl hmark
  have hpos : 0 < l.length := List.length_pos_iff.mpr hne
  rw [List.singleton_append, run1, run_append hl, run_cons_of_neg hpart]
  split
  · omega
  · rfl

theorem radixNumber_eq_some {lower upper : CodePoint} {isPart : CodePoint → Bool}
    (hpart : isPart (CodePoint.ofChar 'n') = false) {t : Text} {n : Nat}
    (h : radixNumber lower upper isPart t = some n) :
    2 ≤ n ∧ ∃ letter rest, t = CodePoint.ofChar '0' :: letter :: rest ∧
      (letter = lower ∨ letter = upper) := by
  obtain ⟨hle, letter, rest, htake, hletter, _⟩ := (finds_radixNumber lower upper hpart).sound h
  have hlength := congrArg List.length htake
  rw [List.length_take, Nat.min_eq_left hle] at hlength
  refine ⟨by simp only [List.length_cons] at hlength; omega, letter, rest ++ t.drop n, ?_,
    by simpa using hletter⟩
  rw [← List.cons_append, ← List.cons_append, ← htake, List.take_append_drop]

theorem radixNumber_of_ne {lower upper letter : CodePoint} {isPart : CodePoint → Bool}
    (hlower : letter ≠ lower) (hupper : letter ≠ upper) (rest : Text) :
    radixNumber lower upper isPart (CodePoint.ofChar '0' :: letter :: rest) = none := by
  simp [radixNumber, hlower, hupper]

theorem decimalNumber_zero {letter : CodePoint} (hpart : isDecimalPart letter = false)
    (hpoint : letter ≠ CodePoint.ofChar '.') (he : letter ≠ CodePoint.ofChar 'e')
    (hE : letter ≠ CodePoint.ofChar 'E') (hn : letter ≠ CodePoint.ofChar 'n') (rest : Text) :
    decimalNumber (CodePoint.ofChar '0' :: letter :: rest) = some 1 := by
  have hdigits : digits (CodePoint.ofChar '0' :: letter :: rest) = some 1 :=
    digits_stops (l := [CodePoint.ofChar '0']) ⟨_, [], rfl, by decide, nofun⟩ hpart rest
  simp [decimalNumber, followedBy, hdigits, fraction, exponent, bigMark, hpoint, he, hE, hn]

/-- Where a number with a radix letter stands, no other radix fits and the decimal number is the
zero alone. -/
theorem finds_number : Finds number IsNumber := by
  have hhex := finds_radixNumber (CodePoint.ofChar 'x') (CodePoint.ofChar 'X')
    (show isHexPart (CodePoint.ofChar 'n') = false by decide)
  have hbinary := finds_radixNumber (CodePoint.ofChar 'b') (CodePoint.ofChar 'B')
    (show isBinaryPart (CodePoint.ofChar 'n') = false by decide)
  have hoctal := finds_radixNumber (CodePoint.ofChar 'o') (CodePoint.ofChar 'O')
    (show isOctalPart (CodePoint.ofChar 'n') = false by decide)
  have hall := hhex.orElse (hbinary.orElse (hoctal.orElse finds_decimalNumber ?_) ?_) ?_
  · refine hall.congr fun t => ⟨?_, ?_⟩
    · rintro (h | h | h | ⟨_, big, rfl, ⟨_, exponent, rfl, hmantissa, hexponent⟩, hbig⟩)
      · obtain ⟨letter, _, rfl, hletter, digits, big, rfl, ⟨hne, hdigits⟩, hbig⟩ := h
        exact .radix (.hex (by simpa using hletter)) hne hdigits hbig
      · obtain ⟨letter, _, rfl, hletter, digits, big, rfl, ⟨hne, hdigits⟩, hbig⟩ := h
        exact .radix (.binary (by simpa using hletter)) hne hdigits hbig
      · obtain ⟨letter, _, rfl, hletter, digits, big, rfl, ⟨hne, hdigits⟩, hbig⟩ := h
        exact .radix (.octal (by simpa using hletter)) hne hdigits hbig
      · rcases hmantissa with ⟨whole, fraction, rfl, hwhole, hfraction⟩ | ⟨digits, rfl, hdigits⟩
        · exact .decimal hwhole hfraction hexponent hbig
        · exact .point hdigits hexponent hbig
    · intro h
      cases h with
      | @radix letter isPart digits big hletter hne hdigits hbig =>
          have hrest : ∃ ds bs, digits ++ big = ds ++ bs ∧
              (ds ≠ [] ∧ ∀ c ∈ ds, isPart c = true) ∧ IsBigMark bs :=
            ⟨digits, big, rfl, ⟨hne, hdigits⟩, hbig⟩
          cases hletter with
          | hex h => exact Or.inl ⟨letter, _, rfl, by simpa using h, hrest⟩
          | binary h => exact Or.inr (Or.inl ⟨letter, _, rfl, by simpa using h, hrest⟩)
          | octal h => exact Or.inr (Or.inr (Or.inl ⟨letter, _, rfl, by simpa using h, hrest⟩))
      | @decimal whole fraction exponent big hwhole hfraction hexponent hbig =>
          exact Or.inr (Or.inr (Or.inr ⟨_, big, rfl, ⟨_, exponent, rfl,
            Or.inl ⟨whole, fraction, rfl, hwhole, hfraction⟩, hexponent⟩, hbig⟩))
      | @point digits exponent big hdigits hexponent hbig =>
          exact Or.inr (Or.inr (Or.inr ⟨_, big, rfl, ⟨_, exponent, rfl,
            Or.inr ⟨digits, rfl, hdigits⟩, hexponent⟩, hbig⟩))
  · intro t n n' hn hn'
    obtain ⟨hle, letter, rest, rfl, hletter⟩ := radixNumber_eq_some (by decide) hn
    have hone : decimalNumber (CodePoint.ofChar '0' :: letter :: rest) = some 1 := by
      rcases hletter with rfl | rfl <;>
        exact decimalNumber_zero (by decide) (by decide) (by decide) (by decide) (by decide) rest
    obtain rfl : 1 = n' := Option.some.inj (hone.symm.trans hn')
    omega
  · intro t n n' hn hn'
    obtain ⟨hle, letter, rest, rfl, hletter⟩ := radixNumber_eq_some (by decide) hn
    have hone : (radixNumber (CodePoint.ofChar 'o') (CodePoint.ofChar 'O') isOctalPart
        (CodePoint.ofChar '0' :: letter :: rest) <|>
          decimalNumber (CodePoint.ofChar '0' :: letter :: rest)) = some 1 := by
      rcases hletter with rfl | rfl <;>
        rw [radixNumber_of_ne (by decide) (by decide),
          decimalNumber_zero (by decide) (by decide) (by decide) (by decide) (by decide)] <;> rfl
    obtain rfl : 1 = n' := Option.some.inj (hone.symm.trans hn')
    omega
  · intro t n n' hn hn'
    obtain ⟨hle, letter, rest, rfl, hletter⟩ := radixNumber_eq_some (by decide) hn
    have hone : (radixNumber (CodePoint.ofChar 'b') (CodePoint.ofChar 'B') isBinaryPart
        (CodePoint.ofChar '0' :: letter :: rest) <|>
          radixNumber (CodePoint.ofChar 'o') (CodePoint.ofChar 'O') isOctalPart
            (CodePoint.ofChar '0' :: letter :: rest) <|>
          decimalNumber (CodePoint.ofChar '0' :: letter :: rest)) = some 1 := by
      rcases hletter with rfl | rfl <;>
        rw [radixNumber_of_ne (by decide) (by decide), radixNumber_of_ne (by decide) (by decide),
          decimalNumber_zero (by decide) (by decide) (by decide) (by decide) (by decide)] <;> rfl
    obtain rfl : 1 = n' := Option.some.inj (hone.symm.trans hn')
    omega

end Lexeme

end HostBindings.Source

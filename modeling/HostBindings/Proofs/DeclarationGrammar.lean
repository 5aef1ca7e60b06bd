import HostBindings.Proofs.ChosenDerivations
import HostBindings.Source.Concrete

/-!
The grammar of ambient declarations is tame and its predictions are complete, so reading a token
sequence finds a derivation exactly when the productions derive the sequence.
-/

namespace HostBindings

namespace Grammar

variable {T N : Type} [DecidableEq T] [DecidableEq N] {g : RuleSet T N}

theorem RuleSet.mem_rulesOf {c : Category T N} {r : Rule T N} :
    r ∈ g.rulesOf c ↔ r ∈ g.rules ∧ r.category = c := by
  rw [RuleSet.rulesOf, List.mem_filter, decide_eq_true_iff]

theorem RuleSet.mem_reach {fuel : Nat} {queue seen : List (Category T N)} {r : Rule T N}
    (h : r ∈ g.reach fuel queue seen) :
    r ∈ g.rules ∧ ∀ other ∈ g.rules, other.category = r.category →
      other ∈ g.reach fuel queue seen := by
  induction fuel generalizing queue seen with
  | zero => simp [RuleSet.reach] at h
  | succ fuel ih =>
      cases queue with
      | nil => simp [RuleSet.reach] at h
      | cons c queue =>
          rw [RuleSet.reach] at h ⊢
          rcases List.mem_append.mp h with hown | hlater
          · obtain ⟨hr, rfl⟩ := mem_rulesOf.mp hown
            refine ⟨hr, fun other hother hcategory => ?_⟩
            exact List.mem_append_left _ (mem_rulesOf.mpr ⟨hother, hcategory⟩)
          · obtain ⟨hr, htogether⟩ := ih hlater
            refine ⟨hr, fun other hother hcategory => ?_⟩
            exact List.mem_append_right _ (htogether other hother hcategory)

theorem lookup_map_pair {α β : Type} [DecidableEq α] (f : α → β) (keys : List α) (a : α) :
    (keys.map fun k => (k, f k)).lookup a = if a ∈ keys then some (f a) else none := by
  induction keys with
  | nil => rfl
  | cons k rest ih =>
      rw [List.map_cons, List.lookup_cons, ih]
      by_cases h : a = k
      · simp [h]
      · simp [h, beq_false_of_ne h]

/-- The table of predictions serves a chart. -/
theorem foretells_predictionTable (g : RuleSet T N) :
    Foretells g fun c => (g.predictionTable.lookup c).getD [] := by
  have hpredict : ∀ c, (g.predictionTable.lookup c).getD [] =
      if c ∈ g.rules.map (·.category) then g.predictions c else [] := by
    intro c
    rw [RuleSet.predictionTable, lookup_map_pair]
    simp only [List.mem_eraseDups]
    split <;> rfl
  have hmem : ∀ {c r}, r ∈ (g.predictionTable.lookup c).getD [] → r ∈ g.predictions c := by
    intro c r hr
    rw [hpredict] at hr
    split at hr
    · exact hr
    · cases hr
  refine ⟨?_, ?_, ?_⟩
  · intro c r hr
    exact (RuleSet.mem_reach (hmem hr)).1
  · intro r hr
    rw [hpredict, if_pos (List.mem_map_of_mem hr), RuleSet.predictions, RuleSet.reach]
    exact List.mem_append_left _ (RuleSet.mem_rulesOf.mpr ⟨hr, rfl⟩)
  · intro c r hr other hother hcategory
    have htogether := (RuleSet.mem_reach (hmem hr)).2 other hother hcategory
    rw [hpredict] at hr ⊢
    split at hr
    · rwa [if_pos ‹_›]
    · cases hr

/-- Whether a rule is tame, as seen at its last symbol. -/
def Rule.isTame (nullable : Category T N → Bool) (height : Category T N → Nat) (c : Category T N)
    (symbols : List (Symbol T N)) : Bool :=
  let front := symbols.dropLast
  (!symbols.all (·.isVacant nullable) || nullable c) &&
    match symbols.getLast? with
    | none => true
    | some (.token _ _) => true
    | some (.category d) => (front.isEmpty || !nullable d) &&
        (!front.all (·.isVacant nullable) || height d < height c)

omit [DecidableEq T] [DecidableEq N] in
theorem Rule.isTame_eq_true {nullable : Category T N → Bool} {height : Category T N → Nat}
    {c : Category T N} {symbols : List (Symbol T N)}
    (h : Rule.isTame nullable height c symbols = true) : Rule.IsTame nullable height c symbols := by
  rw [Rule.isTame, Bool.and_eq_true] at h
  obtain ⟨hclosed, hlast⟩ := h
  refine ⟨?_, ?_, ?_⟩
  · intro hvacant
    simpa [hvacant] using hclosed
  · rintro front s hne rfl
    cases s with
    | token t kept => rfl
    | category d =>
        rw [List.getLast?_concat, List.dropLast_concat, Bool.and_eq_true] at hlast
        simpa [hne, Symbol.isVacant] using hlast.1
  · rintro front d rfl hvacant
    rw [List.getLast?_concat, List.dropLast_concat, Bool.and_eq_true] at hlast
    simpa [hvacant] using hlast.2

theorem isTame_ofProductions {nullable : Category T N → Bool} {height : Category T N → Nat}
    {start : N} {names : List N} {production : N → Production T N}
    (hproductions : ∀ n ∈ names, ∀ a ∈ (production n).alternatives,
      ∀ symbols ∈ a.pattern.expansions, Rule.isTame nullable height (.named n) symbols = true)
    (hrepetitions : ∀ p ∈ repetitionsOf names production, ∀ once ∈ p.expansions,
      Rule.isTame nullable height (.repeated p) once = true ∧
        Rule.isTame nullable height (.repeated p) (.category (.repeated p) :: once) = true) :
    (RuleSet.ofProductions start names production).IsTame nullable height := by
  intro r hr
  rcases mem_ofProductions_rules.mp hr with ⟨n, hn, hrule⟩ | ⟨p, hp, hrule⟩
  · obtain ⟨hcategory, a, ha, hsymbols, _⟩ := mem_production_rules hrule
    rw [hcategory]
    exact Rule.isTame_eq_true (hproductions n hn a ha r.symbols hsymbols)
  · obtain ⟨hcategory, once, honce, hsymbols⟩ := mem_pattern_rules hrule
    obtain ⟨hfirst, hagain⟩ := hrepetitions p hp once honce
    rw [hcategory]
    rcases hsymbols with hsymbols | hsymbols
    · rw [hsymbols]
      exact Rule.isTame_eq_true hfirst
    · rw [hsymbols]
      exact Rule.isTame_eq_true hagain

end Grammar

namespace Source

open Grammar

/-- The categories that may be read from no token. -/
def nullable : Category Terminal Nonterminal → Bool
  | .named .sourceFile | .named .parameters => true
  | _ => false

/-- How high a category stands above those that it may be read as. The categories are listed from
the whole file downwards; only what a list exports and the elements of a tuple may be read as
categories that are listed before them. -/
def height : Category Terminal Nonterminal → Nat
  | .named .sourceFile => Nonterminal.all.length + 2
  | .repeated _ => Nonterminal.all.length + 1
  | .named .exportSpecifier | .named .tupleElement => Nonterminal.all.length
  | .named n => Nonterminal.all.length - Nonterminal.all.idxOf n

theorem isTame_grammar : grammar.IsTame nullable height := by
  apply isTame_ofProductions
  · decide +kernel
  · decide +kernel

theorem mem_all_of_alternatives (n : Nonterminal) (h : n.production.alternatives ≠ []) :
    n ∈ Nonterminal.all := by
  revert h
  cases n <;> decide

/-- What becomes of the kinds of the tokens: a derivation of them if the grammar derives them, else
they are refused at one of them or unfinished. -/
theorem derive_cases (kinds : List Terminal) :
    (∃ d, derive kinds = .derived d ∧
      d.Reads grammar kinds (.category (.named .sourceFile)) 0 kinds.length ∧
      (Pattern.rule .sourceFile).Derives Nonterminal.production kinds) ∨
    ¬ (Pattern.rule .sourceFile).Derives Nonterminal.production kinds ∧
      (derive kinds = .unfinished ∨
        ∃ position < kinds.length, derive kinds = .refused position) := by
  have hderives :
      (∃ d, Derivation.Reads grammar kinds d (.category (.named .sourceFile)) 0 kinds.length) ↔
        (Pattern.rule .sourceFile).Derives Nonterminal.production kinds :=
    exists_reads_iff_derives mem_all_of_alternatives
  rcases readWith_cases (foretells_predictionTable grammar) isTame_grammar kinds with
    ⟨d, hd, hreads⟩ | ⟨hnone, hrefused⟩
  · exact Or.inl ⟨d, hd, hreads, hderives.mp ⟨d, hreads⟩⟩
  · exact Or.inr ⟨fun h => (hderives.mpr h).elim hnone, hrefused⟩

end Source

end HostBindings

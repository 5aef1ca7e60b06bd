import HostBindings.Grammar.Derivation
import Mathlib.Data.List.Basic

/-!
Readings of a grammar. A pattern derives token sequences by the usual rules for sequences, choices,
options and repetitions. A derivation is a tree of plain rules over positions of tokens. The plain
rules are made so that the two agree: a category has a derivation over some tokens exactly when its
productions derive them.
-/

namespace HostBindings.Grammar

variable {T N : Type}

/-- The token sequences of a pattern. -/
inductive Pattern.Derives (production : N → Production T N) : Pattern T N → List T → Prop
  | empty : Derives production .empty []
  | token (t : T) (kept : Bool) : Derives production (.token t kept) [t]
  | rule {n : N} {a : Alternative T N} {ts : List T} (ha : a ∈ (production n).alternatives)
      (h : Derives production a.pattern ts) : Derives production (.rule n) ts
  | seq {p q : Pattern T N} {ts us : List T} (hp : Derives production p ts)
      (hq : Derives production q us) : Derives production (.seq p q) (ts ++ us)
  | first {p q : Pattern T N} {ts : List T} (h : Derives production p ts) :
      Derives production (.alt p q) ts
  | second {p q : Pattern T N} {ts : List T} (h : Derives production q ts) :
      Derives production (.alt p q) ts
  | taken {p : Pattern T N} {ts : List T} (h : Derives production p ts) :
      Derives production (.optional p) ts
  | omitted (p : Pattern T N) : Derives production (.optional p) []
  | none (p : Pattern T N) : Derives production (.star p) []
  | more {p : Pattern T N} {ts us : List T} (hsome : Derives production (.star p) ts)
      (hlast : Derives production p us) : Derives production (.star p) (ts ++ us)
  | plus {p : Pattern T N} {ts us : List T} (hsome : Derives production (.star p) ts)
      (hlast : Derives production p us) : Derives production (.plus p) (ts ++ us)

mutual

/-- A tree is a derivation of a symbol over the tokens between two positions: each node uses a rule
of the grammar and has one child for each symbol of the rule, in order and without gaps. -/
def Derivation.Reads (g : RuleSet T N) (tokens : List T) :
    Derivation T N → Symbol T N → Nat → Nat → Prop
  | .token position, symbol, start, stop =>
      position = start ∧ stop = start + 1 ∧
        ∃ t kept, symbol = .token t kept ∧ tokens[start]? = some t
  | .node rule children, symbol, start, stop =>
      symbol = .category rule.category ∧ rule ∈ g.rules ∧
        Derivation.ReadAll g tokens children rule.symbols start stop

/-- Trees are derivations of symbols in a row. -/
def Derivation.ReadAll (g : RuleSet T N) (tokens : List T) :
    List (Derivation T N) → List (Symbol T N) → Nat → Nat → Prop
  | [], [], start, stop => start = stop
  | d :: rest, symbol :: symbols, start, stop =>
      ∃ middle, Derivation.Reads g tokens d symbol start middle ∧
        Derivation.ReadAll g tokens rest symbols middle stop
  | _, _, _, _ => False

end

namespace Derivation

variable {g : RuleSet T N} {tokens : List T}

theorem reads_node_iff {rule : Rule T N} {children : List (Derivation T N)}
    {symbol : Symbol T N} {start stop : Nat} :
    Reads g tokens (.node rule children) symbol start stop ↔
      symbol = .category rule.category ∧ rule ∈ g.rules ∧
        ReadAll g tokens children rule.symbols start stop := by
  rw [Reads]

@[simp] theorem readAll_nil_iff {symbols : List (Symbol T N)} {start stop : Nat} :
    ReadAll g tokens [] symbols start stop ↔ symbols = [] ∧ start = stop := by
  cases symbols with
  | nil => simp [ReadAll]
  | cons s rest => simp [ReadAll]

@[simp] theorem readAll_cons_iff {d : Derivation T N} {rest : List (Derivation T N)}
    {symbols : List (Symbol T N)} {start stop : Nat} :
    ReadAll g tokens (d :: rest) symbols start stop ↔
      ∃ s more middle, symbols = s :: more ∧ Reads g tokens d s start middle ∧
        ReadAll g tokens rest more middle stop := by
  cases symbols with
  | nil => simp [ReadAll]
  | cons s more =>
      rw [ReadAll]
      constructor
      · rintro ⟨middle, hfirst, hrest⟩
        exact ⟨s, more, middle, rfl, hfirst, hrest⟩
      · rintro ⟨_, _, middle, hcons, hfirst, hrest⟩
        obtain ⟨rfl, rfl⟩ := List.cons.inj hcons
        exact ⟨middle, hfirst, hrest⟩

theorem readAll_append {ds es : List (Derivation T N)} {ss us : List (Symbol T N)}
    {start middle stop : Nat} (hd : ReadAll g tokens ds ss start middle)
    (he : ReadAll g tokens es us middle stop) :
    ReadAll g tokens (ds ++ es) (ss ++ us) start stop := by
  induction ds generalizing ss start with
  | nil =>
      obtain ⟨rfl, rfl⟩ := readAll_nil_iff.mp hd
      exact he
  | cons d rest ih =>
      obtain ⟨s, more, between, rfl, hfirst, hrest⟩ := readAll_cons_iff.mp hd
      exact readAll_cons_iff.mpr ⟨s, more ++ us, between, rfl, hfirst, ih hrest⟩

theorem readAll_singleton {d : Derivation T N} {s : Symbol T N} {start stop : Nat}
    (h : Reads g tokens d s start stop) : ReadAll g tokens [d] [s] start stop :=
  readAll_cons_iff.mpr ⟨s, [], stop, rfl, h, readAll_nil_iff.mpr ⟨rfl, rfl⟩⟩

mutual

theorem Reads.le {d : Derivation T N} {s : Symbol T N} {start stop : Nat}
    (h : Reads g tokens d s start stop) : start ≤ stop := by
  cases d with
  | token position =>
      rw [Reads] at h
      omega
  | node rule children => exact ReadAll.le (reads_node_iff.mp h).2.2

theorem ReadAll.le {ds : List (Derivation T N)} {ss : List (Symbol T N)} {start stop : Nat}
    (h : ReadAll g tokens ds ss start stop) : start ≤ stop := by
  cases ds with
  | nil => exact Nat.le_of_eq (readAll_nil_iff.mp h).2
  | cons d rest =>
      obtain ⟨s, more, middle, _, hfirst, hrest⟩ := readAll_cons_iff.mp h
      exact Nat.le_trans hfirst.le hrest.le

end

end Derivation

theorem exists_mem_ranked {c : Category T N} {priority : Nat}
    {sides : List (List (Symbol T N) × Option N)} {side : List (Symbol T N) × Option N}
    (h : side ∈ sides) :
    ∃ r ∈ ranked c priority sides, r.category = c ∧ r.symbols = side.1 ∧ r.label = side.2 := by
  obtain ⟨rank, hrank⟩ := List.mem_iff_getElem?.mp h
  have hmem : (side, rank) ∈ sides.zipIdx := List.mk_mem_zipIdx_iff_getElem?.mpr hrank
  exact ⟨_, List.mem_map_of_mem hmem, rfl, rfl, rfl⟩

theorem mem_ranked {c : Category T N} {priority : Nat}
    {sides : List (List (Symbol T N) × Option N)} {r : Rule T N}
    (h : r ∈ ranked c priority sides) : r.category = c ∧ (r.symbols, r.label) ∈ sides := by
  obtain ⟨⟨side, rank⟩, hside, rfl⟩ := List.mem_map.mp h
  exact ⟨rfl, List.mem_of_getElem? (List.mk_mem_zipIdx_iff_getElem?.mp hside)⟩

theorem mem_production_rules {n : N} {p : Production T N} {r : Rule T N} (h : r ∈ p.rules n) :
    r.category = .named n ∧
      ∃ a ∈ p.alternatives, r.symbols ∈ a.pattern.expansions ∧ r.label = a.label := by
  obtain ⟨hcategory, hside⟩ := mem_ranked h
  obtain ⟨a, ha, hpair⟩ := List.mem_flatMap.mp hside
  obtain ⟨symbols, hsymbols, heq⟩ := List.mem_map.mp hpair
  obtain ⟨rfl, hlabel⟩ := Prod.mk.inj heq
  exact ⟨hcategory, a, ha, hsymbols, hlabel.symm⟩

theorem exists_mem_production_rules {n : N} {p : Production T N} {a : Alternative T N}
    {symbols : List (Symbol T N)} (ha : a ∈ p.alternatives)
    (hsymbols : symbols ∈ a.pattern.expansions) :
    ∃ r ∈ p.rules n, r.category = .named n ∧ r.symbols = symbols := by
  have hside : (symbols, a.label) ∈
      p.alternatives.flatMap fun a => a.pattern.expansions.map fun symbols => (symbols, a.label) :=
    List.mem_flatMap.mpr ⟨a, ha, List.mem_map_of_mem hsymbols⟩
  obtain ⟨r, hr, hcategory, hsame, _⟩ := exists_mem_ranked hside
  exact ⟨r, hr, hcategory, hsame⟩

theorem mem_pattern_rules {p : Pattern T N} {r : Rule T N} (h : r ∈ p.rules) :
    r.category = .repeated p ∧
      ∃ once ∈ p.expansions,
        r.symbols = once ∨ r.symbols = .category (.repeated p) :: once := by
  obtain ⟨hcategory, hside⟩ := mem_ranked h
  obtain ⟨symbols, hsymbols, heq⟩ := List.mem_map.mp hside
  obtain ⟨rfl, _⟩ := Prod.mk.inj heq
  rcases List.mem_append.mp hsymbols with honce | hagain
  · exact ⟨hcategory, _, honce, Or.inl rfl⟩
  · obtain ⟨once, honce, hcons⟩ := List.mem_map.mp hagain
    exact ⟨hcategory, once, honce, Or.inr hcons.symm⟩

theorem exists_mem_pattern_rules {p : Pattern T N} {once symbols : List (Symbol T N)}
    (honce : once ∈ p.expansions)
    (h : symbols = once ∨ symbols = .category (.repeated p) :: once) :
    ∃ r ∈ p.rules, r.category = .repeated p ∧ r.symbols = symbols := by
  have hmem : symbols ∈ p.expansions ++
      p.expansions.map fun symbols => .category (.repeated p) :: symbols := by
    rcases h with rfl | rfl
    · exact List.mem_append_left _ honce
    · exact List.mem_append_right _ (List.mem_map_of_mem honce)
  obtain ⟨r, hr, hcategory, hsame, _⟩ := exists_mem_ranked (List.mem_map_of_mem hmem)
  exact ⟨r, hr, hcategory, hsame⟩

section

variable [DecidableEq T] [DecidableEq N] {start : N} {names : List N}
  {production : N → Production T N}

/-- The repetitions in the productions of a grammar. -/
def repetitionsOf (names : List N) (production : N → Production T N) : List (Pattern T N) :=
  names.flatMap fun n => (production n).alternatives.flatMap fun a => a.pattern.repetitions

theorem mem_ofProductions_rules {r : Rule T N} :
    r ∈ (RuleSet.ofProductions start names production).rules ↔
      (∃ n ∈ names, r ∈ (production n).rules n) ∨
        ∃ p ∈ repetitionsOf names production, r ∈ p.rules := by
  simp only [RuleSet.ofProductions, List.mem_append, List.mem_flatMap, List.mem_eraseDups,
    repetitionsOf]

theorem mem_rules_named {n : N} {r : Rule T N}
    (h : r ∈ (RuleSet.ofProductions start names production).rules)
    (hcategory : r.category = .named n) : r ∈ (production n).rules n := by
  rcases mem_ofProductions_rules.mp h with ⟨m, _, hr⟩ | ⟨p, _, hr⟩
  · obtain ⟨hnamed, _⟩ := mem_production_rules hr
    obtain rfl : m = n := Category.named.inj (hnamed.symm.trans hcategory)
    exact hr
  · obtain ⟨hrepeated, _⟩ := mem_pattern_rules hr
    cases hrepeated.symm.trans hcategory

theorem mem_rules_repeated {p : Pattern T N} {r : Rule T N}
    (h : r ∈ (RuleSet.ofProductions start names production).rules)
    (hcategory : r.category = .repeated p) : r ∈ p.rules := by
  rcases mem_ofProductions_rules.mp h with ⟨m, _, hr⟩ | ⟨q, _, hr⟩
  · obtain ⟨hnamed, _⟩ := mem_production_rules hr
    cases hnamed.symm.trans hcategory
  · obtain ⟨hrepeated, _⟩ := mem_pattern_rules hr
    obtain rfl : q = p := Category.repeated.inj (hrepeated.symm.trans hcategory)
    exact hr

/-- The pattern that a symbol of a plain rule stands for. -/
def Symbol.pattern : Symbol T N → Pattern T N
  | .token t kept => .token t kept
  | .category (.named n) => .rule n
  | .category (.repeated p) => .plus p

/-- The token sequences of symbols in a row. -/
def Yields (production : N → Production T N) : List (Symbol T N) → List T → Prop
  | [], ts => ts = []
  | s :: rest, ts => ∃ us vs, ts = us ++ vs ∧ s.pattern.Derives production us ∧
      Yields production rest vs

omit [DecidableEq T] [DecidableEq N] in
theorem yields_append {ss us : List (Symbol T N)} {ts : List T}
    (h : Yields production (ss ++ us) ts) :
    ∃ xs ys, ts = xs ++ ys ∧ Yields production ss xs ∧ Yields production us ys := by
  induction ss generalizing ts with
  | nil => exact ⟨[], ts, rfl, rfl, h⟩
  | cons s rest ih =>
      obtain ⟨xs, ys, rfl, hfirst, hrest⟩ := h
      obtain ⟨zs, ws, rfl, hmore, hlast⟩ := ih hrest
      exact ⟨xs ++ zs, ws, (List.append_assoc xs zs ws).symm, ⟨xs, zs, rfl, hfirst, hmore⟩, hlast⟩

omit [DecidableEq T] [DecidableEq N] in
theorem yields_singleton {s : Symbol T N} {ts : List T} (h : Yields production [s] ts) :
    s.pattern.Derives production ts := by
  obtain ⟨xs, ys, rfl, hfirst, rfl⟩ := h
  rwa [List.append_nil]

omit [DecidableEq T] [DecidableEq N] in
theorem derives_of_mem_expansions {p : Pattern T N} {symbols : List (Symbol T N)} {ts : List T}
    (hsymbols : symbols ∈ p.expansions) (h : Yields production symbols ts) :
    p.Derives production ts := by
  induction p generalizing symbols ts with
  | empty =>
      rw [List.mem_singleton.mp hsymbols] at h
      rw [h]
      exact .empty
  | token t kept =>
      rw [List.mem_singleton.mp hsymbols] at h
      exact yields_singleton h
  | rule n =>
      rw [List.mem_singleton.mp hsymbols] at h
      exact yields_singleton h
  | seq p q ihp ihq =>
      obtain ⟨front, hfront, hjoined⟩ := List.mem_flatMap.mp hsymbols
      obtain ⟨back, hback, rfl⟩ := List.mem_map.mp hjoined
      obtain ⟨xs, ys, rfl, hxs, hys⟩ := yields_append h
      exact .seq (ihp hfront hxs) (ihq hback hys)
  | alt p q ihp ihq =>
      rcases List.mem_append.mp hsymbols with hfirst | hsecond
      · exact .first (ihp hfirst h)
      · exact .second (ihq hsecond h)
  | optional p ih =>
      rcases List.mem_append.mp hsymbols with htaken | homitted
      · exact .taken (ih htaken h)
      · rw [List.mem_singleton.mp homitted] at h
        rw [h]
        exact .omitted p
  | star p _ =>
      rcases List.mem_pair.mp hsymbols with rfl | rfl
      · cases yields_singleton h with
        | plus hsome hlast => exact .more hsome hlast
      · rw [h]
        exact .none p
  | plus p _ =>
      rw [List.mem_singleton.mp hsymbols] at h
      exact yields_singleton h

/-- The tokens between two positions. -/
def between (tokens : List T) (start stop : Nat) : List T := (tokens.drop start).take (stop - start)

omit [DecidableEq T] in
theorem between_append {tokens : List T} {start middle stop : Nat} (hle : start ≤ middle)
    (hle' : middle ≤ stop) :
    between tokens start stop = between tokens start middle ++ between tokens middle stop := by
  have hdrop : tokens.drop middle = (tokens.drop start).drop (middle - start) := by
    rw [List.drop_drop]
    congr 1
    omega
  have hlength : stop - start = (middle - start) + (stop - middle) := by omega
  rw [between, between, between, hdrop, hlength, List.take_add]

mutual

/-- The tokens below a derivation are derived by the pattern of its symbol. -/
theorem Derivation.Reads.derives {tokens : List T} {d : Derivation T N} {s : Symbol T N}
    {i j : Nat}
    (h : Reads (RuleSet.ofProductions start names production) tokens d s i j) :
    s.pattern.Derives production (between tokens i j) := by
  cases d with
  | token position =>
      rw [Reads] at h
      obtain ⟨_, rfl, t, kept, rfl, htoken⟩ := h
      have hone : between tokens i (i + 1) = [t] := by
        obtain ⟨hlt, rfl⟩ := List.getElem?_eq_some_iff.mp htoken
        rw [between, Nat.add_sub_cancel_left, List.drop_eq_getElem_cons hlt]
        rfl
      rw [hone]
      exact .token t kept
  | node r children =>
      obtain ⟨rfl, hr, hall⟩ := Derivation.reads_node_iff.mp h
      have hyields := hall.yields
      cases hcategory : r.category with
      | named n =>
          obtain ⟨_, a, ha, hsymbols, _⟩ := mem_production_rules (mem_rules_named hr hcategory)
          exact .rule ha (derives_of_mem_expansions hsymbols hyields)
      | repeated p =>
          obtain ⟨_, once, honce, hsame | hagain⟩ :=
            mem_pattern_rules (mem_rules_repeated hr hcategory)
          · rw [hsame] at hyields
            exact .plus (.none p) (derives_of_mem_expansions honce hyields)
          · rw [hagain] at hyields
            obtain ⟨us, vs, hsplit, hsome, hlast⟩ := hyields
            rw [hsplit]
            cases hsome with
            | plus hstar hmore =>
                exact .plus (.more hstar hmore) (derives_of_mem_expansions honce hlast)

theorem Derivation.ReadAll.yields {tokens : List T} {ds : List (Derivation T N)}
    {ss : List (Symbol T N)} {i j : Nat}
    (h : ReadAll (RuleSet.ofProductions start names production) tokens ds ss i j) :
    Yields production ss (between tokens i j) := by
  cases ds with
  | nil =>
      obtain ⟨rfl, rfl⟩ := Derivation.readAll_nil_iff.mp h
      simp [Yields, between]
  | cons d rest =>
      obtain ⟨s, more, middle, rfl, hfirst, hrest⟩ := Derivation.readAll_cons_iff.mp h
      exact ⟨_, _, between_append hfirst.le hrest.le, hfirst.derives, hrest.yields⟩

end

theorem exists_reads_repeated {tokens : List T} {p : Pattern T N}
    (hp : p ∈ repetitionsOf names production) {some once : List (Symbol T N)}
    (hsome : some ∈ (Pattern.star p).expansions) (honce : once ∈ p.expansions)
    {ds es : List (Derivation T N)} {i middle j : Nat}
    (hds :
      Derivation.ReadAll (RuleSet.ofProductions start names production) tokens ds some i middle)
    (hes : Derivation.ReadAll (RuleSet.ofProductions start names production) tokens es once middle
      j) :
    ∃ d, Derivation.Reads (RuleSet.ofProductions start names production) tokens d
      (.category (.repeated p)) i j := by
  have hsides : some ++ once = once ∨ some ++ once = .category (.repeated p) :: once := by
    rcases List.mem_pair.mp hsome with rfl | rfl
    · exact Or.inr rfl
    · exact Or.inl rfl
  obtain ⟨r, hr, hcategory, hsymbols⟩ := exists_mem_pattern_rules honce hsides
  refine ⟨.node r (ds ++ es), Derivation.reads_node_iff.mpr ⟨by rw [hcategory], ?_, ?_⟩⟩
  · exact mem_ofProductions_rules.mpr (Or.inr ⟨p, hp, hr⟩)
  · rw [hsymbols]
    exact Derivation.readAll_append hds hes

omit [DecidableEq T] in
theorem drop_of_drop_eq_append {tokens ts rest : List T} {i : Nat}
    (h : tokens.drop i = ts ++ rest) : tokens.drop (i + ts.length) = rest := by
  rw [← List.drop_drop, h, List.drop_left]

variable (start) in
/-- Tokens that a pattern derives can be read by one of its plain alternatives, wherever they
stand. -/
theorem Pattern.Derives.exists_readAll {tokens : List T}
    (hnames : ∀ n, (production n).alternatives ≠ [] → n ∈ names) {p : Pattern T N} {ts : List T}
    (h : p.Derives production ts)
    (hreps : ∀ q ∈ p.repetitions, q ∈ repetitionsOf names production) {i : Nat} {rest : List T}
    (hat : tokens.drop i = ts ++ rest) :
    ∃ symbols ∈ p.expansions, ∃ ds,
      Derivation.ReadAll (RuleSet.ofProductions start names production) tokens ds symbols i
        (i + ts.length) := by
  induction h generalizing i rest with
  | empty => exact ⟨[], List.mem_singleton_self _, [], by simp⟩
  | token t kept =>
      refine ⟨_, List.mem_singleton_self _, [.token i], ?_⟩
      apply Derivation.readAll_singleton
      rw [Derivation.Reads]
      refine ⟨rfl, rfl, t, kept, rfl, ?_⟩
      have hhead := congrArg List.head? hat
      rwa [List.head?_drop] at hhead
  | @rule n a ts ha h ih =>
      have hn : n ∈ names := hnames n (List.ne_nil_of_mem ha)
      have hinner : ∀ q ∈ a.pattern.repetitions, q ∈ repetitionsOf names production := by
        intro q hq
        exact List.mem_flatMap.mpr ⟨n, hn, List.mem_flatMap.mpr ⟨a, ha, hq⟩⟩
      obtain ⟨symbols, hsymbols, ds, hds⟩ := ih hinner hat
      obtain ⟨r, hr, hcategory, rfl⟩ := exists_mem_production_rules (n := n) ha hsymbols
      refine ⟨_, List.mem_singleton_self _, [.node r ds], ?_⟩
      apply Derivation.readAll_singleton
      exact Derivation.reads_node_iff.mpr
        ⟨by rw [hcategory], mem_ofProductions_rules.mpr (Or.inl ⟨n, hn, hr⟩), hds⟩
  | @seq p q ts us hp hq ihp ihq =>
      rw [List.append_assoc] at hat
      obtain ⟨front, hfront, ds, hds⟩ :=
        ihp (fun r hr => hreps r (List.mem_append_left _ hr)) hat
      obtain ⟨back, hback, es, hes⟩ :=
        ihq (fun r hr => hreps r (List.mem_append_right _ hr)) (drop_of_drop_eq_append hat)
      refine ⟨front ++ back, ?_, ds ++ es, ?_⟩
      · exact List.mem_flatMap.mpr ⟨front, hfront, List.mem_map_of_mem hback⟩
      · rw [List.length_append, ← Nat.add_assoc]
        exact Derivation.readAll_append hds hes
  | first h ih =>
      obtain ⟨symbols, hsymbols, hread⟩ := ih (fun r hr => hreps r (List.mem_append_left _ hr)) hat
      exact ⟨symbols, List.mem_append_left _ hsymbols, hread⟩
  | second h ih =>
      obtain ⟨symbols, hsymbols, hread⟩ := ih (fun r hr => hreps r (List.mem_append_right _ hr)) hat
      exact ⟨symbols, List.mem_append_right _ hsymbols, hread⟩
  | taken h ih =>
      obtain ⟨symbols, hsymbols, hread⟩ := ih hreps hat
      exact ⟨symbols, List.mem_append_left _ hsymbols, hread⟩
  | omitted p => exact ⟨[], List.mem_append_right _ (List.mem_singleton_self _), [], by simp⟩
  | none p => exact ⟨[], List.mem_pair.mpr (Or.inr rfl), [], by simp⟩
  | more hsome hlast ihsome ihlast | plus hsome hlast ihsome ihlast =>
      rw [List.append_assoc] at hat
      obtain ⟨some, hsymbols, ds, hds⟩ := ihsome hreps hat
      obtain ⟨once, honce, es, hes⟩ :=
        ihlast (fun r hr => hreps r (List.mem_cons_of_mem _ hr)) (drop_of_drop_eq_append hat)
      obtain ⟨d, hd⟩ := exists_reads_repeated (hreps _ List.mem_cons_self) hsymbols honce hds hes
      refine ⟨_, List.mem_cons_self, [d], ?_⟩
      rw [List.length_append, ← Nat.add_assoc]
      exact Derivation.readAll_singleton hd

/-- A category has a derivation over a whole token sequence exactly when its productions derive
it. -/
theorem exists_reads_iff_derives {tokens : List T} {n : N}
    (hnames : ∀ n, (production n).alternatives ≠ [] → n ∈ names) :
    (∃ d, Derivation.Reads (RuleSet.ofProductions start names production) tokens d
      (.category (.named n)) 0 tokens.length) ↔ (Pattern.rule n).Derives production tokens := by
  constructor
  · rintro ⟨d, hd⟩
    have hderives := hd.derives
    rwa [between, List.drop_zero, Nat.sub_zero, List.take_length] at hderives
  · intro h
    have hat : tokens.drop 0 = tokens ++ [] := by simp
    obtain ⟨symbols, hsymbols, ds, hds⟩ := h.exists_readAll start hnames nofun hat
    rw [List.mem_singleton.mp hsymbols] at hds
    cases ds with
    | nil => simp at hds
    | cons d rest =>
        obtain ⟨s, more, middle, hcons, hd, hrest⟩ := Derivation.readAll_cons_iff.mp hds
        obtain ⟨rfl, rfl⟩ := List.cons.inj hcons
        cases rest with
        | cons e others => simp at hrest
        | nil =>
            obtain ⟨_, rfl⟩ := Derivation.readAll_nil_iff.mp hrest
            rw [Nat.zero_add] at hd
            exact ⟨d, hd⟩

end

end HostBindings.Grammar

import HostBindings.Proofs.ConcreteOutlines

/-!
What a pattern of the declaration language shows. A pattern shows some trees for some tokens if the
tokens are cut as the pattern says, every kept token is shown, and every category shows what its
form makes of one of its alternatives. Positions and plain rules do not occur here; what a
derivation shows is shown by the pattern of its symbol for the tokens below the derivation.
-/

namespace HostBindings.Source

open Grammar (Alternative Category Derivation Pattern Rule between)

namespace Nonterminal

/-- What a category shows, given the label of the alternative and what the alternative shows. -/
def shown (n : Nonterminal) (label : Option Nonterminal) (loc : Option Location)
    (children : List Concrete) : List Concrete :=
  match n.production.form with
  | .inlined => children
  | .transparent =>
    if label.isNone && children.length = 1 then children
    else [.node (label.getD n) loc children]
  | .node => [.node (label.getD n) loc children]

/-- Only a category that shows as the list of its children shows any other number of trees. -/
theorem length_shown {n : Nonterminal} (hform : n.production.form ≠ .inlined)
    (label : Option Nonterminal) (loc : Option Location) (children : List Concrete) :
    (n.shown label loc children).length = 1 := by
  rw [shown]
  split
  · contradiction
  · split
    · rename_i hone
      exact of_decide_eq_true (Bool.and_eq_true_iff.mp hone).2
    · rfl
  · rfl

theorem shown_of_node {n : Nonterminal} (hform : n.production.form = .node)
    (label : Option Nonterminal) (loc : Option Location) (children : List Concrete) :
    n.shown label loc children = [.node (label.getD n) loc children] := by
  rw [shown, hform]

theorem shown_of_transparent {n : Nonterminal} (hform : n.production.form = .transparent)
    (loc : Option Location) {children : List Concrete} (hone : children.length = 1) :
    n.shown none loc children = children := by
  rw [shown, hform]
  simp [hone]

theorem shown_labelled {n : Nonterminal} (hform : n.production.form = .transparent)
    (label : Nonterminal) (loc : Option Location) (children : List Concrete) :
    n.shown (some label) loc children = [.node label loc children] := by
  rw [shown, hform]
  rfl

theorem shown_of_inlined {n : Nonterminal} (hform : n.production.form = .inlined)
    (label : Option Nonterminal) (loc : Option Location) (children : List Concrete) :
    n.shown label loc children = children := by
  rw [shown, hform]

end Nonterminal

theorem Concrete.assemble_named {rule : Rule Terminal Nonterminal} {n : Nonterminal}
    (hcategory : rule.category = .named n) (loc : Option Location) (children : List Concrete) :
    assemble rule loc children = n.shown rule.label loc children := by
  rw [assemble, hcategory]
  rfl

/-- The trees that a pattern shows for some tokens. -/
inductive Shows : Nonterminal.Shape → List Token → List Concrete → Prop
  | empty : Shows .empty [] []
  | skipped (t : Token) : Shows (.token t.kind false) [t] []
  | kept (t : Token) : Shows (.token t.kind true) [t] [.token t]
  | rule {n : Nonterminal} {a : Alternative Terminal Nonterminal} {ts : List Token}
      {cs : List Concrete} (ha : a ∈ n.production.alternatives) (h : Shows a.pattern ts cs)
      (loc : Option Location) : Shows (.rule n) ts (n.shown a.label loc cs)
  | seq {p q : Nonterminal.Shape} {ts us : List Token} {cs ds : List Concrete}
      (hp : Shows p ts cs) (hq : Shows q us ds) : Shows (.seq p q) (ts ++ us) (cs ++ ds)
  | first {p q : Nonterminal.Shape} {ts : List Token} {cs : List Concrete} (h : Shows p ts cs) :
      Shows (.alt p q) ts cs
  | second {p q : Nonterminal.Shape} {ts : List Token} {cs : List Concrete} (h : Shows q ts cs) :
      Shows (.alt p q) ts cs
  | taken {p : Nonterminal.Shape} {ts : List Token} {cs : List Concrete} (h : Shows p ts cs) :
      Shows (.optional p) ts cs
  | omitted (p : Nonterminal.Shape) : Shows (.optional p) [] []
  | none (p : Nonterminal.Shape) : Shows (.star p) [] []
  | more {p : Nonterminal.Shape} {ts us : List Token} {cs ds : List Concrete}
      (hfirst : Shows p ts cs) (hrest : Shows (.star p) us ds) :
      Shows (.star p) (ts ++ us) (cs ++ ds)
  | plus {p : Nonterminal.Shape} {ts us : List Token} {cs ds : List Concrete}
      (hfirst : Shows p ts cs) (hrest : Shows (.star p) us ds) :
      Shows (.plus p) (ts ++ us) (cs ++ ds)

variable {p q : Nonterminal.Shape} {n : Nonterminal} {ts us : List Token} {cs ds : List Concrete}

@[simp] theorem shows_empty_iff : Shows .empty ts cs ↔ ts = [] ∧ cs = [] := by
  constructor
  · intro h
    cases h
    exact ⟨rfl, rfl⟩
  · rintro ⟨rfl, rfl⟩
    exact .empty

@[simp] theorem shows_skip_iff {k : Terminal} :
    Shows (.token k false) ts cs ↔ ∃ t, ts = [t] ∧ cs = [] ∧ t.kind = k := by
  constructor
  · intro h
    cases h
    exact ⟨_, rfl, rfl, rfl⟩
  · rintro ⟨t, rfl, rfl, rfl⟩
    exact .skipped t

@[simp] theorem shows_keep_iff {k : Terminal} :
    Shows (.token k true) ts cs ↔ ∃ t, ts = [t] ∧ cs = [.token t] ∧ t.kind = k := by
  constructor
  · intro h
    cases h
    exact ⟨_, rfl, rfl, rfl⟩
  · rintro ⟨t, rfl, rfl, rfl⟩
    exact .kept t

theorem shows_rule_iff :
    Shows (.rule n) ts cs ↔ ∃ a ∈ n.production.alternatives, ∃ children loc,
      Shows a.pattern ts children ∧ cs = n.shown a.label loc children := by
  constructor
  · intro h
    cases h with
    | rule ha h loc => exact ⟨_, ha, _, loc, h, rfl⟩
  · rintro ⟨a, ha, children, loc, h, rfl⟩
    exact .rule ha h loc

@[simp] theorem shows_seq_iff :
    Shows (.seq p q) ts cs ↔ ∃ us vs ds es, Shows p us ds ∧ Shows q vs es ∧ ts = us ++ vs ∧
      cs = ds ++ es := by
  constructor
  · intro h
    cases h with
    | seq hp hq => exact ⟨_, _, _, _, hp, hq, rfl, rfl⟩
  · rintro ⟨us, vs, ds, es, hp, hq, rfl, rfl⟩
    exact .seq hp hq

theorem shows_skip_seq_iff {k : Terminal} : Shows (.seq (.token k false) q) ts cs ↔
    ∃ t us, t.kind = k ∧ Shows q us cs ∧ ts = t :: us := by
  rw [shows_seq_iff]
  constructor
  · rintro ⟨_, us, _, _, hskip, hq, rfl, rfl⟩
    obtain ⟨t, rfl, rfl, ht⟩ := shows_skip_iff.mp hskip
    exact ⟨t, us, ht, hq, rfl⟩
  · rintro ⟨t, us, ht, hq, rfl⟩
    exact ⟨[t], us, [], cs, shows_skip_iff.mpr ⟨t, rfl, rfl, ht⟩, hq, rfl, rfl⟩

theorem shows_seq_skip_iff {k : Terminal} : Shows (.seq p (.token k false)) ts cs ↔
    ∃ us t, Shows p us cs ∧ t.kind = k ∧ ts = us ++ [t] := by
  rw [shows_seq_iff]
  constructor
  · rintro ⟨us, _, ds, _, hp, hskip, rfl, rfl⟩
    obtain ⟨t, rfl, rfl, ht⟩ := shows_skip_iff.mp hskip
    exact ⟨us, t, by rwa [List.append_nil], ht, rfl⟩
  · rintro ⟨us, t, hp, ht, rfl⟩
    exact ⟨us, [t], cs, [], hp, shows_skip_iff.mpr ⟨t, rfl, rfl, ht⟩, rfl,
      (List.append_nil cs).symm⟩

@[simp] theorem shows_alt_iff : Shows (.alt p q) ts cs ↔ Shows p ts cs ∨ Shows q ts cs := by
  constructor
  · intro h
    cases h with
    | first h => exact Or.inl h
    | second h => exact Or.inr h
  · rintro (h | h)
    · exact .first h
    · exact .second h

@[simp] theorem shows_optional_iff :
    Shows (.optional p) ts cs ↔ Shows p ts cs ∨ ts = [] ∧ cs = [] := by
  constructor
  · intro h
    cases h with
    | taken h => exact Or.inl h
    | omitted => exact Or.inr ⟨rfl, rfl⟩
  · rintro (h | ⟨rfl, rfl⟩)
    · exact .taken h
    · exact .omitted p

theorem shows_star_iff :
    Shows (.star p) ts cs ↔ ts = [] ∧ cs = [] ∨ ∃ us vs ds es, Shows p us ds ∧
      Shows (.star p) vs es ∧ ts = us ++ vs ∧ cs = ds ++ es := by
  constructor
  · intro h
    cases h with
    | none => exact Or.inl ⟨rfl, rfl⟩
    | more hfirst hrest => exact Or.inr ⟨_, _, _, _, hfirst, hrest, rfl, rfl⟩
  · rintro (⟨rfl, rfl⟩ | ⟨us, vs, ds, es, hfirst, hrest, rfl, rfl⟩)
    · exact .none p
    · exact .more hfirst hrest

theorem Shows.plus_inv (h : Shows (.plus p) ts cs) : ∃ us vs ds es, Shows p us ds ∧
    Shows (.star p) vs es ∧ ts = us ++ vs ∧ cs = ds ++ es := by
  cases h with
  | plus hfirst hrest => exact ⟨_, _, _, _, hfirst, hrest, rfl, rfl⟩

theorem Shows.star_append (h : Shows (.star p) ts cs) (hrest : Shows (.star p) us ds) :
    Shows (.star p) (ts ++ us) (cs ++ ds) := by
  generalize hp : Pattern.star p = q at h
  induction h with
  | none =>
      cases hp
      exact hrest
  | more hfirst _ _ ih =>
      cases hp
      rw [List.append_assoc, List.append_assoc]
      exact .more hfirst (ih rfl)
  | _ => cases hp

theorem Shows.plus_append (h : Shows (.plus p) ts cs) (hlast : Shows p us ds) :
    Shows (.plus p) (ts ++ us) (cs ++ ds) := by
  obtain ⟨xs, ys, as, bs, hfirst, hrest, rfl, rfl⟩ := h.plus_inv
  have hone := Shows.more hlast (.none p)
  rw [List.append_nil, List.append_nil] at hone
  rw [List.append_assoc, List.append_assoc]
  exact .plus hfirst (hrest.star_append hone)

theorem shows_node_iff {ps : List Nonterminal.Shape}
    (hn : n.production = Nonterminal.node [Nonterminal.plain ps]) :
    Shows (.rule n) ts cs ↔ ∃ ds loc, Shows (Nonterminal.sequence ps) ts ds ∧
      cs = [.node n loc ds] := by
  have hform : n.production.form = .node := by rw [hn]; rfl
  rw [shows_rule_iff, hn]
  constructor
  · rintro ⟨a, ha, ds, loc, h, rfl⟩
    obtain rfl := List.mem_singleton.mp ha
    exact ⟨ds, loc, h, Nonterminal.shown_of_node hform none loc ds⟩
  · rintro ⟨ds, loc, h, rfl⟩
    exact ⟨_, List.mem_singleton_self _, ds, loc, h,
      (Nonterminal.shown_of_node hform none loc ds).symm⟩

theorem shows_pair_iff (hn : n.production = Nonterminal.node [Nonterminal.plain [p, q]]) :
    Shows (.rule n) ts cs ↔ ∃ us vs ds es loc, Shows p us ds ∧ Shows q vs es ∧ ts = us ++ vs ∧
      cs = [.node n loc (ds ++ es)] := by
  rw [shows_node_iff hn]
  constructor
  · rintro ⟨_, loc, h, rfl⟩
    obtain ⟨us, vs, ds, es, hp, hq, rfl, rfl⟩ := shows_seq_iff.mp h
    exact ⟨us, vs, ds, es, loc, hp, hq, rfl, rfl⟩
  · rintro ⟨us, vs, ds, es, loc, hp, hq, rfl, rfl⟩
    exact ⟨ds ++ es, loc, .seq hp hq, rfl⟩

theorem Shows.length_eq_one (h : Shows (.rule n) ts cs)
    (hform : n.production.form ≠ .inlined) : cs.length = 1 := by
  obtain ⟨a, _, children, loc, _, rfl⟩ := shows_rule_iff.mp h
  exact Nonterminal.length_shown hform a.label loc children

variable {kinds others : List Terminal}

theorem derives_star_cons (hfirst : p.Derives Nonterminal.production kinds)
    (hrest : (Pattern.star p).Derives Nonterminal.production others) :
    (Pattern.star p).Derives Nonterminal.production (kinds ++ others) := by
  generalize hq : Pattern.star p = q at hrest
  induction hrest with
  | none =>
      cases hq
      have hone := Pattern.Derives.more (.none p) hfirst
      rwa [List.nil_append, ← List.append_nil kinds] at hone
  | more _ hlast ih =>
      cases hq
      rw [← List.append_assoc]
      exact .more (ih rfl) hlast
  | _ => cases hq

theorem derives_plus_cons (hfirst : p.Derives Nonterminal.production kinds)
    (hrest : (Pattern.star p).Derives Nonterminal.production others) :
    (Pattern.plus p).Derives Nonterminal.production (kinds ++ others) := by
  cases hrest with
  | none =>
      have hone := Pattern.Derives.plus (.none p) hfirst
      rwa [List.nil_append, ← List.append_nil kinds] at hone
  | more hsome hlast =>
      rw [← List.append_assoc]
      exact .plus (derives_star_cons hfirst hsome) hlast

theorem Shows.derives (h : Shows p ts cs) :
    p.Derives Nonterminal.production (ts.map (·.kind)) := by
  induction h with
  | empty => exact .empty
  | skipped t | kept t => exact .token t.kind _
  | rule ha _ _ ih => exact .rule ha ih
  | seq _ _ ihp ihq =>
      rw [List.map_append]
      exact .seq ihp ihq
  | first _ ih => exact .first ih
  | second _ ih => exact .second ih
  | taken _ ih => exact .taken ih
  | omitted p => exact .omitted p
  | none p => exact .none p
  | more _ _ ihfirst ihrest =>
      rw [List.map_append]
      exact derives_star_cons ihfirst ihrest
  | plus _ _ ihfirst ihrest =>
      rw [List.map_append]
      exact derives_plus_cons ihfirst ihrest

/-- What symbols in a row show. -/
def ShowsAll : List (Grammar.Symbol Terminal Nonterminal) → List Token → List Concrete → Prop
  | [], ts, cs => ts = [] ∧ cs = []
  | s :: rest, ts, cs => ∃ us vs ds es, Shows s.pattern us ds ∧ ShowsAll rest vs es ∧
      ts = us ++ vs ∧ cs = ds ++ es

theorem showsAll_append {ss tt : List (Grammar.Symbol Terminal Nonterminal)}
    (h : ShowsAll (ss ++ tt) ts cs) : ∃ us vs ds es, ShowsAll ss us ds ∧ ShowsAll tt vs es ∧
      ts = us ++ vs ∧ cs = ds ++ es := by
  induction ss generalizing ts cs with
  | nil => exact ⟨[], ts, [], cs, ⟨rfl, rfl⟩, h, rfl, rfl⟩
  | cons s rest ih =>
      obtain ⟨us, vs, ds, es, hfirst, hrest, rfl, rfl⟩ := h
      obtain ⟨xs, ys, as, bs, hmore, hlast, rfl, rfl⟩ := ih hrest
      exact ⟨us ++ xs, ys, ds ++ as, bs, ⟨us, xs, ds, as, hfirst, hmore, rfl, rfl⟩, hlast,
        (List.append_assoc us xs ys).symm, (List.append_assoc ds as bs).symm⟩

theorem showsAll_singleton {s : Grammar.Symbol Terminal Nonterminal} (h : ShowsAll [s] ts cs) :
    Shows s.pattern ts cs := by
  obtain ⟨us, vs, ds, es, hfirst, ⟨rfl, rfl⟩, rfl, rfl⟩ := h
  rwa [List.append_nil, List.append_nil]

/-- A pattern shows what its plain alternatives show. -/
theorem shows_of_mem_expansions {symbols : List (Grammar.Symbol Terminal Nonterminal)}
    (hsymbols : symbols ∈ p.expansions) (h : ShowsAll symbols ts cs) : Shows p ts cs := by
  induction p generalizing symbols ts cs with
  | empty =>
      rw [List.mem_singleton.mp hsymbols] at h
      exact shows_empty_iff.mpr h
  | token t kept =>
      rw [List.mem_singleton.mp hsymbols] at h
      exact showsAll_singleton h
  | rule n =>
      rw [List.mem_singleton.mp hsymbols] at h
      exact showsAll_singleton h
  | seq p q ihp ihq =>
      obtain ⟨front, hfront, hjoined⟩ := List.mem_flatMap.mp hsymbols
      obtain ⟨back, hback, rfl⟩ := List.mem_map.mp hjoined
      obtain ⟨us, vs, ds, es, hus, hvs, rfl, rfl⟩ := showsAll_append h
      exact .seq (ihp hfront hus) (ihq hback hvs)
  | alt p q ihp ihq =>
      rcases List.mem_append.mp hsymbols with hfirst | hsecond
      · exact .first (ihp hfirst h)
      · exact .second (ihq hsecond h)
  | optional p ih =>
      rcases List.mem_append.mp hsymbols with htaken | homitted
      · exact .taken (ih htaken h)
      · rw [List.mem_singleton.mp homitted] at h
        obtain ⟨rfl, rfl⟩ := h
        exact .omitted p
  | star p _ =>
      rcases List.mem_pair.mp hsymbols with rfl | rfl
      · obtain ⟨us, vs, ds, es, hfirst, hrest, rfl, rfl⟩ := (showsAll_singleton h).plus_inv
        exact .more hfirst hrest
      · obtain ⟨rfl, rfl⟩ := h
        exact .none p
  | plus p _ =>
      rw [List.mem_singleton.mp hsymbols] at h
      exact showsAll_singleton h

theorem shows_assemble {rule : Rule Terminal Nonterminal} (hrule : rule ∈ grammar.rules)
    (loc : Option Location) (h : ShowsAll rule.symbols ts cs) :
    Shows (Grammar.Symbol.category rule.category).pattern ts (Concrete.assemble rule loc cs) := by
  rcases Grammar.mem_ofProductions_rules.mp hrule with ⟨n, _, hmem⟩ | ⟨p, _, hmem⟩
  · obtain ⟨hcategory, a, ha, hsymbols, hlabel⟩ := Grammar.mem_production_rules hmem
    rw [Concrete.assemble_named hcategory, hcategory, hlabel]
    exact .rule ha (shows_of_mem_expansions hsymbols h) loc
  · obtain ⟨hcategory, once, honce, hsymbols⟩ := Grammar.mem_pattern_rules hmem
    rw [Concrete.assemble, hcategory]
    rcases hsymbols with hsame | hagain
    · rw [hsame] at h
      have hplus := Shows.plus (shows_of_mem_expansions honce h) (.none p)
      rwa [List.append_nil, List.append_nil] at hplus
    · rw [hagain] at h
      obtain ⟨us, vs, ds, es, hsome, hlast, rfl, rfl⟩ := h
      exact hsome.plus_append (shows_of_mem_expansions honce hlast)

/-- What a derivation shows where a symbol is expected. -/
def Concrete.ofSymbol (tokens : List Token) :
    Grammar.Symbol Terminal Nonterminal → Derivation Terminal Nonterminal → List Concrete
  | .token _ false, _ => []
  | .token _ true, d | .category _, d => ofDerivation tokens d

variable {tokens : List Token}

theorem Concrete.ofChildren_cons (s : Grammar.Symbol Terminal Nonterminal)
    (more : List (Grammar.Symbol Terminal Nonterminal)) (d : Derivation Terminal Nonterminal)
    (rest : List (Derivation Terminal Nonterminal)) :
    ofChildren tokens (s :: more) (d :: rest) =
      ofSymbol tokens s d ++ ofChildren tokens more rest := by
  match s with
  | .token _ false => simp [ofChildren, ofSymbol]
  | .token _ true | .category _ => simp [ofChildren, ofSymbol]

mutual

theorem shows_of_reads {d : Derivation Terminal Nonterminal}
    {s : Grammar.Symbol Terminal Nonterminal} {i j : Nat}
    (h : d.Reads grammar (tokens.map (·.kind)) s i j) :
    Shows s.pattern (between tokens i j) (Concrete.ofSymbol tokens s d) := by
  cases d with
  | token position =>
      rw [Derivation.Reads, List.getElem?_map] at h
      obtain ⟨rfl, rfl, t, kept, rfl, htoken⟩ := h
      obtain ⟨x, hx, rfl⟩ := Option.map_eq_some_iff.mp htoken
      have hone : between tokens position (position + 1) = [x] := by
        obtain ⟨hlt, rfl⟩ := List.getElem?_eq_some_iff.mp hx
        rw [between, Nat.add_sub_cancel_left, List.drop_eq_getElem_cons hlt]
        rfl
      rw [hone]
      cases kept with
      | false => exact .skipped x
      | true =>
          rw [Concrete.ofSymbol, Concrete.ofDerivation, hx]
          exact .kept x
  | node rule children =>
      obtain ⟨rfl, hrule, hchildren⟩ := Derivation.reads_node_iff.mp h
      rw [Concrete.ofSymbol, Concrete.ofDerivation]
      exact shows_assemble hrule _ (showsAll_of_readAll hchildren)

/-- What derivations in a row show is shown by the patterns of their symbols. -/
theorem showsAll_of_readAll {children : List (Derivation Terminal Nonterminal)}
    {symbols : List (Grammar.Symbol Terminal Nonterminal)} {i j : Nat}
    (h : Derivation.ReadAll grammar (tokens.map (·.kind)) children symbols i j) :
    ShowsAll symbols (between tokens i j) (Concrete.ofChildren tokens symbols children) := by
  cases children with
  | nil =>
      obtain ⟨rfl, rfl⟩ := Derivation.readAll_nil_iff.mp h
      exact ⟨by simp [between], by simp [Concrete.ofChildren]⟩
  | cons d rest =>
      obtain ⟨s, more, middle, rfl, hfirst, hrest⟩ := Derivation.readAll_cons_iff.mp h
      rw [Concrete.ofChildren_cons]
      exact ⟨_, _, _, _, shows_of_reads hfirst, showsAll_of_readAll hrest,
        Grammar.between_append hfirst.le hrest.le, rfl⟩

end

end HostBindings.Source

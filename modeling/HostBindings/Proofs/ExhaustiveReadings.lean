import HostBindings.Proofs.DeclarationGrammar
import HostBindings.Source.Reader

/-!
All readings of a token sequence, found by search. A category is searched rule by rule; the rules
that start with their own category go on from what the others have read. A search that comes to an
end has found every reading, so what holds of all that it found holds of the derivation that a
chart gives.
-/

namespace HostBindings

namespace Grammar

/-- What is found for the members of a list, if the search ends for each of them. -/
def gather {α β : Type} (f : α → Option (List β)) : List α → Option (List β)
  | [] => some []
  | a :: rest => do return (← f a) ++ (← gather f rest)

theorem gather_cons_eq_some {α β : Type} {f : α → Option (List β)} {a : α} {rest : List α}
    {found : List β} (h : gather f (a :: rest) = some found) :
    ∃ first later, f a = some first ∧ gather f rest = some later ∧ found = first ++ later := by
  rw [gather] at h
  obtain ⟨first, hfirst, hrest⟩ := Option.bind_eq_some_iff.mp h
  obtain ⟨later, hlater, hfound⟩ := Option.bind_eq_some_iff.mp hrest
  exact ⟨first, later, hfirst, hlater, (Option.some.inj hfound).symm⟩

theorem mem_gather {α β : Type} {f : α → Option (List β)} {l : List α} {found : List β}
    (h : gather f l = some found) (b : β) :
    b ∈ found ↔ ∃ a ∈ l, ∃ bs, f a = some bs ∧ b ∈ bs := by
  induction l generalizing found with
  | nil =>
      obtain rfl : [] = found := Option.some.inj h
      simp
  | cons a rest ih =>
      obtain ⟨first, later, hfirst, hlater, rfl⟩ := gather_cons_eq_some h
      rw [List.mem_append, ih hlater]
      simp [hfirst]

theorem exists_of_gather {α β : Type} {f : α → Option (List β)} {l : List α} {found : List β}
    (h : gather f l = some found) {a : α} (ha : a ∈ l) : ∃ bs, f a = some bs := by
  induction l generalizing found with
  | nil => cases ha
  | cons b rest ih =>
      obtain ⟨first, later, hfirst, hlater, _⟩ := gather_cons_eq_some h
      rcases List.mem_cons.mp ha with rfl | hrest
      · exact ⟨first, hfirst⟩
      · exact ih hlater hrest

/-- What can be reached from the members of a list. -/
def grow {α : Type} (extend : α → Option (List α)) : Nat → List α → Option (List α)
  | _, [] => some []
  | 0, _ :: _ => none
  | fuel + 1, x :: rest => do return x :: (← grow extend fuel (rest ++ (← extend x)))

theorem grow_cons_eq_some {α : Type} {extend : α → Option (List α)} {fuel : Nat} {x : α}
    {rest grown : List α} (h : grow extend (fuel + 1) (x :: rest) = some grown) :
    ∃ more later, extend x = some more ∧ grow extend fuel (rest ++ more) = some later ∧
      grown = x :: later := by
  rw [grow] at h
  obtain ⟨more, hmore, hrest⟩ := Option.bind_eq_some_iff.mp h
  obtain ⟨later, hlater, hgrown⟩ := Option.bind_eq_some_iff.mp hrest
  exact ⟨more, later, hmore, hlater, (Option.some.inj hgrown).symm⟩

/-- What is reached holds the list, is closed under the steps, and keeps what the steps keep. -/
theorem grow_spec {α : Type} {extend : α → Option (List α)} {fuel : Nat} {work grown : List α}
    (h : grow extend fuel work = some grown) :
    (∀ x ∈ work, x ∈ grown) ∧
    (∀ x ∈ grown, ∃ more, extend x = some more ∧ ∀ y ∈ more, y ∈ grown) ∧
    ∀ Q : α → Prop, (∀ x ∈ work, Q x) →
      (∀ x more, Q x → extend x = some more → ∀ y ∈ more, Q y) → ∀ x ∈ grown, Q x := by
  induction fuel generalizing work grown with
  | zero =>
      cases work with
      | nil =>
          obtain rfl : [] = grown := Option.some.inj h
          simp
      | cons x rest => cases h
  | succ fuel ih =>
      cases work with
      | nil =>
          obtain rfl : [] = grown := Option.some.inj h
          simp
      | cons x rest =>
          obtain ⟨more, later, hmore, hlater, rfl⟩ := grow_cons_eq_some h
          obtain ⟨hwork, hclosed, hkept⟩ := ih hlater
          refine ⟨?_, ?_, ?_⟩
          · rintro y hy
            rcases List.mem_cons.mp hy with rfl | hrest
            · exact List.mem_cons_self
            · exact List.mem_cons_of_mem _ (hwork y (List.mem_append_left _ hrest))
          · rintro y hy
            rcases List.mem_cons.mp hy with rfl | hin
            · refine ⟨more, hmore, fun z hz => ?_⟩
              exact List.mem_cons_of_mem _ (hwork z (List.mem_append_right _ hz))
            · obtain ⟨next, hnext, hall⟩ := hclosed y hin
              exact ⟨next, hnext, fun z hz => List.mem_cons_of_mem _ (hall z hz)⟩
          · intro Q hQ hstep y hy
            have hx : Q x := hQ x List.mem_cons_self
            rcases List.mem_cons.mp hy with rfl | hin
            · exact hx
            · refine hkept Q (fun z hz => ?_) hstep y hin
              rcases List.mem_append.mp hz with hrest | hnew
              · exact hQ z (List.mem_cons_of_mem _ hrest)
              · exact hstep x more hx hmore z hnew

variable {T N : Type}

/-- The readings of symbols in a row from a position on, each with the position where it ends. -/
def searchAll (search : Symbol T N → Nat → Option (List (Derivation T N × Nat))) :
    List (Symbol T N) → Nat → Option (List (List (Derivation T N) × Nat))
  | [], start => some [([], start)]
  | s :: rest, start => do
    gather (fun x => (searchAll search rest x.2).map (·.map fun y => (x.1 :: y.1, y.2)))
      (← search s start)

/-- The readings by rules of which the front was read up to a position. -/
def completions (search : Symbol T N → Nat → Option (List (Derivation T N × Nat)))
    (rules : List (Rule T N)) (front : List (Derivation T N)) (position : Nat) :
    Option (List (Derivation T N × Nat)) :=
  gather (fun r => (searchAll search (r.symbols.drop front.length) position).map
    (·.map fun x => (.node r (front ++ x.1), x.2))) rules

variable [DecidableEq T] [DecidableEq N]

/-- The readings of a symbol from a position on, unless the search goes too deep. -/
def search (rulesOf : Category T N → List (Rule T N)) (tokens : List T) :
    Nat → Symbol T N → Nat → Option (List (Derivation T N × Nat))
  | 0, _, _ => none
  | _ + 1, .token t _, start =>
    some (if tokens[start]? = some t then [(.token start, start + 1)] else [])
  | fuel + 1, .category c, start => do
    let leads (r : Rule T N) : Bool := r.symbols.head? = some (.category c)
    grow (fun x => completions (search rulesOf tokens fuel) ((rulesOf c).filter leads) [x.1] x.2)
      (tokens.length + 1)
      (← completions (search rulesOf tokens fuel) ((rulesOf c).filter (!leads ·)) [] start)

/-- A search that finds the readings of a symbol, all of them and no others. -/
def Finds (g : RuleSet T N) (tokens : List T)
    (search : Symbol T N → Nat → Option (List (Derivation T N × Nat))) : Prop :=
  ∀ s start found, search s start = some found →
    ∀ d stop, (d, stop) ∈ found ↔ d.Reads g tokens s start stop

variable {g : RuleSet T N} {tokens : List T}

omit [DecidableEq T] [DecidableEq N] in
theorem Finds.mem_searchAll {search : Symbol T N → Nat → Option (List (Derivation T N × Nat))}
    (h : Finds g tokens search) {symbols : List (Symbol T N)} {start : Nat}
    {found : List (List (Derivation T N) × Nat)}
    (hfound : searchAll search symbols start = some found) (ds : List (Derivation T N))
    (stop : Nat) : (ds, stop) ∈ found ↔ Derivation.ReadAll g tokens ds symbols start stop := by
  induction symbols generalizing start found ds with
  | nil =>
      obtain rfl : [([], start)] = found := Option.some.inj hfound
      cases ds with
      | nil => simp [eq_comm]
      | cons d rest => simp
  | cons s rest ih =>
      rw [searchAll] at hfound
      obtain ⟨firsts, hfirsts, hall⟩ := Option.bind_eq_some_iff.mp hfound
      rw [mem_gather hall]
      constructor
      · rintro ⟨⟨d, middle⟩, hd, bs, hbs, hmem⟩
        obtain ⟨ends, hends, rfl⟩ := Option.map_eq_some_iff.mp hbs
        obtain ⟨⟨es, last⟩, hes, heq⟩ := List.mem_map.mp hmem
        obtain ⟨rfl, rfl⟩ := Prod.mk.inj heq
        exact Derivation.readAll_cons_iff.mpr
          ⟨s, rest, middle, rfl, (h _ _ _ hfirsts d middle).mp hd, (ih hends es).mp hes⟩
      · intro hread
        cases ds with
        | nil => exact absurd (Derivation.readAll_nil_iff.mp hread).1 (List.cons_ne_nil _ _)
        | cons d es =>
            obtain ⟨_, _, middle, hcons, hd, hes⟩ := Derivation.readAll_cons_iff.mp hread
            obtain ⟨rfl, rfl⟩ := List.cons.inj hcons
            have hfirst := (h _ _ _ hfirsts d middle).mpr hd
            obtain ⟨bs, hbs⟩ := exists_of_gather hall hfirst
            obtain ⟨ends, hends, rfl⟩ := Option.map_eq_some_iff.mp hbs
            exact ⟨_, hfirst, _, hbs, List.mem_map.mpr ⟨_, (ih hends es).mpr hes, rfl⟩⟩

omit [DecidableEq T] [DecidableEq N] in
theorem Finds.mem_completions {search : Symbol T N → Nat → Option (List (Derivation T N × Nat))}
    (h : Finds g tokens search) {rules : List (Rule T N)} {front : List (Derivation T N)}
    {position : Nat} {found : List (Derivation T N × Nat)}
    (hfound : completions search rules front position = some found) (d : Derivation T N)
    (stop : Nat) : (d, stop) ∈ found ↔ ∃ r ∈ rules, ∃ ds, d = .node r (front ++ ds) ∧
      Derivation.ReadAll g tokens ds (r.symbols.drop front.length) position stop := by
  rw [completions] at hfound
  rw [mem_gather hfound]
  constructor
  · rintro ⟨r, hr, bs, hbs, hmem⟩
    obtain ⟨ends, hends, rfl⟩ := Option.map_eq_some_iff.mp hbs
    obtain ⟨⟨ds, last⟩, hds, heq⟩ := List.mem_map.mp hmem
    obtain ⟨rfl, rfl⟩ := Prod.mk.inj heq
    exact ⟨r, hr, ds, rfl, (h.mem_searchAll hends ds last).mp hds⟩
  · rintro ⟨r, hr, ds, rfl, hread⟩
    obtain ⟨bs, hbs⟩ := exists_of_gather hfound hr
    obtain ⟨ends, hends, rfl⟩ := Option.map_eq_some_iff.mp hbs
    exact ⟨r, hr, _, hbs, List.mem_map.mpr ⟨_, (h.mem_searchAll hends ds stop).mpr hread, rfl⟩⟩

omit [DecidableEq T] [DecidableEq N] in
theorem mem_of_closed {c : Category T N} {start : Nat} {found : List (Derivation T N × Nat)}
    (hother : ∀ r ∈ g.rules, r.category = c → r.symbols.head? ≠ some (.category c) →
      ∀ ds stop, Derivation.ReadAll g tokens ds r.symbols start stop → (.node r ds, stop) ∈ found)
    (hown : ∀ r ∈ g.rules, r.category = c → r.symbols.head? = some (.category c) →
      ∀ d middle, (d, middle) ∈ found → ∀ ds stop,
        Derivation.ReadAll g tokens ds r.symbols.tail middle stop →
          (.node r (d :: ds), stop) ∈ found) :
    ∀ d stop, d.Reads g tokens (.category c) start stop → (d, stop) ∈ found
  | .token position, stop, h => by
      rw [Derivation.Reads] at h
      obtain ⟨_, _, t, kept, hsymbol, _⟩ := h
      cases hsymbol
  | .node r [], stop, h => by
      obtain ⟨hcategory, hr, hall⟩ := Derivation.reads_node_iff.mp h
      refine hother r hr (Symbol.category.inj hcategory).symm ?_ [] stop hall
      rw [(Derivation.readAll_nil_iff.mp hall).1]
      exact nofun
  | .node r (d :: ds), stop, h => by
      obtain ⟨hcategory, hr, hall⟩ := Derivation.reads_node_iff.mp h
      have hc := (Symbol.category.inj hcategory).symm
      by_cases hhead : r.symbols.head? = some (.category c)
      · obtain ⟨s, more, middle, hsymbols, hd, hds⟩ := Derivation.readAll_cons_iff.mp hall
        rw [hsymbols, List.head?_cons] at hhead
        obtain rfl := Option.some.inj hhead
        refine hown r hr hc (by rw [hsymbols]; rfl) d middle
          (mem_of_closed hother hown d middle hd) ds stop ?_
        rwa [hsymbols]
      · exact hother r hr hc hhead _ stop hall

/-- A search that ends has found the readings. -/
theorem finds_search {rulesOf : Category T N → List (Rule T N)}
    (hrules : ∀ c r, r ∈ rulesOf c ↔ r ∈ g.rules ∧ r.category = c) (fuel : Nat) :
    Finds g tokens (search rulesOf tokens fuel) := by
  induction fuel with
  | zero => exact fun s start found hfound => by cases hfound
  | succ fuel ih =>
      intro s start found hfound d stop
      cases s with
      | token t kept =>
          obtain rfl := Option.some.inj hfound
          constructor
          · intro hmem
            split at hmem
            · obtain ⟨rfl, rfl⟩ := Prod.mk.inj (List.mem_singleton.mp hmem)
              rw [Derivation.Reads]
              exact ⟨rfl, rfl, t, kept, rfl, ‹_›⟩
            · cases hmem
          · intro hread
            cases d with
            | token position =>
                rw [Derivation.Reads] at hread
                obtain ⟨rfl, rfl, u, _, hsymbol, hu⟩ := hread
                obtain ⟨rfl, _⟩ := Symbol.token.inj hsymbol
                rw [if_pos hu]
                exact List.mem_singleton_self _
            | node r children => cases (Derivation.reads_node_iff.mp hread).1
      | category c =>
          rw [search] at hfound
          obtain ⟨firsts, hfirsts, hgrown⟩ := Option.bind_eq_some_iff.mp hfound
          obtain ⟨hwork, hclosed, hkept⟩ := grow_spec hgrown
          constructor
          · refine hkept (fun x => x.1.Reads g tokens (.category c) start x.2) ?_ ?_ (d, stop)
            · rintro ⟨e, middle⟩ he
              obtain ⟨r, hr, ds, rfl, hread⟩ := (ih.mem_completions hfirsts e middle).mp he
              obtain ⟨hmem, rfl⟩ := (hrules c r).mp (List.mem_filter.mp hr).1
              exact Derivation.reads_node_iff.mpr ⟨rfl, hmem, hread⟩
            · rintro ⟨e, middle⟩ more he hmore ⟨f, last⟩ hf
              obtain ⟨r, hr, ds, rfl, hread⟩ := (ih.mem_completions hmore f last).mp hf
              obtain ⟨hin, hleads⟩ := List.mem_filter.mp hr
              obtain ⟨hmem, rfl⟩ := (hrules c r).mp hin
              obtain ⟨tail, htail⟩ := List.head?_eq_some_iff.mp (of_decide_eq_true hleads)
              refine Derivation.reads_node_iff.mpr ⟨rfl, hmem, ?_⟩
              rw [htail] at hread ⊢
              exact Derivation.readAll_cons_iff.mpr ⟨_, tail, middle, rfl, he, hread⟩
          · refine mem_of_closed ?_ ?_ d stop
            · intro r hr hcategory hhead ds last hread
              refine hwork _ ((ih.mem_completions hfirsts _ last).mpr ⟨r, ?_, ds, rfl, hread⟩)
              simp [(hrules c r).mpr ⟨hr, hcategory⟩, hhead]
            · intro r hr hcategory hhead e middle he ds last hread
              obtain ⟨more, hmore, hall⟩ := hclosed _ he
              refine hall _ ((ih.mem_completions hmore _ last).mpr ⟨r, ?_, ds, rfl, ?_⟩)
              · simp [(hrules c r).mpr ⟨hr, hcategory⟩, hhead]
              · simpa using hread

end Grammar

namespace Source

open Grammar

/-- The rules of a category, taken from its production or repetition alone. -/
def rulesOf : Category Terminal Nonterminal → List (Rule Terminal Nonterminal)
  | .named n => n.production.rules n
  | .repeated p =>
    if p ∈ repetitionsOf Nonterminal.all Nonterminal.production then p.rules else []

theorem mem_rulesOf (c : Category Terminal Nonterminal) (r : Rule Terminal Nonterminal) :
    r ∈ rulesOf c ↔ r ∈ grammar.rules ∧ r.category = c := by
  cases c with
  | named n =>
      constructor
      · intro hr
        obtain ⟨hcategory, a, ha, _⟩ := mem_production_rules hr
        have hn := mem_all_of_alternatives n (List.ne_nil_of_mem ha)
        exact ⟨mem_ofProductions_rules.mpr (Or.inl ⟨n, hn, hr⟩), hcategory⟩
      · exact fun h => mem_rules_named h.1 h.2
  | repeated p =>
      rw [rulesOf]
      constructor
      · intro hr
        split at hr
        · obtain ⟨hcategory, _⟩ := mem_pattern_rules hr
          exact ⟨mem_ofProductions_rules.mpr (Or.inr ⟨p, ‹_›, hr⟩), hcategory⟩
        · cases hr
      · rintro ⟨hr, hcategory⟩
        rcases mem_ofProductions_rules.mp hr with ⟨n, _, hn⟩ | ⟨q, hq, hrule⟩
        · cases (mem_production_rules hn).1.symm.trans hcategory
        · obtain rfl := Category.repeated.inj ((mem_pattern_rules hrule).1.symm.trans hcategory)
          rwa [if_pos hq]

/-- Whether the tokens have readings as a source file and all of them pass a test. -/
def allReadings (test : Derivation Terminal Nonterminal → Bool) (fuel : Nat)
    (kinds : List Terminal) : Bool :=
  match search rulesOf kinds fuel (.category (.named .sourceFile)) 0 with
  | none => false
  | some found =>
    let whole := found.filter (·.2 = kinds.length)
    !whole.isEmpty && whole.all (test ·.1)

theorem exists_derive_of_allReadings {test : Derivation Terminal Nonterminal → Bool} {fuel : Nat}
    {kinds : List Terminal} (h : allReadings test fuel kinds = true) :
    ∃ d, derive kinds = .derived d ∧ test d = true := by
  rw [allReadings] at h
  split at h
  · cases h
  · rename_i found hfound
    have hfinds : Finds grammar kinds (search rulesOf kinds fuel) := finds_search mem_rulesOf fuel
    have hmem := hfinds _ _ _ hfound
    simp only [Bool.and_eq_true, Bool.not_eq_true', List.isEmpty_eq_false_iff_exists_mem,
      List.all_eq_true, List.mem_filter, decide_eq_true_eq] at h
    obtain ⟨⟨⟨reading, stop⟩, hreading, hstop⟩, hall⟩ := h
    dsimp only at hstop
    subst hstop
    rcases derive_cases kinds with ⟨d, hd, hreads, _⟩ | ⟨hnone, _⟩
    · exact ⟨d, hd, hall _ ⟨(hmem d _).mpr hreads, rfl⟩⟩
    · refine absurd ?_ hnone
      apply (exists_reads_iff_derives mem_all_of_alternatives).mp
      exact ⟨reading, (hmem reading _).mp hreading⟩

/-- What all readings of the tokens of a text have in common holds of the one that is parsed. -/
theorem parse_of_allReadings (file : Option Text) {source : Text}
    {test : Derivation Terminal Nonterminal → Bool} {fuel : Nat}
    (hstop : (Tokens.ofText source).stop = none)
    (h : allReadings test fuel ((Tokens.ofText source).tokens.map (·.kind)) = true) :
    ∃ d, Module.parse file source =
      (Reader.module (Concrete.ofDerivation (Tokens.ofText source).tokens d)).map .ok ∧
        test d = true := by
  obtain ⟨d, hd, htest⟩ := exists_derive_of_allReadings h
  refine ⟨d, ?_, htest⟩
  rw [Module.parse, hd, hstop]

end Source

end HostBindings

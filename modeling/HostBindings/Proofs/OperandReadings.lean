import HostBindings.Proofs.ListReadings

/-!
The operands of types: names with their arguments, tuples and types in parentheses, and what may
follow them in brackets. An operand is a first form and any number of suffixes, so the tokens of an
operand that stand before a bracket are settled only as the beginning of what is read.
-/

namespace HostBindings.Source

open Nonterminal (alternativesAt plain rule keep skip)

variable {n : Nonterminal} {us v w r r' : List Token} {t : Token} {cs : List Concrete}

theorem shows_identifier (ht : t.kind = .name) (h : Shows (.rule .identifier) (t :: v) cs) :
    v = [] ∧ ∃ loc, cs = [.node .identifier loc [.token t]] := by
  obtain ⟨a, ha, children, loc, hshows, rfl⟩ := h.exists_alternative
  rw [ht, show alternativesAt .identifier .name = [plain [keep .name]] from rfl] at ha
  obtain rfl := List.mem_singleton.mp ha
  obtain ⟨x, hx, rfl, _⟩ := shows_keep_iff.mp hshows
  obtain ⟨rfl, rfl⟩ := List.cons.inj hx
  exact ⟨rfl, loc, rfl⟩

theorem isShownBy_identifier (loc : Option Location) :
    (Phrase.name t.text).IsShownBy (.node .identifier loc [.token t]) :=
  ⟨rfl, rfl⟩

theorem shows_name (ht : t.kind = .name) :
    Shows (.rule .identifier) [t] [.node .identifier none [.token t]] := by
  have hkept := Shows.kept t
  rw [ht] at hkept
  exact .rule (a := plain [keep .name]) List.mem_cons_self hkept none

theorem settled_name (ht : t.kind = .name) : Settled (.name t.text) [t] where
  opens := ⟨t, [], rfl, List.mem_singleton.mpr ht⟩
  shown := ⟨_, shows_name ht⟩
  only {r v r' cs} heq _ _ hv := by
    obtain ⟨rest, rfl, hrest⟩ := hv.exists_cons rfl heq
    obtain ⟨rfl, loc, rfl⟩ := shows_identifier ht hv
    exact ⟨rfl, _, rfl, isShownBy_identifier loc⟩

theorem areItems_names (ws : List Text) :
    AreItems (.rule .identifier) [] [.name] (ws.map .name) := by
  intro i hi
  obtain ⟨w, _, rfl⟩ := List.mem_map.mp hi
  exact ⟨rfl, rfl, rfl, rfl⟩

theorem entity_of_forall₂ {segments : List Text}
    (h : List.Forall₂ Phrase.IsShownBy (segments.map .name) cs) (loc : Option Location) :
    (Reader.piece (.node .entityName loc cs)).value = .entity segments := by
  have hwords : ((Reader.pieces cs).nodes.filterMap fun p => (Reader.word p).toOption) =
      segments := by
    rw [List.forall₂_map_left_iff] at h
    induction h with
    | nil => rfl
    | @cons w c ws cs hfirst _ ih =>
        obtain ⟨hlabel, hvalue⟩ := hfirst
        have hnode : (Reader.piece c).isNode = true := by
          cases hpiece : Reader.piece c with
          | token =>
              rw [hpiece] at hlabel
              cases hlabel
          | node => rfl
        rw [Pieces.nodes] at ih ⊢
        rw [Reader.pieces, List.filter_cons_of_pos hnode, List.filterMap_cons, Reader.word, hvalue]
        exact congrArg (w :: ·) ih
  exact congrArg Value.entity hwords

theorem shows_entityName_iff : Shows (.rule .entityName) v cs ↔ ∃ x y ds es loc,
    Shows (.rule .identifier) x ds ∧ Shows (followers .dot (.rule .identifier)) y es ∧
      v = x ++ y ∧ cs = [.node .entityName loc (ds ++ es)] :=
  shows_pair_iff rfl

theorem entityName_only {segments : List Text} (hne : segments ≠ [])
    (h : AllSettled .dot (segments.map .name) us) (heq : us ++ r = v ++ r')
    (hr : Stops [.dot] r) (hr' : Stops [.dot] r') (hv : Shows (.rule .entityName) v cs) :
    v = us ∧ ∃ c, cs = [c] ∧ (Reader.piece c).isLabelled .entityName = true ∧
      (Reader.piece c).value = .entity segments := by
  obtain ⟨first, rest, rfl⟩ := List.exists_cons_of_ne_nil hne
  obtain ⟨x, y, ds, es, loc, hx, hy, rfl, rfl⟩ := shows_entityName_iff.mp hv
  rw [List.append_assoc] at heq
  obtain ⟨rfl, hshown, _⟩ := h.only (areItems_names (first :: rest)) (by decide) heq hx hy hr
    (hr'.mono (List.nil_subset _)) fun t _ _ hcons ht => by
      rw [hcons, stops_cons_iff, ht] at hr'
      exact absurd List.mem_cons_self hr'
  rw [← List.map_cons] at hshown
  exact ⟨rfl, _, rfl, rfl, entity_of_forall₂ hshown loc⟩

theorem shows_entityName {segments : List Text} (hne : segments ≠ [])
    (h : AllSettled .dot (segments.map .name) us) : ∃ cs, Shows (.rule .entityName) us cs := by
  obtain ⟨first, rest, rfl⟩ := List.exists_cons_of_ne_nil hne
  obtain ⟨x, y, ds, es, rfl, hx, hy, _⟩ := h.shown (areItems_names (first :: rest))
  exact ⟨_, shows_entityName_iff.mpr ⟨x, y, ds, es, none, hx, hy, rfl, rfl⟩⟩

theorem areItems_types (level : TypeLevel) (ts : List TypeExpr) :
    AreItems (.rule level.category) level.goesOn [.name, .openParen, .openBracket]
      (ts.map (.type level)) := by
  intro i hi
  obtain ⟨t, _, rfl⟩ := List.mem_map.mp hi
  exact ⟨rfl, rfl, rfl, rfl⟩

/-- The tokens of the arguments of a reference, with the marks around them. -/
inductive ArgumentsSettled : List TypeExpr → List Token → Prop
  | omitted : ArgumentsSettled [] []
  | given {first : TypeExpr} {rest : List TypeExpr} {us : List Token} {less greater : Token}
      (hless : less.kind = .less)
      (h : AllSettled .comma ((first :: rest).map (.type .whole)) us)
      (hgreater : greater.kind = .greater) :
      ArgumentsSettled (first :: rest) (less :: (us ++ [greater]))

theorem shows_enclosed_iff {opening closing : Terminal} {p : Nonterminal.Shape}
    (hn : n.production = Nonterminal.node [plain [skip opening, p, skip closing]]) :
    Shows (.rule n) v cs ↔ ∃ o x c ds loc, o.kind = opening ∧ Shows p x ds ∧ c.kind = closing ∧
      v = o :: (x ++ [c]) ∧ cs = [.node n loc ds] := by
  rw [shows_node_iff hn]
  constructor
  · rintro ⟨ds, loc, h, rfl⟩
    obtain ⟨o, _, ho, hrest, rfl⟩ := shows_skip_seq_iff.mp h
    obtain ⟨x, c, hx, hc, rfl⟩ := shows_seq_skip_iff.mp hrest
    exact ⟨o, x, c, ds, loc, ho, hx, hc, rfl, rfl⟩
  · rintro ⟨o, x, c, ds, loc, ho, hx, hc, rfl, rfl⟩
    exact ⟨ds, loc, shows_skip_seq_iff.mpr
      ⟨o, _, ho, shows_seq_skip_iff.mpr ⟨x, c, hx, hc, rfl⟩, rfl⟩, rfl⟩

theorem ArgumentsSettled.shows {args : List TypeExpr} (h : ArgumentsSettled args us) :
    ∃ cs, Shows (.optional (.rule .typeArguments)) us cs := by
  cases h with
  | omitted => exact ⟨[], .omitted _⟩
  | @given first rest us less greater hless h hgreater =>
      obtain ⟨ds, hds⟩ := h.shows_list (areItems_types .whole (first :: rest))
      exact ⟨_, .taken ((shows_enclosed_iff rfl).mpr
        ⟨less, us, greater, ds, none, hless, hds, hgreater, rfl, rfl⟩)⟩

theorem ArgumentsSettled.stops {args : List TypeExpr} (h : ArgumentsSettled args us)
    (hr : Stops [.dot] r) : Stops [.dot] (us ++ r) := by
  cases h with
  | omitted => exact hr
  | given hless _ _ =>
      rw [List.cons_append, stops_cons_iff, hless]
      decide

theorem ArgumentsSettled.only {args : List TypeExpr} (h : ArgumentsSettled args us)
    (heq : us ++ r = v ++ r') (hr : Stops [.less] r) (hr' : Stops [.less] r')
    (hv : Shows (.optional (.rule .typeArguments)) v cs) :
    v = us ∧ (args = [] ∧ cs = [] ∨ ∃ c, cs = [c] ∧
      (Reader.piece c).isLabelled .typeArguments = true ∧
        ∃ args', (Reader.piece c).value = .types (.ok args') ∧
          args'.map TypeExpr.bare = args.map TypeExpr.bare) := by
  cases h with
  | omitted =>
      obtain ⟨rfl, rfl⟩ := hv.omitted_of_stops rfl rfl (r := r') (by rw [← heq]; exact hr)
      exact ⟨rfl, Or.inl ⟨rfl, rfl⟩⟩
  | @given first rest us less greater hless h hgreater =>
      rcases shows_optional_iff.mp hv with htaken | ⟨rfl, _⟩
      · obtain ⟨less', x, greater', ds, loc, _, hx, hgreater', rfl, rfl⟩ :=
          (shows_enclosed_iff rfl).mp htaken
        rw [List.cons_append, List.cons_append, List.append_assoc, List.append_assoc] at heq
        obtain ⟨rfl, hinner⟩ := List.cons.inj heq
        obtain ⟨rfl, hshown⟩ := h.list_only (areItems_types .whole (first :: rest)) (by decide)
          (by rw [hgreater]; decide) (hgreater'.trans hgreater.symm) hinner hx
        obtain ⟨rfl, _⟩ := List.cons.inj (List.append_cancel_left hinner)
        rw [← List.map_cons, List.forall₂_map_left_iff] at hshown
        obtain ⟨args', hargs, hbare⟩ := Reader.allTypes_of_forall₂ hshown
        exact ⟨rfl, Or.inr ⟨_, rfl, rfl, args', congrArg Value.types hargs, hbare⟩⟩
      · rw [List.nil_append] at heq
        rw [← heq, List.cons_append, stops_cons_iff, hless] at hr'
        exact absurd List.mem_cons_self hr'

theorem shows_typeReference_iff : Shows (.rule .typeReference) v cs ↔ ∃ x y ds es loc,
    Shows (.rule .entityName) x ds ∧ Shows (.optional (.rule .typeArguments)) y es ∧
      v = x ++ y ∧ cs = [.node .typeReference loc (ds ++ es)] :=
  shows_pair_iff rfl

theorem Reader.entity_of_value {p : Piece} {segments : List Text}
    (h : p.value = .entity segments) : Reader.entity p = .ok segments := by
  rw [Reader.entity, h]

theorem Reader.typeReference_pieces {c : Concrete} {segments : List Text}
    (hlabel : (Reader.piece c).isLabelled .entityName = true)
    (hvalue : (Reader.piece c).value = .entity segments) (loc : Option Location) :
    Reader.typeReference loc (Reader.pieces [c]) = Reader.reference segments [] loc ∧
    ∀ {d args}, (Reader.piece d).isLabelled .typeArguments = true →
      (Reader.piece d).value = .types (.ok args) →
      Reader.typeReference loc (Reader.pieces [c, d]) = Reader.reference segments args loc := by
  have hother : (Reader.piece c).isLabelled .typeArguments = false := by
    cases hpiece : Reader.piece c with
    | token => rfl
    | node label =>
        rw [hpiece] at hlabel
        rw [Piece.isLabelled, of_decide_eq_true hlabel]
        rfl
  have hsegments : ∀ ds, Reader.segmentsOf (Reader.pieces (c :: ds)) = .ok segments := by
    intro ds
    rw [Reader.segmentsOf, Pieces.find, Reader.pieces, List.find?_cons_of_pos hlabel]
    exact Reader.entity_of_value hvalue
  constructor
  · rw [Reader.typeReference, hsegments, Reader.argsOf, Pieces.find, Reader.pieces, Reader.pieces,
      List.find?_cons_of_neg (by rw [hother]; decide)]
    rfl
  · intro d args hd hargs
    have htypes : Reader.types (Reader.piece d) = .ok args := by rw [Reader.types, hargs]
    have hfound : Reader.argsOf (Reader.pieces [c, d]) = .ok args := by
      rw [Reader.argsOf, Pieces.find, Reader.pieces, Reader.pieces,
        List.find?_cons_of_neg (by rw [hother]; decide), List.find?_cons_of_pos hd]
      show (do let found ← some <$> Reader.types (Reader.piece d); pure (found.getD [])) = _
      rw [htypes]
      rfl
    rw [Reader.typeReference, hsegments, hfound]
    rfl

/-- A first form that an operand may have, before anything that is no part of it. -/
structure SettledPrimary (t : TypeExpr) (us : List Token) : Prop where
  opens : ∃ x rest, us = x :: rest ∧ x.kind ∈ [Terminal.name, .openParen, .openBracket]
  shown : ∃ cs, Shows (.rule .primaryType) us cs
  only : ∀ {r v r' cs}, us ++ r = v ++ r' → Stops [.dot, .less] r → Stops [.dot, .less] r' →
    Shows (.rule .primaryType) v cs → v = us ∧ ∃ c, cs = [c] ∧ c.IsOfType t

theorem settledPrimary_reference {segments : List Text} {args : List TypeExpr} {t : TypeExpr}
    (hne : segments ≠ []) (hnames : AllSettled .dot (segments.map .name) us)
    (hargs : ArgumentsSettled args w)
    (hread : ∀ args' loc, args'.map TypeExpr.bare = args.map TypeExpr.bare →
      ∃ t', Reader.reference segments args' loc = .ok t' ∧ t'.bare = t.bare) :
    SettledPrimary t (us ++ w) := by
  obtain ⟨x, rest, hus, hx⟩ : ∃ x rest, us = x :: rest ∧ x.kind = .name := by
    obtain ⟨first, others, rfl⟩ := List.exists_cons_of_ne_nil hne
    obtain ⟨x, rest, rfl, hx⟩ := hnames.opens rfl
    exact ⟨x, rest, rfl, List.mem_singleton.mp hx⟩
  refine ⟨⟨x, rest ++ w, by rw [hus]; rfl, by rw [hx]; decide⟩, ?_, ?_⟩
  · obtain ⟨cs, hcs⟩ := shows_entityName hne hnames
    obtain ⟨ds, hds⟩ := hargs.shows
    have hreference :=
      shows_typeReference_iff.mpr ⟨us, w, cs, ds, none, hcs, hds, rfl, rfl⟩
    exact ⟨_, .rule (List.mem_of_getElem? (i := 1) rfl) hreference none⟩
  · intro r v r' cs heq hr hr' hv
    have hcons : x :: (rest ++ w ++ r) = v ++ r' := by rw [← heq, hus]; simp
    obtain ⟨more, rfl, _⟩ := hv.exists_cons rfl hcons
    obtain ⟨e, a, ds, es, loc, he, ha, hsplit, rfl⟩ := shows_typeReference_iff.mp
      (hv.through rfl (by decide) (by rw [hx]; rfl))
    rw [hsplit, List.append_assoc, List.append_assoc] at heq
    have hdots : Stops [.dot] (a ++ r') := by
      refine .append ?_ (hr'.mono (by decide))
      exact ha.stops rfl (by decide)
    obtain ⟨rfl, c, rfl, hlabel, hvalue⟩ := entityName_only hne hnames heq
      (hargs.stops (hr.mono (by decide))) hdots he
    obtain ⟨hplain, happlied⟩ := Reader.typeReference_pieces hlabel hvalue loc
    obtain ⟨rfl, hnone | ⟨d, rfl, hd, args', hargs', hbare⟩⟩ := hargs.only
      (List.append_cancel_left heq) (hr.mono (by decide)) (hr'.mono (by decide)) ha
    · obtain ⟨rfl, rfl⟩ := hnone
      obtain ⟨t', ht', hbare⟩ := hread [] loc rfl
      exact ⟨hsplit, _, rfl, t', hplain.trans ht', hbare⟩
    · obtain ⟨t', ht', hbare⟩ := hread args' loc hbare
      exact ⟨hsplit, _, rfl, t', (happlied hd hargs').trans ht', hbare⟩

theorem settledPrimary_paren {inner : TypeExpr} {o c : Token}
    (h : Settled (.type .whole inner) us) (ho : o.kind = .openParen) (hc : c.kind = .closeParen)
    (loc : Option Location) : SettledPrimary (.paren inner loc) (o :: (us ++ [c])) := by
  refine ⟨⟨o, _, rfl, by rw [ho]; decide⟩, ?_, ?_⟩
  · obtain ⟨ds, hds⟩ := h.shown
    have hparen : Shows (.rule .parenType) (o :: (us ++ [c])) _ :=
      (shows_enclosed_iff rfl).mpr ⟨o, us, c, ds, none, ho, hds, hc, rfl, rfl⟩
    exact ⟨_, .rule (List.mem_of_getElem? (i := 0) rfl) hparen none⟩
  · intro r v r' cs heq hr hr' hv
    obtain ⟨more, rfl, _⟩ := hv.exists_cons rfl heq
    obtain ⟨o', x, c', ds, loc', _, hx, hc', hsplit, rfl⟩ := (shows_enclosed_iff rfl).mp
      (hv.through rfl (by decide) (by rw [ho]; rfl) : Shows (.rule .parenType) _ _)
    rw [hsplit, List.cons_append, List.cons_append, List.append_assoc, List.append_assoc] at heq
    obtain ⟨rfl, hinner⟩ := List.cons.inj heq
    have hstops : ∀ {x : Token} {xs : List Token}, x.kind = .closeParen →
        Stops TypeLevel.whole.goesOn (x :: xs) := fun hx =>
      stops_cons_iff.mpr (by rw [hx]; decide)
    obtain ⟨rfl, d, rfl, hd⟩ := h.only hinner (hstops hc) (hstops hc') hx
    obtain ⟨rfl, _⟩ := List.cons.inj (List.append_cancel_left hinner)
    obtain ⟨t', hfirst, _, hbare⟩ := hd.exists_type
    refine ⟨hsplit, _, rfl, .paren t' loc', ?_, ?_⟩
    · show (Reader.firstType (Reader.pieces [d])).map (TypeExpr.paren · loc') = _
      rw [hfirst]
      rfl
    · rw [TypeExpr.bare, TypeExpr.bare, hbare]

theorem areItems_elements (ts : List TypeExpr) :
    AreItems (.rule .tupleElement) (.question :: .colon :: TypeLevel.whole.goesOn)
      [.name, .openParen, .openBracket, .ellipsis] (ts.map .element) := by
  intro i hi
  obtain ⟨t, _, rfl⟩ := List.mem_map.mp hi
  exact ⟨rfl, rfl, rfl, rfl⟩

theorem settledPrimary_tuple {elements : List TypeExpr} {o c : Token}
    (h : AllSettled .comma (elements.map .element) us) (ho : o.kind = .openBracket)
    (hc : c.kind = .closeBracket) (loc : Option Location) :
    SettledPrimary (.tuple elements loc) (o :: (us ++ [c])) := by
  refine ⟨⟨o, _, rfl, by rw [ho]; decide⟩, ?_, ?_⟩
  · obtain ⟨ds, hds⟩ := h.shows_optionalList (areItems_elements elements)
    have htuple : Shows (.rule .tupleType) (o :: (us ++ [c])) _ :=
      (shows_enclosed_iff rfl).mpr ⟨o, us, c, ds, none, ho, hds, hc, rfl, rfl⟩
    exact ⟨_, .rule (List.mem_of_getElem? (i := 3) rfl) htuple none⟩
  · intro r v r' cs heq hr hr' hv
    obtain ⟨more, rfl, _⟩ := hv.exists_cons rfl heq
    obtain ⟨o', x, c', ds, loc', _, hx, hc', hsplit, rfl⟩ := (shows_enclosed_iff rfl).mp
      (hv.through rfl (by decide) (by rw [ho]; rfl) : Shows (.rule .tupleType) _ _)
    rw [hsplit, List.cons_append, List.cons_append, List.append_assoc, List.append_assoc] at heq
    obtain ⟨rfl, hinner⟩ := List.cons.inj heq
    obtain ⟨rfl, hshown⟩ := h.optionalList_only (areItems_elements elements) (by decide)
      rfl rfl (by rw [hc]; decide) (by rw [hc]; decide) (hc'.trans hc.symm) hinner hx
    obtain ⟨rfl, _⟩ := List.cons.inj (List.append_cancel_left hinner)
    rw [List.forall₂_map_left_iff] at hshown
    obtain ⟨ts', hts', hbare⟩ := Reader.allTypes_of_forall₂ hshown
    refine ⟨hsplit, _, rfl, .tuple ts' loc', ?_, ?_⟩
    · show (Reader.allTypes (Reader.pieces ds)).map (TypeExpr.tuple · loc') = _
      rw [hts']
      rfl
    · rw [TypeExpr.bare, TypeExpr.bare, TypeExpr.bareAll_eq, TypeExpr.bareAll_eq, hbare]

/-- How brackets make one tree of another. -/
inductive Suffixes : Concrete → List Token → Concrete → Prop
  | none (c : Concrete) : Suffixes c [] c
  | array {c c' : Concrete} {o k : Token} {loc : Option Location} {s : List Token}
      (ho : o.kind = .openBracket) (hk : k.kind = .closeBracket)
      (h : Suffixes (.node .arrayType loc [c]) s c') : Suffixes c (o :: k :: s) c'
  | access {c c' : Concrete} {o k : Token} {loc : Option Location} {us s : List Token}
      {ds : List Concrete} (ho : o.kind = .openBracket) (hus : Shows (.rule .typeExpression) us ds)
      (hk : k.kind = .closeBracket)
      (h : Suffixes (.node .indexedAccessType loc (c :: ds)) s c') :
      Suffixes c (o :: (us ++ k :: s)) c'

theorem Suffixes.append {c c' c'' : Concrete} {s s' : List Token} (h : Suffixes c s c')
    (h' : Suffixes c' s' c'') : Suffixes c (s ++ s') c'' := by
  induction h with
  | none => exact h'
  | array ho hk _ ih => exact .array ho hk (ih h')
  | access ho hus hk _ ih =>
      rw [List.cons_append, List.append_assoc, List.cons_append]
      exact .access ho hus hk (ih h')

theorem Suffixes.stops {c c' : Concrete} {s : List Token} (h : Suffixes c s c')
    {kinds : List Terminal} (hkinds : .openBracket ∉ kinds) : Stops kinds s := by
  cases h with
  | none => exact stops_nil kinds
  | array ho _ _ | access ho _ _ _ => exact stops_cons_iff.mpr (by rwa [ho])

/-- What a type with suffixes shows is the first form under its suffixes. -/
theorem exists_suffixes_of_shows (h : Shows (.rule .postfixType) v cs) :
    ∃ x s c c', Shows (.rule .primaryType) x [c] ∧ Suffixes c s c' ∧ v = x ++ s ∧ cs = [c'] := by
  generalize hlength : v.length = bound
  induction bound using Nat.strong_induction_on generalizing v cs with
  | _ bound ih =>
    have hone : ∀ {us ds}, Shows (.rule .primaryType) us ds → ∃ c, ds = [c] := fun h =>
      List.length_eq_one_iff.mp (h.length_eq_one (by decide))
    obtain ⟨a, ha, children, loc, hshows, rfl⟩ := shows_rule_iff.mp h
    have ha : a ∈ [plain [rule .primaryType],
        Nonterminal.labelled .arrayType [rule .postfixType, skip .openBracket, skip .closeBracket],
        Nonterminal.labelled .indexedAccessType [rule .postfixType, skip .openBracket,
          rule .typeExpression, skip .closeBracket]] := ha
    simp only [List.mem_cons, List.not_mem_nil, or_false] at ha
    rcases ha with rfl | rfl | rfl
    · obtain ⟨c, rfl⟩ := hone hshows
      exact ⟨v, [], c, c, hshows, .none c, (List.append_nil v).symm, rfl⟩
    · obtain ⟨x, _, ds, _, hx, hrest, rfl, rfl⟩ := shows_seq_iff.mp hshows
      obtain ⟨o, _, ho, hclose, rfl⟩ := shows_skip_seq_iff.mp hrest
      obtain ⟨k, rfl, rfl, hk⟩ := shows_skip_iff.mp hclose
      obtain ⟨y, s, c, c', hy, hs, rfl, rfl⟩ := ih x.length
        (by rw [← hlength, List.length_append]; simp) hx rfl
      refine ⟨y, s ++ [o, k], c, .node .arrayType loc [c'], hy,
        hs.append (.array ho hk (.none _)), ?_, ?_⟩
      · simp
      · exact Nonterminal.shown_labelled rfl _ loc _
    · obtain ⟨x, _, ds, es, hx, hrest, rfl, rfl⟩ := shows_seq_iff.mp hshows
      obtain ⟨o, _, ho, hinner, rfl⟩ := shows_skip_seq_iff.mp hrest
      obtain ⟨us, k, hus, hk, rfl⟩ := shows_seq_skip_iff.mp hinner
      obtain ⟨y, s, c, c', hy, hs, rfl, rfl⟩ := ih x.length
        (by rw [← hlength, List.length_append]; simp) hx rfl
      refine ⟨y, s ++ (o :: (us ++ [k])), c, .node .indexedAccessType loc (c' :: es), hy,
        hs.append (.access ho hus hk (.none _)), ?_, ?_⟩
      · simp
      · exact Nonterminal.shown_labelled rfl _ loc _

/-- The tokens of an operand begin all that is read from where they stand. -/
structure SettledOperand (t : TypeExpr) (us : List Token) : Prop where
  opens : ∃ x rest, us = x :: rest ∧ x.kind ∈ [Terminal.name, .openParen, .openBracket]
  shown : ∃ cs, Shows (.rule .postfixType) us cs
  only : ∀ {r v r' cs}, us ++ r = v ++ r' → Stops [.dot, .less] r →
    Stops [.dot, .less, .openBracket] r' → Shows (.rule .postfixType) v cs →
    ∃ s c c', v = us ++ s ∧ cs = [c'] ∧ c.IsOfType t ∧ Suffixes c s c'

theorem SettledPrimary.settledOperand {t : TypeExpr} (h : SettledPrimary t us) :
    SettledOperand t us where
  opens := h.opens
  shown := by
    obtain ⟨cs, hcs⟩ := h.shown
    exact ⟨_, .rule (List.mem_of_getElem? (i := 0) rfl) hcs none⟩
  only {r v r' cs} heq hr hr' hv := by
    obtain ⟨x, s, c, c', hx, hs, rfl, rfl⟩ := exists_suffixes_of_shows hv
    rw [List.append_assoc] at heq
    obtain ⟨rfl, d, hd, ht⟩ := h.only heq hr
      ((hs.stops (by decide)).append (hr'.mono (by decide))) hx
    obtain rfl := List.cons.inj hd |>.1
    exact ⟨s, c, c', rfl, rfl, ht, hs⟩

theorem settledOperand_array {element : TypeExpr} {o k : Token} (h : SettledOperand element us)
    (ho : o.kind = .openBracket) (hk : k.kind = .closeBracket) (loc : Option Location) :
    SettledOperand (.array element loc) (us ++ [o, k]) where
  opens := by
    obtain ⟨x, rest, rfl, hx⟩ := h.opens
    exact ⟨x, _, rfl, hx⟩
  shown := by
    obtain ⟨cs, hcs⟩ := h.shown
    have hbrackets := Shows.seq (.skipped o) (.skipped k)
    rw [ho, hk] at hbrackets
    exact ⟨_, .rule (List.mem_of_getElem? (i := 1) rfl) (.seq hcs hbrackets) none⟩
  only {r v r' cs} heq hr hr' hv := by
    rw [List.append_assoc] at heq
    obtain ⟨s, c, c', rfl, rfl, hc, hs⟩ := h.only heq
      (stops_cons_iff.mpr (by rw [ho]; decide)) hr' hv
    rw [List.append_assoc] at heq
    have hsuffix : o :: k :: r = s ++ r' := List.append_cancel_left heq
    cases hs with
    | none =>
        rw [List.nil_append] at hsuffix
        rw [← hsuffix, stops_cons_iff, ho] at hr'
        exact absurd (by decide) hr'
    | @array _ _ o' k' loc' s _ _ hs =>
        obtain ⟨rfl, htail⟩ := List.cons.inj hsuffix
        obtain ⟨rfl, _⟩ := List.cons.inj htail
        obtain ⟨t', hfirst, _, hbare⟩ := hc.exists_type
        refine ⟨s, _, _, by simp, rfl, ⟨.array t' loc', ?_, ?_⟩, hs⟩
        · show (Reader.firstType (Reader.pieces [c])).map (TypeExpr.array · loc') = _
          rw [hfirst]
          rfl
        · rw [TypeExpr.bare, TypeExpr.bare, hbare]
    | @access _ _ o' k' loc' us' s ds _ hus _ _ =>
        -- no type begins with the bracket that closes the pair
        rw [List.cons_append, List.append_assoc] at hsuffix
        obtain ⟨rfl, hinner⟩ := List.cons.inj hsuffix
        obtain ⟨_, rfl, _⟩ := hus.exists_cons rfl hinner
        exact absurd (hus.opens rfl rfl) (by rw [hk]; decide)

/-- Before a token that does not go on with it, an operand is all that is read. -/
theorem SettledOperand.settled {t : TypeExpr} (h : SettledOperand t us) :
    Settled (.type .operand t) us where
  opens := h.opens
  shown := by
    obtain ⟨cs, hcs⟩ := h.shown
    exact ⟨_, .rule (List.mem_of_getElem? (i := 2) rfl) hcs none⟩
  only {r v r' cs} heq hr hr' hv := by
    replace hr : Stops TypeLevel.operand.goesOn r := hr
    obtain ⟨x, rest, rfl, hx⟩ := h.opens
    obtain ⟨more, rfl, _⟩ := hv.exists_cons rfl heq
    have hat : alternativesAt .typeOperand x.kind = [plain [rule .postfixType]] := by
      simp only [List.mem_cons, List.not_mem_nil, or_false] at hx
      rcases hx with hx | hx | hx <;> rw [hx] <;> rfl
    obtain ⟨s, c, c', hsplit, rfl, hc, hs⟩ := h.only heq (hr.mono (by decide)) hr'
      (Shows.through (n := .typeOperand) hv rfl (by decide) hat)
    rw [hsplit, List.append_assoc] at heq
    have hrest : r = s ++ r' := List.append_cancel_left heq
    cases hs with
    | none => exact ⟨by rw [hsplit, List.append_nil], c, rfl, hc⟩
    | array ho _ _ | access ho _ _ _ =>
        rw [hrest, List.cons_append] at hr
        exact absurd (by rw [ho]; decide) (stops_cons_iff.mp hr)

end HostBindings.Source

import HostBindings.Proofs.TypeReadings

/-!
Elements of tuples and parameters. Each has a type as its last part, and the marks around the type
are no part of it. A name before a question mark or a colon might be a type or the name of an
element; the colon that has to follow the name tells that it is none.
-/

namespace HostBindings.Source

open Nonterminal (alternativesAt plain rule keep skip)

variable {us v w r r' : List Token} {t x o : Token} {cs : List Concrete} {type : TypeExpr}

theorem shows_typeExpression_name (ht : t.kind = .name) :
    ∃ cs, Shows (.rule .typeExpression) [t] cs := by
  have hentity : Shows (.rule .entityName) [t] _ :=
    shows_entityName_iff.mpr ⟨[t], [], _, [], none, shows_name ht, .none _, rfl, rfl⟩
  have hreference : Shows (.rule .typeReference) [t] _ :=
    shows_typeReference_iff.mpr ⟨[t], [], _, [], none, hentity, .omitted _, rfl, rfl⟩
  have hprimary :=
    Shows.rule (n := .primaryType) (List.mem_of_getElem? (i := 1) rfl) hreference none
  have hpostfix := Shows.rule (n := .postfixType) (List.mem_of_getElem? (i := 0) rfl) hprimary none
  have hoperand := Shows.rule (n := .typeOperand) (List.mem_of_getElem? (i := 2) rfl) hpostfix none
  have hintersection :=
    Shows.rule (n := .intersectionType) (List.mem_of_getElem? (i := 0) rfl) hoperand none
  have hunion := Shows.rule (n := .unionType) (List.mem_of_getElem? (i := 0) rfl) hintersection none
  exact ⟨_, .rule (List.mem_of_getElem? (i := 0) rfl) hunion none⟩

theorem Settled.eq_name (h : Settled (.type .whole type) us) (hx : x.kind = .name)
    (heq : us ++ r = x :: r') (hr : Stops TypeLevel.whole.goesOn r)
    (hr' : Stops TypeLevel.whole.goesOn r') : us = [x] ∧ r = r' := by
  obtain ⟨cs, hcs⟩ := shows_typeExpression_name hx
  obtain ⟨rfl, _⟩ := h.only (v := [x]) heq hr hr' hcs
  exact ⟨rfl, (List.cons.inj heq).2⟩

/-- What stands behind the name of an element: a colon, perhaps after a question mark. -/
inductive NamesElement : List Token → Prop
  | colon {c : Token} (hc : c.kind = .colon) (rest : List Token) : NamesElement (c :: rest)
  | question {q c : Token} (hq : q.kind = .question) (hc : c.kind = .colon) (rest : List Token) :
      NamesElement (q :: c :: rest)

theorem NamesElement.append (h : NamesElement v) (r : List Token) : NamesElement (v ++ r) := by
  cases h with
  | colon hc rest => exact .colon hc (rest ++ r)
  | question hq hc rest => exact .question hq hc (rest ++ r)

theorem NamesElement.stops (h : NamesElement v) : Stops TypeLevel.whole.goesOn v := by
  cases h with
  | colon hc => exact stops_cons_iff.mpr (by rw [hc]; decide)
  | question hq _ => exact stops_cons_iff.mpr (by rw [hq]; decide)

theorem shows_elementName (ht : t.kind ∈ typeOpeners)
    (h : Shows (Nonterminal.sequence [rule .identifier, Nonterminal.optional (keep .question),
      skip .colon, rule .typeExpression]) (t :: v) cs) :
    t.kind = .name ∧ NamesElement v := by
  obtain ⟨y, _, _, _, hy, hrest, hsplit, _⟩ := shows_seq_iff.mp h
  obtain ⟨q, _, _, _, hq, hcolon, rfl, _⟩ := shows_seq_iff.mp hrest
  obtain ⟨c, z, hc, _, rfl⟩ := shows_skip_seq_iff.mp hcolon
  obtain ⟨y, rfl, rfl⟩ := hy.exists_cons rfl hsplit
  have hname := eq_name_of_mem_typeOpeners _ ht (hy.opens rfl rfl)
  obtain ⟨rfl, _⟩ := shows_identifier hname hy
  refine ⟨hname, ?_⟩
  rcases shows_optional_iff.mp hq with hmark | ⟨rfl, _⟩
  · obtain ⟨m, rfl, _, hm⟩ := shows_keep_iff.mp hmark
    exact .question hm hc z
  · exact .colon hc z

/-- The elements of a tuple that open as types do: a type, a type before a question mark, and what
begins with the name of the element. -/
theorem shows_tupleElement (ht : t.kind ∈ typeOpeners)
    (h : Shows (.rule .tupleElement) (t :: v) cs) :
    (∃ ds loc, Shows (.rule .typeExpression) (t :: v) ds ∧ cs = [.node .tuplePlain loc ds]) ∨
    (∃ y q ds loc, Shows (.rule .typeExpression) y ds ∧ q.kind = .question ∧ t :: v = y ++ [q] ∧
      cs = [.node .tupleOptional loc (ds ++ [.token q])]) ∨
    t.kind = .name ∧ NamesElement v := by
  have hellipsis : t.kind ≠ .ellipsis := by
    intro hkind
    rw [hkind] at ht
    exact absurd ht (by decide)
  have hnode : ∀ label loc children, Nonterminal.shown .tupleElement (some label) loc children =
      [.node label loc children] := fun label =>
    Nonterminal.shown_of_node (n := .tupleElement) rfl (some label)
  obtain ⟨a, ha, children, loc, hshows, rfl⟩ := shows_rule_iff.mp h
  have ha : a ∈ [Nonterminal.labelled .tuplePlain [rule .typeExpression],
      Nonterminal.labelled .tupleOptional [rule .typeExpression, keep .question],
      Nonterminal.labelled .tupleNamed [rule .identifier, Nonterminal.optional (keep .question),
        skip .colon, rule .typeExpression],
      Nonterminal.labelled .tupleRest [skip .ellipsis, rule .typeExpression],
      Nonterminal.labelled .tupleNamedRest [skip .ellipsis, rule .identifier, skip .colon,
        rule .typeExpression]] := ha
  simp only [List.mem_cons, List.not_mem_nil, or_false] at ha
  rcases ha with rfl | rfl | rfl | rfl | rfl
  · exact Or.inl ⟨children, loc, hshows, hnode .tuplePlain loc children⟩
  · obtain ⟨y, _, ds, _, hy, hmark, hsplit, rfl⟩ := shows_seq_iff.mp hshows
    obtain ⟨q, rfl, rfl, hq⟩ := shows_keep_iff.mp hmark
    exact Or.inr (Or.inl ⟨y, q, ds, loc, hy, hq, hsplit, hnode .tupleOptional loc _⟩)
  · exact Or.inr (Or.inr (shows_elementName ht hshows))
  · obtain ⟨e, _, he, _, hsplit⟩ := shows_skip_seq_iff.mp hshows
    exact absurd ((List.cons.inj hsplit).1 ▸ he) hellipsis
  · obtain ⟨e, _, he, _, hsplit⟩ := shows_skip_seq_iff.mp hshows
    exact absurd ((List.cons.inj hsplit).1 ▸ he) hellipsis

theorem Settled.element (h : Settled (.type .whole type) us) : Settled (.element type) us where
  opens := by
    obtain ⟨x, rest, hus, hx⟩ := h.opens
    have hopeners : typeOpeners ⊆ [.name, .openParen, .openBracket, .ellipsis] := by decide
    exact ⟨x, rest, hus, hopeners hx⟩
  shown := by
    obtain ⟨cs, hcs⟩ := h.shown
    exact ⟨_, .rule (List.mem_of_getElem? (i := 0) rfl) hcs none⟩
  only {r v r' cs} heq hr hr' hv := by
    replace hr : Stops (.question :: .colon :: TypeLevel.whole.goesOn) r := hr
    replace hr' : Stops (.question :: .colon :: TypeLevel.whole.goesOn) r' := hr'
    have hwhole : Stops TypeLevel.whole.goesOn r := hr.mono (by decide)
    have hwhole' : Stops TypeLevel.whole.goesOn r' := hr'.mono (by decide)
    have hquestion : Terminal.question ∉ TypeLevel.whole.goesOn := by decide
    obtain ⟨x, rest, rfl, hx⟩ := h.opens
    obtain ⟨more, rfl, _⟩ := hv.exists_cons rfl heq
    rcases shows_tupleElement hx hv with
      ⟨ds, loc, hds, rfl⟩ | ⟨y, q, ds, loc, hy, hq, hsplit, rfl⟩ | ⟨hname, hnames⟩
    · obtain ⟨hsplit, d, rfl, hd⟩ := h.only heq hwhole hwhole' hds
      obtain ⟨type', _, hlast, hbare⟩ := hd.exists_type
      exact ⟨hsplit, _, rfl, type', hlast, hbare⟩
    · rw [hsplit, List.append_assoc] at heq
      obtain ⟨rfl, _⟩ := h.only heq hwhole (stops_cons_iff.mpr (by rwa [hq])) hy
      rw [List.append_cancel_left heq, List.cons_append, stops_cons_iff, hq] at hr
      exact absurd (by decide) hr
    · obtain ⟨_, hrest⟩ := h.eq_name hname heq hwhole (hnames.append r').stops
      rw [hrest] at hr
      cases hnames with
      | colon hc => exact absurd (stops_cons_iff.mp hr) (by rw [hc]; decide)
      | question hq _ => exact absurd (stops_cons_iff.mp hr) (by rw [hq]; decide)

theorem Settled.optionalElement (h : Settled (.type .whole type) us) {q : Token}
    (hq : q.kind = .question) (loc : Option Location) :
    Settled (.element (.optional type loc)) (us ++ [q]) where
  opens := by
    obtain ⟨x, rest, rfl, hx⟩ := h.opens
    exact ⟨x, rest ++ [q], rfl,
      (by decide : typeOpeners ⊆ [.name, .openParen, .openBracket, .ellipsis]) hx⟩
  shown := by
    obtain ⟨cs, hcs⟩ := h.shown
    have hmark := Shows.kept q
    rw [hq] at hmark
    exact ⟨_, .rule (List.mem_of_getElem? (i := 1) rfl) (.seq hcs hmark) none⟩
  only {r v r' cs} heq hr hr' hv := by
    replace hr : Stops (.question :: .colon :: TypeLevel.whole.goesOn) r := hr
    replace hr' : Stops (.question :: .colon :: TypeLevel.whole.goesOn) r' := hr'
    have hquestion : Terminal.question ∉ TypeLevel.whole.goesOn := by decide
    have hwhole : Stops TypeLevel.whole.goesOn (q :: r) := stops_cons_iff.mpr (by rwa [hq])
    have hwhole' : Stops TypeLevel.whole.goesOn r' := hr'.mono (by decide)
    rw [List.append_assoc, List.singleton_append] at heq
    obtain ⟨x, rest, rfl, hx⟩ := h.opens
    obtain ⟨more, rfl, _⟩ := hv.exists_cons rfl heq
    rcases shows_tupleElement hx hv with
      ⟨ds, loc', hds, rfl⟩ | ⟨y, m, ds, loc', hy, hm, hsplit, rfl⟩ | ⟨hname, hnames⟩
    · obtain ⟨hsplit, _⟩ := h.only heq hwhole hwhole' hds
      rw [hsplit] at heq
      rw [← List.append_cancel_left heq, stops_cons_iff, hq] at hr'
      exact absurd (by decide) hr'
    · rw [hsplit, List.append_assoc] at heq
      obtain ⟨rfl, d, rfl, hd⟩ := h.only heq hwhole (stops_cons_iff.mpr (by rwa [hm])) hy
      obtain ⟨rfl, _⟩ := List.cons.inj (List.append_cancel_left heq)
      obtain ⟨type', hread, hbare⟩ := hd
      have hlast : Reader.lastType (Reader.pieces [d, .token q]) = .ok type' := by
        rw [← hread, Reader.lastType, Pieces.nodes, Reader.pieces,
          List.filter_cons_of_pos (Reader.isNode_of_type hread)]
        rfl
      refine ⟨hsplit, _, rfl, .optional type' loc', ?_, ?_⟩
      · show (Reader.lastType (Reader.pieces [d, .token q])).map (TypeExpr.optional · loc') = _
        rw [hlast]
        rfl
      · rw [TypeExpr.bare, TypeExpr.bare, hbare]
    · obtain ⟨_, hrest⟩ := h.eq_name hname heq hwhole (hnames.append r').stops
      cases hnames with
      | colon hc =>
          obtain ⟨rfl, _⟩ := List.cons.inj hrest
          rw [hq] at hc
          cases hc
      | question _ hc =>
          obtain ⟨_, rfl⟩ := List.cons.inj hrest
          exact absurd (stops_cons_iff.mp hr) (by rw [hc]; decide)

theorem shows_restElement (ht : t.kind = .ellipsis) (h : Shows (.rule .tupleElement) (t :: v) cs) :
    (∃ ds loc, Shows (.rule .typeExpression) v ds ∧ cs = [.node .tupleRest loc ds]) ∨
    ∃ y c z ds, Shows (.rule .identifier) y ds ∧ c.kind = .colon ∧ v = y ++ c :: z := by
  obtain ⟨a, ha, children, loc, hshows, rfl⟩ := h.exists_alternative
  rw [ht] at ha
  have ha : a ∈ [Nonterminal.labelled .tupleRest [skip .ellipsis, rule .typeExpression],
      Nonterminal.labelled .tupleNamedRest [skip .ellipsis, rule .identifier, skip .colon,
        rule .typeExpression]] := ha
  simp only [List.mem_cons, List.not_mem_nil, or_false] at ha
  rcases ha with rfl | rfl
  · obtain ⟨e, w, _, hw, hsplit⟩ := shows_skip_seq_iff.mp hshows
    obtain ⟨_, rfl⟩ := List.cons.inj hsplit
    exact Or.inl ⟨children, loc, hw, Nonterminal.shown_of_node (n := .tupleElement) rfl _ loc _⟩
  · obtain ⟨e, w, _, hw, hsplit⟩ := shows_skip_seq_iff.mp hshows
    obtain ⟨_, rfl⟩ := List.cons.inj hsplit
    obtain ⟨y, _, ds, _, hy, hrest, rfl, _⟩ := shows_seq_iff.mp hw
    obtain ⟨c, z, hc, _, rfl⟩ := shows_skip_seq_iff.mp hrest
    exact Or.inr ⟨y, c, z, ds, hy, hc, rfl⟩

theorem Settled.restElement (h : Settled (.type .whole type) us) {e : Token}
    (he : e.kind = .ellipsis) (loc : Option Location) :
    Settled (.element (.rest type loc)) (e :: us) where
  opens := ⟨e, us, rfl, by rw [he]; exact List.mem_of_getElem? (i := 3) rfl⟩
  shown := by
    obtain ⟨cs, hcs⟩ := h.shown
    exact ⟨_, .rule (List.mem_of_getElem? (i := 3) rfl)
      (shows_skip_seq_iff.mpr ⟨e, us, he, hcs, rfl⟩) none⟩
  only {r v r' cs} heq hr hr' hv := by
    replace hr : Stops (.question :: .colon :: TypeLevel.whole.goesOn) r := hr
    replace hr' : Stops (.question :: .colon :: TypeLevel.whole.goesOn) r' := hr'
    have hwhole : Stops TypeLevel.whole.goesOn r := hr.mono (by decide)
    have hwhole' : Stops TypeLevel.whole.goesOn r' := hr'.mono (by decide)
    obtain ⟨more, rfl, hmore⟩ := hv.exists_cons rfl heq
    rcases shows_restElement he hv with ⟨ds, loc', hds, rfl⟩ | ⟨y, c, z, ds, hy, hc, rfl⟩
    · obtain ⟨rfl, d, rfl, hd⟩ := h.only hmore hwhole hwhole' hds
      obtain ⟨type', _, hlast, hbare⟩ := hd.exists_type
      refine ⟨rfl, _, rfl, .rest type' loc', ?_, by rw [TypeExpr.bare, TypeExpr.bare, hbare]⟩
      show (Reader.lastType (Reader.pieces [d])).map (TypeExpr.rest · loc') = _
      rw [hlast]
      rfl
    · obtain ⟨x, rest, rfl, hx⟩ := h.opens
      rw [List.append_assoc] at hmore
      obtain ⟨y, rfl, _⟩ := hy.exists_cons rfl hmore
      have hname := eq_name_of_mem_typeOpeners _ hx (hy.opens rfl rfl)
      obtain ⟨rfl, _⟩ := shows_identifier hname hy
      obtain ⟨_, rfl⟩ := h.eq_name hname hmore hwhole
        (stops_cons_iff.mpr (by rw [hc]; decide))
      exact absurd (stops_cons_iff.mp hr) (by rw [hc]; decide)

end HostBindings.Source

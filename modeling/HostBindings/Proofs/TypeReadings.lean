import HostBindings.Proofs.OperandReadings

/-!
Unions, intersections and function types, and types as a whole. A union or an intersection of
one member is the member. A function type and a type in parentheses open alike; the token after the
parenthesis that closes the first one tells them apart.
-/

namespace HostBindings.Source

open Nonterminal (alternativesAt plain rule keep skip)

variable {us v w r r' : List Token} {t x o : Token} {cs : List Concrete}

/-- The kinds that open the types that are written here. -/
abbrev typeOpeners : List Terminal := [.name, .openParen, .openBracket]

theorem eq_name_of_mem_typeOpeners : ∀ k ∈ typeOpeners, k ∈ Nonterminal.identifierKinds →
    k = .name := by
  decide

/-- The two ways to join types by a mark. -/
inductive Joint
  | union
  | intersection

namespace Joint

def outer : Joint → TypeLevel
  | union => .union
  | intersection => .intersection

def inner : Joint → TypeLevel
  | union => .intersection
  | intersection => .operand

def separator : Joint → Terminal
  | union => .bar
  | intersection => .ampersand

/-- The category of two members and more. -/
def joined : Joint → Nonterminal
  | union => .unionOf
  | intersection => .intersectionOf

def make : Joint → List TypeExpr → Option Location → TypeExpr
  | union => .union
  | intersection => .intersection

variable (j : Joint)

theorem production_outer : j.outer.category.production = Nonterminal.transparent
    [plain [rule j.inner.category], plain [skip j.separator, rule j.inner.category],
      plain [rule j.joined]] := by
  cases j <;> rfl

theorem production_joined : j.joined.production = Nonterminal.node
    [plain [Nonterminal.optional (skip j.separator), rule j.inner.category,
      Nonterminal.plus (Nonterminal.sequence [skip j.separator, rule j.inner.category])]] := by
  cases j <;> rfl

theorem separator_notMem : j.separator ∉ typeOpeners ∧ j.separator ∉ j.inner.goesOn ∧
    j.separator ∈ j.outer.goesOn ∧ j.separator :: j.inner.goesOn ⊆ j.outer.goesOn := by
  cases j <;> decide

theorem form_inner : j.inner.category.production.form ≠ .inlined ∧
    mayBeEmpty (.rule j.inner.category) = false := by
  cases j <;> decide

theorem bare_make (ts : List TypeExpr) (loc : Option Location) :
    (j.make ts loc).bare = j.make (ts.map TypeExpr.bare) none := by
  cases j
  · exact congrArg (TypeExpr.union · none) (TypeExpr.bareAll_eq ts)
  · exact congrArg (TypeExpr.intersection · none) (TypeExpr.bareAll_eq ts)

theorem type_joined (loc : Option Location) (cs : List Concrete) :
    Reader.type (Reader.piece (.node j.joined loc cs)) =
      (Reader.allTypes (Reader.pieces cs)).map (j.make · loc) := by
  cases j <;> rfl

theorem shows_outer {j : Joint} (hx : x.kind ∈ typeOpeners)
    (h : Shows (.rule j.outer.category) (x :: v) cs) : ∃ y z ds es,
      Shows (.rule j.inner.category) y ds ∧
      Shows (followers j.separator (.rule j.inner.category)) z es ∧ x :: v = y ++ z ∧
      (z = [] ∧ cs = ds ++ es ∨ z ≠ [] ∧ ∃ loc, cs = [.node j.joined loc (ds ++ es)]) := by
  have hform : j.outer.category.production.form = .transparent := by rw [j.production_outer]; rfl
  have hjoined : j.joined.production.form = .node := by rw [j.production_joined]; rfl
  have hmark : x.kind ≠ j.separator := by
    rintro hx'
    exact j.separator_notMem.1 (hx' ▸ hx)
  obtain ⟨a, ha, children, loc, hshows, rfl⟩ := shows_rule_iff.mp h
  rw [j.production_outer] at ha
  simp only [Nonterminal.transparent, List.mem_cons, List.not_mem_nil, or_false] at ha
  rcases ha with rfl | rfl | rfl
  · refine ⟨x :: v, [], children, [], hshows, .none _, (List.append_nil _).symm, Or.inl ⟨rfl, ?_⟩⟩
    rw [List.append_nil]
    exact Nonterminal.shown_of_transparent hform loc (hshows.length_eq_one j.form_inner.1)
  · obtain ⟨s, _, hs, _, hsplit⟩ := shows_skip_seq_iff.mp hshows
    obtain ⟨rfl, _⟩ := List.cons.inj hsplit
    exact absurd hs hmark
  · have hone : children.length = 1 := hshows.length_eq_one (by rw [hjoined]; decide)
    have htree : j.outer.category.shown (plain [rule j.joined]).label loc children = children :=
      Nonterminal.shown_of_transparent hform loc hone
    rw [htree]
    obtain ⟨b, hb, inner, loc', hinner, rfl⟩ := shows_rule_iff.mp hshows
    rw [j.production_joined] at hb
    obtain rfl := List.mem_singleton.mp hb
    obtain ⟨front, _, _, _, hfront, hmembers, hsplit, rfl⟩ := shows_seq_iff.mp hinner
    obtain ⟨y, z, ds, es, hy, hz, rfl, rfl⟩ := shows_seq_iff.mp hmembers
    obtain ⟨rfl, rfl⟩ := hfront.omitted_of_stops rfl rfl (r := y ++ z)
      (by rw [← hsplit, stops_cons_iff]; simpa using hmark)
    obtain ⟨round, others, cs, fs, hround, hothers, rfl, rfl⟩ := Shows.plus_inv hz
    refine ⟨y, round ++ others, ds, cs ++ fs, hy, .more hround hothers, hsplit,
      Or.inr ⟨?_, loc', ?_⟩⟩
    · intro hnil
      rw [(List.append_eq_nil_iff.mp hnil).1] at hround
      cases hround.mayBeEmpty_of_nil rfl
    · exact Nonterminal.shown_of_node hjoined _ loc' _

theorem only {j : Joint} {items : List TypeExpr} (hne : items ≠ [])
    (h : AllSettled j.separator (items.map (.type j.inner)) us) (heq : us ++ r = v ++ r')
    (hr : Stops j.outer.goesOn r) (hr' : Stops j.outer.goesOn r')
    (hv : Shows (.rule j.outer.category) v cs) :
    v = us ∧ ∃ ds, List.Forall₂ Concrete.IsOfType items ds ∧
      (items.length = 1 ∧ cs = ds ∨ 2 ≤ items.length ∧ ∃ loc, cs = [.node j.joined loc ds]) := by
  obtain ⟨hopener, hinner, houter, hsub⟩ := j.separator_notMem
  obtain ⟨first, rest, rfl⟩ := List.exists_cons_of_ne_nil hne
  obtain ⟨x, more, hus, hx⟩ := AllSettled.opens h rfl
  have hempty : mayBeEmpty (.rule j.outer.category) = false := by cases j <;> rfl
  have hcons : x :: (more ++ r) = v ++ r' := by rw [← heq, hus]; rfl
  obtain ⟨others, rfl, _⟩ := hv.exists_cons hempty hcons
  obtain ⟨y, z, ds, es, hy, hz, hsplit, htree⟩ := shows_outer hx hv
  rw [hsplit, List.append_assoc] at heq
  obtain ⟨hall, hshown, hsingle⟩ := AllSettled.only h (areItems_types j.inner (first :: rest))
    hinner heq hy hz (hr.mono hsub) (hr'.mono fun k hk => hsub (List.mem_cons_of_mem _ hk))
    fun a b c hcons ha => by
      rw [hcons, stops_cons_iff, ha] at hr'
      exact absurd houter hr'
  rw [← List.map_cons, List.forall₂_map_left_iff] at hshown
  refine ⟨hsplit.trans hall, ds ++ es, hshown, ?_⟩
  rcases htree with ⟨hnil, hcs⟩ | ⟨hsome, hcs⟩
  · have hrest : rest = [] := List.map_eq_nil_iff.mp (hsingle.mp hnil)
    exact Or.inl ⟨by rw [hrest]; rfl, hcs⟩
  · have hrest : rest ≠ [] := fun hnil => hsome (hsingle.mpr (by rw [hnil]; rfl))
    have := List.length_pos_iff.mpr hrest
    exact Or.inr ⟨by rw [List.length_cons]; omega, hcs⟩

theorem shows_of_allSettled {j : Joint} {items : List TypeExpr} (hne : items ≠ [])
    (h : AllSettled j.separator (items.map (.type j.inner)) us) :
    ∃ cs, Shows (.rule j.outer.category) us cs := by
  obtain ⟨first, rest, rfl⟩ := List.exists_cons_of_ne_nil hne
  obtain ⟨y, z, ds, es, rfl, hy, hz, _⟩ :=
    AllSettled.shown h (areItems_types j.inner (first :: rest))
  have houter : ∀ {a : Grammar.Alternative Terminal Nonterminal} {ts cs},
      a ∈ [plain [rule j.inner.category], plain [skip j.separator, rule j.inner.category],
        plain [rule j.joined]] → Shows a.pattern ts cs →
      ∃ cs, Shows (.rule j.outer.category) ts cs := by
    intro a ts cs ha hshows
    exact ⟨_, .rule (by rw [j.production_outer]; exact ha) hshows none⟩
  rcases shows_star_iff.mp hz with ⟨rfl, rfl⟩ | ⟨round, others, cs, fs, hround, hothers, rfl, rfl⟩
  · rw [List.append_nil]
    exact houter List.mem_cons_self hy
  · have hmembers : Shows (plain [Nonterminal.optional (skip j.separator),
        rule j.inner.category,
        Nonterminal.plus (Nonterminal.sequence [skip j.separator, rule j.inner.category])]).pattern
        (y ++ (round ++ others)) (ds ++ (cs ++ fs)) :=
      shows_seq_iff.mpr ⟨[], _, [], _, .omitted _, .seq hy (.plus hround hothers), rfl, rfl⟩
    have hjoined := Shows.rule (n := j.joined)
      (by rw [j.production_joined]; exact List.mem_singleton_self _) hmembers none
    exact houter (List.mem_cons_of_mem _ (List.mem_cons_of_mem _ List.mem_cons_self)) hjoined

theorem settled_single {j : Joint} {t : TypeExpr} (h : Settled (.type j.inner t) us) :
    Settled (.type j.outer t) us where
  opens := h.opens
  shown := shows_of_allSettled (List.cons_ne_nil t []) (.single fun _ => h)
  only {r v r' cs} heq hr hr' hv := by
    obtain ⟨hsplit, ds, hds, ⟨_, rfl⟩ | ⟨hlength, _⟩⟩ :=
      only (List.cons_ne_nil t []) (.single fun _ => h) heq hr hr' hv
    · cases hds with
      | cons hc hnil =>
          cases hnil
          exact ⟨hsplit, _, rfl, hc⟩
    · exact absurd hlength (by simp)

theorem settled_make {j : Joint} {items : List TypeExpr} (hmany : 2 ≤ items.length)
    (h : AllSettled j.separator (items.map (.type j.inner)) us) (loc : Option Location) :
    Settled (.type j.outer (j.make items loc)) us := by
  have hne : items ≠ [] := by
    rintro rfl
    cases hmany
  refine ⟨?_, shows_of_allSettled hne h, ?_⟩
  · obtain ⟨first, rest, rfl⟩ := List.exists_cons_of_ne_nil hne
    have hopens := AllSettled.opens h rfl
    exact hopens
  · intro r v r' cs heq hr hr' hv
    obtain ⟨hsplit, ds, hds, ⟨hone, _⟩ | ⟨_, loc', rfl⟩⟩ := only hne h heq hr hr' hv
    · omega
    · obtain ⟨ts', hts', hbare⟩ := Reader.allTypes_of_forall₂ hds
      refine ⟨hsplit, _, rfl, j.make ts' loc', ?_, by rw [bare_make, bare_make, hbare]⟩
      rw [type_joined, hts']
      rfl

end Joint

theorem exists_group_of_shows (ho : o.kind = .openParen)
    (h : Shows (.rule .unionType) (o :: v) cs) :
    ∃ group c rest, c.kind = .closeParen ∧ IsBalanced (group.map (·.kind)) ∧
      v = group ++ c :: rest ∧ ∀ {r}, Stops [.arrow] r → Stops [.arrow] (rest ++ r) := by
  have hopener : o.kind ∈ typeOpeners := by rw [ho]; decide
  obtain ⟨y, z, _, _, hy, hz, hsplit, _⟩ := Joint.shows_outer (j := .union) hopener h
  obtain ⟨y, rfl, rfl⟩ := hy.exists_cons rfl hsplit
  obtain ⟨x, w, _, _, hx, hw, hsplit, _⟩ := Joint.shows_outer (j := .intersection) hopener hy
  obtain ⟨x, rfl, rfl⟩ := hx.exists_cons rfl hsplit
  have hpostfix : Shows (.rule .postfixType) (o :: x) _ :=
    Shows.through (n := .typeOperand) hx rfl (by decide) (by rw [ho]; rfl)
  obtain ⟨p, s, _, _, hp, hs, hsplit, _⟩ := exists_suffixes_of_shows hpostfix
  obtain ⟨p, rfl, rfl⟩ := hp.exists_cons rfl hsplit
  have hparen : Shows (.rule .parenType) (o :: p) _ :=
    hp.through rfl (by decide) (by rw [ho]; rfl)
  obtain ⟨_, group, c, _, _, _, hgroup, hc, hsplit, _⟩ := (shows_enclosed_iff rfl).mp hparen
  obtain ⟨_, rfl⟩ := List.cons.inj hsplit
  refine ⟨group, c, s ++ (w ++ z), hc, hgroup.isBalanced, by simp, fun hr => ?_⟩
  rw [List.append_assoc, List.append_assoc]
  exact (hs.stops (by decide)).append
    (stops_followers hw (by decide) (stops_followers hz (by decide) hr))

/-- The parenthesis that closes the parameters of a function is the one that closes a group, and the
arrow is behind one of them only. -/
theorem group_ne_params {params others u : List Token} {d a : Token} {ds es : List Concrete}
    (ho : o.kind = .openParen) (hunion : Shows (.rule .unionType) (o :: v) ds)
    (hothers : Stops [.arrow] others) (hparams : Shows (.rule .parameters) params es)
    (hd : d.kind = .closeParen) (ha : a.kind = .arrow) :
    v ++ others ≠ params ++ d :: a :: u := by
  intro heq
  obtain ⟨group, c, rest, hc, hgroup, rfl, hrest⟩ := exists_group_of_shows ho hunion
  rw [List.append_assoc, List.cons_append] at heq
  have hkinds := congrArg (List.map (·.kind)) heq
  simp only [List.map_append, List.map_cons, hc, hd] at hkinds
  have hlength := congrArg List.length (hgroup.eq_of_append_eq hparams.isBalanced hkinds)
  rw [List.length_map, List.length_map] at hlength
  obtain ⟨_, htail⟩ := List.append_inj heq hlength
  have harrow := hrest hothers
  rw [(List.cons.inj htail).2] at harrow
  exact stops_cons_iff.mp harrow (List.mem_singleton.mpr ha)

theorem shows_functionType (ho : o.kind = .openParen)
    (h : Shows (.rule .functionType) (o :: v) cs) : ∃ params c a u ds es loc,
      c.kind = .closeParen ∧ a.kind = .arrow ∧ Shows (.rule .parameters) params ds ∧
      (Shows (.rule .typeExpression) u es ∨ Shows (.rule .typePredicate) u es) ∧
      v = params ++ c :: a :: u ∧ cs = [.node .functionType loc (ds ++ es)] := by
  obtain ⟨_, loc, hshows, rfl⟩ := (shows_node_iff rfl).mp h
  obtain ⟨front, _, _, _, hfront, hopen, hsplit, rfl⟩ := shows_seq_iff.mp hshows
  obtain ⟨rfl, rfl⟩ := hfront.omitted_of_stops rfl rfl (r := _)
    (by rw [← hsplit, stops_cons_iff, ho]; decide)
  obtain ⟨o', _, _, hinner, rfl⟩ := shows_skip_seq_iff.mp hopen
  obtain ⟨params, _, ds, _, hparams, hclose, rfl, rfl⟩ := shows_seq_iff.mp hinner
  obtain ⟨c, _, hc, hbehind, rfl⟩ := shows_skip_seq_iff.mp hclose
  obtain ⟨a, u, harrow, hresult, rfl⟩ := shows_skip_seq_iff.mp hbehind
  obtain ⟨_, rfl⟩ := List.cons.inj hsplit
  exact ⟨params, c, a, u, ds, _, loc, hc, harrow, hparams, shows_alt_iff.mp hresult, rfl, rfl⟩

theorem shows_conditionalType (h : Shows (.rule .conditionalType) v cs) :
    ∃ y e z ds, Shows (.rule .unionType) y ds ∧ e.kind = .wordExtends ∧ v = y ++ e :: z := by
  obtain ⟨_, _, hshows, _⟩ := (shows_node_iff rfl).mp h
  obtain ⟨y, _, ds, _, hy, hrest, rfl, _⟩ := shows_seq_iff.mp hshows
  obtain ⟨e, z, he, _, rfl⟩ := shows_skip_seq_iff.mp hrest
  exact ⟨y, e, z, ds, hy, he, rfl⟩

theorem shows_typeExpression (ht : t.kind ∈ typeOpeners)
    (h : Shows (.rule .typeExpression) (t :: v) cs) : Shows (.rule .unionType) (t :: v) cs ∨
      t.kind = .openParen ∧ Shows (.rule .functionType) (t :: v) cs ∨
      Shows (.rule .conditionalType) (t :: v) cs := by
  obtain ⟨a, ha, children, loc, hshows, rfl⟩ := h.exists_alternative
  have hat : a ∈ [plain [rule .unionType], plain [rule .conditionalType]] ∨
      t.kind = .openParen ∧ a = plain [rule .functionType] := by
    simp only [List.mem_cons, List.not_mem_nil, or_false] at ht
    rcases ht with ht | ht | ht <;> rw [ht] at ha ⊢
    · exact Or.inl ha
    · rcases List.mem_cons.mp ha with rfl | ha
      · exact Or.inl List.mem_cons_self
      · rcases List.mem_cons.mp ha with rfl | ha
        · exact Or.inr ⟨rfl, rfl⟩
        · exact Or.inl (List.mem_cons_of_mem _ ha)
    · exact Or.inl ha
  have hchild : ∀ {n : Nonterminal}, n.production.form ≠ .inlined →
      Shows (.rule n) (t :: v) children →
      Nonterminal.shown .typeExpression none loc children = children := fun hn hshows =>
    Nonterminal.shown_of_transparent rfl loc (hshows.length_eq_one hn)
  rcases hat with hat | ⟨hparen, rfl⟩
  · simp only [List.mem_cons, List.not_mem_nil, or_false] at hat
    rcases hat with rfl | rfl
    · rw [show (plain [rule .unionType]).label = none from rfl, hchild (by decide) hshows]
      exact Or.inl hshows
    · rw [show (plain [rule .conditionalType]).label = none from rfl, hchild (by decide) hshows]
      exact Or.inr (Or.inr hshows)
  · rw [show (plain [rule .functionType]).label = none from rfl, hchild (by decide) hshows]
    exact Or.inr (Or.inl ⟨hparen, hshows⟩)

theorem Settled.whole_of_union {type : TypeExpr} (h : Settled (.type .union type) us) :
    Settled (.type .whole type) us where
  opens := h.opens
  shown := by
    obtain ⟨cs, hcs⟩ := h.shown
    exact ⟨_, .rule (List.mem_of_getElem? (i := 0) rfl) hcs none⟩
  only {r v r' cs} heq hr hr' hv := by
    replace hr : Stops TypeLevel.whole.goesOn r := hr
    replace hr' : Stops TypeLevel.whole.goesOn r' := hr'
    have hsub : TypeLevel.union.goesOn ⊆ TypeLevel.whole.goesOn := by decide
    have hextends : Terminal.wordExtends ∉ TypeLevel.union.goesOn := by decide
    have hunion : Stops TypeLevel.union.goesOn r := hr.mono hsub
    obtain ⟨x, rest, rfl, hx⟩ := h.opens
    obtain ⟨more, rfl, _⟩ := hv.exists_cons rfl heq
    rcases shows_typeExpression hx hv with hv | ⟨ho, hv⟩ | hv
    · exact h.only heq hunion (hr'.mono hsub) hv
    · obtain ⟨ds, hds⟩ := h.shown
      obtain ⟨params, d, a, u, _, _, _, hd, ha, hparams, _, rfl, _⟩ := shows_functionType ho hv
      rw [List.cons_append, List.cons_append, List.append_assoc] at heq
      exact absurd (List.cons.inj heq).2
        (group_ne_params ho hds (hr.mono (by decide)) hparams hd ha)
    · obtain ⟨y, e, z, ds, hy, he, hsplit⟩ := shows_conditionalType hv
      rw [hsplit, List.append_assoc] at heq
      obtain ⟨rfl, _⟩ := h.only heq hunion (stops_cons_iff.mpr (by rwa [he])) hy
      rw [List.append_cancel_left heq, List.cons_append, stops_cons_iff, he] at hr
      exact absurd (by decide) hr

theorem areItems_params (ps : List Param) :
    AreItems (.rule .parameter) (.question :: .colon :: .equals :: TypeLevel.whole.goesOn)
      [.name, .ellipsis] (ps.map .param) := by
  intro i hi
  obtain ⟨p, _, rfl⟩ := List.mem_map.mp hi
  exact ⟨rfl, rfl, rfl, rfl⟩

theorem shows_parameters_iff : Shows (.rule .parameters) v cs ↔ ∃ ds loc,
    Shows (.optional (Nonterminal.list (.rule .parameter))) v ds ∧
      cs = [.node .parameters loc ds] :=
  shows_node_iff (show Nonterminal.production .parameters =
    Nonterminal.node [plain [Nonterminal.optional (Nonterminal.list (rule .parameter))]] from rfl)

theorem Reader.lastType_pair {c : Concrete} {type : TypeExpr}
    (h : Reader.type (Reader.piece c) = .ok type) {label : Nonterminal}
    (hlabel : label ≠ .typeParameters) (loc : Option Location) (ds : List Concrete) :
    Reader.lastType (Reader.pieces [.node label loc ds, c]) = .ok type ∧
      Reader.typeParamsOf (Reader.pieces [.node label loc ds, c]) = .ok [] := by
  obtain ⟨own, place, tokens, value, hpiece, hown⟩ : ∃ own place tokens value,
      Reader.piece c = .node own place tokens value ∧ own ≠ .typeParameters := by
    cases c with
    | token => cases h
    | node own place children =>
        refine ⟨own, place, _, _, rfl, ?_⟩
        rintro rfl
        cases h
  constructor
  · rw [← h, Reader.lastType, Pieces.nodes, Reader.pieces, Reader.pieces, Reader.pieces, hpiece]
    rfl
  · have hneither : ∀ p ∈ Reader.pieces [.node label loc ds, c],
        ¬ p.isLabelled .typeParameters = true := by
      rw [Reader.pieces, Reader.pieces, Reader.pieces, hpiece]
      simpa [Piece.isLabelled, Reader.piece] using ⟨hlabel, hown⟩
    rw [Reader.typeParamsOf, Pieces.find, List.find?_eq_none.mpr hneither]
    rfl

theorem Reader.functionType_pieces {params : List Param} {ds : List Concrete} {c : Concrete}
    {result : TypeExpr} (hparams : (Reader.pieces ds).nodes.mapM Reader.param = .ok params)
    (hc : Reader.type (Reader.piece c) = .ok result) (loc loc' : Option Location) :
    Reader.functionType loc (Reader.pieces [.node .parameters loc' ds, c]) =
      .ok (.function params (some result) [] loc) := by
  have hvalue : Reader.params (Reader.piece (.node .parameters loc' ds)) = .ok params := hparams
  have hfound : Reader.paramsOf (Reader.pieces [.node .parameters loc' ds, c]) = .ok params := by
    show (do let found ← some <$> Reader.params (Reader.piece (.node .parameters loc' ds))
             pure (found.getD [])) = _
    rw [hvalue]
    rfl
  obtain ⟨hresult, hnone⟩ := Reader.lastType_pair hc
    (by decide : Nonterminal.parameters ≠ .typeParameters) loc' ds
  rw [Reader.functionType, hfound, hresult, hnone]
  rfl

theorem shows_typePredicate (ht : t.kind ∈ typeOpeners)
    (h : Shows (.rule .typePredicate) (t :: v) cs) : ∃ i z, i.kind = .wordIs ∧ v = i :: z := by
  have hname := eq_name_of_mem_typeOpeners _ ht (h.opens rfl rfl)
  obtain ⟨a, ha, children, loc, hshows, _⟩ := h.exists_alternative
  rw [hname] at ha
  obtain rfl := List.mem_singleton.mp ha
  obtain ⟨y, _, _, _, hy, hrest, hsplit, _⟩ := shows_seq_iff.mp hshows
  obtain ⟨i, z, hi, _, rfl⟩ := shows_skip_seq_iff.mp hrest
  obtain ⟨y, rfl, rfl⟩ := hy.exists_cons rfl hsplit
  obtain ⟨rfl, _⟩ := shows_identifier hname hy
  exact ⟨i, z, hi, rfl⟩

/-- The result of a function type is read as a type; a predicate would have a word that is not
there. -/
theorem Settled.result_only {result : TypeExpr} (h : Settled (.type .whole result) w)
    (hpredicate : ∀ t ∈ w, t.kind ≠ .wordIs) (heq : w ++ r = v ++ r')
    (hr : Stops TypeLevel.whole.goesOn r) (hr' : Stops TypeLevel.whole.goesOn r')
    (hv : Shows (.rule .typeExpression) v cs ∨ Shows (.rule .typePredicate) v cs) :
    v = w ∧ ∃ c, cs = [c] ∧ c.IsOfType result := by
  rcases hv with hv | hv
  · exact h.only heq hr hr' hv
  · obtain ⟨x, rest, rfl, hx⟩ := h.opens
    obtain ⟨more, rfl, hrest⟩ := hv.exists_cons rfl heq
    obtain ⟨i, z, hi, rfl⟩ := shows_typePredicate hx hv
    cases rest with
    | nil =>
        rw [show r = i :: (z ++ r') from hrest, stops_cons_iff, hi] at hr
        exact absurd (by decide) hr
    | cons y others =>
        obtain ⟨rfl, _⟩ := List.cons.inj hrest
        exact absurd hi (hpredicate y (List.mem_cons_of_mem _ List.mem_cons_self))

section

variable {params : List Param} {result : TypeExpr} {c a : Token} (ho : o.kind = .openParen)
  (hparams : AllSettled .comma (params.map .param) us) (hc : c.kind = .closeParen)
  (ha : a.kind = .arrow) (hresult : Settled (.type .whole result) w)

include ho hparams hc ha hresult

theorem exists_shows_functionType :
    ∃ cs, Shows (.rule .functionType) (o :: (us ++ c :: a :: w)) cs := by
  obtain ⟨ds, hds⟩ := hparams.shows_optionalList (areItems_params params)
  obtain ⟨es, hes⟩ := hresult.shown
  have hlist : Shows (.rule .parameters) us _ := shows_parameters_iff.mpr ⟨ds, none, hds, rfl⟩
  have hbehind : Shows (Nonterminal.sequence [skip .closeParen, skip .arrow,
      Nonterminal.oneOf [rule .typeExpression, rule .typePredicate]]) (c :: a :: w) es :=
    shows_skip_seq_iff.mpr ⟨c, _, hc, shows_skip_seq_iff.mpr ⟨a, w, ha, .first hes, rfl⟩, rfl⟩
  have hfront := shows_skip_seq_iff.mpr ⟨o, _, ho, .seq hlist hbehind, rfl⟩
  exact ⟨_, .rule (List.mem_singleton_self _)
    (shows_seq_iff.mpr ⟨[], _, [], _, .omitted _, hfront, rfl, rfl⟩) none⟩

omit ha in
theorem functionType_only (hpredicate : ∀ t ∈ w, t.kind ≠ .wordIs) (loc : Option Location)
    (heq : us ++ c :: a :: (w ++ r) = v ++ r') (hr : Stops TypeLevel.whole.goesOn r)
    (hr' : Stops TypeLevel.whole.goesOn r') (hv : Shows (.rule .functionType) (o :: v) cs) :
    v = us ++ c :: a :: w ∧
      ∃ d, cs = [d] ∧ d.IsOfType (.function params (some result) [] loc) := by
  obtain ⟨others, d, b, u, _, es, loc', hd, _, hothers, hu, rfl, rfl⟩ := shows_functionType ho hv
  obtain ⟨fs, place, hfs, rfl⟩ := shows_parameters_iff.mp hothers
  rw [List.append_assoc, List.cons_append, List.cons_append] at heq
  obtain ⟨rfl, hshown⟩ := hparams.optionalList_only (areItems_params params) (by decide)
    rfl rfl (by rw [hc]; decide) (by rw [hc]; decide) (hd.trans hc.symm) heq hfs
  obtain ⟨rfl, htail⟩ := List.cons.inj (List.append_cancel_left heq)
  obtain ⟨rfl, hrest⟩ := List.cons.inj htail
  obtain ⟨rfl, e, rfl, type, htype, hbare⟩ := hresult.result_only hpredicate hrest hr hr' hu
  rw [List.forall₂_map_left_iff] at hshown
  obtain ⟨found, hfound, hbares⟩ := Reader.mapM_nodes_of_forall₂ Reader.isNode_of_param hshown
  refine ⟨rfl, _, rfl, .function found (some type) [] loc',
    Reader.functionType_pieces hfound htype loc' place, ?_⟩
  simp only [TypeExpr.bare, Param.bareAll_eq, TypeExpr.bareIn_eq, hbares, Option.map_some, hbare]

theorem settled_function (hpredicate : ∀ t ∈ w, t.kind ≠ .wordIs) (loc : Option Location) :
    Settled (.type .whole (.function params (some result) [] loc)) (o :: (us ++ c :: a :: w)) := by
  have hopener : o.kind ∈ typeOpeners := by rw [ho]; decide
  obtain ⟨ds, hds⟩ := hparams.shows_optionalList (areItems_params params)
  have hlist : Shows (.rule .parameters) us _ := shows_parameters_iff.mpr ⟨ds, none, hds, rfl⟩
  obtain ⟨fs, hfs⟩ := exists_shows_functionType ho hparams hc ha hresult
  refine ⟨⟨o, _, rfl, hopener⟩, ⟨_, .rule (List.mem_of_getElem? (i := 1) rfl) hfs none⟩, ?_⟩
  intro r v r' cs heq hr hr' hv
  replace hr : Stops TypeLevel.whole.goesOn r := hr
  replace hr' : Stops TypeLevel.whole.goesOn r' := hr'
  rw [List.cons_append, List.append_assoc, List.cons_append, List.cons_append] at heq
  obtain ⟨more, rfl, hmore⟩ := hv.exists_cons rfl heq
  rcases shows_typeExpression hopener hv with hv | ⟨_, hv⟩ | hv
  · exact absurd hmore.symm (group_ne_params ho hv (hr'.mono (by decide)) hlist hc ha)
  · obtain ⟨rfl, hshown⟩ :=
      functionType_only ho hparams hc hresult hpredicate loc hmore hr hr' hv
    exact ⟨rfl, hshown⟩
  · obtain ⟨y, e, z, _, hy, he, hsplit⟩ := shows_conditionalType hv
    obtain ⟨y, rfl, rfl⟩ := hy.exists_cons rfl hsplit
    rw [List.append_assoc] at hmore
    exact absurd hmore.symm
      (group_ne_params ho hy (stops_cons_iff.mpr (by rw [he]; decide)) hlist hc ha)

end

end HostBindings.Source

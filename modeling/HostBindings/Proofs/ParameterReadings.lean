import HostBindings.Proofs.TypeReadings

/-!
Parameters: a name, perhaps a question mark or an ellipsis, and perhaps a type behind a colon. None
of these marks goes on with the type, so each part ends where the next one begins.
-/

namespace HostBindings.Source

open Nonterminal (alternativesAt plain rule keep skip)

variable {us v r r' marks : List Token} {t x : Token} {cs : List Concrete}
  {annotated : Option TypeExpr}

/-- A mark of a kind, or nothing. -/
def IsMark (k : Terminal) (marks : List Token) : Prop :=
  marks = [] ∨ ∃ q, marks = [q] ∧ q.kind = k

theorem IsMark.only {k : Terminal} (h : IsMark k marks) (heq : marks ++ r = v ++ r')
    (hr : Stops [k] r) (hr' : Stops [k] r') (hv : Shows (.optional (keep k)) v cs) :
    v = marks ∧ cs = marks.map .token := by
  rcases shows_optional_iff.mp hv with hkept | ⟨rfl, rfl⟩
  · obtain ⟨m, rfl, rfl, hm⟩ := shows_keep_iff.mp hkept
    rcases h with rfl | ⟨q, rfl, hq⟩
    · rw [show r = m :: r' from heq] at hr
      exact absurd (stops_cons_iff.mp hr) (by simp [hm])
    · obtain ⟨rfl, _⟩ := List.cons.inj heq
      exact ⟨rfl, rfl⟩
  · rcases h with rfl | ⟨q, rfl, hq⟩
    · exact ⟨rfl, rfl⟩
    · rw [← show q :: r = r' from heq] at hr'
      exact absurd (stops_cons_iff.mp hr') (by simp [hq])

theorem IsMark.shows {k : Terminal} (h : IsMark k marks) :
    Shows (.optional (keep k)) marks (marks.map .token) := by
  rcases h with rfl | ⟨q, rfl, rfl⟩
  · exact .omitted _
  · exact .taken (.kept q)

/-- The tokens of the type of a parameter with its colon. -/
inductive AnnotationSettled : Option TypeExpr → List Token → Prop
  | omitted : AnnotationSettled none []
  | given {type : TypeExpr} {us : List Token} {colon : Token} (hcolon : colon.kind = .colon)
      (h : Settled (.type .whole type) us) : AnnotationSettled (some type) (colon :: us)

/-- The trees of an annotation, or none. -/
inductive ShowsAnnotation : Option TypeExpr → List Concrete → Prop
  | omitted : ShowsAnnotation none []
  | given {type : TypeExpr} {c : Concrete} (h : c.IsOfType type) (loc : Option Location) :
      ShowsAnnotation (some type) [.node .annotatedType loc [c]]

theorem AnnotationSettled.shows (h : AnnotationSettled annotated us) :
    ∃ cs, Shows (.optional (.rule .annotatedType)) us cs := by
  cases h with
  | omitted => exact ⟨[], .omitted _⟩
  | @given type us colon hcolon h =>
      obtain ⟨cs, hcs⟩ := h.shown
      exact ⟨_, .taken (.rule (List.mem_singleton_self _)
        (shows_skip_seq_iff.mpr ⟨colon, us, hcolon, hcs, rfl⟩) none)⟩

theorem AnnotationSettled.stops (h : AnnotationSettled annotated us) {kinds : List Terminal}
    (hkinds : .colon ∉ kinds) (hr : Stops kinds r) : Stops kinds (us ++ r) := by
  cases h with
  | omitted => exact hr
  | given hcolon _ => exact stops_cons_iff.mpr (by rwa [hcolon])

theorem AnnotationSettled.only (h : AnnotationSettled annotated us) (heq : us ++ r = v ++ r')
    (hr : Stops (.colon :: TypeLevel.whole.goesOn) r)
    (hr' : Stops (.colon :: TypeLevel.whole.goesOn) r')
    (hv : Shows (.optional (.rule .annotatedType)) v cs) :
    v = us ∧ ShowsAnnotation annotated cs := by
  cases h with
  | omitted =>
      obtain ⟨rfl, rfl⟩ := hv.omitted_of_stops rfl rfl (r := r')
        (by rw [← heq]; exact hr.mono (by decide))
      exact ⟨rfl, .omitted⟩
  | @given type us colon hcolon h =>
      rcases shows_optional_iff.mp hv with htaken | ⟨rfl, _⟩
      · obtain ⟨_, loc, hshows, rfl⟩ := (shows_node_iff rfl).mp htaken
        obtain ⟨_, w, _, hw, rfl⟩ := shows_skip_seq_iff.mp hshows
        obtain ⟨rfl, hrest⟩ := List.cons.inj heq
        obtain ⟨rfl, c, rfl, hc⟩ := h.only hrest (hr.mono (List.subset_cons_self _ _))
          (hr'.mono (List.subset_cons_self _ _)) hw
        exact ⟨rfl, .given hc loc⟩
      · rw [← show colon :: (us ++ r) = r' from heq, stops_cons_iff, hcolon] at hr'
        exact absurd List.mem_cons_self hr'

theorem shows_bindingName (ht : t.kind = .name) (h : Shows (.rule .bindingPattern) (t :: v) cs) :
    v = [] ∧ ∃ loc, cs = [.node .identifier loc [.token t]] :=
  shows_identifier ht (h.through rfl (by decide) (by rw [ht]; rfl))

theorem Reader.parameter_pieces (hmarks : IsMark .question marks)
    (hcs : ShowsAnnotation annotated cs) (isRest : Bool) (loc place : Option Location) :
    ∃ annotated', annotated'.map TypeExpr.bare = annotated.map TypeExpr.bare ∧
      Reader.parameter isRest loc
        (Reader.pieces (.node .identifier place [.token x] :: (marks.map .token ++ cs))) =
        .ok ⟨.name x.text place, annotated', !isRest && !marks.isEmpty, isRest, loc⟩ := by
  cases hcs with
  | omitted =>
      refine ⟨none, rfl, ?_⟩
      rcases hmarks with rfl | ⟨⟨_, _, _⟩, rfl, rfl⟩
      · rfl
      · rfl
  | @given type c h place' =>
      obtain ⟨type', hfirst, _, hbare⟩ := h.exists_type
      refine ⟨some type', congrArg some hbare, ?_⟩
      rcases hmarks with rfl | ⟨⟨_, _, _⟩, rfl, rfl⟩
      · show (do
          let annotated ← some <$> Reader.firstType (Reader.pieces [c])
          pure (⟨.name x.text place, annotated, !isRest && false, isRest, loc⟩ : Param)) = _
        rw [hfirst]
        rfl
      · show (do
          let annotated ← some <$> Reader.firstType (Reader.pieces [c])
          pure (⟨.name x.text place, annotated, !isRest && true, isRest, loc⟩ : Param)) = _
        rw [hfirst]
        rfl

theorem shows_parameter (ht : t.kind = .name) (h : Shows (.rule .parameter) (t :: v) cs) :
    ∃ m a i ms ds es place loc, Shows (.optional (keep .question)) m ms ∧
      Shows (.optional (.rule .annotatedType)) a ds ∧ Shows (.optional (.rule .initializer)) i es ∧
      v = m ++ (a ++ i) ∧
      cs = [.node .parameter loc (.node .identifier place [.token t] :: (ms ++ (ds ++ es)))] := by
  obtain ⟨alternative, halt, children, loc, hshows, rfl⟩ := h.exists_alternative
  rw [ht] at halt
  obtain rfl := List.mem_singleton.mp halt
  obtain ⟨front, _, _, _, hfront, hpattern, hsplit, rfl⟩ := shows_seq_iff.mp hshows
  obtain ⟨rfl, rfl⟩ : front = [] ∧ _ = [] := by
    rcases shows_star_iff.mp hfront with hnone | ⟨x, y, _, _, hx, _, rfl, _⟩
    · exact hnone
    · -- a modifier is no name
      rw [List.append_assoc] at hsplit
      obtain ⟨x, rfl, _⟩ := hx.exists_cons rfl hsplit
      have hmodifier := hx.opens rfl rfl
      rw [ht] at hmodifier
      exact absurd hmodifier (by decide)
  obtain ⟨y, _, _, _, hy, hmark, rfl, rfl⟩ := shows_seq_iff.mp hpattern
  obtain ⟨y, rfl, rfl⟩ := hy.exists_cons rfl hsplit
  obtain ⟨rfl, place, rfl⟩ := shows_bindingName ht hy
  obtain ⟨m, _, ms, _, hm, hbehind, rfl, rfl⟩ := shows_seq_iff.mp hmark
  obtain ⟨a, i, ds, es, ha, hi, rfl, rfl⟩ := shows_seq_iff.mp hbehind
  exact ⟨m, a, i, ms, ds, es, place, loc, hm, ha, hi, rfl,
    Nonterminal.shown_of_node (n := .parameter) rfl _ loc _⟩

theorem shows_restParameter (ht : t.kind = .ellipsis) (hx : x.kind = .name)
    (h : Shows (.rule .parameter) (t :: v) cs) (heq : x :: us = v ++ r) :
    ∃ a ds place loc, Shows (.optional (.rule .annotatedType)) a ds ∧ v = x :: a ∧
      cs = [.node .restParameter loc (.node .identifier place [.token x] :: ds)] := by
  obtain ⟨alternative, halt, children, loc, hshows, rfl⟩ := h.exists_alternative
  rw [ht] at halt
  obtain rfl := List.mem_singleton.mp halt
  obtain ⟨_, w, _, hw, hsplit⟩ := shows_skip_seq_iff.mp hshows
  obtain ⟨_, rfl⟩ := List.cons.inj hsplit
  obtain ⟨y, a, _, ds, hy, ha, rfl, rfl⟩ := shows_seq_iff.mp hw
  rw [List.append_assoc] at heq
  obtain ⟨y, rfl, _⟩ := hy.exists_cons rfl heq
  obtain ⟨rfl, place, rfl⟩ := shows_bindingName hx hy
  exact ⟨a, ds, place, loc, ha, rfl, Nonterminal.shown_of_node (n := .parameter) rfl _ loc _⟩

theorem shows_bindingPattern (hx : x.kind = .name) :
    ∃ cs, Shows (.rule .bindingPattern) [x] cs :=
  ⟨_, .rule (List.mem_of_getElem? (i := 0) rfl) (shows_name hx) none⟩

theorem settled_param (hx : x.kind = .name) (hmarks : IsMark .question marks)
    (h : AnnotationSettled annotated us) (patternLoc loc : Option Location) :
    Settled (.param ⟨.name x.text patternLoc, annotated, !marks.isEmpty, false, loc⟩)
      (x :: (marks ++ us)) where
  opens := ⟨x, _, rfl, by rw [hx]; exact List.mem_cons_self⟩
  shown := by
    obtain ⟨cs, hcs⟩ := h.shows
    obtain ⟨ds, hds⟩ := shows_bindingPattern hx
    have hrest := Shows.seq hds (.seq hmarks.shows (.seq hcs (.omitted (.rule .initializer))))
    rw [List.append_nil] at hrest
    exact ⟨_, .rule List.mem_cons_self (shows_seq_iff.mpr ⟨[], _, [], _, .none _, hrest, rfl, rfl⟩)
      none⟩
  only {r v r' cs} heq hr hr' hv := by
    replace hr : Stops (.question :: .colon :: .equals :: TypeLevel.whole.goesOn) r := hr
    replace hr' : Stops (.question :: .colon :: .equals :: TypeLevel.whole.goesOn) r' := hr'
    rw [List.cons_append, List.append_assoc] at heq
    obtain ⟨more, rfl, hmore⟩ := hv.exists_cons rfl heq
    obtain ⟨m, a, i, ms, ds, es, place, loc', hm, ha, hi, rfl, rfl⟩ := shows_parameter hx hv
    rw [List.append_assoc, List.append_assoc] at hmore
    -- what follows the question mark, if it is left out, is no question mark
    have hquestion : Stops [.question] (us ++ r) := h.stops (by decide) (hr.mono (by decide))
    have hquestion' : Stops [.question] (a ++ (i ++ r')) :=
      (ha.stops rfl (by decide)).append ((hi.stops rfl (by decide)).append (hr'.mono (by decide)))
    obtain ⟨rfl, rfl⟩ := hmarks.only hmore hquestion hquestion' hm
    have hbehind := List.append_cancel_left hmore
    obtain ⟨rfl, hshown⟩ := h.only hbehind (hr.mono (by decide))
      ((hi.stops rfl (by decide)).append (hr'.mono (by decide))) ha
    obtain ⟨rfl, rfl⟩ := hi.omitted_of_stops rfl rfl (r := r')
      (by rw [← List.append_cancel_left hbehind]; exact hr.mono (by decide))
    obtain ⟨annotated', hbare, hread⟩ :=
      Reader.parameter_pieces (x := x) hmarks hshown false loc' place
    rw [List.append_nil, List.append_nil]
    refine ⟨rfl, _, rfl, _, hread, ?_⟩
    simp only [Param.bare, BindingPattern.bare, TypeExpr.bareIn_eq, hbare, Bool.not_false,
      Bool.true_and]

theorem settled_restParam (ht : t.kind = .ellipsis) (hx : x.kind = .name)
    (h : AnnotationSettled annotated us) (patternLoc loc : Option Location) :
    Settled (.param ⟨.name x.text patternLoc, annotated, false, true, loc⟩) (t :: x :: us) where
  opens := ⟨t, _, rfl, by rw [ht]; exact List.mem_of_getElem? (i := 1) rfl⟩
  shown := by
    obtain ⟨cs, hcs⟩ := h.shows
    obtain ⟨ds, hds⟩ := shows_bindingPattern hx
    exact ⟨_, .rule (List.mem_of_getElem? (i := 1) rfl)
      (shows_skip_seq_iff.mpr ⟨t, _, ht, .seq hds hcs, rfl⟩) none⟩
  only {r v r' cs} heq hr hr' hv := by
    replace hr : Stops (.question :: .colon :: .equals :: TypeLevel.whole.goesOn) r := hr
    replace hr' : Stops (.question :: .colon :: .equals :: TypeLevel.whole.goesOn) r' := hr'
    obtain ⟨more, rfl, hmore⟩ := hv.exists_cons rfl heq
    obtain ⟨a, ds, place, loc', ha, rfl, rfl⟩ := shows_restParameter ht hx hv hmore
    obtain ⟨rfl, hshown⟩ := h.only (List.cons.inj hmore).2 (hr.mono (by decide))
      (hr'.mono (by decide)) ha
    obtain ⟨annotated', hbare, hread⟩ :=
      Reader.parameter_pieces (x := x) (Or.inl (Eq.refl [])) hshown true loc' place
    refine ⟨rfl, _, rfl, _, hread, ?_⟩
    simp only [Param.bare, BindingPattern.bare, TypeExpr.bareIn_eq, hbare, Bool.not_true,
      Bool.false_and]

end HostBindings.Source

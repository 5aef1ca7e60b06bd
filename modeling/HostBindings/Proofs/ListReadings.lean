import HostBindings.Proofs.PhraseReadings

/-!
Lists of settled phrases as the grammar has them: with commas between and perhaps one at the end,
before a token that closes the list. The trees of a list of types are read to the types.
-/

namespace HostBindings.Source

open Nonterminal (alternativesAt plain rule keep skip)

variable {p : Nonterminal.Shape} {n : Nonterminal} {goesOn openers : List Terminal}
  {item : Phrase} {items : List Phrase} {us v r r' : List Token} {t : Token} {cs : List Concrete}

theorem Shows.exists_cons (h : Shows p v cs) (hp : mayBeEmpty p = false)
    (heq : t :: us = v ++ r') : ∃ rest, v = t :: rest ∧ us = rest ++ r' := by
  cases v with
  | nil =>
      rw [h.mayBeEmpty_of_nil rfl] at hp
      cases hp
  | cons x rest =>
      obtain ⟨rfl, htail⟩ := List.cons.inj heq
      exact ⟨rest, rfl, htail⟩

theorem Shows.omitted_of_stops (h : Shows (.optional p) v cs) {own : List Terminal}
    (hown : openersOf p = some own) (hp : mayBeEmpty p = false) (hstops : Stops own (v ++ r)) :
    v = [] ∧ cs = [] := by
  rcases shows_optional_iff.mp h with htaken | homitted
  · cases v with
    | nil =>
        rw [htaken.mayBeEmpty_of_nil rfl] at hp
        cases hp
    | cons x rest => exact absurd (htaken.opens rfl hown) (stops_cons_iff.mp hstops)
  · exact homitted

theorem shows_list_iff : Shows (Nonterminal.list p) v cs ↔ ∃ x y z ds es, Shows p x ds ∧
    Shows (followers .comma p) y es ∧ Shows (.optional (skip .comma)) z [] ∧
    v = x ++ (y ++ z) ∧ cs = ds ++ es := by
  constructor
  · intro h
    obtain ⟨x, _, ds, _, hx, hrest, rfl, rfl⟩ := shows_seq_iff.mp h
    obtain ⟨y, z, es, fs, hy, hz, rfl, rfl⟩ := shows_seq_iff.mp hrest
    have hnothing : fs = [] := by
      rcases shows_optional_iff.mp hz with hcomma | ⟨_, hnil⟩
      · obtain ⟨_, _, hnil, _⟩ := shows_skip_iff.mp hcomma
        exact hnil
      · exact hnil
    rw [hnothing] at hz ⊢
    exact ⟨x, y, z, ds, es, hx, hy, hz, rfl, by rw [List.append_nil]⟩
  · rintro ⟨x, y, z, ds, es, hx, hy, hz, rfl, rfl⟩
    have hrest := Shows.seq hy hz
    rw [List.append_nil] at hrest
    exact .seq hx hrest

theorem AllSettled.shows_list (h : AllSettled .comma (item :: items) us)
    (hitems : AreItems p goesOn openers (item :: items)) :
    ∃ cs, Shows (Nonterminal.list p) us cs := by
  obtain ⟨x, y, ds, es, rfl, hx, hy, _⟩ := h.shown hitems
  refine ⟨ds ++ es, shows_list_iff.mpr ⟨x, y, [], ds, es, hx, hy, .omitted _, ?_, rfl⟩⟩
  rw [List.append_nil]

/-- A list of settled items before the token that closes it is read item by item. -/
theorem AllSettled.list_only (h : AllSettled .comma (item :: items) us)
    (hitems : AreItems p goesOn openers (item :: items)) (hcomma : .comma ∉ goesOn)
    {close other : Token} (hclose : close.kind ∉ .comma :: (goesOn ++ openers))
    (hother : other.kind = close.kind) (heq : us ++ close :: r = v ++ other :: r')
    (hv : Shows (Nonterminal.list p) v cs) :
    v = us ∧ List.Forall₂ Phrase.IsShownBy (item :: items) cs := by
  obtain ⟨x, y, z, ds, es, hx, hy, hz, rfl, rfl⟩ := shows_list_iff.mp hv
  simp only [List.mem_cons, List.mem_append, not_or] at hclose
  obtain ⟨hnocomma, hstop, hopener⟩ := hclose
  have hz : z = [] ∨ ∃ c, z = [c] ∧ c.kind = .comma := by
    rcases shows_optional_iff.mp hz with htaken | ⟨hnil, _⟩
    · obtain ⟨c, hc, _, hkind⟩ := shows_skip_iff.mp htaken
      exact Or.inr ⟨c, hc, hkind⟩
    · exact Or.inl hnil
  have hstops : Stops goesOn (z ++ other :: r') := by
    rcases hz with rfl | ⟨c, rfl, hc⟩
    · rwa [List.nil_append, stops_cons_iff, hother]
    · rwa [List.cons_append, stops_cons_iff, hc]
  have hend : ∀ a b rest, z ++ other :: r' = a :: b :: rest → a.kind = .comma →
      b.kind ∉ openers := by
    intro a b rest hab ha
    rcases hz with rfl | ⟨c, rfl, hc⟩
    · obtain ⟨rfl, _⟩ := List.cons.inj hab
      exact absurd (hother.symm.trans ha) hnocomma
    · obtain ⟨_, hb⟩ := List.cons.inj hab
      obtain ⟨rfl, _⟩ := List.cons.inj hb
      rwa [hother]
  rw [List.append_assoc, List.append_assoc] at heq
  obtain ⟨rfl, hshown, _⟩ := h.only hitems hcomma heq hx hy
    (stops_cons_iff.mpr (by simp [hnocomma, hstop])) hstops hend
  rw [← List.append_assoc] at heq
  have hclosed : close :: r = z ++ other :: r' := List.append_cancel_left heq
  rcases hz with rfl | ⟨c, rfl, hc⟩
  · exact ⟨by rw [List.append_nil], hshown⟩
  · obtain ⟨rfl, _⟩ := List.cons.inj hclosed
    exact absurd hc hnocomma

theorem AllSettled.shows_optionalList (h : AllSettled .comma items us)
    (hitems : AreItems p goesOn openers items) :
    ∃ cs, Shows (.optional (Nonterminal.list p)) us cs := by
  cases h with
  | none => exact ⟨[], .omitted _⟩
  | single h =>
      obtain ⟨cs, hcs⟩ := (AllSettled.single h).shows_list hitems
      exact ⟨cs, .taken hcs⟩
  | more h ht hrest =>
      obtain ⟨cs, hcs⟩ := (AllSettled.more h ht hrest).shows_list hitems
      exact ⟨cs, .taken hcs⟩

theorem openersOf_list (hp : mayBeEmpty p = false) :
    openersOf (Nonterminal.list p) = openersOf p := by
  show (if mayBeEmpty p then _ else openersOf p) = openersOf p
  rw [hp]
  rfl

theorem mayBeEmpty_list (hp : mayBeEmpty p = false) :
    mayBeEmpty (Nonterminal.list p) = false := by
  show (mayBeEmpty p && _) = false
  rw [hp]
  rfl

theorem AllSettled.optionalList_only (h : AllSettled .comma items us)
    (hitems : AreItems p goesOn openers items) (hcomma : .comma ∉ goesOn)
    {own : List Terminal} (hown : openersOf p = some own) (hp : mayBeEmpty p = false)
    {close other : Token} (hclose : close.kind ∉ .comma :: (goesOn ++ openers))
    (hout : close.kind ∉ own) (hother : other.kind = close.kind)
    (heq : us ++ close :: r = v ++ other :: r')
    (hv : Shows (.optional (Nonterminal.list p)) v cs) :
    v = us ∧ List.Forall₂ Phrase.IsShownBy items cs := by
  have hsome : ∀ {item rest}, AllSettled .comma (item :: rest) us →
      AreItems p goesOn openers (item :: rest) →
      v = us ∧ List.Forall₂ Phrase.IsShownBy (item :: rest) cs := by
    intro item rest h hitems
    rcases shows_optional_iff.mp hv with htaken | ⟨rfl, _⟩
    · exact h.list_only hitems hcomma hclose hother heq htaken
    · -- the list would begin with the token that closes it
      have hitem := hitems item List.mem_cons_self
      obtain ⟨t, more, rfl, ht⟩ := h.opens hitem.isItem
      obtain ⟨rfl, _⟩ := List.cons.inj heq
      rw [hitem.openers, hother] at ht
      exact absurd (by simp [ht]) hclose
  cases h with
  | none =>
      have hstops : Stops own (v ++ other :: r') := by
        rw [← heq]
        exact stops_cons_iff.mpr hout
      obtain ⟨rfl, rfl⟩ := hv.omitted_of_stops (by rw [openersOf_list hp, hown])
        (mayBeEmpty_list hp) hstops
      exact ⟨rfl, .nil⟩
  | single h => exact hsome (.single h) hitems
  | more h ht hrest => exact hsome (.more h ht hrest) hitems

theorem Reader.isNode_of_type {q : Piece} {t : TypeExpr} (h : Reader.type q = .ok t) :
    q.isNode = true := by
  cases q with
  | token => cases h
  | node => rfl

theorem Reader.isNode_of_param {q : Piece} {p : Param} (h : Reader.param q = .ok p) :
    q.isNode = true := by
  cases q with
  | token => cases h
  | node => rfl

theorem Reader.mapM_nodes_of_forall₂ {α : Type} {f : Piece → Read α} {bare : α → α}
    (hf : ∀ {q a}, f q = .ok a → q.isNode = true) {as : List α}
    (h : List.Forall₂ (fun a c => ∃ a', f (Reader.piece c) = .ok a' ∧ bare a' = bare a) as cs) :
    ∃ as', (Reader.pieces cs).nodes.mapM f = .ok as' ∧ as'.map bare = as.map bare := by
  induction h with
  | nil => exact ⟨[], rfl, rfl⟩
  | @cons a c as cs hfirst _ ih =>
      obtain ⟨a', ha, hbare⟩ := hfirst
      obtain ⟨as', has, hbares⟩ := ih
      refine ⟨a' :: as', ?_, by rw [List.map_cons, List.map_cons, hbare, hbares]⟩
      rw [Pieces.nodes] at has ⊢
      rw [Reader.pieces, List.filter_cons_of_pos (hf ha), List.mapM_cons, ha, has]
      rfl

theorem Reader.allTypes_of_forall₂ {ts : List TypeExpr}
    (h : List.Forall₂ Concrete.IsOfType ts cs) :
    ∃ ts', Reader.allTypes (Reader.pieces cs) = .ok ts' ∧
      ts'.map TypeExpr.bare = ts.map TypeExpr.bare :=
  Reader.mapM_nodes_of_forall₂ Reader.isNode_of_type h

theorem Concrete.IsOfType.exists_type {t : TypeExpr} {c : Concrete} (h : c.IsOfType t) :
    ∃ t', Reader.firstType (Reader.pieces [c]) = .ok t' ∧
      Reader.lastType (Reader.pieces [c]) = .ok t' ∧ t'.bare = t.bare := by
  obtain ⟨t', ht, hbare⟩ := h
  have hnodes : (Reader.pieces [c]).nodes = [Reader.piece c] := by
    rw [Pieces.nodes, Reader.pieces, List.filter_cons_of_pos (Reader.isNode_of_type ht)]
    rfl
  refine ⟨t', ?_, ?_, hbare⟩
  · rw [Reader.firstType, hnodes]
    exact ht
  · rw [Reader.lastType, hnodes]
    exact ht

end HostBindings.Source

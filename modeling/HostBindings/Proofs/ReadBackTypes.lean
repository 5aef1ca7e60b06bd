import HostBindings.Proofs.ParsedModules
import HostBindings.Proofs.WrittenReadings

/-!
Types are read back as they are written. A source whose tokens declare a name for a written type is
parsed to one declaration of the name, and its type is the type that was written, but for the
places.
-/

namespace HostBindings.Source

open Grammar (Derivation Pattern between)
open Nonterminal (alternativesAt plain rule keep skip)

/-- The words of a declaration that gives a name to a type. -/
def aliasWords (name : Text) (ws : List Word) : List Word :=
  Word.mark .wordType :: Word.name name :: Word.mark .equals :: (ws ++ [Word.mark .semicolon])

variable {us v r : List Token} {t x e : Token} {cs : List Concrete} {type : TypeExpr}

theorem shows_aliasItem (ht : t.kind = .wordType) (h : Shows (.rule .sourceItem) (t :: v) cs) :
    Shows (.rule .aliasDeclaration) (t :: v) cs := by
  have hstatement : Shows (.rule .statement) (t :: v) cs :=
    h.through_inlined rfl (by rw [ht]; rfl)
  have hdeclaration : Shows (.rule .declaration) (t :: v) cs :=
    hstatement.through rfl (by decide) (by rw [ht]; rfl)
  obtain ⟨a, ha, children, loc, hshows, rfl⟩ := shows_rule_iff.mp hdeclaration
  obtain rfl := List.mem_singleton.mp ha
  obtain ⟨front, w, _, _, hfront, hbody, hsplit, rfl⟩ := shows_seq_iff.mp hshows
  obtain ⟨rfl, rfl⟩ := hfront.omitted_of_stops rfl rfl (r := w)
    (by rw [← hsplit, stops_cons_iff, ht]; decide)
  obtain rfl : t :: v = w := hsplit
  have hdeclared : Shows (.rule .aliasDeclaration) (t :: v) _ :=
    Shows.through_inlined (n := .declarationBody) hbody rfl (by rw [ht]; rfl)
  have hone := hdeclared.length_eq_one (by decide)
  rwa [show (plain [Nonterminal.optional (skip .wordDeclare), rule .declarationBody]).label = none
    from rfl, List.nil_append, Nonterminal.shown_of_transparent (n := .declaration) rfl loc hone]

theorem shows_aliasDeclaration (hx : x.kind = .name) (he : e.kind = .equals)
    (h : Shows (.rule .aliasDeclaration) (t :: v) cs) (heq : x :: e :: us = v ++ r) :
    ∃ u ds place loc, Shows (.rule .typeExpression) u ds ∧ v = x :: e :: u ∧ us = u ++ r ∧
      cs = [.node .aliasDeclaration loc (.node .identifier place [.token x] :: ds)] := by
  obtain ⟨_, loc, hshows, rfl⟩ := (shows_node_iff rfl).mp h
  obtain ⟨_, w, _, hname, hsplit⟩ := shows_skip_seq_iff.mp hshows
  obtain ⟨_, rfl⟩ := List.cons.inj hsplit
  obtain ⟨y, _, _, _, hy, hparams, rfl, rfl⟩ := shows_seq_iff.mp hname
  rw [List.append_assoc] at heq
  obtain ⟨y, rfl, hbehind⟩ := hy.exists_cons rfl heq
  obtain ⟨rfl, place, rfl⟩ := shows_identifier hx hy
  obtain ⟨front, w, _, _, hfront, hequals, rfl, rfl⟩ := shows_seq_iff.mp hparams
  obtain ⟨rfl, rfl⟩ := hfront.omitted_of_stops rfl rfl (r := w ++ r)
    (by rw [← List.append_assoc, ← List.nil_append ((front ++ w) ++ r), ← hbehind, stops_cons_iff,
          he]
        decide)
  obtain ⟨_, u, _, hu, rfl⟩ := shows_skip_seq_iff.mp hequals
  obtain ⟨rfl, rfl⟩ := List.cons.inj hbehind
  exact ⟨u, _, place, loc, hu, rfl, rfl, rfl⟩

theorem shows_semicolons (ht : t.kind = .semicolon)
    (h : Shows (.star (.rule .sourceItem)) [t] cs) : cs = [] := by
  rcases shows_star_iff.mp h with ⟨hnil, _⟩ | ⟨y, z, ds, es, hy, hz, hsplit, rfl⟩
  · cases hnil
  · obtain ⟨y, rfl, hrest⟩ := hy.exists_cons rfl hsplit
    obtain ⟨rfl, rfl⟩ := List.append_eq_nil_iff.mp hrest.symm
    obtain ⟨a, ha, children, loc, hshows, rfl⟩ := hy.exists_alternative
    rw [ht] at ha
    obtain rfl := List.mem_singleton.mp ha
    obtain ⟨_, _, rfl, _⟩ := shows_skip_iff.mp hshows
    rcases shows_star_iff.mp hz with ⟨_, rfl⟩ | ⟨_, _, _, _, hitem, _, hnil, _⟩
    · rfl
    · cases hitem.mayBeEmpty_of_nil (List.append_eq_nil_iff.mp hnil.symm).1

section

variable {w s : Token} (hw : w.kind = .wordType) (hx : x.kind = .name) (he : e.kind = .equals)
  (hs : s.kind = .semicolon) (htype : Settled (.type .whole type) us)

include hw hx he hs htype

theorem exists_shows_alias :
    ∃ cs, Shows (.rule .sourceFile) (w :: x :: e :: (us ++ [s])) cs := by
  obtain ⟨ds, hds⟩ := htype.shown
  have hbehind : Shows (Nonterminal.sequence [Nonterminal.optional (rule .typeParameters),
      skip .equals, rule .typeExpression]) (e :: us) ds :=
    shows_seq_iff.mpr ⟨[], _, [], _, .omitted _, shows_skip_seq_iff.mpr ⟨e, us, he, hds, rfl⟩, rfl,
      rfl⟩
  have halias := Shows.rule (n := .aliasDeclaration) (List.mem_singleton_self _)
    (shows_skip_seq_iff.mpr ⟨w, _, hw, .seq (shows_name hx) hbehind, rfl⟩) none
  have hbody := Shows.rule (n := .declarationBody) (List.mem_of_getElem? (i := 3) rfl) halias none
  have hdeclaration := Shows.rule (n := .declaration) (List.mem_singleton_self _)
    (shows_seq_iff.mpr ⟨[], _, [], _, .omitted _, hbody, rfl, rfl⟩) none
  have hstatement :=
    Shows.rule (n := .statement) (List.mem_of_getElem? (i := 11) rfl) hdeclaration none
  have hitem := Shows.rule (n := .sourceItem) (List.mem_of_getElem? (i := 0) rfl) hstatement none
  have hend := Shows.skipped s
  rw [hs] at hend
  have hlast := Shows.rule (n := .sourceItem) (List.mem_of_getElem? (i := 1) rfl) hend none
  exact ⟨_, .rule (List.mem_singleton_self _) (.more hitem (.more hlast (.none _))) none⟩

theorem shows_alias (h : Shows (.rule .sourceFile) (w :: x :: e :: (us ++ [s])) cs) :
    ∃ loc loc' place d, d.IsOfType type ∧ cs = [.node .sourceFile loc
      [.node .aliasDeclaration loc' [.node .identifier place [.token x], d]]] := by
  obtain ⟨_, loc, hshows, rfl⟩ := (shows_node_iff rfl).mp h
  rcases shows_star_iff.mp hshows with ⟨hnil, _⟩ | ⟨y, z, ds, es, hy, hz, hsplit, rfl⟩
  · cases hnil
  · obtain ⟨y, rfl, hrest⟩ := hy.exists_cons rfl hsplit
    obtain ⟨u, fs, place, loc', hu, rfl, hbehind, rfl⟩ :=
      shows_aliasDeclaration hx he (shows_aliasItem hw hy) hrest
    -- no item goes on with a type, so the type ends before the semicolon
    have hends : s.kind ∉ TypeLevel.whole.goesOn := by rw [hs]; decide
    obtain ⟨rfl, d, rfl, hd⟩ := htype.only hbehind (stops_cons_iff.mpr hends)
      (hz.stops (show openersOf (.star (.rule .sourceItem)) =
          some (.semicolon :: Nonterminal.statementKinds) from rfl)
        (by decide : ∀ k ∈ Terminal.semicolon :: Nonterminal.statementKinds,
          k ∉ TypeLevel.whole.goesOn)) hu
    obtain rfl := List.append_cancel_left hbehind
    rw [shows_semicolons hs hz, List.append_nil]
    exact ⟨loc, loc', place, d, hd, rfl⟩

end

theorem Reader.module_alias {d : Concrete} (h : d.IsOfType type)
    (loc loc' place : Option Location) :
    ∃ type', type'.bare = type.bare ∧ Reader.module [.node .sourceFile loc
      [.node .aliasDeclaration loc' [.node .identifier place [.token x], d]]] =
        .ok ⟨[.declaration (.typeAlias ⟨x.text, type', [], loc'⟩)], loc⟩ := by
  obtain ⟨type', hread, hbare⟩ := h
  obtain ⟨hlast, hnone⟩ := Reader.lastType_pair hread
    (by decide : Nonterminal.identifier ≠ .typeParameters) place [.token x]
  have halias : Reader.aliasDeclaration loc' (Reader.pieces [.node .identifier place [.token x], d])
      = .ok (.typeAlias ⟨x.text, type', [], loc'⟩) := by
    show (do
      let typeParams ← Reader.typeParamsOf (Reader.pieces [.node .identifier place [.token x], d])
      let type ← Reader.lastType (Reader.pieces [.node .identifier place [.token x], d])
      pure (Declaration.typeAlias ⟨x.text, type, typeParams, loc'⟩)) = _
    rw [hnone, hlast]
    rfl
  refine ⟨type', hbare, ?_⟩
  show (do
    let body ← (do
      let statement ← (Reader.aliasDeclaration loc' (Reader.pieces
        [.node .identifier place [.token x], d])).map Statement.declaration
      let rest ← pure []
      pure (statement :: rest))
    pure (⟨body, loc⟩ : Module)) = _
  rw [halias]
  rfl

/-- Any source whose tokens are the words of a declaration of a name for a written type is parsed
to this declaration and nothing else, with the type that was written but for the places; the words
with spaces between them are such a source. -/
theorem TypeExpr.parse_written (file : Option Text) {name : Text}
    (hname : IsLexeme (some .name) name) {t : TypeExpr} {ws : List Word}
    (h : Writes (.type .whole t) ws) :
    (∃ tokens, Lexes Location.origin (Word.spaced (aliasWords name ws)) tokens ∧
      tokens.map Token.content = aliasWords name ws) ∧
    ∀ source tokens, Lexes Location.origin source tokens →
      tokens.map Token.content = aliasWords name ws →
      ∃ m d, Module.parse file source = .ok (.ok m) ∧ m.body = [.declaration (.typeAlias d)] ∧
        d.name = name ∧ d.typeParams = [] ∧ d.type.bare = t.bare := by
  refine ⟨exists_lexes_spaced ?_, fun source tokens hlexes hcontent => ?_⟩
  · rw [aliasWords, List.forall_mem_cons, List.forall_mem_cons, List.forall_mem_cons,
      List.forall_mem_append, List.forall_mem_singleton]
    exact ⟨.word (by decide), .plain (.name hname), .plain (.mark (by decide)),
      fun w hw => .plain (h.isPlain w hw), .plain (.mark (by decide))⟩
  · obtain ⟨w, _, hw, _, hback, rfl⟩ := exists_cons_of_content hcontent
    obtain ⟨x, _, hx, rfl, hequals, rfl⟩ := exists_cons_of_content hback
    obtain ⟨e, _, he, _, hrest, rfl⟩ := exists_cons_of_content hequals
    obtain ⟨us, _, rfl, hus, hlast⟩ := List.map_eq_append_iff.mp hrest
    obtain ⟨s, hs, _, rfl⟩ := exists_singleton_of_content hlast
    have htype : Settled (.type .whole t) us := h.isReadBack hus
    obtain ⟨trees, htrees⟩ := exists_shows_alias hw hx he hs htype
    rcases parse_of_lexes file hlexes with ⟨d, _, hreads, hparse⟩ | ⟨hnot, _⟩
    · have hshows := shows_of_reads hreads
      rw [between, List.drop_zero, Nat.sub_zero, List.take_length] at hshows
      obtain ⟨loc, loc', place, c, hc, htree⟩ := shows_alias hw hx he hs htype hshows
      obtain ⟨type', hbare, hmodule⟩ := Reader.module_alias (x := x) hc loc loc' place
      refine ⟨⟨[.declaration (.typeAlias ⟨x.text, type', [], loc'⟩)], loc⟩, _, ?_, rfl, rfl, rfl,
        hbare⟩
      rw [hparse, show Concrete.ofDerivation _ d = _ from htree, hmodule]
      rfl
    · exact absurd htrees.derives hnot

theorem TypeExpr.parse_written_union :
    ∃ m d, Module.parse none "type X = string | ( A ) [ ] ;" = .ok (.ok m) ∧
      m.body = [.declaration (.typeAlias d)] ∧ d.name = "X" ∧ d.type.bare =
        .union [.keyword .string none,
          .array (.paren (.reference [] "A" [] none) none) none] none := by
  have hX : IsLexeme (some .name) "X" := isLexeme_name_of_all (by decide) (by decide)
  have hA : IsLexeme (some .name) "A" := isLexeme_name_of_all (by decide) (by decide)
  have hsegments : Writes (.list .dot (([] ++ [("A" : Text)]).map Phrase.name)) [Word.name "A"] :=
    .single (.name hA) .dot
  have hreference : Writes (.type .operand (.reference [] "A" [] none)) [Word.name "A"] :=
    .reference (fun _ => by decide) hsegments none
  have harray := Writes.array (.paren (.loosen (.loosen (.loosen hreference))) none) none
  have hkeyword : Writes (.type .operand (.keyword .string none)) [Word.name "string"] :=
    .keyword (by decide) none
  have hmembers : Writes (.list .bar (([.keyword .string none,
      .array (.paren (.reference [] "A" [] none) none) none] : List TypeExpr).map
        (.type .intersection))) _ :=
    .more (.loosen hkeyword) (by decide) (.single (.loosen harray) .bar)
  have hunion := Writes.loosen (.union (by decide) hmembers none)
  obtain ⟨⟨tokens, hlexes, hcontent⟩, hparse⟩ := TypeExpr.parse_written none hX hunion
  obtain ⟨m, d, hm, hbody, hd, _, hbare⟩ := hparse _ tokens hlexes hcontent
  exact ⟨m, d, hm, hbody, hd, hbare⟩

end HostBindings.Source

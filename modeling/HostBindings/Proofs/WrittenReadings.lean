import HostBindings.Proofs.ElementReadings
import HostBindings.Proofs.ParameterReadings

/-!
What is written is read back: the tokens of every phrase that is written are settled. The induction
is on how a phrase is written, with one case for every form; an operand is settled as the beginning
of what is read, because brackets may follow it, and everything else as a whole.
-/

namespace HostBindings.Source

variable {p : Phrase} {us : List Token}

/-- The tokens of a phrase are read to the phrase. -/
def Phrase.IsReadBack : Phrase → List Token → Prop
  | .annotated t, us => AnnotationSettled t us
  | .list separator items, us => AllSettled separator items us
  | .type .operand t, us => SettledOperand t us
  | p, us => Settled p us

theorem Phrase.IsReadBack.settled (h : p.IsReadBack us) (hitem : p.isItem = true) :
    Settled p us := by
  cases p with
  | name | element | param => exact h
  | type level t =>
      cases level with
      | operand => exact SettledOperand.settled h
      | whole | union | intersection => exact h
  | annotated | list => cases hitem

theorem exists_cons_of_content {k : Terminal} {w : Text} {ws : List Word}
    (h : us.map Token.content = (k, w) :: ws) :
    ∃ t rest, t.kind = k ∧ t.text = w ∧ rest.map Token.content = ws ∧ us = t :: rest := by
  obtain ⟨t, rest, rfl, ht, hrest⟩ := List.map_eq_cons_iff.mp h
  exact ⟨t, rest, congrArg Prod.fst ht, congrArg Prod.snd ht, hrest, rfl⟩

theorem exists_singleton_of_content {k : Terminal} {w : Text}
    (h : us.map Token.content = [(k, w)]) : ∃ t, t.kind = k ∧ t.text = w ∧ us = [t] := by
  obtain ⟨t, rest, hk, hw, hrest, rfl⟩ := exists_cons_of_content h
  rw [List.map_eq_nil_iff.mp hrest]
  exact ⟨t, hk, hw, rfl⟩

theorem settled_nameAt {t : Token} (hk : t.kind = .name) {w : Text} (hw : t.text = w) :
    AllSettled .dot [.name w] [t] := by
  rw [← hw]
  exact .single fun _ => settled_name hk

theorem Reader.reference_append {qualifier : List Text} {name : Text} {args : List TypeExpr}
    (h : qualifier = [] → args = [] → IsReferring name) (loc : Option Location) :
    Reader.reference (qualifier ++ [name]) args loc = .ok (.reference qualifier name args loc) := by
  rw [Reader.reference, List.getLast?_append, List.dropLast_concat]
  dsimp only [List.getLast?_singleton, Option.some_or]
  split
  · rename_i hplain
    obtain ⟨hqualifier, hargs⟩ := Bool.and_eq_true_iff.mp hplain
    obtain rfl := List.isEmpty_iff.mp hqualifier
    obtain rfl := List.isEmpty_iff.mp hargs
    obtain ⟨hkeyword, hthis, htrue, hfalse⟩ := h rfl rfl
    rw [hkeyword]
    simp [hthis, htrue, hfalse]
  · rfl

theorem settledOperand_word {t : Token} {type : TypeExpr} (hk : t.kind = .name)
    (hread : ∀ loc, ∃ type', Reader.reference [t.text] [] loc = .ok type' ∧
      type'.bare = type.bare) : SettledOperand type [t] := by
  have hprimary := settledPrimary_reference (List.cons_ne_nil t.text [])
    (settled_nameAt hk rfl) ArgumentsSettled.omitted (t := type) fun args' loc hargs => by
      rw [List.map_eq_nil_iff.mp hargs]
      exact hread loc
  exact hprimary.settledOperand

/-- Every phrase is read from the tokens of the words that it is written as. -/
theorem Writes.isReadBack {ws : List Word} (h : Writes p ws) {us : List Token}
    (hus : us.map Token.content = ws) : p.IsReadBack us := by
  induction h generalizing us with
  | name =>
      obtain ⟨t, hk, rfl, rfl⟩ := exists_singleton_of_content hus
      exact settled_name hk
  | keyword hkeyword loc =>
      obtain ⟨t, hk, hw, rfl⟩ := exists_singleton_of_content hus
      have hword : ∀ k ∈ Keyword.all, Keyword.ofWord? k.word = some k := by decide
      refine settledOperand_word hk fun place => ⟨.keyword _ place, ?_, rfl⟩
      rw [hw, Reader.reference]
      dsimp only [List.getLast?_singleton]
      rw [hword _ hkeyword]
      rfl
  | this loc =>
      obtain ⟨t, hk, hw, rfl⟩ := exists_singleton_of_content hus
      refine settledOperand_word hk fun place => ⟨.this place, ?_, rfl⟩
      rw [hw]
      rfl
  | @reference qualifier name ws hreferring _ loc ih =>
      have hprimary := settledPrimary_reference (t := .reference qualifier name [] loc)
        (by simp) (ih hus) ArgumentsSettled.omitted fun args place hargs => by
          obtain rfl := List.map_eq_nil_iff.mp hargs
          exact ⟨_, Reader.reference_append (fun hnil _ => hreferring hnil) place, rfl⟩
      rw [List.append_nil] at hprimary
      exact hprimary.settledOperand
  | @application qualifier name args ws us' _ hne _ loc ihnames ihargs =>
      obtain ⟨front, _, rfl, hfront, hback⟩ := List.map_eq_append_iff.mp hus
      obtain ⟨less, _, hless, _, hargs, rfl⟩ := exists_cons_of_content hback
      obtain ⟨inner, _, rfl, hinner, hlast⟩ := List.map_eq_append_iff.mp hargs
      obtain ⟨greater, hgreater, _, rfl⟩ := exists_singleton_of_content hlast
      obtain ⟨first, rest, rfl⟩ := List.exists_cons_of_ne_nil hne
      have hprimary := settledPrimary_reference (t := .reference qualifier name (first :: rest) loc)
        (by simp) (ihnames hfront) (ArgumentsSettled.given hless (ihargs hinner) hgreater)
        fun args' place hargs => by
          have hsome : args' ≠ [] := by
            rintro rfl
            cases hargs
          refine ⟨_, Reader.reference_append (fun _ hnil => absurd hnil hsome) place, ?_⟩
          rw [TypeExpr.bare, TypeExpr.bare, TypeExpr.bareAll_eq, TypeExpr.bareAll_eq, hargs]
      exact hprimary.settledOperand
  | array _ loc ih =>
      obtain ⟨front, _, rfl, hfront, hback⟩ := List.map_eq_append_iff.mp hus
      obtain ⟨o, _, ho, _, hlast, rfl⟩ := exists_cons_of_content hback
      obtain ⟨k, hk, _, rfl⟩ := exists_singleton_of_content hlast
      exact settledOperand_array (ih hfront) ho hk loc
  | tuple _ loc ih =>
      obtain ⟨o, _, ho, _, hback, rfl⟩ := exists_cons_of_content hus
      obtain ⟨inner, _, rfl, hinner, hlast⟩ := List.map_eq_append_iff.mp hback
      obtain ⟨c, hc, _, rfl⟩ := exists_singleton_of_content hlast
      exact (settledPrimary_tuple (ih hinner) ho hc loc).settledOperand
  | paren _ loc ih =>
      obtain ⟨o, _, ho, _, hback, rfl⟩ := exists_cons_of_content hus
      obtain ⟨inner, _, rfl, hinner, hlast⟩ := List.map_eq_append_iff.mp hback
      obtain ⟨c, hc, _, rfl⟩ := exists_singleton_of_content hlast
      exact (settledPrimary_paren (ih hinner) ho hc loc).settledOperand
  | intersection hmany _ loc ih => exact Joint.settled_make (j := .intersection) hmany (ih hus) loc
  | union hmany _ loc ih => exact Joint.settled_make (j := .union) hmany (ih hus) loc
  | function _ hresult loc ihparams ihresult =>
      obtain ⟨o, _, ho, _, hback, rfl⟩ := exists_cons_of_content hus
      obtain ⟨inner, _, rfl, hinner, hclose⟩ := List.map_eq_append_iff.mp hback
      obtain ⟨c, _, hc, _, harrow, rfl⟩ := exists_cons_of_content hclose
      obtain ⟨a, u, ha, _, rfl, rfl⟩ := exists_cons_of_content harrow
      refine settled_function ho (ihparams hinner) hc ha (ihresult rfl) (fun t ht hword => ?_) loc
      have hplain : t.kind ∉ Terminal.words :=
        (hresult.isPlain _ (List.mem_map_of_mem ht)).notMem_words
      rw [hword] at hplain
      exact absurd (by decide) hplain
  | @loosen level t ws _ ih =>
      cases level with
      | whole => exact ih hus
      | union => exact Settled.whole_of_union (ih hus)
      | intersection => exact Joint.settled_single (j := .union) (ih hus)
      | operand => exact Joint.settled_single (j := .intersection) ((ih hus).settled rfl)
  | element _ ih => exact Settled.element (ih hus)
  | optionalElement _ loc ih =>
      obtain ⟨front, _, rfl, hfront, hback⟩ := List.map_eq_append_iff.mp hus
      obtain ⟨q, hq, _, rfl⟩ := exists_singleton_of_content hback
      exact Settled.optionalElement (ih hfront) hq loc
  | restElement _ loc ih =>
      obtain ⟨e, us, he, _, hback, rfl⟩ := exists_cons_of_content hus
      exact Settled.restElement (ih hback) he loc
  | unannotated =>
      obtain rfl := List.map_eq_nil_iff.mp hus
      exact .omitted
  | annotated _ ih =>
      obtain ⟨colon, us, hcolon, _, hback, rfl⟩ := exists_cons_of_content hus
      exact .given hcolon (ih hback)
  | @param w annotated ws _ isOptional _ patternLoc loc ih =>
      obtain ⟨x, _, hx, rfl, hback, rfl⟩ := exists_cons_of_content hus
      obtain ⟨marks, us, rfl, hmarks, hannotated⟩ := List.map_eq_append_iff.mp hback
      have hquestion : IsMark .question marks ∧ (!marks.isEmpty) = isOptional := by
        cases isOptional with
        | false =>
            obtain rfl := List.map_eq_nil_iff.mp hmarks
            exact ⟨Or.inl rfl, rfl⟩
        | true =>
            obtain ⟨q, hq, _, rfl⟩ := exists_singleton_of_content hmarks
            exact ⟨Or.inr ⟨q, rfl, hq⟩, rfl⟩
      obtain ⟨hmark, rfl⟩ := hquestion
      exact settled_param hx hmark (ih hannotated) patternLoc loc
  | restParam _ _ patternLoc loc ih =>
      obtain ⟨e, _, he, _, hback, rfl⟩ := exists_cons_of_content hus
      obtain ⟨x, us, hx, rfl, hannotated, rfl⟩ := exists_cons_of_content hback
      exact settled_restParam he hx (ih hannotated) patternLoc loc
  | none =>
      obtain rfl := List.map_eq_nil_iff.mp hus
      exact .none
  | single _ separator ih => exact .single (ih hus).settled
  | more _ _ _ ih ihrest =>
      obtain ⟨front, _, rfl, hfront, hback⟩ := List.map_eq_append_iff.mp hus
      obtain ⟨t, us, ht, _, hrest, rfl⟩ := exists_cons_of_content hback
      exact .more (ih hfront).settled ht (ihrest hrest)

end HostBindings.Source

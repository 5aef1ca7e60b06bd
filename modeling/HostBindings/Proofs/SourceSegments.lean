import HostBindings.Proofs.GrammarReadings
import HostBindings.Proofs.LexedTexts
import Mathlib.Data.List.DropRight

/-!
Where the tokens of a source text stand. A text is cut into segments from its start on: the lexemes
of the tokens and the white space and comments between them, each of which starts where the one
before it ends. The cutting ends with the text, or at the first position where no lexeme fits. The
tokens are the segments with a kind, and their places count the lines and columns of the text
before them.
-/

namespace HostBindings

namespace Location

/-- The place behind a text: one line more than it has line feeds, and one column more than it has
code points since the last of them. -/
def behind (before : Text) : Location where
  line := 1 + before.count (CodePoint.ofChar '\n')
  column := 1 + (before.rtakeWhile (· != CodePoint.ofChar '\n')).length

theorem behind_concat (before : Text) (c : CodePoint) :
    behind (before ++ [c]) = (behind before).next c := by
  by_cases hc : c = CodePoint.ofChar '\n'
  · rw [behind, List.rtakeWhile_concat_neg _ _ _ (by simp [hc]), List.count_append]
    simp [behind, next, hc, Int.add_assoc]
  · rw [behind, List.rtakeWhile_concat_pos _ _ _ (by simp [hc]), List.count_append]
    simp [behind, next, hc, Int.add_assoc]

theorem after_behind (before t : Text) : (behind before).after t = behind (before ++ t) := by
  induction t generalizing before with
  | nil => rw [List.append_nil, after, List.foldl_nil]
  | cons c rest ih =>
      rw [after, List.foldl_cons, ← behind_concat, ← after, ih, List.append_assoc,
        List.singleton_append]

end Location

namespace Source

open Lexeme

/-- A part of a source text that starts at a position. One without a kind is white space or a
comment. -/
structure Segment where
  kind : Option Terminal
  start : Nat
  text : Text

/-- The token of a segment, unless it is skipped. -/
def Segment.token? (source : Text) (s : Segment) : Option Token :=
  s.kind.map fun kind => ⟨kind, s.text, Location.behind (source.take s.start)⟩

/-- A source text is cut from a position on: each segment is the longest lexeme there and starts
where the one before it ends, and where the last one ends no lexeme fits. -/
inductive Cuts (source : Text) : Nat → List Segment → Nat → Prop
  | stop {start : Nat} (hnone : NoneOpens (source.drop start)) : Cuts source start [] start
  | segment {start position : Nat} {kind : Option Terminal} {lexeme rest : Text}
      {segments : List Segment} (hopens : source.drop start = lexeme ++ rest)
      (hnext : IsNext kind lexeme rest)
      (hrest : Cuts source (start + lexeme.length) segments position) :
      Cuts source start (⟨kind, start, lexeme⟩ :: segments) position

namespace Cuts

variable {source : Text} {start position position' : Nat} {segments segments' : List Segment}

theorem drop_eq (h : Cuts source start segments position) :
    source.drop start = segments.flatMap (·.text) ++ source.drop position ∧
      start + (segments.flatMap (·.text)).length = position := by
  induction h with
  | stop _ => exact ⟨rfl, rfl⟩
  | segment hopens _ _ ih =>
      obtain ⟨hdrop, hlength⟩ := ih
      rw [Grammar.drop_of_drop_eq_append hopens] at hdrop
      refine ⟨?_, ?_⟩
      · rw [hopens, hdrop, List.flatMap_cons, List.append_assoc]
      · rw [List.flatMap_cons, List.length_append, ← Nat.add_assoc]
        exact hlength

/-- There is one way only to cut a text. -/
theorem unique (h : Cuts source start segments position)
    (h' : Cuts source start segments' position') : segments' = segments ∧ position' = position := by
  induction h generalizing segments' position' with
  | stop hnone =>
      cases h' with
      | stop _ => exact ⟨rfl, rfl⟩
      | segment hopens hnext _ =>
          rw [hopens] at hnone
          exact absurd hnone hnext.not_noneOpens
  | segment hopens hnext _ ih =>
      cases h' with
      | stop hnone =>
          rw [hopens] at hnone
          exact absurd hnone hnext.not_noneOpens
      | segment hopens' hnext' hrest' =>
          have hfirst := next?_of_isNext hnext
          rw [← hopens, hopens', next?_of_isNext hnext'] at hfirst
          obtain ⟨rfl, hlength⟩ := Prod.mk.inj (Option.some.inj hfirst)
          obtain ⟨rfl, -⟩ := List.append_inj (hopens'.symm.trans hopens) hlength
          obtain ⟨rfl, rfl⟩ := ih hrest'
          exact ⟨rfl, rfl⟩

end Cuts

/-- Scanning from a position on cuts the text there, and the place that it carries along is the one
behind the text before. -/
theorem exists_cuts_scan (source : Text) {fuel : Nat} (start : Nat)
    (hfuel : (source.drop start).length ≤ fuel) :
    ∃ segments position, Cuts source start segments position ∧
      Tokens.scan fuel (Location.behind (source.take start)) (source.drop start) =
        ⟨segments.filterMap (Segment.token? source),
          source[position]?.map fun c => (Location.behind (source.take position), c)⟩ := by
  induction fuel using Nat.strong_induction_on generalizing start with
  | _ fuel ih =>
      rcases exists_isNext_or_noneOpens (source.drop start) with
        ⟨kind, lexeme, rest, hopens, hnext⟩ | hnone
      · have hpos := List.length_pos_iff.mpr hnext.ne_nil
        have hdrop := Grammar.drop_of_drop_eq_append hopens
        have htake : source.take (start + lexeme.length) = source.take start ++ lexeme := by
          rw [List.take_add, hopens, List.take_left]
        rw [hopens, List.length_append] at hfuel
        obtain ⟨i, rfl⟩ := Nat.exists_eq_succ_of_ne_zero (n := fuel) (by omega)
        obtain ⟨segments, position, hcuts, hscan⟩ :=
          ih i (Nat.lt_succ_self i) (start + lexeme.length) (by rw [hdrop]; omega)
        refine ⟨⟨kind, start, lexeme⟩ :: segments, position, .segment hopens hnext hcuts, ?_⟩
        rw [hdrop, htake, ← Location.after_behind] at hscan
        rw [hopens, Tokens.scan_of_isNext hnext, hscan]
        cases kind with
        | none => rfl
        | some kind => rfl
      · refine ⟨[], start, .stop hnone, ?_⟩
        rw [Tokens.scan_of_noneOpens hnone, List.head?_drop]
        rfl

theorem exists_cuts_ofText (source : Text) :
    ∃ segments position, Cuts source 0 segments position ∧
      Tokens.ofText source =
        ⟨segments.filterMap (Segment.token? source),
          source[position]?.map fun c => (Location.behind (source.take position), c)⟩ :=
  exists_cuts_scan source 0 (Nat.le_refl _)

/-- A source text is cut in one way only into segments that follow one another from its start. Put
together they are the text before the position where they end, which is the end of the text or the
first position where no lexeme fits. The tokens are the segments that are not skipped, in order,
and the line and the column of each count the text before it. -/
theorem ofText_cuts (source : Text) :
    ∃ segments position, Cuts source 0 segments position ∧
      (∀ segments' position', Cuts source 0 segments' position' →
        segments' = segments ∧ position' = position) ∧
      segments.flatMap (·.text) = source.take position ∧ position ≤ source.length ∧
      Tokens.ofText source =
        { tokens := segments.filterMap (Segment.token? source)
          stop := source[position]?.map fun c => (Location.behind (source.take position), c) } := by
  obtain ⟨segments, position, hcuts, htokens⟩ := exists_cuts_ofText source
  obtain ⟨hdrop, hlength⟩ := hcuts.drop_eq
  rw [List.drop_zero] at hdrop
  rw [Nat.zero_add] at hlength
  refine ⟨segments, position, hcuts, fun _ _ h => hcuts.unique h, ?_, ?_, htokens⟩
  · rw [← hlength, hdrop, List.take_left]
  · rw [← hlength, hdrop, List.length_append]
    exact Nat.le_add_right _ _

/-- Line feeds in comments and templates count, and carriage returns do not. -/
example : (Tokens.ofText "a /* x\n */ \t`\n`\r b").tokens.map (·.loc) =
    [⟨1, 1⟩, ⟨2, 6⟩, ⟨3, 4⟩] := by decide

end Source

end HostBindings

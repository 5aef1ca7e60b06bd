import HostBindings.Proofs.OpeningTokens
import HostBindings.Proofs.ReadTrees
import HostBindings.Proofs.WrittenTypes

/-!
Phrases that are read in one way only. The tokens of a phrase are settled if they are what the
category of the phrase reads wherever they stand before a token that the category cannot go on with,
and if the tree that is shown for them is read to the phrase. A list of settled phrases of one
category is read item by item.
-/

namespace HostBindings.Source

open Grammar (Pattern)

/-- The next token, if there is one, is of none of the kinds. -/
def Stops (kinds : List Terminal) (ts : List Token) : Prop := ∀ t ∈ ts.head?, t.kind ∉ kinds

@[simp] theorem stops_nil (kinds : List Terminal) : Stops kinds [] := nofun

@[simp] theorem stops_cons_iff {kinds : List Terminal} {t : Token} {ts : List Token} :
    Stops kinds (t :: ts) ↔ t.kind ∉ kinds := by
  simp [Stops]

theorem Stops.mono {kinds more : List Terminal} {ts : List Token} (h : Stops more ts)
    (hsub : kinds ⊆ more) : Stops kinds ts := fun t ht hmem => h t ht (hsub hmem)

theorem Stops.append {kinds : List Terminal} {ts us : List Token} (hts : Stops kinds ts)
    (hus : Stops kinds us) : Stops kinds (ts ++ us) := by
  cases ts with
  | nil => exact hus
  | cons t rest => exact stops_cons_iff.mpr (stops_cons_iff.mp hts)

theorem Shows.stops {p : Nonterminal.Shape} {ts : List Token} {cs : List Concrete}
    (h : Shows p ts cs) {own kinds : List Terminal} (hown : openersOf p = some own)
    (hdisjoint : ∀ k ∈ own, k ∉ kinds) : Stops kinds ts :=
  fun _ ht => hdisjoint _ (h.opens ht hown)

def TypeLevel.category : TypeLevel → Nonterminal
  | whole => .typeExpression
  | union => .unionType
  | intersection => .intersectionType
  | operand => .typeOperand

/-- The tokens that a type goes on with where they follow it. -/
def TypeLevel.goesOn : TypeLevel → List Terminal
  | whole => [.dot, .less, .openBracket, .ampersand, .bar, .wordExtends, .arrow, .wordIs]
  | union => [.dot, .less, .openBracket, .ampersand, .bar]
  | intersection => [.dot, .less, .openBracket, .ampersand]
  | operand => [.dot, .less, .openBracket]

namespace Phrase

/-- Whether a phrase may be an item of a list. -/
def isItem : Phrase → Bool
  | .annotated _ | .list _ _ => false
  | _ => true

/-- The pattern that reads an item. -/
def shape : Phrase → Nonterminal.Shape
  | .name _ => .rule .identifier
  | .type level _ => .rule level.category
  | .element _ => .rule .tupleElement
  | .param _ => .rule .parameter
  | .annotated _ | .list _ _ => .empty

def goesOn : Phrase → List Terminal
  | .name _ | .annotated _ | .list _ _ => []
  | .type level _ => level.goesOn
  | .element _ => .question :: .colon :: TypeLevel.whole.goesOn
  | .param _ => .question :: .colon :: .equals :: TypeLevel.whole.goesOn

def openers : Phrase → List Terminal
  | .name _ => [.name]
  | .type _ _ => [.name, .openParen, .openBracket]
  | .element _ => [.name, .openParen, .openBracket, .ellipsis]
  | .param _ => [.name, .ellipsis]
  | .annotated _ | .list _ _ => []

end Phrase

/-- A tree is read to a type, but for the places. -/
def Concrete.IsOfType (t : TypeExpr) (c : Concrete) : Prop :=
  ∃ t', Reader.type (Reader.piece c) = .ok t' ∧ t'.bare = t.bare

/-- A tree is read to an item, but for the places. -/
def Phrase.IsShownBy : Phrase → Concrete → Prop
  | .name w, c =>
    (Reader.piece c).isLabelled .identifier = true ∧ (Reader.piece c).value = .word w
  | .type _ t, c | .element t, c => c.IsOfType t
  | .param p, c => ∃ p', Reader.param (Reader.piece c) = .ok p' ∧ p'.bare = p.bare
  | .annotated _, _ | .list _ _, _ => False

/-- The tokens of an item are read in one way. -/
structure Settled (p : Phrase) (us : List Token) : Prop where
  opens : ∃ t rest, us = t :: rest ∧ t.kind ∈ p.openers
  shown : ∃ cs, Shows p.shape us cs
  only : ∀ {r v r' cs}, us ++ r = v ++ r' → Stops p.goesOn r → Stops p.goesOn r' →
    Shows p.shape v cs → v = us ∧ ∃ c, cs = [c] ∧ p.IsShownBy c

/-- The tokens of a list whose items are settled. -/
inductive AllSettled (separator : Terminal) : List Phrase → List Token → Prop
  | none : AllSettled separator [] []
  | single {p : Phrase} {us : List Token} (h : p.isItem = true → Settled p us) :
      AllSettled separator [p] us
  | more {p q : Phrase} {rest : List Phrase} {us vs : List Token} {t : Token}
      (h : p.isItem = true → Settled p us) (ht : t.kind = separator)
      (hrest : AllSettled separator (q :: rest) vs) :
      AllSettled separator (p :: q :: rest) (us ++ t :: vs)

/-- Items that follow after separators. -/
def followers (separator : Terminal) (p : Nonterminal.Shape) : Nonterminal.Shape :=
  Nonterminal.star (Nonterminal.sequence [Nonterminal.skip separator, p])

/-- A phrase is an item of the kind that a pattern reads. -/
structure IsItemOf (p : Nonterminal.Shape) (goesOn openers : List Terminal) (i : Phrase) :
    Prop where
  isItem : i.isItem = true
  shape : i.shape = p
  goesOn : i.goesOn = goesOn
  openers : i.openers = openers

/-- All phrases are items of one kind. -/
def AreItems (p : Nonterminal.Shape) (goesOn openers : List Terminal) (items : List Phrase) :
    Prop :=
  ∀ i ∈ items, IsItemOf p goesOn openers i

variable {separator : Terminal} {p : Nonterminal.Shape} {goesOn openers : List Terminal}
  {item : Phrase} {items : List Phrase} {us : List Token}

theorem shows_followers_iff {ts : List Token} {cs : List Concrete} :
    Shows (followers separator p) ts cs ↔ ts = [] ∧ cs = [] ∨
      ∃ t us vs ds es, t.kind = separator ∧ Shows p us ds ∧ Shows (followers separator p) vs es ∧
        ts = t :: (us ++ vs) ∧ cs = ds ++ es := by
  rw [followers, Nonterminal.star, shows_star_iff]
  refine or_congr_right ⟨?_, ?_⟩
  · rintro ⟨_, vs, ds, es, hround, hrest, rfl, rfl⟩
    obtain ⟨t, us, ht, hp, rfl⟩ := shows_skip_seq_iff.mp hround
    exact ⟨t, us, vs, ds, es, ht, hp, hrest, rfl, rfl⟩
  · rintro ⟨t, us, vs, ds, es, ht, hp, hrest, rfl, rfl⟩
    exact ⟨t :: us, vs, ds, es, shows_skip_seq_iff.mpr ⟨t, us, ht, hp, rfl⟩, hrest, rfl, rfl⟩

theorem stops_followers {ts r : List Token} {cs : List Concrete} {kinds : List Terminal}
    (h : Shows (followers separator p) ts cs) (hseparator : separator ∉ kinds)
    (hr : Stops kinds r) : Stops kinds (ts ++ r) := by
  rcases shows_followers_iff.mp h with ⟨rfl, _⟩ | ⟨t, _, _, _, _, rfl, _, _, rfl, _⟩
  · exact hr
  · exact stops_cons_iff.mpr hseparator

theorem AllSettled.opens (h : AllSettled separator (item :: items) us)
    (hitem : item.isItem = true) : ∃ t rest, us = t :: rest ∧ t.kind ∈ item.openers := by
  cases h with
  | single h => exact (h hitem).opens
  | more h _ _ =>
      obtain ⟨t, rest, rfl, ht⟩ := (h hitem).opens
      exact ⟨t, _, rfl, ht⟩

theorem AllSettled.shown (h : AllSettled separator (item :: items) us)
    (hitems : AreItems p goesOn openers (item :: items)) :
    ∃ vs ws cs ds, us = vs ++ ws ∧ Shows p vs cs ∧ Shows (followers separator p) ws ds ∧
      (ws = [] ↔ items = []) := by
  induction items generalizing item us with
  | nil =>
      cases h with
      | single h =>
          have hitem := hitems item List.mem_cons_self
          obtain ⟨cs, hcs⟩ := (h hitem.isItem).shown
          rw [hitem.shape] at hcs
          exact ⟨us, [], cs, [], (List.append_nil us).symm, hcs, .none _, by simp⟩
  | cons next rest ih =>
      cases h with
      | @more _ _ _ us vs t h ht hrest =>
          have hitem := hitems item List.mem_cons_self
          obtain ⟨cs, hcs⟩ := (h hitem.isItem).shown
          rw [hitem.shape] at hcs
          obtain ⟨xs, ys, ds, es, rfl, hfirst, hmore, _⟩ :=
            ih hrest fun i hi => hitems i (List.mem_cons_of_mem _ hi)
          refine ⟨us, t :: (xs ++ ys), cs, ds ++ es, rfl, hcs, ?_, by simp⟩
          exact shows_followers_iff.mpr (Or.inr ⟨t, xs, ys, ds, es, ht, hfirst, hmore, rfl, rfl⟩)

theorem Settled.before_followers (h : Settled item us) (hitem : IsItemOf p goesOn openers item)
    (hseparator : separator ∉ goesOn) {v w r r' : List Token} {cs ds : List Concrete}
    (heq : us ++ r = v ++ (w ++ r')) (hv : Shows p v cs) (hw : Shows (followers separator p) w ds)
    (hr : Stops goesOn r) (hr' : Stops goesOn r') :
    v = us ∧ r = w ++ r' ∧ ∃ c, cs = [c] ∧ item.IsShownBy c := by
  obtain ⟨rfl, hshown⟩ := h.only heq (by rwa [hitem.goesOn])
    (by rw [hitem.goesOn]; exact stops_followers hw hseparator hr') (by rwa [hitem.shape])
  exact ⟨rfl, List.append_cancel_left heq, hshown⟩

/-- A list of settled items is read item by item, if no other item can follow it. -/
theorem AllSettled.only (h : AllSettled separator (item :: items) us)
    (hitems : AreItems p goesOn openers (item :: items)) (hseparator : separator ∉ goesOn)
    {v w r r' : List Token} {cs ds : List Concrete} (heq : us ++ r = v ++ (w ++ r'))
    (hv : Shows p v cs) (hw : Shows (followers separator p) w ds)
    (hr : Stops (separator :: goesOn) r) (hr' : Stops goesOn r')
    (hend : ∀ t x rest, r' = t :: x :: rest → t.kind = separator → x.kind ∉ openers) :
    v ++ w = us ∧ List.Forall₂ Phrase.IsShownBy (item :: items) (cs ++ ds) ∧
      (w = [] ↔ items = []) := by
  induction items generalizing item us v w cs ds with
  | nil =>
      cases h with
      | single h =>
          have hitem := hitems item List.mem_cons_self
          obtain ⟨rfl, hrest, c, rfl, hc⟩ := (h hitem.isItem).before_followers hitem hseparator heq
            hv hw (hr.mono (List.subset_cons_self _ _)) hr'
          rcases shows_followers_iff.mp hw with
            ⟨rfl, rfl⟩ | ⟨t, _, _, _, _, rfl, _, _, rfl, _⟩
          · exact ⟨List.append_nil v, .cons hc .nil, by simp⟩
          · rw [hrest] at hr
            exact absurd List.mem_cons_self (stops_cons_iff.mp hr)
  | cons next rest ih =>
      cases h with
      | @more _ _ _ us vs t h ht hrest =>
          have hitem := hitems item List.mem_cons_self
          have htail : AreItems p goesOn openers (next :: rest) := fun i hi =>
            hitems i (List.mem_cons_of_mem _ hi)
          rw [List.append_assoc] at heq
          obtain ⟨rfl, hafter, c, rfl, hc⟩ := (h hitem.isItem).before_followers hitem hseparator heq
            hv hw (stops_cons_iff.mpr (by rwa [ht])) hr'
          rcases shows_followers_iff.mp hw with
            ⟨rfl, rfl⟩ | ⟨x, v', w', ds, es, hx, hv', hw', rfl, rfl⟩
          · -- the separator would be the end, but an item follows it
            have hnext := htail next List.mem_cons_self
            obtain ⟨y, ys, rfl, hy⟩ := hrest.opens hnext.isItem
            rw [hnext.openers] at hy
            exact absurd hy (hend t y _ hafter.symm ht)
          · rw [List.cons_append, List.cons_append, List.append_assoc] at hafter
            obtain ⟨rfl, hothers⟩ := List.cons.inj hafter
            obtain ⟨rfl, hshown, _⟩ := ih hrest htail hothers hv' hw'
            exact ⟨rfl, .cons hc hshown, by simp⟩

end HostBindings.Source

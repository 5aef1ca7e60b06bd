import HostBindings.Grammar.Chart
import Mathlib.Data.List.Nodup
import Mathlib.Data.List.Perm.Subperm

/-!
What one column of a chart goes through. Every operation on a column under construction adds items
and families and never takes any away; new items that do not wait for a token are put on the stack.
The operations are described once by what they add, and the items are bounded by the places in the
rules, so the work on a column comes to its end.
-/

namespace HostBindings.Grammar

variable {T N : Type}

namespace Work

/-- An item is in the column, whatever it waits for. -/
def Holds (w : Work T N) (i : Item T N) : Prop := i ∈ w.items ∨ i ∈ w.waiting

/-- What an operation does to a column: the items, families and vacant categories that it adds. The
new items that do not wait for a token are pending. -/
structure Adds (w w' : Work T N) (newItem : Item T N → Prop) (newFamily : Family T N → Prop)
    (newVacant : Category T N → Prop) : Prop where
  holds_iff : ∀ i, w'.Holds i ↔ w.Holds i ∨ newItem i
  mem_families_iff : ∀ f, f ∈ w'.families ↔ f ∈ w.families ∨ newFamily f
  mem_vacant_iff : ∀ c, c ∈ w'.vacant ↔ c ∈ w.vacant ∨ newVacant c
  sorted : (∀ i ∈ w.items, i.expectsToken = false) → (∀ i ∈ w.waiting, i.expectsToken = true) →
    (∀ i ∈ w'.items, i.expectsToken = false) ∧ ∀ i ∈ w'.waiting, i.expectsToken = true
  pushed : ∃ new, w'.items = w.items ++ new ∧ w'.pending = new.reverse ++ w.pending ∧
    (w.items.Nodup → w'.items.Nodup)

namespace Adds

variable {w w' w'' : Work T N} {newItem newItem' : Item T N → Prop}
  {newFamily newFamily' : Family T N → Prop} {newVacant newVacant' : Category T N → Prop}

theorem refl (w : Work T N) : Adds w w (fun _ => False) (fun _ => False) (fun _ => False) where
  holds_iff := by simp
  mem_families_iff := by simp
  mem_vacant_iff := by simp
  sorted hitems hwaiting := ⟨hitems, hwaiting⟩
  pushed := ⟨[], by simp⟩

theorem trans (h : Adds w w' newItem newFamily newVacant)
    (h' : Adds w' w'' newItem' newFamily' newVacant') :
    Adds w w'' (fun i => newItem i ∨ newItem' i) (fun f => newFamily f ∨ newFamily' f)
      (fun c => newVacant c ∨ newVacant' c) where
  holds_iff i := by rw [h'.holds_iff, h.holds_iff, or_assoc]
  mem_families_iff f := by rw [h'.mem_families_iff, h.mem_families_iff, or_assoc]
  mem_vacant_iff c := by rw [h'.mem_vacant_iff, h.mem_vacant_iff, or_assoc]
  sorted hitems hwaiting := by
    obtain ⟨hitems', hwaiting'⟩ := h.sorted hitems hwaiting
    exact h'.sorted hitems' hwaiting'
  pushed := by
    obtain ⟨new, hitems, hpending, hnodup⟩ := h.pushed
    obtain ⟨more, hitems', hpending', hnodup'⟩ := h'.pushed
    refine ⟨new ++ more, ?_, ?_, fun hw => hnodup' (hnodup hw)⟩
    · rw [hitems', hitems, List.append_assoc]
    · rw [hpending', hpending, List.reverse_append, List.append_assoc]

theorem congr (h : Adds w w' newItem newFamily newVacant) (hitem : ∀ i, newItem i ↔ newItem' i)
    (hfamily : ∀ f, newFamily f ↔ newFamily' f) (hvacant : ∀ c, newVacant c ↔ newVacant' c) :
    Adds w w' newItem' newFamily' newVacant' where
  holds_iff i := by rw [h.holds_iff, hitem]
  mem_families_iff f := by rw [h.mem_families_iff, hfamily]
  mem_vacant_iff c := by rw [h.mem_vacant_iff, hvacant]
  sorted := h.sorted
  pushed := h.pushed

theorem holds (h : Adds w w' newItem newFamily newVacant) {i : Item T N} (hi : w.Holds i) :
    w'.Holds i :=
  (h.holds_iff i).mpr (Or.inl hi)

theorem mem_families (h : Adds w w' newItem newFamily newVacant) {f : Family T N}
    (hf : f ∈ w.families) : f ∈ w'.families :=
  (h.mem_families_iff f).mpr (Or.inl hf)

theorem mem_items_of_not_pending (h : Adds w w' newItem newFamily newVacant) {i : Item T N}
    (hi : i ∈ w'.items) (hpending : i ∉ w'.pending) : i ∈ w.items ∧ i ∉ w.pending := by
  obtain ⟨new, hitems, hstack, _⟩ := h.pushed
  rw [hitems, List.mem_append] at hi
  rw [hstack, List.mem_append, List.mem_reverse, not_or] at hpending
  exact ⟨hi.resolve_right hpending.1, hpending.2⟩

theorem pending_subset_items (h : Adds w w' newItem newFamily newVacant)
    (hw : w.pending ⊆ w.items) :
    w'.pending ⊆ w'.items := by
  obtain ⟨new, hitems, hstack, _⟩ := h.pushed
  intro i hi
  rw [hstack, List.mem_append, List.mem_reverse] at hi
  rw [hitems, List.mem_append]
  rcases hi with hnew | hold
  · exact Or.inr hnew
  · exact Or.inl (hw hold)

end Adds

theorem adds_foldl {α : Type} {op : Work T N → α → Work T N} {item : α → Item T N → Prop}
    {family : α → Family T N → Prop}
    (hop : ∀ w a, Adds w (op w a) (item a) (family a) (fun _ => False)) (as : List α)
    (w : Work T N) :
    Adds w (as.foldl op w) (fun i => ∃ a ∈ as, item a i) (fun f => ∃ a ∈ as, family a f)
      (fun _ => False) := by
  induction as generalizing w with
  | nil => exact (Adds.refl w).congr (by simp) (by simp) (by simp)
  | cons a rest ih => exact ((hop w a).trans (ih (op w a))).congr (by simp) (by simp) (by simp)

variable [DecidableEq T] [DecidableEq N]

theorem adds_addItem (w : Work T N) (i : Item T N) :
    Adds w (w.addItem i) (· = i) (fun _ => False) (fun _ => False) := by
  have hsame : w.Holds i → Adds w w (· = i) (fun _ => False) (fun _ => False) := by
    intro hi
    refine ⟨fun j => ?_, by simp, by simp, fun hitems hwaiting => ⟨hitems, hwaiting⟩, ⟨[], by simp⟩⟩
    constructor
    · exact Or.inl
    · rintro (hj | rfl)
      · exact hj
      · exact hi
  rw [addItem]
  split
  · rename_i htoken
    split
    · rename_i hmem
      exact hsame (Or.inr (by simpa using hmem))
    · refine ⟨fun j => ?_, by simp, by simp, fun hitems hwaiting => ⟨hitems, ?_⟩, ⟨[], by simp⟩⟩
      · simp [Holds, or_assoc]
      · simpa [or_imp, forall_and, htoken] using hwaiting
  · rename_i htoken
    split
    · rename_i hmem
      exact hsame (Or.inl (by simpa using hmem))
    · rename_i hmem
      have hnot : i ∉ w.items := by simpa using hmem
      refine ⟨fun j => ?_, by simp, by simp, fun hitems hwaiting => ⟨?_, hwaiting⟩, [i], rfl, rfl,
        ?_⟩
      · simp only [Holds, List.mem_append, List.mem_singleton]
        tauto
      · simpa [or_imp, forall_and, Bool.eq_false_iff.mpr htoken] using hitems
      · intro hnodup
        exact hnodup.append (List.nodup_singleton i) (List.disjoint_singleton.mpr hnot)

theorem adds_addFamily (w : Work T N) (f : Family T N) :
    Adds w (w.addFamily f) (fun _ => False) (· = f) (fun _ => False) := by
  rw [addFamily]
  split
  · rename_i hmem
    have hf : f ∈ w.families := by simpa using hmem
    refine ⟨by simp, fun g => ?_, by simp, fun hitems hwaiting => ⟨hitems, hwaiting⟩, ⟨[], by simp⟩⟩
    constructor
    · exact Or.inl
    · rintro (hg | rfl)
      · exact hg
      · exact hf
  · exact ⟨by simp [Holds], by simp, by simp, fun hitems hwaiting => ⟨hitems, hwaiting⟩,
      ⟨[], by simp⟩⟩

theorem adds_shift (w : Work T N) (position stop : Nat) (last : Part T N) (i : Item T N) :
    Adds w (w.shift position stop last i) (· = i.advance) (· = i.extend position stop last)
      (fun _ => False) :=
  ((adds_addFamily w _).trans (adds_addItem _ _)).congr (by simp) (by simp) (by simp)

end Work

namespace Chart

open Work

variable [DecidableEq T] [DecidableEq N]

theorem adds_enterAll (rules : List (Rule T N)) (here : Nat) (w : Work T N) :
    Adds w (rules.foldl (fun w rule => w.addItem { start := here, dot := 0, rule }) w)
      (fun i => ∃ rule ∈ rules, i = ⟨here, 0, rule⟩) (fun _ => False) (fun _ => False) :=
  (adds_foldl (fun w rule => adds_addItem w ⟨here, 0, rule⟩) rules w).congr (fun _ => Iff.rfl)
    (by simp) (by simp)

theorem adds_shiftAll (items : List (Item T N)) (position stop : Nat) (last : Part T N)
    (w : Work T N) :
    Adds w (items.foldl (fun w i => w.shift position stop last i) w)
      (fun j => ∃ i ∈ items, j = i.advance)
      (fun f => ∃ i ∈ items, f = i.extend position stop last) (fun _ => False) :=
  adds_foldl (fun w i => adds_shift w position stop last i) items w

/-- What an item that expects a category adds: the rules that may start the category, unless they
were entered before, and the item itself further on, if the category was read from no token. -/
theorem adds_expect (predict : Category T N → List (Rule T N)) (w : Work T N) (here : Nat)
    (i : Item T N) (c : Category T N) :
    Adds w (expect predict w here i c)
      (fun j => (isEntered w here c = false ∧ ∃ rule ∈ predict c, j = ⟨here, 0, rule⟩) ∨
        (c ∈ w.vacant ∧ j = i.advance))
      (fun f => c ∈ w.vacant ∧ f = i.extend here here (.node ⟨here, here, .whole c⟩))
      (fun _ => False) := by
  have henter : Adds w (enter predict w here c)
      (fun j => isEntered w here c = false ∧ ∃ rule ∈ predict c, j = ⟨here, 0, rule⟩)
      (fun _ => False) (fun _ => False) := by
    rw [enter]
    split
    · rename_i hentered
      exact (Adds.refl w).congr (by simp [hentered]) (by simp) (by simp)
    · rename_i hentered
      exact (adds_enterAll (predict c) here w).congr (by simp [hentered]) (by simp) (by simp)
  have hvacant : c ∈ (enter predict w here c).vacant ↔ c ∈ w.vacant := by
    simp [henter.mem_vacant_iff]
  rw [expect]
  split
  · rename_i hmem
    rw [List.contains_iff_mem, hvacant] at hmem
    exact (henter.trans (adds_shift _ _ _ _ _)).congr (by simp [hmem]) (by simp [hmem]) (by simp)
  · rename_i hmem
    rw [List.contains_iff_mem, hvacant] at hmem
    exact henter.congr (by simp [hmem]) (by simp [hmem]) (by simp)

/-- The family of a rule without symbols. -/
def emptyFamily (here : Nat) (i : Item T N) : Family T N :=
  { label := i.label here, before := none, last := none, rule := i.rule }

/-- The items that wait for the category of a complete item at its start. -/
def waiters (done : Chart T N) (w : Work T N) (here : Nat) (i : Item T N) : List (Item T N) :=
  (itemsAt done w here i.start).filter (·.expectsCategory i.rule.category)

omit [DecidableEq T] [DecidableEq N] in
theorem itemsAt_congr (done : Chart T N) {w w' : Work T N} (h : w'.items = w.items)
    (here position : Nat) : itemsAt done w' here position = itemsAt done w here position := by
  rw [itemsAt, itemsAt, h]

/-- What a complete item adds: every item that waited for its category, further on. -/
theorem adds_complete (done : Chart T N) (w : Work T N) (here : Nat) (i : Item T N) :
    Adds w (complete done w here i)
      (fun j => ∃ waiter ∈ waiters done w here i, j = waiter.advance)
      (fun f => (i.dot = 0 ∧ f = emptyFamily here i) ∨
        ∃ waiter ∈ waiters done w here i, f = waiter.extend i.start here (.node (i.label here)))
      (fun c => i.start = here ∧ c = i.rule.category) := by
  let based : Work T N := if i.dot = 0 then w.addFamily (emptyFamily here i) else w
  have hbased : Adds w based (fun _ => False) (fun f => i.dot = 0 ∧ f = emptyFamily here i)
      (fun _ => False) ∧ based.items = w.items := by
    by_cases hdot : i.dot = 0
    · simp only [based, if_pos hdot]
      refine ⟨(adds_addFamily w _).congr (by simp) (by simp [hdot]) (by simp), ?_⟩
      rw [addFamily]
      split <;> rfl
    · simp only [based, if_neg hdot]
      exact ⟨(Adds.refl w).congr (by simp) (by simp [hdot]) (by simp), trivial⟩
  have hnoted : Adds based (noteVacant based here i) (fun _ => False) (fun _ => False)
      (fun c => i.start = here ∧ c = i.rule.category) ∧
        (noteVacant based here i).items = based.items := by
    rw [noteVacant]
    split
    · rename_i hstart
      refine ⟨⟨by simp [Holds], by simp, fun c => ?_, fun hitems hwaiting => ⟨hitems, hwaiting⟩,
        ⟨[], by simp⟩⟩, rfl⟩
      simp [hstart, or_comm]
    · rename_i hstart
      exact ⟨(Adds.refl _).congr (by simp) (by simp) (by simp [hstart]), rfl⟩
  have hwaiters : (itemsAt done (noteVacant based here i) here i.start).filter
      (·.expectsCategory i.rule.category) = waiters done w here i := by
    rw [waiters, itemsAt_congr done (hnoted.2.trans hbased.2)]
  have hshifted := adds_shiftAll (waiters done w here i) i.start here (.node (i.label here))
    (noteVacant based here i)
  have hcomplete : complete done w here i = (waiters done w here i).foldl
      (fun w waiter => w.shift i.start here (.node (i.label here)) waiter)
      (noteVacant based here i) := by
    rw [← hwaiters]
    rfl
  rw [hcomplete]
  exact ((hbased.1.trans hnoted.1).trans hshifted).congr (by simp) (by simp) (by simp)

/-- One round of the work on a column. -/
def work (predict : Category T N → List (Rule T N)) (done : Chart T N) (here : Nat) (w : Work T N)
    (i : Item T N) : Work T N :=
  match i.expected? with
  | some (.category c) => expect predict w here i c
  | some (.token _ _) => w
  | none => complete done w here i

theorem saturate_succ_cons (predict : Category T N → List (Rule T N)) (done : Chart T N)
    (here fuel : Nat) {w : Work T N} {i : Item T N} {pending : List (Item T N)}
    (h : w.pending = i :: pending) :
    saturate predict done here (fuel + 1) w =
      saturate predict done here fuel (work predict done here { w with pending } i) := by
  rw [saturate, h]
  rfl

theorem saturate_of_pending_nil (predict : Category T N → List (Rule T N)) (done : Chart T N)
    (here fuel : Nat) {w : Work T N} (h : w.pending = []) :
    saturate predict done here fuel w = w := by
  cases fuel with
  | zero => rfl
  | succ fuel => rw [saturate, h]

theorem exists_adds_work (predict : Category T N → List (Rule T N)) (done : Chart T N) (here : Nat)
    (w : Work T N) (i : Item T N) :
    ∃ newItem newFamily newVacant,
      Adds w (work predict done here w i) newItem newFamily newVacant := by
  rw [work]
  split
  · exact ⟨_, _, _, adds_expect predict w here i _⟩
  · exact ⟨_, _, _, Adds.refl w⟩
  · exact ⟨_, _, _, adds_complete done w here i⟩

/-- What each round keeps holds when nothing is pending any more, and that comes about: a round
takes one item from the stack and puts only new items there, of which there are not more than
`bound`. -/
theorem saturate_induction {predict : Category T N → List (Rule T N)} {done : Chart T N}
    {here bound : Nat} {P : Work T N → Prop}
    (hround : ∀ w i pending, P w → w.pending = i :: pending →
      P (work predict done here { w with pending } i))
    (hbound : ∀ w, P w → w.items.length ≤ bound) {fuel : Nat} {w : Work T N} (hw : P w)
    (hfuel : bound - w.items.length + w.pending.length ≤ fuel) :
    P (saturate predict done here fuel w) ∧ (saturate predict done here fuel w).pending = [] := by
  induction fuel generalizing w with
  | zero =>
      have hempty : w.pending = [] := List.length_eq_zero_iff.mp (by omega)
      rw [saturate_of_pending_nil predict done here 0 hempty]
      exact ⟨hw, hempty⟩
  | succ fuel ih =>
      cases hpending : w.pending with
      | nil =>
          rw [saturate_of_pending_nil predict done here (fuel + 1) hpending]
          exact ⟨hw, hpending⟩
      | cons i pending =>
          rw [saturate_succ_cons predict done here fuel hpending]
          have hnext := hround w i pending hw hpending
          apply ih hnext
          obtain ⟨_, _, _, hadds⟩ := exists_adds_work predict done here { w with pending } i
          obtain ⟨new, hitems, hstack, _⟩ := hadds.pushed
          have hlength := hbound _ hnext
          rw [hitems, hstack, List.length_append, List.length_append, List.length_reverse]
          rw [hitems, List.length_append] at hlength
          rw [hpending, List.length_cons] at hfuel
          dsimp only at hlength ⊢
          omega

end Chart

end HostBindings.Grammar

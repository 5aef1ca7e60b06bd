import HostBindings.Proofs.ChartColumns
import HostBindings.Proofs.GrammarReadings

/-!
Charts hold the readings of a token sequence, all of them and no others. Every item of a column was
read up to there, and every family is one way in which it was. A finished column is closed: the
rules of every expected category are in it, and every item that waited for a completed category
went on. So an item that can read on gets as far as the tokens allow.
-/

namespace HostBindings.Grammar

variable {T N : Type} {g : RuleSet T N} {tokens : List T}

/-- An item was read up to a position. -/
structure Item.IsRead (g : RuleSet T N) (tokens : List T) (here : Nat) (i : Item T N) : Prop where
  rule_mem : i.rule ∈ g.rules
  dot_le : i.dot ≤ i.rule.symbols.length
  read : ∃ ds, Derivation.ReadAll g tokens ds (i.rule.symbols.take i.dot) i.start here

theorem Item.isRead_start {r : Rule T N} (hr : r ∈ g.rules) (here : Nat) :
    Item.IsRead g tokens here ⟨here, 0, r⟩ :=
  ⟨hr, Nat.zero_le _, [], by simp⟩

theorem Item.take_advance {i : Item T N} {s : Symbol T N} (hs : i.expected? = some s) :
    i.rule.symbols.take (i.dot + 1) = i.rule.symbols.take i.dot ++ [s] := by
  obtain ⟨hlt, rfl⟩ := List.getElem?_eq_some_iff.mp hs
  exact List.take_succ_eq_append_getElem hlt

theorem Item.dot_lt {i : Item T N} {s : Symbol T N} (hs : i.expected? = some s) :
    i.dot < i.rule.symbols.length :=
  (List.getElem?_eq_some_iff.mp hs).1

theorem Item.IsRead.advance {i : Item T N} {position stop : Nat} (h : i.IsRead g tokens position)
    {s : Symbol T N} (hs : i.expected? = some s) {d : Derivation T N}
    (hd : d.Reads g tokens s position stop) : i.advance.IsRead g tokens stop := by
  obtain ⟨hrule, _, ds, hds⟩ := h
  refine ⟨hrule, Item.dot_lt hs, ds ++ [d], ?_⟩
  have htake : i.advance.rule.symbols.take i.advance.dot = i.rule.symbols.take i.dot ++ [s] :=
    Item.take_advance hs
  rw [htake]
  exact Derivation.readAll_append hds (Derivation.readAll_singleton hd)

theorem Item.isComplete_iff {i : Item T N} : i.isComplete = true ↔ i.expected? = none := by
  rw [Item.isComplete, Item.expected?, decide_eq_true_iff, List.getElem?_eq_none_iff]

theorem Item.IsRead.exists_reads {i : Item T N} {here : Nat} (h : i.IsRead g tokens here)
    (hcomplete : i.expected? = none) :
    ∃ d, Derivation.Reads g tokens d (.category i.rule.category) i.start here := by
  obtain ⟨hrule, _, ds, hds⟩ := h
  rw [List.take_of_length_le (List.getElem?_eq_none_iff.mp hcomplete)] at hds
  exact ⟨.node i.rule ds, Derivation.reads_node_iff.mpr ⟨rfl, hrule, hds⟩⟩

/-- A part was read between two positions. -/
def Part.IsRead (g : RuleSet T N) (tokens : List T) (last : Part T N) (s : Symbol T N)
    (position stop : Nat) : Prop :=
  match last with
  | .token p => p = position ∧ Derivation.Reads g tokens (.token p) s position stop
  | .node l => ∃ c d, s = .category c ∧ l = ⟨position, stop, .whole c⟩ ∧
      Derivation.Reads g tokens d s position stop

/-- A family is a way in which its label was read. -/
inductive Family.IsRead (g : RuleSet T N) (tokens : List T) : Family T N → Prop
  | empty {here : Nat} {r : Rule T N} (hr : r ∈ g.rules) (hsymbols : r.symbols = []) :
      IsRead g tokens
        { label := ⟨here, here, .whole r.category⟩, before := none, last := none, rule := r }
  | extend {i : Item T N} {position stop : Nat} {last : Part T N} {s : Symbol T N}
      (hi : i.IsRead g tokens position) (hs : i.expected? = some s)
      (hlast : last.IsRead g tokens s position stop) :
      IsRead g tokens (i.extend position stop last)

/-- Whether some family has a label, among the columns so far. -/
def HasFamily (columns : List (Work T N)) (l : Label T N) : Prop :=
  ∃ column, columns[l.stop]? = some column ∧ ∃ f ∈ column.families, f.label = l

/-- The parts of a family have families of their own. -/
structure Family.IsRooted (columns : List (Work T N)) (f : Family T N) : Prop where
  before : ∀ l, f.before = some l → HasFamily columns l
  last : ∀ l, f.last = some (.node l) → HasFamily columns l

/-- All that a column holds was read up to its place. -/
structure Work.IsRead (g : RuleSet T N) (tokens : List T) (here : Nat) (w : Work T N) : Prop where
  items : ∀ i, w.Holds i → i.IsRead g tokens here
  families : ∀ f ∈ w.families, f.IsRead g tokens ∧ f.label.stop = here
  vacant : ∀ c ∈ w.vacant, ∃ d, Derivation.Reads g tokens d (.category c) here here

/-- Every reading that a column refers to has a family. -/
structure Work.IsRooted (earlier : List (Work T N)) (w : Work T N) : Prop where
  families : ∀ f ∈ w.families, f.IsRooted (earlier ++ [w])
  items : ∀ i, w.Holds i → 0 < i.dot → ∃ f ∈ w.families, f.label = i.label earlier.length
  vacant : ∀ c ∈ w.vacant, ∃ f ∈ w.families,
    f.label = ⟨earlier.length, earlier.length, .whole c⟩

/-- Items of a column stand where they belong, each once. -/
structure Work.IsSorted (w : Work T N) : Prop where
  items : ∀ i ∈ w.items, i.expectsToken = false
  waiting : ∀ i ∈ w.waiting, i.expectsToken = true
  nodup : w.items.Nodup
  pending : w.pending ⊆ w.items
  stack : w.pending.Nodup

/-- The column is closed under what items call for, as far as they are not pending. -/
structure Work.IsClosed (g : RuleSet T N) (earlier : List (Work T N)) (w : Work T N) : Prop where
  entered : ∀ r, w.Holds ⟨earlier.length, 0, r⟩ → ∀ other ∈ g.rules,
    other.category = r.category → w.Holds ⟨earlier.length, 0, other⟩
  predicted : ∀ i ∈ w.items, i ∉ w.pending → ∀ c, i.expected? = some (.category c) →
    ∀ r ∈ g.rules, r.category = c → w.Holds ⟨earlier.length, 0, r⟩
  completed : ∀ i ∈ w.items, i ∉ w.pending → i.expected? = none → ∀ column,
    earlier[i.start]? = some column → ∀ j ∈ column.items,
      j.expected? = some (.category i.rule.category) → w.Holds j.advance
  noted : ∀ i ∈ w.items, i ∉ w.pending → i.expected? = none → i.start = earlier.length →
    i.rule.category ∈ w.vacant
  passed : ∀ c ∈ w.vacant, ∀ j ∈ w.items, j.expected? = some (.category c) → j ∉ w.pending →
    w.Holds j.advance
  rooted : ∀ i ∈ w.items, i ∉ w.pending → i.expected? = none →
    ∃ f ∈ w.families, f.label = i.label earlier.length

/-- What holds of a column throughout the work on it, given the columns before. -/
structure Work.IsGood (g : RuleSet T N) (tokens : List T) (earlier : List (Work T N))
    (w : Work T N) : Prop where
  read : w.IsRead g tokens earlier.length
  rooted : w.IsRooted earlier
  sorted : w.IsSorted
  closed : w.IsClosed g earlier

/-- Predictions that a chart may rely on: they enter the rules of a category together. -/
structure Foretells (g : RuleSet T N) (predict : Category T N → List (Rule T N)) : Prop where
  mem_rules : ∀ c, ∀ r ∈ predict c, r ∈ g.rules
  own : ∀ r ∈ g.rules, r ∈ predict r.category
  together : ∀ c, ∀ r ∈ predict c, ∀ other ∈ g.rules, other.category = r.category →
    other ∈ predict c

/-- The columns up to some position: each is good and nothing in it is pending. -/
def Good (g : RuleSet T N) (tokens : List T) (columns : List (Work T N)) : Prop :=
  ∀ k (column : Work T N), columns[k]? = some column →
    column.IsGood g tokens (columns.take k) ∧ column.pending = []

theorem HasFamily.grow {earlier : List (Work T N)} {w w' : Work T N} {l : Label T N}
    (h : HasFamily (earlier ++ [w]) l) (hfamilies : ∀ f ∈ w.families, f ∈ w'.families) :
    HasFamily (earlier ++ [w']) l := by
  obtain ⟨column, hcolumn, f, hf, hlabel⟩ := h
  rcases Nat.lt_or_ge l.stop earlier.length with hlt | hge
  · rw [List.getElem?_append_left hlt] at hcolumn
    exact ⟨column, by rwa [List.getElem?_append_left hlt], f, hf, hlabel⟩
  · rw [List.getElem?_append_right hge] at hcolumn
    obtain ⟨hzero, rfl⟩ : l.stop - earlier.length = 0 ∧ w = column := by
      simpa [List.getElem?_singleton] using hcolumn
    exact ⟨w', by rw [List.getElem?_append_right hge, hzero]; rfl, f, hfamilies f hf, hlabel⟩

theorem hasFamily_last {earlier : List (Work T N)} {w : Work T N} {f : Family T N}
    (hf : f ∈ w.families) (hstop : f.label.stop = earlier.length) :
    HasFamily (earlier ++ [w]) f.label :=
  ⟨w, by rw [hstop, List.getElem?_concat_length], f, hf, rfl⟩

theorem Family.IsRooted.grow {earlier : List (Work T N)} {w w' : Work T N} {f : Family T N}
    (h : f.IsRooted (earlier ++ [w])) (hfamilies : ∀ f ∈ w.families, f ∈ w'.families) :
    f.IsRooted (earlier ++ [w']) :=
  ⟨fun l hl => (h.before l hl).grow hfamilies, fun l hl => (h.last l hl).grow hfamilies⟩

namespace Work

variable {earlier : List (Work T N)} {w w' : Work T N} {i : Item T N} {rest : List (Item T N)}
  {newItem : Item T N → Prop} {newFamily : Family T N → Prop} {newVacant : Category T N → Prop}

theorem isSorted_empty : ({} : Work T N).IsSorted :=
  ⟨List.forall_mem_nil _, List.forall_mem_nil _, List.nodup_nil, List.Subset.refl _,
    List.nodup_nil⟩

theorem IsSorted.pop (h : w.IsSorted) (hpending : w.pending = i :: rest) :
    { w with pending := rest }.IsSorted := by
  have hstack := h.stack
  rw [hpending] at hstack
  refine ⟨h.items, h.waiting, h.nodup, ?_, hstack.of_cons⟩
  intro j hj
  apply h.pending
  rw [hpending]
  exact List.mem_cons_of_mem i hj

theorem IsSorted.adds (h : w.IsSorted) (hadds : Adds w w' newItem newFamily newVacant) :
    w'.IsSorted := by
  obtain ⟨hitems, hwaiting⟩ := hadds.sorted h.items h.waiting
  obtain ⟨new, hall, hpushed, hnodup⟩ := hadds.pushed
  have hsplit := hnodup h.nodup
  refine ⟨hitems, hwaiting, hsplit, hadds.pending_subset_items h.pending, ?_⟩
  rw [hall] at hsplit
  rw [hpushed]
  refine (List.nodup_reverse.mpr hsplit.of_append_right).append h.stack ?_
  intro j hj hold
  exact List.disjoint_of_nodup_append hsplit (h.pending hold) (List.mem_reverse.mp hj)

theorem Adds.processed (hadds : Adds { w with pending := rest } w' newItem newFamily newVacant)
    (hpending : w.pending = i :: rest) {j : Item T N} (hj : j ∈ w'.items)
    (hdone : j ∉ w'.pending) : j ∈ w.items ∧ (j = i ∨ j ∉ w.pending) := by
  obtain ⟨hitem, hrest⟩ := hadds.mem_items_of_not_pending hj hdone
  refine ⟨hitem, ?_⟩
  rw [hpending, List.mem_cons, not_or]
  by_cases hji : j = i
  · exact Or.inl hji
  · exact Or.inr ⟨hji, hrest⟩

theorem IsRooted.families_grow (h : w.IsRooted earlier)
    (hadds : Adds { w with pending := rest } w' newItem newFamily newVacant) :
    ∀ f ∈ w.families, f.IsRooted (earlier ++ [w']) :=
  fun f hf => (h.families f hf).grow fun _ hmem => hadds.mem_families hmem

theorem IsRooted.before (h : w.IsRooted earlier) {j : Item T N} (hj : w.Holds j) {l : Label T N}
    (hl : j.before earlier.length = some l) : HasFamily (earlier ++ [w]) l := by
  rw [Item.before] at hl
  split at hl
  · cases hl
  · rename_i hdot
    obtain rfl := Option.some.inj hl
    obtain ⟨f, hf, hlabel⟩ := h.items j hj (Nat.pos_of_ne_zero hdot)
    rw [← hlabel]
    apply hasFamily_last hf
    rw [hlabel]
    rfl

end Work

namespace Chart

open Work

variable [DecidableEq T] [DecidableEq N] {predict : Category T N → List (Rule T N)}
  {earlier : List (Work T N)} {w : Work T N} {i : Item T N} {rest : List (Item T N)}
  {c : Category T N}

theorem isRead_expect (hpredict : Foretells g predict) (h : w.IsRead g tokens earlier.length)
    (hi : w.Holds i) (hc : i.expected? = some (.category c)) :
    (expect predict { w with pending := rest } earlier.length i c).IsRead g tokens
      earlier.length := by
  have hadds := adds_expect predict { w with pending := rest } earlier.length i c
  refine ⟨?_, ?_, ?_⟩
  · intro j hj
    rcases (hadds.holds_iff j).mp hj with hold | ⟨_, r, hr, rfl⟩ | ⟨hvacant, rfl⟩
    · exact h.items j hold
    · exact Item.isRead_start (hpredict.mem_rules c r hr) _
    · obtain ⟨d, hd⟩ := h.vacant c hvacant
      exact (h.items i hi).advance hc hd
  · intro f hf
    rcases (hadds.mem_families_iff f).mp hf with hold | ⟨hvacant, rfl⟩
    · exact h.families f hold
    · obtain ⟨d, hd⟩ := h.vacant c hvacant
      exact ⟨.extend (h.items i hi) hc ⟨c, d, rfl, rfl, hd⟩, rfl⟩
  · intro d hd
    exact h.vacant d (by simpa using (hadds.mem_vacant_iff d).mp hd)

theorem isRooted_expect (h : w.IsRooted earlier) (hi : w.Holds i) :
    (expect predict { w with pending := rest } earlier.length i c).IsRooted earlier := by
  have hadds := adds_expect predict { w with pending := rest } earlier.length i c
  refine ⟨?_, ?_, ?_⟩
  · intro f hf
    rcases (hadds.mem_families_iff f).mp hf with hold | ⟨hvacant, rfl⟩
    · exact h.families_grow hadds f hold
    · refine ⟨?_, ?_⟩
      · intro l hl
        exact (h.before hi hl).grow fun _ hmem => hadds.mem_families hmem
      · intro l hl
        obtain rfl : ⟨earlier.length, earlier.length, .whole c⟩ = l :=
          Part.node.inj (Option.some.inj hl)
        obtain ⟨f, hf, hlabel⟩ := h.vacant c hvacant
        rw [← hlabel]
        exact hasFamily_last (hadds.mem_families hf) (by rw [hlabel])
  · intro j hj hdot
    rcases (hadds.holds_iff j).mp hj with hold | ⟨_, r, _, rfl⟩ | ⟨hvacant, rfl⟩
    · obtain ⟨f, hf, hlabel⟩ := h.items j hold hdot
      exact ⟨f, hadds.mem_families hf, hlabel⟩
    · cases hdot
    · exact ⟨_, (hadds.mem_families_iff _).mpr (Or.inr ⟨hvacant, rfl⟩), rfl⟩
  · intro d hd
    obtain ⟨f, hf, hlabel⟩ := h.vacant d (by simpa using (hadds.mem_vacant_iff d).mp hd)
    exact ⟨f, hadds.mem_families hf, hlabel⟩

theorem holds_of_isEntered (h : w.IsClosed g earlier)
    (hentered : isEntered w earlier.length c = true) {r : Rule T N} (hr : r ∈ g.rules)
    (hcategory : r.category = c) : w.Holds ⟨earlier.length, 0, r⟩ := by
  have hstarts : ∃ j, w.Holds j ∧ j.start = earlier.length ∧ j.dot = 0 ∧ j.rule.category = c := by
    simp only [isEntered, Bool.or_eq_true, List.any_eq_true, Bool.and_eq_true,
      decide_eq_true_eq] at hentered
    rcases hentered with ⟨j, hj, ⟨hstart, hdot⟩, hc⟩ | ⟨j, hj, ⟨hstart, hdot⟩, hc⟩
    · exact ⟨j, Or.inl hj, hstart, hdot, hc⟩
    · exact ⟨j, Or.inr hj, hstart, hdot, hc⟩
  obtain ⟨⟨start, dot, entered⟩, hj, rfl, rfl, rfl⟩ := hstarts
  exact h.entered entered hj r hr hcategory

theorem isClosed_expect (hpredict : Foretells g predict) (h : w.IsClosed g earlier)
    (hpending : w.pending = i :: rest) (hc : i.expected? = some (.category c)) :
    (expect predict { w with pending := rest } earlier.length i c).IsClosed g earlier := by
  have hadds := adds_expect predict { w with pending := rest } earlier.length i c
  have hentered : ∀ r ∈ g.rules, r.category = c →
      (expect predict { w with pending := rest } earlier.length i c).Holds
        ⟨earlier.length, 0, r⟩ := by
    intro r hr hcategory
    cases hknown : isEntered w earlier.length c with
    | true => exact hadds.holds (holds_of_isEntered h hknown hr hcategory)
    | false =>
        have hmem : r ∈ predict c := hcategory ▸ hpredict.own r hr
        exact (hadds.holds_iff _).mpr (Or.inr (Or.inl ⟨hknown, r, hmem, rfl⟩))
  refine ⟨?_, ?_, ?_, ?_, ?_, ?_⟩
  · intro r hr other hother hcategory
    rcases (hadds.holds_iff _).mp hr with hold | ⟨hnew, entered, hmem, heq⟩ | ⟨_, heq⟩
    · exact hadds.holds (h.entered r hold other hother hcategory)
    · obtain rfl : r = entered := by simpa using heq
      have htogether := hpredict.together c r hmem other hother hcategory
      exact (hadds.holds_iff _).mpr (Or.inr (Or.inl ⟨hnew, other, htogether, rfl⟩))
    · simp [Item.advance] at heq
  · intro j hj hdone d hd r hr hcategory
    obtain ⟨hitem, rfl | hbefore⟩ := hadds.processed hpending hj hdone
    · obtain rfl : c = d := by simpa [hc] using hd
      exact hentered r hr hcategory
    · exact hadds.holds (h.predicted j hitem hbefore d hd r hr hcategory)
  · intro j hj hdone hnone column hcolumn waiter hwaiter hexpects
    obtain ⟨hitem, rfl | hbefore⟩ := hadds.processed hpending hj hdone
    · rw [hc] at hnone
      cases hnone
    · exact hadds.holds (h.completed j hitem hbefore hnone column hcolumn waiter hwaiter hexpects)
  · intro j hj hdone hnone hstart
    obtain ⟨hitem, rfl | hbefore⟩ := hadds.processed hpending hj hdone
    · rw [hc] at hnone
      cases hnone
    · exact (hadds.mem_vacant_iff _).mpr (Or.inl (h.noted j hitem hbefore hnone hstart))
  · intro d hd j hj hexpects hdone
    have hvacant : d ∈ w.vacant := by simpa using (hadds.mem_vacant_iff d).mp hd
    obtain ⟨hitem, rfl | hbefore⟩ := hadds.processed hpending hj hdone
    · obtain rfl : c = d := by simpa [hc] using hexpects
      exact (hadds.holds_iff _).mpr (Or.inr (Or.inr ⟨hvacant, rfl⟩))
    · exact hadds.holds (h.passed d hvacant j hitem hexpects hbefore)
  · intro j hj hdone hnone
    obtain ⟨hitem, rfl | hbefore⟩ := hadds.processed hpending hj hdone
    · rw [hc] at hnone
      cases hnone
    · obtain ⟨f, hf, hlabel⟩ := h.rooted j hitem hbefore hnone
      exact ⟨f, hadds.mem_families hf, hlabel⟩

omit [DecidableEq T] [DecidableEq N] in
theorem mem_itemsAt {position : Nat} {j : Item T N} :
    j ∈ itemsAt (earlier.map finish) w earlier.length position ↔
      ∃ column, (earlier ++ [w])[position]? = some column ∧ j ∈ column.items := by
  rw [itemsAt]
  split
  · rename_i hhere
    simp [hhere]
  · rename_i hother
    rcases Nat.lt_or_gt_of_ne hother with hlt | hgt
    · rw [List.getElem?_append_left hlt, List.getElem?_map, List.getElem?_eq_getElem hlt]
      simp [finish]
    · have hdone : (earlier.map finish)[position]? = none :=
        List.getElem?_eq_none (by rw [List.length_map]; omega)
      have hall : (earlier ++ [w])[position]? = none :=
        List.getElem?_eq_none (by rw [List.length_append, List.length_singleton]; omega)
      simp [hdone, hall]

theorem mem_waiters {j : Item T N} :
    j ∈ waiters (earlier.map finish) w earlier.length i ↔
      (∃ column, (earlier ++ [w])[i.start]? = some column ∧ j ∈ column.items) ∧
        j.expected? = some (.category i.rule.category) := by
  rw [waiters, List.mem_filter, mem_itemsAt]
  refine and_congr_right fun _ => ?_
  rw [Item.expectsCategory]
  split
  · rename_i other hother
    simp [hother]
  · rename_i hother
    simp only [Bool.false_eq_true, false_iff]
    exact hother _

omit [DecidableEq T] [DecidableEq N] in
theorem isRead_of_getElem? (hearlier : Good g tokens earlier)
    (h : w.IsRead g tokens earlier.length) {k : Nat} {column : Work T N}
    (hcolumn : (earlier ++ [w])[k]? = some column) : column.IsRead g tokens k := by
  rcases Nat.lt_or_ge k earlier.length with hlt | hge
  · rw [List.getElem?_append_left hlt] at hcolumn
    have hread := (hearlier k column hcolumn).1.read
    rwa [List.length_take, Nat.min_eq_left (Nat.le_of_lt hlt)] at hread
  · rw [List.getElem?_append_right hge] at hcolumn
    obtain ⟨hzero, rfl⟩ : k - earlier.length = 0 ∧ w = column := by
      simpa [List.getElem?_singleton] using hcolumn
    obtain rfl : k = earlier.length := by omega
    exact h

omit [DecidableEq T] [DecidableEq N] in
theorem before_of_getElem? (hearlier : Good g tokens earlier) (h : w.IsRooted earlier) {k : Nat}
    {column : Work T N} (hcolumn : (earlier ++ [w])[k]? = some column) {j : Item T N}
    (hj : column.Holds j) {l : Label T N} (hl : j.before k = some l) :
    HasFamily (earlier ++ [w]) l := by
  rcases Nat.lt_or_ge k earlier.length with hlt | hge
  · rw [List.getElem?_append_left hlt] at hcolumn
    have hrooted := (hearlier k column hcolumn).1.rooted
    have hlength : (earlier.take k).length = k := by
      rw [List.length_take, Nat.min_eq_left (Nat.le_of_lt hlt)]
    obtain ⟨found, hfound, hfamily⟩ := hrooted.before hj (by rwa [hlength])
    refine ⟨found, ?_, hfamily⟩
    have htake : earlier.take k ++ [column] = earlier.take (k + 1) := by
      obtain ⟨_, rfl⟩ := List.getElem?_eq_some_iff.mp hcolumn
      exact (List.take_succ_eq_append_getElem hlt).symm
    rw [htake, List.getElem?_take] at hfound
    split at hfound
    · rwa [List.getElem?_append_left (by omega)]
    · cases hfound
  · rw [List.getElem?_append_right hge] at hcolumn
    obtain ⟨hzero, rfl⟩ : k - earlier.length = 0 ∧ w = column := by
      simpa [List.getElem?_singleton] using hcolumn
    obtain rfl : k = earlier.length := by omega
    exact h.before hj hl

theorem isRead_complete (hearlier : Good g tokens earlier)
    (h : w.IsRead g tokens earlier.length) (hi : w.Holds i) (hnone : i.expected? = none) :
    (complete (earlier.map finish) { w with pending := rest } earlier.length i).IsRead g tokens
      earlier.length := by
  have hadds := adds_complete (earlier.map finish) { w with pending := rest } earlier.length i
  obtain ⟨d, hd⟩ := (h.items i hi).exists_reads hnone
  have hwaiter : ∀ j ∈ waiters (earlier.map finish) w earlier.length i,
      j.IsRead g tokens i.start ∧ j.expected? = some (.category i.rule.category) := by
    intro j hj
    obtain ⟨⟨column, hcolumn, hmem⟩, hexpects⟩ := mem_waiters.mp hj
    exact ⟨(isRead_of_getElem? hearlier h hcolumn).items j (Or.inl hmem), hexpects⟩
  have hlabel : i.label earlier.length = ⟨i.start, earlier.length, .whole i.rule.category⟩ := by
    rw [Item.label, Item.reading, if_pos (Item.isComplete_iff.mpr hnone)]
  refine ⟨?_, ?_, ?_⟩
  · intro j hj
    rcases (hadds.holds_iff j).mp hj with hold | ⟨waiter, hmem, rfl⟩
    · exact h.items j hold
    · obtain ⟨hread, hexpects⟩ := hwaiter waiter hmem
      exact hread.advance hexpects hd
  · intro f hf
    rcases (hadds.mem_families_iff f).mp hf with hold | ⟨hdot, rfl⟩ | ⟨waiter, hmem, rfl⟩
    · exact h.families f hold
    · refine ⟨?_, rfl⟩
      obtain ⟨hrule, _, ds, hds⟩ := h.items i hi
      have hempty : i.rule.symbols = [] := by
        have hlength := List.getElem?_eq_none_iff.mp hnone
        exact List.length_eq_zero_iff.mp (by omega)
      have hstart : i.start = earlier.length := by
        rw [hdot, List.take_zero] at hds
        cases ds with
        | nil => exact (Derivation.readAll_nil_iff.mp hds).2
        | cons d rest => simp at hds
      rw [emptyFamily, hlabel, hstart]
      exact .empty hrule hempty
    · obtain ⟨hread, hexpects⟩ := hwaiter waiter hmem
      exact ⟨.extend hread hexpects ⟨_, d, rfl, hlabel, hd⟩, rfl⟩
  · intro e he
    rcases (hadds.mem_vacant_iff e).mp he with hold | ⟨hstart, rfl⟩
    · exact h.vacant e hold
    · rw [hstart] at hd
      exact ⟨d, hd⟩

theorem isRooted_complete (hearlier : Good g tokens earlier) (h : w.IsRooted earlier)
    (hi : w.Holds i) (hnone : i.expected? = none) :
    (complete (earlier.map finish) { w with pending := rest } earlier.length i).IsRooted
      earlier := by
  have hadds := adds_complete (earlier.map finish) { w with pending := rest } earlier.length i
  have hlabel : i.label earlier.length = ⟨i.start, earlier.length, .whole i.rule.category⟩ := by
    rw [Item.label, Item.reading, if_pos (Item.isComplete_iff.mpr hnone)]
  -- the label of the complete item has a family: it was extended, or the empty one was just added
  have hown : ∃ f ∈ (complete (earlier.map finish) { w with pending := rest } earlier.length
      i).families, f.label = i.label earlier.length := by
    rcases Nat.eq_zero_or_pos i.dot with hdot | hdot
    · exact ⟨_, (hadds.mem_families_iff _).mpr (Or.inr (Or.inl ⟨hdot, rfl⟩)), rfl⟩
    · obtain ⟨f, hf, hfl⟩ := h.items i hi hdot
      exact ⟨f, hadds.mem_families hf, hfl⟩
  refine ⟨?_, ?_, ?_⟩
  · intro f hf
    rcases (hadds.mem_families_iff f).mp hf with hold | ⟨hdot, rfl⟩ | ⟨waiter, hmem, rfl⟩
    · exact h.families_grow hadds f hold
    · exact ⟨nofun, nofun⟩
    · have hwaiter : waiter ∈ waiters (earlier.map finish) w earlier.length i := hmem
      obtain ⟨⟨column, hcolumn, hitem⟩, _⟩ := mem_waiters.mp hwaiter
      refine ⟨?_, ?_⟩
      · intro l hl
        exact (before_of_getElem? hearlier h hcolumn (Or.inl hitem) hl).grow
          fun _ hmem => hadds.mem_families hmem
      · intro l hl
        obtain rfl : i.label earlier.length = l := Part.node.inj (Option.some.inj hl)
        obtain ⟨f, hf, hfl⟩ := hown
        rw [← hfl]
        exact hasFamily_last hf (by rw [hfl]; rfl)
  · intro j hj hdot
    rcases (hadds.holds_iff j).mp hj with hold | ⟨waiter, hmem, rfl⟩
    · obtain ⟨f, hf, hfl⟩ := h.items j hold hdot
      exact ⟨f, hadds.mem_families hf, hfl⟩
    · exact ⟨_, (hadds.mem_families_iff _).mpr (Or.inr (Or.inr ⟨waiter, hmem, rfl⟩)), rfl⟩
  · intro e he
    rcases (hadds.mem_vacant_iff e).mp he with hold | ⟨hstart, rfl⟩
    · obtain ⟨f, hf, hfl⟩ := h.vacant e hold
      exact ⟨f, hadds.mem_families hf, hfl⟩
    · obtain ⟨f, hf, hfl⟩ := hown
      exact ⟨f, hf, by rw [hfl, hlabel, hstart]⟩

theorem isClosed_complete (h : w.IsClosed g earlier) (hrooted : w.IsRooted earlier)
    (hi : w.Holds i) (hpending : w.pending = i :: rest) (hnone : i.expected? = none) :
    (complete (earlier.map finish) { w with pending := rest } earlier.length i).IsClosed g
      earlier := by
  have hadds := adds_complete (earlier.map finish) { w with pending := rest } earlier.length i
  have hwaiter : ∀ {column : Work T N} {j : Item T N},
      (earlier ++ [w])[i.start]? = some column → j ∈ column.items →
      j.expected? = some (.category i.rule.category) →
      (complete (earlier.map finish) { w with pending := rest } earlier.length i).Holds
        j.advance := by
    intro column j hcolumn hj hexpects
    have hmem : j ∈ waiters (earlier.map finish) w earlier.length i :=
      mem_waiters.mpr ⟨⟨column, hcolumn, hj⟩, hexpects⟩
    exact (hadds.holds_iff _).mpr (Or.inr ⟨j, hmem, rfl⟩)
  refine ⟨?_, ?_, ?_, ?_, ?_, ?_⟩
  · intro r hr other hother hcategory
    rcases (hadds.holds_iff _).mp hr with hold | ⟨waiter, _, heq⟩
    · exact hadds.holds (h.entered r hold other hother hcategory)
    · simp [Item.advance] at heq
  · intro j hj hdone d hd r hr hcategory
    obtain ⟨hitem, rfl | hbefore⟩ := hadds.processed hpending hj hdone
    · rw [hnone] at hd
      cases hd
    · exact hadds.holds (h.predicted j hitem hbefore d hd r hr hcategory)
  · intro j hj hdone hcomplete column hcolumn waiter hmem hexpects
    obtain ⟨hitem, rfl | hbefore⟩ := hadds.processed hpending hj hdone
    · refine hwaiter ?_ hmem hexpects
      rwa [List.getElem?_append_left (List.getElem?_eq_some_iff.mp hcolumn).1]
    · exact hadds.holds (h.completed j hitem hbefore hcomplete column hcolumn waiter hmem hexpects)
  · intro j hj hdone hcomplete hstart
    obtain ⟨hitem, rfl | hbefore⟩ := hadds.processed hpending hj hdone
    · exact (hadds.mem_vacant_iff _).mpr (Or.inr ⟨hstart, rfl⟩)
    · exact (hadds.mem_vacant_iff _).mpr (Or.inl (h.noted j hitem hbefore hcomplete hstart))
  · intro d hd j hj hexpects hdone
    obtain ⟨hitem, hcase⟩ := hadds.processed hpending hj hdone
    rcases (hadds.mem_vacant_iff d).mp hd with hold | ⟨hstart, rfl⟩
    · rcases hcase with rfl | hbefore
      · rw [hnone] at hexpects
        cases hexpects
      · exact hadds.holds (h.passed d hold j hitem hexpects hbefore)
    · refine hwaiter ?_ hitem hexpects
      rw [hstart, List.getElem?_concat_length]
  · intro j hj hdone hcomplete
    obtain ⟨hitem, rfl | hbefore⟩ := hadds.processed hpending hj hdone
    · rcases Nat.eq_zero_or_pos j.dot with hdot | hdot
      · exact ⟨_, (hadds.mem_families_iff _).mpr (Or.inr (Or.inl ⟨hdot, rfl⟩)), rfl⟩
      · obtain ⟨f, hf, hfl⟩ := hrooted.items j hi hdot
        exact ⟨f, hadds.mem_families hf, hfl⟩
    · obtain ⟨f, hf, hfl⟩ := h.rooted j hitem hbefore hcomplete
      exact ⟨f, hadds.mem_families hf, hfl⟩

theorem isGood_work (hpredict : Foretells g predict) (hearlier : Good g tokens earlier)
    (h : w.IsGood g tokens earlier) (hpending : w.pending = i :: rest) :
    (work predict (earlier.map finish) earlier.length { w with pending := rest } i).IsGood g tokens
      earlier := by
  have hitem : i ∈ w.items := h.sorted.pending (by rw [hpending]; exact List.mem_cons_self)
  have hi : w.Holds i := Or.inl hitem
  rw [work]
  split
  · rename_i c hc
    exact ⟨isRead_expect hpredict h.read hi hc, isRooted_expect h.rooted hi,
      (h.sorted.pop hpending).adds (adds_expect predict _ _ i c),
      isClosed_expect hpredict h.closed hpending hc⟩
  · rename_i t kept htoken
    have hexpects := h.sorted.items i hitem
    rw [Item.expectsToken, htoken] at hexpects
    cases hexpects
  · rename_i hnone
    exact ⟨isRead_complete hearlier h.read hi hnone, isRooted_complete hearlier h.rooted hi hnone,
      (h.sorted.pop hpending).adds (adds_complete _ _ _ i),
      isClosed_complete h.closed h.rooted hi hpending hnone⟩

/-- The items that a column can hold: one for each place in a rule and each start. -/
def places (g : RuleSet T N) (here : Nat) : List (Item T N) :=
  (List.range (here + 1)).flatMap fun start =>
    g.rules.flatMap fun rule => (List.range (rule.symbols.length + 1)).map fun dot =>
      ⟨start, dot, rule⟩

omit [DecidableEq T] [DecidableEq N] in
theorem length_places (g : RuleSet T N) (here : Nat) :
    (places g here).length = g.placeCount * (here + 1) := by
  have hcount : ∀ (rules : List (Rule T N)) (count : Nat),
      rules.foldl (fun count r => count + r.symbols.length + 1) count =
        count + (rules.map fun r => r.symbols.length + 1).sum := by
    intro rules
    induction rules with
    | nil => simp
    | cons r rest ih =>
        intro count
        rw [List.foldl_cons, ih, List.map_cons, List.sum_cons]
        omega
  simp only [places, RuleSet.placeCount, hcount, List.length_flatMap, List.length_map,
    List.length_range, List.map_const', List.sum_replicate_nat, Nat.zero_add]
  exact Nat.mul_comm _ _

omit [DecidableEq T] [DecidableEq N] in
theorem length_items_le (h : w.IsGood g tokens earlier) :
    w.items.length ≤ g.placeCount * (earlier.length + 1) := by
  rw [← length_places]
  apply (List.subperm_of_subset h.sorted.nodup ?_).length_le
  intro j hj
  obtain ⟨hrule, hdot, ds, hds⟩ := h.read.items j (Or.inl hj)
  refine List.mem_flatMap.mpr ⟨j.start, List.mem_range.mpr ?_, ?_⟩
  · exact Nat.lt_succ_of_le hds.le
  · refine List.mem_flatMap.mpr ⟨j.rule, hrule, List.mem_map.mpr ⟨j.dot, ?_, rfl⟩⟩
    exact List.mem_range.mpr (Nat.lt_succ_of_le hdot)

/-- Filling a column keeps it good and leaves nothing pending. -/
theorem isGood_saturate (hpredict : Foretells g predict) (hearlier : Good g tokens earlier)
    (h : w.IsGood g tokens earlier) :
    (saturate predict (earlier.map finish) earlier.length (g.placeCount * (earlier.length + 1))
        w).IsGood g tokens earlier ∧
      (saturate predict (earlier.map finish) earlier.length (g.placeCount * (earlier.length + 1))
        w).pending = [] := by
  apply saturate_induction (P := fun w => w.IsGood g tokens earlier)
  · intro w i rest hw hpending
    exact isGood_work hpredict hearlier hw hpending
  · exact fun w => length_items_le
  · exact h
  · have hle := length_items_le h
    have hpending : w.pending.length ≤ w.items.length :=
      (List.subperm_of_subset h.sorted.stack h.sorted.pending).length_le
    omega

theorem holds_saturate {done : Chart T N} {here fuel : Nat} {j : Item T N} (h : w.Holds j) :
    (saturate predict done here fuel w).Holds j := by
  induction fuel generalizing w with
  | zero => exact h
  | succ fuel ih =>
      cases hpending : w.pending with
      | nil => rwa [saturate_of_pending_nil predict done here (fuel + 1) hpending]
      | cons i rest =>
          rw [saturate_succ_cons predict done here fuel hpending]
          obtain ⟨_, _, _, hadds⟩ := exists_adds_work predict done here { w with pending := rest } i
          exact ih (hadds.holds h)

omit [DecidableEq T] [DecidableEq N] in
/-- A column is good when nothing was worked on yet, if what it opens with is. -/
theorem isGood_of_adds {columns : List (Work T N)} {w : Work T N} {newItem : Item T N → Prop}
    {newFamily : Family T N → Prop} (hadds : Adds {} w newItem newFamily (fun _ => False))
    (hread : ∀ i, newItem i → i.IsRead g tokens columns.length)
    (hfamily : ∀ f, newFamily f → f.IsRead g tokens ∧ f.label.stop = columns.length ∧
      f.IsRooted (columns ++ [w]))
    (hrooted : ∀ i, newItem i → 0 < i.dot → ∃ f, newFamily f ∧ f.label = i.label columns.length)
    (hentered : ∀ r, newItem ⟨columns.length, 0, r⟩ → ∀ other ∈ g.rules,
      other.category = r.category → newItem ⟨columns.length, 0, other⟩) :
    w.IsGood g tokens columns := by
  have hholds : ∀ i, w.Holds i ↔ newItem i := by
    intro i
    rw [hadds.holds_iff]
    simp [Holds]
  have hfamilies : ∀ f, f ∈ w.families ↔ newFamily f := by
    intro f
    rw [hadds.mem_families_iff]
    simp
  have hvacant : ∀ c, c ∉ w.vacant := by
    intro c hc
    simpa using (hadds.mem_vacant_iff c).mp hc
  have hpending : ∀ i ∈ w.items, i ∉ w.pending → False := by
    intro i hi hdone
    cases (hadds.mem_items_of_not_pending hi hdone).1
  refine ⟨⟨?_, ?_, ?_⟩, ⟨?_, ?_, ?_⟩, isSorted_empty.adds hadds, ?_⟩
  · exact fun i hi => hread i ((hholds i).mp hi)
  · intro f hf
    obtain ⟨hisRead, hstop, _⟩ := hfamily f ((hfamilies f).mp hf)
    exact ⟨hisRead, hstop⟩
  · exact fun c hc => absurd hc (hvacant c)
  · exact fun f hf => (hfamily f ((hfamilies f).mp hf)).2.2
  · intro i hi hdot
    obtain ⟨f, hf, hlabel⟩ := hrooted i ((hholds i).mp hi) hdot
    exact ⟨f, (hfamilies f).mpr hf, hlabel⟩
  · exact fun c hc => absurd hc (hvacant c)
  · refine ⟨?_, ?_, ?_, ?_, ?_, ?_⟩
    · intro r hr other hother hcategory
      exact (hholds _).mpr (hentered r ((hholds _).mp hr) other hother hcategory)
    · exact fun i hi hdone => (hpending i hi hdone).elim
    · exact fun i hi hdone => (hpending i hi hdone).elim
    · exact fun i hi hdone => (hpending i hi hdone).elim
    · exact fun c hc => absurd hc (hvacant c)
    · exact fun i hi hdone => (hpending i hi hdone).elim

theorem isGood_initial (hpredict : Foretells g predict) :
    (initial predict g.start).IsGood g tokens [] := by
  apply isGood_of_adds (adds_enterAll (predict g.start) 0 {})
  · rintro _ ⟨r, hr, rfl⟩
    exact Item.isRead_start (hpredict.mem_rules g.start r hr) 0
  · exact fun f hf => hf.elim
  · rintro _ ⟨r, _, rfl⟩ hdot
    cases hdot
  · rintro r ⟨entered, hr, heq⟩ other hother hcategory
    obtain rfl : r = entered := (Item.mk.inj heq).2.2
    exact ⟨other, hpredict.together g.start r hr other hother hcategory, rfl⟩

omit [DecidableEq N] in
theorem accepts_iff {j : Item T N} {t : T} :
    j.accepts t = true ↔ ∃ kept, j.expected? = some (.token t kept) := by
  rw [Item.accepts]
  split
  · rename_i u kept hexpected
    simp [hexpected]
  · rename_i hother
    simp only [Bool.false_eq_true, false_iff, not_exists]
    exact fun kept => hother t kept

theorem adds_scan (w : Work T N) (position : Nat) (t : T) :
    Adds {} (scan w position t)
      (fun j => ∃ i ∈ w.waiting.filter (·.accepts t), j = i.advance)
      (fun f => ∃ i ∈ w.waiting.filter (·.accepts t),
        f = i.extend position (position + 1) (.token position)) (fun _ => False) :=
  adds_shiftAll _ position (position + 1) (.token position) {}

theorem isGood_scan (hw : w.IsGood g tokens earlier) {t : T}
    (ht : tokens[earlier.length]? = some t) :
    (scan w earlier.length t).IsGood g tokens (earlier ++ [w]) := by
  have hlength : (earlier ++ [w]).length = earlier.length + 1 := by simp
  have hwaiting : ∀ i ∈ w.waiting.filter (·.accepts t), w.Holds i ∧
      ∃ kept, i.expected? = some (.token t kept) ∧
        Derivation.Reads g tokens (.token earlier.length) (.token t kept) earlier.length
          (earlier.length + 1) := by
    intro i hi
    obtain ⟨hmem, haccepts⟩ := List.mem_filter.mp hi
    obtain ⟨kept, hexpected⟩ := accepts_iff.mp haccepts
    refine ⟨Or.inr hmem, kept, hexpected, ?_⟩
    rw [Derivation.Reads]
    exact ⟨rfl, rfl, t, kept, rfl, ht⟩
  apply isGood_of_adds (adds_scan w earlier.length t)
  · rintro _ ⟨i, hi, rfl⟩
    obtain ⟨hholds, kept, hexpected, hreads⟩ := hwaiting i hi
    rw [hlength]
    exact (hw.read.items i hholds).advance hexpected hreads
  · rintro _ ⟨i, hi, rfl⟩
    obtain ⟨hholds, kept, hexpected, hreads⟩ := hwaiting i hi
    refine ⟨.extend (hw.read.items i hholds) hexpected ⟨rfl, hreads⟩, hlength.symm, ?_, nofun⟩
    intro l hl
    obtain ⟨column, hcolumn, hfamily⟩ := hw.rooted.before hholds hl
    refine ⟨column, ?_, hfamily⟩
    rwa [List.getElem?_append_left (List.getElem?_eq_some_iff.mp hcolumn).1]
  · rintro _ ⟨i, hi, rfl⟩ _
    exact ⟨_, ⟨i, hi, rfl⟩, by rw [hlength]; rfl⟩
  · rintro r ⟨i, _, heq⟩
    simp [Item.advance] at heq

end Chart

end HostBindings.Grammar

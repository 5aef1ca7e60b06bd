import HostBindings.Proofs.ChartReadings

/-!
Filled charts. The columns of a chart are linked: the first one opens with the rules of the start
category, and an item that waits for a token goes on in the next column when the token is there. In
good and linked columns an item that can read on gets as far as the tokens allow, so the last column
of a full chart tells whether the tokens have a derivation, and a chart that stops early stops at a
token with which no derivation goes on.
-/

namespace HostBindings.Grammar

variable {T N : Type} {g : RuleSet T N} {tokens : List T}

/-- What columns take from the columns before them, other than by the work on them. -/
structure Linked (g : RuleSet T N) (tokens : List T) (columns : List (Work T N)) : Prop where
  started : ∀ column, columns[0]? = some column → ∀ r ∈ g.rules, r.category = g.start →
    column.Holds ⟨0, 0, r⟩
  scanned : ∀ k column next, columns[k]? = some column → columns[k + 1]? = some next →
    ∀ i ∈ column.waiting, ∀ t kept, tokens[k]? = some t → i.expected? = some (.token t kept) →
      next.Holds i.advance

/-- An item of the last column goes on with the token there. -/
def Alive (tokens : List T) (columns : List (Work T N)) : Prop :=
  ∃ k column, columns.length = k + 1 ∧ columns[k]? = some column ∧ ∃ i ∈ column.waiting,
    ∃ t kept, tokens[k]? = some t ∧ i.expected? = some (.token t kept)

/-- What becomes of a chart. -/
inductive Filled (g : RuleSet T N) (tokens : List T) : Except Nat (Chart T N) → Prop
  | full {columns : List (Work T N)} (hgood : Good g tokens columns)
      (hlinked : Linked g tokens columns) (hlength : columns.length = tokens.length + 1) :
      Filled g tokens (.ok (columns.map Chart.finish))
  | stuck {columns : List (Work T N)} {position : Nat} (hgood : Good g tokens columns)
      (hlinked : Linked g tokens columns) (hlength : columns.length = position + 1)
      (hposition : position < tokens.length) (hdead : ¬ Alive tokens columns) :
      Filled g tokens (.error position)

theorem getElem?_concat_cases {α : Type} {l : List α} {a b : α} {k : Nat}
    (h : (l ++ [a])[k]? = some b) : l[k]? = some b ∨ k = l.length ∧ b = a := by
  rcases Nat.lt_or_ge k l.length with hlt | hge
  · rw [List.getElem?_append_left hlt] at h
    exact Or.inl h
  · rw [List.getElem?_append_right hge] at h
    obtain ⟨hzero, rfl⟩ : k - l.length = 0 ∧ a = b := by
      simpa [List.getElem?_singleton] using h
    exact Or.inr ⟨by omega, rfl⟩

namespace Linked

variable {earlier : List (Work T N)} {w w' : Work T N}

theorem grow (h : Linked g tokens (earlier ++ [w])) (hholds : ∀ i, w.Holds i → w'.Holds i) :
    Linked g tokens (earlier ++ [w']) := by
  refine ⟨?_, ?_⟩
  · intro column hcolumn r hr hstart
    rcases getElem?_concat_cases hcolumn with hold | ⟨hzero, rfl⟩
    · refine h.started column ?_ r hr hstart
      rwa [List.getElem?_append_left (List.getElem?_eq_some_iff.mp hold).1]
    · refine hholds _ (h.started w ?_ r hr hstart)
      rw [hzero, List.getElem?_concat_length]
  · intro k column next hcolumn hnext i hi t kept ht hexpected
    have hlt : k < earlier.length := by
      have := (List.getElem?_eq_some_iff.mp hnext).1
      rw [List.length_append, List.length_singleton] at this
      omega
    rw [List.getElem?_append_left hlt] at hcolumn
    have hcolumn' : (earlier ++ [w])[k]? = some column := by
      rwa [List.getElem?_append_left hlt]
    rcases getElem?_concat_cases hnext with hold | ⟨hlast, rfl⟩
    · refine h.scanned k column next hcolumn' ?_ i hi t kept ht hexpected
      rwa [List.getElem?_append_left (List.getElem?_eq_some_iff.mp hold).1]
    · refine hholds _ (h.scanned k column w hcolumn' ?_ i hi t kept ht hexpected)
      rw [hlast, List.getElem?_concat_length]

theorem scan [DecidableEq T] [DecidableEq N] (h : Linked g tokens (earlier ++ [w])) {t : T}
    (ht : tokens[earlier.length]? = some t) :
    Linked g tokens (earlier ++ [w] ++ [Chart.scan w earlier.length t]) := by
  refine ⟨?_, ?_⟩
  · intro column hcolumn
    rcases getElem?_concat_cases hcolumn with hold | ⟨hzero, _⟩
    · exact h.started column hold
    · simp at hzero
  · intro k column next hcolumn hnext i hi u kept hu hexpected
    rcases getElem?_concat_cases hnext with hold | ⟨hlast, rfl⟩
    · refine h.scanned k column next ?_ hold i hi u kept hu hexpected
      have hlt := (List.getElem?_eq_some_iff.mp hold).1
      rwa [List.getElem?_append_left (by omega)] at hcolumn
    · obtain rfl : k = earlier.length := by simpa using hlast
      rw [List.getElem?_append_left (by simp), List.getElem?_concat_length] at hcolumn
      obtain rfl := Option.some.inj hcolumn
      obtain rfl : t = u := by simpa [ht] using hu
      have hmem : i ∈ w.waiting.filter (·.accepts t) :=
        List.mem_filter.mpr ⟨hi, Chart.accepts_iff.mpr ⟨kept, hexpected⟩⟩
      exact ((Chart.adds_scan w earlier.length t).holds_iff _).mpr (Or.inr ⟨i, hmem, rfl⟩)

end Linked

theorem Good.concat {columns : List (Work T N)} {w : Work T N} (h : Good g tokens columns)
    (hw : w.IsGood g tokens columns) (hpending : w.pending = []) :
    Good g tokens (columns ++ [w]) := by
  intro k column hcolumn
  rcases getElem?_concat_cases hcolumn with hold | ⟨rfl, rfl⟩
  · have hlt := (List.getElem?_eq_some_iff.mp hold).1
    rw [List.take_append_of_le_length (Nat.le_of_lt hlt)]
    exact h k column hold
  · rw [List.take_left]
    exact ⟨hw, hpending⟩

namespace Chart

variable [DecidableEq T] [DecidableEq N] {predict : Category T N → List (Rule T N)}

theorem linked_initial (hpredict : Foretells g predict) :
    Linked g tokens [initial predict g.start] := by
  refine ⟨?_, ?_⟩
  · intro column hcolumn r hr hstart
    obtain rfl : initial predict g.start = column := by simpa using hcolumn
    have hadds := adds_enterAll (predict g.start) 0 {}
    exact (hadds.holds_iff _).mpr (Or.inr ⟨r, hstart ▸ hpredict.own r hr, rfl⟩)
  · intro k column next _ hnext
    simp at hnext

/-- Each column is worked on until nothing is pending and then opens the next one. -/
theorem filled_fill (hpredict : Foretells g predict) {rest : List T} {earlier : List (Work T N)}
    {w : Work T N} (hearlier : Good g tokens earlier) (hw : w.IsGood g tokens earlier)
    (hlinked : Linked g tokens (earlier ++ [w])) (hle : earlier.length ≤ tokens.length)
    (hrest : tokens.drop earlier.length = rest) :
    Filled g tokens (fill predict g.placeCount (earlier.map finish) w rest) := by
  induction rest generalizing earlier w with
  | nil =>
      obtain ⟨hgood, hpending⟩ := isGood_saturate hpredict hearlier hw
      have hfull : tokens.length ≤ earlier.length := List.drop_eq_nil_iff.mp hrest
      rw [fill, List.length_map]
      have hcolumns := Filled.full (hearlier.concat hgood hpending)
        (hlinked.grow fun i hi => holds_saturate hi) (by simp; omega)
      simpa using hcolumns
  | cons t rest ih =>
      obtain ⟨hgood, hpending⟩ := isGood_saturate hpredict hearlier hw
      rw [fill, List.length_map]
      generalize hfilled : saturate predict (earlier.map finish) earlier.length
        (g.placeCount * (earlier.length + 1)) w = filled at hgood hpending
      have hall : Good g tokens (earlier ++ [filled]) := hearlier.concat hgood hpending
      have hgrown : Linked g tokens (earlier ++ [filled]) :=
        hlinked.grow fun i hi => hfilled ▸ holds_saturate hi
      have hlt : earlier.length < tokens.length := by
        apply Nat.lt_of_not_le
        intro hge
        rw [List.drop_eq_nil_of_le hge] at hrest
        cases hrest
      rw [List.drop_eq_getElem_cons hlt] at hrest
      obtain ⟨hhead, hdrop⟩ := List.cons.inj hrest
      have ht : tokens[earlier.length]? = some t := by
        rw [List.getElem?_eq_getElem hlt, hhead]
      split
      · rename_i hempty
        refine .stuck hall hgrown (by simp) hlt ?_
        rintro ⟨k, column, hlength, hcolumn, i, hi, u, kept, hu, hexpected⟩
        obtain rfl : earlier.length = k := by simpa using hlength
        obtain rfl : t = u := by simpa [ht] using hu
        obtain rfl : filled = column := by simpa using hcolumn
        have hmem : i ∈ filled.waiting.filter (·.accepts t) :=
          List.mem_filter.mpr ⟨hi, accepts_iff.mpr ⟨kept, hexpected⟩⟩
        have hnext := ((adds_scan filled earlier.length t).holds_iff _).mpr
          (Or.inr ⟨i, hmem, rfl⟩)
        simp only [Bool.and_eq_true, List.isEmpty_iff] at hempty
        simp [Work.Holds, hempty.1, hempty.2] at hnext
      · have hnext := ih hall (isGood_scan hgood ht) (hgrown.scan ht)
          (by rw [List.length_append]; exact hlt)
          (by simpa using hdrop)
        simpa using hnext

end Chart

section

variable {columns : List (Work T N)}

theorem Work.IsSorted.mem_waiting {w : Work T N} (h : w.IsSorted) {i : Item T N} (hi : w.Holds i)
    {t : T} {kept : Bool} (hexpected : i.expected? = some (.token t kept)) : i ∈ w.waiting := by
  refine hi.resolve_left fun hitem => ?_
  have htoken := h.items i hitem
  rw [Item.expectsToken, hexpected] at htoken
  cases htoken

theorem Work.IsSorted.mem_items {w : Work T N} (h : w.IsSorted) {i : Item T N} (hi : w.Holds i)
    (hexpected : ∀ t kept, i.expected? ≠ some (.token t kept)) : i ∈ w.items := by
  refine hi.resolve_right fun hwaiting => ?_
  have htoken := h.waiting i hwaiting
  rw [Item.expectsToken] at htoken
  split at htoken
  · exact hexpected _ _ ‹_›
  · cases htoken

theorem Good.completes (hgood : Good g tokens columns) {i j : Nat} {column : Work T N}
    (hcolumn : columns[i]? = some column)
    {item : Item T N} (hitem : item ∈ column.items) {rule : Rule T N}
    (hexpected : item.expected? = some (.category rule.category)) {next : Work T N}
    (hnext : columns[j]? = some next) (hle : i ≤ j)
    (hcomplete : next.Holds ⟨i, rule.symbols.length, rule⟩) : next.Holds item.advance := by
  obtain ⟨⟨_, _, hsorted, hclosed⟩, hpending⟩ := hgood j next hnext
  have hlength : (columns.take j).length = j := by
    have := (List.getElem?_eq_some_iff.mp hnext).1
    rw [List.length_take]
    omega
  have hnone : (⟨i, rule.symbols.length, rule⟩ : Item T N).expected? = none := by
    simp [Item.expected?]
  have hmem := hsorted.mem_items hcomplete (by simp [hnone])
  have hdone : ∀ k, k ∉ next.pending := by simp [hpending]
  rcases Nat.lt_or_eq_of_le hle with hlt | rfl
  · refine hclosed.completed _ hmem (hdone _) hnone column ?_ item hitem hexpected
    rwa [List.getElem?_take_of_lt hlt]
  · obtain rfl : column = next := by simpa [hcolumn] using hnext
    have hvacant := hclosed.noted _ hmem (hdone _) hnone hlength.symm
    exact hclosed.passed _ hvacant item hitem hexpected (hdone _)

mutual

theorem Derivation.Reads.goes_on (hgood : Good g tokens columns) (hlinked : Linked g tokens columns)
    {i j : Nat} {column : Work T N} (hcolumn : columns[i]? = some column) {item : Item T N}
    (hitem : column.Holds item) {s : Symbol T N} (hexpected : item.expected? = some s)
    {d : Derivation T N} (hd : d.Reads g tokens s i j) :
    (∃ next, columns[j]? = some next ∧ next.Holds item.advance) ∨ Alive tokens columns := by
  obtain ⟨⟨_, _, hsorted, hclosed⟩, hpending⟩ := hgood i column hcolumn
  have hlt := (List.getElem?_eq_some_iff.mp hcolumn).1
  cases d with
  | token position =>
      rw [Reads] at hd
      obtain ⟨_, rfl, t, kept, rfl, ht⟩ := hd
      have hwaiting := hsorted.mem_waiting hitem hexpected
      cases hnext : columns[i + 1]? with
      | some next =>
          exact Or.inl ⟨next, rfl,
            hlinked.scanned i column next hcolumn hnext item hwaiting t kept ht hexpected⟩
      | none =>
          have hge := List.getElem?_eq_none_iff.mp hnext
          exact Or.inr ⟨i, column, by omega, hcolumn, item, hwaiting, t, kept, ht, hexpected⟩
  | node rule children =>
      obtain ⟨rfl, hrule, hchildren⟩ := reads_node_iff.mp hd
      have hmem := hsorted.mem_items hitem (by simp [hexpected])
      have hentered := hclosed.predicted item hmem (by simp [hpending]) _ hexpected rule hrule rfl
      rw [List.length_take, Nat.min_eq_left (Nat.le_of_lt hlt)] at hentered
      have hrest : ReadAll g tokens children (rule.symbols.drop 0) i j := hchildren
      rcases ReadAll.goes_on hgood hlinked hcolumn hentered (Nat.zero_le _) hrest with
        ⟨next, hnext, hcomplete⟩ | halive
      · exact Or.inl ⟨next, hnext,
          hgood.completes hcolumn hmem hexpected hnext hchildren.le hcomplete⟩
      · exact Or.inr halive

theorem Derivation.ReadAll.goes_on (hgood : Good g tokens columns)
    (hlinked : Linked g tokens columns) {i j : Nat} {column : Work T N}
    (hcolumn : columns[i]? = some column) {start dot : Nat} {rule : Rule T N}
    (hitem : column.Holds ⟨start, dot, rule⟩)
    (hdot : dot ≤ rule.symbols.length) {ds : List (Derivation T N)}
    (hds : ReadAll g tokens ds (rule.symbols.drop dot) i j) :
    (∃ next, columns[j]? = some next ∧ next.Holds ⟨start, rule.symbols.length, rule⟩) ∨
      Alive tokens columns := by
  cases ds with
  | nil =>
      obtain ⟨hnil, rfl⟩ := readAll_nil_iff.mp hds
      have hge := List.drop_eq_nil_iff.mp hnil
      obtain rfl : dot = rule.symbols.length := by omega
      exact Or.inl ⟨column, hcolumn, hitem⟩
  | cons d rest =>
      obtain ⟨s, more, middle, hdrop, hd, hrest⟩ := readAll_cons_iff.mp hds
      have hlt : dot < rule.symbols.length := by
        apply Nat.lt_of_not_le
        intro hge
        rw [List.drop_eq_nil_of_le hge] at hdrop
        cases hdrop
      rw [List.drop_eq_getElem_cons hlt] at hdrop
      obtain ⟨rfl, rfl⟩ := List.cons.inj hdrop
      have hexpected : (⟨start, dot, rule⟩ : Item T N).expected? = some rule.symbols[dot] :=
        List.getElem?_eq_getElem hlt
      rcases Reads.goes_on hgood hlinked hcolumn hitem hexpected hd with
        ⟨next, hnext, hadvance⟩ | halive
      · exact ReadAll.goes_on hgood hlinked hnext hadvance hlt hrest
      · exact Or.inr halive

end

theorem Derivation.Reads.reaches (hgood : Good g tokens columns) (hlinked : Linked g tokens columns)
    (hcolumns : columns ≠ []) {j : Nat} {d : Derivation T N}
    (hd : d.Reads g tokens (.category g.start) 0 j) :
    (∃ next rule, columns[j]? = some next ∧ rule ∈ g.rules ∧ rule.category = g.start ∧
      next.Holds ⟨0, rule.symbols.length, rule⟩) ∨ Alive tokens columns := by
  cases d with
  | token position =>
      rw [Reads] at hd
      obtain ⟨_, _, t, kept, htoken, _⟩ := hd
      cases htoken
  | node rule children =>
      obtain ⟨hcategory, hrule, hchildren⟩ := reads_node_iff.mp hd
      have hstart : rule.category = g.start := (Symbol.category.inj hcategory).symm
      obtain ⟨column, hcolumn⟩ : ∃ column, columns[0]? = some column :=
        ⟨_, List.getElem?_eq_getElem (List.length_pos_iff.mpr hcolumns)⟩
      have hopened := hlinked.started column hcolumn rule hrule hstart
      have hrest : ReadAll g tokens children (rule.symbols.drop 0) 0 j := hchildren
      rcases ReadAll.goes_on hgood hlinked hcolumn hopened (Nat.zero_le _) hrest with
        ⟨next, hnext, hcomplete⟩ | halive
      · exact Or.inl ⟨next, rule, hnext, hrule, hstart, hcomplete⟩
      · exact Or.inr halive

/-- A chart that stops early leaves no derivation out. -/
theorem Good.no_derivation (hgood : Good g tokens columns) (hlinked : Linked g tokens columns)
    {position : Nat} (hlength : columns.length = position + 1)
    (hposition : position < tokens.length)
    (hdead : ¬ Alive tokens columns) (d : Derivation T N) :
    ¬ d.Reads g tokens (.category g.start) 0 tokens.length := by
  intro hd
  have hcolumns : columns ≠ [] := by
    rintro rfl
    cases hlength
  rcases hd.reaches hgood hlinked hcolumns with ⟨next, _, hnext, _⟩ | halive
  · have := (List.getElem?_eq_some_iff.mp hnext).1
    omega
  · exact hdead halive

theorem not_alive_of_full (hlength : columns.length = tokens.length + 1) :
    ¬ Alive tokens columns := by
  rintro ⟨k, _, hk, _, _, _, t, _, ht, _⟩
  have := (List.getElem?_eq_some_iff.mp ht).1
  omega

/-- A full chart reads the start category over all tokens if it has a derivation. -/
theorem Good.accepts_iff [DecidableEq T] [DecidableEq N] (hgood : Good g tokens columns)
    (hlinked : Linked g tokens columns) (hlength : columns.length = tokens.length + 1) :
    Chart.accepts (columns.map Chart.finish) g.start = true ↔
      ∃ d, Derivation.Reads g tokens d (.category g.start) 0 tokens.length := by
  have hcolumns : columns ≠ [] := by
    rintro rfl
    cases hlength
  obtain ⟨earlier, last, rfl⟩ : ∃ earlier last, columns = earlier ++ [last] :=
    ⟨_, _, (List.dropLast_append_getLast hcolumns).symm⟩
  have hsame : earlier.length = tokens.length := by simpa using hlength
  have hlast : (earlier ++ [last])[tokens.length]? = some last := by
    rw [← hsame, List.getElem?_concat_length]
  obtain ⟨⟨hread, _, hsorted, _⟩, _⟩ := hgood _ last hlast
  rw [List.length_take, List.length_append, List.length_singleton, hsame,
    Nat.min_eq_left (Nat.le_succ _)] at hread
  have haccepts : Chart.accepts ((earlier ++ [last]).map Chart.finish) g.start = true ↔
      ∃ i ∈ last.items, i.expected? = none ∧ i.start = 0 ∧ i.rule.category = g.start := by
    simp [Chart.accepts, Chart.finish, Item.isComplete_iff, and_assoc]
  rw [haccepts]
  constructor
  · rintro ⟨i, hi, hnone, hstart, hcategory⟩
    obtain ⟨d, hd⟩ := (hread.items i (Or.inl hi)).exists_reads hnone
    rw [hstart, hcategory] at hd
    exact ⟨d, hd⟩
  · rintro ⟨d, hd⟩
    rcases hd.reaches hgood hlinked hcolumns with ⟨next, rule, hnext, _, hcategory, hholds⟩ | halive
    · obtain rfl : last = next := by simpa [hlast] using hnext
      have hnone : (⟨0, rule.symbols.length, rule⟩ : Item T N).expected? = none := by
        simp [Item.expected?]
      exact ⟨_, hsorted.mem_items hholds (by simp [hnone]), hnone, rfl, hcategory⟩
    · exact absurd halive (not_alive_of_full hlength)

end

end HostBindings.Grammar

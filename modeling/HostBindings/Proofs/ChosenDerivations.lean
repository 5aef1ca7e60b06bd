import HostBindings.Proofs.FilledCharts
import Mathlib.Data.Prod.Lex

/-!
The derivation that is picked from a chart. Picking follows the families of the chart downwards,
and its fuel is the number of families. In a tame grammar no reading is part of itself: categories
can be ranked so that the parts of a reading that spans all of it rank lower. So a path never comes
back to a label, the fuel suffices, and what is picked is a derivation.
-/

namespace HostBindings.Grammar

variable {T N : Type}

/-- Whether a symbol may be read from no token, given the categories that may. -/
def Symbol.isVacant (nullable : Category T N → Bool) : Symbol T N → Bool
  | .token _ _ => false
  | .category c => nullable c

/-- What is asked of a plain rule for derivations to be finite. -/
structure Rule.IsTame (nullable : Category T N → Bool) (height : Category T N → Nat)
    (c : Category T N) (symbols : List (Symbol T N)) : Prop where
  closed : symbols.all (·.isVacant nullable) = true → nullable c = true
  last : ∀ front s, front ≠ [] → symbols = front ++ [s] → s.isVacant nullable = false
  descends : ∀ front d, symbols = front ++ [.category d] →
    front.all (·.isVacant nullable) = true → height d < height c

/-- A grammar in which no category derives itself alone, and rules of several symbols do not end in
nothing. -/
def RuleSet.IsTame (g : RuleSet T N) (nullable : Category T N → Bool)
    (height : Category T N → Nat) : Prop :=
  ∀ r ∈ g.rules, Rule.IsTame nullable height r.category r.symbols

variable {g : RuleSet T N} {tokens : List T} {nullable : Category T N → Bool}
  {height : Category T N → Nat}

mutual

theorem Derivation.Reads.isVacant (htame : g.IsTame nullable height) {d : Derivation T N}
    {s : Symbol T N} {position : Nat} (h : d.Reads g tokens s position position) :
    s.isVacant nullable = true := by
  cases d with
  | token p =>
      rw [Reads] at h
      omega
  | node rule children =>
      obtain ⟨rfl, hrule, hchildren⟩ := reads_node_iff.mp h
      exact (htame rule hrule).closed (ReadAll.isVacant htame hchildren)

theorem Derivation.ReadAll.isVacant (htame : g.IsTame nullable height)
    {ds : List (Derivation T N)} {ss : List (Symbol T N)} {position : Nat}
    (h : ReadAll g tokens ds ss position position) : ss.all (·.isVacant nullable) = true := by
  cases ds with
  | nil =>
      obtain ⟨rfl, _⟩ := readAll_nil_iff.mp h
      rfl
  | cons d rest =>
      obtain ⟨s, more, middle, rfl, hd, hrest⟩ := readAll_cons_iff.mp h
      obtain rfl : position = middle := Nat.le_antisymm hd.le hrest.le
      rw [List.all_cons, Bool.and_eq_true]
      exact ⟨Reads.isVacant htame hd, ReadAll.isVacant htame hrest⟩

end

/-- The rank of a label: by what it spans, then the fronts of rules above the categories, then how
far a front goes and how high a category stands. -/
def Label.rank (height : Category T N → Nat) (l : Label T N) : ℕ ×ₗ ℕ ×ₗ ℕ :=
  match l.reading with
  | .whole c => toLex (l.stop - l.start, toLex (0, height c))
  | .front dot _ => toLex (l.stop - l.start, toLex (1, dot))

theorem rank_lt_of_span_lt {l l' : Label T N} (h : l.stop - l.start < l'.stop - l'.start) :
    l.rank height < l'.rank height := by
  rw [Label.rank, Label.rank]
  split <;> split <;> exact Prod.Lex.toLex_lt_toLex.mpr (Or.inl h)

theorem rank_lt_of_span_eq {l l' : Label T N} (h : l.stop - l.start = l'.stop - l'.start)
    (hreading : match l.reading, l'.reading with
      | .whole c, .whole d => height c < height d
      | .whole _, .front _ _ => True
      | .front dot _, .front dot' _ => dot < dot'
      | .front _ _, .whole _ => False) :
    l.rank height < l'.rank height := by
  rw [Label.rank, Label.rank]
  split <;> split <;> simp_all [Prod.Lex.toLex_lt_toLex]

/-- The parts of a family rank below what it is a family of. -/
structure Family.IsRanked (height : Category T N → Nat) (f : Family T N) : Prop where
  before : ∀ l, f.before = some l → l.rank height < f.label.rank height
  last : ∀ l, f.last = some (.node l) → l.rank height < f.label.rank height

theorem Item.label_of_expected {i : Item T N} {s : Symbol T N} (hs : i.expected? = some s)
    (stop : Nat) : i.label stop = ⟨i.start, stop, .front i.dot i.rule⟩ := by
  have hincomplete : ¬ i.isComplete = true := by
    rw [Item.isComplete_iff, hs]
    exact Option.some_ne_none s
  rw [Item.label, Item.reading, if_neg hincomplete]

theorem Item.label_advance {i : Item T N} {s : Symbol T N} (hs : i.expected? = some s)
    (stop : Nat) :
    (i.rule.symbols = i.rule.symbols.take i.dot ++ [s] ∧
      i.advance.label stop = ⟨i.start, stop, .whole i.rule.category⟩) ∨
    i.advance.label stop = ⟨i.start, stop, .front (i.dot + 1) i.rule⟩ := by
  cases hnext : i.advance.expected? with
  | none =>
      left
      have hall : i.rule.symbols.take (i.dot + 1) = i.rule.symbols :=
        List.take_of_length_le (List.getElem?_eq_none_iff.mp hnext)
      refine ⟨by rw [← Item.take_advance hs, hall], ?_⟩
      rw [Item.label, Item.reading, if_pos (Item.isComplete_iff.mpr hnext)]
      rfl
  | some next => exact Or.inr (Item.label_of_expected hnext stop)

theorem Family.IsRead.isRanked (htame : g.IsTame nullable height) {f : Family T N}
    (h : f.IsRead g tokens) : f.IsRanked height := by
  cases h with
  | empty _ _ => exact ⟨nofun, nofun⟩
  | @extend i position stop last s hi hs hlast =>
      obtain ⟨hrule, _, ds, hds⟩ := hi
      have hle : i.start ≤ position := hds.le
      obtain ⟨d, hd⟩ : ∃ d, Derivation.Reads g tokens d s position stop := by
        cases last with
        | token p => exact ⟨_, hlast.2⟩
        | node l =>
            obtain ⟨_, d, _, _, hd⟩ := hlast
            exact ⟨d, hd⟩
      have hstop : position ≤ stop := hd.le
      refine ⟨?_, ?_⟩
      · intro l hl
        change i.before position = some l at hl
        change l.rank height < (i.advance.label stop).rank height
        rw [Item.before] at hl
        split at hl
        · cases hl
        rename_i hdot
        rw [Item.label_of_expected hs, Option.some.injEq] at hl
        subst hl
        rcases Nat.lt_or_eq_of_le hstop with hlt | rfl
        · exact rank_lt_of_span_lt (by simp only [Item.label, Item.advance]; omega)
        -- the last part read nothing, so it is not the last symbol of a rule of several
        rcases Item.label_advance hs position with ⟨hsymbols, _⟩ | hfront
        · have hne : i.rule.symbols.take i.dot ≠ [] := by
            have := Item.dot_lt hs
            simp only [ne_eq, List.take_eq_nil_iff]
            rintro (hzero | hnil)
            · exact hdot hzero
            · simp [hnil] at this
          have hvacant := (htame i.rule hrule).last _ s hne hsymbols
          rw [hd.isVacant htame] at hvacant
          cases hvacant
        · rw [hfront]
          exact rank_lt_of_span_eq rfl (Nat.lt_succ_self _)
      · intro l hl
        obtain rfl : last = .node l := Option.some.inj hl
        obtain ⟨c, _, rfl, rfl, _⟩ := hlast
        change _ < (i.advance.label stop).rank height
        rcases Nat.lt_or_eq_of_le hle with hlt | heq
        · exact rank_lt_of_span_lt (by simp only [Item.label, Item.advance]; omega)
        -- nothing was read before the last part, so the height decides
        rw [← heq] at hds ⊢
        rcases Item.label_advance hs stop with ⟨hsymbols, hwhole⟩ | hfront
        · rw [hwhole]
          exact rank_lt_of_span_eq rfl
            ((htame i.rule hrule).descends _ c hsymbols (hds.isVacant htame))
        · rw [hfront]
          exact rank_lt_of_span_eq rfl trivial

section

variable {columns : List (Work T N)}

/-- The number of families that a path from a label can pass. -/
def familiesBelow (height : Category T N → Nat) (columns : List (Work T N)) (l : Label T N) : Nat :=
  (columns.flatMap (·.families)).countP fun f => f.label.rank height ≤ l.rank height

theorem HasFamily.exists_mem {l : Label T N} (h : HasFamily columns l) :
    ∃ f ∈ columns.flatMap (·.families), f.label = l := by
  obtain ⟨column, hcolumn, f, hf, hlabel⟩ := h
  exact ⟨f, List.mem_flatMap.mpr ⟨column, List.mem_of_getElem? hcolumn, hf⟩, hlabel⟩

theorem familiesBelow_pos {l : Label T N} (h : HasFamily columns l) :
    0 < familiesBelow height columns l := by
  obtain ⟨f, hf, rfl⟩ := h.exists_mem
  exact List.countP_pos_iff.mpr ⟨f, hf, by simp⟩

theorem familiesBelow_lt {l l' : Label T N} (h : HasFamily columns l)
    (hrank : l'.rank height < l.rank height) :
    familiesBelow height columns l' < familiesBelow height columns l := by
  obtain ⟨f, hf, rfl⟩ := h.exists_mem
  obtain ⟨front, rest, hsplit⟩ := List.append_of_mem hf
  have hmono : ∀ fs : List (Family T N),
      fs.countP (fun e => e.label.rank height ≤ l'.rank height) ≤
        fs.countP (fun e => e.label.rank height ≤ f.label.rank height) := by
    intro fs
    apply List.countP_mono_left
    intro e _ he
    simp only [decide_eq_true_eq] at he ⊢
    exact he.trans hrank.le
  have hfront := hmono front
  have hrest := hmono rest
  rw [familiesBelow, familiesBelow, hsplit, List.countP_append, List.countP_append,
    List.countP_cons_of_neg (by simpa using hrank), List.countP_cons_of_pos (by simp)]
  omega

variable [DecidableEq T] [DecidableEq N]

omit [DecidableEq T] [DecidableEq N] in
theorem familiesBelow_le_size (l : Label T N) :
    familiesBelow height columns l ≤ Chart.size (columns.map Chart.finish) := by
  have hsize : ∀ count : Nat, (columns.map Chart.finish).foldl
      (fun count column => count + column.families.length) count =
        count + (columns.flatMap (·.families)).length := by
    induction columns with
    | nil => simp
    | cons column rest ih =>
        intro count
        rw [List.map_cons, List.foldl_cons, ih, List.flatMap_cons, List.length_append,
          Nat.add_assoc]
        rfl
  rw [Chart.size, hsize, familiesBelow]
  exact Nat.le_trans List.countP_le_length (Nat.le_add_left _ _)

theorem Family.bestOf_mem (known : Priorities T N) (best : Family T N) (rest : List (Family T N)) :
    Family.bestOf known best rest ∈ best :: rest := by
  induction rest generalizing best with
  | nil => exact List.mem_singleton_self best
  | cons f rest ih =>
      rw [Family.bestOf, List.foldl_cons]
      have hmem := ih (if isBetter known f best then f else best)
      rw [Family.bestOf, List.mem_cons] at hmem
      rcases hmem with hhead | htail
      · rw [hhead]
        split
        · exact List.mem_cons_of_mem _ List.mem_cons_self
        · exact List.mem_cons_self
      · exact List.mem_cons_of_mem _ (List.mem_cons_of_mem _ htail)

theorem exists_choose (known : Priorities T N) {l : Label T N} (h : HasFamily columns l) :
    ∃ f column, Chart.choose (columns.map Chart.finish) known l = some f ∧ f.label = l ∧
      columns[l.stop]? = some column ∧ f ∈ column.families := by
  obtain ⟨column, hcolumn, found, hfound, hlabel⟩ := h
  have hfamilies : Chart.familiesOf (columns.map Chart.finish) l =
      column.families.filter (·.label = l) := by
    simp [Chart.familiesOf, hcolumn, Chart.finish]
  have hmem : found ∈ column.families.filter (·.label = l) :=
    List.mem_filter.mpr ⟨hfound, by simpa using hlabel⟩
  rw [Chart.choose, hfamilies]
  cases hlist : column.families.filter (·.label = l) with
  | nil => simp [hlist] at hmem
  | cons first rest =>
      have hbest := Family.bestOf_mem known first rest
      rw [← hlist, List.mem_filter, decide_eq_true_eq] at hbest
      exact ⟨_, column, rfl, hbest.2, hcolumn, hbest.1⟩

/-- Trees make up a reading by a rule. -/
def Label.IsSpelled (g : RuleSet T N) (tokens : List T) (l : Label T N) (rule : Rule T N)
    (children : List (Derivation T N)) : Prop :=
  match l.reading with
  | .whole c => rule ∈ g.rules ∧ rule.category = c ∧
      Derivation.ReadAll g tokens children rule.symbols l.start l.stop
  | .front dot r => rule = r ∧
      Derivation.ReadAll g tokens children (r.symbols.take dot) l.start l.stop

omit [DecidableEq T] [DecidableEq N] in
theorem Item.isSpelled_advance {i : Item T N} {s : Symbol T N} (hrule : i.rule ∈ g.rules)
    (hs : i.expected? = some s) {front : List (Derivation T N)} {d : Derivation T N}
    {position stop : Nat}
    (hfront : Derivation.ReadAll g tokens front (i.rule.symbols.take i.dot) i.start position)
    (hd : d.Reads g tokens s position stop) :
    (i.advance.label stop).IsSpelled g tokens i.rule (front ++ [d]) := by
  have hall := Derivation.readAll_append hfront (Derivation.readAll_singleton hd)
  rcases Item.label_advance hs stop with ⟨hsymbols, hwhole⟩ | hlonger
  · rw [hwhole, Label.IsSpelled]
    exact ⟨hrule, rfl, hsymbols ▸ hall⟩
  · rw [hlonger, Label.IsSpelled]
    exact ⟨rfl, Item.take_advance hs ▸ hall⟩

/-- What is picked for the part before the last one. -/
def pickedFront (chart : Chart T N) (known : Priorities T N) (fuel : Nat) :
    Option (Label T N) → Option (List (Derivation T N))
  | none => some []
  | some l => (Chart.parts chart known fuel l).map (·.2)

/-- What is picked for the last part. -/
def pickedLast (chart : Chart T N) (known : Priorities T N) (fuel : Nat) :
    Option (Part T N) → Option (List (Derivation T N))
  | none => some []
  | some (.token position) => some [.token position]
  | some (.node l) => (Chart.parts chart known fuel l).map fun (rule, children) =>
      [.node rule children]

theorem parts_succ (chart : Chart T N) (known : Priorities T N) (fuel : Nat) (l : Label T N) :
    Chart.parts chart known (fuel + 1) l = (chart.choose known l).bind fun f =>
      (pickedFront chart known fuel f.before).bind fun front =>
        (pickedLast chart known fuel f.last).map fun last => (f.rule, front ++ last) := by
  rw [Chart.parts]
  refine congrArg _ (funext fun f => ?_)
  obtain ⟨label, before, part, rule⟩ := f
  rcases before with _ | before <;> rcases part with _ | position | last <;>
    simp [pickedFront, pickedLast, Option.map_eq_bind, Option.bind_assoc]

theorem parts_eq_some {chart : Chart T N} {known : Priorities T N} {fuel : Nat} {f : Family T N}
    {front last : List (Derivation T N)} (hchoose : chart.choose known f.label = some f)
    (hfront : pickedFront chart known fuel f.before = some front)
    (hlast : pickedLast chart known fuel f.last = some last) :
    Chart.parts chart known (fuel + 1) f.label = some (f.rule, front ++ last) := by
  rw [parts_succ, hchoose, Option.bind_some, hfront, Option.bind_some, hlast, Option.map_some]

/-- Every reading with a family is spelled out, with fuel for the families below it. -/
theorem exists_parts (htame : g.IsTame nullable height) (hgood : Good g tokens columns)
    (hrooted : ∀ column ∈ columns, ∀ f ∈ column.families, f.IsRooted columns)
    (known : Priorities T N) {fuel : Nat} {l : Label T N} (hl : HasFamily columns l)
    (hfuel : familiesBelow height columns l ≤ fuel) :
    ∃ rule children, Chart.parts (columns.map Chart.finish) known fuel l = some (rule, children) ∧
      l.IsSpelled g tokens rule children := by
  induction fuel generalizing l with
  | zero =>
      have hpos : 0 < familiesBelow height columns l := familiesBelow_pos hl
      omega
  | succ fuel ih =>
      obtain ⟨f, column, hchoose, rfl, hcolumn, hf⟩ := exists_choose known hl
      obtain ⟨hread, _⟩ := (hgood _ column hcolumn).1.read.families f hf
      have hranked := hread.isRanked htame
      obtain ⟨hbefore, hlast⟩ := hrooted column (List.mem_of_getElem? hcolumn) f hf
      have hpart : ∀ {l' : Label T N}, HasFamily columns l' → l'.rank height < f.label.rank height →
          ∃ rule children, Chart.parts (columns.map Chart.finish) known fuel l' =
            some (rule, children) ∧ l'.IsSpelled g tokens rule children := by
        intro l' hfamily hrank
        apply ih hfamily
        have := familiesBelow_lt hl hrank
        omega
      cases hread with
      | @empty here r hr hsymbols =>
          refine ⟨r, [], parts_eq_some hchoose rfl rfl, hr, rfl, ?_⟩
          rw [hsymbols]
          exact Derivation.readAll_nil_iff.mpr ⟨rfl, rfl⟩
      | @extend i position stop last s hi hs hlastRead =>
          obtain ⟨front, hfront, hfrontRead⟩ : ∃ front,
              pickedFront (columns.map Chart.finish) known fuel (i.before position) = some front ∧
              Derivation.ReadAll g tokens front (i.rule.symbols.take i.dot) i.start position := by
            by_cases hdot : i.dot = 0
            · obtain ⟨_, _, ds, hds⟩ := hi
              rw [hdot, List.take_zero] at hds ⊢
              cases ds with
              | nil => exact ⟨[], by rw [Item.before, if_pos hdot]; rfl, hds⟩
              | cons d rest => simp at hds
            · have hb : i.before position = some ⟨i.start, position, .front i.dot i.rule⟩ := by
                rw [Item.before, if_neg hdot, Item.label_of_expected hs]
              obtain ⟨rule, children, hparts, _, hchildren⟩ :=
                hpart (hbefore _ hb) (hranked.before _ hb)
              exact ⟨children, by simp [pickedFront, hb, hparts], hchildren⟩
          obtain ⟨d, hpicked, hd⟩ : ∃ d,
              pickedLast (columns.map Chart.finish) known fuel (some last) = some [d] ∧
              Derivation.Reads g tokens d s position stop := by
            cases last with
            | token p =>
                obtain ⟨rfl, hd⟩ := hlastRead
                exact ⟨.token p, rfl, hd⟩
            | node l =>
                obtain ⟨rule, children, hparts, hspelled⟩ :=
                  hpart (hlast l rfl) (hranked.last l rfl)
                obtain ⟨c, _, rfl, rfl, _⟩ := hlastRead
                obtain ⟨hmem, rfl, hchildren⟩ := hspelled
                exact ⟨.node rule children, by simp [pickedLast, hparts],
                  Derivation.reads_node_iff.mpr ⟨rfl, hmem, hchildren⟩⟩
          exact ⟨i.rule, front ++ [d], parts_eq_some hchoose hfront hpicked,
            Item.isSpelled_advance hi.rule_mem hs hfrontRead hd⟩

omit [DecidableEq T] [DecidableEq N] in
theorem Good.isRooted (hgood : Good g tokens columns) :
    ∀ column ∈ columns, ∀ f ∈ column.families, f.IsRooted columns := by
  intro column hmem f hf
  obtain ⟨k, hk⟩ := List.mem_iff_getElem?.mp hmem
  have hlt := (List.getElem?_eq_some_iff.mp hk).1
  have htake : columns.take k ++ [column] = columns.take (k + 1) := by
    obtain ⟨_, rfl⟩ := List.getElem?_eq_some_iff.mp hk
    exact (List.take_succ_eq_append_getElem hlt).symm
  have hrooted := (hgood k column hk).1.rooted.families f hf
  rw [htake] at hrooted
  have hall : ∀ l, HasFamily (columns.take (k + 1)) l → HasFamily columns l := by
    rintro l ⟨found, hfound, hfamily⟩
    rw [List.getElem?_take] at hfound
    split at hfound
    · exact ⟨found, hfound, hfamily⟩
    · cases hfound
  exact ⟨fun l hl => hall l (hrooted.before l hl), fun l hl => hall l (hrooted.last l hl)⟩

/-- A full chart that accepts gives a derivation. -/
theorem exists_derivation (htame : g.IsTame nullable height) (hgood : Good g tokens columns)
    (hlength : columns.length = tokens.length + 1)
    (haccepts : Chart.accepts (columns.map Chart.finish) g.start = true) :
    ∃ d, Chart.derivation? (columns.map Chart.finish) g.start = some d ∧
      Derivation.Reads g tokens d (.category g.start) 0 tokens.length := by
  obtain ⟨last, hlast⟩ : ∃ last, columns[tokens.length]? = some last :=
    ⟨_, List.getElem?_eq_getElem (by omega)⟩
  have hfamily : HasFamily columns ⟨0, tokens.length, .whole g.start⟩ := by
    have hget : (columns.map Chart.finish).getLast? = some (Chart.finish last) := by
      rw [List.getLast?_eq_getElem?, List.length_map, hlength, Nat.add_sub_cancel,
        List.getElem?_map, hlast]
      rfl
    rw [Chart.accepts, hget] at haccepts
    obtain ⟨i, hi, hcomplete⟩ := List.any_eq_true.mp haccepts
    simp only [Bool.and_eq_true, decide_eq_true_eq] at hcomplete
    obtain ⟨⟨hcomplete, hstart⟩, hcategory⟩ := hcomplete
    obtain ⟨hcolumn, hpending⟩ := hgood _ last hlast
    obtain ⟨f, hf, hlabel⟩ := hcolumn.closed.rooted i hi (by simp [hpending])
      (Item.isComplete_iff.mp hcomplete)
    refine ⟨last, hlast, f, hf, ?_⟩
    have htake : (columns.take tokens.length).length = tokens.length := by
      rw [List.length_take]
      omega
    rw [hlabel, Item.label, Item.reading, if_pos hcomplete, hstart, hcategory, htake]
  obtain ⟨rule, children, hparts, hmem, hcategory, hchildren⟩ :=
    exists_parts htame hgood hgood.isRooted
      (Chart.learn (columns.map Chart.finish) (Chart.size (columns.map Chart.finish))
        ⟨0, tokens.length, .whole g.start⟩ []) hfamily (familiesBelow_le_size _)
  refine ⟨.node rule children, ?_, ?_⟩
  · simp [Chart.derivation?, hlength, hparts]
  · rw [← hcategory]
    exact Derivation.reads_node_iff.mpr ⟨rfl, hmem, hchildren⟩

/-- What becomes of a token sequence in a tame grammar: a derivation of it if there is one, else it
is refused at one of its tokens or unfinished. -/
theorem readWith_cases {predict : Category T N → List (Rule T N)} (hpredict : Foretells g predict)
    (htame : g.IsTame nullable height) (tokens : List T) :
    (∃ d, g.readWith predict tokens = .derived d ∧
      d.Reads g tokens (.category g.start) 0 tokens.length) ∨
    (∀ d, ¬ Derivation.Reads g tokens d (.category g.start) 0 tokens.length) ∧
      (g.readWith predict tokens = .unfinished ∨
        ∃ position < tokens.length, g.readWith predict tokens = .refused position) := by
  have hnone : Good g tokens [] := fun k column hk => by simp at hk
  have hfilled : Filled g tokens
      (Chart.fill predict g.placeCount [] (Chart.initial predict g.start) tokens) :=
    Chart.filled_fill hpredict hnone (Chart.isGood_initial hpredict)
      (Chart.linked_initial hpredict) (Nat.zero_le _) rfl
  rw [RuleSet.readWith]
  generalize Chart.fill predict g.placeCount [] (Chart.initial predict g.start) tokens = filled
    at hfilled
  cases hfilled with
  | full hgood hlinked hlength =>
      dsimp only
      split
      · rename_i haccepts
        obtain ⟨d, hderivation, hd⟩ := exists_derivation htame hgood hlength haccepts
        exact Or.inl ⟨d, by rw [hderivation], hd⟩
      · rename_i haccepts
        refine Or.inr ⟨fun d hd => haccepts ?_, Or.inl rfl⟩
        exact (hgood.accepts_iff hlinked hlength).mpr ⟨d, hd⟩
  | @stuck columns position hgood hlinked hlength hposition hdead =>
      exact Or.inr ⟨hgood.no_derivation hlinked hlength hposition hdead,
        Or.inr ⟨position, hposition, rfl⟩⟩

end

end HostBindings.Grammar

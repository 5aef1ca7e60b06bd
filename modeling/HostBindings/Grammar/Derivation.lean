import HostBindings.Grammar.Chart

/-!
Derivations: one reading of a token sequence, picked from a chart.

Of the ways in which a reading came about, one that is not empty goes before an empty one, then
the one with more priority, then the rule of lower rank, then the one found first. The priority of
a reading is that of its rules together, for the best choice below.
-/

namespace HostBindings.Grammar

/-- A parse tree with the rules that it uses; the leaves are positions of tokens. -/
inductive Derivation (T N : Type)
  | token (position : Nat)
  | node (rule : Rule T N) (children : List (Derivation T N))

variable {T N : Type} [DecidableEq T] [DecidableEq N]

/-- Priorities of readings, as far as they are known. -/
abbrev Priorities (T N : Type) := List (Label T N × Nat)

namespace Priorities

def of (known : Priorities T N) (label : Option (Label T N)) : Nat :=
  match label with
  | some l => (known.lookup l).getD 0
  | none => 0

end Priorities

namespace Family

/-- The category that a way ends with. -/
def lastLabel? (f : Family T N) : Option (Label T N) :=
  match f.last with
  | some (.node l) => some l
  | _ => none

/-- Whether nothing was read. -/
def isEmpty (f : Family T N) : Bool := f.before.isNone && f.last.isNone

/-- The priority that the rule adds where it is completed. -/
def ownPriority (f : Family T N) : Nat :=
  match f.label.reading with
  | .whole _ => f.rule.priority
  | .front _ _ => 0

/-- The priority of a way, given those of its parts. -/
def priority (f : Family T N) (known : Priorities T N) : Nat :=
  f.ownPriority + known.of f.lastLabel? + known.of f.before

/-- Whether one way is strictly better than another. -/
def isBetter (known : Priorities T N) (f g : Family T N) : Bool :=
  if f.isEmpty != g.isEmpty then g.isEmpty
  else if f.priority known != g.priority known then g.priority known < f.priority known
  else f.rule.rank < g.rule.rank

/-- The first of the best ways, given the best so far. -/
def bestOf (known : Priorities T N) (best : Family T N) (rest : List (Family T N)) :
    Family T N :=
  rest.foldl (fun best f => if isBetter known f best then f else best) best

end Family

namespace Chart

/-- The ways in which a reading came about, in the order in which they were found. -/
def familiesOf (chart : Chart T N) (label : Label T N) : List (Family T N) :=
  match chart[label.stop]? with
  | some column => column.families.filter (·.label = label)
  | none => []

/-- Adds the priorities of a reading and of all its parts. -/
def learn (chart : Chart T N) : Nat → Label T N → Priorities T N → Priorities T N
  | 0, _, known => known
  | fuel + 1, label, known =>
    if (known.lookup label).isSome then known
    else
      let families := chart.familiesOf label
      let known := families.foldl (fun known f =>
        (f.lastLabel?.toList ++ f.before.toList).foldl
          (fun known l => learn chart fuel l known) known) known
      (label, (families.map (·.priority known)).foldl max 0) :: known

/-- The way that a reading is taken to have come about. -/
def choose (chart : Chart T N) (known : Priorities T N) (label : Label T N) :
    Option (Family T N) :=
  match chart.familiesOf label with
  | [] => none
  | f :: rest => some (Family.bestOf known f rest)

/-- The parts of a reading, by the way chosen for it and for each of its parts, with the rule. -/
def parts (chart : Chart T N) (known : Priorities T N) :
    Nat → Label T N → Option (Rule T N × List (Derivation T N))
  | 0, _ => none
  | fuel + 1, label => do
    let f ← chart.choose known label
    let front ← match f.before with
      | none => pure []
      | some l => (·.2) <$> parts chart known fuel l
    let last ← match f.last with
      | none => pure []
      | some (.token position) => pure [Derivation.token position]
      | some (.node l) => do
        let (rule, children) ← parts chart known fuel l
        pure [Derivation.node rule children]
    return (f.rule, front ++ last)

/-- The number of families, which no path through the chosen ways exceeds. -/
def size (chart : Chart T N) : Nat :=
  chart.foldl (fun count column => count + column.families.length) 1

/-- The chosen derivation of a category over all tokens. -/
def derivation? (chart : Chart T N) (start : Category T N) : Option (Derivation T N) := do
  let label : Label T N := ⟨0, chart.length - 1, .whole start⟩
  let known := chart.learn chart.size label []
  let (rule, children) ← chart.parts known chart.size label
  return .node rule children

/-- Whether the start category was read over all tokens. -/
def accepts (chart : Chart T N) (start : Category T N) : Bool :=
  match chart.getLast? with
  | some column =>
    column.items.any fun i => i.isComplete && i.start = 0 && i.rule.category = start
  | none => false

end Chart

/-- What becomes of a token sequence. -/
inductive Verdict (T N : Type)
  | derived (d : Derivation T N)
  /-- No reading goes on with the token at this position. -/
  | refused (position : Nat)
  /-- More tokens are required. -/
  | unfinished

namespace RuleSet

/-- The number of places in the rules. -/
def placeCount (g : RuleSet T N) : Nat :=
  g.rules.foldl (fun count r => count + r.symbols.length + 1) 0

/-- Reads a token sequence, with the predictions given. -/
def readWith (g : RuleSet T N) (predict : Category T N → List (Rule T N)) (tokens : List T) :
    Verdict T N :=
  match Chart.fill predict g.placeCount [] (Chart.initial predict g.start) tokens with
  | .error position => .refused position
  | .ok chart =>
    if chart.accepts g.start then
      match chart.derivation? g.start with
      | some d => .derived d
      | none => .unfinished
    else .unfinished

end RuleSet

end HostBindings.Grammar

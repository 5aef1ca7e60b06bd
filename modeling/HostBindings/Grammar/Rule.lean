import HostBindings.Grammar.Pattern

/-!
Productions, and the plain rules of the grammar that they make up.
-/

namespace HostBindings.Grammar

/-- How a production shows in the concrete tree. -/
inductive Form
  /-- As a node. -/
  | node
  /-- As its only child if it has just one, otherwise as a node. -/
  | transparent
  /-- As the list of its children. -/
  | inlined
deriving DecidableEq

/-- One alternative of a production; a label names its node in place of the production. -/
structure Alternative (T N : Type) where
  pattern : Pattern T N
  label : Option N := none

/-- The alternatives of a named category. Of two readings the one with more priority wins. -/
structure Production (T N : Type) where
  alternatives : List (Alternative T N)
  form : Form := .node
  priority : Nat := 0

/-- A plain rule. Its rank is its place among the rules of its category. -/
structure Rule (T N : Type) where
  rank : Nat
  category : Category T N
  symbols : List (Symbol T N)
  label : Option N
  priority : Nat
deriving DecidableEq

variable {T N : Type}

/-- Rules of one category from their right-hand sides in order. -/
def ranked (c : Category T N) (priority : Nat)
    (sides : List (List (Symbol T N) × Option N)) : List (Rule T N) :=
  sides.zipIdx.map fun ((symbols, label), rank) => { rank, category := c, symbols, label, priority }

/-- The rules of a named category. -/
def Production.rules (n : N) (p : Production T N) : List (Rule T N) :=
  ranked (.named n) p.priority
    (p.alternatives.flatMap fun a => a.pattern.expansions.map fun symbols => (symbols, a.label))

/-- The rules of a repetition: the pattern once, or once more after some. -/
def Pattern.rules (p : Pattern T N) : List (Rule T N) :=
  let once := p.expansions
  let again := once.map fun symbols => .category (.repeated p) :: symbols
  ranked (.repeated p) 0 ((once ++ again).map fun symbols => (symbols, none))

/-- A grammar in plain rules. -/
structure RuleSet (T N : Type) where
  start : Category T N
  rules : List (Rule T N)

namespace RuleSet

variable [DecidableEq T] [DecidableEq N]

/-- The grammar of productions. -/
def ofProductions (start : N) (names : List N) (production : N → Production T N) :
    RuleSet T N :=
  let repetitions := names.flatMap fun n =>
    (production n).alternatives.flatMap fun a => a.pattern.repetitions
  { start := .named start
    rules := names.flatMap (fun n => (production n).rules n) ++
      repetitions.eraseDups.flatMap Pattern.rules }

/-- The rules of a category, by rank. -/
def rulesOf (g : RuleSet T N) (c : Category T N) : List (Rule T N) :=
  g.rules.filter (·.category = c)

/-- The category that a rule starts with, if it starts with one. -/
def leading? (r : Rule T N) : Option (Category T N) :=
  match r.symbols with
  | .category c :: _ => some c
  | _ => none

/-- Rules of the queued categories and of all categories they lead to, breadth first; `seen` holds
the categories that were queued before. -/
def reach (g : RuleSet T N) :
    Nat → List (Category T N) → List (Category T N) → List (Rule T N)
  | 0, _, _ => []
  | _, [], _ => []
  | fuel + 1, c :: queue, seen =>
    let rules := g.rulesOf c
    let new := (rules.filterMap leading?).eraseDups.filter fun d => !seen.contains d
    rules ++ reach g fuel (queue ++ new) (seen ++ new)

/-- The rules that may start where a category is expected: its own and those of the categories
that they lead to, each category once. -/
def predictions (g : RuleSet T N) (c : Category T N) : List (Rule T N) :=
  g.reach (g.rules.length + 1) [c] [c]

/-- The predictions of every category that occurs in a rule. -/
def predictionTable (g : RuleSet T N) : List (Category T N × List (Rule T N)) :=
  (g.rules.map (·.category)).eraseDups.map fun c => (c, g.predictions c)

end RuleSet

end HostBindings.Grammar

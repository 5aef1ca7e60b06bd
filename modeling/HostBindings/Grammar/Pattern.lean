/-!
Patterns of an extended grammar, and the plain alternatives that they stand for.

A repetition is a category of its own, named by what it repeats, so equal repetitions in different
rules are one category.
-/

namespace HostBindings.Grammar

/-- The right-hand side of a rule with options and repetitions. A kept token is shown in the
concrete tree; the others only guide the reading. -/
inductive Pattern (T N : Type)
  | empty
  | token (t : T) (kept : Bool)
  | rule (n : N)
  | seq (first second : Pattern T N)
  | alt (first second : Pattern T N)
  | optional (p : Pattern T N)
  /-- Any number of times. -/
  | star (p : Pattern T N)
  /-- At least once. -/
  | plus (p : Pattern T N)
deriving DecidableEq

/-- What a plain rule derives: a named category, or one or more of a pattern. -/
inductive Category (T N : Type)
  | named (n : N)
  | repeated (p : Pattern T N)
deriving DecidableEq

/-- An entry of a plain right-hand side. -/
inductive Symbol (T N : Type)
  | token (t : T) (kept : Bool)
  | category (c : Category T N)
deriving DecidableEq

namespace Pattern

variable {T N : Type}

/-- Patterns one after the other. -/
def sequence : List (Pattern T N) → Pattern T N
  | [] => .empty
  | [p] => p
  | p :: rest => .seq p (sequence rest)

/-- One of several patterns. -/
def oneOf : List (Pattern T N) → Pattern T N
  | [] => .empty
  | [p] => p
  | p :: rest => .alt p (oneOf rest)

/-- The plain right-hand sides that a pattern stands for, in order: an option is first taken and
then left out, and choices further left vary slowest. -/
def expansions : Pattern T N → List (List (Symbol T N))
  | .empty => [[]]
  | .token t kept => [[.token t kept]]
  | .rule n => [[.category (.named n)]]
  | .seq p q => p.expansions.flatMap fun front => q.expansions.map (front ++ ·)
  | .alt p q => p.expansions ++ q.expansions
  | .optional p => p.expansions ++ [[]]
  | .star p => [[.category (.repeated p)], []]
  | .plus p => [[.category (.repeated p)]]

/-- The patterns that are repeated somewhere inside. -/
def repetitions : Pattern T N → List (Pattern T N)
  | .seq p q | .alt p q => p.repetitions ++ q.repetitions
  | .optional p => p.repetitions
  | .star p | .plus p => p :: p.repetitions
  | _ => []

end Pattern

end HostBindings.Grammar

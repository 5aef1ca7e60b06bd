/-!
Finite sets as strictly increasing lists.
-/

namespace HostBindings.Ordered

variable {α : Type} [LT α] [DecidableLT α]

/-- Inserts into a strictly increasing list; a member is not added again. -/
def insert (a : α) : List α → List α
  | [] => [a]
  | b :: rest =>
    if a < b then a :: b :: rest
    else if b < a then b :: insert a rest
    else b :: rest

/-- The distinct members in increasing order. -/
def ofList (as : List α) : List α := as.foldl (fun acc a => insert a acc) []

end HostBindings.Ordered

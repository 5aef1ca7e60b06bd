import HostBindings.Grammar.Rule

/-!
Charts: all partial readings of a token sequence, position by position, together with the ways in
which each of them came about.

A chart is filled column by column. Items wait on a stack, so the latest is worked on first; the
order in which the ways of a reading are found decides between readings of equal standing, and is
therefore part of what a chart is.
-/

namespace HostBindings.Grammar

/-- A rule read up to a point, from a position on. -/
structure Item (T N : Type) where
  start : Nat
  dot : Nat
  rule : Rule T N
deriving DecidableEq

/-- What a node of the forest stands for: a category, or the front part of a rule. -/
inductive Reading (T N : Type)
  | whole (c : Category T N)
  | front (dot : Nat) (rule : Rule T N)
deriving DecidableEq

/-- A reading of the tokens between two positions. -/
structure Label (T N : Type) where
  start : Nat
  stop : Nat
  reading : Reading T N
deriving DecidableEq

/-- The last part of a reading: a token, by its position, or a category. -/
inductive Part (T N : Type)
  | token (position : Nat)
  | node (label : Label T N)
deriving DecidableEq

/-- One way in which a reading came about: what was read before its last part, and that part. Both
are missing for a rule without symbols. -/
structure Family (T N : Type) where
  label : Label T N
  before : Option (Label T N)
  last : Option (Part T N)
  rule : Rule T N
deriving DecidableEq

/-- A finished column: its items and the families of the readings that end there, in the order in
which they were found. -/
structure Column (T N : Type) where
  items : List (Item T N)
  families : List (Family T N)

namespace Item

variable {T N : Type}

def expected? (i : Item T N) : Option (Symbol T N) := i.rule.symbols[i.dot]?

def advance (i : Item T N) : Item T N := { i with dot := i.dot + 1 }

def isComplete (i : Item T N) : Bool := i.rule.symbols.length ≤ i.dot

/-- What an item has read so far. -/
def reading (i : Item T N) : Reading T N :=
  if i.isComplete then .whole i.rule.category else .front i.dot i.rule

/-- The label of what an item has read up to a position. -/
def label (i : Item T N) (stop : Nat) : Label T N := ⟨i.start, stop, i.reading⟩

/-- What an item has read up to a position, unless it has read nothing. -/
def before (i : Item T N) (stop : Nat) : Option (Label T N) :=
  if i.dot = 0 then none else some (i.label stop)

/-- The family that a further part makes for an item at a position. -/
def extend (i : Item T N) (position stop : Nat) (last : Part T N) : Family T N :=
  { label := i.advance.label stop, before := i.before position, last, rule := i.rule }

variable [DecidableEq T] [DecidableEq N]

def expectsToken (i : Item T N) : Bool :=
  match i.expected? with
  | some (.token _ _) => true
  | _ => false

def expectsCategory (i : Item T N) (c : Category T N) : Bool :=
  match i.expected? with
  | some (.category d) => d = c
  | _ => false

/-- Whether an item can go on with a token. -/
def accepts (i : Item T N) (t : T) : Bool :=
  match i.expected? with
  | some (.token u _) => u = t
  | _ => false

end Item

/-- A column under construction. -/
structure Work (T N : Type) where
  items : List (Item T N) := []
  /-- Items still to be worked on, the next one first. -/
  pending : List (Item T N) := []
  /-- Items that wait for a token. -/
  waiting : List (Item T N) := []
  families : List (Family T N) := []
  /-- Categories already read from no token at all. -/
  vacant : List (Category T N) := []

namespace Work

variable {T N : Type} [DecidableEq T] [DecidableEq N]

/-- Adds an item that is not there yet. -/
def addItem (w : Work T N) (i : Item T N) : Work T N :=
  if i.expectsToken then
    if w.waiting.contains i then w else { w with waiting := w.waiting ++ [i] }
  else if w.items.contains i then w
  else { w with items := w.items ++ [i], pending := i :: w.pending }

/-- Adds a family that is not there yet. -/
def addFamily (w : Work T N) (f : Family T N) : Work T N :=
  if w.families.contains f then w else { w with families := w.families ++ [f] }

/-- Carries an item at `position` over a part that ends at `stop`. -/
def shift (w : Work T N) (position stop : Nat) (last : Part T N) (i : Item T N) : Work T N :=
  (w.addFamily (i.extend position stop last)).addItem i.advance

end Work

/-- All columns up to some position. -/
abbrev Chart (T N : Type) := List (Column T N)

namespace Chart

variable {T N : Type} [DecidableEq T] [DecidableEq N]

/-- The items of a column; the column at `here` is the one under construction. -/
def itemsAt (done : Chart T N) (w : Work T N) (here position : Nat) : List (Item T N) :=
  if position = here then w.items
  else match done[position]? with
    | some column => column.items
    | none => []

/-- Notes a category that was read from no token. -/
def noteVacant (w : Work T N) (here : Nat) (i : Item T N) : Work T N :=
  if i.start = here then { w with vacant := i.rule.category :: w.vacant } else w

/-- Works on a complete item: every item that waited for its category at its start goes on. -/
def complete (done : Chart T N) (w : Work T N) (here : Nat) (i : Item T N) : Work T N :=
  let label := i.label here
  let w := if i.dot = 0 then w.addFamily { label, before := none, last := none, rule := i.rule }
    else w
  let w := noteVacant w here i
  let waiters := (itemsAt done w here i.start).filter (·.expectsCategory i.rule.category)
  waiters.foldl (fun w waiter => w.shift i.start here (.node label) waiter) w

/-- Whether the rules of a category were entered at a position. Those of all categories that it
leads to were then entered with them. -/
def isEntered (w : Work T N) (here : Nat) (c : Category T N) : Bool :=
  let starts (i : Item T N) : Bool := i.start = here && i.dot = 0 && i.rule.category = c
  w.items.any starts || w.waiting.any starts

/-- Enters the rules that may start a category, once. -/
def enter (predict : Category T N → List (Rule T N)) (w : Work T N) (here : Nat)
    (c : Category T N) : Work T N :=
  if isEntered w here c then w
  else (predict c).foldl (fun w rule => w.addItem { start := here, dot := 0, rule }) w

/-- Works on an item that expects a category: the rules that may start it are entered, and if the
category was already read from no token the item goes on. -/
def expect (predict : Category T N → List (Rule T N)) (w : Work T N) (here : Nat) (i : Item T N)
    (c : Category T N) : Work T N :=
  let w := enter predict w here c
  if w.vacant.contains c then w.shift here here (.node ⟨here, here, .whole c⟩) i else w

/-- Works on all pending items of a column. -/
def saturate (predict : Category T N → List (Rule T N)) (done : Chart T N) (here : Nat) :
    Nat → Work T N → Work T N
  | 0, w => w
  | fuel + 1, w =>
    match w.pending with
    | [] => w
    | i :: pending =>
      let w := { w with pending }
      saturate predict done here fuel <|
        match i.expected? with
        | some (.category c) => expect predict w here i c
        | some (.token _ _) => w
        | none => complete done w here i

/-- The work on the next column: the items that go on with the token at a position. -/
def scan (w : Work T N) (position : Nat) (t : T) : Work T N :=
  (w.waiting.filter (·.accepts t)).foldl
    (fun next i => next.shift position (position + 1) (.token position) i) {}

/-- A column with its families, when nothing is pending any more. -/
def finish (w : Work T N) : Column T N := { items := w.items, families := w.families }

/-- The work on the first column. -/
def initial (predict : Category T N → List (Rule T N)) (start : Category T N) : Work T N :=
  (predict start).foldl (fun w rule => w.addItem { start := 0, dot := 0, rule }) {}

/-- Fills the columns for the remaining tokens, or gives the position of the first token that no
reading goes on with. `bound` is the number of places in the rules. -/
def fill (predict : Category T N → List (Rule T N)) (bound : Nat) :
    Chart T N → Work T N → List T → Except Nat (Chart T N)
  | done, w, tokens =>
    let here := done.length
    let w := saturate predict done here (bound * (here + 1)) w
    let done := done ++ [finish w]
    match tokens with
    | [] => .ok done
    | t :: rest =>
      let next := scan w here t
      if next.items.isEmpty && next.waiting.isEmpty then .error here
      else fill predict bound done next rest

end Chart

end HostBindings.Grammar

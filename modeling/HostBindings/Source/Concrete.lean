import HostBindings.Grammar.Derivation
import HostBindings.Source.Rules
import HostBindings.Source.Token

/-!
Concrete trees: derivations without the tokens and nodes that only guided the reading.
-/

namespace HostBindings.Source

open Grammar (Derivation Rule)

/-- A named node over its children, or a token. The place of a node is that of its first token,
skipped ones included. -/
inductive Concrete
  | token (t : Token)
  | node (label : Nonterminal) (loc : Option Location) (children : List Concrete)

namespace Concrete

mutual

/-- The position of the first token below a derivation. -/
def firstPosition? : Derivation Terminal Nonterminal → Option Nat
  | .token position => some position
  | .node _ children => firstOf? children

def firstOf? : List (Derivation Terminal Nonterminal) → Option Nat
  | [] => none
  | d :: rest => firstPosition? d <|> firstOf? rest

end

/-- What a rule shows, given what its symbols show. -/
def assemble (rule : Rule Terminal Nonterminal) (loc : Option Location)
    (children : List Concrete) : List Concrete :=
  match rule.category with
  | .repeated _ => children
  | .named n =>
    let asNode := [.node (rule.label.getD n) loc children]
    match (n.production).form with
    | .inlined => children
    | .transparent => if rule.label.isNone && children.length = 1 then children else asNode
    | .node => asNode

mutual

/-- The trees that a derivation shows. -/
def ofDerivation (tokens : List Token) : Derivation Terminal Nonterminal → List Concrete
  | .token position =>
    match tokens[position]? with
    | some t => [.token t]
    | none => []
  | .node rule children =>
    let first := (firstOf? children).bind fun position => tokens[position]?
    assemble rule (first.map (·.loc)) (ofChildren tokens rule.symbols children)

/-- The trees that the symbols of a rule show; tokens that are not kept show nothing. -/
def ofChildren (tokens : List Token) :
    List (Grammar.Symbol Terminal Nonterminal) → List (Derivation Terminal Nonterminal) →
      List Concrete
  | .token _ false :: symbols, _ :: rest => ofChildren tokens symbols rest
  | _ :: symbols, d :: rest => ofDerivation tokens d ++ ofChildren tokens symbols rest
  | _, _ => []

end

end Concrete

/-- The grammar of ambient declarations in plain rules. -/
def grammar : Grammar.RuleSet Terminal Nonterminal :=
  .ofProductions .sourceFile Nonterminal.all Nonterminal.production

/-- What may start where each category is expected. -/
def predictions :
    List (Grammar.Category Terminal Nonterminal × List (Rule Terminal Nonterminal)) :=
  grammar.predictionTable

def predict (c : Grammar.Category Terminal Nonterminal) : List (Rule Terminal Nonterminal) :=
  (predictions.lookup c).getD []

/-- Reads the tokens of a source file. -/
def derive (kinds : List Terminal) : Grammar.Verdict Terminal Nonterminal :=
  grammar.readWith predict kinds

end HostBindings.Source

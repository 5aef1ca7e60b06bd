import HostBindings.Proofs.DeclarationGrammar
import HostBindings.Source.Reader

/-!
Outlines of concrete trees. Each plain rule of the declaration language fixes which tokens and nodes
its trees show and in what order, up to the choice of a sign and to repetitions. What a node of some
label always has is therefore decided once, over the outlines of all rules, and holds of every tree
that a derivation shows.
-/

namespace HostBindings

open Grammar (Derivation Rule Category)

namespace Source

/-- What a concrete tree is at its root: a token of some kind, or a node with some label. -/
inductive Sign
  | token (kind : Terminal)
  | node (label : Nonterminal)
deriving DecidableEq

def Sign.isToken : Sign → Bool
  | .token _ => true
  | .node _ => false

/-- A part of an outline: one tree with one of the signs, or any number of such trees. -/
inductive Stretch
  | one (signs : List Sign)
  | many (signs : List Sign)
deriving DecidableEq

def Stretch.signs : Stretch → List Sign
  | .one signs | .many signs => signs

abbrev Outline := List Stretch

/-- The sign sequences of an outline. -/
inductive Outline.Fits : Outline → List Sign → Prop
  | nil : Fits [] []
  | one {signs ss : List Sign} {s : Sign} {rest : Outline} (hs : s ∈ signs) (h : Fits rest ss) :
      Fits (.one signs :: rest) (s :: ss)
  | many {signs front ss : List Sign} {rest : Outline} (hfront : ∀ s ∈ front, s ∈ signs)
      (h : Fits rest ss) : Fits (.many signs :: rest) (front ++ ss)

namespace Outline.Fits

variable {outline more : Outline} {ss us : List Sign}

theorem append (h : Fits outline ss) (hmore : Fits more us) :
    Fits (outline ++ more) (ss ++ us) := by
  induction h with
  | nil => exact hmore
  | one hs _ ih => exact .one hs ih
  | many hfront _ ih =>
      rw [List.append_assoc]
      exact .many hfront ih

theorem reverse (h : Fits outline ss) : Fits outline.reverse ss.reverse := by
  induction h with
  | nil => exact .nil
  | @one signs ss s rest hs _ ih =>
      rw [List.reverse_cons, List.reverse_cons]
      exact ih.append (.one hs .nil)
  | @many signs front ss rest hfront _ ih =>
      rw [List.reverse_cons, List.reverse_append]
      refine ih.append ?_
      rw [← List.append_nil front.reverse]
      exact .many (fun s hs => hfront s (List.mem_reverse.mp hs)) .nil

theorem of_mem (h : Fits outline ss) {s : Sign} (hs : s ∈ ss) :
    ∃ stretch ∈ outline, s ∈ stretch.signs := by
  induction h with
  | nil => cases hs
  | one hfirst _ ih =>
      rcases List.mem_cons.mp hs with rfl | hrest
      · exact ⟨_, List.mem_cons_self, hfirst⟩
      · obtain ⟨stretch, hmem, hsign⟩ := ih hrest
        exact ⟨stretch, List.mem_cons_of_mem _ hmem, hsign⟩
  | many hfront _ ih =>
      rcases List.mem_append.mp hs with hfirst | hrest
      · exact ⟨_, List.mem_cons_self, hfront s hfirst⟩
      · obtain ⟨stretch, hmem, hsign⟩ := ih hrest
        exact ⟨stretch, List.mem_cons_of_mem _ hmem, hsign⟩

end Outline.Fits

/-- What the children of a node are required to be, seen by their signs. -/
inductive Requirement
  /-- One of them satisfies `p`. -/
  | some (p : Sign → Bool)
  /-- All of them satisfy `p`. -/
  | every (p : Sign → Bool)
  /-- The first of them that satisfies `counted` is there and satisfies `p`. -/
  | first (counted p : Sign → Bool)
  /-- The last of them that satisfies `counted` is there and satisfies `p`. -/
  | last (counted p : Sign → Bool)
  /-- Of those that satisfy `counted` all but the first satisfy `p`. -/
  | later (counted p : Sign → Bool)
  /-- As many as the number says satisfy `counted`. -/
  | count (counted : Sign → Bool) (number : Nat)

namespace Requirement

def Holds : Requirement → List Sign → Prop
  | some p, ss => ∃ s ∈ ss, p s = true
  | every p, ss => ∀ s ∈ ss, p s = true
  | first counted p, ss => ∃ s, ss.find? counted = .some s ∧ p s = true
  | last counted p, ss => ∃ s, ss.reverse.find? counted = .some s ∧ p s = true
  | later counted p, ss => ∀ s ∈ (ss.filter counted).drop 1, p s = true
  | count counted number, ss => ss.countP counted = number

/-- Whether the first counted sign of an outline is there and satisfies `p`. -/
def isLed (counted p : Sign → Bool) : Outline → Bool
  | [] => false
  | .one signs :: rest =>
    signs.all (fun s => !counted s || p s) && (signs.all counted || isLed counted p rest)
  | .many signs :: rest => signs.all (fun s => !counted s || p s) && isLed counted p rest

/-- Whether all signs of an outline satisfy `p`. -/
def isFilled (p : Sign → Bool) (outline : Outline) : Bool :=
  outline.all fun stretch => stretch.signs.all p

/-- Whether the counted signs of an outline but the first satisfy `p`. -/
def isContinued (counted p : Sign → Bool) : Outline → Bool
  | [] => true
  | .one signs :: rest =>
    if signs.all fun s => !counted s then isContinued counted p rest
    else isFilled (fun s => !counted s || p s) rest
  | .many signs :: rest => (signs.all fun s => !counted s) && isContinued counted p rest

/-- The number of counted signs of an outline, if it is the same for all its sequences. -/
def number? (counted : Sign → Bool) : Outline → Option Nat
  | [] => .some 0
  | .one signs :: rest =>
    if signs.all counted then (number? counted rest).map (· + 1)
    else if signs.all fun s => !counted s then number? counted rest
    else none
  | .many signs :: rest => if signs.all fun s => !counted s then number? counted rest else none

/-- Whether every sequence of an outline is sure to meet a requirement. -/
def isMetBy (outline : Outline) : Requirement → Bool
  | some p => outline.any fun
    | .one signs => signs.all p
    | .many _ => false
  | every p => isFilled p outline
  | first counted p => isLed counted p outline
  | last counted p => isLed counted p outline.reverse
  | later counted p => isContinued counted p outline
  | count counted number => number? counted outline = .some number

variable {counted p : Sign → Bool} {outline : Outline} {ss : List Sign}

theorem exists_of_isMetBy (h : outline.Fits ss) (hmet : (some p).isMetBy outline = true) :
    ∃ s ∈ ss, p s = true := by
  simp only [isMetBy] at hmet
  induction h with
  | nil => cases hmet
  | one hs _ ih =>
      rw [List.any_cons, Bool.or_eq_true] at hmet
      rcases hmet with hfirst | hrest
      · exact ⟨_, List.mem_cons_self, List.all_eq_true.mp hfirst _ hs⟩
      · obtain ⟨s, hmem, hp⟩ := ih hrest
        exact ⟨s, List.mem_cons_of_mem _ hmem, hp⟩
  | many _ _ ih =>
      rw [List.any_cons, Bool.false_or] at hmet
      obtain ⟨s, hmem, hp⟩ := ih hmet
      exact ⟨s, List.mem_append_right _ hmem, hp⟩

theorem forall_of_isFilled (h : outline.Fits ss) (hfilled : isFilled p outline = true) :
    ∀ s ∈ ss, p s = true := by
  intro s hs
  obtain ⟨stretch, hstretch, hsign⟩ := h.of_mem hs
  exact List.all_eq_true.mp (List.all_eq_true.mp hfilled stretch hstretch) s hsign

theorem exists_find?_of_isLed (h : outline.Fits ss) (hled : isLed counted p outline = true) :
    ∃ s, ss.find? counted = .some s ∧ p s = true := by
  induction h with
  | nil => cases hled
  | @one signs ss s rest hs _ ih =>
      rw [isLed, Bool.and_eq_true, Bool.or_eq_true] at hled
      obtain ⟨hall, hlater⟩ := hled
      have hsign := List.all_eq_true.mp hall s hs
      cases hcounted : counted s with
      | true =>
          refine ⟨s, by rw [List.find?_cons, hcounted], ?_⟩
          simpa [hcounted] using hsign
      | false =>
          rw [List.find?_cons, hcounted]
          refine ih (hlater.resolve_left fun hcount => ?_)
          rw [List.all_eq_true.mp hcount s hs] at hcounted
          cases hcounted
  | @many signs front ss rest hfront _ ih =>
      rw [isLed, Bool.and_eq_true] at hled
      obtain ⟨hall, hlater⟩ := hled
      cases hfind : front.find? counted with
      | some s =>
          have hsign := List.all_eq_true.mp hall s (hfront s (List.mem_of_find?_eq_some hfind))
          refine ⟨s, by rw [List.find?_append, hfind]; rfl, ?_⟩
          simpa [List.find?_some hfind] using hsign
      | none =>
          rw [List.find?_append, hfind, Option.none_or]
          exact ih hlater

theorem filter_eq_nil_of_all {signs front : List Sign} (hfront : ∀ s ∈ front, s ∈ signs)
    (hall : (signs.all fun s => !counted s) = true) : front.filter counted = [] := by
  rw [List.filter_eq_nil_iff]
  intro s hs
  simpa using List.all_eq_true.mp hall s (hfront s hs)

theorem forall_drop_of_isContinued (h : outline.Fits ss)
    (hcontinued : isContinued counted p outline = true) :
    ∀ s ∈ (ss.filter counted).drop 1, p s = true := by
  induction h with
  | nil => nofun
  | @one signs ss s rest hs h ih =>
      rw [isContinued] at hcontinued
      split at hcontinued
      · rename_i hall
        have hcounted : counted s = false := by simpa using List.all_eq_true.mp hall s hs
        rw [List.filter_cons, hcounted]
        exact ih hcontinued
      · intro u hu
        have hmem : u ∈ ss.filter counted := by
          rw [List.filter_cons] at hu
          split at hu
          · exact hu
          · exact List.mem_of_mem_drop hu
        obtain ⟨hmem, hcounted⟩ := List.mem_filter.mp hmem
        simpa [hcounted] using forall_of_isFilled h hcontinued u hmem
  | @many signs front ss rest hfront _ ih =>
      rw [isContinued, Bool.and_eq_true] at hcontinued
      rw [List.filter_append, filter_eq_nil_of_all hfront hcontinued.1, List.nil_append]
      exact ih hcontinued.2

theorem countP_of_number? (h : outline.Fits ss) {number : Nat}
    (hnumber : number? counted outline = .some number) : ss.countP counted = number := by
  induction h generalizing number with
  | nil => simpa [number?] using hnumber
  | @one signs ss s rest hs _ ih =>
      rw [number?] at hnumber
      split at hnumber
      · rename_i hall
        obtain ⟨before, hbefore, rfl⟩ := Option.map_eq_some_iff.mp hnumber
        rw [List.countP_cons, ih hbefore, if_pos (List.all_eq_true.mp hall s hs)]
      · split at hnumber
        · rename_i hall
          have hcounted : counted s = false := by simpa using List.all_eq_true.mp hall s hs
          rw [List.countP_cons, ih hnumber, hcounted]
          rfl
        · cases hnumber
  | @many signs front ss rest hfront _ ih =>
      rw [number?] at hnumber
      split at hnumber
      · rename_i hall
        rw [List.countP_append, List.countP_eq_length_filter,
          filter_eq_nil_of_all hfront hall, ih hnumber]
        exact Nat.zero_add number
      · cases hnumber

/-- The check over outlines is sound. -/
theorem holds_of_isMetBy {q : Requirement} (h : outline.Fits ss)
    (hmet : q.isMetBy outline = true) : q.Holds ss := by
  cases q with
  | some p => exact exists_of_isMetBy h hmet
  | every p => exact forall_of_isFilled h hmet
  | first counted p => exact exists_find?_of_isLed h hmet
  | last counted p => exact exists_find?_of_isLed h.reverse hmet
  | later counted p => exact forall_drop_of_isContinued h hmet
  | count counted number => exact countP_of_number? h (of_decide_eq_true hmet)

end Requirement

/-- The signs of the trees that a pattern shows, given those of each category. -/
def patternSigns (shown : Nonterminal → List Sign) : Nonterminal.Shape → List Sign
  | .empty => []
  | .token t kept => if kept then [.token t] else []
  | .rule n => shown n
  | .seq p q | .alt p q => patternSigns shown p ++ patternSigns shown q
  | .optional p | .star p | .plus p => patternSigns shown p

/-- Whether an alternative of a category shows as a node of its own. -/
def showsNode (n : Nonterminal) (label : Option Nonterminal) : Bool :=
  match n.production.form with
  | .node => true
  | .transparent => label.isSome
  | .inlined => false

namespace Nonterminal

/-- The signs of the trees that a category shows, looked for through that many categories which show
as their children. -/
def signsWithin : Nat → Nonterminal → List Sign
  | 0, _ => []
  | depth + 1, n =>
    (n.production.alternatives.flatMap fun a =>
      if showsNode n a.label then [.node (a.label.getD n)]
      else patternSigns (signsWithin depth) a.pattern).eraseDups

def signs (n : Nonterminal) : List Sign := signsWithin 7 n

/-- Every category shows one tree, except that an item of a file may be a mere semicolon. -/
def outline (n : Nonterminal) : Outline :=
  if n = .sourceItem then [.many n.signs] else [.one n.signs]

end Nonterminal

def symbolOutline : Grammar.Symbol Terminal Nonterminal → Outline
  | .token t kept => if kept then [.one [.token t]] else []
  | .category (.named n) => n.outline
  | .category (.repeated p) => [.many (patternSigns Nonterminal.signs p)]

def outlineOf (symbols : List (Grammar.Symbol Terminal Nonterminal)) : Outline :=
  symbols.flatMap symbolOutline

/-- Whether a category has the signs that one of its alternatives shows. -/
def hasSigns (n : Nonterminal) (label : Option Nonterminal)
    (symbols : List (Grammar.Symbol Terminal Nonterminal)) : Bool :=
  if showsNode n label then n.signs.contains (.node (label.getD n))
  else
    match outlineOf symbols with
    | [] => n = .sourceItem
    | [.one signs] => signs.all n.signs.contains
    | _ => false

theorem hasSigns_production : ∀ n ∈ Nonterminal.all, ∀ a ∈ n.production.alternatives,
    ∀ symbols ∈ a.pattern.expansions, hasSigns n a.label symbols = true := by
  decide +kernel

theorem isFilled_repetition : ∀ p ∈ Grammar.repetitionsOf Nonterminal.all Nonterminal.production,
    ∀ symbols ∈ p.expansions,
      Requirement.isFilled (patternSigns Nonterminal.signs p).contains (outlineOf symbols) =
        true := by
  decide +kernel

/-- The kinds of values that nodes are read to. -/
inductive ValueKind
  | nothing
  | word
  | entity
  | exportName
  | key
  | pattern
  | type
  | types
  | param
  | params
  | typeParam
  | typeParams
  | classMember
  | typeMember
  | classMembers
  | typeMembers
  | heritage
  | heritages
  | declarator
  | enumMember
  | importSpecifiers
  | exportSpecifier
  | required
  | declaration
  | statement
  | block
deriving DecidableEq

/-- The kind of value that a node with a label is read to. -/
def Nonterminal.valueKind : Nonterminal → ValueKind
  | .identifier | .reservedWord | .variableKind | .memberModifier | .parameterModifier
  | .namespaceKind => .word
  | .entityName => .entity
  | .moduleExportName | .computedKey => .exportName
  | .propertyKey => .key
  | .objectPattern | .arrayPattern => .pattern
  | .literal | .literalType | .annotatedType | .annotatedResult | .typeConstraint | .typeDefault
  | .typeReference | .parenType | .functionType | .constructorType | .conditionalType | .unionOf
  | .intersectionOf | .typeOperator | .inferType | .arrayType | .indexedAccessType | .tupleType
  | .tuplePlain | .tupleOptional | .tupleNamed | .tupleRest | .tupleNamedRest | .objectType
  | .mappedType | .typeQuery | .importType | .typePredicate => .type
  | .typeArguments => .types
  | .parameter | .restParameter => .param
  | .parameters => .params
  | .typeParameter => .typeParam
  | .typeParameters => .typeParams
  | .methodMember | .accessorMember | .propertyMember | .indexMember | .staticBlock =>
    .classMember
  | .propertySignature | .methodSignature | .callSignature | .constructSignature
  | .getterSignature | .setterSignature | .indexSignature => .typeMember
  | .classBody => .classMembers
  | .typeBody => .typeMembers
  | .heritage | .classExtends => .heritage
  | .classImplements | .interfaceExtends => .heritages
  | .declarator => .declarator
  | .enumMember => .enumMember
  | .classDeclaration | .functionDeclaration | .variableDeclaration | .aliasDeclaration
  | .interfaceDeclaration | .enumDeclaration | .namespaceDeclaration | .globalDeclaration =>
    .declaration
  | .defaultImport | .namespaceImport | .importSpecifier | .namedImports | .importClause =>
    .importSpecifiers
  | .exportSpecifier => .exportSpecifier
  | .requireCall => .required
  | .importDeclaration | .importBare | .importEquals | .exportDeclaration
  | .exportDefaultDeclaration | .exportDefaultName | .exportNamed | .exportNamespaceFrom
  | .exportAll | .exportAssignment | .namespaceExport => .statement
  | .namespaceBlock | .sourceFile => .block
  | _ => .nothing

namespace Sign

def isNode (s : Sign) : Bool := !s.isToken

/-- Whether a sign is that of a node which is read to a value of some kind. -/
def isOf (kinds : List ValueKind) : Sign → Bool
  | .token _ => false
  | .node label => kinds.contains label.valueKind

/-- Whether a sign is that of a node with one of the labels. -/
def isAmong (labels : List Nonterminal) : Sign → Bool
  | .token _ => false
  | .node own => labels.any fun label => own = label

end Sign

namespace Requirement

/-- There is a node with the label. -/
def node (label : Nonterminal) : Requirement := some (· = .node label)

/-- There is a token of the kind. -/
def token (kind : Terminal) : Requirement := some (· = .token kind)

/-- All nodes are read to values of the kinds. -/
def nodes (kinds : List ValueKind) : Requirement := every fun s => s.isToken || s.isOf kinds

def firstNode (kinds : List ValueKind) : Requirement := first Sign.isNode (Sign.isOf kinds)

def lastNode (kinds : List ValueKind) : Requirement := last Sign.isNode (Sign.isOf kinds)

/-- The first node without one of the labels is read to a value of the kind. -/
def beside (labels : List Nonterminal) (kind : ValueKind) : Requirement :=
  first (fun s => s.isNode && !s.isAmong labels) (Sign.isOf [kind])

end Requirement

/-- What the children of a node with a label are required to be where the node is read. -/
def requirements : Nonterminal → List Requirement
  | .identifier | .reservedWord | .variableKind | .memberModifier | .parameterModifier
  | .namespaceKind => [.some Sign.isToken]
  | .entityName | .typeParameter | .inferType | .enumDeclaration | .defaultImport
  | .namespaceImport | .exportDefaultName | .namespaceExport => [.node .identifier]
  | .moduleExportName =>
    [.first (fun _ => true) fun s => s = .token .string || s.isOf [.word]]
  | .propertyKey =>
    [.first (fun _ => true) fun s => s.isToken || s = .node .computedKey || s.isOf [.word]]
  | .computedKey => [.some fun s => s.isToken || s = .node .entityName]
  | .literal => [.some fun s => s.isToken && s ≠ .token .minus]
  | .literalType | .annotatedType | .annotatedResult | .typeConstraint | .typeDefault | .parenType
  | .arrayType => [.firstNode [.type]]
  | .typeOperator => [.some Sign.isToken, .firstNode [.type]]
  | .typeReference | .heritage | .typeQuery | .exportAssignment => [.node .entityName]
  | .functionType | .constructorType | .tuplePlain | .tupleOptional | .tupleNamed | .tupleRest
  | .tupleNamedRest => [.lastNode [.type]]
  | .aliasDeclaration => [.node .identifier, .lastNode [.type]]
  | .conditionalType => [.nodes [.type], .count Sign.isNode 4]
  | .indexedAccessType => [.nodes [.type], .count Sign.isNode 2]
  | .unionOf | .intersectionOf | .tupleType | .typeArguments => [.nodes [.type]]
  | .objectType => [.node .typeBody]
  | .mappedType =>
    [.node .identifier,
      .beside [.identifier, .mappedReadonly, .mappedAs, .mappedOptional, .annotatedType] .type]
  | .indexMember | .indexSignature =>
    [.node .identifier, .beside [.identifier, .annotatedType, .memberModifier] .type]
  | .importType | .requireCall | .importDeclaration | .importBare | .exportAll => [.token .string]
  | .typePredicate => [.node .identifier, .later Sign.isNode (Sign.isOf [.type])]
  | .parameter | .restParameter =>
    [.some (Sign.isAmong [.identifier, .objectPattern, .arrayPattern])]
  | .parameters => [.nodes [.param]]
  | .methodMember | .accessorMember | .propertyMember | .propertySignature | .methodSignature
  | .getterSignature | .enumMember => [.node .propertyKey]
  | .setterSignature =>
    [.node .propertyKey, .some (Sign.isAmong [.parameter, .restParameter]), .token .wordSet]
  | .classBody => [.nodes [.classMember]]
  | .typeBody => [.nodes [.typeMember]]
  | .classExtends => [.firstNode [.heritage]]
  | .classImplements | .interfaceExtends => [.nodes [.heritage]]
  | .declarator => [.firstNode [.word, .pattern]]
  | .variableDeclaration => [.node .variableKind]
  | .interfaceDeclaration => [.node .identifier, .node .typeBody]
  | .namespaceDeclaration => [.some fun s => s = .token .string || s = .node .entityName]
  | .globalDeclaration => [.node .namespaceBlock]
  | .classDeclaration => [.node .classBody]
  | .namedImports | .importClause => [.nodes [.importSpecifiers]]
  | .importSpecifier | .exportSpecifier => [.node .moduleExportName]
  | .importEquals => [.node .identifier, .some (Sign.isAmong [.requireCall, .entityName])]
  | .exportDeclaration | .exportDefaultDeclaration => [.firstNode [.declaration]]
  | .exportNamespaceFrom => [.node .moduleExportName, .token .string]
  | .namespaceBlock | .sourceFile => [.nodes [.declaration, .statement]]
  | _ => []

theorem isMetBy_production : ∀ n ∈ Nonterminal.all, ∀ a ∈ n.production.alternatives,
    showsNode n a.label = true → ∀ symbols ∈ a.pattern.expansions,
      ((requirements (a.label.getD n)).all (Requirement.isMetBy (outlineOf symbols))) = true := by
  decide +kernel

def Concrete.sign : Concrete → Sign
  | .token t => .token t.kind
  | .node label _ _ => .node label

/-- A tree in which every token satisfies `P` and every node has what its label requires. -/
inductive Concrete.IsFormed (P : Token → Prop) : Concrete → Prop
  | token {t : Token} (h : P t) : IsFormed P (.token t)
  | node {label : Nonterminal} {loc : Option Location} {children : List Concrete}
      (hrequired : ∀ q ∈ requirements label, q.Holds (children.map sign))
      (hchildren : ∀ c ∈ children, IsFormed P c) : IsFormed P (.node label loc children)

namespace Concrete

theorem fits_outline {n : Nonterminal} {s : Sign} (h : s ∈ n.signs) : n.outline.Fits [s] := by
  rw [Nonterminal.outline]
  split
  · exact .many (List.forall_mem_singleton.mpr h) .nil
  · exact .one h .nil

theorem fits_singleton {signs ss : List Sign} (h : Outline.Fits [.one signs] ss) :
    ∃ s ∈ signs, ss = [s] := by
  cases h with
  | one hs hrest =>
      cases hrest
      exact ⟨_, hs, rfl⟩

variable {P : Token → Prop}

theorem assemble_of_showsNode {rule : Rule Terminal Nonterminal} {n : Nonterminal}
    (hcategory : rule.category = .named n) (h : showsNode n rule.label = true)
    (loc : Option Location) (children : List Concrete) :
    assemble rule loc children = [.node (rule.label.getD n) loc children] := by
  rw [showsNode] at h
  rw [assemble, hcategory]
  dsimp only
  split at h
  · rename_i hform
    rw [hform]
  · rename_i hform
    have hlabel : rule.label.isNone = false := by simpa [Option.isNone_eq_false_iff] using h
    rw [hform]
    simp [hlabel]
  · cases h

theorem assemble_of_not_showsNode {rule : Rule Terminal Nonterminal} {n : Nonterminal}
    (hcategory : rule.category = .named n) (h : showsNode n rule.label = false)
    (loc : Option Location) {children : List Concrete}
    (hchildren : n.production.form = .inlined ∨ children.length = 1) :
    assemble rule loc children = children := by
  rw [showsNode] at h
  rw [assemble, hcategory]
  dsimp only
  split at h
  · cases h
  · rename_i hform
    have hlength := hchildren.resolve_left (by simp [hform])
    rw [hform]
    simp_all
  · rename_i hform
    rw [hform]

theorem formed_assemble_named {rule : Rule Terminal Nonterminal} {n : Nonterminal}
    (hn : n ∈ Nonterminal.all) (hrule : rule ∈ n.production.rules n) {loc : Option Location}
    {children : List Concrete} (hfits : (outlineOf rule.symbols).Fits (children.map sign))
    (hchildren : ∀ c ∈ children, c.IsFormed P) :
    n.outline.Fits ((assemble rule loc children).map sign) ∧
      ∀ c ∈ assemble rule loc children, c.IsFormed P := by
  obtain ⟨hcategory, a, ha, hsymbols, hlabel⟩ := Grammar.mem_production_rules hrule
  have hsigns := hasSigns_production n hn a ha rule.symbols hsymbols
  rw [hasSigns] at hsigns
  split at hsigns
  · rename_i hshows
    have hmet := isMetBy_production n hn a ha hshows rule.symbols hsymbols
    rw [← hlabel] at hshows hsigns hmet
    rw [assemble_of_showsNode hcategory hshows]
    refine ⟨fits_outline (List.contains_iff_mem.mp hsigns), List.forall_mem_singleton.mpr ?_⟩
    refine .node (fun q hq => ?_) hchildren
    exact Requirement.holds_of_isMetBy hfits (List.all_eq_true.mp hmet q hq)
  · rename_i hshows
    rw [Bool.not_eq_true, ← hlabel] at hshows
    split at hsigns
    · -- nothing is shown: only the item of a file that is a semicolon
      rename_i houtline
      obtain rfl : n = .sourceItem := of_decide_eq_true hsigns
      rw [assemble_of_not_showsNode hcategory hshows loc (Or.inl rfl)]
      rw [houtline] at hfits
      refine ⟨?_, hchildren⟩
      generalize children.map sign = ss at hfits
      cases hfits
      exact .many (List.forall_mem_nil _) .nil
    · rename_i signs houtline
      rw [houtline] at hfits
      obtain ⟨s, hs, hone⟩ := fits_singleton hfits
      have hlength : children.length = 1 := by simpa using congrArg List.length hone
      rw [assemble_of_not_showsNode hcategory hshows loc (Or.inr hlength), hone]
      exact ⟨fits_outline (by simpa using List.all_eq_true.mp hsigns s hs), hchildren⟩
    · cases hsigns

theorem formed_assemble_repeated {rule : Rule Terminal Nonterminal} {p : Nonterminal.Shape}
    (hp : p ∈ Grammar.repetitionsOf Nonterminal.all Nonterminal.production)
    (hrule : rule ∈ p.rules) {loc : Option Location} {children : List Concrete}
    (hfits : (outlineOf rule.symbols).Fits (children.map sign))
    (hchildren : ∀ c ∈ children, c.IsFormed P) :
    (symbolOutline (.category (.repeated p))).Fits ((assemble rule loc children).map sign) ∧
      ∀ c ∈ assemble rule loc children, c.IsFormed P := by
  obtain ⟨hcategory, once, honce, hsymbols⟩ := Grammar.mem_pattern_rules hrule
  have hfilled := isFilled_repetition p hp once honce
  have hall : Requirement.isFilled (patternSigns Nonterminal.signs p).contains
      (outlineOf rule.symbols) = true := by
    rcases hsymbols with hsymbols | hsymbols
    · rwa [hsymbols]
    · rw [hsymbols, outlineOf, List.flatMap_cons, Requirement.isFilled, List.all_append,
        Bool.and_eq_true]
      refine ⟨?_, hfilled⟩
      simp [symbolOutline, Stretch.signs]
  rw [assemble, hcategory, symbolOutline, ← List.append_nil (children.map sign)]
  refine ⟨.many ?_ .nil, hchildren⟩
  intro s hs
  simpa using Requirement.forall_of_isFilled hfits hall s hs

theorem formed_assemble {rule : Rule Terminal Nonterminal} (hrule : rule ∈ grammar.rules)
    {loc : Option Location} {children : List Concrete}
    (hfits : (outlineOf rule.symbols).Fits (children.map sign))
    (hchildren : ∀ c ∈ children, c.IsFormed P) :
    (symbolOutline (.category rule.category)).Fits ((assemble rule loc children).map sign) ∧
      ∀ c ∈ assemble rule loc children, c.IsFormed P := by
  rcases Grammar.mem_ofProductions_rules.mp hrule with ⟨n, hn, hmem⟩ | ⟨p, hp, hmem⟩
  · rw [(Grammar.mem_production_rules hmem).1]
    exact formed_assemble_named hn hmem hfits hchildren
  · rw [(Grammar.mem_pattern_rules hmem).1]
    exact formed_assemble_repeated hp hmem hfits hchildren

variable {tokens : List Token}

mutual

/-- The trees of a derivation have the signs of what is derived, and are formed. -/
theorem formed_ofDerivation (hP : ∀ t ∈ tokens, P t) {d : Derivation Terminal Nonterminal}
    {symbol : Grammar.Symbol Terminal Nonterminal} {start stop : Nat}
    (h : d.Reads grammar (tokens.map (·.kind)) symbol start stop)
    (hkept : ∀ t, symbol ≠ .token t false) :
    (symbolOutline symbol).Fits ((ofDerivation tokens d).map sign) ∧
      ∀ c ∈ ofDerivation tokens d, c.IsFormed P := by
  cases d with
  | token position =>
      rw [Derivation.Reads] at h
      obtain ⟨rfl, _, kind, kept, rfl, hkind⟩ := h
      obtain rfl : kept = true := by
        cases kept with
        | true => rfl
        | false => exact absurd rfl (hkept kind)
      rw [List.getElem?_map, Option.map_eq_some_iff] at hkind
      obtain ⟨t, ht, rfl⟩ := hkind
      rw [ofDerivation, ht]
      refine ⟨.one (List.mem_singleton.mpr rfl) .nil, List.forall_mem_singleton.mpr ?_⟩
      exact .token (hP t (List.mem_of_getElem? ht))
  | node rule children =>
      obtain ⟨rfl, hrule, hall⟩ := Derivation.reads_node_iff.mp h
      obtain ⟨hfits, hformed⟩ := formed_ofChildren hP hall
      rw [ofDerivation]
      exact formed_assemble hrule hfits hformed

theorem formed_ofChildren (hP : ∀ t ∈ tokens, P t) {ds : List (Derivation Terminal Nonterminal)}
    {symbols : List (Grammar.Symbol Terminal Nonterminal)} {start stop : Nat}
    (h : Derivation.ReadAll grammar (tokens.map (·.kind)) ds symbols start stop) :
    (outlineOf symbols).Fits ((ofChildren tokens symbols ds).map sign) ∧
      ∀ c ∈ ofChildren tokens symbols ds, c.IsFormed P := by
  cases ds with
  | nil =>
      obtain ⟨rfl, rfl⟩ := Derivation.readAll_nil_iff.mp h
      exact ⟨.nil, List.forall_mem_nil _⟩
  | cons d rest =>
      obtain ⟨symbol, more, middle, rfl, hfirst, hrest⟩ := Derivation.readAll_cons_iff.mp h
      obtain ⟨hfits, hformed⟩ := formed_ofChildren hP hrest
      by_cases hkept : ∀ t, symbol ≠ .token t false
      · obtain ⟨hsign, hd⟩ := formed_ofDerivation hP hfirst hkept
        have hshown : ofChildren tokens (symbol :: more) (d :: rest) =
            ofDerivation tokens d ++ ofChildren tokens more rest := by
          rw [ofChildren]
          rintro t rfl
          exact hkept t rfl
        rw [hshown, List.map_append]
        exact ⟨hsign.append hfits, List.forall_mem_append.mpr ⟨hd, hformed⟩⟩
      · obtain ⟨t, ht⟩ := not_forall.mp hkept
        obtain rfl := not_not.mp ht
        rw [ofChildren]
        exact ⟨hfits, hformed⟩

end

end Concrete

end Source

end HostBindings

import HostBindings.Proofs.ShownTrees

/-!
How the tokens below a category open, and how their parentheses nest. Both are decided over the
productions once and hold of everything that is shown: a category opens with one of its openers, so
the next token leaves few of its alternatives, and parentheses close in the category that opens
them, so the parenthesis that closes another is fixed by the tokens alone.
-/

namespace HostBindings.Source

open Grammar (Alternative Pattern)

namespace Nonterminal

def identifierKinds : List Terminal :=
  [.name, .wordType, .wordFrom, .wordAs, .wordNamespace, .wordModule, .wordDeclare, .wordGlobal,
   .wordRequire, .wordAbstract, .wordPublic, .wordPrivate, .wordProtected, .wordStatic,
   .wordReadonly, .wordOverride, .wordAccessor, .wordGet, .wordSet, .wordLet, .wordKeyof,
   .wordUnique, .wordInfer, .wordIs, .wordAsserts]

def literalKinds : List Terminal := [.string, .number, .minus, .template]

def primaryKinds : List Terminal :=
  identifierKinds ++ literalKinds ++
    [.openBrace, .openBracket, .openParen, .wordTypeof, .wordImport]

def typeKinds : List Terminal := [.bar, .ampersand, .less, .wordNew] ++ primaryKinds

def declarationKinds : List Terminal :=
  [.wordAbstract, .wordClass, .wordFunction, .wordVar, .wordLet, .wordConst, .wordType,
   .wordInterface, .wordEnum, .wordNamespace, .wordModule, .wordGlobal]

def statementKinds : List Terminal :=
  [.wordImport, .wordExport, .wordDeclare] ++ declarationKinds

/-- The kinds of tokens that may open a category; the categories that are not asked for have none
listed. -/
def openers? : Nonterminal → Option (List Terminal)
  | .sourceItem => some (.semicolon :: statementKinds)
  | .statement => some statementKinds
  | .importDeclaration | .importBare | .importType => some [.wordImport]
  | .importEquals => some [.wordExport, .wordImport]
  | .exportDeclaration | .exportDefaultDeclaration | .exportDefaultName | .exportNamed
  | .exportNamespaceFrom | .exportAll | .exportAssignment | .namespaceExport =>
    some [.wordExport]
  | .declaration => some (.wordDeclare :: declarationKinds)
  | .declarationBody => some declarationKinds
  | .classDeclaration => some [.wordAbstract, .wordClass]
  | .functionDeclaration => some [.wordFunction]
  | .variableDeclaration | .variableKind => some [.wordVar, .wordLet, .wordConst]
  | .aliasDeclaration => some [.wordType]
  | .interfaceDeclaration => some [.wordInterface]
  | .enumDeclaration => some [.wordConst, .wordEnum]
  | .namespaceDeclaration | .namespaceKind => some [.wordNamespace, .wordModule]
  | .globalDeclaration => some [.wordGlobal]
  | .identifier | .entityName | .typeReference | .typePredicate => some identifierKinds
  | .literal | .literalType => some literalKinds
  | .objectType | .typeBody | .mappedType | .objectPattern => some [.openBrace]
  | .typeQuery => some [.wordTypeof]
  | .parenType => some [.openParen]
  | .tupleType | .arrayPattern => some [.openBracket]
  | .primaryType | .postfixType | .typeOperand => some primaryKinds
  | .typeOperator => some [.wordKeyof, .wordUnique, .wordReadonly]
  | .inferType => some [.wordInfer]
  | .intersectionType | .intersectionOf => some (.ampersand :: primaryKinds)
  | .unionType | .unionOf | .conditionalType => some (.bar :: .ampersand :: primaryKinds)
  | .functionType => some [.less, .openParen]
  | .constructorType => some [.wordAbstract, .wordNew]
  | .typeExpression => some typeKinds
  | .tupleElement => some (.ellipsis :: typeKinds)
  | .typeParameters | .typeArguments => some [.less]
  | .annotatedType => some [.colon]
  | .initializer => some [.equals]
  | .parameterModifier =>
    some [.wordPublic, .wordPrivate, .wordProtected, .wordReadonly, .wordOverride]
  | .bindingPattern => some (.openBrace :: .openBracket :: identifierKinds)
  | .parameter => some (.ellipsis :: .openBrace :: .openBracket :: identifierKinds)
  | _ => none

end Nonterminal

/-- Whether a pattern may be read from no token. -/
def mayBeEmpty : Nonterminal.Shape → Bool
  | .empty | .optional _ | .star _ => true
  | .token _ _ => false
  | .rule n => nullable (.named n)
  | .seq p q => mayBeEmpty p && mayBeEmpty q
  | .alt p q => mayBeEmpty p || mayBeEmpty q
  | .plus p => mayBeEmpty p

/-- The kinds of either of two lists, if both are there. -/
def joinKinds (front back : Option (List Terminal)) : Option (List Terminal) :=
  front.bind fun kinds => back.map (kinds ++ ·)

theorem joinKinds_eq_some {front back : Option (List Terminal)} {kinds : List Terminal}
    (h : joinKinds front back = some kinds) :
    ∃ own others, front = some own ∧ back = some others ∧ kinds = own ++ others := by
  obtain ⟨own, hfront, hback⟩ := Option.bind_eq_some_iff.mp h
  obtain ⟨others, hothers, rfl⟩ := Option.map_eq_some_iff.mp hback
  exact ⟨own, others, hfront, hothers, rfl⟩

/-- The kinds of tokens that may open a pattern, where they are listed. -/
def openersOf : Nonterminal.Shape → Option (List Terminal)
  | .empty => some []
  | .token t _ => some [t]
  | .rule n => n.openers?
  | .seq p q => if mayBeEmpty p then joinKinds (openersOf p) (openersOf q) else openersOf p
  | .alt p q => joinKinds (openersOf p) (openersOf q)
  | .optional p | .star p | .plus p => openersOf p

/-- Whether the kinds listed contain all openers of a pattern. -/
def coversOpeners (listed : Option (List Terminal)) (p : Nonterminal.Shape) : Bool :=
  listed.all fun kinds => (openersOf p).any fun own => own.all kinds.contains

theorem nullable_production : ∀ n ∈ Nonterminal.all, ∀ a ∈ n.production.alternatives,
    mayBeEmpty a.pattern = true → nullable (.named n) = true := by
  decide +kernel

theorem coversOpeners_production : ∀ n ∈ Nonterminal.all, ∀ a ∈ n.production.alternatives,
    coversOpeners n.openers? a.pattern = true := by
  decide +kernel

variable {p q : Nonterminal.Shape} {n : Nonterminal} {ts : List Token} {cs : List Concrete}

theorem mem_all_of_mem_alternatives {a : Alternative Terminal Nonterminal}
    (ha : a ∈ n.production.alternatives) : n ∈ Nonterminal.all :=
  mem_all_of_alternatives n (List.ne_nil_of_mem ha)

theorem Shows.mayBeEmpty_of_nil (h : Shows p ts cs) (hnil : ts = []) : mayBeEmpty p = true := by
  induction h with
  | empty | omitted | none => rfl
  | skipped | kept => cases hnil
  | rule ha _ _ ih =>
      exact nullable_production _ (mem_all_of_mem_alternatives ha) _ ha (ih hnil)
  | seq _ _ ihp ihq =>
      obtain ⟨hts, hus⟩ := List.append_eq_nil_iff.mp hnil
      exact Bool.and_eq_true_iff.mpr ⟨ihp hts, ihq hus⟩
  | first _ ih => exact Bool.or_eq_true_iff.mpr (Or.inl (ih hnil))
  | second _ ih => exact Bool.or_eq_true_iff.mpr (Or.inr (ih hnil))
  | taken | more => rfl
  | plus _ _ ih _ => exact ih (List.append_eq_nil_iff.mp hnil).1

/-- What is shown opens with one of the openers of its pattern. -/
theorem Shows.opens (h : Shows p ts cs) {t : Token} (hhead : ts.head? = some t)
    {kinds : List Terminal} (hkinds : openersOf p = some kinds) : t.kind ∈ kinds := by
  induction h generalizing kinds with
  | empty | omitted | none => cases hhead
  | skipped | kept =>
      cases hhead
      cases hkinds
      exact List.mem_singleton_self _
  | @rule n a ts cs ha _ _ ih =>
      have hcovers := coversOpeners_production n (mem_all_of_mem_alternatives ha) a ha
      rw [coversOpeners, show n.openers? = some kinds from hkinds, Option.all_some,
        Option.any_eq_true] at hcovers
      obtain ⟨own, hown, hall⟩ := hcovers
      exact List.contains_iff_mem.mp (List.all_eq_true.mp hall _ (ih hhead hown))
  | @seq p q ts us cs ds hp hq ihp ihq =>
      rw [openersOf] at hkinds
      cases ts with
      | nil =>
          rw [if_pos (hp.mayBeEmpty_of_nil rfl)] at hkinds
          obtain ⟨own, others, _, hothers, rfl⟩ := joinKinds_eq_some hkinds
          exact List.mem_append_right _ (ihq hhead hothers)
      | cons x rest =>
          split at hkinds
          · obtain ⟨own, others, hown, _, rfl⟩ := joinKinds_eq_some hkinds
            exact List.mem_append_left _ (ihp hhead hown)
          · exact ihp hhead hkinds
  | first _ ih =>
      obtain ⟨own, others, hown, _, rfl⟩ := joinKinds_eq_some hkinds
      exact List.mem_append_left _ (ih hhead hown)
  | second _ ih =>
      obtain ⟨own, others, _, hothers, rfl⟩ := joinKinds_eq_some hkinds
      exact List.mem_append_right _ (ih hhead hothers)
  | taken _ ih => exact ih hhead hkinds
  | @more p ts us cs ds _ _ ihfirst ihrest | @plus p ts us cs ds _ _ ihfirst ihrest =>
      cases ts with
      | nil => exact ihrest hhead hkinds
      | cons x rest => exact ihfirst hhead hkinds

namespace Nonterminal

/-- The alternatives of a category that may open with a kind of token. -/
def alternativesAt (n : Nonterminal) (k : Terminal) : List (Alternative Terminal Nonterminal) :=
  n.production.alternatives.filter fun a =>
    match openersOf a.pattern with
    | none => true
    | some kinds => kinds.contains k

end Nonterminal

theorem Shows.exists_alternative {t : Token} (h : Shows (.rule n) (t :: ts) cs) :
    ∃ a ∈ n.alternativesAt t.kind, ∃ children loc, Shows a.pattern (t :: ts) children ∧
      cs = n.shown a.label loc children := by
  obtain ⟨a, ha, children, loc, hshows, hcs⟩ := shows_rule_iff.mp h
  refine ⟨a, List.mem_filter.mpr ⟨ha, ?_⟩, children, loc, hshows, hcs⟩
  split
  · rfl
  · rename_i kinds hkinds
    exact List.contains_iff_mem.mpr (hshows.opens rfl hkinds)

/-- A category that shows as its only child, and is left with an alternative that is another
category, shows what that category shows. -/
theorem Shows.through {m : Nonterminal} {t : Token} (h : Shows (.rule n) (t :: ts) cs)
    (hform : n.production.form = .transparent) (hm : m.production.form ≠ .inlined)
    (hat : n.alternativesAt t.kind = [Nonterminal.plain [Nonterminal.rule m]]) :
    Shows (.rule m) (t :: ts) cs := by
  obtain ⟨a, ha, children, loc, hshows, rfl⟩ := h.exists_alternative
  rw [hat] at ha
  obtain rfl := List.mem_singleton.mp ha
  rwa [Nonterminal.plain, Nonterminal.shown_of_transparent hform loc (hshows.length_eq_one hm)]

theorem Shows.through_inlined {m : Nonterminal} {t : Token} (h : Shows (.rule n) (t :: ts) cs)
    (hform : n.production.form = .inlined)
    (hat : n.alternativesAt t.kind = [Nonterminal.plain [Nonterminal.rule m]]) :
    Shows (.rule m) (t :: ts) cs := by
  obtain ⟨a, ha, children, loc, hshows, hcs⟩ := h.exists_alternative
  rw [hat] at ha
  obtain rfl := List.mem_singleton.mp ha
  rwa [hcs, Nonterminal.shown_of_inlined hform]

/-- How deep parentheses are open after some kinds of tokens, unless one closes too much. -/
def depthAfter : Nat → List Terminal → Option Nat
  | depth, [] => some depth
  | depth, .openParen :: rest => depthAfter (depth + 1) rest
  | 0, .closeParen :: _ => none
  | depth + 1, .closeParen :: rest => depthAfter depth rest
  | depth, _ :: rest => depthAfter depth rest

/-- Every parenthesis that opens is closed, and the other way round. -/
def IsBalanced (kinds : List Terminal) : Prop := depthAfter 0 kinds = some 0

theorem depthAfter_append (depth : Nat) (ks ls : List Terminal) :
    depthAfter depth (ks ++ ls) = (depthAfter depth ks).bind (depthAfter · ls) := by
  induction ks generalizing depth with
  | nil => rfl
  | cons k rest ih =>
      cases k with
      | openParen => exact ih (depth + 1)
      | closeParen =>
          cases depth with
          | zero => rfl
          | succ depth => exact ih depth
      | _ => exact ih depth

theorem depthAfter_add {depth after : Nat} {ks : List Terminal}
    (h : depthAfter depth ks = some after) (more : Nat) :
    depthAfter (depth + more) ks = some (after + more) := by
  induction ks generalizing depth with
  | nil =>
      cases h
      rfl
  | cons k rest ih =>
      cases k with
      | openParen =>
          have hrest := @ih (depth + 1) h
          rwa [Nat.add_right_comm] at hrest
      | closeParen =>
          cases depth with
          | zero => cases h
          | succ depth =>
              rw [Nat.add_right_comm]
              exact @ih depth h
      | _ => exact @ih depth h

/-- A parenthesis that closes a balanced run is found from the tokens alone. -/
theorem IsBalanced.eq_of_append_eq {ks ls : List Terminal} (hk : IsBalanced ks)
    (hl : IsBalanced ls) {rest others : List Terminal}
    (h : ks ++ .closeParen :: rest = ls ++ .closeParen :: others) : ks = ls := by
  have hclosed : ∀ {xs ys zs : List Terminal}, IsBalanced xs → ys = xs ++ .closeParen :: zs →
      ¬ IsBalanced ys := by
    rintro xs ys zs hxs rfl hys
    rw [IsBalanced, depthAfter_append, hxs] at hys
    cases hys
  rcases List.append_eq_append_iff.mp h with ⟨middle, hls, hmiddle⟩ | ⟨middle, hks, hmiddle⟩
  · cases middle with
    | nil => rw [hls, List.append_nil]
    | cons k middle =>
        obtain ⟨rfl, _⟩ := List.cons.inj hmiddle
        exact absurd hl (hclosed hk hls)
  · cases middle with
    | nil => rw [hks, List.append_nil]
    | cons k middle =>
        obtain ⟨rfl, _⟩ := List.cons.inj hmiddle
        exact absurd hk (hclosed hl hks)

/-- How deep parentheses are open after a pattern, if that is the same for all that it shows. A
category closes all that it opens. -/
def depthAfterPattern : Nat → Nonterminal.Shape → Option Nat
  | depth, .empty | depth, .rule _ => some depth
  | depth, .token t _ => depthAfter depth [t]
  | depth, .seq p q => (depthAfterPattern depth p).bind (depthAfterPattern · q)
  | depth, .alt p q =>
    if depthAfterPattern depth p = depthAfterPattern depth q then depthAfterPattern depth p
    else none
  | depth, .optional p | depth, .star p | depth, .plus p =>
    if depthAfterPattern depth p = some depth then some depth else none

theorem depthAfterPattern_production : ∀ n ∈ Nonterminal.all, ∀ a ∈ n.production.alternatives,
    depthAfterPattern 0 a.pattern = some 0 := by
  decide +kernel

theorem Shows.depthAfter_eq (h : Shows p ts cs) {depth after : Nat}
    (hpattern : depthAfterPattern depth p = some after) :
    depthAfter depth (ts.map (·.kind)) = some after := by
  induction h generalizing depth after with
  | empty => exact hpattern
  | skipped | kept => exact hpattern
  | rule ha _ _ ih =>
      cases hpattern
      have hzero := ih (depthAfterPattern_production _ (mem_all_of_mem_alternatives ha) _ ha)
      simpa using depthAfter_add hzero depth
  | seq _ _ ihp ihq =>
      obtain ⟨middle, hmiddle, hafter⟩ := Option.bind_eq_some_iff.mp hpattern
      rw [List.map_append, depthAfter_append, ihp hmiddle]
      exact ihq hafter
  | first _ ih =>
      rw [depthAfterPattern] at hpattern
      split at hpattern
      · exact ih hpattern
      · cases hpattern
  | second _ ih =>
      rw [depthAfterPattern] at hpattern
      split at hpattern
      · rename_i hsame
        exact ih (hsame.symm.trans hpattern)
      · cases hpattern
  | taken _ ih =>
      rw [depthAfterPattern] at hpattern
      split at hpattern
      · rename_i hneutral
        cases hpattern
        exact ih hneutral
      · cases hpattern
  | omitted | none =>
      rw [depthAfterPattern] at hpattern
      split at hpattern
      · exact hpattern
      · cases hpattern
  | more _ _ ihfirst ihrest | plus _ _ ihfirst ihrest =>
      rw [depthAfterPattern] at hpattern
      split at hpattern
      · rename_i hneutral
        cases hpattern
        rw [List.map_append, depthAfter_append, ihfirst hneutral]
        apply ihrest
        rw [depthAfterPattern, if_pos hneutral]
      · cases hpattern

theorem Shows.isBalanced (h : Shows (.rule n) ts cs) : IsBalanced (ts.map (·.kind)) :=
  h.depthAfter_eq rfl

end HostBindings.Source

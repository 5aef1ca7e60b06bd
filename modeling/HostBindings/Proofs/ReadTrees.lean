import HostBindings.Proofs.CompleteModules
import HostBindings.Proofs.ConcreteOutlines

/-!
Reading goes through. A node is read from what its children were read to, and asks them for parts
that its rule always has. So every tree of a derivation is read to a value of the kind that its
label promises, provided that its strings can be decoded and no setter of an object type takes the
rest of the arguments; the module of a whole file is complete.
-/

namespace HostBindings.Source

namespace Reader

/-- Reading that gives a result which satisfies `P`. -/
def Yields {α : Type} (P : α → Prop) (x : Read α) : Prop := ∃ a, x = .ok a ∧ P a

section

variable {α β : Type} {P : α → Prop} {Q : β → Prop}

theorem yields_pure {a : α} (h : P a) : Yields P (pure a) := ⟨a, rfl, h⟩

theorem Yields.bind {x : Read α} {f : α → Read β} (hx : Yields P x)
    (hf : ∀ a, P a → Yields Q (f a)) : Yields Q (x >>= f) := by
  obtain ⟨a, rfl, ha⟩ := hx
  exact hf a ha

theorem Yields.map {x : Read α} {f : α → β} (hx : Yields P x) (hf : ∀ a, P a → Q (f a)) :
    Yields Q (x.map f) := by
  obtain ⟨a, rfl, ha⟩ := hx
  exact ⟨f a, rfl, hf a ha⟩

theorem Yields.mono {P' : α → Prop} {x : Read α} (hx : Yields P x) (h : ∀ a, P a → P' a) :
    Yields P' x := by
  obtain ⟨a, rfl, ha⟩ := hx
  exact ⟨a, rfl, h a ha⟩

theorem yields_mapM_option {f : α → Read β} {o : Option α} (h : ∀ a ∈ o, Yields Q (f a)) :
    Yields (fun r => ∀ b ∈ r, Q b) (o.mapM f) := by
  cases o with
  | none => exact yields_pure nofun
  | some a =>
      obtain ⟨b, hb, hQ⟩ := h a rfl
      refine ⟨some b, ?_, ?_⟩
      · show some <$> f a = .ok (some b)
        rw [hb]
        rfl
      · rintro _ ⟨⟩
        exact hQ

theorem yields_mapM {f : α → Read β} {as : List α} (h : ∀ a ∈ as, Yields Q (f a)) :
    Yields (fun bs => bs.length = as.length ∧ ∀ b ∈ bs, Q b) (as.mapM f) := by
  induction as with
  | nil => exact yields_pure ⟨rfl, List.forall_mem_nil _⟩
  | cons a rest ih =>
      obtain ⟨ha, hrest⟩ := List.forall_mem_cons.mp h
      rw [List.mapM_cons]
      refine ha.bind fun b hb => (ih hrest).bind fun bs hbs => yields_pure ?_
      exact ⟨by rw [List.length_cons, List.length_cons, hbs.1],
        List.forall_mem_cons.mpr ⟨hb, hbs.2⟩⟩

end

end Reader

open Reader (Yields yields_pure)

namespace Piece

/-- Whether a piece is read without fault to a value of a kind, complete where it is to be
lowered. -/
def IsOf (p : Piece) : ValueKind → Prop
  | .nothing => True
  | .word => Yields (fun _ => True) (Reader.word p)
  | .entity => Yields (· ≠ []) (Reader.entity p)
  | .exportName => Yields (fun _ => True) (Reader.exportName p)
  | .key => Yields (fun key => key.isThere = true) (Reader.key p)
  | .pattern => Yields (· ≠ .absent) (Reader.pattern p)
  | .type => Yields (fun t => t.isComplete = true) (Reader.type p)
  | .types => Yields (fun ts => TypeExpr.areComplete ts = true) (Reader.types p)
  | .param => Yields (fun p => p.isComplete = true) (Reader.param p)
  | .params => Yields (fun ps => Param.areComplete ps = true) (Reader.params p)
  | .typeParam => Yields (fun _ => True) (Reader.typeParam p)
  | .typeParams => Yields (fun _ => True) (Reader.typeParams p)
  | .classMember => Yields (fun m => m.isComplete = true ∧ m.isOfClass = true) (Reader.member p)
  | .typeMember => Yields (fun m => m.isComplete = true) (Reader.member p)
  | .classMembers =>
      Yields (fun ms => ∀ m ∈ ms, m.isComplete = true ∧ m.isOfClass = true) (Reader.members p)
  | .typeMembers => Yields (fun ms => Member.areComplete ms = true) (Reader.members p)
  | .heritage => Yields (fun _ => True) (Reader.heritage p)
  | .heritages => Yields (fun _ => True) (Reader.heritages p)
  | .declarator => Yields (fun d => d.isComplete = true) (Reader.declarator p)
  | .enumMember => Yields (fun _ => True) (Reader.enumMember p)
  | .importSpecifiers => Yields (fun _ => True) (Reader.importSpecifiers p)
  | .exportSpecifier => Yields (fun _ => True) (Reader.exportSpecifier p)
  | .required => Yields (fun _ => True) (Reader.requiredModule p)
  | .declaration => Yields (fun d => d.isComplete = true) (Reader.declaration p)
  | .statement => Yields (fun s => s.isComplete = true) (Reader.statement p)
  | .block => Yields (fun body => body.isComplete = true) (Reader.block p)

def sign : Piece → Sign
  | .token t => .token t.kind
  | .node label _ _ _ => .node label

/-- A token that can be decoded if it is a string, or a node with a value of the kind that its label
promises. -/
def IsGenuine (p : Piece) : Prop :=
  match p with
  | .token t => t.kind = .string → Yields (fun _ => True) (StringLiteral.decode t.text)
  | .node label _ _ _ => p.IsOf label.valueKind

variable {p : Piece}

theorem isLabelled_iff {label : Nonterminal} :
    p.isLabelled label = true ↔ p.sign = .node label := by
  cases p <;> simp [isLabelled, sign]

theorem isNode_eq : p.isNode = p.sign.isNode := by
  cases p <;> rfl

theorem IsGenuine.isOf (h : p.IsGenuine) {label : Nonterminal} (hsign : p.sign = .node label) :
    p.IsOf label.valueKind := by
  cases p with
  | token t => cases hsign
  | node own loc tokens value =>
      cases hsign
      exact h

theorem IsGenuine.exists_isOf (h : p.IsGenuine) {kinds : List ValueKind}
    (hsign : p.sign.isOf kinds = true) : ∃ kind ∈ kinds, p.IsOf kind := by
  cases p with
  | token t => cases hsign
  | node label loc tokens value => exact ⟨_, List.contains_iff_mem.mp hsign, h⟩

theorem IsGenuine.isOf_single (h : p.IsGenuine) {kind : ValueKind}
    (hsign : p.sign.isOf [kind] = true) : p.IsOf kind := by
  obtain ⟨other, hother, hvalue⟩ := h.exists_isOf hsign
  rwa [List.mem_singleton.mp hother] at hvalue

theorem yields_pattern (h : p.IsOf .word ∨ p.IsOf .pattern) :
    Yields (· ≠ .absent) (Reader.pattern p) := by
  rcases h with ⟨w, hw, _⟩ | h
  · rw [Reader.word] at hw
    split at hw
    · rename_i hvalue
      rw [Reader.pattern, hvalue]
      exact yields_pure nofun
    · cases hw
  · exact h

theorem yields_statement (h : p.IsOf .declaration ∨ p.IsOf .statement) :
    Yields (fun s => s.isComplete = true) (Reader.statement p) := by
  rcases h with ⟨d, hd, hcomplete⟩ | h
  · rw [Reader.declaration] at hd
    cases hs : Reader.statement p with
    | error fault =>
        rw [hs] at hd
        cases hd
    | ok s =>
        rw [hs] at hd
        cases s with
        | declaration inner =>
            obtain rfl : inner = d := Except.ok.inj hd
            refine yields_pure ?_
            rwa [Statement.isComplete]
        | _ => cases hd
  · exact h

end Piece

namespace Reader

/-- Whether the children of a node are what a requirement says. -/
def Meets (ps : Pieces) (q : Requirement) : Prop := q.Holds (ps.map Piece.sign)

variable {ps : Pieces} {label : Nonterminal} {loc : Option Location}

theorem exists_mem_of_meets {p : Sign → Bool} (h : Meets ps (.some p)) :
    ∃ q ∈ ps, p q.sign = true := by
  obtain ⟨s, hs, hp⟩ := h
  obtain ⟨q, hq, rfl⟩ := List.mem_map.mp hs
  exact ⟨q, hq, hp⟩

theorem exists_find?_of_meets {counted p : Sign → Bool} (h : Meets ps (.first counted p)) :
    ∃ q ∈ ps, ps.find? (fun q => counted q.sign) = some q ∧ p q.sign = true := by
  obtain ⟨s, hs, hp⟩ := h
  rw [List.find?_map, Option.map_eq_some_iff] at hs
  obtain ⟨q, hq, rfl⟩ := hs
  exact ⟨q, List.mem_of_find?_eq_some hq, hq, hp⟩

theorem exists_head?_of_meets {p : Sign → Bool} (h : Meets ps (.first (fun _ => true) p)) :
    ∃ q ∈ ps, ps.head? = some q ∧ p q.sign = true := by
  obtain ⟨q, hq, hfind, hsign⟩ := exists_find?_of_meets h
  cases ps with
  | nil => cases hfind
  | cons first rest => exact ⟨q, hq, hfind, hsign⟩

theorem nodes_eq (ps : Pieces) : ps.nodes = ps.filter fun q => q.sign.isNode := by
  rw [Pieces.nodes]
  congr 1
  funext q
  exact Piece.isNode_eq

theorem yields_findSome {α : Type} {P : α → Prop} {g : Piece → Option Token} {f : Token → Read α}
    (h : ∃ q ∈ ps, (g q).isSome = true) (hf : ∀ q ∈ ps, ∀ t ∈ g q, Yields P (f t)) :
    Yields P (required (ps.findSome? g) >>= f) := by
  obtain ⟨t, ht⟩ := Option.isSome_iff_exists.mp (List.findSome?_isSome_iff.mpr h)
  obtain ⟨q, hq, hpicked⟩ := List.exists_of_findSome?_eq_some ht
  rw [ht]
  exact hf q hq t hpicked

theorem mem_of_token? {kind : Terminal} {t : Token} (h : ps.token? kind = some t) :
    .token t ∈ ps ∧ t.kind = kind := by
  obtain ⟨q, hq, hpicked⟩ := List.exists_of_findSome?_eq_some h
  cases q with
  | token own =>
      obtain ⟨hkind, hown⟩ := Option.ite_none_right_eq_some.mp hpicked
      cases hown
      exact ⟨hq, hkind⟩
  | node => cases hpicked

theorem hasToken_iff {kind : Terminal} : ps.hasToken kind = true ↔ Meets ps (.token kind) := by
  constructor
  · intro h
    obtain ⟨t, ht⟩ := Option.isSome_iff_exists.mp h
    obtain ⟨hmem, rfl⟩ := mem_of_token? ht
    exact ⟨_, List.mem_map_of_mem hmem, decide_eq_true rfl⟩
  · intro h
    obtain ⟨q, hq, hsign⟩ := exists_mem_of_meets h
    have hsign := of_decide_eq_true hsign
    refine List.findSome?_isSome_iff.mpr ⟨q, hq, ?_⟩
    cases q with
    | token t => simpa [Piece.sign] using hsign
    | node => cases hsign

theorem yields_firstToken {α : Type} {f : Token → Read α} {P : α → Prop}
    (h : Meets ps (.some Sign.isToken)) (hf : ∀ t, Yields P (f t)) :
    Yields P (required ps.firstToken? >>= f) := by
  obtain ⟨q, hq, hsign⟩ := exists_mem_of_meets h
  refine yields_findSome ⟨q, hq, ?_⟩ fun _ _ t _ => hf t
  cases q with
  | token t => rfl
  | node => cases hsign

section

variable (hps : ∀ p ∈ ps, p.IsGenuine)

include hps

theorem isOf_of_find {p : Piece} (h : ps.find label = some p) : p.IsOf label.valueKind := by
  rw [Pieces.find] at h
  have hsign := List.find?_some h
  exact (hps p (List.mem_of_find?_eq_some h)).isOf (Piece.isLabelled_iff.mp hsign)

theorem yields_find? (label : Nonterminal) {α : Type} {P : α → Prop} {f : Piece → Read α}
    (hf : ∀ p, p.IsOf label.valueKind → Yields P (f p)) :
    Yields (fun r => ∀ a ∈ r, P a) ((ps.find label).mapM f) :=
  yields_mapM_option fun p hp => hf p (isOf_of_find hps hp)

theorem yields_find {α : Type} {P : α → Prop} {f : Piece → Read α} (h : Meets ps (.node label))
    (hf : ∀ p, p.IsOf label.valueKind → Yields P (f p)) :
    Yields P (required (ps.find label) >>= f) := by
  obtain ⟨q, hq, hsign⟩ := exists_mem_of_meets h
  have hlabel := Piece.isLabelled_iff.mpr (of_decide_eq_true hsign)
  obtain ⟨p, hp⟩ := Option.isSome_iff_exists.mp (List.find?_isSome.mpr ⟨q, hq, hlabel⟩)
  rw [Pieces.find, hp]
  exact hf p (isOf_of_find hps hp)

theorem yields_findAll (label : Nonterminal) {α : Type} {P : α → Prop} {f : Piece → Read α}
    (hf : ∀ p, p.IsOf label.valueKind → Yields P (f p)) :
    Yields (fun bs => bs.length = (ps.findAll label).length ∧ ∀ b ∈ bs, P b)
      ((ps.findAll label).mapM f) := by
  refine yields_mapM fun p hp => ?_
  obtain ⟨hmem, hlabel⟩ := List.mem_filter.mp hp
  exact hf p ((hps p hmem).isOf (Piece.isLabelled_iff.mp hlabel))

theorem yields_nodes {α : Type} {P : α → Prop} {f : Piece → Read α} {kinds : List ValueKind}
    (h : Meets ps (.nodes kinds)) (hf : ∀ p, (∃ kind ∈ kinds, p.IsOf kind) → Yields P (f p)) :
    Yields (fun bs => bs.length = ps.nodes.length ∧ ∀ b ∈ bs, P b) (ps.nodes.mapM f) := by
  refine yields_mapM fun p hp => ?_
  obtain ⟨hmem, hnode⟩ := List.mem_filter.mp hp
  have hsign := h p.sign (List.mem_map_of_mem hmem)
  rw [Piece.isNode_eq, Sign.isNode, Bool.not_eq_true'] at hnode
  refine hf p ((hps p hmem).exists_isOf ?_)
  simpa [hnode] using hsign

theorem yields_firstNode {α : Type} {P : α → Prop} {f : Piece → Read α} {kinds : List ValueKind}
    (h : Meets ps (.firstNode kinds)) (hf : ∀ p, (∃ kind ∈ kinds, p.IsOf kind) → Yields P (f p)) :
    Yields P (required ps.nodes.head? >>= f) := by
  obtain ⟨q, hq, hfind, hsign⟩ := exists_find?_of_meets h
  rw [nodes_eq, List.head?_filter, hfind]
  exact hf q ((hps q hq).exists_isOf hsign)

theorem yields_nodes_single {α : Type} {P : α → Prop} {f : Piece → Read α} {kind : ValueKind}
    (h : Meets ps (.nodes [kind])) (hf : ∀ p, p.IsOf kind → Yields P (f p)) :
    Yields (fun bs => bs.length = ps.nodes.length ∧ ∀ b ∈ bs, P b) (ps.nodes.mapM f) := by
  refine yields_nodes hps h ?_
  rintro p ⟨other, hother, hp⟩
  rw [List.mem_singleton.mp hother] at hp
  exact hf p hp

theorem yields_firstNode_single {α : Type} {P : α → Prop} {f : Piece → Read α} {kind : ValueKind}
    (h : Meets ps (.firstNode [kind])) (hf : ∀ p, p.IsOf kind → Yields P (f p)) :
    Yields P (required ps.nodes.head? >>= f) := by
  refine yields_firstNode hps h ?_
  rintro p ⟨other, hother, hp⟩
  rw [List.mem_singleton.mp hother] at hp
  exact hf p hp

theorem yields_lastNode {α : Type} {P : α → Prop} {f : Piece → Read α} {kind : ValueKind}
    (h : Meets ps (.lastNode [kind])) (hf : ∀ p, p.IsOf kind → Yields P (f p)) :
    Yields P (required ps.nodes.getLast? >>= f) := by
  obtain ⟨s, hs, hsign⟩ := h
  rw [← List.map_reverse, List.find?_map, Option.map_eq_some_iff] at hs
  obtain ⟨q, hq, rfl⟩ := hs
  have hmem := List.mem_reverse.mp (List.mem_of_find?_eq_some hq)
  have hlast : ps.nodes.getLast? = some q := by
    rw [nodes_eq, List.getLast?_eq_head?_reverse, ← List.filter_reverse, List.head?_filter]
    exact hq
  rw [hlast]
  exact hf q ((hps q hmem).isOf_single hsign)

theorem yields_beside {labels : List Nonterminal} (h : Meets ps (.beside labels .type)) :
    Yields (fun t => t.isComplete = true) (typeBeside labels ps) := by
  obtain ⟨q, hq, hfind, hsign⟩ := exists_find?_of_meets h
  have hbeside :
      (ps.nodes.find? fun p => !labels.any fun label => p.isLabelled label) = some q := by
    rw [nodes_eq, List.find?_filter, ← hfind]
    congr 1
    funext p
    cases p with
    | token t => rfl
    | node own loc tokens value =>
        rw [Bool.decide_and, Bool.decide_eq_true, Bool.decide_eq_true]
        rfl
  rw [typeBeside, hbeside]
  exact (hps q hq).isOf_single hsign

theorem yields_wordOf (h : Meets ps (.node label)) (hkind : label.valueKind = .word) :
    Yields (fun _ => True) (wordOf label ps) := by
  refine yields_find hps h fun p hp => ?_
  rw [hkind] at hp
  exact hp

theorem yields_nameOf (h : Meets ps (.node .identifier)) : Yields (fun _ => True) (nameOf ps) :=
  yields_wordOf hps h rfl

theorem yields_segmentsOf (h : Meets ps (.node .entityName)) : Yields (· ≠ []) (segmentsOf ps) :=
  yields_find hps h fun _ hp => hp

theorem yields_decode {t : Token} (h : .token t ∈ ps) (hkind : t.kind = .string) :
    Yields (fun _ => True) (StringLiteral.decode t.text) := hps (.token t) h hkind

theorem yields_stringOf (h : Meets ps (.token .string)) : Yields (fun _ => True) (stringOf ps) := by
  obtain ⟨t, ht⟩ := Option.isSome_iff_exists.mp (hasToken_iff.mpr h)
  obtain ⟨hmem, hkind⟩ := mem_of_token? ht
  rw [stringOf, ht]
  exact yields_decode hps hmem hkind

theorem yields_keyOf (h : Meets ps (.node .propertyKey)) :
    Yields (fun key => key.isThere = true) (keyOf ps) :=
  yields_find hps h fun _ hp => hp

theorem yields_paramsOf : Yields (fun ps => Param.areComplete ps = true) (paramsOf ps) := by
  refine (yields_find? hps .parameters fun _ hp => hp).bind fun found h => ?_
  refine yields_pure ?_
  cases found with
  | none => rfl
  | some params => exact h params rfl

theorem yields_typeParamsOf : Yields (fun _ => True) (typeParamsOf ps) := by
  refine (yields_find? hps .typeParameters fun _ hp => hp).bind fun found _ => ?_
  exact yields_pure trivial

theorem yields_argsOf : Yields (fun ts => TypeExpr.areComplete ts = true) (argsOf ps) := by
  refine (yields_find? hps .typeArguments fun _ hp => hp).bind fun found h => ?_
  refine yields_pure ?_
  cases found with
  | none => rfl
  | some types => exact h types rfl

theorem yields_annotatedOf :
    Yields (fun t => TypeExpr.isCompleteIn t = true) (annotatedOf ps) :=
  (yields_find? hps .annotatedType fun _ hp => hp).mono
    fun _ h => TypeExpr.isCompleteIn_iff.mpr h

theorem yields_resultOf : Yields (fun t => TypeExpr.isCompleteIn t = true) (resultOf ps) :=
  (yields_find? hps .annotatedResult fun _ hp => hp).mono
    fun _ h => TypeExpr.isCompleteIn_iff.mpr h

theorem yields_signatureOf : Yields (fun s => s.isComplete = true) (signatureOf ps) := by
  refine (yields_paramsOf hps).bind fun params hparams => ?_
  refine (yields_resultOf hps).bind fun result hresult => ?_
  refine (yields_typeParamsOf hps).bind fun typeParams _ => yields_pure ?_
  rw [Signature.isComplete, hparams, hresult]
  rfl

theorem yields_firstType (h : Meets ps (.firstNode [.type])) :
    Yields (fun t => t.isComplete = true) (firstType ps) :=
  yields_firstNode_single hps h fun _ hp => hp

theorem yields_lastType (h : Meets ps (.lastNode [.type])) :
    Yields (fun t => t.isComplete = true) (lastType ps) :=
  yields_lastNode hps h fun _ hp => hp

theorem yields_allTypes (h : Meets ps (.nodes [.type])) :
    Yields (fun ts => ts.length = ps.nodes.length ∧ TypeExpr.areComplete ts = true)
      (allTypes ps) :=
  (yields_nodes_single hps h fun _ hp => hp).mono
    fun _ hts => ⟨hts.1, TypeExpr.areComplete_iff.mpr hts.2⟩

omit hps in
theorem yields_reference {segments : List Text} (hne : segments ≠ []) {args : List TypeExpr}
    (hargs : TypeExpr.areComplete args = true) (loc : Option Location) :
    Yields (fun t => t.isComplete = true) (reference segments args loc) := by
  rw [reference]
  split
  · rename_i hlast
    exact absurd (List.getLast?_eq_none_iff.mp hlast) hne
  · dsimp only
    split
    · split
      · exact yields_pure rfl
      · split
        · exact yields_pure rfl
        · split <;> exact yields_pure rfl
    · refine yields_pure ?_
      rwa [TypeExpr.isComplete]

theorem yields_literal (h : Meets ps (.some fun s => s.isToken && s ≠ .token .minus)) :
    Yields (fun t => t.isComplete = true) (literal loc ps) := by
  obtain ⟨q, hq, hsign⟩ := exists_mem_of_meets h
  refine yields_findSome ⟨q, hq, ?_⟩ fun p hp t ht => ?_
  · cases q with
    | token t => simpa [Piece.sign, Sign.isToken] using hsign
    | node => cases hsign
  · split
    · rename_i hkind
      have hmem : .token t ∈ ps := by
        cases p with
        | token own =>
            obtain ⟨_, hown⟩ := Option.ite_none_left_eq_some.mp ht
            cases hown
            exact hp
        | node => cases ht
      exact (yields_decode hps hmem hkind).bind fun value _ => yields_pure rfl
    · exact yields_pure rfl
    · exact yields_pure rfl

theorem yields_typeReference (h : Meets ps (.node .entityName)) :
    Yields (fun t => t.isComplete = true) (typeReference loc ps) := by
  refine (yields_segmentsOf hps h).bind fun segments hsegments => ?_
  exact (yields_argsOf hps).bind fun args hargs => yields_reference hsegments hargs loc

theorem yields_functionType (h : Meets ps (.lastNode [.type])) :
    Yields (fun t => t.isComplete = true) (functionType loc ps) := by
  refine (yields_paramsOf hps).bind fun params hparams => ?_
  refine (yields_lastType hps h).bind fun result hresult => ?_
  refine (yields_typeParamsOf hps).bind fun typeParams _ => yields_pure ?_
  rw [TypeExpr.isComplete, TypeExpr.isCompleteIn, hparams, hresult]
  rfl

theorem yields_constructorType (h : Meets ps (.lastNode [.type])) :
    Yields (fun t => t.isComplete = true) (constructorType loc ps) := by
  refine (yields_paramsOf hps).bind fun params _ => ?_
  refine (yields_lastType hps h).bind fun result _ => ?_
  exact (yields_typeParamsOf hps).bind fun typeParams _ => yields_pure rfl

omit hps in
theorem length_nodes {number : Nat} (h : Meets ps (.count Sign.isNode number)) :
    ps.nodes.length = number := by
  rw [nodes_eq, ← List.countP_eq_length_filter, ← h, List.countP_map]
  rfl

theorem yields_conditionalType (hnodes : Meets ps (.nodes [.type]))
    (hcount : Meets ps (.count Sign.isNode 4)) :
    Yields (fun t => t.isComplete = true) (conditionalType loc ps) := by
  refine (yields_allTypes hps hnodes).bind fun ts hts => ?_
  have hlength := hts.1.trans (length_nodes hcount)
  match ts, hlength with
  | [check, bound, whenTrue, whenFalse], _ => exact yields_pure rfl

theorem yields_indexedType (hnodes : Meets ps (.nodes [.type]))
    (hcount : Meets ps (.count Sign.isNode 2)) :
    Yields (fun t => t.isComplete = true) (indexedType loc ps) := by
  refine (yields_allTypes hps hnodes).bind fun ts hts => ?_
  have hlength := hts.1.trans (length_nodes hcount)
  match ts, hlength with
  | [object, index], _ => exact yields_pure rfl

theorem yields_typeOperator (htoken : Meets ps (.some Sign.isToken))
    (hfirst : Meets ps (.firstNode [.type])) :
    Yields (fun t => t.isComplete = true) (typeOperator loc ps) :=
  yields_firstToken htoken fun _ =>
    (yields_firstType hps hfirst).bind fun _ _ => yields_pure rfl

theorem yields_mappedType (hname : Meets ps (.node .identifier))
    (hbeside : Meets ps (.beside
      [.identifier, .mappedReadonly, .mappedAs, .mappedOptional, .annotatedType] .type)) :
    Yields (fun t => t.isComplete = true) (mappedType loc ps) := by
  refine (yields_nameOf hps hname).bind fun name _ => ?_
  refine (yields_beside hps hbeside).bind fun constraint _ => ?_
  exact (yields_annotatedOf hps).bind fun value _ => yields_pure rfl

theorem yields_importType (h : Meets ps (.token .string)) :
    Yields (fun t => t.isComplete = true) (importType loc ps) := by
  refine (yields_stringOf hps h).bind fun specifier _ => ?_
  refine (yields_find? hps .entityName fun _ hp => hp).bind fun qualifier _ => ?_
  exact (yields_argsOf hps).bind fun args _ => yields_pure rfl

theorem yields_typePredicate (hname : Meets ps (.node .identifier))
    (hlater : Meets ps (.later Sign.isNode (Sign.isOf [.type]))) :
    Yields (fun t => t.isComplete = true) (typePredicate loc ps) := by
  refine (yields_nameOf hps hname).bind fun name _ => ?_
  have hbound : Yields (fun r => ∀ t ∈ r, t.isComplete = true)
      ((ps.nodes.drop 1).head?.mapM type) := by
    refine yields_mapM_option fun p hp => ?_
    have hdrop := List.mem_of_mem_head? hp
    have hmem := (List.mem_filter.mp (List.mem_of_mem_drop hdrop)).1
    refine (hps p hmem).isOf_single (hlater p.sign ?_)
    rw [List.filter_map, ← List.map_drop]
    refine List.mem_map_of_mem ?_
    rwa [nodes_eq] at hdrop
  exact hbound.bind fun bound _ => yields_pure rfl

theorem yields_namedElement (h : Meets ps (.lastNode [.type])) :
    Yields (fun t => t.isComplete = true) (namedElement loc ps) := by
  refine (yields_lastType hps h).bind fun inner hinner => yields_pure ?_
  split
  · rwa [TypeExpr.isComplete]
  · exact hinner

theorem yields_objectType (h : Meets ps (.node .typeBody)) :
    Yields (fun t => t.isComplete = true) (do
      let p ← required (ps.find .typeBody)
      let members ← members p
      return TypeExpr.object members loc) := by
  refine yields_find hps h fun p hp => ?_
  refine Yields.bind hp fun members hmembers => yields_pure ?_
  rwa [TypeExpr.isComplete]

theorem yields_parameter (isRest : Bool)
    (h : Meets ps (.some (Sign.isAmong [.identifier, .objectPattern, .arrayPattern]))) :
    Yields (fun p => p.isComplete = true) (parameter isRest loc ps) := by
  obtain ⟨q, hq, hsign⟩ := exists_mem_of_meets h
  have hsome : (ps.nodes.find? fun p => p.isLabelled .identifier || p.isLabelled .objectPattern ||
      p.isLabelled .arrayPattern).isSome = true := by
    refine List.find?_isSome.mpr ⟨q, ?_, ?_⟩
    · cases q with
      | token => cases hsign
      | node => exact List.mem_filter.mpr ⟨hq, rfl⟩
    · cases q with
      | token => cases hsign
      | node => simpa [Piece.sign, Sign.isAmong, Piece.isLabelled, or_assoc] using hsign
  obtain ⟨p, hp⟩ := Option.isSome_iff_exists.mp hsome
  have hmem := (List.mem_filter.mp (List.mem_of_find?_eq_some hp)).1
  have hpattern : Yields (· ≠ .absent) (pattern p) := by
    have hlabels := List.find?_some hp
    simp only [Bool.or_eq_true, Piece.isLabelled_iff] at hlabels
    rcases hlabels with (hlabel | hlabel) | hlabel
    · exact Piece.yields_pattern (Or.inl ((hps p hmem).isOf hlabel))
    · exact Piece.yields_pattern (Or.inr ((hps p hmem).isOf hlabel))
    · exact Piece.yields_pattern (Or.inr ((hps p hmem).isOf hlabel))
  rw [parameter, hp]
  refine (yields_annotatedOf hps).bind fun annotated hannotated => ?_
  refine hpattern.bind fun pattern hpattern => yields_pure ?_
  simp [Param.isComplete, hpattern, hannotated]

theorem yields_typeParameter (h : Meets ps (.node .identifier)) :
    Yields (fun _ => True) (typeParameter loc ps) := by
  refine (yields_nameOf hps h).bind fun name _ => ?_
  refine (yields_find? hps .typeConstraint fun _ hp => hp).bind fun constraint _ => ?_
  exact (yields_find? hps .typeDefault fun _ hp => hp).bind fun default _ => yields_pure trivial

theorem yields_computedText (h : Meets ps (.some fun s => s.isToken || s = .node .entityName)) :
    Yields (fun _ => True) (computedText ps) := by
  rw [computedText]
  split
  · rename_i p hp
    exact Yields.bind (isOf_of_find hps hp) fun segments _ => yields_pure trivial
  · rename_i hnone
    obtain ⟨q, hq, hsign⟩ := exists_mem_of_meets h
    refine yields_firstToken ⟨q.sign, List.mem_map_of_mem hq, ?_⟩ fun t => yields_pure trivial
    rcases Bool.or_eq_true_iff.mp hsign with htoken | hentity
    · exact htoken
    · have hfound := List.find?_eq_none.mp hnone q hq
      exact absurd (Piece.isLabelled_iff.mpr (of_decide_eq_true hentity)) hfound

theorem yields_propertyKey
    (h : Meets ps (.first (fun _ => true)
      fun s => s.isToken || s = .node .computedKey || s.isOf [.word])) :
    Yields (fun key => key.isThere = true) (propertyKey loc ps) := by
  obtain ⟨q, hq, hhead, hsign⟩ := exists_head?_of_meets h
  rw [propertyKey, hhead]
  change Yields _ (pure q >>= _)
  rw [pure_bind]
  split
  · rename_i t
    split
    · rename_i hkind
      exact (yields_decode hps hq hkind).bind fun value _ => yields_pure rfl
    · exact yields_pure rfl
    · exact yields_pure rfl
    · exact yields_pure rfl
  · have hname : Yields (fun _ => True) _ := (hps _ hq).isOf rfl
    exact hname.bind fun value _ => yields_pure rfl
  · rename_i hnotToken hnotComputed
    have hword : Yields (fun _ => True) (word q) := by
      cases q with
      | token t => exact (hnotToken t rfl).elim
      | node own place tokens value =>
          rcases Bool.or_eq_true_iff.mp hsign with hcomputed | hword
          · -- a computed key has a text, so its case came before
            obtain rfl : own = .computedKey := by simpa [Piece.sign, Sign.isToken] using hcomputed
            obtain ⟨text, htext, _⟩ : Yields (fun _ => True) (exportName _) := (hps _ hq).isOf rfl
            rw [exportName] at htext
            split at htext
            · rename_i hvalue
              exact (hnotComputed place tokens _ (by rw [← hvalue]; rfl)).elim
            · cases htext
          · exact (hps _ hq).isOf_single hword
    exact hword.bind fun value _ => yields_pure rfl

theorem yields_moduleExportName
    (h : Meets ps (.first (fun _ => true) fun s => s = .token .string || s.isOf [.word])) :
    Yields (fun _ => True) (moduleExportName ps) := by
  obtain ⟨q, hq, hhead, hsign⟩ := exists_head?_of_meets h
  rw [moduleExportName, hhead]
  cases q with
  | token t =>
      refine yields_decode hps hq ?_
      simpa [Piece.sign, Sign.isOf] using hsign
  | node label loc tokens value =>
      exact (hps _ hq).isOf_single (by simpa [Piece.sign] using hsign)

theorem yields_indexMember (isReadonly isStatic : Bool) (hname : Meets ps (.node .identifier))
    (hbeside : Meets ps (.beside [.identifier, .annotatedType, .memberModifier] .type)) :
    Yields (fun m => m.isComplete = true ∧ m.isOfClass = true)
      (indexMember isReadonly isStatic loc ps) := by
  have hparam : Yields (fun _ => True) (indexParam ps) := by
    refine (yields_nameOf hps hname).bind fun name _ => ?_
    exact (yields_beside hps hbeside).bind fun type _ => yields_pure trivial
  refine hparam.bind fun param _ => ?_
  exact (yields_annotatedOf hps).bind fun annotated _ => yields_pure ⟨rfl, rfl⟩

theorem yields_methodMember (h : Meets ps (.node .propertyKey)) :
    Yields (fun m => m.isComplete = true ∧ m.isOfClass = true) (methodMember loc ps) := by
  refine (yields_keyOf hps h).bind fun key hkey => ?_
  refine (yields_paramsOf hps).bind fun params hparams => ?_
  split
  · refine yields_pure ⟨?_, rfl⟩
    rw [Member.isComplete, hkey, hparams]
    rfl
  · refine (yields_signatureOf hps).bind fun signature hsignature => yields_pure ⟨?_, rfl⟩
    rw [Member.isComplete, hkey, hsignature]
    rfl

theorem yields_accessorMember (h : Meets ps (.node .propertyKey)) :
    Yields (fun m => m.isComplete = true ∧ m.isOfClass = true) (accessorMember loc ps) := by
  refine (yields_keyOf hps h).bind fun key hkey => ?_
  refine (yields_find? hps .parameter fun _ hp => hp).bind fun param hparam => ?_
  refine (yields_resultOf hps).bind fun result hresult => yields_pure ⟨?_, rfl⟩
  have hparams : Param.areComplete param.toList = true :=
    Param.areComplete_iff.mpr fun p hp => hparam p (Option.mem_toList.mp hp)
  rw [Member.isComplete, Signature.isComplete, hkey, hparams, hresult]
  rfl

theorem yields_propertyMember (h : Meets ps (.node .propertyKey)) :
    Yields (fun m => m.isComplete = true ∧ m.isOfClass = true) (propertyMember loc ps) := by
  refine (yields_keyOf hps h).bind fun key hkey => ?_
  refine (yields_annotatedOf hps).bind fun annotated hannotated => yields_pure ⟨?_, rfl⟩
  rw [Member.isComplete, hkey, hannotated]
  rfl

theorem yields_propertySignature (h : Meets ps (.node .propertyKey)) :
    Yields (fun m => m.isComplete = true) (propertySignature loc ps) := by
  refine (yields_keyOf hps h).bind fun key hkey => ?_
  refine (yields_annotatedOf hps).bind fun annotated hannotated => yields_pure ?_
  rw [Member.isComplete, hkey, hannotated]
  rfl

theorem yields_methodSignature (h : Meets ps (.node .propertyKey)) :
    Yields (fun m => m.isComplete = true) (methodSignature loc ps) := by
  refine (yields_keyOf hps h).bind fun key hkey => ?_
  refine (yields_signatureOf hps).bind fun signature hsignature => yields_pure ?_
  rw [Member.isComplete, hkey, hsignature]
  rfl

theorem yields_getterSignature (h : Meets ps (.node .propertyKey)) :
    Yields (fun m => m.isComplete = true) (getterSignature loc ps) := by
  refine (yields_keyOf hps h).bind fun key hkey => ?_
  refine (yields_resultOf hps).bind fun result hresult => yields_pure ?_
  rw [Member.isComplete, hkey, hresult]
  rfl

theorem yields_setterSignature (h : Meets ps (.node .propertyKey))
    (hparameter : Meets ps (.node .parameter)) :
    Yields (fun m => m.isComplete = true) (setterSignature loc ps) := by
  refine (yields_keyOf hps h).bind fun key hkey => ?_
  refine yields_find hps hparameter fun p hp => ?_
  refine Yields.bind hp fun param hparam => yields_pure ?_
  rw [Member.isComplete, hkey, hparam]
  rfl

theorem yields_classMembers (h : Meets ps (.nodes [.classMember])) (ended : Bool) :
    Yields (fun ms => ∀ m ∈ ms, m.isComplete = true ∧ m.isOfClass = true)
      (classMembers ended ps) := by
  induction ps generalizing ended with
  | nil => exact yields_pure (List.forall_mem_nil _)
  | cons p rest ih =>
      obtain ⟨hp, hrest⟩ := List.forall_mem_cons.mp hps
      obtain ⟨hsign, hsigns⟩ := List.forall_mem_cons.mp h
      cases p with
      | token t =>
          rw [classMembers]
          split
          · refine (ih hrest hsigns true).bind fun tail htail => yields_pure ?_
            split
            · exact List.forall_mem_cons.mpr ⟨⟨rfl, rfl⟩, htail⟩
            · exact htail
          · exact ih hrest hsigns ended
      | node label place tokens value =>
          have hmember : (Piece.node label place tokens value).IsOf .classMember :=
            hp.isOf_single hsign
          obtain ⟨m, hm, hcomplete⟩ := hmember
          cases value with
          | member own isEnded =>
              obtain rfl : own = .ok m := hm
              rw [classMembers]
              refine (ih hrest hsigns isEnded).bind fun tail htail => yields_pure ?_
              exact List.forall_mem_cons.mpr ⟨hcomplete, htail⟩
          | _ => cases hm

theorem yields_typeBody (h : Meets ps (.nodes [.typeMember])) :
    Yields (fun ms => Member.areComplete ms = true) (ps.nodes.mapM member) :=
  (yields_nodes_single hps h fun _ hp => hp).mono fun _ hms => Member.areComplete_iff.mpr hms.2

theorem yields_heritageOf (h : Meets ps (.node .entityName)) :
    Yields (fun _ => True) (heritageOf loc ps) := by
  refine (yields_segmentsOf hps h).bind fun segments _ => ?_
  exact (yields_argsOf hps).bind fun args _ => yields_pure trivial

theorem yields_classDeclaration (h : Meets ps (.node .classBody)) :
    Yields (fun d => d.isComplete = true) (classDeclaration loc ps) := by
  refine (yields_find? hps .identifier fun _ hp => hp).bind fun name _ => ?_
  refine (yields_typeParamsOf hps).bind fun typeParams _ => ?_
  refine (yields_find? hps .classExtends fun _ hp => hp).bind fun superClass _ => ?_
  refine (yields_find? hps .classImplements fun _ hp => hp).bind fun interfaces _ => ?_
  refine yields_find hps h fun body hbody => ?_
  refine Yields.bind hbody fun members hmembers => yields_pure ?_
  rw [Declaration.isComplete, List.all_eq_true]
  exact fun m hm => Bool.and_eq_true_iff.mpr (hmembers m hm)

theorem yields_functionDeclaration :
    Yields (fun d => d.isComplete = true) (functionDeclaration loc ps) := by
  refine (yields_find? hps .identifier fun _ hp => hp).bind fun name _ => ?_
  refine (yields_signatureOf hps).bind fun signature hsignature => yields_pure ?_
  rwa [Declaration.isComplete]

theorem yields_declaratorOf (h : Meets ps (.firstNode [.word, .pattern])) :
    Yields (fun d => d.isComplete = true) (declaratorOf loc ps) := by
  refine yields_firstNode hps h ?_
  rintro p ⟨kind, hkind, hp⟩
  have hpattern : Yields (· ≠ .absent) (pattern p) := by
    apply Piece.yields_pattern
    rcases List.mem_pair.mp hkind with rfl | rfl
    · exact Or.inl hp
    · exact Or.inr hp
  refine hpattern.bind fun pattern hpattern => ?_
  refine (yields_annotatedOf hps).bind fun annotated hannotated => yields_pure ?_
  simp [Declarator.isComplete, hpattern, hannotated]

theorem yields_variableDeclaration (h : Meets ps (.node .variableKind)) :
    Yields (fun d => d.isComplete = true) (variableDeclaration loc ps) := by
  refine (yields_findAll hps .declarator fun _ hp => hp).bind
    fun declarators hdeclarators => ?_
  refine (yields_wordOf hps h rfl).bind fun kind _ => yields_pure ?_
  rw [Declaration.isComplete, List.all_eq_true]
  exact hdeclarators.2

theorem yields_aliasDeclaration (hname : Meets ps (.node .identifier))
    (hlast : Meets ps (.lastNode [.type])) :
    Yields (fun d => d.isComplete = true) (aliasDeclaration loc ps) := by
  refine (yields_nameOf hps hname).bind fun name _ => ?_
  refine (yields_typeParamsOf hps).bind fun typeParams _ => ?_
  refine (yields_lastType hps hlast).bind fun type htype => yields_pure ?_
  rwa [Declaration.isComplete]

theorem yields_interfaceDeclaration (hname : Meets ps (.node .identifier))
    (hbody : Meets ps (.node .typeBody)) :
    Yields (fun d => d.isComplete = true) (interfaceDeclaration loc ps) := by
  refine (yields_find? hps .interfaceExtends fun _ hp => hp).bind fun bases _ => ?_
  refine (yields_nameOf hps hname).bind fun name _ => ?_
  refine yields_find hps hbody fun p hp => ?_
  refine Yields.bind hp fun body hmembers => ?_
  refine (yields_typeParamsOf hps).bind fun typeParams _ => yields_pure ?_
  rwa [Declaration.isComplete]

theorem yields_enumMemberOf (h : Meets ps (.node .propertyKey)) :
    Yields (fun _ => True) (enumMemberOf loc ps) :=
  (yields_keyOf hps h).bind fun _ _ => yields_pure trivial

theorem yields_enumDeclaration (h : Meets ps (.node .identifier)) :
    Yields (fun d => d.isComplete = true) (enumDeclaration loc ps) := by
  refine (yields_findAll hps .enumMember fun _ hp => hp).bind fun members _ => ?_
  refine (yields_nameOf hps h).bind fun name _ => yields_pure ?_
  rw [Declaration.isComplete]

omit hps in
theorem isComplete_nest {body : NamespaceBody} (h : body.isComplete = true)
    (loc : Option Location) (name : Text) (rest : List Text) :
    (nest loc body name rest).isComplete = true := by
  cases rest with
  | nil => rwa [nest, Namespace.isComplete]
  | cons next more => rw [nest, Namespace.isComplete, NamespaceBody.isComplete]; nofun

theorem yields_namespaceDeclaration
    (h : Meets ps (.some fun s => s = .token .string || s = .node .entityName)) :
    Yields (fun d => d.isComplete = true) (namespaceDeclaration loc ps) := by
  refine (yields_find? hps .namespaceBlock fun _ hp => hp).bind fun found hfound => ?_
  have hbody : (found.getD .missing).isComplete = true := by
    cases found with
    | none => rfl
    | some body => exact hfound body rfl
  dsimp only
  split
  · rename_i hstring
    refine (yields_stringOf hps (hasToken_iff.mp hstring)).bind fun name _ => yields_pure ?_
    rwa [Declaration.isComplete, Namespace.isComplete]
  · rename_i hstring
    have hentity : Meets ps (.node .entityName) := by
      obtain ⟨s, hs, hsign⟩ := h
      refine ⟨s, hs, (Bool.or_eq_true_iff.mp hsign).resolve_left fun htoken => ?_⟩
      exact hstring (hasToken_iff.mpr ⟨s, hs, htoken⟩)
    refine (yields_segmentsOf hps hentity).bind fun segments hsegments => ?_
    match segments, hsegments with
    | name :: rest, _ =>
        refine yields_pure ?_
        rw [Declaration.isComplete]
        exact isComplete_nest hbody loc name rest

theorem yields_globalDeclaration (h : Meets ps (.node .namespaceBlock)) :
    Yields (fun d => d.isComplete = true) (globalDeclaration loc ps) := by
  refine yields_find hps h fun p hp => Yields.bind hp fun body hbody => yields_pure ?_
  rwa [Declaration.isComplete, Namespace.isComplete]

theorem yields_importSpecifierOf (h : Meets ps (.node .moduleExportName)) :
    Yields (fun _ => True) (importSpecifierOf loc ps) := by
  refine yields_find hps h fun p hp => Yields.bind hp fun exported _ => ?_
  refine (yields_find? hps .identifier fun _ hp => hp).bind fun name _ => ?_
  cases name <;> exact yields_pure trivial

theorem yields_importDeclaration (h : Meets ps (.token .string)) :
    Yields (fun s => s.isComplete = true) (importDeclaration loc ps) := by
  refine (yields_stringOf hps h).bind fun source _ => ?_
  exact (yields_find? hps .importClause fun _ hp => hp).bind fun specifiers _ => yields_pure rfl

theorem yields_importBare (h : Meets ps (.token .string)) :
    Yields (fun s => s.isComplete = true) (importBare loc ps) :=
  (yields_stringOf hps h).bind fun _ _ => yields_pure rfl

theorem yields_importAlias (hname : Meets ps (.node .identifier))
    (htarget : Meets ps (.some (Sign.isAmong [.requireCall, .entityName]))) :
    Yields (fun s => s.isComplete = true) (importAlias loc ps) := by
  refine (yields_nameOf hps hname).bind fun name _ => ?_
  dsimp only
  split
  · rename_i p hp
    obtain ⟨specifier, hspecifier, _⟩ : Yields (fun _ => True) (requiredModule p) :=
      isOf_of_find hps hp
    rw [hspecifier]
    exact yields_pure rfl
  · rename_i hnone
    have hentity : Meets ps (.node .entityName) := by
      obtain ⟨q, hq, hsign⟩ := exists_mem_of_meets htarget
      refine ⟨q.sign, List.mem_map_of_mem hq, ?_⟩
      have hother := List.find?_eq_none.mp hnone q hq
      cases q with
      | token => cases hsign
      | node own =>
          simp only [Piece.isLabelled, decide_eq_true_eq] at hother
          simpa [Piece.sign, Sign.isAmong, hother] using hsign
    obtain ⟨segments, hsegments, _⟩ := yields_segmentsOf hps hentity
    rw [hsegments]
    exact yields_pure rfl

theorem yields_exportSpecifierOf (h : Meets ps (.node .moduleExportName)) :
    Yields (fun _ => True) (exportSpecifierOf loc ps) := by
  refine (yields_findAll hps .moduleExportName fun _ hp => hp).bind fun names hnames => ?_
  match names, hnames.1 with
  | name :: rest, _ => exact yields_pure trivial
  | [], hlength =>
      exfalso
      obtain ⟨q, hq, hsign⟩ := exists_mem_of_meets h
      have hmem : q ∈ ps.findAll .moduleExportName :=
        List.mem_filter.mpr ⟨hq, Piece.isLabelled_iff.mpr (of_decide_eq_true hsign)⟩
      rw [List.length_nil] at hlength
      rw [List.length_eq_zero_iff.mp hlength.symm] at hmem
      cases hmem

theorem yields_exportNamed : Yields (fun s => s.isComplete = true) (exportNamed loc ps) := by
  refine (yields_findAll hps .exportSpecifier fun _ hp => hp).bind
    fun specifiers _ => ?_
  have hsource : Yields (fun r => ∀ text ∈ r, True)
      ((ps.token? .string).mapM fun t => StringLiteral.decode t.text) := by
    refine yields_mapM_option fun t ht => ?_
    obtain ⟨hmem, hkind⟩ := mem_of_token? ht
    exact yields_decode hps hmem hkind
  exact hsource.bind fun source _ => yields_pure rfl

theorem yields_exportNamespaceFrom (hname : Meets ps (.node .moduleExportName))
    (hstring : Meets ps (.token .string)) :
    Yields (fun s => s.isComplete = true) (exportNamespaceFrom loc ps) := by
  refine yields_find hps hname fun p hp => Yields.bind hp fun exported _ => ?_
  exact (yields_stringOf hps hstring).bind fun source _ => yields_pure rfl

theorem yields_exportAll (h : Meets ps (.token .string)) :
    Yields (fun s => s.isComplete = true) (exportAll loc ps) :=
  (yields_stringOf hps h).bind fun _ _ => yields_pure rfl

theorem yields_exportDefaultName (h : Meets ps (.node .identifier)) :
    Yields (fun s => s.isComplete = true) (exportDefaultName loc ps) :=
  (yields_nameOf hps h).bind fun _ _ => yields_pure rfl

theorem yields_exportAssignment (h : Meets ps (.node .entityName)) :
    Yields (fun s => s.isComplete = true) (exportAssignment loc ps) :=
  (yields_segmentsOf hps h).bind fun _ _ => yields_pure rfl

theorem yields_exportAsNamespace (h : Meets ps (.node .identifier)) :
    Yields (fun s => s.isComplete = true) (exportAsNamespace loc ps) :=
  (yields_nameOf hps h).bind fun _ _ => yields_pure rfl

theorem yields_firstDeclaration (h : Meets ps (.firstNode [.declaration])) :
    Yields (fun d => d.isComplete = true) (firstDeclaration ps) :=
  yields_firstNode_single hps h fun _ hp => hp

theorem yields_statements (h : Meets ps (.nodes [.declaration, .statement])) :
    Yields (fun ss => Statement.areComplete ss = true) (statements ps) := by
  refine (yields_nodes hps h ?_).mono fun ss hss => Statement.areComplete_iff.mpr hss.2
  rintro p ⟨kind, hkind, hp⟩
  apply Piece.yields_statement
  rcases List.mem_pair.mp hkind with rfl | rfl
  · exact Or.inl hp
  · exact Or.inr hp

theorem yields_clauseSpecifier (kind : ImportKind) (h : Meets ps (.node .identifier)) :
    Yields (fun _ => True) (clauseSpecifier kind loc ps) :=
  (yields_nameOf hps h).bind fun _ _ => yields_pure trivial

omit hps in
theorem isOf_word {label : Nonterminal} (tokens : List Token) (h : Meets ps (.some Sign.isToken)) :
    (Piece.node label loc tokens (match ps.firstToken? with
      | some t => .word t.text
      | none => .nothing)).IsOf .word := by
  obtain ⟨q, hq, hsign⟩ := exists_mem_of_meets h
  have hsome : ps.firstToken?.isSome = true := by
    refine List.findSome?_isSome_iff.mpr ⟨q, hq, ?_⟩
    cases q with
    | token => rfl
    | node => cases hsign
  obtain ⟨t, ht⟩ := Option.isSome_iff_exists.mp hsome
  rw [ht]
  exact yields_pure trivial

theorem isOf_entity {label : Nonterminal} (tokens : List Token)
    (h : Meets ps (.node .identifier)) :
    (Piece.node label loc tokens
      (.entity (ps.nodes.filterMap fun p => (word p).toOption))).IsOf .entity := by
  obtain ⟨q, hq, hsign⟩ := exists_mem_of_meets h
  have hsign := of_decide_eq_true hsign
  obtain ⟨w, hw, _⟩ : Yields (fun _ => True) (word q) := (hps q hq).isOf hsign
  refine yields_pure (List.ne_nil_of_mem (a := w) (List.mem_filterMap.mpr ⟨q, ?_, ?_⟩))
  · cases q with
    | token => cases hsign
    | node => exact List.mem_filter.mpr ⟨hq, rfl⟩
  · rw [hw]
    rfl

omit hps in
theorem isOf_declared {label : Nonterminal} (tokens : List Token) {x : Read Declaration}
    (h : Yields (fun d => d.isComplete = true) x) :
    (Piece.node label loc tokens (declared x)).IsOf .declaration := by
  obtain ⟨d, rfl, hd⟩ := h
  exact ⟨d, rfl, hd⟩

theorem isOf_block {label : Nonterminal} (tokens : List Token)
    (h : Meets ps (.nodes [.declaration, .statement])) :
    (Piece.node label loc tokens (.block (statements ps) loc)).IsOf .block := by
  refine (yields_statements hps h).bind fun ss hss => yields_pure ?_
  rwa [NamespaceBody.isComplete]

/-- A node whose children are genuine and what its label requires is read to a value of the kind
that the label promises. -/
theorem isOf_value {label : Nonterminal} (tokens : List Token)
    (hrequired : ∀ q ∈ requirements label, Meets ps q)
    (hsetter : label = .setterSignature → Meets ps (.node .parameter)) :
    (Piece.node label loc tokens (value label loc ps)).IsOf label.valueKind := by
  have hfirst : ∀ {q rest}, requirements label = q :: rest → Meets ps q :=
    fun h => hrequired _ (h ▸ List.mem_cons_self)
  have hsecond : ∀ {q q' rest}, requirements label = q :: q' :: rest → Meets ps q' :=
    fun h => hrequired _ (h ▸ List.mem_cons_of_mem _ List.mem_cons_self)
  cases label with
  | identifier | reservedWord | variableKind | memberModifier | parameterModifier
  | namespaceKind => exact isOf_word tokens (hfirst rfl)
  | entityName => exact isOf_entity hps tokens (hfirst rfl)
  | moduleExportName => exact yields_moduleExportName hps (hfirst rfl)
  | propertyKey => exact yields_propertyKey hps (hfirst rfl)
  | computedKey => exact yields_computedText hps (hfirst rfl)
  | objectPattern | arrayPattern => exact yields_pure nofun
  | literal => exact yields_literal hps (hfirst rfl)
  | literalType | annotatedType | annotatedResult | typeConstraint | typeDefault =>
      exact yields_firstType hps (hfirst rfl)
  | typeReference => exact yields_typeReference hps (hfirst rfl)
  | parenType | arrayType =>
      refine (yields_firstType hps (hfirst rfl)).map fun t ht => ?_
      rwa [TypeExpr.isComplete]
  | functionType => exact yields_functionType hps (hfirst rfl)
  | constructorType => exact yields_constructorType hps (hfirst rfl)
  | conditionalType => exact yields_conditionalType hps (hfirst rfl) (hsecond rfl)
  | unionOf | intersectionOf | tupleType =>
      refine (yields_allTypes hps (hfirst rfl)).map fun ts hts => ?_
      rw [TypeExpr.isComplete]
      exact hts.2
  | typeOperator => exact yields_typeOperator hps (hfirst rfl) (hsecond rfl)
  | inferType => exact (yields_nameOf hps (hfirst rfl)).map fun _ _ => rfl
  | indexedAccessType => exact yields_indexedType hps (hfirst rfl) (hsecond rfl)
  | tuplePlain => exact yields_lastType hps (hfirst rfl)
  | tupleOptional =>
      refine (yields_lastType hps (hfirst rfl)).map fun t ht => ?_
      rwa [TypeExpr.isComplete]
  | tupleNamed => exact yields_namedElement hps (hfirst rfl)
  | tupleRest | tupleNamedRest => exact (yields_lastType hps (hfirst rfl)).map fun _ _ => rfl
  | objectType => exact yields_objectType hps (hfirst rfl)
  | mappedType => exact yields_mappedType hps (hfirst rfl) (hsecond rfl)
  | typeQuery => exact (yields_segmentsOf hps (hfirst rfl)).map fun _ _ => rfl
  | importType => exact yields_importType hps (hfirst rfl)
  | typePredicate => exact yields_typePredicate hps (hfirst rfl) (hsecond rfl)
  | typeArguments => exact (yields_allTypes hps (hfirst rfl)).mono fun _ h => h.2
  | parameter => exact yields_parameter hps false (hfirst rfl)
  | restParameter => exact yields_parameter hps true (hfirst rfl)
  | parameters =>
      exact (yields_nodes_single hps (hfirst rfl) fun _ hp => hp).mono
        fun _ h => Param.areComplete_iff.mpr h.2
  | typeParameter => exact yields_typeParameter hps (hfirst rfl)
  | typeParameters =>
      exact (yields_findAll hps .typeParameter fun _ hp => hp).mono fun _ _ => trivial
  | methodMember => exact yields_methodMember hps (hfirst rfl)
  | accessorMember => exact yields_accessorMember hps (hfirst rfl)
  | propertyMember => exact yields_propertyMember hps (hfirst rfl)
  | indexMember => exact yields_indexMember hps _ _ (hfirst rfl) (hsecond rfl)
  | staticBlock => exact yields_pure ⟨rfl, rfl⟩
  | propertySignature => exact yields_propertySignature hps (hfirst rfl)
  | methodSignature => exact yields_methodSignature hps (hfirst rfl)
  | callSignature | constructSignature =>
      exact (yields_signatureOf hps).map fun _ _ => rfl
  | getterSignature => exact yields_getterSignature hps (hfirst rfl)
  | setterSignature => exact yields_setterSignature hps (hfirst rfl) (hsetter rfl)
  | indexSignature =>
      exact (yields_indexMember hps _ _ (hfirst rfl) (hsecond rfl)).mono fun _ h => h.1
  | classBody => exact yields_classMembers hps (hfirst rfl) true
  | typeBody => exact yields_typeBody hps (hfirst rfl)
  | heritage => exact yields_heritageOf hps (hfirst rfl)
  | classExtends => exact yields_firstNode_single hps (hfirst rfl) fun _ hp => hp
  | classImplements | interfaceExtends =>
      exact (yields_nodes_single hps (hfirst rfl) fun _ hp => hp).mono fun _ _ => trivial
  | declarator => exact yields_declaratorOf hps (hfirst rfl)
  | enumMember => exact yields_enumMemberOf hps (hfirst rfl)
  | classDeclaration => exact isOf_declared tokens (yields_classDeclaration hps (hfirst rfl))
  | functionDeclaration => exact isOf_declared tokens (yields_functionDeclaration hps)
  | variableDeclaration => exact isOf_declared tokens (yields_variableDeclaration hps (hfirst rfl))
  | aliasDeclaration =>
      exact isOf_declared tokens (yields_aliasDeclaration hps (hfirst rfl) (hsecond rfl))
  | interfaceDeclaration =>
      exact isOf_declared tokens (yields_interfaceDeclaration hps (hfirst rfl) (hsecond rfl))
  | enumDeclaration => exact isOf_declared tokens (yields_enumDeclaration hps (hfirst rfl))
  | namespaceDeclaration =>
      exact isOf_declared tokens (yields_namespaceDeclaration hps (hfirst rfl))
  | globalDeclaration => exact isOf_declared tokens (yields_globalDeclaration hps (hfirst rfl))
  | namespaceBlock | sourceFile => exact isOf_block hps tokens (hfirst rfl)
  | defaultImport | namespaceImport => exact yields_clauseSpecifier hps _ (hfirst rfl)
  | importSpecifier => exact (yields_importSpecifierOf hps (hfirst rfl)).map fun _ _ => trivial
  | namedImports | importClause =>
      exact (yields_nodes_single hps (hfirst rfl) fun _ hp => hp).map fun _ _ => trivial
  | exportSpecifier => exact yields_exportSpecifierOf hps (hfirst rfl)
  | requireCall => exact yields_stringOf hps (hfirst rfl)
  | importDeclaration => exact yields_importDeclaration hps (hfirst rfl)
  | importBare => exact yields_importBare hps (hfirst rfl)
  | importEquals => exact yields_importAlias hps (hfirst rfl) (hsecond rfl)
  | exportDeclaration | exportDefaultDeclaration =>
      refine (yields_firstDeclaration hps (hfirst rfl)).map fun d hd => ?_
      rwa [Statement.isComplete]
  | exportDefaultName => exact yields_exportDefaultName hps (hfirst rfl)
  | exportNamed => exact yields_exportNamed hps
  | exportNamespaceFrom => exact yields_exportNamespaceFrom hps (hfirst rfl) (hsecond rfl)
  | exportAll => exact yields_exportAll hps (hfirst rfl)
  | exportAssignment => exact yields_exportAssignment hps (hfirst rfl)
  | namespaceExport => exact yields_exportAsNamespace hps (hfirst rfl)
  | _ => trivial

end

theorem pieces_eq_map (children : List Concrete) : pieces children = children.map piece := by
  induction children with
  | nil => rfl
  | cons c rest ih => rw [pieces, ih, List.map_cons]

theorem sign_piece (c : Concrete) : (piece c).sign = c.sign := by
  cases c with
  | token t => rfl
  | node label loc children =>
      rw [piece]
      rfl

end Reader

mutual

/-- Whether the parameters of the setters of object types are plain ones: none of them takes the
rest of the arguments. -/
def Concrete.hasPlainSetters : Concrete → Bool
  | .token _ => true
  | .node label _ children =>
    (label ≠ .setterSignature || children.all fun c => c.sign ≠ .node .restParameter) &&
      Concrete.havePlainSetters children

def Concrete.havePlainSetters : List Concrete → Bool
  | [] => true
  | c :: rest => c.hasPlainSetters && Concrete.havePlainSetters rest

end

theorem Concrete.havePlainSetters_iff {cs : List Concrete} :
    Concrete.havePlainSetters cs = true ↔ ∀ c ∈ cs, c.hasPlainSetters = true := by
  induction cs with
  | nil => simp [Concrete.havePlainSetters]
  | cons c rest ih => simp [Concrete.havePlainSetters, ih]

namespace Reader

/-- A formed tree with plain setters is read without fault, if its strings can be decoded. -/
theorem isGenuine_piece {c : Concrete}
    (h : c.IsFormed fun t => t.kind = .string →
      Yields (fun _ => True) (StringLiteral.decode t.text))
    (hsetters : c.hasPlainSetters = true) : (piece c).IsGenuine := by
  induction h with
  | token hstring => exact hstring
  | @node label loc children hrequired _ ih =>
      rw [Concrete.hasPlainSetters, Bool.and_eq_true, Concrete.havePlainSetters_iff] at hsetters
      obtain ⟨hplain, hbelow⟩ := hsetters
      have hgenuine : ∀ p ∈ pieces children, p.IsGenuine := by
        rw [pieces_eq_map]
        exact List.forall_mem_map.mpr fun c hc => ih c hc (hbelow c hc)
      have hsigns : (pieces children).map Piece.sign = children.map Concrete.sign := by
        rw [pieces_eq_map, List.map_map]
        exact List.map_congr_left fun c _ => sign_piece c
      have hmeets : ∀ q ∈ requirements label, Meets (pieces children) q := by
        intro q hq
        rw [Meets, hsigns]
        exact hrequired q hq
      rw [piece]
      refine isOf_value hgenuine _ hmeets ?_
      rintro rfl
      -- the parameter of the setter is there, and it is a plain one
      obtain ⟨s, hs, hsign⟩ := hmeets _ (List.mem_cons_of_mem _ List.mem_cons_self)
      refine ⟨s, hs, ?_⟩
      rw [hsigns] at hs
      obtain ⟨c, hc, rfl⟩ := List.mem_map.mp hs
      have hnotRest : c.sign ≠ .node .restParameter :=
        of_decide_eq_true (List.all_eq_true.mp hplain c hc)
      cases hlabel : c.sign with
      | token kind =>
          rw [hlabel] at hsign
          cases hsign
      | node own =>
          rw [hlabel] at hsign hnotRest
          have hlabels : own = .parameter ∨ own = .restParameter := by
            simpa [Sign.isAmong] using hsign
          rcases hlabels with rfl | rfl
          · exact decide_eq_true rfl
          · exact absurd rfl hnotRest

/-- The module of a file is read from its derivation and is complete. -/
theorem yields_module {tokens : List Token} {d : Grammar.Derivation Terminal Nonterminal}
    {start stop : Nat}
    (hreads : d.Reads grammar (tokens.map (·.kind)) (.category (.named .sourceFile)) start stop)
    (hstrings : ∀ t ∈ tokens, t.kind = .string →
      Yields (fun _ => True) (StringLiteral.decode t.text))
    (hsetters : Concrete.havePlainSetters (Concrete.ofDerivation tokens d) = true) :
    Yields (fun m => m.isComplete = true) (module (Concrete.ofDerivation tokens d)) := by
  obtain ⟨hfits, hformed⟩ := Concrete.formed_ofDerivation hstrings hreads nofun
  have houtline : symbolOutline (.category (.named .sourceFile)) =
      [.one [.node .sourceFile]] := by
    decide +kernel
  rw [houtline] at hfits
  obtain ⟨s, hs, hsigns⟩ := Concrete.fits_singleton hfits
  obtain ⟨tree, htrees, hsign⟩ := List.map_eq_singleton_iff.mp hsigns
  rw [htrees] at hformed hsetters ⊢
  have hgenuine : (piece tree).IsGenuine :=
    isGenuine_piece (hformed tree List.mem_cons_self)
      (Concrete.havePlainSetters_iff.mp hsetters tree List.mem_cons_self)
  have hlabel : (piece tree).sign = .node .sourceFile := by
    rw [sign_piece, hsign, List.mem_singleton.mp hs]
  obtain ⟨body, hbody, hcomplete⟩ : (piece tree).IsOf .block := hgenuine.isOf hlabel
  rw [block] at hbody
  rw [module]
  split at hbody
  · rename_i statements loc _
    cases statements with
    | error fault => cases hbody
    | ok statements =>
        obtain rfl : .block statements loc = body := Except.ok.inj hbody
        refine yields_pure ?_
        rwa [NamespaceBody.isComplete] at hcomplete
  · cases hbody

end Reader

end HostBindings.Source

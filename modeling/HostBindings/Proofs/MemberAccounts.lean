import HostBindings.Proofs.Origins

/-!
Accounts of members. Each member of a class, an interface or an object type that an alias names
gives one function, is hidden, or is dropped with one warning. The types inside a function may give
warnings too, but none of these tells that something was dropped.
-/

namespace HostBindings

/-- Whether a warning tells that a construct is left out of the output. -/
def Warning.tellsDrop (w : Warning) : Bool := w.concern.code = "W-DROPPED"

namespace Outcome

variable {α β : Type}

/-- No warning of the work tells that something was dropped. -/
def DropsNothing (x : Outcome α) : Prop := ∀ w ∈ x.warnings, w.tellsDrop = false

theorem dropsNothing_pure (a : α) : (pure a : Outcome α).DropsNothing := nofun

theorem dropsNothing_fail (cause : Cause) (loc : Option Location) :
    (fail cause loc : Outcome α).DropsNothing := nofun

theorem dropsNothing_breakOff (fault : Fault) : (breakOff fault : Outcome α).DropsNothing := nofun

theorem DropsNothing.bind {x : Outcome α} {f : α → Outcome β} (hx : x.DropsNothing)
    (hf : ∀ a, (f a).DropsNothing) : (x >>= f).DropsNothing := by
  rw [bind_eq, andThen]
  cases x.result with
  | ok a => exact List.forall_mem_append.mpr ⟨hx, hf a⟩
  | error e => exact hx

theorem warnings_bind {x : Outcome α} {a : α} (h : x.result = .ok a) (f : α → Outcome β) :
    (x >>= f).warnings = x.warnings ++ (f a).warnings := by
  rw [bind_eq, andThen, h]

end Outcome

namespace Lowering

open Source Outcome

variable {options : Options} {within : List Text}

theorem dropsNothing_degrade (what : Degraded) (loc : Option Location) :
    (degrade within what loc).DropsNothing := by
  intro w hw
  rw [List.mem_singleton.mp hw]
  rfl

theorem dropsNothing_keywordType (word : Keyword) (loc : Option Location) :
    (keywordType word loc).DropsNothing := by
  cases word with
  | bigint | symbol | intrinsic | other => exact dropsNothing_fail _ _
  | _ => exact dropsNothing_pure _

theorem dropsNothing_importedType (specifier : Text) (qualifier : List Text)
    (loc : Option Location) :
    (importedType options within specifier qualifier loc).DropsNothing := by
  rw [importedType]
  split
  · exact dropsNothing_degrade _ _
  · split
    · exact dropsNothing_degrade _ _
    · exact dropsNothing_pure _

theorem dropsNothing_strayed {α : Type} (cause : Text → Cause) (s : Stray) :
    (strayed cause s : Outcome α).DropsNothing := by
  cases s with
  | node kind loc => exact dropsNothing_fail _ _
  | value => exact dropsNothing_breakOff _

mutual

theorem dropsNothing_mapType (ty : TypeExpr) : (mapType options within ty).DropsNothing := by
  cases ty with
  | keyword word loc => exact dropsNothing_keywordType word loc
  | reference qualifier name args loc =>
      rw [mapType.eq_def]
      dsimp only
      split
      · exact dropsNothing_pure _
      · split
        · split
          · exact dropsNothing_pure _
          · rename_i element rest
            exact (dropsNothing_mapType element).bind fun _ => dropsNothing_pure _
        · split <;> exact dropsNothing_pure _
  | function params result typeParams loc =>
      rw [mapType]
      refine (dropsNothing_mapParams params).bind fun params => ?_
      exact (dropsNothing_mapResult result).bind fun result => dropsNothing_pure _
  | array element loc =>
      rw [mapType]
      exact (dropsNothing_mapType element).bind fun _ => dropsNothing_pure _
  | optional inner loc =>
      rw [mapType]
      exact (dropsNothing_mapType inner).bind fun _ => dropsNothing_pure _
  | union members loc =>
      match members with
      | [] | [_] | _ :: _ :: _ :: _ => exact dropsNothing_degrade _ _
      | [first, second] =>
          rw [mapType]
          split
          · exact (dropsNothing_mapType first).bind fun _ => dropsNothing_pure _
          · split
            · exact (dropsNothing_mapType second).bind fun _ => dropsNothing_pure _
            · exact dropsNothing_degrade _ _
  | intersection members loc =>
      cases members with
      | nil => exact dropsNothing_degrade _ _
      | cons first rest =>
          rw [mapType]
          exact dropsNothing_mapType first
  | tuple elements loc =>
      rw [mapType]
      exact (dropsNothing_mapTypes elements).bind fun _ => dropsNothing_pure _
  | paren inner loc =>
      rw [mapType]
      exact dropsNothing_mapType inner
  | importType specifier qualifier args loc => exact dropsNothing_importedType specifier _ loc
  | object | literal =>
      rw [mapType]
      exact dropsNothing_degrade _ _
  | this =>
      rw [mapType]
      exact dropsNothing_pure _
  | unnamed =>
      rw [mapType]
      exact dropsNothing_breakOff _
  | constructorType | indexed | query | mapped | conditional | predicate | infer | rest
  | operator =>
      rw [mapType]
      exact dropsNothing_fail _ _
  | stray s =>
      rw [mapType]
      exact dropsNothing_strayed _ s

theorem dropsNothing_mapTypes (tys : List TypeExpr) :
    (mapTypes options within tys).DropsNothing := by
  cases tys with
  | nil => exact dropsNothing_pure _
  | cons ty rest =>
      rw [mapTypes]
      refine (dropsNothing_mapType ty).bind fun head => ?_
      exact (dropsNothing_mapTypes rest).bind fun tail => dropsNothing_pure _

theorem dropsNothing_mapParams (params : List Param) :
    (mapParams options within params).DropsNothing := by
  match params with
  | [] => exact dropsNothing_pure _
  | ⟨pattern, annotated, isOptional, _, loc⟩ :: rest =>
      cases pattern with
      | name name nameLoc =>
          simp only [mapParams]
          refine (dropsNothing_mapAnnotated annotated).bind fun type => ?_
          exact (dropsNothing_mapParams rest).bind fun tail => dropsNothing_pure _
      | object | array => exact dropsNothing_fail _ _
      | absent => exact dropsNothing_breakOff _

theorem dropsNothing_mapAnnotated (annotated : Option TypeExpr) :
    (mapAnnotated options within annotated).DropsNothing := by
  cases annotated with
  | none => exact dropsNothing_pure _
  | some ty =>
      rw [mapAnnotated]
      exact dropsNothing_mapType ty

theorem dropsNothing_mapResult (result : Option TypeExpr) :
    (mapResult options within result).DropsNothing := by
  cases result with
  | none => exact dropsNothing_pure _
  | some ty =>
      rw [mapResult]
      split
      · exact dropsNothing_pure _
      · exact (dropsNothing_mapType ty).bind fun _ => dropsNothing_pure _

end

theorem dropsNothing_lowerParams (params : List Param) :
    (lowerParams options within params).DropsNothing := by
  induction params with
  | nil => exact dropsNothing_pure _
  | cons p rest ih =>
      rw [lowerParams]
      split
      · split
        · exact ih
        · refine DropsNothing.bind ?_ fun head => ih.bind fun tail => dropsNothing_pure _
          exact (dropsNothing_mapAnnotated p.annotated).bind fun type => dropsNothing_pure _
      · exact dropsNothing_breakOff _
      · exact dropsNothing_fail _ _

section

variable {o : Owner} {raw : Text} {isStatic : Bool} {loc : Option Location}

theorem dropsNothing_method (signature : Signature) :
    (method o raw signature isStatic loc).DropsNothing := by
  refine (dropsNothing_lowerParams _).bind fun params => ?_
  exact (dropsNothing_mapResult _).bind fun result => dropsNothing_pure _

theorem dropsNothing_setter (params : List Param) :
    (setter o raw params isStatic loc).DropsNothing :=
  (dropsNothing_lowerParams _).bind fun _ => dropsNothing_pure _

theorem dropsNothing_getter (result : Option TypeExpr) :
    (getter o raw result isStatic loc).DropsNothing :=
  (dropsNothing_mapAnnotated _).bind fun _ => dropsNothing_pure _

theorem dropsNothing_property (annotated : Option TypeExpr) (isOptional : Bool) :
    (property o raw annotated isOptional isStatic loc).DropsNothing :=
  (dropsNothing_mapAnnotated _).bind fun _ => dropsNothing_pure _

end

/-- What a member adds to the output: bindings and warnings. -/
structure Account where
  bindings : List Binding
  warnings : List Warning

/-- The account of a member, which is hidden or not: one function and no warning that something was
dropped; or nothing, for a hidden member; or one warning that the member was dropped. -/
inductive Accounted (options : Options) (owner : Text) (scope : GenericScope)
    (hides : Member → Bool) (member : Member) : Account → Prop
  | function {b : Binding} {warnings : List Warning} (hvisible : hides member = false)
      (hlowers : LowersMember options owner scope member b)
      (hwarnings : ∀ w ∈ warnings, w.tellsDrop = false) :
      Accounted options owner scope hides member ⟨[b], warnings⟩
  | hidden (h : hides member = true) : Accounted options owner scope hides member ⟨[], []⟩
  | dropped {w : Warning} (hvisible : hides member = false) (hw : w.tellsDrop = true) :
      Accounted options owner scope hides member ⟨[], [w]⟩

/-- The account that work gives satisfies `P`, if the work succeeds. -/
def Reports (P : Account → Prop) (x : Outcome (List Binding)) : Prop :=
  ∀ bindings, x.result = .ok bindings → P ⟨bindings, x.warnings⟩

variable {owner : Text} {scope : GenericScope} {hides : Member → Bool} {member : Member}

theorem reports_of_error {P : Account → Prop} {x : Outcome (List Binding)} {e : Halt}
    (h : x.result = .error e) : Reports P x := by
  intro bindings hok
  rw [h] at hok
  cases hok

theorem LowersMember.standsFor {b : Binding} {d : Declaration} {name : Text}
    (h : LowersMember options (Identifier.rustName name) (declarationScope d) member b)
    (hname : d.name? = some name) : StandsFor [] ⟨[], d, some member⟩ b :=
  (Made.member [] hname h.made).standsFor

theorem reports_inMember {o : Owner} {f : Owner → Outcome (List Binding)} {P : Account → Prop}
    (hf : ∀ within, Reports P (f { o with within := within })) :
    Reports P (inMember o member f) := by
  intro bindings h
  rw [inMember, result_within_eq_ok_iff] at h
  exact hf _ bindings h

theorem reports_dropped (hvisible : hides member = false) {concern : Concern}
    {loc : Option Location} (hcode : concern.code = "W-DROPPED") :
    Reports (Accounted options owner scope hides member) (do
      Outcome.warn concern loc
      return []) := by
  intro bindings h
  rw [← Except.ok.inj h]
  exact .dropped hvisible (decide_eq_true hcode)

theorem reports_named (hvisible : hides member = false) {key : PropertyKey}
    {inner : GenericScope} {f : Text → Outcome Binding} (hdrops : ∀ raw, (f raw).DropsNothing)
    (hlowers : ∀ b, (named key inner f).result = .ok [b] →
      LowersMember options owner scope member b) :
    Reports (Accounted options owner scope hides member) (named key inner f) := by
  intro bindings h
  rcases named_eq_ok h with ⟨hcomputed, rfl⟩ | ⟨hcomputed, b, hb, rfl⟩
  · have hnamed : named key inner f = (do
        Outcome.warn (.computedMember key.value) key.loc
        return []) := by
      simp only [named, memberName, hcomputed]
      rfl
    rw [hnamed] at h ⊢
    exact reports_dropped hvisible rfl _ h
  · refine .function hvisible (hlowers _ h) ?_
    have hname : (memberName key).DropsNothing := by
      rw [memberName]
      split
      · contradiction
      · exact dropsNothing_breakOff _
      · exact dropsNothing_pure _
    have hwork : (named key inner f).DropsNothing := by
      refine hname.bind fun name? => ?_
      cases name? with
      | none => exact dropsNothing_pure _
      | some raw => exact (hdrops raw).bind fun _ => dropsNothing_pure _
    exact hwork

theorem reports_constructorBinding {o : Owner} (hvisible : hides member = false)
    {key : PropertyKey} {params : List Param} {seenConstructor : Bool} {loc : Option Location}
    (hlowers : ∀ b, (constructorBinding o key params seenConstructor loc).result = .ok [b] →
      LowersMember options owner scope member b) :
    Reports (Accounted options owner scope hides member)
      (constructorBinding o key params seenConstructor loc) := by
  intro bindings h
  obtain ⟨b, _, rfl⟩ : ∃ b, MadeMember o.name o.scope (.constructorMember key params none loc) b ∧
      bindings = [b] := constructorBinding_made h
  refine .function hvisible (hlowers b h) ?_
  have hwork : (constructorBinding o key params seenConstructor loc).DropsNothing := by
    rw [constructorBinding]
    split
    · exact dropsNothing_breakOff _
    · split
      · exact dropsNothing_fail _ _
      · split
        · exact dropsNothing_fail _ _
        · exact (dropsNothing_lowerParams _).bind fun _ => dropsNothing_pure _
  exact hwork

theorem reports_lowerClassMember_of_visible (hvisible : isHidden member = false)
    (seenConstructor : Bool) :
    Reports (Accounted options owner scope isHidden member)
      (lowerClassMember ⟨options, within, owner, scope⟩ seenConstructor member) := by
  have hlowers : ∀ b, (lowerClassMember ⟨options, within, owner, scope⟩ seenConstructor member
      ).result = .ok [b] → LowersMember options owner scope member b :=
    fun b hb => .inClass hb
  cases member with
  | index | staticBlock | empty => exact reports_of_error rfl
  | constructorMember key params access loc =>
      simp only [lowerClassMember, hvisible, Bool.false_eq_true, if_false] at hlowers ⊢
      exact reports_constructorBinding hvisible hlowers
  | method key kind signature isStatic access isOptional isAbstract loc =>
      simp only [lowerClassMember, hvisible, Bool.false_eq_true, if_false] at hlowers ⊢
      refine reports_named hvisible (fun raw => ?_) hlowers
      cases kind with
      | getter => exact dropsNothing_getter _
      | setter => exact dropsNothing_setter _
      | method => exact dropsNothing_method _
  | property key annotated isStatic access isReadonly isOptional loc =>
      simp only [lowerClassMember, hvisible, Bool.false_eq_true, if_false] at hlowers ⊢
      exact reports_named hvisible (fun _ => dropsNothing_property _ _) hlowers
  | stray s key =>
      simp only [lowerClassMember, hvisible, Bool.false_eq_true, if_false] at hlowers ⊢
      cases key with
      | some key => exact reports_named hvisible (fun _ => dropsNothing_fail _ _) hlowers
      | none => exact reports_of_error rfl
  | callSignature | constructSignature =>
      simp only [lowerClassMember, hvisible, Bool.false_eq_true, if_false]
      exact reports_of_error rfl
  | propertySignature | methodSignature | getterSignature | setterSignature =>
      simp only [lowerClassMember, hvisible, Bool.false_eq_true, if_false] at hlowers ⊢
      exact reports_named hvisible (fun _ => dropsNothing_fail _ _) hlowers

theorem reports_lowerClassMember (seenConstructor : Bool) :
    Reports (Accounted options owner scope isHidden member)
      (lowerClassMember ⟨options, within, owner, scope⟩ seenConstructor member) := by
  cases hhidden : isHidden member with
  | false => exact reports_lowerClassMember_of_visible hhidden seenConstructor
  | true =>
      intro bindings h
      have hnone : lowerClassMember ⟨options, within, owner, scope⟩ seenConstructor member =
          pure [] := by
        cases member with
        | index | staticBlock | empty => cases h
        | _ => simp only [lowerClassMember, hhidden, if_true]
      rw [hnone] at h ⊢
      rw [← Except.ok.inj h]
      exact .hidden hhidden

theorem reports_lowerInterfaceMember :
    Reports (Accounted options owner scope (fun _ => false) member)
      (lowerInterfaceMember ⟨options, within, owner, scope⟩ member) := by
  have hlowers : ∀ b, (lowerInterfaceMember ⟨options, within, owner, scope⟩ member).result =
      .ok [b] → LowersMember options owner scope member b := fun b hb => .inInterface hb
  cases member with
  | propertySignature => exact reports_named rfl (fun _ => dropsNothing_property _ _) hlowers
  | methodSignature => exact reports_named rfl (fun _ => dropsNothing_method _) hlowers
  | getterSignature => exact reports_named rfl (fun _ => dropsNothing_getter _) hlowers
  | setterSignature => exact reports_named rfl (fun _ => dropsNothing_setter _) hlowers
  | stray s key =>
      cases s with
      | value => exact reports_of_error rfl
      | node kind loc => exact reports_dropped rfl rfl
  | _ => exact reports_dropped rfl rfl

theorem reports_lowerLiteralMember (literal : Text) :
    Reports (Accounted options owner scope (fun _ => false) member)
      (lowerLiteralMember ⟨options, within, owner, scope⟩ literal member) := by
  cases member with
  | propertySignature => exact reports_inMember fun within => reports_lowerInterfaceMember
  | stray s key =>
      cases s with
      | value => exact reports_of_error rfl
      | node kind loc => exact reports_dropped rfl rfl
  | _ => exact reports_dropped rfl rfl

/-- An account that is made up of accounts of the members, one for each in order. -/
def AllAccounted (options : Options) (owner : Text) (scope : GenericScope)
    (hides : Member → Bool) (members : List Member) (total : Account) : Prop :=
  ∃ accounts, List.Forall₂ (Accounted options owner scope hides) members accounts ∧
    total.bindings = accounts.flatMap (·.bindings) ∧
    total.warnings = accounts.flatMap (·.warnings)

theorem reports_nil :
    Reports (AllAccounted options owner scope hides []) (pure []) := by
  intro bindings h
  rw [← Except.ok.inj h]
  exact ⟨[], List.Forall₂.nil, rfl, rfl⟩

theorem reports_cons {rest : List Member} {x : Outcome (List Binding)}
    {next : List Binding → Outcome (List Binding)}
    (hx : Reports (Accounted options owner scope hides member) x)
    (hnext : ∀ head, Reports (AllAccounted options owner scope hides rest) (next head)) :
    Reports (AllAccounted options owner scope hides (member :: rest)) (do
      let head ← x
      let tail ← next head
      return head ++ tail) := by
  intro bindings h
  obtain ⟨head, hhead, h⟩ := (result_bind_eq_ok_iff _ _ _).mp h
  obtain ⟨tail, htail, hreturn⟩ := (result_bind_eq_ok_iff _ _ _).mp h
  obtain ⟨accounts, haccounts, hbindings, hwarnings⟩ := hnext head tail htail
  refine ⟨⟨head, x.warnings⟩ :: accounts, haccounts.cons (hx head hhead), ?_, ?_⟩
  · rw [← Except.ok.inj hreturn, List.flatMap_cons, ← hbindings]
  · rw [warnings_bind hhead, warnings_bind htail, warnings_pure, List.append_nil,
      List.flatMap_cons, ← hwarnings]

theorem reports_lowerClassMembers (members : List Member) (seenConstructor : Bool) :
    Reports (AllAccounted options owner scope isHidden members)
      (lowerClassMembers ⟨options, within, owner, scope⟩ seenConstructor members) := by
  induction members generalizing seenConstructor with
  | nil => exact reports_nil
  | cons member rest ih =>
      rw [lowerClassMembers]
      refine reports_cons ?_ fun head => ih _
      exact reports_inMember fun within => reports_lowerClassMember seenConstructor

theorem reports_lowerInterfaceMembers (members : List Member) :
    Reports (AllAccounted options owner scope (fun _ => false) members)
      (lowerInterfaceMembers ⟨options, within, owner, scope⟩ members) := by
  induction members with
  | nil => exact reports_nil
  | cons member rest ih =>
      rw [lowerInterfaceMembers]
      refine reports_cons ?_ fun head => ih
      exact reports_inMember fun within => reports_lowerInterfaceMember

theorem reports_lowerLiteralMembers (literal : Text) (members : List Member) :
    Reports (AllAccounted options owner scope (fun _ => false) members)
      (lowerLiteralMembers ⟨options, within, owner, scope⟩ literal members) := by
  induction members with
  | nil => exact reports_nil
  | cons member rest ih =>
      rw [lowerLiteralMembers_cons]
      exact reports_cons (reports_lowerLiteralMember literal) fun head => ih

/-- Every member counts once: as a function, as hidden, or as dropped. -/
theorem length_of_accounted {members : List Member} {accounts : List Account}
    (h : List.Forall₂ (Accounted options owner scope hides) members accounts) :
    (accounts.flatMap (·.bindings)).length + members.countP hides +
      (accounts.flatMap (·.warnings)).countP Warning.tellsDrop = members.length := by
  induction h with
  | nil => rfl
  | cons hmember _ ih =>
      simp only [List.flatMap_cons, List.length_append, List.countP_append, List.length_cons,
        List.countP_cons]
      cases hmember with
      | function hvisible hlowers hwarnings =>
          have hnone : List.countP Warning.tellsDrop _ = 0 := List.countP_eq_zero.mpr
            fun w hw => Bool.eq_false_iff.mp (hwarnings w hw)
          simp only [hvisible, hnone, List.length_singleton, Bool.false_eq_true, if_false]
          omega
      | hidden hhidden =>
          simp only [hhidden, List.length_nil, List.countP_nil, if_true]
          omega
      | dropped hvisible hw =>
          simp only [hvisible, List.countP_singleton, hw, List.length_nil, Bool.false_eq_true,
            if_true, if_false]
          omega

/-- The members that a declaration lists, if it makes a type that has some: those of a class, of an
interface, or of an object type, in parentheses or not, that an alias names. -/
def listedMembers? : Declaration → Option (List Member)
  | .classDeclaration d => some d.members
  | .interface d => some d.body
  | .typeAlias d =>
      match stripParens d.type with
      | .object members _ => some members
      | _ => none
  | _ => none

/-- Whether a declaration hides a member: only a class does. In an interface or an object type a
private key names a member like any other key. -/
def hidesMember : Declaration → Member → Bool
  | .classDeclaration _ => isHidden
  | _ => fun _ => false

/-- The members of a declaration are accounted for: the type comes first, and after it the functions
of the members, in order, all owned by the type. So every member counts exactly once. -/
def MembersAccounted (options : Options) (d : Declaration) (members : List Member)
    (total : Account) : Prop :=
  ∃ type functions accounts, total.bindings = type :: functions ∧ type.shape = .hostType ∧
    List.Forall₂ (Accounted options type.name (declarationScope d) (hidesMember d)) members
      accounts ∧
    functions = accounts.flatMap (·.bindings) ∧
    total.warnings = accounts.flatMap (·.warnings) ∧
    (∀ f ∈ functions, f.shape.kind = .function ∧ f.attributes.owner = some type.name) ∧
    functions.length + members.countP (hidesMember d) +
      total.warnings.countP Warning.tellsDrop = members.length

theorem function_of_accounted {d : Declaration} {name : Text} {members : List Member}
    {accounts : List Account} {f : Binding} (hname : d.name? = some name)
    (h : List.Forall₂ (Accounted options (Identifier.rustName name) (declarationScope d) hides)
      members accounts)
    (hf : f ∈ accounts.flatMap (·.bindings)) :
    f.shape.kind = .function ∧ f.attributes.owner = some (Identifier.rustName name) := by
  induction h with
  | nil => cases hf
  | cons hmember _ ih =>
      rw [List.flatMap_cons, List.mem_append] at hf
      rcases hf with hf | hf
      · cases hmember with
        | function _ hlowers _ =>
            have hstands := hlowers.standsFor hname
            rw [List.mem_singleton.mp hf]
            exact ⟨hstands.kind, by rw [hstands.owner, Origin.owner?, hname]; rfl⟩
        | hidden | dropped => cases hf
      · exact ih hf

theorem reports_hostType {d : Declaration} {name : Text} {members : List Member}
    {x : Outcome (List Binding)} (hname : d.name? = some name)
    (hx : Reports (AllAccounted options (Identifier.rustName name) (declarationScope d)
      (hidesMember d) members) x)
    (bases : List (List Text)) (loc : Option Location) :
    Reports (MembersAccounted options d members) (do
      let functions ← x
      return hostType (Identifier.sanitize name) bases loc :: functions) := by
  intro bindings h
  obtain ⟨functions, hfunctions, hreturn⟩ := (result_bind_eq_ok_iff _ _ _).mp h
  obtain ⟨accounts, haccounts, hbindings, hwarnings⟩ := hx functions hfunctions
  rw [warnings_bind hfunctions, warnings_pure, List.append_nil]
  refine ⟨_, functions, accounts, (Except.ok.inj hreturn).symm, rfl, haccounts, hbindings,
    hwarnings, ?_, ?_⟩
  · intro f hf
    exact function_of_accounted hname haccounts (hbindings ▸ hf)
  · have hcount := length_of_accounted haccounts
    rwa [← hbindings, ← hwarnings] at hcount

theorem reports_lowerClass (d : ClassDeclaration) :
    Reports (MembersAccounted options (.classDeclaration d) d.members)
      (lowerClass options within d) := by
  rw [lowerClass]
  rcases hname : d.name with _ | _ | ⟨c, rest⟩
  · exact reports_of_error rfl
  · exact reports_of_error rfl
  · simp only [requireName, pure_bind]
    exact reports_hostType (d := .classDeclaration d) hname (reports_lowerClassMembers _ false) _ _

theorem reports_lowerInterface (d : InterfaceDeclaration) :
    Reports (MembersAccounted options (.interface d) d.body) (lowerInterface options within d) :=
  reports_hostType (d := .interface d) rfl (reports_lowerInterfaceMembers _) _ _

theorem reports_lowerAlias (d : AliasDeclaration) {members : List Member} {loc : Option Location}
    (htype : stripParens d.type = .object members loc) :
    Reports (MembersAccounted options (.typeAlias d) members) (lowerAlias options within d) := by
  simp only [lowerAlias, htype]
  exact reports_hostType (d := .typeAlias d) rfl (reports_lowerLiteralMembers _ _) _ _

/-- A class, an interface or an alias of an object type that can be lowered accounts for each of its
members: it gives one function, is hidden, or is dropped with one warning. -/
theorem lower_membersAccounted (options : Options) (within : List Text) (d : Declaration)
    (members : List Member) (bindings : List Binding) (hmembers : listedMembers? d = some members)
    (h : (lower options within d).result = .ok bindings) :
    MembersAccounted options d members ⟨bindings, (lower options within d).warnings⟩ := by
  cases d with
  | classDeclaration d =>
      cases hmembers
      simp only [lower, inDeclaration, result_within_eq_ok_iff] at h ⊢
      exact reports_lowerClass d bindings h
  | interface d =>
      cases hmembers
      simp only [lower, inDeclaration, result_within_eq_ok_iff] at h ⊢
      exact reports_lowerInterface d bindings h
  | typeAlias d =>
      simp only [listedMembers?] at hmembers
      split at hmembers
      · rename_i listed loc htype
        cases hmembers
        simp only [lower, inDeclaration, result_within_eq_ok_iff] at h ⊢
        exact reports_lowerAlias d htype bindings h
      · cases hmembers
  | _ => cases hmembers

/-- A class with a property of a type that degrades, a property that only the class uses, and a
method whose name is computed. -/
def meterMembers : List Member :=
  [.property ⟨.word, "unit", none⟩ (some (.literal .string "ms" none)) false none false false none,
    .property ⟨.hidden, "#ticks", none⟩ none false none false false none,
    .method ⟨.computed, "Symbol.iterator", none⟩ .method ⟨[], none, []⟩ false none false false none]

theorem meter_membersAccounted :
    let meter : Declaration :=
      .classDeclaration ⟨some "Meter", meterMembers, [], none, [], false, none⟩
    listedMembers? meter = some meterMembers ∧
      ∃ bindings, (lower .standard [] meter).result = .ok bindings ∧
        bindings.map (·.name) = [Text.ofString "Meter", "unit"] ∧
        (lower .standard [] meter).warnings.map (·.concern.code) =
          [Text.ofString "W-DYNAMIC", "W-DROPPED"] ∧
        MembersAccounted .standard meter meterMembers
          ⟨bindings, (lower .standard [] meter).warnings⟩ :=
  ⟨rfl, _, rfl, rfl, rfl, lower_membersAccounted .standard [] _ meterMembers _ rfl rfl⟩

/-- An interface with a private key. -/
def counterMembers : List Member :=
  [.propertySignature ⟨.hidden, "#x", none⟩ (some (.keyword .number none)) false false none]

/-- A member that a class would hide counts twice in the sum, as hidden and as a function. -/
theorem counter_privateKey_not_hidden :
    let counter : Declaration := .interface ⟨"Counter", counterMembers, [], [], none⟩
    listedMembers? counter = some counterMembers ∧ counterMembers.countP isHidden = 1 ∧
      ∃ type functions, (lower .standard [] counter).result = .ok (type :: functions) ∧
        functions.map (·.name) = [Text.ofString "_x"] ∧
        functions.length + counterMembers.countP isHidden +
          (lower .standard [] counter).warnings.countP Warning.tellsDrop ≠ counterMembers.length :=
  ⟨rfl, rfl, _, _, rfl, rfl, by decide⟩

end Lowering

end HostBindings

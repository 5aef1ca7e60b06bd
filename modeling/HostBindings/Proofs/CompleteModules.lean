import HostBindings.Composition.Unit
import HostBindings.Proofs.LoweringResults

/-!
Complete modules. Lowering breaks off where a tree built by hand lacks a part or holds a stray node.
In a module without such places it never does: it gives bindings, or a failure that names no file
of its own, and so does composition.
-/

namespace HostBindings

namespace Outcome

variable {α β : Type}

/-- Work that gives a result or a failure to report. The failure names no file: that is left to the
one who reports it. -/
def Answers (x : Outcome α) : Prop :=
  ∀ e, x.result = .error e → ∃ f, e = .failure f ∧ ∀ span ∈ f.span, span.file = none

theorem answers_pure (a : α) : (pure a : Outcome α).Answers := by
  rintro _ ⟨⟩

theorem answers_warn (concern : Concern) (loc : Option Location) :
    (warn concern loc).Answers := by
  rintro _ ⟨⟩

theorem file_of_mem_map {loc : Option Location} {span : Span}
    (h : span ∈ loc.map fun l => Span.ofLocation (some l)) : span.file = none := by
  obtain ⟨l, _, rfl⟩ := Option.map_eq_some_iff.mp h
  rfl

theorem answers_fail (cause : Cause) (loc : Option Location) :
    (fail cause loc : Outcome α).Answers := by
  rintro _ ⟨⟩
  exact ⟨_, rfl, fun _ => file_of_mem_map⟩

theorem Answers.bind {x : Outcome α} {f : α → Outcome β} (hx : x.Answers)
    (hf : ∀ a, (f a).Answers) : (x >>= f).Answers := by
  intro e he
  rw [result_bind] at he
  cases hresult : x.result with
  | error other =>
      rw [hresult] at he
      cases he
      exact hx e hresult
  | ok a =>
      rw [hresult] at he
      exact hf a e he

theorem Answers.within {x : Outcome α} (h : x.Answers) (declaration member : Option Text)
    (loc : Option Location) : (x.within declaration member loc).Answers := by
  intro e he
  rw [result_within] at he
  cases hresult : x.result with
  | ok a =>
      rw [hresult] at he
      cases he
  | error other =>
      rw [hresult] at he
      cases he
      obtain ⟨f, rfl, hfile⟩ := h other hresult
      refine ⟨_, rfl, fun span hspan => ?_⟩
      simp only [Failure.within] at hspan
      cases hown : f.span with
      | some own =>
          rw [hown] at hspan
          exact hfile span (hown ▸ hspan)
      | none =>
          rw [hown] at hspan
          exact file_of_mem_map hspan

end Outcome

namespace Source

/-- Whether a key is there. -/
def PropertyKey.isThere (key : PropertyKey) : Bool := key.kind ≠ .absent

mutual

/-- Whether no part of a type expression that is lowered is missing or stray. -/
def TypeExpr.isComplete : TypeExpr → Bool
  | .reference _ _ args _ => TypeExpr.areComplete args
  | .function params result _ _ => Param.areComplete params && TypeExpr.isCompleteIn result
  | .array t _ | .optional t _ | .paren t _ => t.isComplete
  | .union ts _ | .intersection ts _ | .tuple ts _ => TypeExpr.areComplete ts
  | .object members _ => Member.areComplete members
  | .unnamed _ _ | .stray _ => false
  | _ => true

def TypeExpr.areComplete : List TypeExpr → Bool
  | [] => true
  | t :: more => t.isComplete && TypeExpr.areComplete more

def TypeExpr.isCompleteIn : Option TypeExpr → Bool
  | none => true
  | some t => t.isComplete

def Param.isComplete : Param → Bool
  | ⟨pattern, annotated, _, _, _⟩ => pattern ≠ .absent && TypeExpr.isCompleteIn annotated

def Param.areComplete : List Param → Bool
  | [] => true
  | p :: rest => p.isComplete && Param.areComplete rest

def Signature.isComplete : Signature → Bool
  | ⟨params, result, _⟩ => Param.areComplete params && TypeExpr.isCompleteIn result

def Member.isComplete : Member → Bool
  | .constructorMember key params _ _ => key.isThere && Param.areComplete params
  | .method key _ signature _ _ _ _ _ | .methodSignature key signature _ _ =>
    key.isThere && signature.isComplete
  | .property key annotated _ _ _ _ _ | .propertySignature key annotated _ _ _
  | .getterSignature key annotated _ => key.isThere && TypeExpr.isCompleteIn annotated
  | .setterSignature key param _ => key.isThere && param.isComplete
  | .stray _ _ => false
  | _ => true

def Member.areComplete : List Member → Bool
  | [] => true
  | m :: rest => m.isComplete && Member.areComplete rest

end

/-- Whether a member may stand in the body of a class. -/
def Member.isOfClass : Member → Bool
  | .constructorMember .. | .method .. | .property .. | .index .. | .staticBlock .. | .empty .. =>
    true
  | _ => false

def Declarator.isComplete (d : Declarator) : Bool :=
  d.pattern ≠ .absent && TypeExpr.isCompleteIn d.annotated

mutual

/-- Whether no part of a declaration that is lowered is missing or stray. -/
def Declaration.isComplete : Declaration → Bool
  | .classDeclaration d => d.members.all fun m => m.isComplete && m.isOfClass
  | .function d => d.signature.isComplete
  | .variableDeclaration d => d.declarators.all Declarator.isComplete
  | .typeAlias d => d.type.isComplete
  | .interface d => Member.areComplete d.body
  | .enumeration _ => true
  | .space d => d.isComplete
  | .stray _ => false

def Namespace.isComplete : Namespace → Bool
  | ⟨_, body, _, _, _⟩ => body.isComplete

/-- The rest of a dotted name is not lowered. -/
def NamespaceBody.isComplete : NamespaceBody → Bool
  | .block statements _ => Statement.areComplete statements
  | _ => true

def Statement.isComplete : Statement → Bool
  | .declaration d | .exportDeclaration d _ | .exportDefaultDeclaration d _ => d.isComplete
  | .importAlias ⟨_, .required none, _, _⟩ | .stray _ => false
  | _ => true

def Statement.areComplete : List Statement → Bool
  | [] => true
  | s :: rest => s.isComplete && Statement.areComplete rest

end

def Module.isComplete (m : Module) : Bool := Statement.areComplete m.body

theorem TypeExpr.areComplete_iff {ts : List TypeExpr} :
    TypeExpr.areComplete ts = true ↔ ∀ t ∈ ts, t.isComplete = true := by
  induction ts with
  | nil => simp [TypeExpr.areComplete]
  | cons t more ih => simp [TypeExpr.areComplete, ih]

theorem TypeExpr.isCompleteIn_iff {t : Option TypeExpr} :
    TypeExpr.isCompleteIn t = true ↔ ∀ inner ∈ t, inner.isComplete = true := by
  cases t <;> simp [TypeExpr.isCompleteIn]

theorem Param.areComplete_iff {ps : List Param} :
    Param.areComplete ps = true ↔ ∀ p ∈ ps, p.isComplete = true := by
  induction ps with
  | nil => simp [Param.areComplete]
  | cons p rest ih => simp [Param.areComplete, ih]

theorem Member.areComplete_iff {ms : List Member} :
    Member.areComplete ms = true ↔ ∀ m ∈ ms, m.isComplete = true := by
  induction ms with
  | nil => simp [Member.areComplete]
  | cons m rest ih => simp [Member.areComplete, ih]

theorem Statement.areComplete_iff {ss : List Statement} :
    Statement.areComplete ss = true ↔ ∀ s ∈ ss, s.isComplete = true := by
  induction ss with
  | nil => simp [Statement.areComplete]
  | cons s rest ih => simp [Statement.areComplete, ih]

end Source

namespace Lowering

open Source Outcome

variable {options : Options} {within : List Text}

theorem answers_degrade (what : Degraded) (loc : Option Location) :
    (degrade within what loc).Answers :=
  (answers_warn _ _).bind fun _ => answers_pure _

theorem answers_keywordType (word : Keyword) (loc : Option Location) :
    (keywordType word loc).Answers := by
  cases word with
  | bigint | symbol | intrinsic | other => exact answers_fail _ _
  | _ => exact answers_pure _

theorem answers_importedType (specifier : Text) (qualifier : List Text) (loc : Option Location) :
    (importedType options within specifier qualifier loc).Answers := by
  rw [importedType]
  split
  · exact answers_degrade _ _
  · split
    · exact answers_degrade _ _
    · exact answers_pure _

mutual

/-- A complete type expression has a boundary type or a failure. -/
theorem answers_mapType {ty : TypeExpr} (h : ty.isComplete = true) :
    (mapType options within ty).Answers := by
  cases ty with
  | keyword word loc =>
      rw [mapType]
      exact answers_keywordType word loc
  | this loc =>
      rw [mapType]
      exact answers_pure _
  | reference qualifier name args loc =>
      rw [TypeExpr.isComplete] at h
      cases args with
      | nil =>
          rw [mapType.eq_def]
          dsimp only
          split
          · exact answers_pure _
          · split
            · exact answers_pure _
            · split <;> exact answers_pure _
      | cons element more =>
          rw [TypeExpr.areComplete, Bool.and_eq_true] at h
          rw [mapType.eq_def]
          dsimp only
          split
          · exact answers_pure _
          · split
            · exact (answers_mapType h.1).bind fun _ => answers_pure _
            · split <;> exact answers_pure _
  | unnamed args loc => cases h
  | function params result typeParams loc =>
      rw [TypeExpr.isComplete, Bool.and_eq_true] at h
      rw [mapType]
      refine (answers_mapParams h.1).bind fun params => ?_
      exact (answers_mapResult h.2).bind fun result => answers_pure _
  | array element loc | optional element loc =>
      rw [TypeExpr.isComplete] at h
      rw [mapType]
      exact (answers_mapType h).bind fun _ => answers_pure _
  | union members loc =>
      match members with
      | [] | [_] | _ :: _ :: _ :: _ =>
          rw [mapType.eq_def]
          exact answers_degrade _ _
      | [first, second] =>
          simp only [TypeExpr.isComplete, TypeExpr.areComplete, Bool.and_eq_true] at h
          rw [mapType.eq_def]
          dsimp only
          split
          · exact (answers_mapType h.1).bind fun _ => answers_pure _
          · split
            · exact (answers_mapType h.2.1).bind fun _ => answers_pure _
            · exact answers_degrade _ _
  | intersection members loc =>
      cases members with
      | nil =>
          rw [mapType.eq_def]
          exact answers_degrade _ _
      | cons first more =>
          rw [TypeExpr.isComplete, TypeExpr.areComplete, Bool.and_eq_true] at h
          rw [mapType.eq_def]
          exact answers_mapType h.1
  | tuple elements loc =>
      rw [TypeExpr.isComplete] at h
      rw [mapType]
      exact (answers_mapTypes h).bind fun _ => answers_pure _
  | paren inner loc =>
      rw [TypeExpr.isComplete] at h
      rw [mapType]
      exact answers_mapType h
  | importType specifier qualifier args loc =>
      rw [mapType]
      exact answers_importedType _ _ _
  | object members loc | literal kind value loc =>
      rw [mapType]
      exact answers_degrade _ _
  | stray s => cases h
  | _ =>
      rw [mapType]
      exact answers_fail _ _

theorem answers_mapTypes {tys : List TypeExpr} (h : TypeExpr.areComplete tys = true) :
    (mapTypes options within tys).Answers := by
  cases tys with
  | nil => exact answers_pure _
  | cons ty rest =>
      rw [TypeExpr.areComplete, Bool.and_eq_true] at h
      rw [mapTypes]
      refine (answers_mapType h.1).bind fun head => ?_
      exact (answers_mapTypes h.2).bind fun tail => answers_pure _

theorem answers_mapParams {params : List Param} (h : Param.areComplete params = true) :
    (mapParams options within params).Answers := by
  match params with
  | [] => exact answers_pure _
  | ⟨pattern, annotated, isOptional, isRest, loc⟩ :: rest =>
      simp only [Param.areComplete, Param.isComplete, Bool.and_eq_true, decide_eq_true_eq] at h
      obtain ⟨⟨hpattern, hannotated⟩, hrest⟩ := h
      cases pattern with
      | name name nameLoc =>
          rw [mapParams]
          refine (answers_mapAnnotated hannotated).bind fun type => ?_
          exact (answers_mapParams hrest).bind fun tail => answers_pure _
      | absent => exact absurd rfl hpattern
      | object | array =>
          rw [mapParams.eq_def]
          exact answers_fail _ _

theorem answers_mapAnnotated {annotated : Option TypeExpr}
    (h : TypeExpr.isCompleteIn annotated = true) :
    (mapAnnotated options within annotated).Answers := by
  cases annotated with
  | none => exact answers_pure _
  | some ty =>
      rw [TypeExpr.isCompleteIn] at h
      rw [mapAnnotated]
      exact answers_mapType h

theorem answers_mapResult {result : Option TypeExpr} (h : TypeExpr.isCompleteIn result = true) :
    (mapResult options within result).Answers := by
  cases result with
  | none => exact answers_pure _
  | some ty =>
      rw [TypeExpr.isCompleteIn] at h
      rw [mapResult]
      split
      · exact answers_pure _
      · exact (answers_mapType h).bind fun _ => answers_pure _

end

theorem answers_lowerParams {params : List Param} (h : Param.areComplete params = true) :
    (lowerParams options within params).Answers := by
  induction params with
  | nil => exact answers_pure _
  | cons p rest ih =>
      obtain ⟨pattern, annotated, isOptional, isRest, loc⟩ := p
      simp only [Param.areComplete, Param.isComplete, Bool.and_eq_true, decide_eq_true_eq] at h
      obtain ⟨⟨hpattern, hannotated⟩, hrest⟩ := h
      rw [lowerParams]
      cases pattern with
      | name name nameLoc =>
          dsimp only
          split
          · exact ih hrest
          · refine Answers.bind ?_ fun head => (ih hrest).bind fun tail => answers_pure _
            exact (answers_mapAnnotated hannotated).bind fun type => answers_pure _
      | absent => exact absurd rfl hpattern
      | object | array => exact answers_fail _ _

section

variable {o : Owner}

theorem answers_method {signature : Signature} (h : signature.isComplete = true) (raw : Text)
    (isStatic : Bool) (loc : Option Location) :
    (method o raw signature isStatic loc).Answers := by
  obtain ⟨params, result, typeParams⟩ := signature
  rw [Signature.isComplete, Bool.and_eq_true] at h
  refine (answers_lowerParams h.1).bind fun params => ?_
  exact (answers_mapResult h.2).bind fun result => answers_pure _

theorem answers_setter {params : List Param} (h : Param.areComplete params = true) (raw : Text)
    (isStatic : Bool) (loc : Option Location) : (setter o raw params isStatic loc).Answers :=
  (answers_lowerParams h).bind fun _ => answers_pure _

theorem answers_getter {result : Option TypeExpr} (h : TypeExpr.isCompleteIn result = true)
    (raw : Text) (isStatic : Bool) (loc : Option Location) :
    (getter o raw result isStatic loc).Answers :=
  (answers_mapAnnotated h).bind fun _ => answers_pure _

theorem answers_property {annotated : Option TypeExpr}
    (h : TypeExpr.isCompleteIn annotated = true) (raw : Text) (isOptional isStatic : Bool)
    (loc : Option Location) : (property o raw annotated isOptional isStatic loc).Answers :=
  (answers_mapAnnotated h).bind fun _ => answers_pure _

theorem answers_named {key : PropertyKey} (hkey : key.isThere = true) (scope : GenericScope)
    {f : Text → Outcome Binding} (hf : ∀ raw, (f raw).Answers) : (named key scope f).Answers := by
  have hname : (memberName key).Answers := by
    rw [memberName]
    split
    · exact (answers_warn _ _).bind fun _ => answers_pure _
    · rename_i habsent
      simp [PropertyKey.isThere, habsent] at hkey
    · exact answers_pure _
  refine hname.bind fun name => ?_
  cases name with
  | none => exact answers_pure _
  | some raw => exact (hf raw).bind fun b => answers_pure _

theorem answers_constructorBinding {key : PropertyKey} (hkey : key.isThere = true)
    {params : List Param} (hparams : Param.areComplete params = true) (seenConstructor : Bool)
    (loc : Option Location) : (constructorBinding o key params seenConstructor loc).Answers := by
  rw [constructorBinding, if_neg (of_decide_eq_true hkey)]
  split
  · exact answers_fail _ _
  · split
    · exact answers_fail _ _
    · exact (answers_lowerParams hparams).bind fun params => answers_pure _

theorem answers_inMember {member : Member} {f : Owner → Outcome (List Binding)}
    (hf : ∀ o, (f o).Answers) : (inMember o member f).Answers :=
  (hf _).within _ _ _

theorem answers_lowerClassMember {member : Member} (h : member.isComplete = true)
    (hclass : member.isOfClass = true) (seenConstructor : Bool) :
    (lowerClassMember o seenConstructor member).Answers := by
  cases member with
  | index | staticBlock | empty => exact answers_fail _ _
  | constructorMember key params access loc =>
      rw [Member.isComplete, Bool.and_eq_true] at h
      simp only [lowerClassMember]
      split
      · exact answers_pure _
      · exact answers_constructorBinding h.1 h.2 _ _
  | method key kind signature isStatic access isOptional isAbstract loc =>
      rw [Member.isComplete, Bool.and_eq_true] at h
      obtain ⟨hkey, hsignature⟩ := h
      obtain ⟨params, result, typeParams⟩ := signature
      have hparts := Bool.and_eq_true_iff.mp (by rwa [Signature.isComplete] at hsignature)
      simp only [lowerClassMember]
      split
      · exact answers_pure _
      · refine answers_named hkey _ fun raw => ?_
        cases kind with
        | getter => exact answers_getter hparts.2 _ _ _
        | setter => exact answers_setter hparts.1 _ _ _
        | method => exact answers_method hsignature _ _ _
  | property key annotated isStatic access isReadonly isOptional loc =>
      rw [Member.isComplete, Bool.and_eq_true] at h
      simp only [lowerClassMember]
      split
      · exact answers_pure _
      · exact answers_named h.1 _ fun raw => answers_property h.2 _ _ _ _
  | _ => cases hclass

theorem answers_lowerInterfaceMember {member : Member} (h : member.isComplete = true) :
    (lowerInterfaceMember o member).Answers := by
  cases member with
  | propertySignature key annotated isOptional isReadonly loc =>
      rw [Member.isComplete, Bool.and_eq_true] at h
      exact answers_named h.1 _ fun raw => answers_property h.2 _ _ _ _
  | methodSignature key signature isOptional loc =>
      rw [Member.isComplete, Bool.and_eq_true] at h
      exact answers_named h.1 _ fun raw => answers_method h.2 _ _ _
  | getterSignature key result loc =>
      rw [Member.isComplete, Bool.and_eq_true] at h
      exact answers_named h.1 _ fun raw => answers_getter h.2 _ _ _
  | setterSignature key param loc =>
      rw [Member.isComplete, Bool.and_eq_true] at h
      have hparam : Param.areComplete [param] = true := by
        rw [Param.areComplete_iff]
        exact List.forall_mem_singleton.mpr h.2
      exact answers_named h.1 _ fun raw => answers_setter hparam _ _ _
  | stray s key => cases h
  | _ => exact (answers_warn _ _).bind fun _ => answers_pure _

theorem answers_lowerLiteralMember {member : Member} (h : member.isComplete = true)
    (literal : Text) : (lowerLiteralMember o literal member).Answers := by
  cases member with
  | propertySignature key annotated isOptional isReadonly loc =>
      exact answers_inMember fun o => answers_lowerInterfaceMember h
  | stray s key => cases h
  | _ => exact (answers_warn _ _).bind fun _ => answers_pure _

theorem answers_lowerClassMembers {members : List Member}
    (h : ∀ m ∈ members, m.isComplete = true ∧ m.isOfClass = true) (seenConstructor : Bool) :
    (lowerClassMembers o seenConstructor members).Answers := by
  induction members generalizing seenConstructor with
  | nil => exact answers_pure _
  | cons member rest ih =>
      obtain ⟨⟨hmember, hclass⟩, hrest⟩ := List.forall_mem_cons.mp h
      rw [lowerClassMembers]
      refine Answers.bind ?_ fun head => (ih hrest _).bind fun tail => answers_pure _
      exact answers_inMember fun o => answers_lowerClassMember hmember hclass _

theorem answers_lowerInterfaceMembers {members : List Member}
    (h : Member.areComplete members = true) : (lowerInterfaceMembers o members).Answers := by
  induction members with
  | nil => exact answers_pure _
  | cons member rest ih =>
      rw [Member.areComplete, Bool.and_eq_true] at h
      rw [lowerInterfaceMembers]
      refine Answers.bind ?_ fun head => (ih h.2).bind fun tail => answers_pure _
      exact answers_inMember fun o => answers_lowerInterfaceMember h.1

theorem answers_lowerLiteralMembers {members : List Member}
    (h : Member.areComplete members = true) (literal : Text) :
    (lowerLiteralMembers o literal members).Answers := by
  induction members with
  | nil => exact answers_pure _
  | cons member rest ih =>
      rw [Member.areComplete, Bool.and_eq_true] at h
      rw [lowerLiteralMembers_cons]
      refine (answers_lowerLiteralMember h.1 literal).bind fun head => ?_
      exact (ih h.2).bind fun tail => answers_pure _

end

theorem answers_requireName (what : Text) (name : Option Text) (loc : Option Location) :
    (requireName what name loc).Answers := by
  rw [requireName.eq_def]
  split
  · exact answers_fail _ _
  · exact answers_fail _ _
  · exact answers_pure _

theorem answers_lowerClass {d : ClassDeclaration}
    (h : (Declaration.classDeclaration d).isComplete = true) :
    (lowerClass options within d).Answers := by
  rw [Declaration.isComplete, List.all_eq_true] at h
  refine (answers_requireName _ _ _).bind fun name => ?_
  refine Answers.bind ?_ fun members => answers_pure _
  exact answers_lowerClassMembers (fun m hm => Bool.and_eq_true_iff.mp (h m hm)) _

theorem answers_lowerFunction {d : FunctionDeclaration}
    (h : (Declaration.function d).isComplete = true) :
    (lowerFunction options within d).Answers := by
  obtain ⟨name, ⟨params, result, typeParams⟩, loc⟩ := d
  rw [Declaration.isComplete, Signature.isComplete, Bool.and_eq_true] at h
  refine (answers_requireName _ _ _).bind fun name => ?_
  refine (answers_lowerParams h.1).bind fun params => ?_
  exact (answers_mapResult h.2).bind fun result => answers_pure _

theorem answers_lowerVariables {d : VariableDeclaration}
    (h : (Declaration.variableDeclaration d).isComplete = true) :
    (lowerVariables options within d).Answers := by
  rw [Declaration.isComplete, List.all_eq_true] at h
  rw [lowerVariables]
  split
  · rename_i hdeclarators
    have habsent := h _ (hdeclarators ▸ List.mem_cons_self)
    simp [Declarator.isComplete] at habsent
  · rename_i declarator _ hdeclarators
    have hcomplete := h declarator (hdeclarators ▸ List.mem_cons_self)
    rw [Declarator.isComplete, Bool.and_eq_true] at hcomplete
    split
    · exact (answers_mapAnnotated hcomplete.2).bind fun type => answers_pure _
    · exact answers_fail _ _
  · exact answers_fail _ _

theorem isComplete_stripParens {ty : TypeExpr} (h : ty.isComplete = true) :
    (stripParens ty).isComplete = true := by
  cases ty with
  | paren inner loc =>
      rw [TypeExpr.isComplete] at h
      rw [stripParens]
      exact isComplete_stripParens h
  | _ => exact h

theorem answers_lowerAlias {d : AliasDeclaration}
    (h : (Declaration.typeAlias d).isComplete = true) : (lowerAlias options within d).Answers := by
  rw [Declaration.isComplete] at h
  have hstripped := isComplete_stripParens h
  simp only [lowerAlias]
  split
  · rename_i members loc hobject
    rw [hobject, TypeExpr.isComplete] at hstripped
    exact (answers_lowerLiteralMembers hstripped _).bind fun members => answers_pure _
  · exact answers_pure _

theorem answers_lowerInterface {d : InterfaceDeclaration}
    (h : (Declaration.interface d).isComplete = true) :
    (lowerInterface options within d).Answers := by
  rw [Declaration.isComplete] at h
  exact (answers_lowerInterfaceMembers h).bind fun members => answers_pure _

mutual

theorem answers_lower {within : List Text} {d : Declaration} (h : d.isComplete = true) :
    (lower options within d).Answers := by
  cases d with
  | classDeclaration d =>
      rw [lower]
      exact (answers_lowerClass h).within _ _ _
  | function d =>
      rw [lower]
      exact (answers_lowerFunction h).within _ _ _
  | variableDeclaration d =>
      rw [lower]
      exact (answers_lowerVariables h).within _ _ _
  | typeAlias d =>
      rw [lower]
      exact (answers_lowerAlias h).within _ _ _
  | interface d =>
      rw [lower]
      exact (answers_lowerInterface h).within _ _ _
  | enumeration d =>
      rw [lower]
      exact (answers_fail _ _).within _ _ _
  | space d =>
      rw [Declaration.isComplete] at h
      rw [lower]
      exact (answers_lowerNamespace h).within _ _ _
  | stray s => cases h

theorem answers_lowerNamespace {within : List Text} {d : Namespace} (h : d.isComplete = true) :
    (lowerNamespace options within d).Answers := by
  obtain ⟨name, body, isStringName, isGlobal, loc⟩ := d
  rw [Namespace.isComplete] at h
  rw [lowerNamespace.eq_def]
  dsimp only
  split
  · exact (answers_warn _ _).bind fun _ => answers_pure _
  · cases body with
    | nested inner => exact (answers_warn _ _).bind fun _ => answers_pure _
    | missing => exact (answers_warn _ _).bind fun _ => answers_pure _
    | block statements blockLoc =>
        rw [NamespaceBody.isComplete] at h
        exact (answers_lowerStatements h).bind fun bindings => answers_pure _

theorem answers_lowerStatements {within : List Text} {statements : List Statement}
    (h : Statement.areComplete statements = true) :
    (lowerStatements options within statements).Answers := by
  match statements with
  | [] => exact answers_pure _
  | .declaration d :: rest | .exportDeclaration d _ :: rest
  | .exportDefaultDeclaration d _ :: rest =>
      rw [Statement.areComplete, Bool.and_eq_true, Statement.isComplete] at h
      rw [lowerStatements]
      refine (answers_lower h.1).bind fun head => ?_
      exact (answers_lowerStatements h.2).bind fun tail => answers_pure _
  | .importDeclaration _ :: rest | .importAlias _ :: rest | .exportList _ :: rest
  | .exportDefaultName _ _ :: rest | .exportAll _ _ _ :: rest | .exportAssignment _ _ :: rest
  | .exportAsNamespace _ _ :: rest | .stray _ :: rest =>
      rw [Statement.areComplete, Bool.and_eq_true] at h
      simp only [lowerStatements]
      exact answers_lowerStatements h.2

end

end Lowering

namespace Composition

open Source Rust Outcome Lowering

variable {options : Options}

theorem answers_drop (concern : Concern) (loc : Option Location) : (drop concern loc).Answers :=
  (answers_warn _ _).bind fun _ => answers_pure _

theorem answers_linkAll {α : Type} {f : α → Outcome (Option Use)} {as : List α}
    (h : ∀ a ∈ as, (f a).Answers) : (linkAll f as).Answers := by
  induction as with
  | nil => exact answers_pure _
  | cons a rest ih =>
      obtain ⟨ha, hrest⟩ := List.forall_mem_cons.mp h
      rw [linkAll]
      exact ha.bind fun head => (ih hrest).bind fun tail => answers_pure _

theorem answers_linkImport (path : List Text) (source : Text) (s : ImportSpecifier) :
    (linkImport path source s).Answers := by
  rw [linkImport]
  split
  · exact answers_pure _
  · exact answers_pure _
  · exact answers_drop _ _

theorem answers_linkExport (source : Option Text) (s : ExportSpecifier) :
    (linkExport options source s).Answers := by
  rw [linkExport.eq_def]
  split
  · exact answers_drop _ _
  · split <;> exact answers_pure _

theorem answers_linkAlias {a : ImportAlias} (h : (Statement.importAlias a).isComplete = true) :
    (linkAlias options a).Answers := by
  rw [linkAlias]
  split
  · rename_i fault hfault
    exfalso
    obtain ⟨name, target, isExport, loc⟩ := a
    match target with
    | .required none => cases h
    | .required (some specifier) | .entity segments =>
        simp only [aliasUse?] at hfault
        repeat' split at hfault
        all_goals cases hfault
  · exact answers_pure _
  · exact answers_drop _ _

theorem answers_link {s : Statement} (h : s.isComplete = true) : (link options s).Answers := by
  rw [link.eq_def]
  split
  · exact answers_linkAll fun s _ => answers_linkImport _ _ s
  · exact answers_linkAll fun s _ => answers_linkExport _ s
  · exact answers_pure _
  · exact answers_pure _
  · exact answers_linkAll (List.forall_mem_singleton.mpr (answers_linkAlias h))
  · exact answers_pure _

theorem answers_uses {body : List Statement} (h : ∀ s ∈ body, s.isComplete = true) :
    (uses options body).Answers := by
  induction body with
  | nil => exact answers_pure _
  | cons s rest ih =>
      obtain ⟨hs, hrest⟩ := List.forall_mem_cons.mp h
      rw [uses]
      exact (answers_link hs).bind fun head => (ih hrest).bind fun tail => answers_pure _

mutual

theorem answers_composeDeclaration {items : List Item} {d : Declaration}
    (h : d.isComplete = true) : (composeDeclaration options items d).Answers := by
  match d with
  | .space ⟨name, .block statements blockLoc, isStringName, isGlobal, loc⟩ =>
      rw [composeDeclaration]
      split
      · exact (answers_lower h).bind fun bindings => answers_pure _
      · rw [Declaration.isComplete, Namespace.isComplete, NamespaceBody.isComplete] at h
        exact (answers_composeStatements h).bind fun inner => answers_pure _
  | .space ⟨_, .missing, _, _, _⟩ | .space ⟨_, .nested _, _, _, _⟩ | .classDeclaration _
  | .function _ | .variableDeclaration _ | .typeAlias _ | .interface _ | .enumeration _
  | .stray _ =>
      simp only [composeDeclaration]
      exact (answers_lower h).bind fun bindings => answers_pure _

theorem answers_composeStatements {items : List Item} {statements : List Statement}
    (h : Statement.areComplete statements = true) :
    (composeStatements options items statements).Answers := by
  match statements with
  | [] => exact answers_pure _
  | .declaration d :: rest | .exportDeclaration d _ :: rest
  | .exportDefaultDeclaration d _ :: rest =>
      rw [Statement.areComplete, Bool.and_eq_true, Statement.isComplete] at h
      rw [composeStatements]
      exact (answers_composeDeclaration h.1).bind fun items => answers_composeStatements h.2
  | .importDeclaration _ :: rest | .importAlias _ :: rest | .exportList _ :: rest
  | .exportDefaultName _ _ :: rest | .exportAll _ _ _ :: rest | .exportAssignment _ _ :: rest
  | .exportAsNamespace _ _ :: rest | .stray _ :: rest =>
      rw [Statement.areComplete, Bool.and_eq_true] at h
      simp only [composeStatements]
      exact answers_composeStatements h.2

end

theorem answers_composeDeclarations {items : List Item} {ds : List Declaration}
    (h : ∀ d ∈ ds, d.isComplete = true) : (composeDeclarations options items ds).Answers := by
  induction ds generalizing items with
  | nil => exact answers_pure _
  | cons d rest ih =>
      obtain ⟨hd, hrest⟩ := List.forall_mem_cons.mp h
      rw [composeDeclarations]
      exact (answers_composeDeclaration hd).bind fun items => ih hrest

theorem isComplete_of_mem_visible {m : Module} (h : m.isComplete = true) {d : Declaration}
    (hd : d ∈ m.visibleDeclarations) : d.isComplete = true := by
  have hbody := Statement.areComplete_iff.mp h
  rw [Module.visibleDeclarations] at hd
  split at hd
  · obtain ⟨s, hs, hexposed⟩ := List.mem_filterMap.mp hd
    have hcomplete := hbody s hs
    rw [Module.exposed.eq_def] at hexposed
    split at hexposed
    · cases hexposed
      rwa [Statement.isComplete] at hcomplete
    · cases hexposed
      rwa [Statement.isComplete] at hcomplete
    · split at hexposed
      · cases hexposed
        rwa [Statement.isComplete] at hcomplete
      · cases hexposed
    · cases hexposed
  · obtain ⟨s, hs, hdeclared⟩ := List.mem_filterMap.mp hd
    have hcomplete := hbody s hs
    split at hdeclared
    · cases hdeclared
      rwa [Statement.isComplete] at hcomplete
    · cases hdeclared

/-- A complete module has a unit or a failure. -/
theorem answers_compose {m : Module} (h : m.isComplete = true) : (compose options m).Answers := by
  refine (answers_uses (Statement.areComplete_iff.mp h)).bind fun uses => ?_
  refine Answers.bind ?_ fun items => answers_pure _
  exact answers_composeDeclarations fun d => isComplete_of_mem_visible h

end Composition

end HostBindings

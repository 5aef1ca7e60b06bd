import HostBindings.Proofs.Relocation

/-!
Reading commutes with relocation: moving the tokens of a source moves the places in the module that
is read from them, and changes nothing else.
-/

namespace HostBindings.Source

variable (f : Location → Location)

namespace Piece

@[simp]
theorem relocate_token (t : Token) : relocate f (.token t) = .token (t.relocate f) := rfl

@[simp]
theorem relocate_node (label : Nonterminal) (loc : Option Location) (tokens : List Token)
    (value : Value) :
    relocate f (.node label loc tokens value) =
      .node label (loc.map f) (tokens.map (Token.relocate f)) (value.relocate f) := rfl

variable (p : Piece)

@[simp]
theorem isNode_relocate : (p.relocate f).isNode = p.isNode := by
  cases p <;> rfl

@[simp]
theorem isLabelled_relocate (label : Nonterminal) :
    (p.relocate f).isLabelled label = p.isLabelled label := by
  cases p <;> rfl

@[simp]
theorem value_relocate : (p.relocate f).value = p.value.relocate f := by
  cases p <;> rfl

@[simp]
theorem loc_relocate : (p.relocate f).loc = p.loc.map f := by
  cases p <;> rfl

@[simp]
theorem tokens_relocate : (p.relocate f).tokens = p.tokens.map (Token.relocate f) := by
  cases p <;> rfl

end Piece

@[simp]
theorem Token.kind_relocate (t : Token) : (t.relocate f).kind = t.kind := rfl

@[simp]
theorem Token.text_relocate (t : Token) : (t.relocate f).text = t.text := rfl

namespace Pieces

variable (ps : Pieces)

@[simp]
theorem nodes_relocate :
    nodes (ps.map (Piece.relocate f)) = (nodes ps).map (Piece.relocate f) := by
  simp [nodes, List.filter_map, Function.comp_def]

theorem find?_relocate {select : Piece → Bool} (h : ∀ p, select (p.relocate f) = select p) :
    (ps.map (Piece.relocate f)).find? select = (ps.find? select).map (Piece.relocate f) := by
  have hselect : select ∘ Piece.relocate f = select := funext h
  rw [List.find?_map, hselect]

@[simp]
theorem find_relocate (label : Nonterminal) :
    find label (ps.map (Piece.relocate f)) = (find label ps).map (Piece.relocate f) :=
  find?_relocate f ps fun p => Piece.isLabelled_relocate f p label

@[simp]
theorem findAll_relocate (label : Nonterminal) :
    findAll label (ps.map (Piece.relocate f)) = (findAll label ps).map (Piece.relocate f) := by
  simp [findAll, List.filter_map, Function.comp_def]

theorem findSome?_relocate {select : Piece → Option Token}
    (h : ∀ p, select (p.relocate f) = (select p).map (Token.relocate f)) :
    (ps.map (Piece.relocate f)).findSome? select =
      (ps.findSome? select).map (Token.relocate f) := by
  induction ps with
  | nil => rfl
  | cons p rest ih =>
      rw [List.map_cons, List.findSome?_cons, List.findSome?_cons, h]
      cases select p with
      | some t => rfl
      | none => exact ih

@[simp]
theorem token?_relocate (kind : Terminal) :
    token? kind (ps.map (Piece.relocate f)) = (token? kind ps).map (Token.relocate f) := by
  refine findSome?_relocate f ps fun p => ?_
  cases p with
  | token t => by_cases h : t.kind = kind <;> simp [h]
  | node => rfl

@[simp]
theorem hasToken_relocate (kind : Terminal) :
    hasToken kind (ps.map (Piece.relocate f)) = hasToken kind ps := by
  rw [hasToken, token?_relocate, Option.isSome_map, hasToken]

@[simp]
theorem firstToken?_relocate :
    firstToken? (ps.map (Piece.relocate f)) = (firstToken? ps).map (Token.relocate f) := by
  refine findSome?_relocate f ps fun p => ?_
  cases p <;> rfl

@[simp]
theorem tokens_relocate :
    tokens (ps.map (Piece.relocate f)) = (tokens ps).map (Token.relocate f) := by
  simp [tokens, List.flatMap_map, List.map_flatMap]

end Pieces

namespace Reader

section

variable {α β γ : Type}

@[simp]
theorem required_map (g : α → β) (o : Option α) : required (o.map g) = g <$> required o := by
  cases o <;> rfl

@[simp]
theorem map_error (g : α → β) (fault : Fault) :
    g <$> (.error fault : Read α) = .error fault := rfl

@[simp]
theorem map_ok (g : α → β) (a : α) : g <$> (.ok a : Read α) = .ok (g a) := rfl

@[simp]
theorem getD_map_nil (g : α → β) (o : Option (List α)) :
    (o.map (List.map g)).getD [] = (o.getD []).map g := by
  cases o <;> rfl

@[simp]
theorem mapM_option_map (g : α → β) (k : β → Read γ) (o : Option α) :
    (o.map g).mapM k = o.mapM fun a => k (g a) := by
  cases o <;> rfl

@[simp]
theorem mapM_option_natural (h : β → γ) (k : α → Read β) (o : Option α) :
    (o.mapM fun a => h <$> k a) = Option.map h <$> o.mapM k := by
  cases o with
  | none => rfl
  | some a =>
      show some <$> h <$> k a = Option.map h <$> some <$> k a
      rw [Functor.map_map, Functor.map_map]
      rfl

@[simp]
theorem mapM_natural (h : β → γ) (k : α → Read β) (as : List α) :
    (as.mapM fun a => h <$> k a) = List.map h <$> as.mapM k := by
  induction as with
  | nil => rfl
  | cons a rest ih => simp [List.mapM_cons, ih]

end

section

variable (p : Piece)

@[simp]
theorem word_relocate : word (p.relocate f) = word p := by
  rw [word, word, Piece.value_relocate]
  cases p.value <;> rfl

theorem filterMap_word_relocate (ps : Pieces) :
    (ps.map (Piece.relocate f)).filterMap (fun p => (word p).toOption) =
      ps.filterMap fun p => (word p).toOption := by
  rw [List.filterMap_map]
  exact congrArg (List.filterMap · ps) (funext fun p => congrArg _ (word_relocate f p))

@[simp]
theorem entity_relocate : entity (p.relocate f) = entity p := by
  rw [entity, entity, Piece.value_relocate]
  cases p.value <;> rfl

@[simp]
theorem exportName_relocate : exportName (p.relocate f) = exportName p := by
  rw [exportName, exportName, Piece.value_relocate]
  cases p.value <;> rfl

@[simp]
theorem requiredModule_relocate : requiredModule (p.relocate f) = requiredModule p := by
  rw [requiredModule, requiredModule, Piece.value_relocate]
  cases p.value <;> rfl

@[simp]
theorem key_relocate : key (p.relocate f) = PropertyKey.relocate f <$> key p := by
  rw [key, key, Piece.value_relocate]
  cases p.value <;> rfl

@[simp]
theorem type_relocate : type (p.relocate f) = TypeExpr.relocate f <$> type p := by
  rw [type, type, Piece.value_relocate]
  cases p.value <;> rfl

@[simp]
theorem types_relocate : types (p.relocate f) = List.map (TypeExpr.relocate f) <$> types p := by
  rw [types, types, Piece.value_relocate]
  cases p.value <;> rfl

@[simp]
theorem param_relocate : param (p.relocate f) = Param.relocate f <$> param p := by
  rw [param, param, Piece.value_relocate]
  cases p.value <;> rfl

@[simp]
theorem params_relocate : params (p.relocate f) = List.map (Param.relocate f) <$> params p := by
  rw [params, params, Piece.value_relocate]
  cases p.value <;> rfl

@[simp]
theorem typeParam_relocate : typeParam (p.relocate f) = TypeParam.relocate f <$> typeParam p := by
  rw [typeParam, typeParam, Piece.value_relocate]
  cases p.value <;> rfl

@[simp]
theorem typeParams_relocate :
    typeParams (p.relocate f) = List.map (TypeParam.relocate f) <$> typeParams p := by
  rw [typeParams, typeParams, Piece.value_relocate]
  cases p.value <;> rfl

@[simp]
theorem member_relocate : member (p.relocate f) = Member.relocate f <$> member p := by
  rw [member, member, Piece.value_relocate]
  cases p.value <;> rfl

@[simp]
theorem members_relocate : members (p.relocate f) = List.map (Member.relocate f) <$> members p := by
  rw [members, members, Piece.value_relocate]
  cases p.value <;> rfl

@[simp]
theorem heritage_relocate : heritage (p.relocate f) = Heritage.relocate f <$> heritage p := by
  rw [heritage, heritage, Piece.value_relocate]
  cases p.value <;> rfl

@[simp]
theorem heritages_relocate :
    heritages (p.relocate f) = List.map (Heritage.relocate f) <$> heritages p := by
  rw [heritages, heritages, Piece.value_relocate]
  cases p.value <;> rfl

@[simp]
theorem declarator_relocate :
    declarator (p.relocate f) = Declarator.relocate f <$> declarator p := by
  rw [declarator, declarator, Piece.value_relocate]
  cases p.value <;> rfl

@[simp]
theorem enumMember_relocate :
    enumMember (p.relocate f) = EnumMember.relocate f <$> enumMember p := by
  rw [enumMember, enumMember, Piece.value_relocate]
  cases p.value <;> rfl

@[simp]
theorem importSpecifiers_relocate :
    importSpecifiers (p.relocate f) =
      List.map (ImportSpecifier.relocate f) <$> importSpecifiers p := by
  rw [importSpecifiers, importSpecifiers, Piece.value_relocate]
  cases p.value <;> rfl

@[simp]
theorem exportSpecifier_relocate :
    exportSpecifier (p.relocate f) = ExportSpecifier.relocate f <$> exportSpecifier p := by
  rw [exportSpecifier, exportSpecifier, Piece.value_relocate]
  cases p.value <;> rfl

@[simp]
theorem statement_relocate : statement (p.relocate f) = Statement.relocate f <$> statement p := by
  rw [statement, statement, Piece.value_relocate]
  cases p.value <;> rfl

@[simp]
theorem pattern_relocate : pattern (p.relocate f) = BindingPattern.relocate f <$> pattern p := by
  rw [pattern, pattern, Piece.value_relocate, Piece.loc_relocate]
  cases p.value <;> rfl

@[simp]
theorem declaration_relocate :
    declaration (p.relocate f) = Declaration.relocate f <$> declaration p := by
  simp only [declaration, statement_relocate, bind_map_left, map_bind]
  congr
  funext s
  cases s <;> simp

@[simp]
theorem block_relocate : block (p.relocate f) = NamespaceBody.relocate f <$> block p := by
  rw [block, block, Piece.value_relocate]
  cases p.value <;> simp [Value.relocate]

end

section

variable (ps : Pieces)

@[simp]
theorem wordOf_relocate (label : Nonterminal) :
    wordOf label (ps.map (Piece.relocate f)) = wordOf label ps := by
  simp [wordOf]

@[simp]
theorem wordOf?_relocate (label : Nonterminal) :
    wordOf? label (ps.map (Piece.relocate f)) = wordOf? label ps := by
  simp [wordOf?]

@[simp]
theorem nameOf_relocate : nameOf (ps.map (Piece.relocate f)) = nameOf ps :=
  wordOf_relocate f ps _

@[simp]
theorem segmentsOf_relocate : segmentsOf (ps.map (Piece.relocate f)) = segmentsOf ps := by
  simp [segmentsOf]

@[simp]
theorem stringOf_relocate : stringOf (ps.map (Piece.relocate f)) = stringOf ps := by
  simp [stringOf]

@[simp]
theorem keyOf_relocate :
    keyOf (ps.map (Piece.relocate f)) = PropertyKey.relocate f <$> keyOf ps := by
  simp [keyOf]

@[simp]
theorem paramsOf_relocate :
    paramsOf (ps.map (Piece.relocate f)) = List.map (Param.relocate f) <$> paramsOf ps := by
  simp [paramsOf]

@[simp]
theorem typeParamsOf_relocate :
    typeParamsOf (ps.map (Piece.relocate f)) =
      List.map (TypeParam.relocate f) <$> typeParamsOf ps := by
  simp [typeParamsOf]

@[simp]
theorem argsOf_relocate :
    argsOf (ps.map (Piece.relocate f)) = List.map (TypeExpr.relocate f) <$> argsOf ps := by
  simp [argsOf]

@[simp]
theorem annotatedOf_relocate :
    annotatedOf (ps.map (Piece.relocate f)) =
      Option.map (TypeExpr.relocate f) <$> annotatedOf ps := by
  simp [annotatedOf]

@[simp]
theorem resultOf_relocate :
    resultOf (ps.map (Piece.relocate f)) = Option.map (TypeExpr.relocate f) <$> resultOf ps := by
  simp [resultOf]

@[simp]
theorem signatureOf_relocate :
    signatureOf (ps.map (Piece.relocate f)) = Signature.relocate f <$> signatureOf ps := by
  simp [signatureOf]

@[simp]
theorem firstType_relocate :
    firstType (ps.map (Piece.relocate f)) = TypeExpr.relocate f <$> firstType ps := by
  simp [firstType]

@[simp]
theorem lastType_relocate :
    lastType (ps.map (Piece.relocate f)) = TypeExpr.relocate f <$> lastType ps := by
  simp [lastType]

@[simp]
theorem allTypes_relocate :
    allTypes (ps.map (Piece.relocate f)) = List.map (TypeExpr.relocate f) <$> allTypes ps := by
  simp [allTypes, Function.comp_def]

@[simp]
theorem typeBeside_relocate (labels : List Nonterminal) :
    typeBeside labels (ps.map (Piece.relocate f)) =
      TypeExpr.relocate f <$> typeBeside labels ps := by
  rw [typeBeside, typeBeside, Pieces.nodes_relocate, Pieces.find?_relocate f _ (by simp)]
  simp

end

section

variable (loc : Option Location) (ps : Pieces)

@[simp]
theorem reference_relocate (segments : List Text) (args : List TypeExpr) :
    reference segments (args.map (TypeExpr.relocate f)) (loc.map f) =
      TypeExpr.relocate f <$> reference segments args loc := by
  rw [reference, reference]
  cases segments.getLast? with
  | none => rfl
  | some name =>
      simp only [List.isEmpty_map]
      split
      · cases Keyword.ofWord? name with
        | some keyword => rfl
        | none =>
            dsimp only
            split
            · rfl
            · split <;> simp
      · simp

@[simp]
theorem literal_relocate :
    literal (loc.map f) (ps.map (Piece.relocate f)) = TypeExpr.relocate f <$> literal loc ps := by
  rw [literal, literal, Pieces.findSome?_relocate f ps, required_map, bind_map_left, map_bind]
  · congr
    funext t
    simp only [Token.kind_relocate, Token.text_relocate, Pieces.hasToken_relocate]
    split <;> simp
  · intro p
    cases p with
    | token t => by_cases h : t.kind = .minus <;> simp [h]
    | node => rfl

@[simp]
theorem typeReference_relocate :
    typeReference (loc.map f) (ps.map (Piece.relocate f)) =
      TypeExpr.relocate f <$> typeReference loc ps := by
  simp [typeReference]

@[simp]
theorem functionType_relocate :
    functionType (loc.map f) (ps.map (Piece.relocate f)) =
      TypeExpr.relocate f <$> functionType loc ps := by
  simp [functionType]

@[simp]
theorem constructorType_relocate :
    constructorType (loc.map f) (ps.map (Piece.relocate f)) =
      TypeExpr.relocate f <$> constructorType loc ps := by
  simp [constructorType]

@[simp]
theorem conditionalType_relocate :
    conditionalType (loc.map f) (ps.map (Piece.relocate f)) =
      TypeExpr.relocate f <$> conditionalType loc ps := by
  simp only [conditionalType, allTypes_relocate, bind_map_left, map_bind]
  congr
  funext types
  match types with
  | [] | [_] | [_, _] | [_, _, _] | _ :: _ :: _ :: _ :: _ :: _ => rfl
  | [_, _, _, _] => simp

@[simp]
theorem indexedType_relocate :
    indexedType (loc.map f) (ps.map (Piece.relocate f)) =
      TypeExpr.relocate f <$> indexedType loc ps := by
  simp only [indexedType, allTypes_relocate, bind_map_left, map_bind]
  congr
  funext types
  rcases types with _ | ⟨object, _ | ⟨index, _ | ⟨third, rest⟩⟩⟩
  · rfl
  · rfl
  · simp
  · rfl

@[simp]
theorem typeOperator_relocate :
    typeOperator (loc.map f) (ps.map (Piece.relocate f)) =
      TypeExpr.relocate f <$> typeOperator loc ps := by
  simp [typeOperator]

@[simp]
theorem mappedType_relocate :
    mappedType (loc.map f) (ps.map (Piece.relocate f)) =
      TypeExpr.relocate f <$> mappedType loc ps := by
  simp [mappedType]

@[simp]
theorem importType_relocate :
    importType (loc.map f) (ps.map (Piece.relocate f)) =
      TypeExpr.relocate f <$> importType loc ps := by
  simp [importType]

@[simp]
theorem typePredicate_relocate :
    typePredicate (loc.map f) (ps.map (Piece.relocate f)) =
      TypeExpr.relocate f <$> typePredicate loc ps := by
  simp [typePredicate]

@[simp]
theorem namedElement_relocate :
    namedElement (loc.map f) (ps.map (Piece.relocate f)) =
      TypeExpr.relocate f <$> namedElement loc ps := by
  simp only [namedElement, lastType_relocate, Pieces.hasToken_relocate, bind_map_left, map_bind]
  congr
  funext inner
  split <;> simp

end

section

variable (loc : Option Location) (ps : Pieces)

@[simp]
theorem parameter_relocate (isRest : Bool) :
    parameter isRest (loc.map f) (ps.map (Piece.relocate f)) =
      Param.relocate f <$> parameter isRest loc ps := by
  rw [parameter, parameter, Pieces.nodes_relocate, Pieces.find?_relocate f _ (by simp)]
  simp

@[simp]
theorem typeParameter_relocate :
    typeParameter (loc.map f) (ps.map (Piece.relocate f)) =
      TypeParam.relocate f <$> typeParameter loc ps := by
  simp [typeParameter]

@[simp]
theorem computedText_relocate :
    computedText (ps.map (Piece.relocate f)) = computedText ps := by
  rw [computedText, computedText, Pieces.find_relocate]
  cases Pieces.find .entityName ps <;> simp

@[simp]
theorem propertyKey_relocate :
    propertyKey (loc.map f) (ps.map (Piece.relocate f)) =
      PropertyKey.relocate f <$> propertyKey loc ps := by
  simp only [propertyKey, List.head?_map, required_map, bind_map_left, map_bind]
  congr
  funext p
  cases p with
  | token t =>
      simp only [Piece.relocate, Token.kind_relocate, Token.text_relocate]
      split <;> simp [PropertyKey.relocate]
  | node label own tokens value =>
      have hword := word_relocate f (.node label own tokens value)
      cases value with
      | exportName text =>
          by_cases hlabel : label = .computedKey
          · subst hlabel
            simp [Value.relocate, PropertyKey.relocate]
          · simp_all [Value.relocate, PropertyKey.relocate]
      | _ => simp_all [Value.relocate, PropertyKey.relocate]

@[simp]
theorem moduleExportName_relocate :
    moduleExportName (ps.map (Piece.relocate f)) = moduleExportName ps := by
  simp only [moduleExportName, List.head?_map, required_map, bind_map_left]
  congr
  funext p
  cases p with
  | token t => rfl
  | node label own tokens value => exact word_relocate f (.node label own tokens value)

@[simp]
theorem modifiers_relocate :
    modifiers (ps.map (Piece.relocate f)) = modifiers ps := by
  rw [modifiers, modifiers, Pieces.findAll_relocate, filterMap_word_relocate]

@[simp]
theorem hasModifier_relocate (name : Text) :
    hasModifier name (ps.map (Piece.relocate f)) = hasModifier name ps := by
  rw [hasModifier, hasModifier, modifiers_relocate]

@[simp]
theorem indexParam_relocate :
    indexParam (ps.map (Piece.relocate f)) = Param.relocate f <$> indexParam ps := by
  simp [indexParam, BindingPattern.relocate]

@[simp]
theorem indexMember_relocate (isReadonly isStatic : Bool) :
    indexMember isReadonly isStatic (loc.map f) (ps.map (Piece.relocate f)) =
      Member.relocate f <$> indexMember isReadonly isStatic loc ps := by
  simp [indexMember]

@[simp]
theorem methodMember_relocate :
    methodMember (loc.map f) (ps.map (Piece.relocate f)) =
      Member.relocate f <$> methodMember loc ps := by
  simp only [methodMember, keyOf_relocate, paramsOf_relocate, signatureOf_relocate,
    hasModifier_relocate, modifiers_relocate, Pieces.hasToken_relocate, bind_map_left, map_bind]
  congr
  funext key
  congr
  funext params
  rw [apply_ite (Functor.map (Member.relocate f))]
  refine ite_congr rfl (fun _ => ?_) fun _ => ?_ <;> simp

@[simp]
theorem accessorMember_relocate :
    accessorMember (loc.map f) (ps.map (Piece.relocate f)) =
      Member.relocate f <$> accessorMember loc ps := by
  simp [accessorMember,
    Signature.relocate, Option.toList_map]

@[simp]
theorem propertyMember_relocate :
    propertyMember (loc.map f) (ps.map (Piece.relocate f)) =
      Member.relocate f <$> propertyMember loc ps := by
  simp [propertyMember]

@[simp]
theorem propertySignature_relocate :
    propertySignature (loc.map f) (ps.map (Piece.relocate f)) =
      Member.relocate f <$> propertySignature loc ps := by
  simp [propertySignature]

@[simp]
theorem methodSignature_relocate :
    methodSignature (loc.map f) (ps.map (Piece.relocate f)) =
      Member.relocate f <$> methodSignature loc ps := by
  simp [methodSignature]

@[simp]
theorem getterSignature_relocate :
    getterSignature (loc.map f) (ps.map (Piece.relocate f)) =
      Member.relocate f <$> getterSignature loc ps := by
  simp [getterSignature]

@[simp]
theorem setterSignature_relocate :
    setterSignature (loc.map f) (ps.map (Piece.relocate f)) =
      Member.relocate f <$> setterSignature loc ps := by
  simp [setterSignature]

@[simp]
theorem isEnded_relocate : isEnded (ps.map (Piece.relocate f)) = isEnded ps := by
  simp [isEnded]

@[simp]
theorem classMembers_relocate (ended : Bool) :
    classMembers ended (ps.map (Piece.relocate f)) =
      List.map (Member.relocate f) <$> classMembers ended ps := by
  induction ps generalizing ended with
  | nil => rfl
  | cons p rest ih =>
      cases p with
      | token t =>
          simp only [List.map_cons, Piece.relocate, classMembers, Token.kind_relocate, ih]
          split
          · simp only [bind_map_left, map_bind]
            congr
            funext tail
            split <;> simp [Token.relocate]
          · rfl
      | node label loc tokens value =>
          cases value <;> simp [Value.relocate, classMembers, ih]

end

section

variable (loc : Option Location) (ps : Pieces)

@[simp]
theorem heritageOf_relocate :
    heritageOf (loc.map f) (ps.map (Piece.relocate f)) =
      Heritage.relocate f <$> heritageOf loc ps := by
  simp [heritageOf, Heritage.relocate]

@[simp]
theorem classDeclaration_relocate :
    classDeclaration (loc.map f) (ps.map (Piece.relocate f)) =
      Declaration.relocate f <$> classDeclaration loc ps := by
  simp [classDeclaration, ClassDeclaration.relocate]

@[simp]
theorem functionDeclaration_relocate :
    functionDeclaration (loc.map f) (ps.map (Piece.relocate f)) =
      Declaration.relocate f <$> functionDeclaration loc ps := by
  simp [functionDeclaration, FunctionDeclaration.relocate]

@[simp]
theorem declaratorOf_relocate :
    declaratorOf (loc.map f) (ps.map (Piece.relocate f)) =
      Declarator.relocate f <$> declaratorOf loc ps := by
  simp [declaratorOf, Declarator.relocate]

@[simp]
theorem variableDeclaration_relocate :
    variableDeclaration (loc.map f) (ps.map (Piece.relocate f)) =
      Declaration.relocate f <$> variableDeclaration loc ps := by
  simp [variableDeclaration, VariableDeclaration.relocate, Function.comp_def]

@[simp]
theorem aliasDeclaration_relocate :
    aliasDeclaration (loc.map f) (ps.map (Piece.relocate f)) =
      Declaration.relocate f <$> aliasDeclaration loc ps := by
  simp [aliasDeclaration, AliasDeclaration.relocate]

@[simp]
theorem interfaceDeclaration_relocate :
    interfaceDeclaration (loc.map f) (ps.map (Piece.relocate f)) =
      Declaration.relocate f <$> interfaceDeclaration loc ps := by
  simp [interfaceDeclaration, InterfaceDeclaration.relocate]

@[simp]
theorem enumMemberOf_relocate :
    enumMemberOf (loc.map f) (ps.map (Piece.relocate f)) =
      EnumMember.relocate f <$> enumMemberOf loc ps := by
  simp [enumMemberOf, EnumMember.relocate, Function.comp_def]

@[simp]
theorem enumDeclaration_relocate :
    enumDeclaration (loc.map f) (ps.map (Piece.relocate f)) =
      Declaration.relocate f <$> enumDeclaration loc ps := by
  simp [enumDeclaration, EnumDeclaration.relocate, Function.comp_def]

@[simp]
theorem nest_relocate (body : NamespaceBody) (name : Text) (rest : List Text) :
    nest (loc.map f) (body.relocate f) name rest = (nest loc body name rest).relocate f := by
  induction rest generalizing name with
  | nil => simp [nest]
  | cons next rest ih => simp [nest, ih]

@[simp]
theorem namespaceDeclaration_relocate :
    namespaceDeclaration (loc.map f) (ps.map (Piece.relocate f)) =
      Declaration.relocate f <$> namespaceDeclaration loc ps := by
  simp only [namespaceDeclaration, Pieces.find_relocate, Pieces.hasToken_relocate,
    segmentsOf_relocate, stringOf_relocate, mapM_option_map, block_relocate, mapM_option_natural,
    bind_map_left, map_bind]
  congr
  funext body
  have hbody : (body.map (NamespaceBody.relocate f)).getD .missing =
      (body.getD .missing).relocate f := by
    cases body <;> simp
  rw [hbody]
  split
  · simp
  · rw [map_bind]
    congr
    funext segments
    cases segments <;> simp

@[simp]
theorem globalDeclaration_relocate :
    globalDeclaration (loc.map f) (ps.map (Piece.relocate f)) =
      Declaration.relocate f <$> globalDeclaration loc ps := by
  simp [globalDeclaration]

@[simp]
theorem importSpecifierOf_relocate :
    importSpecifierOf (loc.map f) (ps.map (Piece.relocate f)) =
      ImportSpecifier.relocate f <$> importSpecifierOf loc ps := by
  simp only [importSpecifierOf, Pieces.find_relocate, required_map, exportName_relocate,
    wordOf?_relocate, bind_map_left, map_bind]
  congr
  funext p
  congr
  funext exported
  congr
  funext name
  cases name <;> simp [ImportSpecifier.relocate]

@[simp]
theorem importDeclaration_relocate :
    importDeclaration (loc.map f) (ps.map (Piece.relocate f)) =
      Statement.relocate f <$> importDeclaration loc ps := by
  simp [importDeclaration, ImportDeclaration.relocate]

@[simp]
theorem importBare_relocate :
    importBare (loc.map f) (ps.map (Piece.relocate f)) =
      Statement.relocate f <$> importBare loc ps := by
  simp [importBare, ImportDeclaration.relocate]

@[simp]
theorem importAlias_relocate :
    importAlias (loc.map f) (ps.map (Piece.relocate f)) =
      Statement.relocate f <$> importAlias loc ps := by
  simp only [importAlias, nameOf_relocate, Pieces.find_relocate, Pieces.hasToken_relocate,
    segmentsOf_relocate, map_bind]
  congr
  funext name
  cases Pieces.find .requireCall ps <;> simp [ImportAlias.relocate]

@[simp]
theorem exportSpecifierOf_relocate :
    exportSpecifierOf (loc.map f) (ps.map (Piece.relocate f)) =
      ExportSpecifier.relocate f <$> exportSpecifierOf loc ps := by
  simp only [exportSpecifierOf, Pieces.findAll_relocate, List.mapM_map, exportName_relocate,
    Function.comp_def, map_bind]
  congr
  funext names
  cases names <;> simp [ExportSpecifier.relocate]

@[simp]
theorem exportNamed_relocate :
    exportNamed (loc.map f) (ps.map (Piece.relocate f)) =
      Statement.relocate f <$> exportNamed loc ps := by
  simp [exportNamed, ExportList.relocate, Function.comp_def]

@[simp]
theorem exportNamespaceFrom_relocate :
    exportNamespaceFrom (loc.map f) (ps.map (Piece.relocate f)) =
      Statement.relocate f <$> exportNamespaceFrom loc ps := by
  simp [exportNamespaceFrom, ExportList.relocate, ExportSpecifier.relocate]

@[simp]
theorem exportAll_relocate :
    exportAll (loc.map f) (ps.map (Piece.relocate f)) =
      Statement.relocate f <$> exportAll loc ps := by
  simp [exportAll]

@[simp]
theorem exportDefaultName_relocate :
    exportDefaultName (loc.map f) (ps.map (Piece.relocate f)) =
      Statement.relocate f <$> exportDefaultName loc ps := by
  simp [exportDefaultName]

@[simp]
theorem exportAssignment_relocate :
    exportAssignment (loc.map f) (ps.map (Piece.relocate f)) =
      Statement.relocate f <$> exportAssignment loc ps := by
  simp [exportAssignment]

@[simp]
theorem exportAsNamespace_relocate :
    exportAsNamespace (loc.map f) (ps.map (Piece.relocate f)) =
      Statement.relocate f <$> exportAsNamespace loc ps := by
  simp [exportAsNamespace]

@[simp]
theorem firstDeclaration_relocate :
    firstDeclaration (ps.map (Piece.relocate f)) =
      Declaration.relocate f <$> firstDeclaration ps := by
  simp [firstDeclaration]

@[simp]
theorem statements_relocate :
    statements (ps.map (Piece.relocate f)) = List.map (Statement.relocate f) <$> statements ps := by
  simp [statements, Function.comp_def]

@[simp]
theorem clauseSpecifier_relocate (kind : ImportKind) :
    clauseSpecifier kind (loc.map f) (ps.map (Piece.relocate f)) =
      List.map (ImportSpecifier.relocate f) <$> clauseSpecifier kind loc ps := by
  simp [clauseSpecifier, ImportSpecifier.relocate]

end

theorem map_eq_map {α β : Type} (g : α → β) (x : Read α) : x.map g = g <$> x := rfl

theorem declared_relocate (d : Read Declaration) :
    declared (Declaration.relocate f <$> d) = (declared d).relocate f := by
  simp [declared, map_eq_map, Value.relocate]

theorem value_relocate (label : Nonterminal) (loc : Option Location) (ps : Pieces) :
    value label (loc.map f) (ps.map (Piece.relocate f)) = (value label loc ps).relocate f := by
  rw [value.eq_def, value.eq_def]
  cases label with
  | identifier | reservedWord | variableKind | memberModifier | parameterModifier
  | namespaceKind =>
      dsimp only
      rw [Pieces.firstToken?_relocate]
      cases ps.firstToken? <;> rfl
  | objectPattern | arrayPattern => rfl
  | entityName =>
      dsimp only
      rw [Pieces.nodes_relocate, filterMap_word_relocate, Value.relocate]
  | _ => simp [Value.relocate, declared_relocate, map_eq_map, Function.comp_def]

mutual

theorem piece_relocate (c : Concrete) : piece (c.relocate f) = (piece c).relocate f := by
  cases c with
  | token t => rfl
  | node label loc children =>
      rw [Concrete.relocate, Concrete.relocateAll_eq, piece, piece, pieces_relocate,
        Piece.relocate_node, Pieces.tokens_relocate, value_relocate]

theorem pieces_relocate (cs : List Concrete) :
    pieces (cs.map (Concrete.relocate f)) = (pieces cs).map (Piece.relocate f) := by
  cases cs with
  | nil => rfl
  | cons c rest =>
      rw [List.map_cons, pieces, pieces, piece_relocate, pieces_relocate, List.map_cons]

end

theorem module_relocate (trees : List Concrete) :
    module (trees.map (Concrete.relocate f)) = Module.relocate f <$> module trees := by
  match trees with
  | [] | _ :: _ :: _ => rfl
  | [tree] =>
      simp only [List.map_cons, List.map_nil, module, piece_relocate, Piece.value_relocate]
      cases (piece tree).value <;> simp [Value.relocate, Module.relocate]

end Reader

namespace Concrete

theorem assemble_relocate (rule : Grammar.Rule Terminal Nonterminal) (loc : Option Location)
    (children : List Concrete) :
    assemble rule (loc.map f) (children.map (Concrete.relocate f)) =
      (assemble rule loc children).map (Concrete.relocate f) := by
  rw [assemble, assemble]
  cases rule.category with
  | repeated => rfl
  | named n =>
      dsimp only
      cases n.production.form with
      | inlined => rfl
      | node => simp
      | transparent =>
          simp only [List.length_map]
          split <;> simp

mutual

/-- Moved tokens show moved trees. -/
theorem ofDerivation_relocate (tokens : List Token)
    (d : Grammar.Derivation Terminal Nonterminal) :
    ofDerivation (tokens.map (Token.relocate f)) d =
      (ofDerivation tokens d).map (Concrete.relocate f) := by
  cases d with
  | token position =>
      rw [ofDerivation, ofDerivation, List.getElem?_map]
      cases tokens[position]? <;> simp
  | node rule children =>
      have hfirst : ((firstOf? children).bind fun position =>
          (tokens.map (Token.relocate f))[position]?).map (·.loc) =
          (((firstOf? children).bind fun position => tokens[position]?).map (·.loc)).map f := by
        cases firstOf? children with
        | none => rfl
        | some position => cases h : tokens[position]? <;> simp [h, Token.relocate]
      rw [ofDerivation, ofDerivation, ofChildren_relocate, ← assemble_relocate, hfirst]

theorem ofChildren_relocate (tokens : List Token)
    (symbols : List (Grammar.Symbol Terminal Nonterminal))
    (ds : List (Grammar.Derivation Terminal Nonterminal)) :
    ofChildren (tokens.map (Token.relocate f)) symbols ds =
      (ofChildren tokens symbols ds).map (Concrete.relocate f) := by
  cases ds with
  | nil => cases symbols <;> simp [ofChildren]
  | cons d rest =>
      cases symbols with
      | nil => simp [ofChildren]
      | cons symbol more =>
          match symbol with
          | .token _ false => simp [ofChildren, ofChildren_relocate tokens more rest]
          | .token _ true | .category _ =>
              simp [ofChildren, ofDerivation_relocate tokens d,
                ofChildren_relocate tokens more rest]

end

end Concrete

end HostBindings.Source

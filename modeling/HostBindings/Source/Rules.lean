import HostBindings.Grammar.Rule
import HostBindings.Source.Terminal

/-!
The grammar of ambient declarations.

Statements and members need not end in a semicolon. Semicolons are kept in class bodies, where a
stray one is an empty member, and skipped everywhere else. A property without a type must be ended,
so that a modifier is never read as a member of its own before another member.
-/

namespace HostBindings.Source

open Grammar

/-- The named categories, and the labels of single alternatives. -/
inductive Nonterminal
  | sourceFile
  | sourceItem
  | statement
  | importDeclaration
  | importBare
  | importClause
  | defaultImport
  | namespaceImport
  | namedImports
  | importSpecifier
  | importEquals
  | requireCall
  | moduleExportName
  | exportDeclaration
  | exportDefaultDeclaration
  | exportDefaultName
  | exportNamed
  | exportSpecifier
  | exportNamespaceFrom
  | exportAll
  | exportAssignment
  | namespaceExport
  | declaration
  | declarationBody
  | functionDeclaration
  | functionBody
  | variableDeclaration
  | variableKind
  | declarator
  | initializer
  | aliasDeclaration
  | interfaceDeclaration
  | interfaceExtends
  | enumDeclaration
  | enumMember
  | enumInitializer
  | enumAtom
  | enumOp
  | namespaceDeclaration
  | namespaceKind
  | globalDeclaration
  | namespaceBlock
  | classDeclaration
  | classExtends
  | classImplements
  | heritage
  | classBody
  | classItem
  | memberModifier
  | methodMember
  | accessorMember
  | propertyMember
  | indexMember
  | staticBlock
  | propertyKey
  | computedKey
  | parameters
  | parameter
  | parameterModifier
  | bindingPattern
  | objectPattern
  | patternProperty
  | arrayPattern
  | typeParameters
  | typeParameter
  | typeConstraint
  | typeDefault
  | annotatedType
  | annotatedResult
  | typePredicate
  | typeExpression
  | functionType
  | constructorType
  | conditionalType
  | unionType
  | unionOf
  | intersectionType
  | intersectionOf
  | typeOperand
  | typeOperator
  | inferType
  | postfixType
  | primaryType
  | parenType
  | typeReference
  | typeArguments
  | entityName
  | literalType
  | literal
  | tupleType
  | tupleElement
  | objectType
  | typeBody
  | typeMember
  | propertySignature
  | methodSignature
  | callSignature
  | constructSignature
  | getterSignature
  | setterSignature
  | indexSignature
  | mappedType
  | mappedAs
  | mappedReadonly
  | mappedOptional
  | typeQuery
  | importType
  | identifier
  | reservedWord
  | restParameter
  | arrayType
  | indexedAccessType
  | tuplePlain
  | tupleOptional
  | tupleNamed
  | tupleRest
  | tupleNamedRest
deriving DecidableEq, Repr

namespace Nonterminal

/-- A pattern of the declaration language. -/
abbrev Shape := Pattern Terminal Nonterminal

/-- A token that guides the reading only. -/
def skip (t : Terminal) : Shape := .token t false

/-- A token that the concrete tree shows. -/
def keep (t : Terminal) : Shape := .token t true

def rule (n : Nonterminal) : Shape := .rule n

def optional (p : Shape) : Shape := .optional p

def star (p : Shape) : Shape := .star p

def plus (p : Shape) : Shape := .plus p

def sequence (ps : List Shape) : Shape := Pattern.sequence ps

def oneOf (ps : List Shape) : Shape := Pattern.oneOf ps

/-- Something once or more, with commas between. -/
def separated (p : Shape) : Shape := sequence [p, star (sequence [skip .comma, p])]

/-- Something once or more, with commas between and perhaps one at the end. -/
def list (p : Shape) : Shape :=
  sequence [p, star (sequence [skip .comma, p]), optional (skip .comma)]

def plain (ps : List Shape) : Alternative Terminal Nonterminal := { pattern := sequence ps }

def labelled (label : Nonterminal) (ps : List Shape) : Alternative Terminal Nonterminal :=
  { pattern := sequence ps, label := some label }

/-- A production that shows as a node. -/
def node (alternatives : List (Alternative Terminal Nonterminal)) :
    Production Terminal Nonterminal :=
  { alternatives }

/-- A production that shows as its child where it has just one. -/
def transparent (alternatives : List (Alternative Terminal Nonterminal)) :
    Production Terminal Nonterminal :=
  { alternatives, form := .transparent }

/-- A production that shows as its children. -/
def inlined (alternatives : List (Alternative Terminal Nonterminal)) :
    Production Terminal Nonterminal :=
  { alternatives, form := .inlined }

/-- A production that goes before others by its priority. -/
def preferred (priority : Nat) (alternatives : List (Alternative Terminal Nonterminal)) :
    Production Terminal Nonterminal :=
  { alternatives, priority }

/-- The production of each category. A label has none. -/
def production : Nonterminal → Production Terminal Nonterminal
  | .sourceFile => node [
      plain [star (rule .sourceItem)]]
  | .sourceItem => inlined [
      plain [rule .statement],
      plain [skip .semicolon]]
  | .statement => transparent [
      plain [rule .importDeclaration], plain [rule .importBare], plain [rule .importEquals],
      plain [rule .exportDeclaration], plain [rule .exportDefaultDeclaration],
      plain [rule .exportDefaultName], plain [rule .exportNamed],
      plain [rule .exportNamespaceFrom], plain [rule .exportAll], plain [rule .exportAssignment],
      plain [rule .namespaceExport], plain [rule .declaration]]
  | .importDeclaration => node [
      plain [skip .wordImport, optional (keep .wordType), rule .importClause, skip .wordFrom,
          keep .string]]
  | .importBare => node [
      plain [skip .wordImport, keep .string]]
  | .importClause => node [
      plain [rule .defaultImport],
      plain [rule .namespaceImport],
      plain [rule .namedImports],
      plain [rule .defaultImport, skip .comma, rule .namespaceImport],
      plain [rule .defaultImport, skip .comma, rule .namedImports]]
  | .defaultImport => node [
      plain [rule .identifier]]
  | .namespaceImport => node [
      plain [skip .star, skip .wordAs, rule .identifier]]
  | .namedImports => node [
      plain [skip .openBrace, optional (list (rule .importSpecifier)), skip .closeBrace]]
  | .importSpecifier => node [
      plain [optional (keep .wordType), rule .moduleExportName, optional (sequence [skip .wordAs,
          rule .identifier])]]
  | .importEquals => node [
      plain [optional (keep .wordExport), skip .wordImport, optional (keep .wordType),
          rule .identifier, skip .equals, oneOf [rule .requireCall, rule .entityName]]]
  | .requireCall => node [
      plain [skip .wordRequire, skip .openParen, keep .string, skip .closeParen]]
  | .moduleExportName => node [
      plain [rule .identifier], plain [rule .reservedWord], plain [keep .string]]
  | .exportDeclaration => node [
      plain [skip .wordExport, rule .declaration]]
  | .exportDefaultDeclaration => preferred 2 [
      plain [skip .wordExport, skip .wordDefault, oneOf [rule .classDeclaration,
          rule .functionDeclaration, rule .interfaceDeclaration]]]
  | .exportDefaultName => node [
      plain [skip .wordExport, skip .wordDefault, rule .identifier]]
  | .exportNamed => node [
      plain [skip .wordExport, optional (keep .wordType), skip .openBrace,
          optional (list (rule .exportSpecifier)), skip .closeBrace,
          optional (sequence [skip .wordFrom, keep .string])]]
  | .exportSpecifier => node [
      plain [optional (keep .wordType), rule .moduleExportName, optional (sequence [skip .wordAs,
          rule .moduleExportName])]]
  | .exportNamespaceFrom => node [
      plain [skip .wordExport, optional (keep .wordType), skip .star, skip .wordAs,
          rule .moduleExportName, skip .wordFrom, keep .string]]
  | .exportAll => node [
      plain [skip .wordExport, optional (keep .wordType), skip .star, skip .wordFrom,
          keep .string]]
  | .exportAssignment => node [
      plain [skip .wordExport, skip .equals, rule .entityName]]
  | .namespaceExport => node [
      plain [skip .wordExport, skip .wordAs, skip .wordNamespace, rule .identifier]]
  | .declaration => transparent [
      plain [optional (skip .wordDeclare), rule .declarationBody]]
  | .declarationBody => inlined [
      plain [rule .classDeclaration], plain [rule .functionDeclaration],
      plain [rule .variableDeclaration], plain [rule .aliasDeclaration],
      plain [rule .interfaceDeclaration], plain [rule .enumDeclaration],
      plain [rule .namespaceDeclaration], plain [rule .globalDeclaration]]
  | .functionDeclaration => node [
      plain [skip .wordFunction, optional (rule .identifier), optional (rule .typeParameters),
          skip .openParen, rule .parameters, skip .closeParen, optional (rule .annotatedResult),
          optional (rule .functionBody)]]
  | .functionBody => node [
      plain [skip .openBrace, skip .closeBrace]]
  | .variableDeclaration => node [
      plain [rule .variableKind, separated (rule .declarator)]]
  | .variableKind => node [
      plain [keep .wordVar], plain [keep .wordLet], plain [keep .wordConst]]
  | .declarator => node [
      plain [rule .bindingPattern, optional (rule .annotatedType), optional (rule .initializer)]]
  | .initializer => node [
      plain [skip .equals, oneOf [rule .literal, rule .entityName]]]
  | .aliasDeclaration => node [
      plain [skip .wordType, rule .identifier, optional (rule .typeParameters), skip .equals,
          rule .typeExpression]]
  | .interfaceDeclaration => node [
      plain [skip .wordInterface, rule .identifier, optional (rule .typeParameters),
          optional (rule .interfaceExtends), rule .typeBody]]
  | .interfaceExtends => node [
      plain [skip .wordExtends, separated (rule .heritage)]]
  | .enumDeclaration => node [
      plain [optional (keep .wordConst), skip .wordEnum, rule .identifier, skip .openBrace,
          optional (list (rule .enumMember)), skip .closeBrace]]
  | .enumMember => node [
      plain [rule .propertyKey, optional (sequence [skip .equals, rule .enumInitializer])]]
  | .enumInitializer => node [
      plain [rule .enumAtom, star (sequence [rule .enumOp, rule .enumAtom])]]
  | .enumAtom => transparent [
      plain [rule .literal],
      plain [rule .entityName],
      plain [skip .openParen, rule .enumInitializer, skip .closeParen]]
  | .enumOp => node [
      plain [keep .bar], plain [keep .ampersand], plain [keep .plus], plain [keep .minus],
      plain [keep .star], plain [keep .less, keep .less], plain [keep .greater, keep .greater]]
  | .namespaceDeclaration => node [
      plain [rule .namespaceKind, oneOf [rule .entityName, keep .string],
          optional (rule .namespaceBlock)]]
  | .namespaceKind => node [
      plain [keep .wordNamespace],
      plain [keep .wordModule]]
  | .globalDeclaration => node [
      plain [skip .wordGlobal, rule .namespaceBlock]]
  | .namespaceBlock => node [
      plain [skip .openBrace, star (rule .sourceItem), skip .closeBrace]]
  | .classDeclaration => node [
      plain [optional (keep .wordAbstract), skip .wordClass, optional (rule .identifier),
          optional (rule .typeParameters), optional (rule .classExtends),
          optional (rule .classImplements), rule .classBody]]
  | .classExtends => node [
      plain [skip .wordExtends, rule .heritage]]
  | .classImplements => node [
      plain [skip .wordImplements, separated (rule .heritage)]]
  | .heritage => node [
      plain [rule .entityName, optional (rule .typeArguments)]]
  | .classBody => node [
      plain [skip .openBrace, star (rule .classItem), skip .closeBrace]]
  | .classItem => inlined [
      plain [rule .methodMember], plain [rule .accessorMember], plain [rule .propertyMember],
      plain [rule .indexMember], plain [rule .staticBlock], plain [keep .semicolon]]
  | .memberModifier => node [
      plain [keep .wordPublic], plain [keep .wordPrivate], plain [keep .wordProtected],
      plain [keep .wordStatic], plain [keep .wordReadonly], plain [keep .wordAbstract],
      plain [keep .wordOverride], plain [keep .wordDeclare], plain [keep .wordAccessor]]
  | .methodMember => node [
      plain [star (rule .memberModifier), rule .propertyKey, optional (keep .question),
          optional (rule .typeParameters), skip .openParen, rule .parameters, skip .closeParen,
          optional (rule .annotatedResult), optional (rule .functionBody)]]
  | .accessorMember => node [
      plain [star (rule .memberModifier), keep .wordGet, rule .propertyKey, skip .openParen,
          skip .closeParen, optional (rule .annotatedResult), optional (rule .functionBody)],
      plain [star (rule .memberModifier), keep .wordSet, rule .propertyKey, skip .openParen,
          rule .parameter, skip .closeParen, optional (rule .functionBody)]]
  | .propertyMember => node [
      plain [star (rule .memberModifier), rule .propertyKey, optional (oneOf [keep .question,
          keep .bang]), rule .annotatedType, optional (rule .initializer)],
      plain [star (rule .memberModifier), rule .propertyKey, optional (oneOf [keep .question,
          keep .bang]), optional (rule .initializer), keep .semicolon]]
  | .indexMember => node [
      plain [star (rule .memberModifier), skip .openBracket, rule .identifier, skip .colon,
          rule .typeExpression, skip .closeBracket, rule .annotatedType]]
  | .staticBlock => node [
      plain [skip .wordStatic, skip .openBrace, skip .closeBrace]]
  | .propertyKey => node [
      plain [rule .identifier], plain [rule .reservedWord], plain [keep .string],
      plain [keep .number], plain [keep .privateName], plain [rule .computedKey]]
  | .computedKey => node [
      plain [skip .openBracket, oneOf [rule .entityName, keep .string, keep .number],
          skip .closeBracket]]
  | .parameters => node [
      plain [optional (list (rule .parameter))]]
  | .parameter => node [
      plain [star (rule .parameterModifier), rule .bindingPattern, optional (keep .question),
          optional (rule .annotatedType), optional (rule .initializer)],
      labelled .restParameter [skip .ellipsis, rule .bindingPattern,
          optional (rule .annotatedType)]]
  | .parameterModifier => node [
      plain [keep .wordPublic], plain [keep .wordPrivate], plain [keep .wordProtected],
      plain [keep .wordReadonly], plain [keep .wordOverride]]
  | .bindingPattern => transparent [
      plain [rule .identifier], plain [rule .objectPattern], plain [rule .arrayPattern]]
  | .objectPattern => node [
      plain [skip .openBrace, optional (list (rule .patternProperty)), skip .closeBrace]]
  | .patternProperty => node [
      plain [optional (skip .ellipsis), rule .identifier, optional (sequence [skip .colon,
          rule .bindingPattern])]]
  | .arrayPattern => node [
      plain [skip .openBracket, separated (optional (rule .bindingPattern)), skip .closeBracket]]
  | .typeParameters => node [
      plain [skip .less, list (rule .typeParameter), skip .greater]]
  | .typeParameter => node [
      plain [rule .identifier, optional (rule .typeConstraint), optional (rule .typeDefault)]]
  | .typeConstraint => node [
      plain [skip .wordExtends, rule .typeExpression]]
  | .typeDefault => node [
      plain [skip .equals, rule .typeExpression]]
  | .annotatedType => node [
      plain [skip .colon, rule .typeExpression]]
  | .annotatedResult => node [
      plain [skip .colon, oneOf [rule .typeExpression, rule .typePredicate]]]
  | .typePredicate => node [
      plain [rule .identifier, skip .wordIs, rule .typeExpression],
      plain [keep .wordAsserts, rule .identifier, optional (sequence [skip .wordIs,
          rule .typeExpression])]]
  | .typeExpression => transparent [
      plain [rule .unionType], plain [rule .functionType], plain [rule .constructorType],
      plain [rule .conditionalType]]
  | .functionType => node [
      plain [optional (rule .typeParameters), skip .openParen, rule .parameters, skip .closeParen,
          skip .arrow, oneOf [rule .typeExpression, rule .typePredicate]]]
  | .constructorType => node [
      plain [optional (keep .wordAbstract), skip .wordNew, optional (rule .typeParameters),
          skip .openParen, rule .parameters, skip .closeParen, skip .arrow, rule .typeExpression]]
  | .conditionalType => node [
      plain [rule .unionType, skip .wordExtends, rule .unionType, keep .question,
          rule .typeExpression, skip .colon, rule .typeExpression]]
  | .unionType => transparent [
      plain [rule .intersectionType],
      plain [skip .bar, rule .intersectionType],
      plain [rule .unionOf]]
  | .unionOf => node [
      plain [optional (skip .bar), rule .intersectionType, plus (sequence [skip .bar,
          rule .intersectionType])]]
  | .intersectionType => transparent [
      plain [rule .typeOperand],
      plain [skip .ampersand, rule .typeOperand],
      plain [rule .intersectionOf]]
  | .intersectionOf => node [
      plain [optional (skip .ampersand), rule .typeOperand, plus (sequence [skip .ampersand,
          rule .typeOperand])]]
  | .typeOperand => transparent [
      plain [rule .typeOperator], plain [rule .inferType], plain [rule .postfixType]]
  | .typeOperator => node [
      plain [oneOf [keep .wordKeyof, keep .wordUnique, keep .wordReadonly], rule .typeOperand]]
  | .inferType => node [
      plain [skip .wordInfer, rule .identifier]]
  | .postfixType => transparent [
      plain [rule .primaryType],
      labelled .arrayType [rule .postfixType, skip .openBracket, skip .closeBracket],
      labelled .indexedAccessType [rule .postfixType, skip .openBracket, rule .typeExpression,
          skip .closeBracket]]
  | .primaryType => transparent [
      plain [rule .parenType], plain [rule .typeReference], plain [rule .literalType],
      plain [rule .tupleType], plain [rule .objectType], plain [rule .mappedType],
      plain [rule .typeQuery], plain [rule .importType]]
  | .parenType => node [
      plain [skip .openParen, rule .typeExpression, skip .closeParen]]
  | .typeReference => node [
      plain [rule .entityName, optional (rule .typeArguments)]]
  | .typeArguments => node [
      plain [skip .less, list (rule .typeExpression), skip .greater]]
  | .entityName => node [
      plain [rule .identifier, star (sequence [skip .dot, rule .identifier])]]
  | .literalType => node [
      plain [rule .literal]]
  | .literal => node [
      plain [keep .string], plain [keep .number], plain [keep .minus, keep .number],
      plain [keep .template]]
  | .tupleType => node [
      plain [skip .openBracket, optional (list (rule .tupleElement)), skip .closeBracket]]
  | .tupleElement => node [
      labelled .tuplePlain [rule .typeExpression],
      labelled .tupleOptional [rule .typeExpression, keep .question],
      labelled .tupleNamed [rule .identifier, optional (keep .question), skip .colon,
          rule .typeExpression],
      labelled .tupleRest [skip .ellipsis, rule .typeExpression],
      labelled .tupleNamedRest [skip .ellipsis, rule .identifier, skip .colon,
          rule .typeExpression]]
  | .objectType => node [
      plain [rule .typeBody]]
  | .typeBody => node [
      plain [skip .openBrace, star (oneOf [rule .typeMember, skip .semicolon, skip .comma]),
          skip .closeBrace]]
  | .typeMember => inlined [
      plain [rule .propertySignature], plain [rule .methodSignature], plain [rule .callSignature],
      plain [rule .constructSignature], plain [rule .getterSignature],
      plain [rule .setterSignature], plain [rule .indexSignature]]
  | .propertySignature => node [
      plain [optional (keep .wordReadonly), rule .propertyKey, optional (keep .question),
          rule .annotatedType],
      plain [optional (keep .wordReadonly), rule .propertyKey, optional (keep .question),
          oneOf [skip .semicolon, skip .comma]]]
  | .methodSignature => node [
      plain [rule .propertyKey, optional (keep .question), optional (rule .typeParameters),
          skip .openParen, rule .parameters, skip .closeParen, optional (rule .annotatedResult)]]
  | .callSignature => node [
      plain [optional (rule .typeParameters), skip .openParen, rule .parameters, skip .closeParen,
          optional (rule .annotatedResult)]]
  | .constructSignature => preferred 2 [
      plain [skip .wordNew, optional (rule .typeParameters), skip .openParen, rule .parameters,
          skip .closeParen, optional (rule .annotatedResult)]]
  | .getterSignature => node [
      plain [keep .wordGet, rule .propertyKey, skip .openParen, skip .closeParen,
          optional (rule .annotatedResult)]]
  | .setterSignature => node [
      plain [keep .wordSet, rule .propertyKey, skip .openParen, rule .parameter, skip .closeParen]]
  | .indexSignature => node [
      plain [optional (keep .wordReadonly), skip .openBracket, rule .identifier, skip .colon,
          rule .typeExpression, skip .closeBracket, rule .annotatedType]]
  | .mappedType => node [
      plain [skip .openBrace, optional (rule .mappedReadonly), skip .openBracket,
          rule .identifier, skip .wordIn, rule .typeExpression, optional (rule .mappedAs),
          skip .closeBracket, optional (rule .mappedOptional), optional (rule .annotatedType),
          optional (oneOf [skip .semicolon, skip .comma]), skip .closeBrace]]
  | .mappedAs => node [
      plain [skip .wordAs, rule .typeExpression]]
  | .mappedReadonly => node [
      plain [optional (oneOf [keep .plus, keep .minus]), keep .wordReadonly]]
  | .mappedOptional => node [
      plain [optional (oneOf [keep .plus, keep .minus]), keep .question]]
  | .typeQuery => node [
      plain [skip .wordTypeof, rule .entityName, optional (rule .typeArguments)]]
  | .importType => node [
      plain [skip .wordImport, skip .openParen, keep .string, skip .closeParen,
          optional (sequence [skip .dot, rule .entityName]), optional (rule .typeArguments)]]
  | .identifier => node [
      plain [keep .name], plain [keep .wordType], plain [keep .wordFrom], plain [keep .wordAs],
      plain [keep .wordNamespace], plain [keep .wordModule], plain [keep .wordDeclare],
      plain [keep .wordGlobal], plain [keep .wordRequire], plain [keep .wordAbstract],
      plain [keep .wordPublic], plain [keep .wordPrivate], plain [keep .wordProtected],
      plain [keep .wordStatic], plain [keep .wordReadonly], plain [keep .wordOverride],
      plain [keep .wordAccessor], plain [keep .wordGet], plain [keep .wordSet],
      plain [keep .wordLet], plain [keep .wordKeyof], plain [keep .wordUnique],
      plain [keep .wordInfer], plain [keep .wordIs], plain [keep .wordAsserts]]
  | .reservedWord => node [
      plain [keep .wordImport], plain [keep .wordExport], plain [keep .wordDefault],
      plain [keep .wordClass], plain [keep .wordFunction], plain [keep .wordVar],
      plain [keep .wordConst], plain [keep .wordInterface], plain [keep .wordEnum],
      plain [keep .wordExtends], plain [keep .wordImplements], plain [keep .wordNew],
      plain [keep .wordIn], plain [keep .wordTypeof]]
  | _ => node []

/-- The categories that have productions. -/
def all : List Nonterminal :=
  [sourceFile, sourceItem, statement, importDeclaration, importBare, importClause, defaultImport,
   namespaceImport, namedImports, importSpecifier, importEquals, requireCall, moduleExportName,
   exportDeclaration, exportDefaultDeclaration, exportDefaultName, exportNamed, exportSpecifier,
   exportNamespaceFrom, exportAll, exportAssignment, namespaceExport, declaration,
   declarationBody, functionDeclaration, functionBody, variableDeclaration, variableKind,
   declarator, initializer, aliasDeclaration, interfaceDeclaration, interfaceExtends,
   enumDeclaration, enumMember, enumInitializer, enumAtom, enumOp, namespaceDeclaration,
   namespaceKind, globalDeclaration, namespaceBlock, classDeclaration, classExtends,
   classImplements, heritage, classBody, classItem, memberModifier, methodMember, accessorMember,
   propertyMember, indexMember, staticBlock, propertyKey, computedKey, parameters, parameter,
   parameterModifier, bindingPattern, objectPattern, patternProperty, arrayPattern,
   typeParameters, typeParameter, typeConstraint, typeDefault, annotatedType, annotatedResult,
   typePredicate, typeExpression, functionType, constructorType, conditionalType, unionType,
   unionOf, intersectionType, intersectionOf, typeOperand, typeOperator, inferType, postfixType,
   primaryType, parenType, typeReference, typeArguments, entityName, literalType, literal,
   tupleType, tupleElement, objectType, typeBody, typeMember, propertySignature, methodSignature,
   callSignature, constructSignature, getterSignature, setterSignature, indexSignature,
   mappedType, mappedAs, mappedReadonly, mappedOptional, typeQuery, importType, identifier,
   reservedWord]

end Nonterminal

end HostBindings.Source

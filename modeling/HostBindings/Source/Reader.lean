import HostBindings.Source.Concrete
import HostBindings.Source.Module
import HostBindings.Source.StringLiteral

/-!
Modules from concrete trees.

Each node is read from what its children were read to. A child's own failure is kept inside its
value, so a failing part counts only where a node asks for it.
-/

namespace HostBindings.Source

/-- Reading may meet an escape that names no code point, or a tree that lacks a part. -/
abbrev Read := Except Fault

/-- What a node was read to. -/
inductive Value
  | nothing
  | word (w : Text)
  | entity (segments : List Text)
  | exportName (name : Read Text)
  | key (key : Read PropertyKey)
  | pattern (pattern : BindingPattern)
  | type (type : Read TypeExpr)
  | types (types : Read (List TypeExpr))
  | param (param : Read Param)
  | params (params : Read (List Param))
  | typeParam (param : Read TypeParam)
  | typeParams (params : Read (List TypeParam))
  /-- A member, and whether its text has an end of its own. -/
  | member (member : Read Member) (isEnded : Bool)
  | members (members : Read (List Member))
  | heritage (heritage : Read Heritage)
  | heritages (heritages : Read (List Heritage))
  | declarator (declarator : Read Declarator)
  | enumMember (member : Read EnumMember)
  | importSpecifiers (specifiers : Read (List ImportSpecifier))
  | exportSpecifier (specifier : Read ExportSpecifier)
  | required (specifier : Read Text)
  | statement (statement : Read Statement)
  | block (statements : Read (List Statement)) (loc : Option Location)

/-- A child of a node: a token, or a node with its value and the tokens below it. -/
inductive Piece
  | token (t : Token)
  | node (label : Nonterminal) (loc : Option Location) (tokens : List Token) (value : Value)

namespace Piece

/-- The tokens of a piece. -/
def tokens : Piece → List Token
  | token t => [t]
  | node _ _ tokens _ => tokens

def isNode : Piece → Bool
  | token _ => false
  | node .. => true

def isLabelled (label : Nonterminal) : Piece → Bool
  | token _ => false
  | node l _ _ _ => l = label

def value : Piece → Value
  | token _ => .nothing
  | node _ _ _ value => value

def loc : Piece → Option Location
  | token t => some t.loc
  | node _ loc _ _ => loc

end Piece

/-- The children of a node. -/
abbrev Pieces := List Piece

namespace Pieces

def nodes (ps : Pieces) : Pieces := ps.filter Piece.isNode

def find (label : Nonterminal) (ps : Pieces) : Option Piece := ps.find? (Piece.isLabelled label)

def findAll (label : Nonterminal) (ps : Pieces) : Pieces := ps.filter (Piece.isLabelled label)

/-- The first token of a kind. -/
def token? (kind : Terminal) (ps : Pieces) : Option Token :=
  ps.findSome? fun
    | .token t => if t.kind = kind then some t else none
    | .node .. => none

def hasToken (kind : Terminal) (ps : Pieces) : Bool := (ps.token? kind).isSome

/-- The first token that is a child. -/
def firstToken? (ps : Pieces) : Option Token :=
  ps.findSome? fun
    | .token t => some t
    | .node .. => none

/-- All tokens below, in order. -/
def tokens (ps : Pieces) : List Token := ps.flatMap Piece.tokens

end Pieces

namespace Reader

/-- A part that a rule always has. -/
def required {α : Type} : Option α → Read α
  | some a => .ok a
  | none => .error .incomplete

def word (p : Piece) : Read Text :=
  match p.value with
  | .word w => .ok w
  | _ => .error .incomplete

def entity (p : Piece) : Read (List Text) :=
  match p.value with
  | .entity segments => .ok segments
  | _ => .error .incomplete

def exportName (p : Piece) : Read Text :=
  match p.value with
  | .exportName name => name
  | _ => .error .incomplete

def key (p : Piece) : Read PropertyKey :=
  match p.value with
  | .key key => key
  | _ => .error .incomplete

def pattern (p : Piece) : Read BindingPattern :=
  match p.value with
  | .pattern pattern => .ok pattern
  | .word w => .ok (.name w p.loc)
  | _ => .error .incomplete

def type (p : Piece) : Read TypeExpr :=
  match p.value with
  | .type type => type
  | _ => .error .incomplete

def types (p : Piece) : Read (List TypeExpr) :=
  match p.value with
  | .types types => types
  | _ => .error .incomplete

def param (p : Piece) : Read Param :=
  match p.value with
  | .param param => param
  | _ => .error .incomplete

def params (p : Piece) : Read (List Param) :=
  match p.value with
  | .params params => params
  | _ => .error .incomplete

def typeParam (p : Piece) : Read TypeParam :=
  match p.value with
  | .typeParam param => param
  | _ => .error .incomplete

def typeParams (p : Piece) : Read (List TypeParam) :=
  match p.value with
  | .typeParams params => params
  | _ => .error .incomplete

def member (p : Piece) : Read Member :=
  match p.value with
  | .member member _ => member
  | _ => .error .incomplete

def members (p : Piece) : Read (List Member) :=
  match p.value with
  | .members members => members
  | _ => .error .incomplete

def heritage (p : Piece) : Read Heritage :=
  match p.value with
  | .heritage heritage => heritage
  | _ => .error .incomplete

def heritages (p : Piece) : Read (List Heritage) :=
  match p.value with
  | .heritages heritages => heritages
  | _ => .error .incomplete

def declarator (p : Piece) : Read Declarator :=
  match p.value with
  | .declarator declarator => declarator
  | _ => .error .incomplete

def enumMember (p : Piece) : Read EnumMember :=
  match p.value with
  | .enumMember member => member
  | _ => .error .incomplete

def importSpecifiers (p : Piece) : Read (List ImportSpecifier) :=
  match p.value with
  | .importSpecifiers specifiers => specifiers
  | _ => .error .incomplete

def exportSpecifier (p : Piece) : Read ExportSpecifier :=
  match p.value with
  | .exportSpecifier specifier => specifier
  | _ => .error .incomplete

def requiredModule (p : Piece) : Read Text :=
  match p.value with
  | .required specifier => specifier
  | _ => .error .incomplete

def statement (p : Piece) : Read Statement :=
  match p.value with
  | .statement statement => statement
  | _ => .error .incomplete

def declaration (p : Piece) : Read Declaration := do
  match ← statement p with
  | .declaration d => return d
  | _ => .error .incomplete

def block (p : Piece) : Read NamespaceBody :=
  match p.value with
  | .block statements loc => do
    let statements ← statements
    return .block statements loc
  | _ => .error .incomplete

/-- The word of the first child with a label. -/
def wordOf (label : Nonterminal) (ps : Pieces) : Read Text := do
  let p ← required (ps.find label)
  word p

/-- The name that an identifier gives, where the rule may leave it out. -/
def wordOf? (label : Nonterminal) (ps : Pieces) : Read (Option Text) := (ps.find label).mapM word

/-- The name of the rule. -/
def nameOf (ps : Pieces) : Read Text := wordOf .identifier ps

def segmentsOf (ps : Pieces) : Read (List Text) := do
  let p ← required (ps.find .entityName)
  entity p

/-- The text of the string among the tokens. -/
def stringOf (ps : Pieces) : Read Text := do
  let t ← required (ps.token? .string)
  StringLiteral.decode t.text

def keyOf (ps : Pieces) : Read PropertyKey := do
  let p ← required (ps.find .propertyKey)
  key p

def paramsOf (ps : Pieces) : Read (List Param) := do
  let found ← (ps.find .parameters).mapM params
  return found.getD []

def typeParamsOf (ps : Pieces) : Read (List TypeParam) := do
  let found ← (ps.find .typeParameters).mapM typeParams
  return found.getD []

def argsOf (ps : Pieces) : Read (List TypeExpr) := do
  let found ← (ps.find .typeArguments).mapM types
  return found.getD []

def annotatedOf (ps : Pieces) : Read (Option TypeExpr) := (ps.find .annotatedType).mapM type

def resultOf (ps : Pieces) : Read (Option TypeExpr) := (ps.find .annotatedResult).mapM type

/-- Parameters, result and type parameters, looked at in this order. -/
def signatureOf (ps : Pieces) : Read Signature := do
  let params ← paramsOf ps
  let result ← resultOf ps
  let typeParams ← typeParamsOf ps
  return { params, result, typeParams }

/-- The type that is the first node below. -/
def firstType (ps : Pieces) : Read TypeExpr := do
  let p ← required ps.nodes.head?
  type p

/-- The type that is the last node below. -/
def lastType (ps : Pieces) : Read TypeExpr := do
  let p ← required ps.nodes.getLast?
  type p

/-- The types that are the nodes below. -/
def allTypes (ps : Pieces) : Read (List TypeExpr) := ps.nodes.mapM type

/-- The first type that is no part of the kinds given. -/
def typeBeside (labels : List Nonterminal) (ps : Pieces) : Read TypeExpr := do
  let p ← required (ps.nodes.find? fun p => !labels.any fun label => p.isLabelled label)
  type p

/-- A reference, unless it is a single word with a meaning of its own. -/
def reference (segments : List Text) (args : List TypeExpr) (loc : Option Location) :
    Read TypeExpr :=
  match segments.getLast? with
  | none => .error .incomplete
  | some name =>
    let qualifier := segments.dropLast
    if qualifier.isEmpty && args.isEmpty then
      match Keyword.ofWord? name with
      | some keyword => .ok (.keyword keyword loc)
      | none =>
        if name = "this" then .ok (.this loc)
        else if name = "true" || name = "false" then .ok (.literal .boolean name loc)
        else .ok (.reference [] name [] loc)
    else .ok (.reference qualifier name args loc)

def literal (loc : Option Location) (ps : Pieces) : Read TypeExpr := do
  let t ← required (ps.findSome? fun
    | .token t => if t.kind = .minus then none else some t
    | .node .. => none)
  match t.kind with
  | .string =>
    let value ← StringLiteral.decode t.text
    return .literal .string value loc
  | .template => return .literal .template (t.text.drop 1).dropLast loc
  | _ =>
    let sign : Text := if ps.hasToken .minus then "-" else []
    return .literal .number (sign ++ t.text) loc

def typeReference (loc : Option Location) (ps : Pieces) : Read TypeExpr := do
  let segments ← segmentsOf ps
  let args ← argsOf ps
  reference segments args loc

def functionType (loc : Option Location) (ps : Pieces) : Read TypeExpr := do
  let params ← paramsOf ps
  let result ← lastType ps
  let typeParams ← typeParamsOf ps
  return .function params result typeParams loc

def constructorType (loc : Option Location) (ps : Pieces) : Read TypeExpr := do
  let params ← paramsOf ps
  let result ← lastType ps
  let typeParams ← typeParamsOf ps
  return .constructorType params result typeParams (ps.hasToken .wordAbstract) loc

def conditionalType (loc : Option Location) (ps : Pieces) : Read TypeExpr := do
  match ← allTypes ps with
  | [check, bound, whenTrue, whenFalse] => return .conditional check bound whenTrue whenFalse loc
  | _ => .error .incomplete

def indexedType (loc : Option Location) (ps : Pieces) : Read TypeExpr := do
  match ← allTypes ps with
  | [object, index] => return .indexed object index loc
  | _ => .error .incomplete

def typeOperator (loc : Option Location) (ps : Pieces) : Read TypeExpr := do
  let op ← required ps.firstToken?
  let inner ← firstType ps
  return .operator op.text inner loc

def mappedType (loc : Option Location) (ps : Pieces) : Read TypeExpr := do
  let name ← nameOf ps
  let constraint ← typeBeside
    [.identifier, .mappedReadonly, .mappedAs, .mappedOptional, .annotatedType] ps
  let value ← annotatedOf ps
  return .mapped name constraint value loc

def importType (loc : Option Location) (ps : Pieces) : Read TypeExpr := do
  let specifier ← stringOf ps
  let qualifier ← (ps.find .entityName).mapM entity
  let args ← argsOf ps
  return .importType specifier (qualifier.getD []) args loc

def typePredicate (loc : Option Location) (ps : Pieces) : Read TypeExpr := do
  let name ← nameOf ps
  let bound ← (ps.nodes.drop 1).head?.mapM type
  return .predicate name bound (ps.hasToken .wordAsserts) loc

/-- A named element of a tuple counts by its type alone, unless it is optional. -/
def namedElement (loc : Option Location) (ps : Pieces) : Read TypeExpr := do
  let inner ← lastType ps
  return if ps.hasToken .question then .optional inner loc else inner

def parameter (isRest : Bool) (loc : Option Location) (ps : Pieces) : Read Param := do
  let p ← required (ps.nodes.find? fun p =>
    p.isLabelled .identifier || p.isLabelled .objectPattern || p.isLabelled .arrayPattern)
  let annotated ← annotatedOf ps
  let pattern ← pattern p
  let isOptional := !isRest && (ps.hasToken .question || (ps.find .initializer).isSome)
  return { pattern, annotated, isOptional, isRest, loc }

def typeParameter (loc : Option Location) (ps : Pieces) : Read TypeParam := do
  let name ← nameOf ps
  let constraint ← (ps.find .typeConstraint).mapM type
  let default ← (ps.find .typeDefault).mapM type
  return { name, constraint, default, loc }

/-- The text between the brackets of a computed key. -/
def computedText (ps : Pieces) : Read Text := do
  match ps.find .entityName with
  | some p =>
    let segments ← entity p
    return Text.join "." segments
  | none =>
    let t ← required ps.firstToken?
    return t.text

def propertyKey (loc : Option Location) (ps : Pieces) : Read PropertyKey := do
  match ← required ps.head? with
  | .token t =>
    match t.kind with
    | .string =>
      let value ← StringLiteral.decode t.text
      return { kind := .string, value, loc }
    | .number => return { kind := .number, value := t.text, loc }
    | .privateName => return { kind := .hidden, value := t.text, loc }
    | _ => return { kind := .word, value := t.text, loc }
  | .node .computedKey _ _ (.exportName text) =>
    let value ← text
    return { kind := .computed, value, loc }
  | p =>
    let value ← word p
    return { kind := .word, value, loc }

def moduleExportName (ps : Pieces) : Read Text := do
  match ← required ps.head? with
  | .token t => StringLiteral.decode t.text
  | p => word p

def modifiers (ps : Pieces) : List Text :=
  (ps.findAll .memberModifier).filterMap fun p => (word p).toOption

def accessOf (modifiers : List Text) : Option Access :=
  modifiers.findSome? fun (m : Text) =>
    if m = "public" then some .everybody
    else if m = "private" then some .owner
    else if m = "protected" then some .family
    else none

def hasModifier (name : Text) (ps : Pieces) : Bool := (modifiers ps).contains name

/-- The parameter of an index signature, which has no place of its own. -/
def indexParam (ps : Pieces) : Read Param := do
  let name ← nameOf ps
  let type ← typeBeside [.identifier, .annotatedType, .memberModifier] ps
  return { pattern := .name name none, annotated := some type, isOptional := false,
           isRest := false, loc := none }

def indexMember (isReadonly isStatic : Bool) (loc : Option Location) (ps : Pieces) :
    Read Member := do
  let param ← indexParam ps
  let annotated ← annotatedOf ps
  return .index [param] annotated isReadonly isStatic loc

/-- A method; the one called `constructor` makes objects, unless it is static. -/
def methodMember (loc : Option Location) (ps : Pieces) : Read Member := do
  let key ← keyOf ps
  let isStatic := hasModifier "static" ps
  let access := accessOf (modifiers ps)
  let params ← paramsOf ps
  if key.value = "constructor" && (key.kind = .word || key.kind = .string) && !isStatic then
    return .constructorMember key params access loc
  let signature ← signatureOf ps
  return .method key .method signature isStatic access (ps.hasToken .question)
    (hasModifier "abstract" ps) loc

def accessorMember (loc : Option Location) (ps : Pieces) : Read Member := do
  let key ← keyOf ps
  let param ← (ps.find .parameter).mapM param
  let result ← resultOf ps
  let kind : MethodKind := if ps.hasToken .wordGet then .getter else .setter
  return .method key kind { params := param.toList, result, typeParams := [] }
    (hasModifier "static" ps) (accessOf (modifiers ps)) false (hasModifier "abstract" ps) loc

def propertyMember (loc : Option Location) (ps : Pieces) : Read Member := do
  let key ← keyOf ps
  let annotated ← annotatedOf ps
  return .property key annotated (hasModifier "static" ps) (accessOf (modifiers ps))
    (hasModifier "readonly" ps) (ps.hasToken .question) loc

def propertySignature (loc : Option Location) (ps : Pieces) : Read Member := do
  let key ← keyOf ps
  let annotated ← annotatedOf ps
  return .propertySignature key annotated (ps.hasToken .question) (ps.hasToken .wordReadonly) loc

def methodSignature (loc : Option Location) (ps : Pieces) : Read Member := do
  let key ← keyOf ps
  let signature ← signatureOf ps
  return .methodSignature key signature (ps.hasToken .question) loc

def getterSignature (loc : Option Location) (ps : Pieces) : Read Member := do
  let key ← keyOf ps
  let result ← resultOf ps
  return .getterSignature key result loc

def setterSignature (loc : Option Location) (ps : Pieces) : Read Member := do
  let key ← keyOf ps
  let p ← required (ps.find .parameter)
  let param ← param p
  return .setterSignature key param loc

/-- The members of a class body. A semicolon ends the member before it if nothing else did; any
other one is an empty member. -/
def classMembers (ended : Bool) : Pieces → Read (List Member)
  | [] => .ok []
  | .token t :: rest =>
    if t.kind = .semicolon then do
      let tail ← classMembers true rest
      return if ended then .empty (some t.loc) :: tail else tail
    else classMembers ended rest
  | .node _ _ _ (.member member isEnded) :: rest => do
    let head ← member
    let tail ← classMembers isEnded rest
    return head :: tail
  | _ :: _ => .error .incomplete

/-- Whether a member of a class has an end of its own: a semicolon or a body. -/
def isEnded (ps : Pieces) : Bool := ps.hasToken .semicolon || (ps.find .functionBody).isSome

def heritageOf (loc : Option Location) (ps : Pieces) : Read Heritage := do
  let segments ← segmentsOf ps
  let args ← argsOf ps
  return { segments, args, loc }

def classDeclaration (loc : Option Location) (ps : Pieces) : Read Declaration := do
  let name ← wordOf? .identifier ps
  let typeParams ← typeParamsOf ps
  let superClass ← (ps.find .classExtends).mapM heritage
  let interfaces ← (ps.find .classImplements).mapM heritages
  let body ← required (ps.find .classBody)
  let members ← members body
  return .classDeclaration
    { name, members, typeParams, superClass, interfaces := interfaces.getD []
      isAbstract := ps.hasToken .wordAbstract, loc }

def functionDeclaration (loc : Option Location) (ps : Pieces) : Read Declaration := do
  let name ← wordOf? .identifier ps
  let signature ← signatureOf ps
  return .function { name, signature, loc }

def declaratorOf (loc : Option Location) (ps : Pieces) : Read Declarator := do
  let p ← required ps.nodes.head?
  let pattern ← pattern p
  let annotated ← annotatedOf ps
  return { pattern, annotated, loc }

def variableDeclaration (loc : Option Location) (ps : Pieces) : Read Declaration := do
  let declarators ← (ps.findAll .declarator).mapM declarator
  let kind ← wordOf .variableKind ps
  return .variableDeclaration { kind, declarators, loc }

def aliasDeclaration (loc : Option Location) (ps : Pieces) : Read Declaration := do
  let name ← nameOf ps
  let typeParams ← typeParamsOf ps
  let type ← lastType ps
  return .typeAlias { name, type, typeParams, loc }

def interfaceDeclaration (loc : Option Location) (ps : Pieces) : Read Declaration := do
  let bases ← (ps.find .interfaceExtends).mapM heritages
  let name ← nameOf ps
  let p ← required (ps.find .typeBody)
  let body ← members p
  let typeParams ← typeParamsOf ps
  return .interface { name, body, typeParams, bases := bases.getD [], loc }

/-- The initializer of a constant as the words it keeps. -/
def enumMemberOf (loc : Option Location) (ps : Pieces) : Read EnumMember := do
  let key ← keyOf ps
  let init := (ps.find .enumInitializer).map fun p =>
    Text.join " " (p.tokens.map (·.text))
  return { key, init, loc }

def enumDeclaration (loc : Option Location) (ps : Pieces) : Read Declaration := do
  let members ← (ps.findAll .enumMember).mapM enumMember
  let name ← nameOf ps
  return .enumeration { name, members, isConst := ps.hasToken .wordConst, loc }

/-- A namespace for each segment of a dotted name, the innermost with the body. -/
def nest (loc : Option Location) (body : NamespaceBody) (name : Text) : List Text → Namespace
  | [] => { name, body, isStringName := false, isGlobal := false, loc }
  | next :: rest =>
    { name, body := .nested (nest loc body next rest), isStringName := false, isGlobal := false
      loc }

def namespaceDeclaration (loc : Option Location) (ps : Pieces) : Read Declaration := do
  let body ← (ps.find .namespaceBlock).mapM block
  let body := body.getD .missing
  if ps.hasToken .string then
    let name ← stringOf ps
    return .space { name, body, isStringName := true, isGlobal := false, loc }
  match ← segmentsOf ps with
  | [] => .error .incomplete
  | name :: rest => return .space (nest loc body name rest)

def globalDeclaration (loc : Option Location) (ps : Pieces) : Read Declaration := do
  let p ← required (ps.find .namespaceBlock)
  let body ← block p
  return .space { name := "global", body, isStringName := false, isGlobal := true, loc }

def importSpecifierOf (loc : Option Location) (ps : Pieces) : Read ImportSpecifier := do
  let p ← required (ps.find .moduleExportName)
  let exported ← exportName p
  match ← wordOf? .identifier ps with
  | some name => return { kind := .named, localName := name, imported := some exported, loc }
  | none => return { kind := .named, localName := exported, imported := none, loc }

def importDeclaration (loc : Option Location) (ps : Pieces) : Read Statement := do
  let source ← stringOf ps
  let specifiers ← (ps.find .importClause).mapM importSpecifiers
  return .importDeclaration
    { specifiers := specifiers.getD [], source, typeOnly := ps.hasToken .wordType, loc }

def importBare (loc : Option Location) (ps : Pieces) : Read Statement := do
  let source ← stringOf ps
  return .importDeclaration { specifiers := [], source, typeOnly := false, loc }

def importAlias (loc : Option Location) (ps : Pieces) : Read Statement := do
  let name ← nameOf ps
  let target ← match ps.find .requireCall with
    | some p => ModuleReference.required <$> requiredModule p
    | none => ModuleReference.entity <$> segmentsOf ps
  return .importAlias { name, target, isExport := ps.hasToken .wordExport, loc }

def exportSpecifierOf (loc : Option Location) (ps : Pieces) : Read ExportSpecifier := do
  match ← (ps.findAll .moduleExportName).mapM exportName with
  | [] => .error .incomplete
  | name :: rest => return { kind := .named, name, exported := rest.head?, loc }

def exportNamed (loc : Option Location) (ps : Pieces) : Read Statement := do
  let specifiers ← (ps.findAll .exportSpecifier).mapM exportSpecifier
  let source ← (ps.token? .string).mapM fun t => StringLiteral.decode t.text
  return .exportList { specifiers, source, typeOnly := ps.hasToken .wordType, loc }

def exportNamespaceFrom (loc : Option Location) (ps : Pieces) : Read Statement := do
  let p ← required (ps.find .moduleExportName)
  let exported ← exportName p
  let source ← stringOf ps
  return .exportList
    { specifiers := [{ kind := .whole, name := "*", exported := some exported, loc }]
      source := some source, typeOnly := ps.hasToken .wordType, loc }

def exportAll (loc : Option Location) (ps : Pieces) : Read Statement := do
  let source ← stringOf ps
  return .exportAll source (ps.hasToken .wordType) loc

def exportDefaultName (loc : Option Location) (ps : Pieces) : Read Statement := do
  let name ← nameOf ps
  return .exportDefaultName name loc

def exportAssignment (loc : Option Location) (ps : Pieces) : Read Statement := do
  let segments ← segmentsOf ps
  return .exportAssignment (Text.join "." segments) loc

def exportAsNamespace (loc : Option Location) (ps : Pieces) : Read Statement := do
  let name ← nameOf ps
  return .exportAsNamespace name loc

/-- The declaration that is the first node below. -/
def firstDeclaration (ps : Pieces) : Read Declaration := do
  let p ← required ps.nodes.head?
  declaration p

def statements (ps : Pieces) : Read (List Statement) := ps.nodes.mapM statement

/-- A specifier of an import clause that binds one name. -/
def clauseSpecifier (kind : ImportKind) (loc : Option Location) (ps : Pieces) :
    Read (List ImportSpecifier) := do
  let name ← nameOf ps
  return [{ kind, localName := name, imported := none, loc }]

def declared (d : Read Declaration) : Value := .statement (d.map .declaration)

/-- What a node is read to, from its label, its place and its children. -/
def value (label : Nonterminal) (loc : Option Location) (ps : Pieces) : Value :=
  match label with
  | .identifier | .reservedWord | .variableKind | .memberModifier | .parameterModifier
  | .namespaceKind =>
    match ps.firstToken? with
    | some t => .word t.text
    | none => .nothing
  | .entityName => .entity ((ps.nodes.filterMap fun p => (word p).toOption))
  | .moduleExportName => .exportName (moduleExportName ps)
  | .propertyKey => .key (propertyKey loc ps)
  | .computedKey => .exportName (computedText ps)
  | .objectPattern => .pattern (.object loc)
  | .arrayPattern => .pattern (.array loc)
  | .literal => .type (literal loc ps)
  | .literalType | .annotatedType | .annotatedResult | .typeConstraint | .typeDefault =>
    .type (firstType ps)
  | .typeReference => .type (typeReference loc ps)
  | .parenType => .type ((firstType ps).map (.paren · loc))
  | .functionType => .type (functionType loc ps)
  | .constructorType => .type (constructorType loc ps)
  | .conditionalType => .type (conditionalType loc ps)
  | .unionOf => .type ((allTypes ps).map (.union · loc))
  | .intersectionOf => .type ((allTypes ps).map (.intersection · loc))
  | .typeOperator => .type (typeOperator loc ps)
  | .inferType => .type ((nameOf ps).map (.infer · loc))
  | .arrayType => .type ((firstType ps).map (.array · loc))
  | .indexedAccessType => .type (indexedType loc ps)
  | .tupleType => .type ((allTypes ps).map (.tuple · loc))
  | .tuplePlain => .type (lastType ps)
  | .tupleOptional => .type ((lastType ps).map (.optional · loc))
  | .tupleNamed => .type (namedElement loc ps)
  | .tupleRest | .tupleNamedRest => .type ((lastType ps).map (.rest · loc))
  | .objectType => .type (do
      let p ← required (ps.find .typeBody)
      let members ← members p
      return .object members loc)
  | .mappedType => .type (mappedType loc ps)
  | .typeQuery => .type ((segmentsOf ps).map (.query · loc))
  | .importType => .type (importType loc ps)
  | .typePredicate => .type (typePredicate loc ps)
  | .typeArguments => .types (allTypes ps)
  | .parameter => .param (parameter false loc ps)
  | .restParameter => .param (parameter true loc ps)
  | .parameters => .params (ps.nodes.mapM param)
  | .typeParameter => .typeParam (typeParameter loc ps)
  | .typeParameters => .typeParams ((ps.findAll .typeParameter).mapM typeParam)
  | .methodMember => .member (methodMember loc ps) (isEnded ps)
  | .accessorMember => .member (accessorMember loc ps) (isEnded ps)
  | .propertyMember => .member (propertyMember loc ps) (isEnded ps)
  | .indexMember =>
    .member (indexMember (hasModifier "readonly" ps) (hasModifier "static" ps) loc ps) (isEnded ps)
  | .staticBlock => .member (.ok (.staticBlock loc)) (isEnded ps)
  | .propertySignature => .member (propertySignature loc ps) true
  | .methodSignature => .member (methodSignature loc ps) true
  | .callSignature => .member ((signatureOf ps).map (.callSignature · loc)) true
  | .constructSignature => .member ((signatureOf ps).map (.constructSignature · loc)) true
  | .getterSignature => .member (getterSignature loc ps) true
  | .setterSignature => .member (setterSignature loc ps) true
  | .indexSignature => .member (indexMember (ps.hasToken .wordReadonly) false loc ps) true
  | .classBody => .members (classMembers true ps)
  | .typeBody => .members (ps.nodes.mapM member)
  | .heritage => .heritage (heritageOf loc ps)
  | .classExtends => .heritage (required ps.nodes.head? >>= heritage)
  | .classImplements | .interfaceExtends => .heritages (ps.nodes.mapM heritage)
  | .declarator => .declarator (declaratorOf loc ps)
  | .enumMember => .enumMember (enumMemberOf loc ps)
  | .classDeclaration => declared (classDeclaration loc ps)
  | .functionDeclaration => declared (functionDeclaration loc ps)
  | .variableDeclaration => declared (variableDeclaration loc ps)
  | .aliasDeclaration => declared (aliasDeclaration loc ps)
  | .interfaceDeclaration => declared (interfaceDeclaration loc ps)
  | .enumDeclaration => declared (enumDeclaration loc ps)
  | .namespaceDeclaration => declared (namespaceDeclaration loc ps)
  | .globalDeclaration => declared (globalDeclaration loc ps)
  | .namespaceBlock => .block (statements ps) loc
  | .defaultImport => .importSpecifiers (clauseSpecifier .default loc ps)
  | .namespaceImport => .importSpecifiers (clauseSpecifier .whole loc ps)
  | .importSpecifier => .importSpecifiers ((importSpecifierOf loc ps).map fun s => [s])
  | .namedImports | .importClause =>
    .importSpecifiers ((ps.nodes.mapM importSpecifiers).map List.flatten)
  | .exportSpecifier => .exportSpecifier (exportSpecifierOf loc ps)
  | .requireCall => .required (stringOf ps)
  | .importDeclaration => .statement (importDeclaration loc ps)
  | .importBare => .statement (importBare loc ps)
  | .importEquals => .statement (importAlias loc ps)
  | .exportDeclaration => .statement ((firstDeclaration ps).map (.exportDeclaration · loc))
  | .exportDefaultDeclaration =>
    .statement ((firstDeclaration ps).map (.exportDefaultDeclaration · loc))
  | .exportDefaultName => .statement (exportDefaultName loc ps)
  | .exportNamed => .statement (exportNamed loc ps)
  | .exportNamespaceFrom => .statement (exportNamespaceFrom loc ps)
  | .exportAll => .statement (exportAll loc ps)
  | .exportAssignment => .statement (exportAssignment loc ps)
  | .namespaceExport => .statement (exportAsNamespace loc ps)
  | .sourceFile => .block (statements ps) loc
  | _ => .nothing

mutual

/-- Reads a concrete tree. -/
def piece : Concrete → Piece
  | .token t => .token t
  | .node label loc children =>
    let ps := pieces children
    .node label loc (Pieces.tokens ps) (value label loc ps)

def pieces : List Concrete → Pieces
  | [] => []
  | c :: rest => piece c :: pieces rest

end

/-- The module of a whole source file. -/
def module (trees : List Concrete) : Read Module :=
  match trees with
  | [tree] =>
    match (piece tree).value with
    | .block statements loc => do
      let body ← statements
      return { body, loc }
    | _ => .error .incomplete
  | _ => .error .incomplete

end Reader

/-- What becomes of a source text: a module, a failure to report, or a fault. -/
def Module.parse (file : Option Text) (source : Text) : Except Fault (Except Failure Module) :=
  let lexed := Tokens.ofText source
  let failure (cause : Cause) (loc : Option Location) : Failure :=
    { cause, span := some { Span.ofLocation loc with file } }
  match derive (lexed.tokens.map (·.kind)), lexed.stop with
  | .refused position, _ =>
    match lexed.tokens[position]? with
    | some t => .ok (.error (failure (.unexpectedToken t.text) (some t.loc)))
    | none => .error .incomplete
  | _, some (loc, c) => .ok (.error (failure (.unexpectedCharacter c) (some loc)))
  | .unfinished, none => .ok (.error (failure (.unexpectedToken []) none))
  | .derived d, none => (Reader.module (Concrete.ofDerivation lexed.tokens d)).map .ok

end HostBindings.Source

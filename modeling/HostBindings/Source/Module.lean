import HostBindings.Source.TypeExpr

/-!
Declarations, statements and modules of a source.
-/

namespace HostBindings.Source

/-- What a class or interface derives from. -/
structure Heritage where
  segments : List Text
  args : List TypeExpr := []
  loc : Option Location := none

structure ClassDeclaration where
  name : Option Text
  members : List Member
  typeParams : List TypeParam
  superClass : Option Heritage
  interfaces : List Heritage
  isAbstract : Bool
  loc : Option Location

structure FunctionDeclaration where
  name : Option Text
  signature : Signature
  loc : Option Location

structure Declarator where
  pattern : BindingPattern
  annotated : Option TypeExpr
  loc : Option Location

structure VariableDeclaration where
  kind : Text
  declarators : List Declarator
  loc : Option Location

structure AliasDeclaration where
  name : Text
  type : TypeExpr
  typeParams : List TypeParam
  loc : Option Location

structure InterfaceDeclaration where
  name : Text
  body : List Member
  typeParams : List TypeParam
  bases : List Heritage
  loc : Option Location

structure EnumMember where
  key : PropertyKey
  init : Option Text
  loc : Option Location

structure EnumDeclaration where
  name : Text
  members : List EnumMember
  isConst : Bool
  loc : Option Location

/-- What an import brings in: one exported name, the default export, or the whole module. -/
inductive ImportKind
  | named
  | default
  | whole
deriving DecidableEq, Repr

structure ImportSpecifier where
  kind : ImportKind
  localName : Text
  /-- The exported name, where it differs. -/
  imported : Option Text
  loc : Option Location

structure ImportDeclaration where
  specifiers : List ImportSpecifier
  source : Text
  typeOnly : Bool
  loc : Option Location

/-- The right side of an import alias. A required module always has a specifier in a source; in a
tree built by hand it may be missing. -/
inductive ModuleReference
  | required (specifier : Option Text)
  | entity (segments : List Text)

structure ImportAlias where
  name : Text
  target : ModuleReference
  isExport : Bool
  loc : Option Location

/-- What an export passes on. -/
inductive ExportKind
  | named
  | whole
  /-- A kind that no source has. -/
  | other
deriving DecidableEq, Repr

structure ExportSpecifier where
  kind : ExportKind
  name : Text
  /-- The exported name, where it differs. -/
  exported : Option Text
  loc : Option Location

structure ExportList where
  specifiers : List ExportSpecifier
  /-- The module that the names come from, if it is another one. -/
  source : Option Text
  typeOnly : Bool
  loc : Option Location

mutual

inductive Declaration
  | classDeclaration (d : ClassDeclaration)
  | function (d : FunctionDeclaration)
  | variableDeclaration (d : VariableDeclaration)
  | typeAlias (d : AliasDeclaration)
  | interface (d : InterfaceDeclaration)
  | enumeration (d : EnumDeclaration)
  | space (d : Namespace)
  | stray (s : Stray)

structure Namespace where
  name : Text
  body : NamespaceBody
  /-- Whether the name is a string: the declaration of a foreign module. -/
  isStringName : Bool
  /-- Whether the body adds to the global scope. -/
  isGlobal : Bool
  loc : Option Location

/-- A namespace with a dotted name has the declaration of the rest of the name as its body. -/
inductive NamespaceBody
  | missing
  | block (statements : List Statement) (loc : Option Location)
  | nested (inner : Namespace)

inductive Statement
  | declaration (d : Declaration)
  | importDeclaration (d : ImportDeclaration)
  | importAlias (d : ImportAlias)
  | exportList (d : ExportList)
  | exportDeclaration (d : Declaration) (loc : Option Location)
  | exportDefaultName (name : Text) (loc : Option Location)
  | exportDefaultDeclaration (d : Declaration) (loc : Option Location)
  | exportAll (source : Text) (typeOnly : Bool) (loc : Option Location)
  | exportAssignment (name : Text) (loc : Option Location)
  /-- Makes the module available to scripts as a global namespace. -/
  | exportAsNamespace (name : Text) (loc : Option Location)
  | stray (s : Stray)

end

structure Module where
  body : List Statement
  loc : Option Location := none

namespace Declaration

def loc : Declaration → Option Location
  | classDeclaration d => d.loc
  | function d => d.loc
  | variableDeclaration d => d.loc
  | typeAlias d => d.loc
  | interface d => d.loc
  | enumeration d => d.loc
  | space d => d.loc
  | stray s => s.loc

/-- The declared name; a variable statement has that of its first variable. -/
def name? : Declaration → Option Text
  | classDeclaration d => d.name
  | function d => d.name
  | variableDeclaration d =>
    match d.declarators with
    | { pattern := .name name _, .. } :: _ => some name
    | _ => none
  | typeAlias d => some d.name
  | interface d => some d.name
  | enumeration d => some d.name
  | space d => some d.name
  | stray _ => none

/-- The name of a declaration's kind in messages. -/
def kindName : Declaration → Text
  | classDeclaration _ => "ClassDecl"
  | function _ => "FunctionDecl"
  | variableDeclaration _ => "VariableDecl"
  | typeAlias _ => "TypeAliasDecl"
  | interface _ => "InterfaceDecl"
  | enumeration _ => "EnumDecl"
  | space _ => "NamespaceDecl"
  | stray s => s.kindName

end Declaration

namespace Statement

def loc : Statement → Option Location
  | declaration d => d.loc
  | importDeclaration d => d.loc
  | importAlias d => d.loc
  | exportList d => d.loc
  | exportDeclaration _ loc | exportDefaultName _ loc | exportDefaultDeclaration _ loc
  | exportAll _ _ loc | exportAssignment _ loc | exportAsNamespace _ loc => loc
  | stray s => s.loc

/-- The name of a statement's kind in messages. -/
def kindName : Statement → Text
  | declaration d => d.kindName
  | importDeclaration _ => "ImportDecl"
  | importAlias _ => "ImportEquals"
  | exportList _ => "ExportNamed"
  | exportDeclaration _ _ => "ExportDecl"
  | exportDefaultName _ _ => "ExportDefaultExpr"
  | exportDefaultDeclaration _ _ => "ExportDefaultDecl"
  | exportAll _ _ _ => "ExportAll"
  | exportAssignment _ _ => "ExportAssignment"
  | exportAsNamespace _ _ => "NamespaceExport"
  | stray s => s.kindName

/-- Whether a statement makes its file a module: any import or export but the one that names the
module for scripts. -/
def isModuleSyntax : Statement → Bool
  | declaration _ | exportAsNamespace _ _ | stray _ => false
  | _ => true

end Statement

namespace Module

/-- Whether the file is a module; otherwise it is a script, whose declarations are global. -/
def isModuleFile (m : Module) : Bool := m.body.any Statement.isModuleSyntax

end Module

end HostBindings.Source

import HostBindings.Diagnostic

/-!
Type expressions of a source, with the parameters and members that occur inside them.
-/

namespace HostBindings.Source

/-- The words that name types of their own. -/
inductive Keyword
  | any
  | unknown
  | number
  | boolean
  | string
  | void
  | null
  | undefined
  | never
  | object
  | bigint
  | symbol
  | intrinsic
  /-- A word that names none; no source has it. -/
  | other (word : Text)
deriving DecidableEq, Repr

namespace Keyword

def word : Keyword → Text
  | any => "any"
  | unknown => "unknown"
  | number => "number"
  | boolean => "boolean"
  | string => "string"
  | void => "void"
  | null => "null"
  | undefined => "undefined"
  | never => "never"
  | object => "object"
  | bigint => "bigint"
  | symbol => "symbol"
  | intrinsic => "intrinsic"
  | other word => word

/-- All keywords of the language. -/
def all : List Keyword :=
  [any, unknown, number, boolean, string, void, null, undefined, never, object, bigint, symbol,
    intrinsic]

/-- The keyword that a word names. -/
def ofWord? (w : Text) : Option Keyword := all.find? (·.word = w)

/-- The keyword with a word, whether it names a type or not. -/
def ofWord (w : Text) : Keyword := (ofWord? w).getD (.other w)

end Keyword

/-- Kinds of literal types. -/
inductive LiteralKind
  | string
  | number
  | template
  | boolean
  | other (label : Text)
deriving DecidableEq, Repr

namespace LiteralKind

def label : LiteralKind → Text
  | string => "string"
  | number => "number"
  | template => "template"
  | boolean => "boolean"
  | other label => label

/-- The kind with a label. -/
def ofLabel (l : Text) : LiteralKind :=
  ([string, number, template, boolean].find? (·.label = l)).getD (other l)

end LiteralKind

/-- How the key of a member is written. -/
inductive KeyKind
  | word
  | string
  | number
  /-- A name that only the class itself can use. -/
  | hidden
  | computed
  /-- There is no key. No source has that; a tree built by hand may. -/
  | absent
deriving DecidableEq, Repr

structure PropertyKey where
  kind : KeyKind
  value : Text
  loc : Option Location := none
deriving DecidableEq, Repr

/-- What a parameter or variable binds. -/
inductive BindingPattern
  | name (name : Text) (loc : Option Location)
  | object (loc : Option Location)
  | array (loc : Option Location)
  /-- What binds nothing. No source has it; a tree built by hand may. -/
  | absent
deriving DecidableEq, Repr

/-- A node where one of another kind belongs. No source has it; a tree built by hand may. -/
inductive Stray
  | node (kind : Text) (loc : Option Location)
  /-- A value that has no place in a source. -/
  | value
deriving DecidableEq, Repr

namespace Stray

def loc : Stray → Option Location
  | node _ loc => loc
  | value => none

/-- The name of the node's kind in messages; a mere value has none. -/
def kindName : Stray → Text
  | node kind _ => kind
  | value => []

end Stray

/-- Who may use a member: everybody, the class alone, or the class and those derived from it. -/
inductive Access
  | everybody
  | owner
  | family
deriving DecidableEq, Repr

/-- Kinds of class methods. -/
inductive MethodKind
  | method
  | getter
  | setter
deriving DecidableEq, Repr

mutual

/-- A type expression. -/
inductive TypeExpr
  | keyword (word : Keyword) (loc : Option Location)
  /-- The type of the receiver. -/
  | this (loc : Option Location)
  /-- A name after the namespaces that qualify it. -/
  | reference (qualifier : List Text) (name : Text) (args : List TypeExpr) (loc : Option Location)
  /-- A reference without a name. No source has it; a tree built by hand may. -/
  | unnamed (args : List TypeExpr) (loc : Option Location)
  | function (params : List Param) (result : Option TypeExpr) (typeParams : List TypeParam)
    (loc : Option Location)
  | constructorType (params : List Param) (result : TypeExpr) (typeParams : List TypeParam)
    (isAbstract : Bool) (loc : Option Location)
  | array (element : TypeExpr) (loc : Option Location)
  | optional (inner : TypeExpr) (loc : Option Location)
  | union (members : List TypeExpr) (loc : Option Location)
  | intersection (members : List TypeExpr) (loc : Option Location)
  | tuple (elements : List TypeExpr) (loc : Option Location)
  | paren (inner : TypeExpr) (loc : Option Location)
  | importType (specifier : Text) (qualifier : List Text) (args : List TypeExpr)
    (loc : Option Location)
  | object (members : List Member) (loc : Option Location)
  | literal (kind : LiteralKind) (value : Text) (loc : Option Location)
  | indexed (object index : TypeExpr) (loc : Option Location)
  | query (segments : List Text) (loc : Option Location)
  | mapped (param : Text) (constraint : TypeExpr) (value : Option TypeExpr)
    (loc : Option Location)
  | conditional (check bound whenTrue whenFalse : TypeExpr) (loc : Option Location)
  | predicate (param : Text) (type : Option TypeExpr) (asserts : Bool) (loc : Option Location)
  | infer (name : Text) (loc : Option Location)
  | rest (inner : TypeExpr) (loc : Option Location)
  | operator (op : Text) (inner : TypeExpr) (loc : Option Location)
  | stray (s : Stray)

structure Param where
  pattern : BindingPattern
  annotated : Option TypeExpr
  isOptional : Bool
  isRest : Bool
  loc : Option Location

structure TypeParam where
  name : Text
  constraint : Option TypeExpr
  default : Option TypeExpr
  loc : Option Location

/-- Parameters and result of something that can be called. -/
structure Signature where
  params : List Param
  result : Option TypeExpr
  typeParams : List TypeParam

/-- A member of a class or of an object type. -/
inductive Member
  | constructorMember (key : PropertyKey) (params : List Param) (access : Option Access)
    (loc : Option Location)
  | method (key : PropertyKey) (kind : MethodKind) (signature : Signature) (isStatic : Bool)
    (access : Option Access) (isOptional isAbstract : Bool) (loc : Option Location)
  | property (key : PropertyKey) (annotated : Option TypeExpr) (isStatic : Bool)
    (access : Option Access) (isReadonly isOptional : Bool) (loc : Option Location)
  | index (params : List Param) (annotated : Option TypeExpr) (isReadonly isStatic : Bool)
    (loc : Option Location)
  | staticBlock (loc : Option Location)
  | empty (loc : Option Location)
  | propertySignature (key : PropertyKey) (annotated : Option TypeExpr)
    (isOptional isReadonly : Bool) (loc : Option Location)
  | methodSignature (key : PropertyKey) (signature : Signature) (isOptional : Bool)
    (loc : Option Location)
  | getterSignature (key : PropertyKey) (result : Option TypeExpr) (loc : Option Location)
  | setterSignature (key : PropertyKey) (param : Param) (loc : Option Location)
  | callSignature (signature : Signature) (loc : Option Location)
  | constructSignature (signature : Signature) (loc : Option Location)
  /-- A stray node may still have a key. -/
  | stray (s : Stray) (key : Option PropertyKey)

end

namespace Member

def loc : Member → Option Location
  | constructorMember _ _ _ loc | method _ _ _ _ _ _ _ loc | property _ _ _ _ _ _ loc
  | index _ _ _ _ loc | staticBlock loc | empty loc | propertySignature _ _ _ _ loc
  | methodSignature _ _ _ loc | getterSignature _ _ loc | setterSignature _ _ loc
  | callSignature _ loc | constructSignature _ loc => loc
  | stray s _ => s.loc

/-- The key of a member that has one. -/
def key? : Member → Option PropertyKey
  | constructorMember key _ _ _ | method key _ _ _ _ _ _ _ | property key _ _ _ _ _ _
  | propertySignature key _ _ _ _ | methodSignature key _ _ _ | getterSignature key _ _
  | setterSignature key _ _ => some key
  | stray _ key => key
  | _ => none

/-- Who may use a member of a class. -/
def access? : Member → Option Access
  | constructorMember _ _ access _ | method _ _ _ _ access _ _ _
  | property _ _ _ access _ _ _ => access
  | _ => none

/-- The name of a member's kind in messages. -/
def kindName : Member → Text
  | constructorMember .. => "ClassConstructor"
  | method .. => "ClassMethod"
  | property .. => "ClassProperty"
  | index .. => "IndexSignature"
  | staticBlock .. => "StaticBlock"
  | empty .. => "EmptyMember"
  | propertySignature .. => "PropertySignature"
  | methodSignature .. => "MethodSignature"
  | getterSignature .. => "GetterSignature"
  | setterSignature .. => "SetterSignature"
  | callSignature .. => "CallSignature"
  | constructSignature .. => "ConstructSignature"
  | stray s _ => s.kindName

/-- A member's kind in words, where it has some. -/
def describe : Member → Text
  | methodSignature .. => "method signature"
  | callSignature .. => "call signature"
  | constructSignature .. => "construct signature"
  | index .. => "index signature"
  | getterSignature .. => "getter"
  | setterSignature .. => "setter"
  | member => member.kindName

end Member

end HostBindings.Source

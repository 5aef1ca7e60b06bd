import HostBindings.Outcome
import HostBindings.Rust.Unit
import HostBindings.Source.Reader

/-!
Relocation: values of a source and of its bindings with all places moved by a function. Two values
that agree once everything is moved to one place differ in their places only.
-/

namespace HostBindings

variable (f : Location → Location)

/-- A place whose line or column is missing stays as it is. -/
def Span.relocate (s : Span) : Span :=
  match s.line, s.column with
  | some line, some column =>
    { s with line := some (f ⟨line, column⟩).line, column := some (f ⟨line, column⟩).column }
  | _, _ => s

def Warning.relocate (w : Warning) : Warning := { w with loc := w.loc.map f }

def Failure.relocate (failure : Failure) : Failure :=
  { failure with span := failure.span.map (Span.relocate f) }

def Halt.relocate : Halt → Halt
  | .failure e => .failure (e.relocate f)
  | .fault e => .fault e

def Outcome.relocate {α : Type} (x : Outcome α) : Outcome α :=
  ⟨x.warnings.map (Warning.relocate f), x.result.mapError (Halt.relocate f)⟩

def Binding.relocate (b : Binding) : Binding := { b with loc := b.loc.map f }

/-- A unit has places in its bindings only. -/
def Rust.SourceUnit.relocate (u : SourceUnit) : SourceUnit :=
  u.mapBlocks (List.map (Binding.relocate f))

namespace Source

def PropertyKey.relocate (key : PropertyKey) : PropertyKey := { key with loc := key.loc.map f }

def BindingPattern.relocate : BindingPattern → BindingPattern
  | .name n loc => .name n (loc.map f)
  | .object loc => .object (loc.map f)
  | .array loc => .array (loc.map f)
  | .absent => .absent

def Stray.relocate : Stray → Stray
  | .node kind loc => .node kind (loc.map f)
  | .value => .value

mutual

@[simp]
def TypeExpr.relocate : TypeExpr → TypeExpr
  | .keyword word loc => .keyword word (loc.map f)
  | .this loc => .this (loc.map f)
  | .reference qualifier name args loc =>
    .reference qualifier name (TypeExpr.relocateAll args) (loc.map f)
  | .unnamed args loc => .unnamed (TypeExpr.relocateAll args) (loc.map f)
  | .function params result typeParams loc =>
    .function (Param.relocateAll params) (TypeExpr.relocateIn result)
      (TypeParam.relocateAll typeParams) (loc.map f)
  | .constructorType params result typeParams isAbstract loc =>
    .constructorType (Param.relocateAll params) result.relocate (TypeParam.relocateAll typeParams)
      isAbstract (loc.map f)
  | .array element loc => .array element.relocate (loc.map f)
  | .optional inner loc => .optional inner.relocate (loc.map f)
  | .union members loc => .union (TypeExpr.relocateAll members) (loc.map f)
  | .intersection members loc => .intersection (TypeExpr.relocateAll members) (loc.map f)
  | .tuple elements loc => .tuple (TypeExpr.relocateAll elements) (loc.map f)
  | .paren inner loc => .paren inner.relocate (loc.map f)
  | .importType specifier qualifier args loc =>
    .importType specifier qualifier (TypeExpr.relocateAll args) (loc.map f)
  | .object members loc => .object (Member.relocateAll members) (loc.map f)
  | .literal kind value loc => .literal kind value (loc.map f)
  | .indexed object index loc => .indexed object.relocate index.relocate (loc.map f)
  | .query segments loc => .query segments (loc.map f)
  | .mapped param constraint value loc =>
    .mapped param constraint.relocate (TypeExpr.relocateIn value) (loc.map f)
  | .conditional check bound whenTrue whenFalse loc =>
    .conditional check.relocate bound.relocate whenTrue.relocate whenFalse.relocate (loc.map f)
  | .predicate param type asserts loc =>
    .predicate param (TypeExpr.relocateIn type) asserts (loc.map f)
  | .infer name loc => .infer name (loc.map f)
  | .rest inner loc => .rest inner.relocate (loc.map f)
  | .operator op inner loc => .operator op inner.relocate (loc.map f)
  | .stray s => .stray (s.relocate f)

def TypeExpr.relocateAll : List TypeExpr → List TypeExpr
  | [] => []
  | t :: more => t.relocate :: TypeExpr.relocateAll more

def TypeExpr.relocateIn : Option TypeExpr → Option TypeExpr
  | none => none
  | some t => some t.relocate

@[simp]
def Param.relocate : Param → Param
  | ⟨pattern, annotated, isOptional, isRest, loc⟩ =>
    ⟨pattern.relocate f, TypeExpr.relocateIn annotated, isOptional, isRest, loc.map f⟩

def Param.relocateAll : List Param → List Param
  | [] => []
  | p :: rest => p.relocate :: Param.relocateAll rest

@[simp]
def TypeParam.relocate : TypeParam → TypeParam
  | ⟨name, constraint, default, loc⟩ =>
    ⟨name, TypeExpr.relocateIn constraint, TypeExpr.relocateIn default, loc.map f⟩

def TypeParam.relocateAll : List TypeParam → List TypeParam
  | [] => []
  | p :: rest => p.relocate :: TypeParam.relocateAll rest

@[simp]
def Signature.relocate : Signature → Signature
  | ⟨params, result, typeParams⟩ =>
    ⟨Param.relocateAll params, TypeExpr.relocateIn result, TypeParam.relocateAll typeParams⟩

@[simp]
def Member.relocate : Member → Member
  | .constructorMember key params access loc =>
    .constructorMember (key.relocate f) (Param.relocateAll params) access (loc.map f)
  | .method key kind signature isStatic access isOptional isAbstract loc =>
    .method (key.relocate f) kind signature.relocate isStatic access isOptional isAbstract
      (loc.map f)
  | .property key annotated isStatic access isReadonly isOptional loc =>
    .property (key.relocate f) (TypeExpr.relocateIn annotated) isStatic access isReadonly
      isOptional (loc.map f)
  | .index params annotated isReadonly isStatic loc =>
    .index (Param.relocateAll params) (TypeExpr.relocateIn annotated) isReadonly isStatic
      (loc.map f)
  | .staticBlock loc => .staticBlock (loc.map f)
  | .empty loc => .empty (loc.map f)
  | .propertySignature key annotated isOptional isReadonly loc =>
    .propertySignature (key.relocate f) (TypeExpr.relocateIn annotated) isOptional isReadonly
      (loc.map f)
  | .methodSignature key signature isOptional loc =>
    .methodSignature (key.relocate f) signature.relocate isOptional (loc.map f)
  | .getterSignature key result loc =>
    .getterSignature (key.relocate f) (TypeExpr.relocateIn result) (loc.map f)
  | .setterSignature key param loc =>
    .setterSignature (key.relocate f) param.relocate (loc.map f)
  | .callSignature signature loc => .callSignature signature.relocate (loc.map f)
  | .constructSignature signature loc => .constructSignature signature.relocate (loc.map f)
  | .stray s key => .stray (s.relocate f) (key.map (PropertyKey.relocate f))

def Member.relocateAll : List Member → List Member
  | [] => []
  | m :: rest => m.relocate :: Member.relocateAll rest

end

@[simp]
theorem TypeExpr.relocateAll_eq (ts : List TypeExpr) :
    TypeExpr.relocateAll f ts = ts.map (TypeExpr.relocate f) := by
  induction ts with
  | nil => rfl
  | cons t more ih => rw [TypeExpr.relocateAll, ih, List.map_cons]

@[simp]
theorem TypeExpr.relocateIn_eq (t : Option TypeExpr) :
    TypeExpr.relocateIn f t = t.map (TypeExpr.relocate f) := by
  cases t <;> rfl

@[simp]
theorem Param.relocateAll_eq (ps : List Param) :
    Param.relocateAll f ps = ps.map (Param.relocate f) := by
  induction ps with
  | nil => rfl
  | cons p rest ih => rw [Param.relocateAll, ih, List.map_cons]

@[simp]
theorem TypeParam.relocateAll_eq (ps : List TypeParam) :
    TypeParam.relocateAll f ps = ps.map (TypeParam.relocate f) := by
  induction ps with
  | nil => rfl
  | cons p rest ih => rw [TypeParam.relocateAll, ih, List.map_cons]

@[simp]
theorem Member.relocateAll_eq (ms : List Member) :
    Member.relocateAll f ms = ms.map (Member.relocate f) := by
  induction ms with
  | nil => rfl
  | cons m rest ih => rw [Member.relocateAll, ih, List.map_cons]

def Heritage.relocate (h : Heritage) : Heritage :=
  { h with args := h.args.map (TypeExpr.relocate f), loc := h.loc.map f }

def ClassDeclaration.relocate (d : ClassDeclaration) : ClassDeclaration :=
  { d with
    members := d.members.map (Member.relocate f)
    typeParams := d.typeParams.map (TypeParam.relocate f)
    superClass := d.superClass.map (Heritage.relocate f)
    interfaces := d.interfaces.map (Heritage.relocate f)
    loc := d.loc.map f }

def FunctionDeclaration.relocate (d : FunctionDeclaration) : FunctionDeclaration :=
  { d with signature := d.signature.relocate f, loc := d.loc.map f }

def Declarator.relocate (d : Declarator) : Declarator :=
  { pattern := d.pattern.relocate f
    annotated := d.annotated.map (TypeExpr.relocate f)
    loc := d.loc.map f }

def VariableDeclaration.relocate (d : VariableDeclaration) : VariableDeclaration :=
  { d with declarators := d.declarators.map (Declarator.relocate f), loc := d.loc.map f }

def AliasDeclaration.relocate (d : AliasDeclaration) : AliasDeclaration :=
  { d with
    type := d.type.relocate f
    typeParams := d.typeParams.map (TypeParam.relocate f)
    loc := d.loc.map f }

def InterfaceDeclaration.relocate (d : InterfaceDeclaration) : InterfaceDeclaration :=
  { d with
    body := d.body.map (Member.relocate f)
    typeParams := d.typeParams.map (TypeParam.relocate f)
    bases := d.bases.map (Heritage.relocate f)
    loc := d.loc.map f }

def EnumMember.relocate (m : EnumMember) : EnumMember :=
  { m with key := m.key.relocate f, loc := m.loc.map f }

def EnumDeclaration.relocate (d : EnumDeclaration) : EnumDeclaration :=
  { d with members := d.members.map (EnumMember.relocate f), loc := d.loc.map f }

def ImportSpecifier.relocate (s : ImportSpecifier) : ImportSpecifier :=
  { s with loc := s.loc.map f }

def ImportDeclaration.relocate (d : ImportDeclaration) : ImportDeclaration :=
  { d with specifiers := d.specifiers.map (ImportSpecifier.relocate f), loc := d.loc.map f }

def ImportAlias.relocate (a : ImportAlias) : ImportAlias := { a with loc := a.loc.map f }

def ExportSpecifier.relocate (s : ExportSpecifier) : ExportSpecifier :=
  { s with loc := s.loc.map f }

def ExportList.relocate (d : ExportList) : ExportList :=
  { d with specifiers := d.specifiers.map (ExportSpecifier.relocate f), loc := d.loc.map f }

mutual

@[simp]
def Declaration.relocate : Declaration → Declaration
  | .classDeclaration d => .classDeclaration (d.relocate f)
  | .function d => .function (d.relocate f)
  | .variableDeclaration d => .variableDeclaration (d.relocate f)
  | .typeAlias d => .typeAlias (d.relocate f)
  | .interface d => .interface (d.relocate f)
  | .enumeration d => .enumeration (d.relocate f)
  | .space d => .space d.relocate
  | .stray s => .stray (s.relocate f)

@[simp]
def Namespace.relocate : Namespace → Namespace
  | ⟨name, body, isStringName, isGlobal, loc⟩ =>
    ⟨name, body.relocate, isStringName, isGlobal, loc.map f⟩

@[simp]
def NamespaceBody.relocate : NamespaceBody → NamespaceBody
  | .missing => .missing
  | .block statements loc => .block (Statement.relocateAll statements) (loc.map f)
  | .nested inner => .nested inner.relocate

@[simp]
def Statement.relocate : Statement → Statement
  | .declaration d => .declaration d.relocate
  | .importDeclaration d => .importDeclaration (d.relocate f)
  | .importAlias d => .importAlias (d.relocate f)
  | .exportList d => .exportList (d.relocate f)
  | .exportDeclaration d loc => .exportDeclaration d.relocate (loc.map f)
  | .exportDefaultName name loc => .exportDefaultName name (loc.map f)
  | .exportDefaultDeclaration d loc => .exportDefaultDeclaration d.relocate (loc.map f)
  | .exportAll source typeOnly loc => .exportAll source typeOnly (loc.map f)
  | .exportAssignment name loc => .exportAssignment name (loc.map f)
  | .exportAsNamespace name loc => .exportAsNamespace name (loc.map f)
  | .stray s => .stray (s.relocate f)

def Statement.relocateAll : List Statement → List Statement
  | [] => []
  | s :: rest => s.relocate :: Statement.relocateAll rest

end

@[simp]
theorem Statement.relocateAll_eq (ss : List Statement) :
    Statement.relocateAll f ss = ss.map (Statement.relocate f) := by
  induction ss with
  | nil => rfl
  | cons s rest ih => rw [Statement.relocateAll, ih, List.map_cons]

def Module.relocate (m : Module) : Module :=
  { body := m.body.map (Statement.relocate f), loc := m.loc.map f }

def Token.relocate (t : Token) : Token := { t with loc := f t.loc }

mutual

@[simp]
def Concrete.relocate : Concrete → Concrete
  | .token t => .token (t.relocate f)
  | .node label loc children => .node label (loc.map f) (Concrete.relocateAll children)

def Concrete.relocateAll : List Concrete → List Concrete
  | [] => []
  | c :: rest => c.relocate :: Concrete.relocateAll rest

end

@[simp]
theorem Concrete.relocateAll_eq (cs : List Concrete) :
    Concrete.relocateAll f cs = cs.map (Concrete.relocate f) := by
  induction cs with
  | nil => rfl
  | cons c rest ih => rw [Concrete.relocateAll, ih, List.map_cons]

def Value.relocate : Value → Value
  | .nothing => .nothing
  | .word w => .word w
  | .entity segments => .entity segments
  | .exportName r => .exportName r
  | .key r => .key (PropertyKey.relocate f <$> r)
  | .pattern p => .pattern (p.relocate f)
  | .type r => .type (TypeExpr.relocate f <$> r)
  | .types r => .types (List.map (TypeExpr.relocate f) <$> r)
  | .param r => .param (Param.relocate f <$> r)
  | .params r => .params (List.map (Param.relocate f) <$> r)
  | .typeParam r => .typeParam (TypeParam.relocate f <$> r)
  | .typeParams r => .typeParams (List.map (TypeParam.relocate f) <$> r)
  | .member r isEnded => .member (Member.relocate f <$> r) isEnded
  | .members r => .members (List.map (Member.relocate f) <$> r)
  | .heritage r => .heritage (Heritage.relocate f <$> r)
  | .heritages r => .heritages (List.map (Heritage.relocate f) <$> r)
  | .declarator r => .declarator (Declarator.relocate f <$> r)
  | .enumMember r => .enumMember (EnumMember.relocate f <$> r)
  | .importSpecifiers r => .importSpecifiers (List.map (ImportSpecifier.relocate f) <$> r)
  | .exportSpecifier r => .exportSpecifier (ExportSpecifier.relocate f <$> r)
  | .required r => .required r
  | .statement r => .statement (Statement.relocate f <$> r)
  | .block r loc => .block (List.map (Statement.relocate f) <$> r) (loc.map f)

def Piece.relocate : Piece → Piece
  | .token t => .token (t.relocate f)
  | .node label loc tokens value =>
    .node label (loc.map f) (tokens.map (Token.relocate f)) (value.relocate f)

end Source

end HostBindings

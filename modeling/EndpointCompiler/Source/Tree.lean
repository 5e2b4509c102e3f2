import EndpointCompiler.Source.Token
import EndpointCompiler.Types.TypeRef

/-! The trees that source texts are read into. Each node knows its range in the text. -/

namespace EndpointCompiler.Source

structure Ident where
  name : String
  span : Span
  deriving Repr, DecidableEq

inductive TypeExpr where
  | path (module : Option ModuleId) (name : String) (args : List TypeExpr) (span : Span)
  | array (element : TypeExpr) (span : Span)
  deriving Repr

def TypeExpr.span : TypeExpr → Span
  | .path _ _ _ span => span
  | .array _ span => span

mutual

/-- The type that is written. The name `Async` without a module and with one argument is the
asynchronous result. -/
def TypeExpr.toTypeRef : TypeExpr → TypeRef
  | .array element _ => .array element.toTypeRef
  | .path module name args _ =>
    match module, TypeExpr.toTypeRefs args with
    | none, [t] => if name = "Async" then .async t else .named none name [t]
    | _, ts => .named module name ts

def TypeExpr.toTypeRefs : List TypeExpr → List TypeRef
  | [] => []
  | t :: ts => t.toTypeRef :: TypeExpr.toTypeRefs ts

end

inductive AttributeArg where
  | text (value : String) (span : Span)
  | type (type : TypeExpr)
  deriving Repr

def AttributeArg.span : AttributeArg → Span
  | .text _ span => span
  | .type t => t.span

structure Attribute where
  name : Ident
  args : List AttributeArg
  span : Span
  deriving Repr

structure FieldDecl where
  name : Ident
  type : TypeExpr
  deriving Repr

structure ShapeDecl where
  attributes : List Attribute
  name : Ident
  fields : List FieldDecl
  span : Span
  deriving Repr

structure ParamDecl where
  attributes : List Attribute
  name : Ident
  type : TypeExpr
  deriving Repr

inductive Expr where
  | var (name : Ident)
  | field (base : Expr) (name : Ident) (span : Span)
  | new (type : TypeExpr) (fields : List (Ident × Expr)) (span : Span)
  | call (function : Ident) (typeArgs : List TypeExpr) (args : List Expr) (span : Span)
  | await (inner : Expr) (span : Span)
  deriving Repr

def Expr.span : Expr → Span
  | .var name => name.span
  | .field _ _ span => span
  | .new _ _ span => span
  | .call _ _ _ span => span
  | .await _ span => span

inductive Stmt where
  | bind (name : Ident) (value : Expr) (span : Span)
  | result (value : Expr) (span : Span)
  deriving Repr

def Stmt.span : Stmt → Span
  | .bind _ _ span => span
  | .result _ span => span

structure OpDecl where
  attributes : List Attribute
  isAsync : Bool
  name : Ident
  params : List ParamDecl
  result : TypeExpr
  body : List Stmt
  span : Span
  deriving Repr

inductive Item where
  | shape (decl : ShapeDecl)
  | op (decl : OpDecl)
  deriving Repr

end EndpointCompiler.Source

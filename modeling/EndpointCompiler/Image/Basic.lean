import EndpointCompiler.Image.Value

/-! The image of a compiled module: its shapes and operations, ready to be loaded, and the symbols
that lead back from them to the source text. -/

namespace EndpointCompiler

inductive ParamSource where
  | path | query | body | form
  deriving Repr, DecidableEq

def ParamSource.keyword : ParamSource → String
  | .path => "path"
  | .query => "query"
  | .body => "body"
  | .form => "form"

def ParamSource.all : List ParamSource :=
  [.path, .query, .body, .form]

def ParamSource.ofKeyword? (word : String) : Option ParamSource :=
  ParamSource.all.find? (·.keyword == word)

structure ParamImage where
  name : String
  wireName : String
  source : ParamSource
  type : TypeRef
  deriving Repr, DecidableEq

/-- The call by which an operation hands its request on. -/
structure BridgeCall where
  request : TypeRef
  response : TypeRef
  isAsync : Bool
  arg : ValueExpr
  deriving Repr

structure OperationImage where
  name : String
  method : String
  route : String
  produces : Option TypeRef
  params : List ParamImage
  locals : List ValueExpr
  call : BridgeCall
  deriving Repr

/-- An operation whose argument no longer needs its locals. -/
def OperationImage.inlineLocals (op : OperationImage) : OperationImage :=
  if op.locals.isEmpty then op
  else
    { op with
      locals := []
      call := { op.call with arg := op.call.arg.substitute (ValueExpr.expandLocals op.locals) } }

/-- The request object that an operation builds from the values of its parameters. -/
def OperationImage.request (op : OperationImage) (params : List Json) : Json :=
  op.call.arg.eval params (ValueExpr.evalLocals params op.locals)

structure ShapeImage where
  name : String
  fields : List Field
  deriving Repr, DecidableEq

/-- The format of images that this library writes and reads. -/
def imageFormat : Nat := 1

structure ModuleImage where
  format : Nat
  module : ModuleId
  controller : String
  shapes : List ShapeImage
  operations : List OperationImage
  deriving Repr

inductive SymbolKind where
  | shape | operation
  deriving Repr, DecidableEq

structure Symbol where
  kind : SymbolKind
  name : String
  unit : String
  path : Option String
  line : Nat
  column : Nat
  deriving Repr, DecidableEq

structure SymbolTable where
  module : ModuleId
  symbols : List Symbol
  deriving Repr, DecidableEq

def SymbolTable.find? (table : SymbolTable) (kind : SymbolKind) (name : String) : Option Symbol :=
  table.symbols.find? fun s => s.kind == kind && s.name == name

end EndpointCompiler

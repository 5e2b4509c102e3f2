import EndpointCompiler.Endpoint.Binding
import EndpointCompiler.Endpoint.Bridge
import EndpointCompiler.Endpoint.Method
import EndpointCompiler.Image.Basic

/-! Operations: what a host routes requests to. A generated operation binds its parameters, builds
its request object and hands it on; a hosted one answers as it was written to. -/

namespace EndpointCompiler

structure RouteAnnotation where
  method : Method
  template : String
  produces : Option TypeRef
  deriving Repr, DecidableEq

/-- A place in a source text, which lies in a file if the text was written to one. -/
structure SourceLocation where
  unit : String
  path : Option String
  line : Nat
  column : Nat
  deriving Repr, DecidableEq

def SourceLocation.text (l : SourceLocation) : String :=
  l.path.getD l.unit ++ ":" ++ natText l.line ++ ":" ++ natText l.column

inductive OperationError where
  | binding (error : BindingError)
  | dispatch (error : DispatchError)
  deriving Repr, DecidableEq

/-- A parameter of a loaded operation. The fields of a form are those of its type. -/
structure BoundParam where
  name : String
  wireName : String
  source : ParamSource
  type : TypeRef
  formFields : List Field
  deriving Repr, DecidableEq

/-- The value of a parameter in a call. A query parameter may be absent; a body may not be absent
or blank, a form not absent. -/
def BoundParam.bind (p : BoundParam) (call : OperationCall) : Except BindingError Json :=
  match p.source with
  | .path =>
    match call.path.get? p.wireName with
    | some raw => coerceWireValue p.wireName raw p.type
    | none => .error (.missingPathParam p.wireName)
  | .query =>
    match call.query.get? p.wireName with
    | some raw => coerceWireValue p.wireName raw p.type
    | none => .ok .null
  | .body =>
    match call.body.filter fun body => !(trim body.toList).isEmpty with
    | some body =>
      match Json.read body with
      | .ok value => .ok value.normalize
      | .error e => .error (.invalidBody p.name e)
    | none => .error (.missingBody p.name)
  | .form =>
    match call.body with
    | some body => bindForm p.formFields (formPairs body)
    | none => .error (.missingBody p.name)

structure GeneratedOperation where
  name : String
  route : RouteAnnotation
  params : List BoundParam
  locals : List ValueExpr
  call : BridgeCall
  location : Option SourceLocation

namespace GeneratedOperation

def key (op : GeneratedOperation) : RequestKey :=
  .of op.call.request op.call.response

def mode (op : GeneratedOperation) : BridgeMode :=
  if op.call.isAsync then .async else .sync

/-- The values of the parameters, or the error of the first that does not bind. -/
def bind (op : GeneratedOperation) (call : OperationCall) : Except BindingError (List Json) :=
  op.params.mapM (·.bind call)

def evaluate (op : GeneratedOperation) (params : List Json) : Json :=
  op.call.arg.eval params (ValueExpr.evalLocals params op.locals)

def bridgeRequest (op : GeneratedOperation) (call : OperationCall) :
    Except BindingError BridgeRequest :=
  (op.bind call).map fun params => ⟨op.mode, op.key, op.evaluate params⟩

end GeneratedOperation

/-- An operation that a host provides itself. -/
structure HostedOperation where
  name : String
  route : RouteAnnotation
  answer : OperationCall → RequestProcessor → Except OperationError Response

inductive Operation where
  | generated (op : GeneratedOperation)
  | hosted (op : HostedOperation)

namespace Operation

def name : Operation → String
  | .generated op => op.name
  | .hosted op => op.name

def route : Operation → RouteAnnotation
  | .generated op => op.route
  | .hosted op => op.route

def location? : Operation → Option SourceLocation
  | .generated op => op.location
  | .hosted _ => none

def invoke (op : Operation) (call : OperationCall) (processor : RequestProcessor) :
    Except OperationError Response :=
  match op with
  | .generated op =>
    match op.bridgeRequest call with
    | .ok request => (processor request).mapError .dispatch
    | .error e => .error (.binding e)
  | .hosted op => op.answer call processor

end Operation

end EndpointCompiler

import EndpointCompiler.Endpoint.Method
import EndpointCompiler.Handler.Route
import EndpointCompiler.Source.Token
import EndpointCompiler.Types.TypeRef

/-! Definitions of handlers: which request type is answered with which response type, on what
route, and how the properties of the request are bound. -/

namespace EndpointCompiler

/-- Where the value of a property comes from. Whether it is the path or the query depends on the
placeholders of the route. -/
inductive BindingKind where
  | queryOrPath | body | form
  deriving Repr, DecidableEq

/-- Body and form bindings share the body of a request. -/
def BindingKind.isBodyLike : BindingKind → Bool
  | .queryOrPath => false
  | .body | .form => true

/-- A property of the request type, its name on the wire, and its type. -/
structure ParameterBinding where
  source : String
  target : String
  kind : BindingKind
  type : TypeRef
  deriving Repr, DecidableEq

def BindingKind.defaultTarget (source : String) : BindingKind → String
  | .queryOrPath => source
  | .body => "body"
  | .form => "form"

structure HandlerDefinition where
  request : TypeRef
  response : TypeRef
  method : Method
  route : String
  parameters : List ParameterBinding
  deriving Repr, DecidableEq

inductive DefinitionError where
  | emptyRoute (request : TypeRef)
  | invalidRoute (route : String) (fault : Route.Fault)
  | unsupportedMethod (method : Method)
  | asyncRequestType (request : TypeRef)
  | duplicateSourceProperty (request : TypeRef) (property : String)
  | invalidPropertyName (request : TypeRef) (property : String)
  | splitBody (request : TypeRef) (first second : String)
  | unknownRequestType (request : TypeRef)
  deriving Repr, DecidableEq

def DefinitionError.message : DefinitionError → String
  | .emptyRoute request => "handler definition for '" ++ request.text ++ "' has an empty route"
  | .invalidRoute route fault => "invalid route template '" ++ route ++ "': " ++ fault.message
  | .unsupportedMethod method => "unsupported HTTP method '" ++ method.token ++ "'"
  | .asyncRequestType request => "request type '" ++ request.text ++ "' cannot be asynchronous"
  | .duplicateSourceProperty request property =>
    "handler definition for '" ++ request.text ++ "' binds property '" ++ property ++
      "' more than once"
  | .invalidPropertyName request property =>
    "handler definition for '" ++ request.text ++ "' binds '" ++ property ++
      "', which is not a valid property name"
  | .splitBody request first second =>
    "handler definition for '" ++ request.text ++ "' splits body bindings across '" ++ first ++
      "' and '" ++ second ++ "'"
  | .unknownRequestType request =>
    "request type '" ++ request.text ++ "' is not declared in the type catalog"

/-- Words that are not keywords of the source language. -/
def isPropertyName (name : String) : Bool :=
  isWord name.toList && (Source.Keyword.ofText? name).isNone

namespace HandlerDefinition

def isAsync (d : HandlerDefinition) : Bool :=
  d.response.isAsync

/-- Checks bindings in order, given the properties that are bound already and the body's name on
the wire if there is one. -/
def checkBindings (request : TypeRef) (seen : List String) (bodyTarget : Option String) :
    List ParameterBinding → Except DefinitionError Unit
  | [] => .ok ()
  | b :: bs =>
    if !isPropertyName b.source then .error (.invalidPropertyName request b.source)
    else if seen.contains b.source then .error (.duplicateSourceProperty request b.source)
    else if b.kind.isBodyLike then
      match bodyTarget with
      | some first =>
        if first = b.target then checkBindings request (b.source :: seen) bodyTarget bs
        else .error (.splitBody request first b.target)
      | none => checkBindings request (b.source :: seen) (some b.target) bs
    else checkBindings request (b.source :: seen) bodyTarget bs

def validate (d : HandlerDefinition) : Except DefinitionError Unit :=
  if d.method ∉ Method.supported then .error (.unsupportedMethod d.method)
  else if d.route = "" then .error (.emptyRoute d.request)
  else match Route.fault? d.route with
    | some fault => .error (.invalidRoute d.route fault)
    | none =>
      if d.request.isAsync then .error (.asyncRequestType d.request)
      else checkBindings d.request [] none d.parameters

end HandlerDefinition

end EndpointCompiler

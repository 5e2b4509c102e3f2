import EndpointCompiler.Handler.Definition
import EndpointCompiler.Text.Word
import EndpointCompiler.Types.Catalog

/-! Handlers for requests of declared types: each declared field becomes a binding. -/

namespace EndpointCompiler

structure RequestDefinition where
  request : TypeRef
  response : TypeRef
  routes : List (Method × String)
  deriving Repr, DecidableEq

/-- A field is bound to the first placeholder of its name, whatever the case, else to the body if
the method carries one, else to the query. -/
def bindField (method : Method) (placeholders : List String) (f : Field) : ParameterBinding :=
  match placeholders.find? (sameWord · f.name) with
  | some p => ⟨f.name, p, .queryOrPath, f.type⟩
  | none =>
    if method.carriesBody then ⟨f.name, "body", .body, f.type⟩
    else ⟨f.name, f.name, .queryOrPath, f.type⟩

namespace RequestDefinition

def handler (d : RequestDefinition) (fields : List Field) (route : Method × String) :
    HandlerDefinition :=
  ⟨d.request, d.response, route.1, route.2,
    fields.map (bindField route.1 (Route.placeholders route.2))⟩

def expand (c : Catalog) (d : RequestDefinition) :
    Except DefinitionError (List HandlerDefinition) :=
  match c.lookup? d.request with
  | some info => .ok (d.routes.map (d.handler info.fields))
  | none => .error (.unknownRequestType d.request)

end RequestDefinition

def expandRequests (c : Catalog) (ds : List RequestDefinition) :
    Except DefinitionError (List HandlerDefinition) :=
  (ds.mapM (RequestDefinition.expand c)).map List.flatten

end EndpointCompiler

import EndpointCompiler.Registry
import EndpointCompiler.Routing.Router

/-! Services: requests are routed to operations, and what comes of them is a response. -/

namespace EndpointCompiler

structure Service where
  router : Router
  processor : RequestProcessor

namespace Service

def ofRegistry (r : Registry) (processor : RequestProcessor) : Service :=
  ⟨.ofTypes (r.endpointTypes r.modules), processor⟩

/-- The response to what became of an operation. Why a request could not be handled is not told. -/
def respond : Except OperationError Response → Response
  | .ok response => response
  | .error (.binding e) => .error 400 e.message
  | .error (.dispatch _) => .error 500 "Internal Server Error"

def answer (s : Service) (method : Method) (target : String) (body : Option String) : Response :=
  match s.router.route? method target with
  | none => .error 404 "Not Found"
  | some m => respond (m.routed.operation.invoke ⟨m.path, m.query, body⟩ s.processor)

end Service

end EndpointCompiler

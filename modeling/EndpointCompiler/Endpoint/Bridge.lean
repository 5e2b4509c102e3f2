import EndpointCompiler.Json.Printer
import EndpointCompiler.Text.Word
import EndpointCompiler.Types.TypeRef

/-! What passes between operations and the handlers of requests: keys, responses, and the ways in
which dispatching fails. -/

namespace EndpointCompiler

/-- The types by which the handler of a request is found. -/
structure RequestKey where
  request : TypeRef
  response : TypeRef
  deriving Repr, DecidableEq

/-- A key knows a response by what it delivers, asynchronous or not. -/
def RequestKey.of (request response : TypeRef) : RequestKey :=
  ⟨request, response.unwrapAsync⟩

def RequestKey.text (key : RequestKey) : String :=
  key.request.text ++ " -> " ++ key.response.text

structure Response where
  status : Nat
  headers : List (String × String)
  body : Json

namespace Response

def json (status : Nat) (body : Json) : Response :=
  ⟨status, [("content-type", "application/json")], body⟩

def error (status : Nat) (message : String) : Response :=
  json status (.object [("error", .string message)])

/-- The value of the first header of a name; names are told apart without regard to case. -/
def header? (r : Response) (name : String) : Option String :=
  (r.headers.find? fun h => sameWord h.1 name).map (·.2)

/-- Sets a header at the end, in place of all others of its name. -/
def setHeader (r : Response) (name value : String) : Response :=
  { r with headers := r.headers.filter (fun h => !sameWord h.1 name) ++ [(name, value)] }

/-- Status and body; headers are not part of the written form. -/
def toJson (r : Response) : Json :=
  .object [("status", .ofNat r.status), ("body", r.body)]

end Response

inductive DispatchError where
  | noHandler (key : RequestKey)
  | invalidRequest (key : RequestKey) (message : String)
  | handler (message : String)
  | unserializable (message : String)
  deriving Repr, DecidableEq

def DispatchError.message : DispatchError → String
  | .noHandler key => "no handler registered for " ++ key.text
  | .invalidRequest key message => "invalid request for " ++ key.text ++ ": " ++ message
  | .handler message => "handler failed: " ++ message
  | .unserializable message => "failed to serialize response: " ++ message

def DispatchError.source? : DispatchError → Option String
  | .noHandler _ => none
  | .invalidRequest _ _ => none
  | .handler message => some message
  | .unserializable message => some message

/-- The two entries through which operations hand on a request. -/
inductive BridgeMode where
  | sync | async
  deriving Repr, DecidableEq

/-- What an operation hands on: the entry it calls, the key and the request object. -/
structure BridgeRequest where
  mode : BridgeMode
  key : RequestKey
  request : Json

abbrev RequestProcessor := BridgeRequest → Except DispatchError Response

end EndpointCompiler

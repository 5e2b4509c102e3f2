import EndpointCompiler.Endpoint.Bridge
import EndpointCompiler.Text.Inspect

/-! Dispatching: the handlers of requests by key. A key has room for a synchronous and for an
asynchronous handler. -/

namespace EndpointCompiler

inductive HandlerOutcome where
  | answered (value : Json)
  | undecodable (message : String)
  | refused (message : String)
  | unserializable (message : String)
  | aborted

abbrev Handler := Json → HandlerOutcome

def HandlerOutcome.result (key : RequestKey) : HandlerOutcome → Except DispatchError Json
  | .answered value => .ok value
  | .undecodable message => .error (.invalidRequest key message)
  | .refused message => .error (.handler message)
  | .unserializable message => .error (.unserializable message)
  | .aborted => .error (.handler ("handler for " ++ key.text ++ " panicked"))

structure HandlerSlots where
  sync : Option Handler
  async : Option Handler

namespace HandlerSlots

def empty : HandlerSlots := ⟨none, none⟩

def put (mode : BridgeMode) (handler : Handler) (s : HandlerSlots) : HandlerSlots :=
  match mode with
  | .sync => { s with sync := some handler }
  | .async => { s with async := some handler }

/-- The handler that serves a call. A synchronous one also serves asynchronous calls if no other
does. -/
def serving (mode : BridgeMode) (s : HandlerSlots) : Option Handler :=
  match mode with
  | .sync => s.sync
  | .async => s.async <|> s.sync

end HandlerSlots

structure Dispatcher where
  entries : List (RequestKey × HandlerSlots)

namespace Dispatcher

def empty : Dispatcher := ⟨[]⟩

def slots? (d : Dispatcher) (key : RequestKey) : Option HandlerSlots :=
  (d.entries.find? (·.1 == key)).map (·.2)

def contains (d : Dispatcher) (key : RequestKey) : Bool :=
  (d.slots? key).isSome

/-- Sets the handlers of a key in place, or adds the key at the end. -/
def setSlots (key : RequestKey) (slots : HandlerSlots) :
    List (RequestKey × HandlerSlots) → List (RequestKey × HandlerSlots)
  | [] => [(key, slots)]
  | e :: es => if e.1 = key then (key, slots) :: es else e :: setSlots key slots es

def register (d : Dispatcher) (mode : BridgeMode) (key : RequestKey) (handler : Handler) :
    Dispatcher :=
  ⟨setSlots key (((d.slots? key).getD .empty).put mode handler) d.entries⟩

def process (d : Dispatcher) (mode : BridgeMode) (key : RequestKey) (request : Json) :
    Except DispatchError Json :=
  match (d.slots? key).bind (·.serving mode) with
  | some handler => (handler request).result key
  | none => .error (.noHandler key)

/-- Answers requests with status 200 and what the handler makes of them. -/
def processor (d : Dispatcher) : RequestProcessor := fun r =>
  (d.process r.mode r.key r.request).map (Response.json 200)

def keyTexts (d : Dispatcher) : List String :=
  (d.entries.map (·.1.text)).mergeSort (· ≤ ·)

def inspect (d : Dispatcher) : String :=
  "HandlerDispatcher \x7b keys: [" ++ ", ".intercalate (d.keyTexts.map inspectText) ++ "] \x7d"

end Dispatcher

end EndpointCompiler

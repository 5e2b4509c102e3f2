import EndpointCompiler.Diagnostic.Basic
import EndpointCompiler.Source.Error
import EndpointCompiler.Image.Basic

/-! The problems that a compilation reports, their codes and their wording. -/

namespace EndpointCompiler

/-- What is wrong, or of no effect, in a source text. -/
inductive Problem where
  | malformedSource (cause : Source.SourceCause)
  | unreferencedModule (module : ModuleId)
  | unknownType (module : ModuleId) (name : String)
  | wrongArity (module : ModuleId) (name : String) (expected found : Nat)
  | wrongAsyncArity (found : Nat)
  | shapeTakesNoArguments (name : String)
  | misplacedAsync
  | unknownShape (name : String)
  | duplicateShape (name : String)
  | duplicateField (shape field : String)
  | duplicateOperation (name : String)
  | missingRoute (operation : String)
  | duplicateRoute
  | malformedProduces
  | malformedRoute
  | malformedBinding (source : ParamSource)
  | routeWithoutSlash (route : String)
  | expectedMethod
  | unsupportedVerb (name : String)
  | ambiguousBinding (param : String)
  | duplicateParam (name : String)
  | paramNotInRoute (wireName : String)
  | unboundPlaceholder (name : String)
  | secondBody (operation : String)
  | notPrimitive (param : String) (source : ParamSource) (type : TypeRef)
  | formNotShape (param : String) (type : TypeRef)
  | asyncReturnsPlain (operation : String)
  | plainReturnsAsync (operation : String) (type : TypeRef)
  | unknownValue (name : String)
  | noFields (type : TypeRef)
  | notConstructible (type : TypeRef)
  | unknownField (field : String) (type : TypeRef)
  | repeatedField (field : String)
  | mismatchedField (field : String) (expected found : TypeRef)
  | mismatchedRequest (expected found : TypeRef)
  | mismatchedResponse (operation : String) (declared produced : TypeRef)
  | missingAwait (response : TypeRef)
  | unknownFunction (name : String)
  | wrongTypeArgCount (function : String) (found : Nat)
  | wrongArgCount (function : String) (found : Nat)
  | notAwaitable
  | awaitOutsideAsync
  | asyncCallsSync (operation : String)
  | noReturn (operation : String)
  | unreachable
  | redefined (name : String)
  | misplacedCall
  | notBridgeCall
  | unknownAttribute (name : String)
  deriving Repr, DecidableEq

namespace Problem

def code : Problem → String
  | .malformedSource _ => "E0001"
  | .unreferencedModule _ => "E0101"
  | .unknownType .. => "E0102"
  | .wrongArity .. | .wrongAsyncArity _ | .shapeTakesNoArguments _ => "E0103"
  | .misplacedAsync => "E0104"
  | .unknownShape _ => "E0105"
  | .duplicateShape _ => "E0201"
  | .duplicateField .. => "E0202"
  | .duplicateOperation _ => "E0203"
  | .missingRoute _ => "E0204"
  | .duplicateRoute | .malformedProduces | .malformedRoute | .malformedBinding _
  | .routeWithoutSlash _ => "E0205"
  | .expectedMethod | .unsupportedVerb _ => "E0206"
  | .ambiguousBinding _ => "E0207"
  | .duplicateParam _ => "E0208"
  | .paramNotInRoute _ => "E0209"
  | .unboundPlaceholder _ => "E0210"
  | .secondBody _ => "E0211"
  | .notPrimitive .. => "E0212"
  | .asyncReturnsPlain _ | .plainReturnsAsync .. => "E0213"
  | .formNotShape .. => "E0215"
  | .unknownValue _ => "E0301"
  | .noFields _ | .notConstructible _ | .unknownField .. => "E0302"
  | .repeatedField _ => "E0303"
  | .mismatchedField .. | .mismatchedRequest .. | .mismatchedResponse ..
  | .missingAwait _ => "E0304"
  | .unknownFunction _ => "E0305"
  | .wrongTypeArgCount .. | .wrongArgCount .. => "E0306"
  | .notAwaitable => "E0307"
  | .awaitOutsideAsync => "E0308"
  | .noReturn _ => "E0309"
  | .unreachable => "E0310"
  | .redefined _ => "E0311"
  | .misplacedCall => "E0312"
  | .notBridgeCall => "E0313"
  | .asyncCallsSync _ => "E0314"
  | .unknownAttribute _ => "W0201"

/-- Only what has no effect is a warning. -/
def severity : Problem → Severity
  | .unknownAttribute _ => .warning
  | _ => .error

def isError (p : Problem) : Bool :=
  p.severity == .error

def quoted (text : String) : String :=
  "`" ++ text ++ "`"

def message : Problem → String
  | .malformedSource cause => cause.message
  | .unreferencedModule module =>
    "module " ++ quoted module ++ " is not referenced by this compilation"
  | .unknownType module name => "type " ++ quoted name ++ " not found in module " ++ quoted module
  | .wrongArity module name expected found =>
    "type " ++ quoted (module ++ "::" ++ name) ++ " expects " ++ natText expected ++
      " type argument(s), found " ++ natText found
  | .wrongAsyncArity found => "`Async` expects 1 type argument, found " ++ natText found
  | .shapeTakesNoArguments name => "shape " ++ quoted name ++ " takes no type arguments"
  | .misplacedAsync => "`Async<..>` is only allowed as the return type of an async operation"
  | .unknownShape name =>
    "cannot find type " ++ quoted name ++
      " in this compilation; types from other modules must name their module"
  | .duplicateShape name => "shape " ++ quoted name ++ " is defined more than once"
  | .duplicateField shape field =>
    "field " ++ quoted field ++ " is declared more than once in shape " ++ quoted shape
  | .duplicateOperation name => "operation " ++ quoted name ++ " is defined more than once"
  | .missingRoute operation =>
    "operation " ++ quoted operation ++ " has no `#[http(..)]` route attribute"
  | .duplicateRoute => "duplicate `http` attribute"
  | .malformedProduces => "expected `#[produces(Type)]`"
  | .malformedRoute => "expected `#[http(METHOD, \"/route\")]`"
  | .malformedBinding source =>
    let name := source.keyword
    "expected `#[" ++ name ++ "]` or `#[" ++ name ++ "(\"wire-name\")]`"
  | .routeWithoutSlash route => "route " ++ quoted route ++ " must start with `/`"
  | .expectedMethod => "expected an HTTP method"
  | .unsupportedVerb name => "unsupported HTTP method " ++ quoted name
  | .ambiguousBinding param =>
    "parameter " ++ quoted param ++
      " needs exactly one of `#[path]`, `#[query]`, `#[body]`, `#[form]`"
  | .duplicateParam name => "parameter " ++ quoted name ++ " is declared more than once"
  | .paramNotInRoute wireName =>
    "path parameter " ++ quoted wireName ++ " does not appear in the route"
  | .unboundPlaceholder name =>
    "route placeholder " ++ quoted ("\x7b" ++ name ++ "\x7d") ++ " has no `#[path]` parameter"
  | .secondBody operation =>
    "operation " ++ quoted operation ++ " has more than one body or form parameter"
  | .notPrimitive param source type =>
    "parameter " ++ quoted param ++ " is bound from the " ++
      (if source = .path then "path" else "query string") ++
      " and must have a primitive type, found " ++ quoted type.text
  | .formNotShape param type =>
    "form parameter " ++ quoted param ++ " must be a shape, found " ++ quoted type.text
  | .asyncReturnsPlain operation =>
    "async operation " ++ quoted operation ++ " must return `Async<..>`"
  | .plainReturnsAsync operation type =>
    "operation " ++ quoted operation ++ " returns " ++ quoted type.text ++
      " but is not declared `async`"
  | .unknownValue name => "cannot find value " ++ quoted name
  | .noFields type => "type " ++ quoted type.text ++ " has no fields"
  | .notConstructible type =>
    "type " ++ quoted type.text ++ " has no declared fields and cannot be constructed"
  | .unknownField field type => "no field " ++ quoted field ++ " on type " ++ quoted type.text
  | .repeatedField field => "field " ++ quoted field ++ " specified more than once"
  | .mismatchedField field expected found =>
    "mismatched types: field " ++ quoted field ++ " expects " ++ quoted expected.text ++
      ", found " ++ quoted found.text
  | .mismatchedRequest expected found =>
    "mismatched types: expected " ++ quoted expected.text ++ ", found " ++ quoted found.text
  | .mismatchedResponse operation declared produced =>
    "mismatched types: operation " ++ quoted operation ++ " returns " ++ quoted declared.text ++
      ", but the bridge call produces " ++ quoted produced.text
  | .missingAwait response =>
    "mismatched types: expected " ++ quoted response.text ++ ", found " ++
      quoted (TypeRef.async response).text
  | .unknownFunction name => "cannot find function " ++ quoted name
  | .wrongTypeArgCount function found =>
    quoted function ++ " expects 2 type arguments, found " ++ natText found
  | .wrongArgCount function found =>
    quoted function ++ " expects 1 argument, found " ++ natText found
  | .notAwaitable => "`await` expects a `process_async` call"
  | .awaitOutsideAsync => "`await` is only allowed in async operations"
  | .asyncCallsSync operation =>
    "async operation " ++ quoted operation ++ " must call `process_async`"
  | .noReturn operation => "operation " ++ quoted operation ++ " never returns a value"
  | .unreachable => "unreachable statement after `return`"
  | .redefined name => quoted name ++ " is already defined"
  | .misplacedCall => "bridge calls are only allowed as the returned value"
  | .notBridgeCall => "an operation must return the result of `process` or `process_async`"
  | .unknownAttribute name => "unknown attribute " ++ quoted name ++ " is ignored"

/-- What stands beside the place of a problem. -/
def label : Problem → Option String
  | .malformedSource _ => some "syntax error"
  | .unreferencedModule _ => some "unresolved module"
  | .unknownType .. => some "unknown type"
  | .wrongArity .. | .wrongAsyncArity _ | .shapeTakesNoArguments _ =>
    some "wrong number of type arguments"
  | .misplacedAsync => some "not allowed here"
  | .unknownShape _ => some "not found"
  | .duplicateShape _ | .duplicateOperation _ => some "duplicate definition"
  | .duplicateField .. => some "duplicate field"
  | .missingRoute _ => some "missing route"
  | .duplicateRoute => some "second route"
  | .malformedProduces | .malformedRoute | .malformedBinding _ => some "malformed attribute"
  | .routeWithoutSlash _ => some "invalid route"
  | .expectedMethod => some "not a method"
  | .unsupportedVerb _ => some "unsupported method"
  | .ambiguousBinding _ => some "binding"
  | .duplicateParam _ => some "duplicate parameter"
  | .paramNotInRoute _ => some "not in route"
  | .unboundPlaceholder _ => some "unbound placeholder"
  | .secondBody _ => some "second body parameter"
  | .notPrimitive .. => some "not a primitive"
  | .formNotShape .. => some "not a shape"
  | .asyncReturnsPlain _ | .plainReturnsAsync .. => some "return type"
  | .unknownValue _ => some "not found"
  | .noFields _ => some "no fields"
  | .notConstructible _ => some "not constructible"
  | .unknownField .. => some "unknown field"
  | .repeatedField _ => some "duplicate field"
  | .mismatchedField .. => some "wrong type"
  | .mismatchedRequest .. => some "request object"
  | .mismatchedResponse .. => some "response type"
  | .missingAwait _ => some "missing `await`"
  | .unknownFunction _ => some "unknown function"
  | .wrongTypeArgCount .. => some "wrong number of type arguments"
  | .wrongArgCount .. => some "wrong number of arguments"
  | .notAwaitable => some "not awaitable"
  | .awaitOutsideAsync => some "not async"
  | .asyncCallsSync _ => some "synchronous call"
  | .noReturn _ => some "missing `return`"
  | .unreachable => some "unreachable"
  | .redefined _ => some "redefined"
  | .misplacedCall => some "not in return position"
  | .notBridgeCall => some "not a bridge call"
  | .unknownAttribute _ => none

end Problem

/-- A problem at its place in a source text. -/
structure Finding where
  problem : Problem
  span : Span
  deriving Repr, DecidableEq

def Finding.diagnostic (u : SourceUnit) (f : Finding) : Diagnostic :=
  let place := lineColumn u.text f.span.start
  ⟨f.problem.severity, f.problem.code, f.problem.message, u.name, f.span, place.1, place.2,
    f.problem.label⟩

end EndpointCompiler

import EndpointCompiler.Document.Yaml.Reader
import EndpointCompiler.Failure
import EndpointCompiler.FileTree
import EndpointCompiler.Handler.Expansion
import EndpointCompiler.Image.Codec

/-! Files that declare modules of a host, handlers, and requests for which handlers are to be made.
They are written in JSON or YAML. -/

namespace EndpointCompiler

structure WrittenBinding where
  source : String
  target : Option String
  kind : BindingKind
  type : TypeRef

structure WrittenHandler where
  request : TypeRef
  response : TypeRef
  method : String
  route : String
  parameters : List WrittenBinding

/-- A request as it is written, with its routes as methods and templates. -/
structure WrittenRequest where
  request : TypeRef
  response : TypeRef
  routes : List (String × String)

structure DefinitionFile where
  modules : List Module
  handlers : List WrittenHandler
  requests : List WrittenRequest

namespace DefinitionFile

open Document

/-- The words for bindings. The path and the query are told apart by the route alone. -/
def bindingKind? (word : String) : Option BindingKind :=
  if word = "query" ∨ word = "path" then some .queryOrPath
  else if word = "body" then some .body
  else if word = "form" then some .form
  else none

def inMemory? (word : String) : Option Bool :=
  if word = "static" then some false else if word = "in_memory" then some true else none

def decodeType (module : ModuleId) (d : Document) : Decoded TypeInfo := do
  let r ← d.asRecord ["name", "generic_arity", "fields", "base"]
  return {
    module
    name := ← r.required "name" asText
    genericArity := ← r.withDefault "generic_arity" 0 (asNatural 64)
    fields := ← r.withDefault "fields" [] (asList Field.decode)
    base := ← r.optional "base" asType
    operations := [] }

def decodeModule (d : Document) : Decoded Module := do
  let r ← d.asRecord ["id", "origin", "path", "types"]
  let id ← r.required "id" asText
  let inMemory ← r.withDefault "origin" false (asWord inMemory?)
  let path ← r.optional "path" asText
  let types ← r.withDefault "types" [] (asList (decodeType id))
  return ⟨id, if inMemory then .inMemory else .static path, types⟩

def decodeBinding (d : Document) : Decoded WrittenBinding := do
  let r ← d.asRecord ["source", "target", "kind", "type"]
  return ⟨← r.required "source" asText, ← r.optional "target" asText,
    ← r.required "kind" (asWord bindingKind?), ← r.required "type" asType⟩

def decodeHandler (d : Document) : Decoded WrittenHandler := do
  let r ← d.asRecord ["request", "response", "method", "route", "parameters"]
  return ⟨← r.required "request" asType, ← r.required "response" asType,
    ← r.required "method" asText, ← r.required "route" asText,
    ← r.withDefault "parameters" [] (asList decodeBinding)⟩

def decodeRoute (d : Document) : Decoded (String × String) := do
  let r ← d.asRecord ["method", "route"]
  return (← r.required "method" asText, ← r.required "route" asText)

def decodeRequest (d : Document) : Decoded WrittenRequest := do
  let r ← d.asRecord ["request", "response", "routes"]
  return ⟨← r.required "request" asType, ← r.required "response" asType,
    ← r.required "routes" (asList decodeRoute)⟩

def decode (d : Document) : Decoded DefinitionFile := do
  let r ← d.asRecord ["modules", "handlers", "requests"]
  return ⟨← r.withDefault "modules" [] (asList decodeModule),
    ← r.withDefault "handlers" [] (asList decodeHandler),
    ← r.withDefault "requests" [] (asList decodeRequest)⟩

end DefinitionFile

inductive FileLanguage where
  | json | yaml
  deriving Repr, DecidableEq

/-- A file is in YAML unless its name says that it is in JSON. -/
def FileLanguage.ofPath (path : String) : FileLanguage :=
  if FileTree.extension? path = some "json" then .json else .yaml

inductive DefinitionFileError where
  | unreadable (path : String) (error : FileError)
  | malformed (language : FileLanguage)
  | invalidMethod (method : String)
  | definition (error : DefinitionError)
  deriving Repr, DecidableEq

def DefinitionFileError.failure : DefinitionFileError → Failure
  | .unreadable path error =>
    ⟨.file, ["failed to read definitions file " ++ path, error.message]⟩
  | .malformed .json => ⟨.malformedJson, []⟩
  | .malformed .yaml => ⟨.malformedYaml, []⟩
  | .invalidMethod method => ⟨.other, ["invalid HTTP method '" ++ method ++ "'"]⟩
  | .definition error => ⟨.definition, [error.message]⟩

/-- What a file of definitions comes to: a catalog and handlers. -/
structure Definitions where
  catalog : Catalog
  handlers : List HandlerDefinition

def readMethod (method : String) : Except DefinitionFileError Method :=
  match Method.ofToken? (String.ofList (method.toList.map Char.toUpper)) with
  | some m => .ok m
  | none => .error (.invalidMethod method)

def WrittenBinding.binding (b : WrittenBinding) : ParameterBinding :=
  ⟨b.source, b.target.getD (b.kind.defaultTarget b.source), b.kind, b.type⟩

def WrittenHandler.definition (h : WrittenHandler) :
    Except DefinitionFileError HandlerDefinition := do
  return ⟨h.request, h.response, ← readMethod h.method, h.route, h.parameters.map (·.binding)⟩

def WrittenRequest.definition (r : WrittenRequest) :
    Except DefinitionFileError RequestDefinition := do
  let routes ← r.routes.mapM fun (method, route) => do return (← readMethod method, route)
  return ⟨r.request, r.response, routes⟩

/-- The handlers that are written come first, then those for requests. -/
def DefinitionFile.definitions (f : DefinitionFile) : Except DefinitionFileError Definitions := do
  let catalog := Catalog.ofModules f.modules
  let handlers ← f.handlers.mapM (·.definition)
  let requests ← f.requests.mapM (·.definition)
  let expanded ← (expandRequests catalog requests).mapError .definition
  return ⟨catalog, handlers ++ expanded⟩

def FileLanguage.document? (language : FileLanguage) (text : String) : Option Document :=
  match language with
  | .json => (Document.readJson text).toOption
  | .yaml => (Yaml.read text).toOption

namespace Definitions

def ofText (language : FileLanguage) (text : String) : Except DefinitionFileError Definitions :=
  match (language.document? text).bind fun d => (DefinitionFile.decode d).toOption with
  | some file => file.definitions
  | none => .error (.malformed language)

def ofFile (files : FileTree) (path : String) : Except DefinitionFileError Definitions :=
  match files.read path with
  | .ok text => ofText (.ofPath path) text
  | .error e => .error (.unreadable path e)

end Definitions

end EndpointCompiler

import EndpointCompiler.BuildMode
import EndpointCompiler.Compilation
import EndpointCompiler.Endpoint.Operation
import EndpointCompiler.Types.Module

/-! Loading: the image of a module becomes a module whose operations can be invoked. -/

namespace EndpointCompiler

inductive LoadError where
  | undecodable (error : JsonDecodeError)
  | unsupportedFormat (found : Nat)
  | invalidMethod (operation method : String)
  deriving Repr, DecidableEq

def LoadError.message : LoadError → String
  | .undecodable _ => "failed to decode module image"
  | .unsupportedFormat found =>
    "unsupported module image format " ++ natText found ++ " (expected " ++
      natText imageFormat ++ ")"
  | .invalidMethod operation method =>
    "operation '" ++ operation ++ "' has invalid method '" ++ method ++ "'"

/-- A module that was loaded. Its types are its shapes, in order, and last its controller. -/
structure CompiledModule where
  module : Module
  controller : TypeInfo
  mode : BuildMode
  symbols : Option SymbolTable

namespace CompiledModule

def operations (m : CompiledModule) : List Operation :=
  m.controller.operations

def operation? (m : CompiledModule) (name : String) : Option Operation :=
  m.operations.find? (·.name == name)

end CompiledModule

def Symbol.location (s : Symbol) : SourceLocation :=
  ⟨s.unit, s.path, s.line, s.column⟩

namespace ModuleImage

/-- The fields of the last shape of a name; none if there is no such shape. -/
def shapeFields (m : ModuleImage) (name : String) : List Field :=
  ((m.shapes.reverse.find? (·.name == name)).map (·.fields)).getD []

/-- A form binds the fields of its type if the type is a shape of the module itself. -/
def boundParam (m : ModuleImage) (p : ParamImage) : BoundParam :=
  { name := p.name
    wireName := p.wireName
    source := p.source
    type := p.type
    formFields :=
      match p.source, p.type with
      | .form, .named (some id) name _ => if id = m.module then m.shapeFields name else []
      | _, _ => [] }

def loadOperation (m : ModuleImage) (symbols : Option SymbolTable) (o : OperationImage) :
    Except LoadError GeneratedOperation :=
  match Method.ofToken? o.method with
  | none => .error (.invalidMethod o.name o.method)
  | some method => .ok {
      name := o.name
      route := ⟨method, o.route, o.produces⟩
      params := o.params.map m.boundParam
      locals := o.locals
      call := o.call
      location := (symbols.bind (·.find? .operation o.name)).map (·.location) }

/-- The type of a shape. Shapes of one name have the same fields. -/
def shapeType (m : ModuleImage) (s : ShapeImage) : TypeInfo :=
  { TypeInfo.empty m.module s.name with fields := m.shapeFields s.name }

def load (m : ModuleImage) (symbols : Option SymbolTable) : Except LoadError CompiledModule := do
  let operations ← m.operations.mapM (m.loadOperation symbols)
  let controller : TypeInfo :=
    { TypeInfo.empty m.module m.controller with
      base := some controllerType
      operations := operations.map .generated }
  return {
    module := ⟨m.module, .dynamic, m.shapes.map m.shapeType ++ [controller]⟩
    controller
    mode := if symbols.isSome then .debug else .release
    symbols }

end ModuleImage

def loadModule (image : String) (symbols : Option String) : Except LoadError CompiledModule := do
  let image ← (decodeJsonText ModuleImage.decode image).mapError .undecodable
  if image.format ≠ imageFormat then throw (.unsupportedFormat image.format)
  let symbols ← symbols.mapM fun text =>
    (decodeJsonText SymbolTable.decode text).mapError .undecodable
  image.load symbols

def Artifact.load (a : Artifact) : Except LoadError CompiledModule :=
  loadModule a.image a.symbols

end EndpointCompiler

import EndpointCompiler.Endpoint.Operation

/-! Modules and the types that they declare. -/

namespace EndpointCompiler

/-- How a module came to be. -/
inductive ModuleOrigin where
  | builtin
  | static (path : Option String)
  | inMemory
  | dynamic
  deriving Repr, DecidableEq

structure TypeInfo where
  module : ModuleId
  name : String
  genericArity : Nat
  fields : List Field
  base : Option TypeRef
  operations : List Operation

namespace TypeInfo

/-- A type with nothing but its name. -/
def empty (module : ModuleId) (name : String) : TypeInfo :=
  ⟨module, name, 0, [], none, []⟩

def typeRef (t : TypeInfo) : TypeRef :=
  .declared t.module t.name

/-- The declared type of a field. -/
def field? (t : TypeInfo) (name : String) : Option TypeRef :=
  (t.fields.find? (·.name == name)).map (·.type)

/-- Whether a type offers operations to a host: a controller by base and by name that has some. -/
def isEndpoint (t : TypeInfo) : Bool :=
  t.base == some controllerType && "Controller".toList.isSuffixOf t.name.toList &&
    !t.operations.isEmpty

end TypeInfo

structure Module where
  id : ModuleId
  origin : ModuleOrigin
  types : List TypeInfo

namespace Module

def type? (m : Module) (name : String) : Option TypeInfo :=
  m.types.find? (·.name == name)

/-- Whether compiled code can refer to a module. -/
def hasBinaryIdentity (m : Module) : Bool :=
  m.origin != .inMemory

end Module

end EndpointCompiler

/-! References to types, and the text in which they are written. -/

namespace EndpointCompiler

/-- The dotted name of a module. -/
abbrev ModuleId := String

/-- A type as it is referred to: by name, perhaps in a module and with arguments, as an array of
elements, or as the result of an asynchronous call. -/
inductive TypeRef where
  | named (module : Option ModuleId) (name : String) (args : List TypeRef)
  | array (element : TypeRef)
  | async (inner : TypeRef)
  deriving Repr, Inhabited

mutual

def TypeRef.decideEq : (t u : TypeRef) → Decidable (t = u)
  | .named m n as, .named m' n' as' =>
    if h : m = m' ∧ n = n' then
      match TypeRef.decideListEq as as' with
      | isTrue h' => isTrue (by rw [h.1, h.2, h'])
      | isFalse h' => isFalse fun e => h' (TypeRef.named.inj e).2.2
    else isFalse fun e => h ⟨(TypeRef.named.inj e).1, (TypeRef.named.inj e).2.1⟩
  | .array t, .array u =>
    match TypeRef.decideEq t u with
    | isTrue h => isTrue (congrArg _ h)
    | isFalse h => isFalse fun e => h (TypeRef.array.inj e)
  | .async t, .async u =>
    match TypeRef.decideEq t u with
    | isTrue h => isTrue (congrArg _ h)
    | isFalse h => isFalse fun e => h (TypeRef.async.inj e)
  | .named .., .array _ | .named .., .async _ | .array _, .named .. | .array _, .async _
  | .async _, .named .. | .async _, .array _ => isFalse nofun

def TypeRef.decideListEq : (ts us : List TypeRef) → Decidable (ts = us)
  | [], [] => isTrue rfl
  | t :: ts, u :: us =>
    match TypeRef.decideEq t u, TypeRef.decideListEq ts us with
    | isTrue h, isTrue h' => isTrue (by rw [h, h'])
    | isFalse h, _ => isFalse fun e => h (List.cons.inj e).1
    | _, isFalse h => isFalse fun e => h (List.cons.inj e).2
  | [], _ :: _ | _ :: _, [] => isFalse nofun

end

instance : DecidableEq TypeRef := TypeRef.decideEq

/-- The types of the core module whose values have a text form. -/
inductive Primitive where
  | object | bool | int | long | float | string
  deriving Repr, DecidableEq

def Primitive.name : Primitive → String
  | .object => "Object"
  | .bool => "Bool"
  | .int => "Int"
  | .long => "Long"
  | .float => "Float"
  | .string => "String"

def Primitive.all : List Primitive :=
  [.object, .bool, .int, .long, .float, .string]

def Primitive.ofName? (name : String) : Option Primitive :=
  Primitive.all.find? (·.name == name)

namespace TypeRef

/-- A type without arguments, declared in a module. -/
def declared (module : ModuleId) (name : String) : TypeRef :=
  .named (some module) name []

mutual

def text : TypeRef → String
  | .named module name args =>
    (match module with
      | some m => m ++ "::"
      | none => "") ++ name ++
    (match args with
      | [] => ""
      | t :: ts => "<" ++ text t ++ textMore ts ++ ">")
  | .array t => "[" ++ text t ++ "]"
  | .async t => "Async<" ++ text t ++ ">"

def textMore : List TypeRef → String
  | [] => ""
  | t :: ts => ", " ++ text t ++ textMore ts

end

def isAsync : TypeRef → Bool
  | .async _ => true
  | _ => false

/-- The type that an asynchronous result delivers; any other type itself. -/
def unwrapAsync : TypeRef → TypeRef
  | .async t => t
  | t => t

def module? : TypeRef → Option ModuleId
  | .named module _ _ => module
  | _ => none

/-- The name of the innermost element. -/
def simpleName : TypeRef → String
  | .named _ name _ => name
  | .array t => simpleName t
  | .async t => simpleName t

def children : TypeRef → List TypeRef
  | .named _ _ args => args
  | .array t => [t]
  | .async t => [t]

theorem sizeOf_lt_of_mem_children {t u : TypeRef} (h : t ∈ u.children) : sizeOf t < sizeOf u := by
  cases u with
  | named m n args =>
    have := List.sizeOf_lt_of_mem h
    simp only [children, named.sizeOf_spec] at this ⊢
    omega
  | array u => simp_all [children]
  | async u => simp_all [children]

end TypeRef

structure Field where
  name : String
  type : TypeRef
  deriving Repr, DecidableEq

/-- The module of the primitive types and of lists and maps. -/
def coreModule : ModuleId := "core"

/-- The module of what a host of operations offers. -/
def hostModule : ModuleId := "forge.host"

/-- The module of what hands a request to its handler. -/
def bridgeModule : ModuleId := "forge.bridge"

def TypeRef.core (name : String) : TypeRef :=
  .declared coreModule name

def Primitive.type (p : Primitive) : TypeRef :=
  .core p.name

def objectType : TypeRef := .core "Object"

def controllerType : TypeRef := .declared hostModule "Controller"

def processorType : TypeRef := .declared bridgeModule "RequestProcessor"

/-- The primitive that a type is, if it is one. -/
def TypeRef.primitive? : TypeRef → Option Primitive
  | .named (some m) name [] => if m == coreModule then Primitive.ofName? name else none
  | _ => none

end EndpointCompiler

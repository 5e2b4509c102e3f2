import EndpointCompiler.Checking.Checked
import EndpointCompiler.References
import EndpointCompiler.Source.Tree

/-! The types that a compilation can name: its own shapes and those of the modules it refers to. -/

namespace EndpointCompiler

structure TypeScope where
  references : ReferenceSet
  module : ModuleId
  shapes : List (String × List Field)

namespace TypeScope

open Source

def shape? (s : TypeScope) (name : String) : Option (List Field) :=
  (s.shapes.find? (·.1 == name)).map (·.2)

/-- A shape of the compilation itself, which takes no arguments. -/
def resolveShape (s : TypeScope) (name : String) (argCount : Nat) (span : Span) :
    Checked TypeRef :=
  if (s.shape? name).isNone then .fail (.unknownShape name) span
  else if argCount ≠ 0 then .fail (.shapeTakesNoArguments name) span
  else Checked.pure (.declared s.module name)

def resolveReferenced (s : TypeScope) (module : ModuleId) (name : String) (argCount : Nat)
    (span : Span) : Checked TypeInfo :=
  match s.references.module? module with
  | none => .fail (.unreferencedModule module) span
  | some found =>
    match found.type? name with
    | none => .fail (.unknownType module name) span
    | some info =>
      if info.genericArity = argCount then Checked.pure info
      else .fail (.wrongArity module name info.genericArity argCount) span

mutual

/-- The type that an expression names. Asynchronous types stand only where they are allowed, which
is never inside another type. -/
def resolve (s : TypeScope) (allowAsync : Bool) : TypeExpr → Checked TypeRef
  | .array element _ => do return .array (← s.resolve false element)
  | .path none name args span =>
    if name = "Async" then
      if !allowAsync then .fail .misplacedAsync span
      else match args with
        | [arg] => do return .async (← s.resolve false arg)
        | _ => .fail (.wrongAsyncArity args.length) span
    else s.resolveShape name args.length span
  | .path (some module) name args span =>
    if module = s.module then s.resolveShape name args.length span
    else do
      let _ ← s.resolveReferenced module name args.length span
      return .named (some module) name (← s.resolveAll args)

/-- The types of all arguments, each checked whatever becomes of the others. -/
def resolveAll (s : TypeScope) : List TypeExpr → Checked (List TypeRef)
  | [] => Checked.pure []
  | t :: ts => do
    let (t, ts) ← (s.resolve false t).both (s.resolveAll ts)
    return t :: ts

end

def fieldsOf? (s : TypeScope) : TypeRef → Option (List Field)
  | .named (some module) name [] =>
    if module = s.module then s.shape? name
    else (s.references.lookup? module name).map (·.fields)
  | _ => none

end TypeScope

/-- Whether a value of one type may stand where another is expected: objects take any. -/
def assignable (target value : TypeRef) : Bool :=
  target == value || target == objectType

/-- The types that are bound from the path or the query. -/
def isWireScalar (t : TypeRef) : Bool :=
  t.primitive?.any (· != .object)

end EndpointCompiler

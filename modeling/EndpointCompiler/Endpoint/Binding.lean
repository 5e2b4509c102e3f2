import EndpointCompiler.Json.Reader
import EndpointCompiler.Number.Written
import EndpointCompiler.Text.Percent
import EndpointCompiler.Types.TypeRef

/-! Binding the values of a request: texts become the values of primitive types. -/

namespace EndpointCompiler

abbrev WireValues := List (String × String)

/-- The text of a name; of several the last. -/
def WireValues.get? (values : WireValues) (name : String) : Option String :=
  (values.reverse.find? (·.1 == name)).map (·.2)

structure OperationCall where
  path : WireValues
  query : WireValues
  body : Option String
  deriving Repr

inductive BindingError where
  | missingPathParam (param : String)
  | missingBody (param : String)
  | invalidValue (param : String) (expected : TypeRef) (value : String)
  | invalidBody (param : String) (error : Json.SyntaxError)
  deriving Repr, DecidableEq

def BindingError.message : BindingError → String
  | .missingPathParam param => "missing path parameter '" ++ param ++ "'"
  | .missingBody param => "missing request body for parameter '" ++ param ++ "'"
  | .invalidValue param expected value =>
    "parameter '" ++ param ++ "': expected " ++ expected.text ++ ", got '" ++ value ++ "'"
  | .invalidBody param error => "invalid body for parameter '" ++ param ++ "': " ++ error.message

/-- The value of a primitive type that a text writes. White space around it is dropped, except in
strings, which stay as they are; objects have no such text. -/
def Primitive.read? (p : Primitive) (raw : String) : Option Json :=
  let trimmed := trim raw.toList
  match p with
  | .string => some (.string raw)
  | .int => ((readInteger? trimmed).filter fitsInt32).map .ofInt
  | .long => ((readInteger? trimmed).filter fitsInt64).map .ofInt
  | .float => (readFloat? trimmed).map fun x => .number (.float x)
  | .bool =>
    if trimmed = ['t', 'r', 'u', 'e'] ∨ trimmed = ['1'] then some (.bool true)
    else if trimmed = ['f', 'a', 'l', 's', 'e'] ∨ trimmed = ['0'] then some (.bool false)
    else none
  | .object => none

def coerceWireValue (param raw : String) (type : TypeRef) : Except BindingError Json :=
  match type.primitive?.bind (·.read? raw) with
  | some value => .ok value
  | none => .error (.invalidValue param type raw)

/-- The fields of a form that are declared and present, each as a value of its declared type. -/
def bindForm (fields : List Field) (form : WireValues) : Except BindingError Json := do
  let bound ← fields.filterMapM fun f =>
    match form.get? f.name with
    | some raw => do return some (f.name, ← coerceWireValue f.name raw f.type)
    | none => return none
  return .object (Json.sortFields bound)

end EndpointCompiler

import EndpointCompiler.Endpoint.Method
import EndpointCompiler.Image.Basic

/-! Declarations about to be written, and their source text. -/

namespace EndpointCompiler

def escapeText (raw : String) : String :=
  String.ofList (raw.toList.flatMap fun c => if c = '\\' ∨ c = '"' then ['\\', c] else [c])

/-- A shape that carries the values of a body. -/
structure WrittenShape where
  name : String
  fields : List Field
  deriving Repr, DecidableEq

def WrittenShape.source (s : WrittenShape) : String :=
  "shape " ++ s.name ++ " \x7b" ++
    String.join (s.fields.map fun f => "\n    " ++ f.name ++ ": " ++ f.type.text ++ ",") ++
    "\n\x7d\n"

structure WrittenParam where
  source : ParamSource
  wireName : String
  name : String
  type : TypeRef
  deriving Repr, DecidableEq

/-- The name on the wire is written only if it differs from the name of the parameter. -/
def WrittenParam.text (p : WrittenParam) : String :=
  "#[" ++ p.source.keyword ++
    (if p.wireName = p.name then "" else "(\"" ++ escapeText p.wireName ++ "\")") ++ "] " ++
    p.name ++ ": " ++ p.type.text

/-- A property of the request set from a parameter or from a field of one. -/
structure Assignment where
  property : String
  param : String
  field : Option String
  deriving Repr, DecidableEq

def Assignment.text (a : Assignment) : String :=
  "\n        " ++ a.property ++ " = " ++ a.param ++
    (match a.field with
      | some f => "." ++ f
      | none => "") ++ ","

/-- An operation that builds a request from its parameters and hands it on. -/
structure WrittenOperation where
  name : String
  method : Method
  route : String
  params : List WrittenParam
  request : TypeRef
  response : TypeRef
  requestVar : String
  assignments : List Assignment
  deriving Repr, DecidableEq

def WrittenOperation.source (o : WrittenOperation) : String :=
  let answer := o.response.unwrapAsync.text
  let isAsync := o.response.isAsync
  "#[http(" ++ o.method.token ++ ", \"" ++ escapeText o.route ++ "\")]\n" ++
    "#[produces(" ++ answer ++ ")]\n" ++
    (if isAsync then "async " else "") ++ "op " ++ o.name ++ "(" ++
    ", ".intercalate (o.params.map (·.text)) ++ ") -> " ++ o.response.text ++ " \x7b\n" ++
    "    let " ++ o.requestVar ++ " = new " ++ o.request.text ++ " \x7b" ++
    String.join (o.assignments.map (·.text)) ++ "\n    \x7d;\n" ++
    "    return " ++ (if isAsync then "await process_async" else "process") ++ "::<" ++
    o.request.text ++ ", " ++ answer ++ ">(" ++ o.requestVar ++ ");\n\x7d\n"

end EndpointCompiler

import EndpointCompiler.Json.Basic
import EndpointCompiler.Types.TypeRef

/-! Expressions that build request objects out of parameters and local values, their evaluation,
and the replacement of locals by their definitions. -/

namespace EndpointCompiler

/-- Parameters and locals are referred to by position. -/
inductive ValueExpr where
  | param (index : Nat)
  | local (index : Nat)
  | field (base : ValueExpr) (name : String)
  | new (type : TypeRef) (fields : List (String × ValueExpr))
  deriving Repr, Inhabited

namespace ValueExpr

mutual

/-- The value of an expression. What is not there is null: a parameter, a local, or a field of
something that has no such field. Of initialisers with one name the last counts. -/
def eval (params locals : List Json) : ValueExpr → Json
  | .param i => params[i]?.getD .null
  | .local i => locals[i]?.getD .null
  | .field base name => (eval params locals base).member name
  | .new _ fields => .object (evalFields params locals fields [])

def evalFields (params locals : List Json) :
    List (String × ValueExpr) → List (String × Json) → List (String × Json)
  | [], object => object
  | (name, value) :: fields, object =>
    evalFields params locals fields (Json.insertField name (eval params locals value) object)

end

/-- The values of locals, of which each sees those before it. -/
def evalLocals (params : List Json) (locals : List ValueExpr) : List Json :=
  locals.foldl (fun values e => values ++ [e.eval params values]) []

mutual

/-- Puts the given expressions in the place of the locals; others stay. -/
def substitute (locals : List ValueExpr) : ValueExpr → ValueExpr
  | .param i => .param i
  | .local i => locals[i]?.getD (.local i)
  | .field base name => .field (substitute locals base) name
  | .new type fields => .new type (substituteFields locals fields)

def substituteFields (locals : List ValueExpr) :
    List (String × ValueExpr) → List (String × ValueExpr)
  | [] => []
  | (name, value) :: fields => (name, substitute locals value) :: substituteFields locals fields

end

/-- Locals with the locals before them replaced by what they stand for. -/
def expandLocals (locals : List ValueExpr) : List ValueExpr :=
  locals.foldl (fun done e => done ++ [e.substitute done]) []

end ValueExpr

end EndpointCompiler

import EndpointCompiler.Handler.Definition
import EndpointCompiler.Source.Unit
import EndpointCompiler.Synthesis.Names
import EndpointCompiler.Synthesis.Surrogates
import EndpointCompiler.Synthesis.Written

/-! The operation of a handler definition. Bindings with one name on the wire share a parameter;
those to the body are fields of a shape made for it. -/

namespace EndpointCompiler

/-- Bindings that share a parameter: all to the body or none, with one name on the wire. -/
structure ParamGroup where
  bodyLike : Bool
  target : String
  bindings : List ParameterBinding
  deriving Repr, DecidableEq

/-- Adds a binding to its group, or begins one at the end. -/
def insertBinding (b : ParameterBinding) : List ParamGroup → List ParamGroup
  | [] => [⟨b.kind.isBodyLike, b.target, [b]⟩]
  | g :: gs =>
    if g.bodyLike = b.kind.isBodyLike ∧ g.target = b.target then
      { g with bindings := g.bindings ++ [b] } :: gs
    else g :: insertBinding b gs

/-- The groups in the order in which they first appear. -/
def groupBindings (bs : List ParameterBinding) : List ParamGroup :=
  bs.foldl (fun gs b => insertBinding b gs) []

/-- Where the parameter of a group comes from. The first binding decides between body and form. -/
def ParamGroup.source (placeholders : List String) (g : ParamGroup) : ParamSource :=
  if g.bodyLike then
    if g.bindings.head?.any (·.kind == .form) then .form else .body
  else if placeholders.contains g.target then .path
  else .query

/-- The type of a group's parameter: the carrier shape, or the type of the first binding. -/
def ParamGroup.type (carrier : String) (g : ParamGroup) : TypeRef :=
  if g.bodyLike then .named none carrier []
  else match g.bindings with
    | b :: _ => b.type
    | [] => .named none "" []

def ParamGroup.assignments (g : ParamGroup) (param : String) : List Assignment :=
  g.bindings.map fun b => ⟨b.source, param, if g.bodyLike then some b.source else none⟩

structure OperationSpec where
  carrier : Option WrittenShape
  operation : WrittenOperation
  deriving Repr, DecidableEq

def OperationSpec.units (s : OperationSpec) : List SourceUnit :=
  (s.carrier.map fun c => ⟨c.name, c.source, none⟩).toList ++
    [⟨s.operation.name, s.operation.source, none⟩]

/-- Parameters and assignments for groups, with names out of a table. -/
def nameParams (placeholders : List String) (carrier : String) :
    NameTable → List ParamGroup → Except NameCollision (List WrittenParam × List Assignment)
  | _, [] => .ok ([], [])
  | names, g :: gs => do
    let (name, names) ← names.allocate (sanitizeIdent g.target)
    let (params, assignments) ← nameParams placeholders carrier names gs
    return (⟨g.source placeholders, g.target, name, g.type carrier⟩ :: params,
      g.assignments name ++ assignments)

/-- What is used up while operations are made: names and surrogates. -/
structure Synthesizer where
  names : NameTable
  surrogates : SurrogateSource
  deriving Repr, DecidableEq

namespace Synthesizer

/-- A computation that uses up names and surrogates, also where it fails. -/
abbrev Action := ExceptT NameCollision (StateM Synthesizer)

def allocate (base : String) : Action String := do
  let s ← get
  let (name, names) ← s.names.allocate base
  set { s with names }
  return name

def surrogate : Action String := do
  let s ← get
  let (id, surrogates) := s.surrogates.next
  set { s with surrogates }
  return id

/-- The operation of a definition. It is named for the request type, its carrier for the operation
and a surrogate. -/
def synthesize (d : HandlerDefinition) : Action OperationSpec := do
  let name ← allocate (sanitizeIdent d.request.simpleName)
  let id ← surrogate
  let groups := groupBindings d.parameters
  let bodyBindings := (groups.filter (·.bodyLike)).flatMap (·.bindings)
  let carrier ←
    if bodyBindings.isEmpty then pure none
    else do
      let shape ← allocate (name ++ "Body_" ++ id)
      pure (some ⟨shape, bodyBindings.map fun b => ⟨b.source, b.type⟩⟩)
  let requestVar := "request_" ++ id
  let (_, names) := (NameTable.empty defaultMaxSuffix).reserve requestVar
  let (params, assignments) ← nameParams (Route.placeholders d.route)
    ((carrier.map WrittenShape.name).getD "") names groups
  let operation : WrittenOperation :=
    ⟨name, d.method, d.route, params, d.request, d.response, requestVar, assignments⟩
  return ⟨carrier, operation⟩

def synthesizeAll (ds : List HandlerDefinition) : Action (List OperationSpec) :=
  ds.mapM synthesize

end Synthesizer

end EndpointCompiler

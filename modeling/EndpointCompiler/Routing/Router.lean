import EndpointCompiler.Routing.Tree
import EndpointCompiler.Types.Module

/-! Routers: which operation answers a request, and with which values in its path and query. -/

namespace EndpointCompiler

structure RoutedOperation where
  owner : TypeRef
  operation : Operation

structure RouteRow where
  method : Method
  template : String
  owner : TypeRef
  operation : String
  deriving Repr, DecidableEq

def RoutedOperation.row (r : RoutedOperation) : RouteRow :=
  ⟨r.operation.route.method, r.operation.route.template, r.owner, r.operation.name⟩

structure RouteMatch where
  routed : RoutedOperation
  path : WireValues
  query : WireValues

structure Router where
  tree : RouteTree RoutedOperation
  rows : List RouteRow

namespace Router

def empty : Router := ⟨.empty, []⟩

/-- Adds an operation, in place of the one that the tree has for its method and template. -/
def add (r : Router) (owner : TypeRef) (operation : Operation) : Router :=
  let routed : RoutedOperation := ⟨owner, operation⟩
  let row := routed.row
  let (replaced, tree) := r.tree.insert row.method row.template routed
  let kept :=
    if replaced.isSome then
      r.rows.filter fun old => !(old.method == row.method && old.template == row.template)
    else r.rows
  ⟨tree, kept ++ [row]⟩

def addType (r : Router) (t : TypeInfo) : Router :=
  t.operations.foldl (·.add t.typeRef ·) r

def ofTypes (types : List TypeInfo) : Router :=
  types.foldl addType empty

/-- Routes a request by the path of its target. What follows the first question mark is the
query. -/
def route? (r : Router) (method : Method) (target : String) : Option RouteMatch :=
  let (path, query) := splitOnce '?' target.toList
  (r.tree.find? method (String.ofList path)).map fun (routed, captures) =>
    { routed
      path := captures.map fun (name, raw) => (name, decodeSegment raw)
      query := (query.map fun cs => formPairs (String.ofList cs)).getD [] }

end Router

end EndpointCompiler

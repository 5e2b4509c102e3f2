import EndpointCompiler.Endpoint.Binding
import EndpointCompiler.Endpoint.Method
import EndpointCompiler.Text.Percent

/-! Trees of routes. A path is looked up segment by segment; where several branches fit, a segment
as written comes before a placeholder, and placeholders come in the order in which they were put
in. -/

namespace EndpointCompiler

inductive Segment where
  | literal (text : String)
  | placeholder (name : String)
  deriving Repr, DecidableEq

/-- The segments of a path. Empty ones do not count. -/
def pathSegments (path : String) : List String :=
  ((splitAll '/' path.toList).filter (!·.isEmpty)).map String.ofList

/-- A segment in braces is a placeholder, whatever is between them. -/
def Segment.ofText (text : String) : Segment :=
  match text.toList with
  | '\x7b' :: cs =>
    if cs.getLast? = some '\x7d' then .placeholder (String.ofList cs.dropLast) else .literal text
  | _ => .literal text

def templateSegments (template : String) : List Segment :=
  (pathSegments template).map Segment.ofText

/-- The values of routes that end at a node, by method, and the branches for further segments. -/
inductive RouteNode (α : Type) where
  | node (values : List (Method × α)) (literals placeholders : List (String × RouteNode α))

/-- The raw texts of path segments by the names of placeholders. -/
abbrev Captures := List (String × String)

namespace Captures

def erase (name : String) (captures : Captures) : Captures :=
  captures.filter (·.1 != name)

def set (name value : String) (captures : Captures) : Captures :=
  captures.erase name ++ [(name, value)]

end Captures

namespace RouteNode

variable {α : Type}

def empty : RouteNode α := .node [] [] []

def values : RouteNode α → List (Method × α)
  | .node values _ _ => values

def literals : RouteNode α → List (String × RouteNode α)
  | .node _ literals _ => literals

def placeholders : RouteNode α → List (String × RouteNode α)
  | .node _ _ placeholders => placeholders

/-- Sets the value of a method; gives the one that was there. -/
def setValue (method : Method) (value : α) : List (Method × α) → Option α × List (Method × α)
  | [] => (none, [(method, value)])
  | v :: vs =>
    if v.1 = method then (some v.2, (method, value) :: vs)
    else
      let (replaced, vs) := setValue method value vs
      (replaced, v :: vs)

/-- Changes the branch of a name, or a new one at the end. -/
def changeBranch (name : String) (change : RouteNode α → Option α × RouteNode α) :
    List (String × RouteNode α) → Option α × List (String × RouteNode α)
  | [] =>
    let (replaced, n) := change empty
    (replaced, [(name, n)])
  | b :: bs =>
    if b.1 = name then
      let (replaced, n) := change b.2
      (replaced, (name, n) :: bs)
    else
      let (replaced, bs) := changeBranch name change bs
      (replaced, b :: bs)

def insert (method : Method) (value : α) : List Segment → RouteNode α → Option α × RouteNode α
  | [], .node values literals placeholders =>
    let (replaced, values) := setValue method value values
    (replaced, .node values literals placeholders)
  | .literal text :: rest, .node values literals placeholders =>
    let (replaced, literals) := changeBranch text (insert method value rest) literals
    (replaced, .node values literals placeholders)
  | .placeholder name :: rest, .node values literals placeholders =>
    let (replaced, placeholders) := changeBranch name (insert method value rest) placeholders
    (replaced, .node values literals placeholders)

/-- A search: the value that is found, and the captures on the way to it or left over. -/
abbrev Search (α : Type) := Captures → Option α × Captures

def Search.orElse (first second : Search α) : Search α := fun captures =>
  match first captures with
  | (some value, captures) => (some value, captures)
  | (none, captures) => second captures

def Search.fail : Search α := fun captures => (none, captures)

/-- A search with a capture, which is taken back if nothing is found. -/
def Search.capturing (name value : String) (search : Search α) : Search α := fun captures =>
  match search (captures.set name value) with
  | (some found, captures) => (some found, captures)
  | (none, captures) => (none, captures.erase name)

def searchBranches (search : String × RouteNode α → Search α) :
    List (String × RouteNode α) → Search α
  | [] => Search.fail
  | b :: bs => (search b).orElse (searchBranches search bs)

def search (method : Method) : List String → RouteNode α → Search α
  | [], n => fun captures => ((n.values.find? (·.1 == method)).map (·.2), captures)
  | segment :: rest, n =>
    (searchBranches (fun b => if b.1 = segment then search method rest b.2 else Search.fail)
      n.literals).orElse
    (searchBranches (fun b => (search method rest b.2).capturing b.1 segment) n.placeholders)

end RouteNode

/-- A tree of routes, and how many values it holds. -/
structure RouteTree (α : Type) where
  root : RouteNode α
  size : Nat

namespace RouteTree

variable {α : Type}

def empty : RouteTree α := ⟨.empty, 0⟩

/-- Puts a value under a method and a template; gives the one that was there. -/
def insert (t : RouteTree α) (method : Method) (template : String) (value : α) :
    Option α × RouteTree α :=
  let (replaced, root) := t.root.insert method value (templateSegments template)
  (replaced, ⟨root, if replaced.isSome then t.size else t.size + 1⟩)

/-- The value for a path, with the segments that its placeholders stand for. -/
def find? (t : RouteTree α) (method : Method) (path : String) : Option (α × Captures) :=
  match t.root.search method (pathSegments path) [] with
  | (some value, captures) => some (value, captures)
  | (none, _) => none

end RouteTree

end EndpointCompiler

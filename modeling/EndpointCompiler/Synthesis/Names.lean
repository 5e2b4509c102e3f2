import EndpointCompiler.Number.Shortest
import EndpointCompiler.Source.Token
import EndpointCompiler.Text.Identifier

/-! Names for generated declarations: texts are made into identifiers, and names that are taken
get the smallest free number. -/

namespace EndpointCompiler

/-- All numbered forms of a name are taken. -/
structure NameCollision where
  base : String
  maxSuffix : Nat
  deriving Repr, DecidableEq

def NameCollision.message (e : NameCollision) : String :=
  "no free name for '" ++ e.base ++ "': variants up to '" ++ e.base ++ natText e.maxSuffix ++
    "' are all taken"

/-- The names that are taken, each once, and the greatest number that may follow a name. -/
structure NameTable where
  assigned : List String
  maxSuffix : Nat
  deriving Repr, DecidableEq

def defaultMaxSuffix : Nat := 65535

namespace NameTable

def empty (maxSuffix : Nat) : NameTable :=
  ⟨[], maxSuffix⟩

def contains (t : NameTable) (name : String) : Bool :=
  t.assigned.contains name

/-- Takes a name and tells whether it was free. -/
def reserve (t : NameTable) (name : String) : Bool × NameTable :=
  if t.contains name then (false, t) else (true, { t with assigned := name :: t.assigned })

def firstNumbered? (t : NameTable) (base : String) : (suffix count : Nat) → Option String
  | _, 0 => none
  | suffix, count + 1 =>
    let name := base ++ natText suffix
    if t.contains name then t.firstNumbered? base (suffix + 1) count else some name

/-- The first free form of a name: as it is, or followed by a number from two on. -/
def firstFree? (t : NameTable) (base : String) : Option String :=
  if t.contains base then t.firstNumbered? base 2 (t.maxSuffix - 1) else some base

def allocate (t : NameTable) (base : String) : Except NameCollision (String × NameTable) :=
  match t.firstFree? base with
  | some name => .ok (name, { t with assigned := name :: t.assigned })
  | none => .error ⟨base, t.maxSuffix⟩

end NameTable

/-- Makes a text an identifier that is no keyword: other characters become underscores, a digit
is not left at the front, and an underscore sets it apart from a keyword. -/
def sanitizeIdent (raw : String) : String :=
  let cs := raw.toList.map fun c => if isIdentContinue c then c else '_'
  let word := match cs with
    | [] => ['_']
    | c :: _ => if c.isDigit then '_' :: cs else cs
  let ident := String.ofList word
  if (Source.Keyword.ofText? ident).isSome then ident ++ "_" else ident

end EndpointCompiler

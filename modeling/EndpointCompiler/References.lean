import EndpointCompiler.Handler.Definition
import EndpointCompiler.Types.Catalog

/-! The modules that a compilation refers to. A type that it uses, and every type in it, must be in
a module that compiled code can refer to. From there the types of fields are followed as far as they
can be located. -/

namespace EndpointCompiler

/-- Modules in the order of their names. -/
structure ReferenceSet where
  modules : List Module

namespace ReferenceSet

def module? (r : ReferenceSet) (id : ModuleId) : Option Module :=
  r.modules.find? (·.id == id)

def contains (r : ReferenceSet) (id : ModuleId) : Bool :=
  (r.module? id).isSome

def lookup? (r : ReferenceSet) (id : ModuleId) (name : String) : Option TypeInfo :=
  (r.module? id).bind (·.type? name)

def ids (r : ReferenceSet) : List ModuleId :=
  r.modules.map (·.id)

/-- Adds a module, unless one of its name is there. -/
def insert (r : ReferenceSet) (m : Module) : ReferenceSet :=
  if r.contains m.id then r else ⟨insertByName (·.id) m r.modules⟩

end ReferenceSet

inductive UnresolvableReason where
  | noDeclaringModule
  | unknownModule (id : ModuleId)
  | noBinaryIdentity (id : ModuleId)
  deriving Repr, DecidableEq

def UnresolvableReason.message : UnresolvableReason → String
  | .noDeclaringModule => "it has no declaring module"
  | .unknownModule id => "module '" ++ id ++ "' is not known"
  | .noBinaryIdentity id => "module '" ++ id ++ "' has no binary identity"

/-- A type that no reference leads to, within the type that was asked for. -/
structure UnresolvableReference where
  type : TypeRef
  offending : TypeRef
  reason : UnresolvableReason
  deriving Repr, DecidableEq

def UnresolvableReference.message (e : UnresolvableReference) : String :=
  "cannot resolve a reference for type '" ++ e.offending.text ++ "'" ++
    (if e.type = e.offending then "" else " (in '" ++ e.type.text ++ "')") ++ ": " ++
    e.reason.message

mutual

/-- A type and all types in it, outer ones first. -/
def TypeRef.subterms : TypeRef → List TypeRef
  | .named m name args => .named m name args :: TypeRef.subtermsOfAll args
  | .array t => .array t :: t.subterms
  | .async t => .async t :: t.subterms

def TypeRef.subtermsOfAll : List TypeRef → List TypeRef
  | [] => []
  | t :: ts => t.subterms ++ TypeRef.subtermsOfAll ts

end

/-- The types that were gone through, and references to their modules. -/
structure Gathered where
  references : ReferenceSet
  types : List TypeRef

namespace Catalog

/-- The module of a named type, if compiled code can refer to it. -/
def locate (c : Catalog) (t : TypeRef) : Except UnresolvableReason Module :=
  match t.module? with
  | none => .error .noDeclaringModule
  | some id =>
    match c.module? id with
    | none => .error (.unknownModule id)
    | some m => if m.hasBinaryIdentity then .ok m else .error (.noBinaryIdentity id)

mutual

/-- Takes in a type that is used, and then the types in it. All with a name must be located. -/
def addStrict (c : Catalog) (root : TypeRef) (g : Gathered) :
    TypeRef → Except UnresolvableReference Gathered
  | .named module name args =>
    match c.locate (.named module name args) with
    | .ok m =>
      c.addAllStrict root ⟨g.references.insert m, g.types ++ [.named module name args]⟩ args
    | .error reason => .error ⟨root, .named module name args, reason⟩
  | .array t => c.addStrict root g t
  | .async t => c.addStrict root g t

def addAllStrict (c : Catalog) (root : TypeRef) (g : Gathered) :
    List TypeRef → Except UnresolvableReference Gathered
  | [] => .ok g
  | t :: ts => do c.addAllStrict root (← c.addStrict root g t) ts

end

/-- The types one step away: arguments, elements and the types of declared fields. -/
def successors (c : Catalog) (t : TypeRef) : List TypeRef :=
  t.children ++ (match c.lookup? t with
    | some info => info.fields.map (·.type)
    | none => [])

/-- Takes in a type that is led to. If it cannot be located, it is passed over. -/
def visit (c : Catalog) (g : Gathered) (t : TypeRef) : Gathered where
  references :=
    match c.locate t with
    | .ok m => g.references.insert m
    | .error _ => g.references
  types := t :: g.types

/-- Visits a type and all that it leads to, one after the other, but none a second time. The depth
is how many types may lead to one another. -/
def addTransitive (c : Catalog) : (depth : Nat) → Gathered → TypeRef → Gathered
  | 0, g, _ => g
  | depth + 1, g, t =>
    if t ∈ g.types then g
    else (c.successors t).foldl (c.addTransitive depth) (c.visit g t)

/-- All types that occur in the given types or in the fields that a catalog declares. None but
these are visited, so that their number is deep enough. -/
def occurring (c : Catalog) (ts : List TypeRef) : List TypeRef :=
  TypeRef.subtermsOfAll
    (ts ++ c.modules.flatMap fun m => m.types.flatMap fun info => info.fields.map (·.type))

/-- Visits all that the types in use lead to. -/
def follow (c : Catalog) (used : Gathered) : Gathered :=
  used.types.foldl (c.addTransitive (c.occurring used.types).length) ⟨used.references, []⟩

/-- The types that every compilation uses. -/
def bootstrapTypes : List TypeRef :=
  [objectType, controllerType, processorType]

def resolve (c : Catalog) (ts : List TypeRef) : Except UnresolvableReference ReferenceSet := do
  let used ← (bootstrapTypes ++ ts).foldlM (fun g t => c.addStrict t g t) ⟨⟨[]⟩, []⟩
  return (c.follow used).references

end Catalog

def definitionTypes (ds : List HandlerDefinition) : List TypeRef :=
  ds.flatMap fun d => d.request :: d.response.unwrapAsync :: d.parameters.map (·.type)

end EndpointCompiler

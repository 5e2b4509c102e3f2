import EndpointCompiler.Checking.Body
import EndpointCompiler.Checking.Signature
import EndpointCompiler.Source.Unit

/-! Checking all declarations of a compilation. Shapes are known before any of them is looked at, so
the order of declarations makes no difference. -/

namespace EndpointCompiler

open Source

structure ParsedUnit where
  unit : SourceUnit
  items : List Item

/-- What an operation declares about its result must agree with it. -/
def checkResult (s : TypeScope) (op : OpDecl) : Checked TypeRef := do
  let result ← s.resolve true op.result
  if op.isAsync ∧ !result.isAsync then
    Checked.note (.asyncReturnsPlain op.name.name) op.result.span
  if !op.isAsync ∧ result.isAsync then
    Checked.note (.plainReturnsAsync op.name.name result) op.result.span
  return result

def checkOp (s : TypeScope) (op : OpDecl) : Checked OperationImage := do
  let attrs ← checkAttributes s op
  let params ← (checkParams s op attrs.route).attempt
  let result ← (checkResult s op).attempt
  let body ← (checkStmts s op (result.map (·.unwrapAsync)) (paramVars op params) [] op.body).attempt
  match attrs.route, params, body with
  | some route, some params, some (locals, call) =>
    return ⟨op.name.name, route.method.token, route.route, attrs.produces, params, locals, call⟩
  | _, _, _ => .abandon

def checkField (s : TypeScope) (shape : String) (done : List Field) (f : FieldDecl) :
    Checked (List Field) :=
  if done.any (·.name == f.name.name) then do
    Checked.note (.duplicateField shape f.name.name) f.name.span
    return done
  else do
    match ← (s.resolve false f.type).attempt with
    | some type => return done ++ [⟨f.name.name, type⟩]
    | none => return done

/-- The fields of a shape, those in error left out. Its attributes have no effect. -/
def checkShape (s : TypeScope) (d : ShapeDecl) : Checked (List Field) := do
  d.attributes.forM fun a => Checked.note (.unknownAttribute a.name.name) a.span
  d.fields.foldlM (checkField s d.name.name) []

def declaredShapes (units : List ParsedUnit) : List (SourceUnit × ShapeDecl) :=
  units.flatMap fun u => u.items.filterMap fun
    | .shape d => some (u.unit, d)
    | .op _ => none

def declaredOps (units : List ParsedUnit) : List (SourceUnit × OpDecl) :=
  units.flatMap fun u => u.items.filterMap fun
    | .shape _ => none
    | .op d => some (u.unit, d)

/-- Splits declarations into those that come first with their name and those that do not. -/
def splitRepeated {α : Type} (name : α → String) (seen : List String) : List α → List α × List α
  | [] => ([], [])
  | a :: as =>
    if seen.contains (name a) then
      let (first, repeated) := splitRepeated name seen as
      (first, a :: repeated)
    else
      let (first, repeated) := splitRepeated name (name a :: seen) as
      (a :: first, repeated)

/-- The images of a compilation's declarations and all diagnostics on the way. -/
structure CheckedProgram where
  shapes : List ShapeImage
  operations : List OperationImage
  diagnostics : List Diagnostic

def shapeName (d : SourceUnit × ShapeDecl) : String :=
  d.2.name.name

def opName (d : SourceUnit × OpDecl) : String :=
  d.2.name.name

/-- Checks one operation unless its name is taken. -/
def checkOps (s : TypeScope) (seen : List String) :
    List (SourceUnit × OpDecl) → List OperationImage × List Diagnostic
  | [] => ([], [])
  | (u, op) :: ops =>
    if seen.contains op.name.name then
      let (images, diagnostics) := checkOps s seen ops
      (images, Finding.diagnostic u ⟨.duplicateOperation op.name.name, op.name.span⟩ :: diagnostics)
    else
      let checked := checkOp s op
      let (images, diagnostics) := checkOps s (op.name.name :: seen) ops
      (checked.value.toList ++ images, checked.findings.map (Finding.diagnostic u) ++ diagnostics)

def checkProgram (references : ReferenceSet) (module : ModuleId) (units : List ParsedUnit) :
    CheckedProgram :=
  let (shapes, repeated) := splitRepeated shapeName [] (declaredShapes units)
  let names : TypeScope := ⟨references, module, shapes.map fun d => (shapeName d, [])⟩
  let checked := shapes.map fun d => (d.1, d.2.name.name, checkShape names d.2)
  let scope : TypeScope :=
    { names with shapes := checked.map fun (_, name, c) => (name, c.value.getD []) }
  let (operations, diagnostics) := checkOps scope [] (declaredOps units)
  { shapes := scope.shapes.map fun (name, fields) => ⟨name, fields⟩
    operations
    diagnostics :=
      repeated.map (fun (u, d) =>
        Finding.diagnostic u ⟨.duplicateShape d.name.name, d.name.span⟩) ++
        checked.flatMap (fun (u, _, c) => c.findings.map (Finding.diagnostic u)) ++ diagnostics }

def symbolOf (kind : SymbolKind) (u : SourceUnit) (name : Ident) : Symbol :=
  let (line, column) := lineColumn u.text name.span.start
  ⟨kind, name.name, u.name, u.path, line, column⟩

def declaredSymbols (units : List ParsedUnit) : List Symbol :=
  (declaredShapes units).map (fun (u, d) => symbolOf .shape u d.name) ++
    (declaredOps units).map (fun (u, d) => symbolOf .operation u d.name)

end EndpointCompiler

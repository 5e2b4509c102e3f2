import EndpointCompiler.Checking.Types

/-! Checking the body of an operation: values are bound to names, and the last of them is handed to
the bridge. -/

namespace EndpointCompiler

open Source

structure TypedValue where
  value : ValueExpr
  type : TypeRef

/-- The names in scope. A name whose declaration is in error has no value. -/
abbrev Vars := List (String × Option TypedValue)

def Vars.find? (vars : Vars) (name : String) : Option (Option TypedValue) :=
  (List.find? (·.1 == name) vars).map (·.2)

mutual

/-- The value that an expression denotes, with its type. -/
def checkValue (s : TypeScope) (vars : Vars) : Expr → Checked TypedValue
  | .var name =>
    match vars.find? name.name with
    | some (some v) => Checked.pure v
    | some none => .abandon
    | none => .fail (.unknownValue name.name) name.span
  | .field base name span => do
    let b ← checkValue s vars base
    match s.fieldsOf? b.type with
    | none => .fail (.noFields b.type) span
    | some fields =>
      match fields.find? (·.name == name.name) with
      | none => .fail (.unknownField name.name b.type) name.span
      | some f => return ⟨.field b.value name.name, f.type⟩
  | .new type inits span => do
    let type ← s.resolve false type
    match s.fieldsOf? type with
    | none => .fail (.notConstructible type) span
    | some fields =>
      let inits ← checkInits s vars type fields [] inits
      return ⟨.new type inits, type⟩
  | .call _ _ _ span => .fail .misplacedCall span
  | .await _ span => .fail .misplacedCall span

/-- The initialisers of an object, after those that are in order so far. -/
def checkInits (s : TypeScope) (vars : Vars) (type : TypeRef) (fields : List Field)
    (done : List (String × ValueExpr)) :
    List (Ident × Expr) → Checked (List (String × ValueExpr))
  | [] => Checked.pure done
  | (name, e) :: inits =>
    let init : Checked ValueExpr :=
      if done.any (·.1 == name.name) then .fail (.repeatedField name.name) name.span
      else match fields.find? (·.name == name.name) with
        | none => .fail (.unknownField name.name type) name.span
        | some f => do
          let v ← checkValue s vars e
          if assignable f.type v.type then return v.value
          else .fail (.mismatchedField name.name f.type v.type) e.span
    init.proceed fun
      | some v => checkInits s vars type fields (done ++ [(name.name, v)]) inits
      | none => checkInits s vars type fields done inits

end

/-- The function of the bridge that a name stands for, synchronous or asynchronous. -/
def bridgeFunction? (name : String) : Option BridgeMode :=
  if name = "process" then some .sync
  else if name = "process_async" then some .async
  else none

/-- An awaited expression without its `await`, and whether there was one. -/
def unwrapAwait (op : OpDecl) : Expr → Checked (Expr × Bool)
  | .await inner span =>
    if op.isAsync then Checked.pure (inner, true) else .fail .awaitOutsideAsync span
  | e => Checked.pure (e, false)

/-- The argument of a bridge call and its two types, each checked whatever becomes of the
others. -/
def checkCallParts (s : TypeScope) (vars : Vars) (request response : TypeExpr) (arg : Expr) :
    Checked (TypeRef × TypeRef × TypedValue) :=
  (s.resolve false request).both ((s.resolve false response).both (checkValue s vars arg))

def checkReturn (s : TypeScope) (op : OpDecl) (result : Option TypeRef) (vars : Vars)
    (value : Expr) : Checked BridgeCall := do
  let (called, awaited) ← unwrapAwait op value
  match called with
  | .call function typeArgs args span =>
    match bridgeFunction? function.name with
    | none => .fail (.unknownFunction function.name) function.span
    | some mode =>
      match typeArgs, args with
      | [request, response], [arg] =>
        let (requestType, responseType, v) ← checkCallParts s vars request response arg
        if !assignable requestType v.type then
          .fail (.mismatchedRequest requestType v.type) arg.span
        else if awaited ∧ mode = .sync then .fail .notAwaitable function.span
        else if op.isAsync ∧ mode = .sync then .fail (.asyncCallsSync op.name.name) function.span
        else if mode = .async ∧ !awaited then .fail (.missingAwait responseType) called.span
        else if result.any (· != responseType) then
          .fail (.mismatchedResponse op.name.name (result.getD responseType) responseType)
            response.span
        else return ⟨requestType, responseType, mode == .async, v.value⟩
      | [_, _], _ => .fail (.wrongArgCount function.name args.length) span
      | _, _ => .fail (.wrongTypeArgCount function.name typeArgs.length) span
  | _ => .fail .notBridgeCall value.span

/-- Checks statements in order. After the locals come the values bound so far, and nothing may
follow the returned call. -/
def checkStmts (s : TypeScope) (op : OpDecl) (result : Option TypeRef) (vars : Vars)
    (locals : List ValueExpr) : List Stmt → Checked (List ValueExpr × BridgeCall)
  | [] => .fail (.noReturn op.name.name) op.name.span
  | .result value _ :: [] => do
    let call ← checkReturn s op result vars value
    return (locals, call)
  | .result value _ :: next :: _ =>
    (checkReturn s op result vars value).proceed fun _ => .fail .unreachable next.span
  | .bind name value _ :: rest =>
    if (vars.find? name.name).isSome then
      (Checked.fail (α := Unit) (.redefined name.name) name.span).proceed fun _ =>
        checkStmts s op result vars locals rest
    else
      (checkValue s vars value).proceed fun
        | some v =>
          checkStmts s op result ((name.name, some ⟨.local locals.length, v.type⟩) :: vars)
            (locals ++ [v.value]) rest
        | none => checkStmts s op result ((name.name, none) :: vars) locals rest

/-- The names of the parameters, with their values if the parameters are in order. Of two
parameters with one name the first counts. -/
def paramVars (op : OpDecl) (params : Option (List ParamImage)) : Vars :=
  op.params.zipIdx.map fun (p, i) =>
    (p.name.name, (params.bind (·[i]?)).map fun image => ⟨.param i, image.type⟩)

end EndpointCompiler

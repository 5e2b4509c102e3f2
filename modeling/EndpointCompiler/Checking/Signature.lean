import EndpointCompiler.Checking.Types
import EndpointCompiler.Handler.Definition

/-! Checking what an operation declares about itself: its route and answer, and its parameters with
the sources that they are bound from. -/

namespace EndpointCompiler

open Source

/-- The declared method and route, and the place of the attribute that declares them. -/
structure HttpRoute where
  method : Method
  route : String
  span : Span

structure OpAttributes where
  routeSeen : Bool
  route : Option HttpRoute
  produces : Option TypeRef

def checkHttp (a : Attribute) : Checked HttpRoute :=
  match a.args with
  | [.type verb, .text route routeSpan] =>
    match verb with
    | .path none name args span =>
      if !args.isEmpty ∨ ⟨name⟩ ∉ Method.supported then .fail (.unsupportedVerb name) span
      else if route.toList.head? ≠ some '/' then .fail (.routeWithoutSlash route) routeSpan
      else Checked.pure ⟨⟨name⟩, route, a.span⟩
    | _ => .fail .expectedMethod verb.span
  | _ => .fail .malformedRoute a.span

/-- Takes in one attribute. Of several routes the first counts, of several answers the last. -/
def checkAttribute (s : TypeScope) (seen : OpAttributes) (a : Attribute) : Checked OpAttributes :=
  if a.name.name = "http" then
    if seen.routeSeen then do
      Checked.note .duplicateRoute a.span
      return seen
    else do
      let route ← (checkHttp a).attempt
      return { seen with routeSeen := true, route }
  else if a.name.name = "produces" then
    match a.args with
    | [.type t] => do
      let produces ← (s.resolve false t).attempt
      return { seen with produces }
    | _ => do
      Checked.note .malformedProduces a.span
      return seen
  else do
    Checked.note (.unknownAttribute a.name.name) a.span
    return seen

def checkAttributes (s : TypeScope) (op : OpDecl) : Checked OpAttributes := do
  let found ← op.attributes.foldlM (checkAttribute s) ⟨false, none, none⟩
  if !found.routeSeen then Checked.note (.missingRoute op.name.name) op.name.span
  return found

/-- The attributes of a parameter that say where it comes from; others have no effect. -/
def bindingAttributes : List Attribute → Checked (List (ParamSource × Attribute))
  | [] => Checked.pure []
  | a :: attrs => do
    match ParamSource.ofKeyword? a.name.name with
    | some source => return (source, a) :: (← bindingAttributes attrs)
    | none =>
      Checked.note (.unknownAttribute a.name.name) a.span
      bindingAttributes attrs

def checkBinding (p : ParamDecl) : Checked (ParamSource × String) := do
  match ← bindingAttributes p.attributes with
  | [(source, a)] =>
    match a.args with
    | [] => return (source, p.name.name)
    | [.text wireName _] => return (source, wireName)
    | _ => .fail (.malformedBinding source) a.span
  | _ => .fail (.ambiguousBinding p.name.name) p.name.span

/-- The parameters taken in so far: all names, those that are bound, and how many of them take the
body. -/
structure ParamsSeen where
  names : List String
  params : List ParamImage
  bodies : Nat

/-- Notes what does not suit the source of a parameter. -/
def checkParamType (s : TypeScope) (op : OpDecl) (placeholders : Option (List String))
    (bodies : Nat) (p : ParamDecl) (image : ParamImage) : Checked Unit := do
  match image.source with
  | .path | .query =>
    if !isWireScalar image.type then
      Checked.note (.notPrimitive p.name.name image.source image.type) p.type.span
  | .body | .form =>
    if bodies > 0 then Checked.note (.secondBody op.name.name) p.name.span
    if image.source = .form ∧ (s.fieldsOf? image.type).isNone then
      Checked.note (.formNotShape p.name.name image.type) p.type.span
  if image.source = .path ∧ placeholders.any (!·.contains image.wireName) then
    Checked.note (.paramNotInRoute image.wireName) p.name.span

def checkParam (s : TypeScope) (op : OpDecl) (placeholders : Option (List String))
    (seen : ParamsSeen) (p : ParamDecl) : Checked ParamsSeen :=
  if seen.names.contains p.name.name then do
    Checked.note (.duplicateParam p.name.name) p.name.span
    return seen
  else do
    let seen := { seen with names := p.name.name :: seen.names }
    let image : Checked ParamImage := do
      let (source, wireName) ← checkBinding p
      let type ← s.resolve false p.type
      return ⟨p.name.name, wireName, source, type⟩
    match ← image.attempt with
    | none => return seen
    | some image =>
      checkParamType s op placeholders seen.bodies p image
      let takesBody := image.source = .body ∨ image.source = .form
      return { seen with
        params := seen.params ++ [image]
        bodies := if takesBody then seen.bodies + 1 else seen.bodies }

/-- Whether a parameter is meant for a placeholder, even if it could not be bound to it. -/
def ParamDecl.meantFor (placeholder : String) (p : ParamDecl) : Bool :=
  p.attributes.any (·.name.name == "path") &&
    (p.name.name == placeholder || p.attributes.any fun a =>
      match a.args with
      | [.text wireName _] => wireName == placeholder
      | _ => false)

/-- Notes a placeholder that no parameter is bound to or meant for. -/
def checkPlaceholder (op : OpDecl) (route : HttpRoute) (params : List ParamImage)
    (placeholder : String) : Checked Unit := do
  let bound := params.any fun p => p.source == .path && p.wireName == placeholder
  if !bound ∧ !op.params.any (ParamDecl.meantFor placeholder) then
    Checked.note (.unboundPlaceholder placeholder) route.span

def checkParams (s : TypeScope) (op : OpDecl) (route : Option HttpRoute) :
    Checked (List ParamImage) :=
  Checked.unlessError do
    let placeholders := route.map fun r => Route.placeholders r.route
    let seen ← op.params.foldlM (checkParam s op placeholders) ⟨[], [], 0⟩
    match route with
    | some r => (Route.placeholders r.route).forM (checkPlaceholder op r seen.params)
    | none => Checked.pure ()
    return seen.params

end EndpointCompiler

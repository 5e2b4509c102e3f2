import EndpointCompiler.Document.Basic
import EndpointCompiler.Image.Basic

/-! Images and symbol tables as JSON, with the fields of records in a fixed order. -/

namespace EndpointCompiler

open Document

def TypeRef.toJson (t : TypeRef) : Json :=
  .string t.text

def Field.toJson (f : Field) : Json :=
  .object [("name", .string f.name), ("type", f.type.toJson)]

def Field.decode (d : Document) : Decoded Field := do
  let r ← d.asRecord ["name", "type"]
  return ⟨← r.required "name" asText, ← r.required "type" asType⟩

def ShapeImage.toJson (s : ShapeImage) : Json :=
  .object [("name", .string s.name), ("fields", .array (s.fields.map (·.toJson)))]

def ShapeImage.decode (d : Document) : Decoded ShapeImage := do
  let r ← d.asRecord ["name", "fields"]
  return ⟨← r.required "name" asText, ← r.required "fields" (asList Field.decode)⟩

def ParamImage.toJson (p : ParamImage) : Json :=
  .object [("name", .string p.name), ("wire_name", .string p.wireName),
    ("source", .string p.source.keyword), ("type", p.type.toJson)]

def ParamImage.decode (d : Document) : Decoded ParamImage := do
  let r ← d.asRecord ["name", "wire_name", "source", "type"]
  return ⟨← r.required "name" asText, ← r.required "wire_name" asText,
    ← r.required "source" (asWord ParamSource.ofKeyword?), ← r.required "type" asType⟩

namespace ValueExpr

mutual

/-- An expression is an object with one field, named for its form. -/
def toJson : ValueExpr → Json
  | .param i => .object [("param", .ofNat i)]
  | .local i => .object [("local", .ofNat i)]
  | .field base name =>
    .object [("field", .object [("base", toJson base), ("name", .string name)])]
  | .new type fields =>
    .object [("new", .object [("type", type.toJson), ("fields", .array (fieldsToJson fields))])]

def fieldsToJson : List (String × ValueExpr) → List Json
  | [] => []
  | (name, value) :: fields => .array [.string name, toJson value] :: fieldsToJson fields

end

mutual

def decode : Document → Decoded ValueExpr
  | .map [(name, body)] => do
    let form ← name.asText
    if form = "param" then return .param (← body.asNatural 64)
    else if form = "local" then return .local (← body.asNatural 64)
    else if form = "field" then decodeField body
    else if form = "new" then decodeNew body
    else throw (.unknownWord form)
  | _ => .error (.unexpected "expression")

def decodeField : Document → Decoded ValueExpr
  | .map fields => do
    let r ← asRecord ["base", "name"] (.map fields)
    return .field (← decodeNamed "base" fields) (← r.required "name" asText)
  | .list true [base, name] => do return .field (← decode base) (← name.asText)
  | _ => .error (.unexpected "record")

def decodeNew : Document → Decoded ValueExpr
  | .map fields => do
    let r ← asRecord ["type", "fields"] (.map fields)
    return .new (← r.required "type" asType) (← decodeInitsNamed "fields" fields)
  | .list true [type, inits] => do return .new (← type.asType) (← decodeInits inits)
  | _ => .error (.unexpected "record")

def decodeNamed (name : String) : List (Document × Document) → Decoded ValueExpr
  | [] => .error (.missingField name)
  | (n, d) :: fields => if n.hasText name then decode d else decodeNamed name fields

def decodeInitsNamed (name : String) :
    List (Document × Document) → Decoded (List (String × ValueExpr))
  | [] => .error (.missingField name)
  | (n, d) :: fields => if n.hasText name then decodeInits d else decodeInitsNamed name fields

def decodeInits : Document → Decoded (List (String × ValueExpr))
  | .list _ items => decodeInitList items
  | _ => .error (.unexpected "list")

def decodeInitList : List Document → Decoded (List (String × ValueExpr))
  | [] => .ok []
  | d :: items => do return (← decodeInit d) :: (← decodeInitList items)

def decodeInit : Document → Decoded (String × ValueExpr)
  | .list true [name, value] => do return (← name.asText, ← decode value)
  | _ => .error (.unexpected "pair")

end

end ValueExpr

def BridgeCall.toJson (c : BridgeCall) : Json :=
  .object [("request", c.request.toJson), ("response", c.response.toJson),
    ("is_async", .bool c.isAsync), ("arg", c.arg.toJson)]

def BridgeCall.decode (d : Document) : Decoded BridgeCall := do
  let r ← d.asRecord ["request", "response", "is_async", "arg"]
  return ⟨← r.required "request" asType, ← r.required "response" asType,
    ← r.required "is_async" asBool, ← r.required "arg" ValueExpr.decode⟩

/-- The answer type and the locals are written only if there are any. -/
def OperationImage.toJson (o : OperationImage) : Json :=
  .object <|
    [("name", .string o.name), ("method", .string o.method), ("route", .string o.route)] ++
      (o.produces.map fun t => ("produces", t.toJson)).toList ++
      [("params", .array (o.params.map (·.toJson)))] ++
      (if o.locals.isEmpty then [] else [("locals", .array (o.locals.map (·.toJson)))]) ++
      [("call", o.call.toJson)]

def OperationImage.decode (d : Document) : Decoded OperationImage := do
  let r ← d.asRecord ["name", "method", "route", "produces", "params", "locals", "call"]
  return ⟨← r.required "name" asText, ← r.required "method" asText, ← r.required "route" asText,
    ← r.withDefault "produces" none (asOption asType),
    ← r.required "params" (asList ParamImage.decode),
    ← r.withDefault "locals" [] (asList ValueExpr.decode),
    ← r.required "call" BridgeCall.decode⟩

def ModuleImage.toJson (m : ModuleImage) : Json :=
  .object [("format", .ofNat m.format), ("module", .string m.module),
    ("controller", .string m.controller), ("shapes", .array (m.shapes.map (·.toJson))),
    ("operations", .array (m.operations.map (·.toJson)))]

def ModuleImage.decode (d : Document) : Decoded ModuleImage := do
  let r ← d.asRecord ["format", "module", "controller", "shapes", "operations"]
  return ⟨← r.required "format" (asNatural 32), ← r.required "module" asText,
    ← r.required "controller" asText, ← r.required "shapes" (asList ShapeImage.decode),
    ← r.required "operations" (asList OperationImage.decode)⟩

def SymbolKind.keyword : SymbolKind → String
  | .shape => "shape"
  | .operation => "operation"

def SymbolKind.ofKeyword? (word : String) : Option SymbolKind :=
  [SymbolKind.shape, .operation].find? (·.keyword == word)

/-- The path is written only if there is one. -/
def Symbol.toJson (s : Symbol) : Json :=
  .object <|
    [("kind", .string s.kind.keyword), ("name", .string s.name), ("unit", .string s.unit)] ++
      (s.path.map fun p => ("path", .string p)).toList ++
      [("line", .ofNat s.line), ("column", .ofNat s.column)]

def Symbol.decode (d : Document) : Decoded Symbol := do
  let r ← d.asRecord ["kind", "name", "unit", "path", "line", "column"]
  return ⟨← r.required "kind" (asWord SymbolKind.ofKeyword?), ← r.required "name" asText,
    ← r.required "unit" asText, ← r.withDefault "path" none (asOption asText),
    ← r.required "line" (asNatural 64), ← r.required "column" (asNatural 64)⟩

def SymbolTable.toJson (t : SymbolTable) : Json :=
  .object [("module", .string t.module), ("symbols", .array (t.symbols.map (·.toJson)))]

def SymbolTable.decode (d : Document) : Decoded SymbolTable := do
  let r ← d.asRecord ["module", "symbols"]
  return ⟨← r.required "module" asText, ← r.required "symbols" (asList Symbol.decode)⟩

inductive JsonDecodeError where
  | malformed (error : Json.SyntaxError)
  | unsuitable (error : DecodeError)
  deriving Repr, DecidableEq

def decodeJsonText {α : Type} (decode : Document → Decoded α) (text : String) :
    Except JsonDecodeError α :=
  match readJson text with
  | .ok d => (decode d).mapError .unsuitable
  | .error e => .error (.malformed e)

end EndpointCompiler

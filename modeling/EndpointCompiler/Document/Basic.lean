import EndpointCompiler.Json.Reader
import EndpointCompiler.Source.TypeText

/-! Documents: the trees that JSON and YAML texts have in common, and the reading of values and
records out of them. -/

namespace EndpointCompiler

/-- A plain scalar has no type of its own: what is asked of it decides. A list is positional if it
may also stand for a record, with its fields in order. A tag tells the kind of what it is put to. A
part that is well formed and cannot be read may still be passed over. -/
inductive Document where
  | plain (text : String)
  | text (value : String)
  | integer (value : Int)
  | bool (value : Bool)
  | float
  | null
  | list (positional : Bool) (items : List Document)
  | map (fields : List (Document × Document))
  | tagged (tag : String) (content : Document)
  | unreadable
  deriving Repr, Inhabited

inductive DecodeError where
  | unexpected (wanted : String)
  | missingField (name : String)
  | repeatedField (name : String)
  | unknownWord (word : String)
  | wrongLength (expected found : Nat)
  | outOfRange (value : Int)
  | invalidType (text : String)
  deriving Repr, DecidableEq

abbrev Decoded := Except DecodeError

namespace Document

def ofNumber : JsonNumber → Document
  | .int n => .integer n
  | .float _ => .float

mutual

def ofJson : Json → Document
  | .null => .null
  | .bool b => .bool b
  | .number n => ofNumber n
  | .string s => .text s
  | .array items => .list true (ofJsonItems items)
  | .object fields => .map (ofJsonFields fields)

def ofJsonItems : List Json → List Document
  | [] => []
  | v :: items => ofJson v :: ofJsonItems items

def ofJsonFields : List (String × Json) → List (Document × Document)
  | [] => []
  | (n, v) :: fields => (.text n, ofJson v) :: ofJsonFields fields

end

/-- Reading JSON to documents: what has no value only cannot be read. -/
def target : Json.Target Document Document where
  null := .null
  bool := .bool
  number := ofNumber
  string := .text
  array := .list true
  name := .text
  object := .map
  spoilt := some (.unreadable, .unreadable)

mutual

/-- The document in which no lists and maps can be read that more than so many stand around. -/
def limitDepth (depth : Nat) : Document → Document
  | .list positional items =>
    match depth with
    | 0 => .unreadable
    | depth + 1 => .list positional (limitItems depth items)
  | .map fields =>
    match depth with
    | 0 => .unreadable
    | depth + 1 => .map (limitFields depth fields)
  | .tagged tag content => .tagged tag (limitDepth depth content)
  | .plain s => .plain s
  | .text s => .text s
  | .integer n => .integer n
  | .bool b => .bool b
  | .float => .float
  | .null => .null
  | .unreadable => .unreadable

def limitItems (depth : Nat) : List Document → List Document
  | [] => []
  | d :: items => limitDepth depth d :: limitItems depth items

def limitFields (depth : Nat) : List (Document × Document) → List (Document × Document)
  | [] => []
  | (k, d) :: fields => (limitDepth depth k, limitDepth depth d) :: limitFields depth fields

end

/-- The document that a JSON text writes. Each level of nesting takes a character at least, so only
the limit on what can be read bounds the depth. -/
def readJson (text : String) : Except Json.SyntaxError Document :=
  (Json.readText target text.length text).map (limitDepth Json.maxDepth)

/-- Any plain scalar is text where text is asked for. -/
def asText : Document → Decoded String
  | .plain s => .ok s
  | .text s => .ok s
  | .tagged _ d => d.asText
  | _ => .error (.unexpected "text")

def hasText (text : String) (d : Document) : Bool :=
  match d.asText with
  | .ok s => s == text
  | .error _ => false

def untagged : Document → Document
  | .tagged _ d => d.untagged
  | d => d

/-- Digits in a base, at least one; there is a digit for each value below sixteen. -/
def readDigits? (base : Nat) (cs : List Char) : Option Nat :=
  if cs = [] then none
  else cs.foldl (fun n c => n.bind fun n =>
    (Json.hexValue? c).bind fun d => if d < base then some (base * n + d) else none) (some 0)

/-- A natural number as a plain scalar: decimal without a leading zero, or in base 16, 8 or 2 after
a mark; a plus sign may stand in front. -/
def readNatural? (text : String) : Option Nat :=
  let unsigned := match text.toList with
    | '+' :: cs => cs
    | cs => cs
  match unsigned with
  | '0' :: 'x' :: cs => readDigits? 16 cs
  | '0' :: 'o' :: cs => readDigits? 8 cs
  | '0' :: 'b' :: cs => readDigits? 2 cs
  | '0' :: _ :: _ => none
  | cs => readDigits? 10 cs

def asNatural (bits : Nat) (d : Document) : Decoded Nat := do
  let n ← match d.untagged with
    | .integer n => pure n
    | .plain s =>
      match readNatural? s with
      | some n => pure (n : Int)
      | none => throw (.unexpected "number")
    | _ => throw (.unexpected "number")
  if 0 ≤ n ∧ n < Nat.pow 2 bits then return n.toNat else throw (.outOfRange n)

def asBool : Document → Decoded Bool
  | .bool b => .ok b
  | _ => .error (.unexpected "boolean")

def asType (d : Document) : Decoded TypeRef := do
  let text ← d.asText
  match TypeRef.ofText text with
  | .ok t => return t
  | .error _ => throw (.invalidType text)

/-- Whether a plain scalar is one of the words for no value. -/
def isNullWord (s : String) : Bool :=
  s ∈ ["~", "null", "Null", "NULL"]

/-- A word out of a fixed choice. In JSON it may also be the name of a single null field, and in
YAML a tag of its own before an empty or null scalar. -/
def asWord {α : Type} (ofWord? : String → Option α) (d : Document) : Decoded α := do
  let word ← match d with
    | .map [(name, .null)] => name.asText
    | .tagged tag content =>
      match tag.toList, content with
      | '!' :: word, .plain s =>
        if s = "" ∨ isNullWord s then pure (String.ofList word)
        else throw (.unexpected "nothing")
      | '!' :: _, _ => throw (.unexpected "nothing")
      | _, _ => content.asText
    | d => d.asText
  match ofWord? word with
  | some a => return a
  | none => throw (.unknownWord word)

/-- The items of a list. An empty plain scalar is a list without items. -/
def asItems : Document → Decoded (List Document)
  | .list _ items => .ok items
  | .plain "" => .ok []
  | .tagged _ d => d.asItems
  | _ => .error (.unexpected "list")

def asList {α : Type} (decode : Document → Decoded α) (d : Document) : Decoded (List α) := do
  (← d.asItems).mapM decode

/-- The tag of scalars that say that there is no value. -/
def nullTag : String := "tag:yaml.org,2002:null"

def asNothing : Document → Decoded Bool
  | .null => .ok true
  | .plain s => .ok (s = "" || isNullWord s)
  | .tagged tag (.plain s) =>
    if tag ≠ nullTag then .ok false
    else if isNullWord s then .ok true
    else .error (.unexpected "null")
  | _ => .ok false

def asOption {α : Type} (decode : Document → Decoded α) (d : Document) : Decoded (Option α) := do
  if ← d.asNothing then return none else return some (← decode d)

/-- The fields of a record that are present, and whether they were given by position. -/
structure Record where
  fields : List (String × Document)
  positional : Bool

/-- The fields of a map with their names, all of which have to be texts. -/
def namedFields : List (Document × Document) → Decoded (List (String × Document))
  | [] => .ok []
  | (name, d) :: fields => do return (← name.asText, d) :: (← namedFields fields)

/-- The record with the given field names that a document holds. Other fields are passed over. -/
def asRecord (names : List String) : Document → Decoded Record
  | .map fields => do
    let known := (← namedFields fields).filter fun f => names.contains f.1
    match names.find? fun n => 1 < known.countP (·.1 == n) with
    | some n => throw (.repeatedField n)
    | none => return ⟨known, false⟩
  | .list true items =>
    if names.length < items.length then .error (.wrongLength names.length items.length)
    else .ok ⟨names.zip items, true⟩
  | .plain "" => .ok ⟨[], false⟩
  | .tagged _ d => d.asRecord names
  | _ => .error (.unexpected "record")

namespace Record

def field? (r : Record) (name : String) : Option Document :=
  (r.fields.find? (·.1 == name)).map (·.2)

def required {α : Type} (r : Record) (name : String) (decode : Document → Decoded α) : Decoded α :=
  match r.field? name with
  | some d => decode d
  | none => .error (.missingField name)

def withDefault {α : Type} (r : Record) (name : String) (default : α)
    (decode : Document → Decoded α) : Decoded α :=
  match r.field? name with
  | some d => decode d
  | none => .ok default

/-- A field that may be null, or left out where fields have names. -/
def optional {α : Type} (r : Record) (name : String) (decode : Document → Decoded α) :
    Decoded (Option α) :=
  match r.field? name with
  | some d => d.asOption decode
  | none => if r.positional then .error (.missingField name) else .ok none

end Record

end Document

end EndpointCompiler

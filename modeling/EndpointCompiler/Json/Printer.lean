import EndpointCompiler.Json.Basic
import EndpointCompiler.Number.Shortest

/-! The text of JSON values, compact on one line or spread over lines with an indent of two
spaces. -/

namespace EndpointCompiler.Json

/-- A control character as four hexadecimal digits; the short forms come first. -/
def escapeChar (c : Char) : List Char :=
  if c = '"' then ['\\', '"']
  else if c = '\\' then ['\\', '\\']
  else if c.toNat = 8 then ['\\', 'b']
  else if c.toNat = 12 then ['\\', 'f']
  else if c = '\n' then ['\\', 'n']
  else if c = '\r' then ['\\', 'r']
  else if c = '\t' then ['\\', 't']
  else if c.toNat < 0x20 then
    ['\\', 'u', '0', '0', Nat.digitChar (c.toNat / 16), Nat.digitChar (c.toNat % 16)]
  else [c]

def quote (s : String) : String :=
  "\"" ++ String.ofList (s.toList.flatMap escapeChar) ++ "\""

/-- Doubles are written with their shortest digits, positionally from 10^-5 up to below 10^16. -/
def floatText (x : Float) : String :=
  let (negative, d) := shortestDecimal x
  (if negative then "-" else "") ++
    (if -5 < d.point ∧ d.point ≤ 16 then d.positional else d.scientific)

def numberText : JsonNumber → String
  | .int n => intText n
  | .float x => floatText x

/-- What stands before a member or a closing bracket at some depth, and between a name and its
value. -/
structure Layout where
  lead : Nat → String
  colon : String

def Layout.compact : Layout := ⟨fun _ => "", ":"⟩

def Layout.pretty : Layout :=
  ⟨fun depth => "\n" ++ String.ofList (List.replicate (2 * depth) ' '), ": "⟩

mutual

/-- The text of a value that stands at some depth of nesting. -/
def textAt (l : Layout) (depth : Nat) : Json → String
  | .null => "null"
  | .bool true => "true"
  | .bool false => "false"
  | .number n => numberText n
  | .string s => quote s
  | .array [] => "[]"
  | .array (v :: items) =>
    "[" ++ l.lead (depth + 1) ++ textAt l (depth + 1) v ++ itemsText l (depth + 1) items ++
      l.lead depth ++ "]"
  | .object [] => "\x7b\x7d"
  | .object ((n, v) :: fields) =>
    "\x7b" ++ l.lead (depth + 1) ++ quote n ++ l.colon ++ textAt l (depth + 1) v ++
      fieldsText l (depth + 1) fields ++ l.lead depth ++ "\x7d"

def itemsText (l : Layout) (depth : Nat) : List Json → String
  | [] => ""
  | v :: items => "," ++ l.lead depth ++ textAt l depth v ++ itemsText l depth items

def fieldsText (l : Layout) (depth : Nat) : List (String × Json) → String
  | [] => ""
  | (n, v) :: fields =>
    "," ++ l.lead depth ++ quote n ++ l.colon ++ textAt l depth v ++ fieldsText l depth fields

end

def compact (v : Json) : String :=
  v.textAt .compact 0

def pretty (v : Json) : String :=
  v.textAt .pretty 0

end EndpointCompiler.Json

import EndpointCompiler.Text.Utf8

/-! Percent-encoded text in paths and forms. An escape that is not followed by two hexadecimal
digits stands for itself. -/

namespace EndpointCompiler

/-- The value of a byte as a hexadecimal digit. -/
def hexByte? (b : Nat) : Option Nat :=
  if 48 ≤ b ∧ b ≤ 57 then some (b - 48)
  else if 65 ≤ b ∧ b ≤ 70 then some (b - 55)
  else if 97 ≤ b ∧ b ≤ 102 then some (b - 87)
  else none

/-- The bytes with each escape replaced by the byte it writes; 37 is the percent sign. -/
def percentDecode : List Nat → List Nat
  | 37 :: a :: b :: rest =>
    match hexByte? a, hexByte? b with
    | some x, some y => (16 * x + y) :: percentDecode rest
    | _, _ => 37 :: percentDecode (a :: b :: rest)
  | b :: rest => b :: percentDecode rest
  | [] => []

/-- The value of a path segment; a segment that does not decode to text stays as it is. -/
def decodeSegment (segment : String) : String :=
  match Utf8.decode? (percentDecode (Utf8.encode segment.toList)) with
  | some cs => String.ofList cs
  | none => segment

/-- A name or value of a form, where a plus sign stands for a space. -/
def decodeFormPart (cs : List Char) : String :=
  let plain := cs.map fun c => if c = '+' then ' ' else c
  String.ofList (Utf8.decodeLossy (percentDecode (Utf8.encode plain)))

def splitAll (separator : Char) : List Char → List (List Char)
  | [] => [[]]
  | c :: cs =>
    match splitAll separator cs with
    | [] => [[c]]
    | piece :: pieces => if c = separator then [] :: piece :: pieces else (c :: piece) :: pieces

def splitOnce (separator : Char) (cs : List Char) : List Char × Option (List Char) :=
  match cs.dropWhile (· ≠ separator) with
  | [] => (cs, none)
  | _ :: rest => (cs.takeWhile (· ≠ separator), some rest)

/-- The names and values of a form in the order in which they are written. -/
def formPairs (encoded : String) : List (String × String) :=
  let pieces := (splitAll '&' encoded.toList).filter (!·.isEmpty)
  pieces.map fun piece =>
    let (name, value) := splitOnce '=' piece
    (decodeFormPart name, decodeFormPart (value.getD []))

end EndpointCompiler

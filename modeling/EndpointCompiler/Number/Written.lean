import EndpointCompiler.Text.WhiteSpace

/-! Numbers as they are written in texts from outside: an optional sign and digits for integers,
decimals with an optional fraction and exponent for floats. -/

namespace EndpointCompiler

def digitValue (c : Char) : Nat :=
  c.toNat - 48

def digitsValue (ds : List Char) : Nat :=
  ds.foldl (fun n c => 10 * n + digitValue c) 0

def takeSign : List Char → Bool × List Char
  | '-' :: cs => (true, cs)
  | '+' :: cs => (false, cs)
  | cs => (false, cs)

/-- An optional sign and at least one digit, nothing else. -/
def readInteger? (cs : List Char) : Option Int :=
  let (negative, ds) := takeSign cs
  if ds ≠ [] ∧ ds.all Char.isDigit then
    some (if negative then -(digitsValue ds : Int) else digitsValue ds)
  else none

def fitsInt32 (n : Int) : Bool :=
  -Nat.pow 2 31 ≤ n && n < Nat.pow 2 31

def fitsInt64 (n : Int) : Bool :=
  -Nat.pow 2 63 ≤ n && n < Nat.pow 2 63

/-- A decimal number ± mantissa · 10^exponent. -/
structure WrittenDecimal where
  negative : Bool
  mantissa : Nat
  exponent : Int

/-- Takes an exponent that runs to the end of the text; none is the exponent 0. -/
def readExponent? : List Char → Option Int
  | [] => some 0
  | c :: cs => if c = 'e' ∨ c = 'E' then readInteger? cs else none

/-- An optional sign, digits before and after an optional point with at least one among them, and
an optional exponent. -/
def readDecimal? (cs : List Char) : Option WrittenDecimal :=
  let (negative, cs) := takeSign cs
  let whole := cs.takeWhile Char.isDigit
  let (fraction, rest) := match cs.dropWhile Char.isDigit with
    | '.' :: cs => (cs.takeWhile Char.isDigit, cs.dropWhile Char.isDigit)
    | cs => ([], cs)
  if whole = [] ∧ fraction = [] then none
  else (readExponent? rest).map fun e =>
    ⟨negative, digitsValue (whole ++ fraction), e - fraction.length⟩

/-- The double nearest a decimal. Beyond 400 places either way only infinity and zero are left. -/
def WrittenDecimal.toFloat (d : WrittenDecimal) : Float :=
  let size : Int := (Nat.toDigits 10 d.mantissa).length + d.exponent
  let magnitude : Float :=
    if d.mantissa = 0 ∨ size < -400 then 0
    else if size > 400 then 1 / 0
    else if d.exponent < 0 then Float.ofScientific d.mantissa true (-d.exponent).toNat
    else Float.ofScientific d.mantissa false d.exponent.toNat
  if d.negative then -magnitude else magnitude

def readFloat? (cs : List Char) : Option Float :=
  ((readDecimal? cs).map WrittenDecimal.toFloat).filter Float.isFinite

end EndpointCompiler

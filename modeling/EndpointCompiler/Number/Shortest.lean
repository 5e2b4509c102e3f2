/-! The shortest decimal that reads back as a given binary number. A finite double is m · 2^q; the
reals that round to it form an interval around it, with its ends if m is even. On the coarsest
decimal grid that meets the interval, the point nearest the number is taken. -/

namespace EndpointCompiler

/-- A decimal d₁d₂…dₙ · 10^(point − n), that is, with `point` digits before the decimal point. -/
structure Decimal where
  digits : List Nat
  point : Int
  deriving Repr, DecidableEq

namespace Shortest

/-- A positive number num / den and the ends of its rounding interval over the same denominator. -/
structure Interval where
  num : Nat
  low : Nat
  high : Nat
  den : Nat
  closed : Bool

/-- Whether k / den lies in the interval. -/
def Interval.contains (i : Interval) (k : Nat) : Bool :=
  if i.closed then i.low ≤ k && k ≤ i.high else i.low < k && k < i.high

def digitsOf (n : Nat) : List Nat :=
  if n = 0 then [] else digitsOf (n / 10) ++ [n % 10]
decreasing_by omega

/-- How many digits stand before the decimal point of num / den; none or fewer for a number
below one tenth. Doubles are above 10^(-330), so shifting by so many places leaves some digit. -/
def pointOf (num den : Nat) : Int :=
  (digitsOf (num * Nat.pow 10 330 / den)).length - 330

/-- The interval scaled so that the points of the grid 10^e become the multiples of the
denominator. -/
def Interval.scale (i : Interval) (e : Int) : Interval :=
  if e ≥ 0 then { i with den := i.den * Nat.pow 10 e.toNat }
  else
    let p := Nat.pow 10 (-e).toNat
    { i with num := i.num * p, low := i.low * p, high := i.high * p }

/-- The point of the integer grid nearest the number among its two neighbours that lie in the
interval; of two equally near ones the even one. -/
def Interval.nearest? (i : Interval) : Option Nat :=
  let below := i.num / i.den
  let above := below + 1
  match i.contains (below * i.den), i.contains (above * i.den) with
  | false, false => none
  | true, false => some below
  | false, true => some above
  | true, true =>
    let down := i.num - below * i.den
    let up := above * i.den - i.num
    if down < up then some below
    else if up < down then some above
    else if below % 2 = 0 then some below else some above

/-- The digits of a grid point without zeros at their end. -/
def trimZeros (ds : List Nat) : List Nat :=
  (ds.reverse.dropWhile (· == 0)).reverse

/-- Tries the grids with 1, 2, … 17 digits. -/
def ofInterval (i : Interval) : Decimal :=
  let point := pointOf i.num i.den
  let found := (List.range 17).findSome? fun k =>
    let e := point - (k + 1 : Nat)
    (i.scale e).nearest?.map fun n => (digitsOf n, e)
  match found with
  | some (ds, e) => ⟨trimZeros ds, e + ds.length⟩
  | none => ⟨[], 0⟩

/-- The rounding interval of m · 2^(e - 1075), for the fraction and exponent fields of a double.
Below a power of two the neighbours are half as far apart. -/
def intervalOf (exponent fraction : Nat) : Interval :=
  let m := if exponent = 0 then fraction else fraction + Nat.pow 2 52
  let q := if exponent = 0 then 1 else exponent
  let near : Nat := if fraction = 0 ∧ 1 < exponent then 1 else 2
  let unit := Nat.pow 2 q
  ⟨4 * m * unit, (4 * m - near) * unit, (4 * m + 2) * unit, 4 * Nat.pow 2 1075, m % 2 == 0⟩

end Shortest

/-- The sign and the shortest decimal of a finite number; no digits for zero. -/
def shortestDecimal (x : Float) : Bool × Decimal :=
  let bits := x.toBits.toNat
  let exponent := bits / Nat.pow 2 52 % Nat.pow 2 11
  let fraction := bits % Nat.pow 2 52
  (bits / Nat.pow 2 63 == 1,
    if exponent = 0 ∧ fraction = 0 then ⟨[], 1⟩
    else Shortest.ofInterval (Shortest.intervalOf exponent fraction))

def digitChar (d : Nat) : Char :=
  Char.ofNat (48 + d)

def digitsText (ds : List Nat) : String :=
  String.ofList (ds.map digitChar)

def natText (n : Nat) : String :=
  if n = 0 then "0" else digitsText (Shortest.digitsOf n)

def intText : Int → String
  | .ofNat n => natText n
  | .negSucc n => "-" ++ natText (n + 1)

namespace Decimal

def zeros (n : Nat) : String :=
  String.ofList (List.replicate n '0')

/-- Positional notation, with at least one digit on either side of the point. -/
def positional (d : Decimal) : String :=
  let n : Int := d.digits.length
  if d.point ≤ 0 then
    "0." ++ zeros (-d.point).toNat ++ digitsText (if d.digits = [] then [0] else d.digits)
  else if n ≤ d.point then digitsText d.digits ++ zeros (d.point - n).toNat ++ ".0"
  else
    let k := d.point.toNat
    digitsText (d.digits.take k) ++ "." ++ digitsText (d.digits.drop k)

/-- Notation with an exponent and its sign: one digit before the point, and no point after a lone
digit. -/
def scientific (d : Decimal) : String :=
  digitsText (d.digits.take 1) ++
    (if d.digits.length ≤ 1 then "" else "." ++ digitsText (d.digits.drop 1)) ++
    (if d.point < 1 then "e" else "e+") ++ intText (d.point - 1)

end Decimal

end EndpointCompiler

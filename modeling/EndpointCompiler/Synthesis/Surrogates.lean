import EndpointCompiler.Number.Shortest
import EndpointCompiler.Text.Word

/-! Identifiers that keep generated names apart. -/

namespace EndpointCompiler

inductive SurrogateMode where
  | random | sequential
  deriving Repr, DecidableEq

namespace SurrogateMode

def text : SurrogateMode → String
  | .random => "random"
  | .sequential => "sequential"

def ofWord? (word : String) : Option SurrogateMode :=
  [SurrogateMode.random, .sequential].find? (·.text == word)

/-- Reads a mode without regard to ASCII case. Random identifiers have a second name. -/
def ofText (text : String) : Except UnknownWord SurrogateMode :=
  let word := lowercase text
  match ofWord? (if word = "ulid" then "random" else word) with
  | some mode => .ok mode
  | none => .error ⟨"surrogate mode", word⟩

end SurrogateMode

/-- A source of identifiers: numbers in order, or a supply of random bits. These may be any bits, so
that what holds of all sources holds of whatever identifiers are drawn. -/
inductive SurrogateSource where
  | random (bits : Nat)
  | sequential (next : Nat)
  deriving Repr, DecidableEq

namespace SurrogateSource

/-- The source for a mode; the bits count for random identifiers alone. -/
def ofMode (bits : Nat) : SurrogateMode → SurrogateSource
  | .random => .random bits
  | .sequential => .sequential 1

/-- A number with zeros in front of it, up to a width. -/
def padded (width n : Nat) : String :=
  let digits := natText n
  String.ofList (List.replicate (width - digits.length) '0') ++ digits

/-- The digits and letters of identifiers, those left out that are easily mistaken. -/
def alphabet : List Char :=
  "0123456789ABCDEFGHJKMNPQRSTVWXYZ".toList

/-- A number of 128 bits as 26 letters and digits. -/
def letters (n : Nat) : String :=
  String.ofList ((List.range 26).reverse.map fun k => alphabet.getD (n / Nat.pow 32 k % 32) '0')

/-- The next identifier. A random one is made of 128 bits and leaves the others. -/
def next : SurrogateSource → String × SurrogateSource
  | .random bits => (letters (bits % Nat.pow 2 128), .random (bits / Nat.pow 2 128))
  | .sequential n => (padded 4 n, .sequential (n + 1))

def take (s : SurrogateSource) : Nat → List String
  | 0 => []
  | n + 1 => s.next.1 :: s.next.2.take n

end SurrogateSource

end EndpointCompiler

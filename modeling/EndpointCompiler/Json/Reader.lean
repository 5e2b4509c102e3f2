import EndpointCompiler.Json.Basic
import EndpointCompiler.Text.Parsed
import EndpointCompiler.Text.Utf8
import EndpointCompiler.Number.Written
import EndpointCompiler.Number.Shortest

/-! Reading JSON from text. Fields of an object keep their order and their repetitions; faults say
what was expected and where. -/

namespace EndpointCompiler.Json

inductive Cause where
  | endInValue | endInList | endInObject | endInString
  | expectedValue | expectedWord | expectedColon | expectedListEnd | expectedObjectEnd
  | keyNotString | trailingComma | trailingCharacters
  | invalidNumber | numberOutOfRange
  | invalidEscape | loneSurrogate | incompletePair | controlCharacter
  | tooDeep
  deriving Repr, DecidableEq

def Cause.message : Cause → String
  | .endInValue => "EOF while parsing a value"
  | .endInList => "EOF while parsing a list"
  | .endInObject => "EOF while parsing an object"
  | .endInString => "EOF while parsing a string"
  | .expectedValue => "expected value"
  | .expectedWord => "expected ident"
  | .expectedColon => "expected `:`"
  | .expectedListEnd => "expected `,` or `]`"
  | .expectedObjectEnd => "expected `,` or `\x7d`"
  | .keyNotString => "key must be a string"
  | .trailingComma => "trailing comma"
  | .trailingCharacters => "trailing characters"
  | .invalidNumber => "invalid number"
  | .numberOutOfRange => "number out of range"
  | .invalidEscape => "invalid escape"
  | .loneSurrogate => "lone leading surrogate in hex escape"
  | .incompletePair => "unexpected end of hex escape"
  | .controlCharacter => "control character (\\u0000-\\u001F) found while parsing a string"
  | .tooDeep => "recursion limit exceeded"

/-- A cause and the number of bytes that follow the place where it was noticed. -/
structure Fault where
  cause : Cause
  remaining : Nat
  deriving Repr, DecidableEq

/-- What the parts of a text become. Numbers that are out of range and strings with half a surrogate
pair are well formed and have no value. They and names like them become what is given for them, or
are faults if nothing is. -/
structure Target (κ α : Type) where
  null : α
  bool : Bool → α
  number : JsonNumber → α
  string : String → α
  array : List α → α
  name : String → κ
  object : List (κ × α) → α
  spoilt : Option (κ × α)

/-- Reading to values; all that has no value is a fault. -/
def target : Target String Json :=
  ⟨.null, .bool, .number, .string, .array, id, .object, none⟩

def Fault.before (cause : Cause) (rest : List Char) : Fault :=
  ⟨cause, utf8Length rest⟩

def Fault.at (cause : Cause) (rest : List Char) : Fault :=
  ⟨cause, utf8Length rest - 1⟩

def isBlank (c : Char) : Bool :=
  c == ' ' || c == '\n' || c == '\t' || c == '\r'

def skipBlanks (cs : List Char) : List Char :=
  cs.dropWhile isBlank

theorem length_skipBlanks_le (cs : List Char) : (skipBlanks cs).length ≤ cs.length :=
  (List.dropWhile_sublist isBlank).length_le

theorem length_dropWhile_isDigit_le (cs : List Char) :
    (cs.dropWhile Char.isDigit).length ≤ cs.length :=
  (List.dropWhile_sublist Char.isDigit).length_le

def hexValue? (c : Char) : Option Nat :=
  if c.isDigit then some (c.toNat - 48)
  else if 'a' ≤ c ∧ c ≤ 'f' then some (c.toNat - 87)
  else if 'A' ≤ c ∧ c ≤ 'F' then some (c.toNat - 55)
  else none

def hexNumber? (cs : List Char) : Option Nat :=
  cs.foldl (fun n c => n.bind fun n => (hexValue? c).map (16 * n + ·)) (some 0)

def readHex (cs : List Char) : Except Fault (Parsed Nat Char cs.length) :=
  match cs with
  | a :: b :: c :: d :: rest =>
    match hexNumber? [a, b, c, d] with
    | some n => .ok ⟨n, rest, by simp only [List.length_cons]; omega⟩
    | none => .error ⟨.invalidEscape, utf8Length (a :: b :: c :: d :: rest) - 4⟩
  | cs =>
    if utf8Length cs < 4 then .error ⟨.endInString, 0⟩
    else .error ⟨.invalidEscape, utf8Length cs - 4⟩

def isHighSurrogate (n : Nat) : Bool := 0xD800 ≤ n && n ≤ 0xDBFF

def isLowSurrogate (n : Nat) : Bool := 0xDC00 ≤ n && n ≤ 0xDFFF

def readLowSurrogate (cs : List Char) : Except Fault (Parsed Nat Char cs.length) :=
  match cs with
  | [] => .error ⟨.endInString, 0⟩
  | c :: cs =>
    if c ≠ '\\' then .error (.at .incompletePair (c :: cs))
    else match cs with
      | [] => .error ⟨.endInString, 0⟩
      | d :: cs =>
        if d ≠ 'u' then .error (.at .incompletePair (d :: cs))
        else do
          let low ← readHex cs
          if isLowSurrogate low.value then
            return low.weaken (Nat.le_add_right cs.length 2)
          else throw (.before .loneSurrogate low.rest)

/-- The code point of an escape with hexadecimal digits, after the letter u. Half a pair has none;
what follows it is then read by itself. -/
def readCodePoint (cs : List Char) :
    Except Fault (Parsed (Except Fault Char) Char cs.length) := do
  let n ← readHex cs
  if isLowSurrogate n.value then
    return n.map fun _ => .error (.before .loneSurrogate n.rest)
  else if isHighSurrogate n.value then
    match readLowSurrogate n.rest with
    | .ok low =>
      return (low.map fun l =>
        .ok (Char.ofNat (0x10000 + (n.value - 0xD800) * 0x400 + (l - 0xDC00)))).weaken
          (Nat.le_of_lt n.short)
    | .error e => return n.map fun _ => .error e
  else return n.map fun c => .ok (Char.ofNat c)

def shortEscape? (c : Char) : Option Char :=
  if c = '"' then some '"'
  else if c = '\\' then some '\\'
  else if c = '/' then some '/'
  else if c = 'b' then some '\x08'
  else if c = 'f' then some '\x0c'
  else if c = 'n' then some '\n'
  else if c = 'r' then some '\r'
  else if c = 't' then some '\t'
  else none

def readEscape (cs : List Char) : Except Fault (Parsed (Except Fault Char) Char cs.length) :=
  match cs with
  | [] => .error ⟨.endInString, 0⟩
  | c :: rest =>
    match shortEscape? c with
    | some d => .ok ⟨.ok d, rest, by simp⟩
    | none =>
      if c = 'u' then (readCodePoint rest).map (·.weaken (by simp))
      else .error (.at .invalidEscape (c :: rest))

/-- The characters of a string up to and with its closing quote. Where reading is strict, an escape
without a character ends it at once. -/
def readString (strict : Bool) (cs : List Char) :
    Except Fault (Parsed (Except Fault (List Char)) Char cs.length) :=
  match cs with
  | [] => .error ⟨.endInString, 0⟩
  | c :: rest =>
    if c = '"' then .ok ⟨.ok [], rest, by simp⟩
    else if c = '\\' then do
      let d ← readEscape rest
      if strict then
        if let .error e := d.value then throw e
      have := d.short
      let more ← readString strict d.rest
      return ⟨do return (← d.value) :: (← more.value), more.rest, by
        have := more.short
        simp only [List.length_cons]; omega⟩
    else if c.toNat < 0x20 then .error (.at .controlCharacter (c :: rest))
    else do
      let more ← readString strict rest
      return ⟨more.value.map (c :: ·), more.rest, by
        have := more.short
        simp only [List.length_cons]; omega⟩
termination_by cs.length
decreasing_by all_goals (simp only [List.length_cons]; omega)

/-- The parts of a number as written, without its sign. -/
structure NumberParts where
  whole : List Char
  fraction : Option (List Char)
  exponent : Option (Bool × List Char)

/-- Digits before the point: a zero alone, or a row that begins with none. -/
def readWhole (cs : List Char) : Except Fault (Parsed (List Char) Char cs.length) :=
  match cs with
  | [] => .error ⟨.endInValue, 0⟩
  | c :: rest =>
    if c = '0' then
      if rest.head?.any Char.isDigit then .error (.at .invalidNumber rest)
      else .ok ⟨[c], rest, by simp⟩
    else if c.isDigit then
      .ok ⟨c :: rest.takeWhile Char.isDigit, rest.dropWhile Char.isDigit, by
        have := length_dropWhile_isDigit_le rest
        simp only [List.length_cons]; omega⟩
    else .error (.at .invalidNumber (c :: rest))

def readFraction (cs : List Char) :
    Except Fault (Parsed (Option (List Char)) Char (cs.length + 1)) :=
  match cs with
  | '.' :: rest =>
    match rest.takeWhile Char.isDigit with
    | [] => .error (if rest = [] then ⟨.endInValue, 0⟩ else .at .invalidNumber rest)
    | ds => .ok ⟨some ds, rest.dropWhile Char.isDigit, by
        have := length_dropWhile_isDigit_le rest
        simp only [List.length_cons]; omega⟩
  | cs => .ok (.none none cs)

theorem length_takeSign_le (cs : List Char) : (takeSign cs).2.length ≤ cs.length := by
  unfold takeSign
  split <;> simp

/-- The letter e, an optional sign and at least one digit, or nothing. -/
def readExponent (cs : List Char) :
    Except Fault (Parsed (Option (Bool × List Char)) Char (cs.length + 1)) :=
  match cs with
  | [] => .ok (.none none [])
  | c :: rest =>
    if c = 'e' ∨ c = 'E' then
      let signed := takeSign rest
      match signed.2.takeWhile Char.isDigit with
      | [] => .error (if signed.2 = [] then ⟨.endInValue, 0⟩ else .at .invalidNumber signed.2)
      | ds => .ok ⟨some (signed.1, ds), signed.2.dropWhile Char.isDigit, by
          have h := length_dropWhile_isDigit_le (takeSign rest).2
          have := length_takeSign_le rest
          simp only [signed, List.length_cons]
          omega⟩
    else .ok (.none none (c :: rest))

/-- Appends digits to a significand for as long as it stays below 2^64, and counts them. -/
def appendDigits (significand : Nat) : List Char → Nat × Nat
  | [] => (significand, 0)
  | d :: ds =>
    let n := 10 * significand + digitValue d
    if n < Nat.pow 2 64 then
      let (m, k) := appendDigits n ds
      (m, k + 1)
    else (significand, 0)

/-- Divides by 10^n, at most 308 places at a time. -/
def divideByPower (x : Float) (n : Nat) : Float :=
  if n ≤ 308 then x / Float.ofScientific 1 false n
  else if x == 0 then x
  else divideByPower (x / Float.ofScientific 1 false 308) (n - 308)
termination_by n

/-- A significand times a power of ten, rounded after each of its steps; nothing if it is too
large. -/
def scaled? (significand : Nat) (exponent : Int) : Option Float :=
  let x := Float.ofNat significand
  if exponent < 0 then some (divideByPower x (-exponent).toNat)
  else if x == 0 then some x
  else if exponent ≤ 308 then
    (some (x * Float.ofScientific 1 false exponent.toNat)).filter fun y => !y.isInf
  else none

/-- The digits of an exponent up to the one with which it passes 2^31, if one does. -/
def exponentOverflow? (ds : List Char) : Option Nat :=
  (List.range ds.length).find? fun k => Nat.pow 2 31 ≤ digitsValue (ds.take (k + 1))

/-- The number that the parts write. A fault tells how many digits follow its place. -/
def NumberParts.value (negative : Bool) (p : NumberParts) : Except Nat JsonNumber :=
  let (significand, taken) := appendDigits 0 p.whole
  let sign (x : Float) : JsonNumber := .float (if negative then -x else x)
  if taken = p.whole.length ∧ p.fraction.isNone ∧ p.exponent.isNone then
    if negative then
      if significand = 0 ∨ Nat.pow 2 63 < significand then .ok (sign (Float.ofNat significand))
      else .ok (.int (-significand))
    else .ok (.int significand)
  else
    let (significand, places) := appendDigits significand (p.fraction.getD [])
    let start : Int := (p.whole.length - taken : Nat) - places
    let (below, ds) := p.exponent.getD (false, [])
    match exponentOverflow? ds with
    | some k =>
      if significand ≠ 0 ∧ !below then .error (ds.length - (k + 1))
      else .ok (sign 0)
    | none =>
      let e : Int := digitsValue ds
      match scaled? significand (if below then start - e else start + e) with
      | some x => .ok (sign x)
      | none => .error 0

def readNumber (negative : Bool) (cs : List Char) :
    Except Fault (Parsed (Except Fault JsonNumber) Char cs.length) := do
  let whole ← readWhole cs
  let fraction ← readFraction whole.rest
  let exponent ← readExponent fraction.rest
  let value := NumberParts.value negative ⟨whole.value, fraction.value, exponent.value⟩
  return ⟨value.mapError fun k => ⟨.numberOutOfRange, utf8Length exponent.rest + k⟩,
    exponent.rest, by
      have := whole.short
      have := fraction.short
      have := exponent.short
      omega⟩

def readWord {α : Type} (word : List Char) (value : α) (cs : List Char) :
    Except Fault (Parsed α Char (cs.length + 1)) :=
  match word, cs with
  | [], cs => .ok (.none value cs)
  | _ :: _, [] => .error ⟨.endInValue, 0⟩
  | w :: word, c :: cs =>
    if w = c then (readWord word value cs).map (·.weaken (by simp))
    else .error (.at .expectedWord (c :: cs))

namespace Target

variable {κ α : Type}

def strict (t : Target κ α) : Bool :=
  t.spoilt.isNone

def settle {β γ : Type} {n : Nat} (t : Target κ α) (become : β → γ) (spoilt : κ × α → γ)
    (p : Parsed (Except Fault β) Char n) : Except Fault (Parsed γ Char n) :=
  match p.value, t.spoilt with
  | .ok b, _ => .ok (p.map fun _ => become b)
  | .error _, some s => .ok (p.map fun _ => spoilt s)
  | .error e, none => .error e

def readNumber (t : Target κ α) (negative : Bool) (cs : List Char) :
    Except Fault (Parsed α Char cs.length) := do
  t.settle t.number (·.2) (← Json.readNumber negative cs)

def readString (t : Target κ α) (cs : List Char) : Except Fault (Parsed α Char cs.length) := do
  t.settle (fun s => t.string (String.ofList s)) (·.2) (← Json.readString t.strict cs)

def readName (t : Target κ α) (cs : List Char) : Except Fault (Parsed κ Char cs.length) := do
  t.settle (fun s => t.name (String.ofList s)) (·.1) (← Json.readString t.strict cs)

end Target

abbrev ValueReader (α : Type) := (cs : List Char) → Except Fault (Parsed α Char cs.length)

section

variable {κ α : Type}

/-- How elements end: the closing bracket, what is wrong if the text ends before it, and what is
wrong if neither it nor a comma follows an element. -/
structure Closing where
  bracket : Char
  unfinished : Cause
  unexpected : Cause

namespace Closing

def list : Closing := ⟨']', .endInList, .expectedListEnd⟩

def object : Closing := ⟨'\x7d', .endInObject, .expectedObjectEnd⟩

end Closing

/-- The elements that follow the first one, each after a comma, and the bracket. -/
def readMore (closing : Closing) (element : ValueReader α) (cs : List Char) :
    Except Fault (Parsed (List α) Char cs.length) :=
  match h : skipBlanks cs with
  | [] => .error ⟨closing.unfinished, 0⟩
  | c :: rest =>
    have hc : rest.length < cs.length := by
      have := length_skipBlanks_le cs
      simp only [h, List.length_cons] at this
      omega
    if c = closing.bracket then .ok ⟨[], rest, hc⟩
    else if c = ',' then
      match hn : skipBlanks rest with
      | [] => .error ⟨.endInValue, 0⟩
      | d :: after =>
        if d = closing.bracket then .error (.at .trailingComma (d :: after))
        else do
          let e ← element (d :: after)
          have he : e.rest.length < cs.length := by
            have := e.short
            have := length_skipBlanks_le rest
            simp only [hn] at *
            omega
          let more ← readMore closing element e.rest
          return ⟨e.value :: more.value, more.rest, Nat.lt_trans more.short he⟩
    else .error (.at closing.unexpected (c :: rest))
termination_by cs.length

/-- Elements up to a bracket, separated by commas. -/
def readElements (closing : Closing) (element : ValueReader α) (cs : List Char) :
    Except Fault (Parsed (List α) Char cs.length) :=
  match h : skipBlanks cs with
  | [] => .error ⟨closing.unfinished, 0⟩
  | c :: rest =>
    have hc : (c :: rest).length ≤ cs.length := by
      simpa only [h] using length_skipBlanks_le cs
    if c = closing.bracket then .ok ⟨[], rest, hc⟩
    else do
      let e ← element (c :: rest)
      let more ← readMore closing element e.rest
      return ⟨e.value :: more.value, more.rest, by
        have := e.short
        have := more.short
        omega⟩

def readField (t : Target κ α) (value : ValueReader α) (cs : List Char) :
    Except Fault (Parsed (κ × α) Char cs.length) :=
  match cs with
  | [] => .error ⟨.keyNotString, 0⟩
  | c :: cs =>
    if c ≠ '"' then .error (.at .keyNotString (c :: cs))
    else do
      let name ← t.readName cs
      let next := skipBlanks name.rest
      have hn : next.length ≤ name.rest.length := length_skipBlanks_le _
      match hm : next with
      | [] => throw ⟨.endInObject, 0⟩
      | d :: rest =>
        if d = ':' then
          let v ← value rest
          return ⟨(name.value, v.value), v.rest, by
            have := name.short
            have := v.short
            simp only [hm, List.length_cons] at hn ⊢
            omega⟩
        else throw (.at .expectedColon (d :: rest))

/-- A value, with at most the given number of lists and objects around each other in it. -/
def readValue (t : Target κ α) (depth : Nat) (cs : List Char) :
    Except Fault (Parsed α Char cs.length) :=
  match h : skipBlanks cs with
  | [] => .error ⟨.endInValue, 0⟩
  | c :: rest =>
    have hc : rest.length < cs.length := by
      have := length_skipBlanks_le cs
      simp only [h, List.length_cons] at this
      omega
    if c = '"' then do
      let s ← t.readString rest
      return s.weaken (Nat.le_of_lt hc)
    else if c = '[' then
      match depth with
      | 0 => .error (.at .tooDeep (c :: rest))
      | depth + 1 => do
        let items ← readElements .list (readValue t depth) rest
        return (items.map t.array).weaken (Nat.le_of_lt hc)
    else if c = '\x7b' then
      match depth with
      | 0 => .error (.at .tooDeep (c :: rest))
      | depth + 1 => do
        let fields ← readElements .object (readField t (readValue t depth)) rest
        return (fields.map t.object).weaken (Nat.le_of_lt hc)
    else if c = '-' then do
      let n ← t.readNumber true rest
      return n.weaken (Nat.le_of_lt hc)
    else if c.isDigit then do
      let n ← t.readNumber false (c :: rest)
      return n.weaken hc
    else if c = 'n' then (readWord ['u', 'l', 'l'] t.null rest).map (·.weaken hc)
    else if c = 't' then (readWord ['r', 'u', 'e'] (t.bool true) rest).map (·.weaken hc)
    else if c = 'f' then (readWord ['a', 'l', 's', 'e'] (t.bool false) rest).map (·.weaken hc)
    else .error (.at .expectedValue (c :: rest))

end

/-- How many lists and objects may stand around each other. -/
def maxDepth : Nat := 127

/-- A cause with its place: lines count from one, columns are the bytes since the last line
break. -/
structure SyntaxError where
  cause : Cause
  line : Nat
  column : Nat
  deriving Repr, DecidableEq

def SyntaxError.message (e : SyntaxError) : String :=
  e.cause.message ++ " at line " ++ natText e.line ++ " column " ++ natText e.column

/-- Line and column of a byte offset, counted on from a given place. -/
def placeFrom (line column : Nat) : List Char → Nat → Nat × Nat
  | [], n => (line, column + n)
  | c :: cs, n =>
    if n < c.utf8Size then (line, column + n)
    else if c = '\n' then placeFrom (line + 1) 0 cs (n - c.utf8Size)
    else placeFrom line (column + c.utf8Size) cs (n - c.utf8Size)

def Fault.locate (text : List Char) (f : Fault) : SyntaxError :=
  let (line, column) := placeFrom 1 0 text (utf8Length text - f.remaining)
  ⟨f.cause, line, column⟩

/-- What a text with one value and nothing but blanks around it becomes. -/
def readChars {κ α : Type} (t : Target κ α) (depth : Nat) (text : List Char) : Except Fault α := do
  let v ← readValue t depth text
  match skipBlanks v.rest with
  | [] => return v.value
  | rest => throw (.at .trailingCharacters rest)

def readText {κ α : Type} (t : Target κ α) (depth : Nat) (text : String) : Except SyntaxError α :=
  (readChars t depth text.toList).mapError (·.locate text.toList)

def read (text : String) : Except SyntaxError Json :=
  readText target maxDepth text

end EndpointCompiler.Json

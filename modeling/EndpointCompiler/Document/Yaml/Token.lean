/-! The tokens of YAML texts. Indentation is made explicit: a block is opened where it is indented
and closed where the indentation ends. -/

namespace EndpointCompiler.Yaml

inductive Mark where
  | openSequence | openMapping | closeBlock
  | openFlowSequence | closeFlowSequence | openFlowMapping | closeFlowMapping
  | comma | entry | key | value
  | documentStart | documentEnd
  deriving Repr, DecidableEq

/-- A tag is written with a handle, which stands for the beginning of the tag; it is empty for a
tag that is written in full. -/
inductive Token where
  | mark (m : Mark)
  | scalar (plain : Bool) (text : String)
  | anchor (name : String)
  | alias (name : String)
  | tag (handle suffix : String)
  | version (major minor : Nat)
  | tagHandle (handle start : String)
  deriving Repr, DecidableEq

inductive Error where
  | controlCharacter
  | unexpectedCharacter
  | misplacedEntry
  | misplacedKey
  | misplacedValue
  | missingColon
  | tabInIndentation
  | colonInFlow
  | unterminatedQuote
  | unknownEscape
  | malformedBlockScalar
  | malformedAnchor
  | malformedTag
  | malformedDirective
  | unexpectedToken
  | repeatedDirective
  | unsupportedVersion
  | unknownAnchor
  | unknownHandle
  | severalDocuments
  deriving Repr, DecidableEq

structure Cursor where
  rest : List Char
  index : Nat
  line : Nat
  column : Nat

/-- Line breaks: carriage return, line feed, next line, and the two separators. -/
def isBreak (c : Char) : Bool :=
  c == '\n' || c == '\r' || c.toNat == 0x85 || c.toNat == 0x2028 || c.toNat == 0x2029

def isSpace (c : Char) : Bool :=
  c == ' ' || c == '\t'

def atBlank : List Char → Bool
  | [] => true
  | c :: _ => isSpace c || isBreak c

def atLineEnd : List Char → Bool
  | [] => true
  | c :: _ => isBreak c

/-- The characters that may stand in a text: no control characters but tabs and line breaks. -/
def isAllowed (c : Char) : Bool :=
  c == '\t' || c == '\n' || c == '\r' || (' ' ≤ c && c ≤ '~') || c.toNat == 0x85 ||
    (0xA0 ≤ c.toNat && c.toNat ≤ 0xFFFD) || 0x10000 ≤ c.toNat

def isNameChar (c : Char) : Bool :=
  c.isAlphanum || c == '_' || c == '-'

def isFlowMark (c : Char) : Bool :=
  c == ',' || c == '[' || c == ']' || c == '\x7b' || c == '\x7d'

namespace Cursor

def start (text : List Char) : Cursor :=
  ⟨text, 0, 0, 0⟩

/-- Past one character, or past a carriage return with its line feed. -/
def next (c : Cursor) : Cursor :=
  match c.rest with
  | [] => c
  | '\r' :: '\n' :: rest => ⟨rest, c.index + 2, c.line + 1, 0⟩
  | d :: rest =>
    if isBreak d then ⟨rest, c.index + 1, c.line + 1, 0⟩
    else ⟨rest, c.index + 1, c.line, c.column + 1⟩

/-- The break at a place, where all but the separators count as line feeds. -/
def lineBreak (c : Cursor) : Char :=
  match c.rest with
  | d :: _ => if d.toNat == 0x2028 || d.toNat == 0x2029 then d else '\n'
  | [] => '\n'

def skip (p : Char → Bool) (c : Cursor) : Cursor :=
  let taken := (c.rest.takeWhile p).length
  ⟨c.rest.drop taken, c.index + taken, c.line, c.column + taken⟩

def skipComment (c : Cursor) : Cursor :=
  let c := c.skip isSpace
  if c.rest.head? = some '#' then c.skip (!isBreak ·) else c

/-- Whether three equal characters stand alone at the start of a line. -/
def atDocumentMark (d : Char) (c : Cursor) : Bool :=
  c.column == 0 && [d, d, d].isPrefixOf c.rest && atBlank (c.rest.drop 3)

def atAnyDocumentMark (c : Cursor) : Bool :=
  c.atDocumentMark '-' || c.atDocumentMark '.'

end Cursor

end EndpointCompiler.Yaml

import EndpointCompiler.Document.Yaml.BlockScalar
import EndpointCompiler.Document.Yaml.Property
import EndpointCompiler.Document.Yaml.Scalar

/-! Splitting YAML texts into tokens. A scalar or a bracketed collection may turn out to be a key by
the colon after it; until then its place is remembered. -/

namespace EndpointCompiler.Yaml

/-- A place where a key may have begun. It has to be one if nothing else could stand there. -/
structure PendingKey where
  required : Bool
  position : Nat
  index : Nat
  line : Nat
  column : Nat

/-- The tokens so far, the indentation of the open blocks, and the pending keys: that of the block
last, before it one for each open bracket. -/
structure Scanner where
  cursor : Cursor
  tokens : Array Token
  indent : Int
  outerIndents : List Int
  keyAllowed : Bool
  key : Option PendingKey
  outerKeys : List (Option PendingKey)

namespace Scanner

def start (text : List Char) : Scanner :=
  ⟨.start text, #[], -1, [], true, none, []⟩

def inFlow (s : Scanner) : Bool :=
  !s.outerKeys.isEmpty

def push (s : Scanner) (m : Mark) : Scanner :=
  { s with tokens := s.tokens.push (.mark m) }

def insert (s : Scanner) (position : Nat) (m : Mark) : Scanner :=
  { s with
    tokens :=
      s.tokens.extract 0 position ++ #[.mark m] ++ s.tokens.extract position s.tokens.size }

/-- Skips to the next token. Tabs do not indent, and comments run to the end of their line. A byte
order mark may begin a line and takes up a column. -/
def skipBlanks : Nat → Scanner → Scanner
  | 0, s => s
  | fuel + 1, s =>
    match s.cursor.rest with
    | [] => s
    | c :: _ =>
      if c = ' ' ∨ (c = '\t' ∧ (s.inFlow ∨ !s.keyAllowed)) ∨
          (c = '\uFEFF' ∧ s.cursor.column = 0) then
        skipBlanks fuel { s with cursor := s.cursor.next }
      else if c = '#' then skipBlanks fuel { s with cursor := s.cursor.skip (!isBreak ·) }
      else if isBreak c then
        skipBlanks fuel { s with cursor := s.cursor.next, keyAllowed := s.keyAllowed || !s.inFlow }
      else s

/-- A key lies on one line, within 1024 characters. -/
def isStale (c : Cursor) (k : PendingKey) : Bool :=
  k.line < c.line || k.index + 1024 < c.index

def dropStale (c : Cursor) (key : Option PendingKey) : Except Error (Option PendingKey) :=
  match key with
  | none => .ok none
  | some k =>
    if isStale c k then (if k.required then .error .missingColon else .ok none) else .ok (some k)

def dropStaleKeys (s : Scanner) : Except Error Scanner := do
  return { s with
    key := ← dropStale s.cursor s.key
    outerKeys := ← s.outerKeys.mapM (dropStale s.cursor) }

/-- Closes the blocks that are indented more than a column. -/
def closeBlocks (column : Int) (s : Scanner) : Scanner :=
  if s.inFlow then s
  else
    let closed := (s.indent :: s.outerIndents).takeWhile (column < ·)
    match (s.indent :: s.outerIndents).drop closed.length with
    | indent :: outer =>
      { s with
        indent
        outerIndents := outer
        tokens := s.tokens ++ (closed.map fun _ => Token.mark .closeBlock).toArray }
    | [] => s

/-- Opens a block before the token at a position, unless one is open with that indentation. -/
def openBlock (column : Nat) (position : Nat) (m : Mark) (s : Scanner) : Scanner :=
  if s.inFlow ∨ (column : Int) ≤ s.indent then s
  else { s.insert position m with indent := column, outerIndents := s.indent :: s.outerIndents }

def dropKey (s : Scanner) : Except Error Scanner :=
  match s.key with
  | some k => if k.required then .error .missingColon else .ok { s with key := none }
  | none => .ok s

def saveKey (s : Scanner) : Except Error Scanner :=
  if s.keyAllowed then do
    let s ← s.dropKey
    let c := s.cursor
    let required := !s.inFlow && s.indent == c.column
    return { s with key := some ⟨required, s.tokens.size, c.index, c.line, c.column⟩ }
  else .ok s

def take (s : Scanner) (width : Nat) (m : Mark) : Scanner :=
  { s.push m with cursor := width.repeat Cursor.next s.cursor }

def openFlow (s : Scanner) (m : Mark) : Except Error Scanner := do
  let s ← s.saveKey
  return { s.take 1 m with keyAllowed := true, key := none, outerKeys := s.key :: s.outerKeys }

def closeFlow (s : Scanner) (m : Mark) : Except Error Scanner := do
  let s ← s.dropKey
  let s := { s.take 1 m with keyAllowed := false }
  match s.outerKeys with
  | [] => return s
  | key :: outer => return { s with key, outerKeys := outer }

def documentMark (s : Scanner) (m : Mark) : Except Error Scanner := do
  let s ← (s.closeBlocks (-1)).dropKey
  return { s.take 3 m with keyAllowed := false }

def entry (s : Scanner) : Except Error Scanner := do
  if !s.inFlow ∧ !s.keyAllowed then throw .misplacedEntry
  let s ← (s.openBlock s.cursor.column s.tokens.size .openSequence).dropKey
  return { s.take 1 .entry with keyAllowed := true }

def explicitKey (s : Scanner) : Except Error Scanner := do
  if !s.inFlow ∧ !s.keyAllowed then throw .misplacedKey
  let s ← (s.openBlock s.cursor.column s.tokens.size .openMapping).dropKey
  return { s.take 1 .key with keyAllowed := !s.inFlow }

def add (s : Scanner) (t : Token) (cursor : Cursor) : Scanner :=
  { s with cursor, tokens := s.tokens.push t }

def directive (s : Scanner) : Except Error Scanner := do
  let s ← (s.closeBlocks (-1)).dropKey
  let (t, cursor) ← Yaml.directive s.cursor.next
  return { s.add t cursor with keyAllowed := false }

def reference (s : Scanner) (token : String → Token) : Except Error Scanner := do
  let s ← s.saveKey
  let (name, cursor) ← anchorName s.cursor.next
  return { s.add (token name) cursor with keyAllowed := false }

def tag (s : Scanner) : Except Error Scanner := do
  let s ← s.saveKey
  let (t, cursor) ← readTag s.inFlow s.cursor
  return { s.add t cursor with keyAllowed := false }

def block (fuel : Nat) (folding : Bool) (s : Scanner) : Except Error Scanner := do
  let s ← s.dropKey
  let (text, cursor) ← blockScalar folding s.indent fuel s.cursor.next
  return { s.add (.scalar false text) cursor with keyAllowed := true }

/-- A colon makes the pending key one. -/
def value (s : Scanner) : Except Error Scanner :=
  match s.key with
  | some k =>
    let s := (s.insert k.position .key).openBlock k.column k.position .openMapping
    .ok { s.take 1 .value with key := none, keyAllowed := false }
  | none =>
    if !s.inFlow ∧ !s.keyAllowed then .error .misplacedValue
    else
      let s := s.openBlock s.cursor.column s.tokens.size .openMapping
      .ok { s.take 1 .value with keyAllowed := !s.inFlow }

def plain (fuel : Nat) (s : Scanner) : Except Error Scanner := do
  let s ← s.saveKey
  let (t, cursor) ← plainScalar s.inFlow (s.indent + 1) fuel .empty s.cursor
  return { s.add (.scalar true t.finish) cursor with keyAllowed := t.folded }

def quoted (fuel : Nat) (read : Nat → ScalarText → Cursor → Except Error (ScalarText × Cursor))
    (s : Scanner) : Except Error Scanner := do
  let s ← s.saveKey
  let (t, cursor) ← read fuel .empty s.cursor.next
  return { s.add (.scalar false t.finish) cursor with keyAllowed := false }

/-- Whether a character may begin a plain scalar, by what follows it. -/
def beginsPlain (inFlow : Bool) (c : Char) (rest : List Char) : Bool :=
  if c = '-' then !rest.head?.any isSpace
  else if c = '?' ∨ c = ':' then !inFlow && !atBlank rest
  else !("-?:,[]\x7b\x7d#&*!|>'\"%@`".toList.contains c || isSpace c || isBreak c)

def step (fuel : Nat) (s : Scanner) (c : Char) (rest : List Char) : Except Error Scanner :=
  if c = '%' ∧ s.cursor.column = 0 then s.directive
  else if s.cursor.atDocumentMark '-' then s.documentMark .documentStart
  else if s.cursor.atDocumentMark '.' then s.documentMark .documentEnd
  else if c = '[' then s.openFlow .openFlowSequence
  else if c = '\x7b' then s.openFlow .openFlowMapping
  else if c = ']' then s.closeFlow .closeFlowSequence
  else if c = '\x7d' then s.closeFlow .closeFlowMapping
  else if c = ',' then do
    let s ← s.dropKey
    return { s.take 1 .comma with keyAllowed := true }
  else if c = '-' ∧ atBlank rest then s.entry
  else if c = '?' ∧ (s.inFlow ∨ atBlank rest) then s.explicitKey
  else if c = ':' ∧ (s.inFlow ∨ atBlank rest) then s.value
  else if c = '*' then s.reference .alias
  else if c = '&' then s.reference .anchor
  else if c = '!' then s.tag
  else if c = '|' ∧ !s.inFlow then s.block fuel false
  else if c = '>' ∧ !s.inFlow then s.block fuel true
  else if c = '\'' then s.quoted fuel singleQuoted
  else if c = '"' then s.quoted fuel doubleQuoted
  else if beginsPlain s.inFlow c rest then s.plain fuel
  else .error .unexpectedCharacter

def run (fuel : Nat) : Nat → Scanner → Except Error Scanner
  | 0, s => .ok s
  | steps + 1, s => do
    let s ← (s.skipBlanks fuel).dropStaleKeys
    match s.cursor.rest with
    | [] => (s.closeBlocks (-1)).dropKey
    | c :: rest => run fuel steps (← (s.closeBlocks s.cursor.column).step fuel c rest)

end Scanner

/-- The tokens of a text. Each step takes a character at least. -/
def tokenize (text : String) : Except Error (List Token) := do
  let cs := text.toList
  if !cs.all isAllowed then throw .controlCharacter
  let s ← (Scanner.start cs).run (cs.length + 1) (cs.length + 1)
  return s.tokens.toList

end EndpointCompiler.Yaml

import EndpointCompiler.Document.Yaml.Token
import EndpointCompiler.Json.Reader

/-! The scalars of YAML texts. A line break inside one is a space, unless empty lines follow, which
then stay as line breaks; spaces around breaks are dropped. -/

namespace EndpointCompiler.Yaml

/-- The text of a scalar so far, in reverse, and the blanks after it: spaces, or the first line
break and those after it. -/
structure ScalarText where
  text : List Char
  spaces : List Char
  firstBreak : Option Char
  moreBreaks : List Char
  folded : Bool

namespace ScalarText

def empty : ScalarText :=
  ⟨[], [], none, [], false⟩

def joined (t : ScalarText) : List Char :=
  if t.folded then
    match t.firstBreak, t.moreBreaks with
    | some '\n', [] => ' ' :: t.text
    | some '\n', more => more ++ t.text
    | first, more => more ++ first.toList ++ t.text
  else t.spaces ++ t.text

def push (t : ScalarText) (c : Char) : ScalarText :=
  { empty with text := c :: t.joined }

/-- A space, which does not count after a line break. -/
def pushSpace (t : ScalarText) (c : Char) : ScalarText :=
  if t.folded then t else { t with spaces := c :: t.spaces }

def pushBreak (t : ScalarText) (c : Char) : ScalarText :=
  if t.folded then { t with moreBreaks := c :: t.moreBreaks }
  else { t with spaces := [], firstBreak := some c, folded := true }

/-- A line break that is escaped, and so no part of the text. -/
def escapeBreak (t : ScalarText) : ScalarText :=
  { empty with text := t.joined, folded := true }

def finish (t : ScalarText) : String :=
  String.ofList t.text.reverse

end ScalarText

/-- A plain scalar from a place on. In a block it goes on over lines that are indented more than
the block. The cursor is left after the blanks that follow it. -/
def plainScalar (inFlow : Bool) (indent : Int) : Nat → ScalarText → Cursor →
    Except Error (ScalarText × Cursor)
  | 0, t, c => .ok (t, c)
  | fuel + 1, t, c =>
    let blanksBefore := t.folded || !t.spaces.isEmpty || t.text.isEmpty
    match c.rest with
    | [] => .ok (t, c)
    | d :: rest =>
      if isSpace d then
        if t.folded ∧ c.column < indent ∧ d = '\t' then .error .tabInIndentation
        else plainScalar inFlow indent fuel (t.pushSpace d) c.next
      else if isBreak d then plainScalar inFlow indent fuel (t.pushBreak c.lineBreak) c.next
      else if t.folded ∧ !inFlow ∧ c.column < indent then .ok (t, c)
      else if blanksBefore ∧ (d = '#' ∨ c.atAnyDocumentMark) then .ok (t, c)
      else if inFlow ∧ d = ':' ∧ rest.head?.any (fun e => isFlowMark e || e == '?') then
        .error .colonInFlow
      else if (d = ':' ∧ atBlank rest) ∨ (inFlow ∧ isFlowMark d) then .ok (t, c)
      else plainScalar inFlow indent fuel (t.push d) c.next

/-- A scalar in single quotes, after the first; two quotes stand for one. -/
def singleQuoted : Nat → ScalarText → Cursor → Except Error (ScalarText × Cursor)
  | 0, _, _ => .error .unterminatedQuote
  | fuel + 1, t, c =>
    match c.rest with
    | [] => .error .unterminatedQuote
    | d :: rest =>
      if c.atAnyDocumentMark then .error .unterminatedQuote
      else if isSpace d then singleQuoted fuel (t.pushSpace d) c.next
      else if isBreak d then singleQuoted fuel (t.pushBreak c.lineBreak) c.next
      else if d = '\'' then
        if rest.head? = some '\'' then singleQuoted fuel (t.push '\'') c.next.next
        else .ok ({ ScalarText.empty with text := t.joined }, c.next)
      else singleQuoted fuel (t.push d) c.next

def simpleEscape? (c : Char) : Option Char :=
  match c with
  | '0' => some '\x00'
  | 'a' => some '\x07'
  | 'b' => some '\x08'
  | 't' | '\t' => some '\t'
  | 'n' => some '\n'
  | 'v' => some '\x0b'
  | 'f' => some '\x0c'
  | 'r' => some '\r'
  | 'e' => some '\x1b'
  | ' ' => some ' '
  | '"' => some '"'
  | '/' => some '/'
  | '\\' => some '\\'
  | 'N' => some '\u0085'
  | '_' => some '\u00a0'
  | 'L' => some '\u2028'
  | 'P' => some '\u2029'
  | _ => none

def escapeWidth? (c : Char) : Option Nat :=
  if c = 'x' then some 2 else if c = 'u' then some 4 else if c = 'U' then some 8 else none

def escape? : List Char → Option (Char × Nat)
  | [] => none
  | c :: rest =>
    match simpleEscape? c with
    | some d => some (d, 1)
    | none =>
      (escapeWidth? c).bind fun width =>
        if rest.length < width then none
        else (Json.hexNumber? (rest.take width)).bind fun n =>
          if n.isValidChar then some (Char.ofNat n, 1 + width) else none

def doubleQuoted : Nat → ScalarText → Cursor → Except Error (ScalarText × Cursor)
  | 0, _, _ => .error .unterminatedQuote
  | fuel + 1, t, c =>
    match c.rest with
    | [] => .error .unterminatedQuote
    | d :: rest =>
      if c.atAnyDocumentMark then .error .unterminatedQuote
      else if isSpace d then doubleQuoted fuel (t.pushSpace d) c.next
      else if isBreak d then doubleQuoted fuel (t.pushBreak c.lineBreak) c.next
      else if d = '"' then .ok ({ ScalarText.empty with text := t.joined }, c.next)
      else if d = '\\' then
        if rest.head?.any isBreak then doubleQuoted fuel t.escapeBreak c.next.next
        else match escape? rest with
          | some (e, n) =>
            doubleQuoted fuel (t.push e)
              ⟨rest.drop n, c.index + 1 + n, c.line, c.column + 1 + n⟩
          | none => .error .unknownEscape
      else doubleQuoted fuel (t.push d) c.next

end EndpointCompiler.Yaml

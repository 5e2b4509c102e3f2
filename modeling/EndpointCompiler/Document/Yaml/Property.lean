import EndpointCompiler.Document.Yaml.Token
import EndpointCompiler.Text.Percent

/-! What may stand before a value: an anchor, by which the value is referred to again, and a tag,
which tells its kind. And what may stand before a document: directives on lines of their own. -/

namespace EndpointCompiler.Yaml

namespace Cursor

def advance (c : Cursor) (n : Nat) : Cursor :=
  ⟨c.rest.drop n, c.index + n, c.line, c.column + n⟩

def span (p : Char → Bool) (c : Cursor) : List Char × Cursor :=
  let taken := c.rest.takeWhile p
  (taken, c.advance taken.length)

end Cursor

def anchorName (c : Cursor) : Except Error (String × Cursor) :=
  let (name, c) := c.span isNameChar
  let closed := atBlank c.rest || c.rest.head?.any ("?:,]\x7d%@`".toList.contains ·)
  if name = [] ∨ !closed then .error .malformedAnchor else .ok (String.ofList name, c)

/-- The characters of a tag. One that is written in full may hold brackets and commas. -/
def isTagChar (full : Bool) (c : Char) : Bool :=
  isNameChar c || ";/?:@&=+$.%!~*'()".toList.contains c || (full && ",[]".toList.contains c)

def wellEscaped : List Char → Bool
  | [] => true
  | '%' :: a :: b :: cs => (hexByte? a.toNat).isSome && (hexByte? b.toNat).isSome && wellEscaped cs
  | c :: cs => c != '%' && wellEscaped cs

def tagText (written : List Char) : Except Error String :=
  if wellEscaped written then
    match Utf8.decode? (percentDecode (Utf8.encode written)) with
    | some cs => .ok (String.ofList cs)
    | none => .error .malformedTag
  else .error .malformedTag

/-- A handle with its exclamation marks; the second one may be missing. -/
def handle (c : Cursor) : Except Error (List Char × Cursor) :=
  match c.rest with
  | '!' :: _ =>
    let (name, c) := (c.advance 1).span isNameChar
    match c.rest with
    | '!' :: _ => .ok ('!' :: name ++ ['!'], c.advance 1)
    | _ => .ok ('!' :: name, c)
  | _ => .error .malformedTag

/-- A tag in full between angle brackets, after the exclamation mark. -/
def fullTag (c : Cursor) : Except Error (Token × Cursor) := do
  let (written, c) := (c.advance 1).span (isTagChar true)
  if written = [] ∨ c.rest.head? ≠ some '>' then throw .malformedTag
  return (.tag "" (← tagText written), c.advance 1)

/-- A tag with a handle. The first mark alone is a handle too, and a tag if nothing follows. -/
def handledTag (c : Cursor) : Except Error (Token × Cursor) := do
  let (start, c) ← handle c
  let (written, c) := c.span (isTagChar false)
  if start.length > 1 ∧ start.getLast? = some '!' then
    if written = [] then throw .malformedTag
    return (.tag (String.ofList start) (← tagText written), c)
  else
    let suffix := start.drop 1 ++ written
    if suffix = [] then return (.tag "" "!", c)
    return (.tag "!" (← tagText suffix), c)

def readTag (inFlow : Bool) (c : Cursor) : Except Error (Token × Cursor) := do
  let (tag, c) ← match c.rest with
    | '!' :: '<' :: _ => fullTag (c.advance 1)
    | _ => handledTag c
  if atBlank c.rest ∨ (inFlow ∧ c.rest.head? = some ',') then return (tag, c)
  throw .malformedTag

/-- A part of a version: up to nine digits. -/
def versionPart (c : Cursor) : Except Error (Nat × Cursor) :=
  let (digits, c) := c.span Char.isDigit
  if digits = [] ∨ 9 < digits.length then .error .malformedDirective
  else .ok (digits.foldl (fun n d => 10 * n + (d.toNat - 48)) 0, c)

def version (c : Cursor) : Except Error (Token × Cursor) := do
  let (major, c) ← versionPart c
  if c.rest.head? ≠ some '.' then throw .malformedDirective
  let (minor, c) ← versionPart (c.advance 1)
  return (.version major minor, c)

def tagHandle (c : Cursor) : Except Error (Token × Cursor) := do
  let (name, c) ← handle c
  if (name.length > 1 ∧ name.getLast? ≠ some '!') ∨ !c.rest.head?.any isSpace then
    throw .malformedDirective
  let (written, c) := (c.skip isSpace).span (isTagChar true)
  if written = [] ∨ !atBlank c.rest then throw .malformedDirective
  return (.tagHandle (String.ofList name) (← tagText written), c)

def directive (c : Cursor) : Except Error (Token × Cursor) := do
  let (name, c) := c.span isNameChar
  if !atBlank c.rest then throw .malformedDirective
  let c := c.skip isSpace
  let (token, c) ←
    if name = "YAML".toList then version c
    else if name = "TAG".toList then tagHandle c
    else throw .malformedDirective
  let c := c.skipComment
  if atLineEnd c.rest then return (token, c.next) else throw .malformedDirective

end EndpointCompiler.Yaml

import EndpointCompiler.Document.Yaml.Token

/-! Scalars whose lines stand in a block of their own, below a bar or an angle bracket. Their
indentation is no part of them. After a bar all line breaks stay; after an angle bracket a break
between two lines that begin with no blank is a space, unless empty lines follow. -/

namespace EndpointCompiler.Yaml

/-- What becomes of the line breaks at the end: none stays, the first, or all. -/
inductive Chomping where
  | strip | clip | keep
  deriving Repr, DecidableEq

/-- What is written after the bar or the angle bracket: how line breaks at the end are treated, and
how many columns deeper than the block around it the scalar is indented, if that is given. -/
structure BlockHeader where
  chomping : Chomping
  deeper : Option Nat
  deriving Repr, DecidableEq

namespace BlockHeader

def chomping? : List Char → Option (Chomping × List Char)
  | '+' :: cs => some (.keep, cs)
  | '-' :: cs => some (.strip, cs)
  | _ => none

def deeper? : List Char → Except Error (Option Nat × List Char)
  | [] => .ok (none, [])
  | c :: cs =>
    if c = '0' then .error .malformedBlockScalar
    else if c.isDigit then .ok (some (c.toNat - 48), cs)
    else .ok (none, c :: cs)

/-- The two parts may be given in either order. -/
def read (cs : List Char) : Except Error (BlockHeader × List Char) :=
  match chomping? cs with
  | some (chomping, cs) => do
    let (deeper, cs) ← deeper? cs
    return (⟨chomping, deeper⟩, cs)
  | none => do
    let (deeper, cs) ← deeper? cs
    if deeper.isNone then return (⟨.clip, none⟩, cs)
    let (chomping, cs) := (chomping? cs).getD (.clip, cs)
    return (⟨chomping, deeper⟩, cs)

end BlockHeader

/-- The text of the lines so far, in reverse, and the line breaks after it. -/
structure BlockText where
  text : List Char
  firstBreak : Option Char
  moreBreaks : List Char
  /-- Whether the last line begins with a blank. -/
  leadingBlank : Bool

def BlockText.addLine (folding : Bool) (t : BlockText) (line : List Char) : List Char :=
  let blank := line.head?.any isSpace
  let joined :=
    if folding ∧ t.firstBreak = some '\n' ∧ !t.leadingBlank ∧ !blank then
      if t.moreBreaks = [] then ' ' :: t.text else t.text
    else t.firstBreak.toList ++ t.text
  line.reverse ++ (t.moreBreaks ++ joined)

def BlockText.finish (t : BlockText) (chomping : Chomping) : String :=
  let first := t.firstBreak.toList ++ t.text
  String.ofList <| List.reverse <|
    match chomping with
    | .strip => t.text
    | .clip => first
    | .keep => t.moreBreaks ++ first

def skipIndent (indent : Option Nat) (c : Cursor) : Cursor :=
  let spaces := (c.rest.takeWhile (· == ' ')).length
  let taken := match indent with
    | some n => min spaces (n - c.column)
    | none => spaces
  ⟨c.rest.drop taken, c.index + taken, c.line, c.column + taken⟩

/-- Empty lines, as their line breaks in reverse, and the greatest column in their indentation or
that of the line after them. -/
def emptyLines (indent : Option Nat) : Nat → Nat → List Char → Cursor →
    Except Error (Nat × List Char × Cursor)
  | 0, widest, breaks, c => .ok (widest, breaks, c)
  | fuel + 1, widest, breaks, c =>
    let c := skipIndent indent c
    let widest := max widest c.column
    match c.rest with
    | [] => .ok (widest, breaks, c)
    | d :: _ =>
      if d = '\t' ∧ indent.all (c.column < ·) then .error .tabInIndentation
      else if isBreak d then emptyLines indent fuel widest (c.lineBreak :: breaks) c.next
      else .ok (widest, breaks, c)

def blockLines (folding : Bool) (indent : Nat) : Nat → BlockText → Cursor →
    Except Error (BlockText × Cursor)
  | 0, t, c => .ok (t, c)
  | fuel + 1, t, c =>
    if c.column ≠ indent ∨ c.rest = [] then .ok (t, c)
    else do
      let line := c.rest.takeWhile (!isBreak ·)
      let text := t.addLine folding line
      let c := c.skip (!isBreak ·)
      let firstBreak := if c.rest = [] then none else some c.lineBreak
      let (_, moreBreaks, c) ← emptyLines (some indent) fuel 0 [] c.next
      blockLines folding indent fuel ⟨text, firstBreak, moreBreaks, line.head?.any isSpace⟩ c

/-- A scalar in a block, after the bar or the angle bracket. If it is not told how deep it is
indented, the first line that is not empty shows it. -/
def blockScalar (folding : Bool) (outer : Int) (fuel : Nat) (c : Cursor) :
    Except Error (String × Cursor) := do
  let (header, rest) ← BlockHeader.read c.rest
  let taken := c.rest.length - rest.length
  let c := Cursor.skipComment ⟨rest, c.index + taken, c.line, c.column + taken⟩
  unless atLineEnd c.rest do throw .malformedBlockScalar
  let given := header.deeper.map fun n => (max outer 0).toNat + n
  let (widest, breaks, c) ← emptyLines given fuel 0 [] c.next
  let indent := given.getD (max widest (max (outer + 1) 1).toNat)
  let (t, c) ← blockLines folding indent fuel ⟨[], none, breaks, false⟩ c
  return (t.finish header.chomping, c)

end EndpointCompiler.Yaml

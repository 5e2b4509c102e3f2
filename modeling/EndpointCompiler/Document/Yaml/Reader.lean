import EndpointCompiler.Document.Basic
import EndpointCompiler.Document.Yaml.Scanner

/-! Reading documents from YAML texts. What is left out where a value may stand is an empty plain
scalar. An alias stands for a copy of what its anchor marks. -/

namespace EndpointCompiler.Yaml

/-- A value that an anchor marks, by the number of the anchor. While the value is being read it
cannot be read by its alias. -/
structure Anchored where
  number : Nat
  name : String
  value : Document

/-- What remains to be read, the anchors so far, the last one first, and the handles of tags. -/
structure Progress where
  tokens : List Token
  anchors : List Anchored
  handles : List (String × String)

abbrev Reading := StateT Progress (Except Error)

namespace Reading

def fail {α : Type} (e : Error) : Reading α :=
  throw e

def peek : Reading (Option Token) := do
  return (← get).tokens.head?

def skip : Reading Unit :=
  modify fun p => { p with tokens := p.tokens.tail }

def nextIs (m : Mark) : Reading Bool := do
  return (← peek) == some (.mark m)

def nextIsAny (marks : List Mark) : Reading Bool := do
  match ← peek with
  | some (.mark m) => return marks.contains m
  | _ => return false

def skipIf (m : Mark) : Reading Bool := do
  if ← nextIs m then
    skip
    return true
  else return false

def require (m : Mark) : Reading Unit := do
  unless ← skipIf m do fail .unexpectedToken

def resolveTag (handle suffix : String) : Reading String := do
  if handle = "" then return suffix
  match (← get).handles.lookup handle with
  | some start => return start ++ suffix
  | none => fail .unknownHandle

def takeAnchor : Reading (Option String) := do
  match ← peek with
  | some (.anchor name) =>
    skip
    return some name
  | _ => return none

def takeTag : Reading (Option String) := do
  match ← peek with
  | some (.tag handle suffix) =>
    skip
    return some (← resolveTag handle suffix)
  | _ => return none

/-- An anchor and a tag in either order, both of which may be missing. -/
def properties : Reading (Option String × Option String) := do
  match ← takeAnchor with
  | some name => return (some name, ← takeTag)
  | none =>
    let tag ← takeTag
    if tag.isSome then return (← takeAnchor, tag) else return (none, none)

def openAnchor (name : String) : Reading Nat := do
  let number := (← get).anchors.length
  modify fun p => { p with anchors := ⟨number, name, .unreadable⟩ :: p.anchors }
  return number

def closeAnchor (number : Nat) (value : Document) : Reading Unit :=
  modify fun p =>
    { p with anchors := p.anchors.map fun a => if a.number = number then { a with value } else a }

def aliased (name : String) : Reading Document := do
  match (← get).anchors.find? (·.name == name) with
  | some a => return a.value
  | none => fail .unknownAnchor

end Reading

open Reading

def nothing : Document := .plain ""

def withTag (tag : Option String) (d : Document) : Document :=
  match tag with
  | some tag => .tagged tag d
  | none => d

mutual

def node (fuel : Nat) (unindented : Bool) : Reading Document :=
  match fuel with
  | 0 => fail .unexpectedToken
  | fuel + 1 => do
    if let some (.alias name) ← peek then
      skip
      return ← aliased name
    match ← properties with
    | (none, tag) => content fuel unindented tag.isSome tag
    | (some name, tag) =>
      let number ← openAnchor name
      let d ← content fuel unindented true tag
      closeAnchor number d
      return d

/-- A value with a tag, by its first token. A sequence in a mapping need not be indented. A tag that
is only an exclamation mark says nothing about a scalar. -/
def content (fuel : Nat) (unindented optional : Bool) (tag : Option String) : Reading Document :=
  match fuel with
  | 0 => fail .unexpectedToken
  | fuel + 1 => do
    match ← peek with
    | some (.scalar plain s) =>
      skip
      return withTag (tag.filter (· ≠ "!")) (if plain then .plain s else .text s)
    | some (.mark .openFlowSequence) =>
      skip
      return withTag tag (.list false (← flowItems fuel true))
    | some (.mark .openFlowMapping) =>
      skip
      return withTag tag (.map (← flowFields fuel true))
    | some (.mark .openSequence) =>
      skip
      let items ← blockItems fuel [.entry, .closeBlock]
      require .closeBlock
      return withTag tag (.list false items)
    | some (.mark .openMapping) =>
      skip
      let fields ← blockFields fuel
      require .closeBlock
      return withTag tag (.map fields)
    | token =>
      if unindented ∧ token = some (.mark .entry) then
        return withTag tag (.list false (← blockItems fuel [.entry, .key, .value, .closeBlock]))
      else if optional then return withTag tag nothing
      else fail .unexpectedToken

def optionalNode (fuel : Nat) (unindented : Bool) (ends : List Mark) : Reading Document :=
  match fuel with
  | 0 => fail .unexpectedToken
  | fuel + 1 => do
    if ← nextIsAny ends then return nothing else node fuel unindented

def blockItems (fuel : Nat) (ends : List Mark) : Reading (List Document) :=
  match fuel with
  | 0 => fail .unexpectedToken
  | fuel + 1 => do
    if ← skipIf .entry then
      let item ← optionalNode fuel false ends
      return item :: (← blockItems fuel ends)
    else return []

def fieldValue (fuel : Nat) (unindented : Bool) (ends : List Mark) : Reading Document :=
  match fuel with
  | 0 => fail .unexpectedToken
  | fuel + 1 => do
    if ← skipIf .value then optionalNode fuel unindented ends else return nothing

def blockFields (fuel : Nat) : Reading (List (Document × Document)) :=
  match fuel with
  | 0 => fail .unexpectedToken
  | fuel + 1 => do
    let ends := [.key, .value, .closeBlock]
    if ← skipIf .key then
      let key ← optionalNode fuel true ends
      let value ← fieldValue fuel true ends
      return (key, value) :: (← blockFields fuel)
    else return []

def flowItems (fuel : Nat) (first : Bool) : Reading (List Document) :=
  match fuel with
  | 0 => fail .unexpectedToken
  | fuel + 1 => do
    if ← skipIf .closeFlowSequence then return []
    unless first do require .comma
    if ← skipIf .closeFlowSequence then return []
    let item ← if ← skipIf .key then pair fuel else node fuel false
    return item :: (← flowItems fuel false)

/-- A mapping with a single field, as an item of a sequence in brackets. If the key is left out, the
mark in its place is passed over. -/
def pair (fuel : Nat) : Reading Document :=
  match fuel with
  | 0 => fail .unexpectedToken
  | fuel + 1 => do
    let missing ← nextIsAny [.value, .comma, .closeFlowSequence]
    let key ← if missing then (do skip; return nothing) else node fuel false
    let value ← fieldValue fuel false [.comma, .closeFlowSequence]
    return .map [(key, value)]

/-- The fields of a mapping in braces, after the opening one or a field. A key may stand without a
value. -/
def flowFields (fuel : Nat) (first : Bool) : Reading (List (Document × Document)) :=
  match fuel with
  | 0 => fail .unexpectedToken
  | fuel + 1 => do
    if ← skipIf .closeFlowMapping then return []
    unless first do require .comma
    if ← skipIf .closeFlowMapping then return []
    let field ←
      if ← skipIf .key then do
        let key ← optionalNode fuel false [.value, .comma, .closeFlowMapping]
        let value ← fieldValue fuel false [.comma, .closeFlowMapping]
        pure (key, value)
      else do
        let key ← node fuel false
        pure (key, nothing)
    return field :: (← flowFields fuel false)

end

def standardHandles : List (String × String) :=
  [("!", "!"), ("!!", "tag:yaml.org,2002:")]

/-- The directives before a document. Each may be given once, and handles once each. -/
def directives (versionKnown : Bool) (handles : List (String × String)) :
    List Token → Except Error (List (String × String) × List Token)
  | .version major minor :: ts =>
    if versionKnown then .error .repeatedDirective
    else if major = 1 ∧ (minor = 1 ∨ minor = 2) then directives true handles ts
    else .error .unsupportedVersion
  | .tagHandle handle start :: ts =>
    if handles.any (·.1 == handle) then .error .repeatedDirective
    else directives versionKnown (handles ++ [(handle, start)]) ts
  | ts => .ok (handles ++ standardHandles, ts)

def endsContent : Option Token → Bool
  | none => true
  | some (.mark .documentStart) | some (.mark .documentEnd) => true
  | some (.version ..) | some (.tagHandle ..) => true
  | _ => false

/-- The content of a document, which may be left out after a mark for its start. -/
def body (handles : List (String × String)) (started : Bool) (ts : List Token) :
    Except Error (Document × List Token) :=
  if started ∧ endsContent ts.head? then .ok (nothing, ts)
  else do
    let (d, p) ← (node (4 * ts.length + 4) false).run ⟨ts, [], handles⟩
    return (d, p.tokens)

def read (text : String) : Except Error Document := do
  let ts ← tokenize text
  if ts = [] then return nothing
  let (handles, rest) ← directives false [] ts
  let (d, rest) ← match rest with
    | .mark .documentStart :: rest => body handles true rest
    | rest => if rest.length < ts.length then throw .unexpectedToken else body handles false rest
  if rest.all (· == .mark .documentEnd) then return d
  if rest.head? = some (.mark .documentStart) then throw .severalDocuments
  throw .unexpectedToken

end EndpointCompiler.Yaml

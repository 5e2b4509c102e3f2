import EndpointCompiler.Text.Identifier
import EndpointCompiler.Text.WhiteSpace

/-! Route templates. A placeholder is a word in braces; templates that are accepted begin with a
slash, hold no quotes, backslashes or white space, and no other braces or repeated names. -/

namespace EndpointCompiler

/-- A route is read as placeholders and single characters. -/
inductive RoutePiece where
  | char (c : Char)
  | placeholder (name : String)
  deriving Repr, DecidableEq

namespace Route

/-- A word and its closing brace, after an opening brace: the word and what follows. -/
def placeholder? (cs : List Char) : Option (List Char × List Char) :=
  let word := cs.takeWhile isIdentContinue
  match cs.dropWhile isIdentContinue with
  | [] => none
  | c :: rest => if c = '\x7d' ∧ isWord word then some (word, rest) else none

theorem placeholder?_rest_lt {cs word rest : List Char} (h : placeholder? cs = some (word, rest)) :
    rest.length < cs.length := by
  simp only [placeholder?] at h
  have := (List.dropWhile_sublist isIdentContinue (l := cs)).length_le
  split at h
  · cases h
  · rename_i c tail hd
    split at h
    · cases h
      rw [hd] at this
      exact this
    · cases h

/-- The pieces of a route from left to right. A brace that begins no placeholder is a
character. -/
def pieces (cs : List Char) : List RoutePiece :=
  match cs with
  | [] => []
  | c :: cs =>
    if c = '\x7b' then
      match _h : placeholder? cs with
      | some (word, rest) => .placeholder (String.ofList word) :: pieces rest
      | none => .char c :: pieces cs
    else .char c :: pieces cs
termination_by cs.length
decreasing_by
  · exact Nat.lt_succ_of_lt (placeholder?_rest_lt _h)
  · exact Nat.lt_succ_self _
  · exact Nat.lt_succ_self _

def placeholders (route : String) : List String :=
  (pieces route.toList).filterMap fun
    | .placeholder name => some name
    | .char _ => none

inductive Fault where
  | noLeadingSlash
  | forbiddenCharacter
  | malformedPlaceholder
  | duplicatePlaceholder
  deriving Repr, DecidableEq

def Fault.message : Fault → String
  | .noLeadingSlash => "route must start with '/'"
  | .forbiddenCharacter => "route contains quotes, backslashes or whitespace"
  | .malformedPlaceholder => "malformed placeholder"
  | .duplicatePlaceholder => "duplicate placeholder"

def isBrace (c : Char) : Bool :=
  c == '\x7b' || c == '\x7d'

def fault? (route : String) : Option Fault :=
  if route.toList.head? ≠ some '/' then some .noLeadingSlash
  else if route.toList.any (fun c => c == '"' || c == '\\' || isWhiteSpace c) then
    some .forbiddenCharacter
  else if (pieces route.toList).any (fun
      | .char c => isBrace c
      | .placeholder _ => false) then
    some .malformedPlaceholder
  else if (placeholders route).Nodup then none
  else some .duplicatePlaceholder

end Route

end EndpointCompiler

import EndpointCompiler.Source.Error
import EndpointCompiler.Text.Identifier
import EndpointCompiler.Text.Utf8
import EndpointCompiler.Text.WhiteSpace

/-! Splitting a text into tokens. White space and comments separate them; what each element takes
from the front of the text is given back with it, so that the elements tile the text. -/

namespace EndpointCompiler.Source

/-- A string literal after its opening quote: its value, how it is written, its closing quote
included, and what follows. -/
structure Literal where
  value : List Char
  written : List Char
  rest : List Char

def Literal.cons (c : Char) (written : List Char) (l : Literal) : Literal :=
  ⟨c :: l.value, written ++ l.written, l.rest⟩

/-- Why a literal is none. An escape lies some bytes after the opening quote. -/
inductive LiteralFault where
  | unterminated
  | unknownEscape (c : Char) (offset : Nat)

def LiteralFault.shift (n : Nat) : LiteralFault → LiteralFault
  | .unterminated => .unterminated
  | .unknownEscape c offset => .unknownEscape c (n + offset)

/-- Reads a literal after its opening quote. It ends on its line; a backslash stands before a
quote or a backslash. -/
def literal : List Char → Except LiteralFault Literal
  | [] => .error .unterminated
  | c :: cs =>
    if c = '"' then .ok ⟨[], ['"'], cs⟩
    else if c = '\n' then .error .unterminated
    else if c = '\\' then
      match cs with
      | [] => .error .unterminated
      | d :: cs =>
        if d = '"' ∨ d = '\\' then
          match literal cs with
          | .ok l => .ok (l.cons d [c, d])
          | .error f => .error (f.shift (utf8Length [c, d]))
        else .error (.unknownEscape d 0)
    else match literal cs with
      | .ok l => .ok (l.cons c [c])
      | .error f => .error (f.shift c.utf8Size)

theorem literal_append {cs : List Char} {l : Literal} (h : literal cs = .ok l) :
    l.written ++ l.rest = cs := by
  fun_induction literal cs generalizing l with
  | case1 => simp at h
  | case2 cs =>
    cases h
    rfl
  | case3 => simp at h
  | case4 => simp at h
  | case5 _ _ _ m hm _ _ ih =>
    cases h
    simp [Literal.cons, ih hm]
  | case6 => simp at h
  | case7 => simp at h
  | case8 c cs _ _ _ m hm ih =>
    cases h
    simp [Literal.cons, ih hm]
  | case9 => simp at h

/-- What stands at the front of a text: its token, if it is not white space or a comment, its
text, and what follows. -/
structure Element where
  token? : Option Token
  lexeme : List Char
  rest : List Char

/-- A fault in the element at the front of a text, with its range relative to that front. -/
structure ElementFault where
  cause : LexicalCause
  span : Span

def punct? (cs : List Char) : Option Punct :=
  Punct.all.find? (·.chars.isPrefixOf cs)

def element (c : Char) (cs : List Char) : Except ElementFault Element :=
  if isWhiteSpace c then .ok ⟨none, [c], cs⟩
  else if isIdentStart c then
    let word := c :: cs.takeWhile isIdentContinue
    .ok ⟨some (.ofWord (String.ofList word)), word, cs.dropWhile isIdentContinue⟩
  else if c = '"' then
    match literal cs with
    | .ok l => .ok ⟨some (.text (String.ofList l.value)), c :: l.written, l.rest⟩
    | .error .unterminated => .error ⟨.unterminatedText, ⟨0, utf8Length (c :: cs)⟩⟩
    | .error (.unknownEscape d n) =>
      .error ⟨.unknownEscape d, ⟨n + 1, n + 2 + d.utf8Size⟩⟩
  else if c = '/' ∧ cs.head? = some '/' then
    .ok ⟨none, c :: cs.takeWhile (· ≠ '\n'), cs.dropWhile (· ≠ '\n')⟩
  else match punct? (c :: cs) with
    | some p => .ok ⟨some (.punct p), p.chars, (c :: cs).drop p.chars.length⟩
    | none => .error ⟨.unexpectedCharacter c, ⟨0, c.utf8Size⟩⟩

theorem punct?_isPrefix {cs : List Char} {p : Punct} (h : punct? cs = some p) :
    p.chars <+: cs :=
  List.isPrefixOf_iff_prefix.mp (List.find?_some (p := fun p : Punct => p.chars.isPrefixOf cs) h)

theorem element_append {c : Char} {cs : List Char} {e : Element} (h : element c cs = .ok e) :
    e.lexeme ++ e.rest = c :: cs := by
  unfold element at h
  split at h
  · cases h
    rfl
  split at h
  · cases h
    simp [List.takeWhile_append_dropWhile]
  split at h
  · split at h
    · rename_i l hl
      cases h
      simp [literal_append hl]
    · cases h
    · cases h
  split at h
  · cases h
    simp [List.takeWhile_append_dropWhile]
  split at h
  · rename_i p hp
    cases h
    obtain ⟨t, ht⟩ := punct?_isPrefix hp
    simp [← ht]
  · cases h

theorem element_lexeme_ne_nil {c : Char} {cs : List Char} {e : Element}
    (h : element c cs = .ok e) : e.lexeme ≠ [] := by
  unfold element at h
  split at h
  · cases h
    simp
  split at h
  · cases h
    simp
  split at h
  · split at h
    · cases h
      simp
    · cases h
    · cases h
  split at h
  · cases h
    simp
  split at h
  · rename_i p hp
    cases h
    cases p <;> simp [Punct.chars]
  · cases h

theorem element_rest_lt {c : Char} {cs : List Char} {e : Element} (h : element c cs = .ok e) :
    e.rest.length < (c :: cs).length := by
  have := congrArg List.length (element_append h)
  have := List.length_pos_iff.mpr (element_lexeme_ne_nil h)
  simp only [List.length_append] at *
  omega

/-- The tokens of a text whose first byte has the given offset, with the end of input as the
last. -/
def lexemesFrom (offset : Nat) (cs : List Char) : Except SourceError (List Lexeme) :=
  match cs with
  | [] => .ok [⟨.eof, ⟨offset, offset⟩⟩]
  | c :: cs =>
    match _h : element c cs with
    | .error f => .error ⟨.lexical f.cause, ⟨offset + f.span.start, offset + f.span.stop⟩⟩
    | .ok e =>
      let stop := offset + utf8Length e.lexeme
      match lexemesFrom stop e.rest with
      | .error f => .error f
      | .ok more =>
        match e.token? with
        | none => .ok more
        | some t => .ok (⟨t, ⟨offset, stop⟩⟩ :: more)
termination_by cs.length
decreasing_by exact element_rest_lt _h

def tokenize (text : String) : Except SourceError (List Lexeme) :=
  lexemesFrom 0 text.toList

end EndpointCompiler.Source

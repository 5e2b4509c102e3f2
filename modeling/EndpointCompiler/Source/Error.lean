import EndpointCompiler.Source.Token

/-! What can be wrong with a source text, and where. -/

namespace EndpointCompiler.Source

inductive LexicalCause where
  | unknownEscape (c : Char)
  | unterminatedText
  | unexpectedCharacter (c : Char)
  deriving Repr, DecidableEq

def LexicalCause.message : LexicalCause → String
  | .unknownEscape c => "unknown escape `\\" ++ c.toString ++ "`"
  | .unterminatedText => "unterminated string literal"
  | .unexpectedCharacter c => "unexpected character `" ++ c.toString ++ "`"

inductive Expected where
  | token (t : Token)
  | identifier | item | statement | expression | moduleSeparator
  deriving Repr, DecidableEq

def Expected.describe : Expected → String
  | .token t => t.describe
  | .identifier => "identifier"
  | .item => "`shape` or `op`"
  | .statement => "`let` or `return`"
  | .expression => "expression"
  | .moduleSeparator => "`::` after module path"

inductive SourceCause where
  | lexical (cause : LexicalCause)
  | expected (what : Expected) (found : Token)
  deriving Repr, DecidableEq

def SourceCause.message : SourceCause → String
  | .lexical cause => cause.message
  | .expected what found => "expected " ++ what.describe ++ ", found " ++ found.describe

structure SourceError where
  cause : SourceCause
  span : Span
  deriving Repr, DecidableEq

def SourceError.message (e : SourceError) : String :=
  e.cause.message

end EndpointCompiler.Source

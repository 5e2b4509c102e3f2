/-! The tokens of the source language, and the ranges of text that they take. -/

namespace EndpointCompiler

structure Span where
  start : Nat
  stop : Nat
  deriving Repr, DecidableEq

namespace Source

inductive Keyword where
  | shape | op | async | bind | new | result | await
  deriving Repr, DecidableEq

def Keyword.text : Keyword → String
  | .shape => "shape"
  | .op => "op"
  | .async => "async"
  | .bind => "let"
  | .new => "new"
  | .result => "return"
  | .await => "await"

def Keyword.all : List Keyword :=
  [.shape, .op, .async, .bind, .new, .result, .await]

def Keyword.ofText? (word : String) : Option Keyword :=
  Keyword.all.find? (·.text == word)

inductive Punct where
  | doubleColon | colon | arrow | less | greater | leftBracket | rightBracket | leftBrace
  | rightBrace | leftParen | rightParen | dot | comma | semicolon | equals | hash
  deriving Repr, DecidableEq

def Punct.chars : Punct → List Char
  | .doubleColon => [':', ':']
  | .colon => [':']
  | .arrow => ['-', '>']
  | .less => ['<']
  | .greater => ['>']
  | .leftBracket => ['[']
  | .rightBracket => [']']
  | .leftBrace => ['\x7b']
  | .rightBrace => ['\x7d']
  | .leftParen => ['(']
  | .rightParen => [')']
  | .dot => ['.']
  | .comma => [',']
  | .semicolon => [';']
  | .equals => ['=']
  | .hash => ['#']

/-- All marks, each before those that begin it. -/
def Punct.all : List Punct :=
  [.doubleColon, .colon, .arrow, .less, .greater, .leftBracket, .rightBracket, .leftBrace,
    .rightBrace, .leftParen, .rightParen, .dot, .comma, .semicolon, .equals, .hash]

inductive Token where
  | ident (name : String)
  | text (value : String)
  | keyword (word : Keyword)
  | punct (mark : Punct)
  | eof
  deriving Repr, DecidableEq

def Token.describe : Token → String
  | .ident name => "identifier `" ++ name ++ "`"
  | .text value => "string \"" ++ value ++ "\""
  | .keyword word => "`" ++ word.text ++ "`"
  | .punct mark => "`" ++ String.ofList mark.chars ++ "`"
  | .eof => "end of input"

/-- A word is a keyword or else an identifier. -/
def Token.ofWord (word : String) : Token :=
  match Keyword.ofText? word with
  | some k => .keyword k
  | none => .ident word

structure Lexeme where
  token : Token
  span : Span
  deriving Repr, DecidableEq

end Source

end EndpointCompiler

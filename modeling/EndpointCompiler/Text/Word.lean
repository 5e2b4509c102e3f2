/-! Words that are told apart without regard to the case of ASCII letters. -/

namespace EndpointCompiler

def lowercase (text : String) : String :=
  String.ofList (text.toList.map Char.toLower)

/-- Whether two texts differ at most in the case of ASCII letters. -/
def sameWord (a b : String) : Bool :=
  lowercase a == lowercase b

structure UnknownWord where
  kind : String
  word : String
  deriving Repr, DecidableEq

def UnknownWord.message (e : UnknownWord) : String :=
  "unknown " ++ e.kind ++ " '" ++ e.word ++ "'"

end EndpointCompiler

/-! Units of source text. -/

namespace EndpointCompiler

/-- A named text, and the file that it was written to if it was. -/
structure SourceUnit where
  name : String
  text : String
  path : Option String
  deriving Repr, DecidableEq

end EndpointCompiler

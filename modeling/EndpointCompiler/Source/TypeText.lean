import EndpointCompiler.Source.Parser
import EndpointCompiler.Number.Shortest

/-! Types as texts of their own. -/

namespace EndpointCompiler

/-- A text that is no type. -/
structure TypeTextError where
  text : String
  error : Source.SourceError
  deriving Repr, DecidableEq

def TypeTextError.message (e : TypeTextError) : String :=
  "invalid type '" ++ e.text ++ "': " ++ e.error.message ++ " at " ++ natText e.error.span.start ++
    ".." ++ natText e.error.span.stop

def TypeRef.ofText (text : String) : Except TypeTextError TypeRef :=
  match Source.parseTypeExpr text with
  | .ok t => .ok t.toTypeRef
  | .error e => .error ⟨text, e⟩

end EndpointCompiler

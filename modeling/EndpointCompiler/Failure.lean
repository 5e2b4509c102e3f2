/-! Failures of a whole run, as they are told to the one who started it. -/

namespace EndpointCompiler

inductive FailureKind where
  | malformedJson
  | malformedYaml
  | definition
  | build
  | file
  | other
  deriving Repr, DecidableEq

/-- A failure with what went wrong on each level, the outermost first. What is wrong with a text in
JSON or YAML is not told. -/
structure Failure where
  kind : FailureKind
  messages : List String
  deriving Repr, DecidableEq

namespace Failure

def within (message : String) (f : Failure) : Failure :=
  { f with messages := message :: f.messages }

def message (f : Failure) : String :=
  ": ".intercalate f.messages

end Failure

end EndpointCompiler

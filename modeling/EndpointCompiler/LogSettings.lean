import EndpointCompiler.Settings

/-! Settings of the log, and where they are read from. -/

namespace EndpointCompiler

inductive LogFormat where
  | json | pretty
  deriving Repr, DecidableEq

/-- Reads a format without regard to ASCII case. What is not known is JSON. -/
def LogFormat.ofText (text : String) : LogFormat :=
  if lowercase text = "pretty" then .pretty else .json

structure LogSettings where
  level : String
  format : LogFormat
  targetFilter : Option String
  includeLocation : Bool
  /-- Whether records are written in the background. -/
  background : Bool
  deriving Repr, DecidableEq

namespace LogSettings

def readBool? (word : String) : Option Bool :=
  if word = "true" then some true else if word = "false" then some false else none

/-- Settings out of variables. One that cannot be read counts as not set. -/
def ofVariables (env : Variables) : LogSettings :=
  { level := (env "BRRTR_LOG_LEVEL").getD "info"
    format := LogFormat.ofText ((env "BRRTR_LOG_FORMAT").getD "json")
    targetFilter := env "BRRTR_LOG_TARGET_FILTER"
    includeLocation := ((env "BRRTR_LOG_INCLUDE_LOCATION").bind readBool?).getD false
    background := ((env "BRRTR_LOG_ASYNC").bind readBool?).getD true }

def development : LogSettings :=
  ⟨"debug", .pretty, none, true, false⟩

end LogSettings

end EndpointCompiler

import EndpointCompiler.Number.Shortest
import EndpointCompiler.Source.Token
import EndpointCompiler.Source.Unit
import EndpointCompiler.Text.Utf8

/-! Diagnostics: what is wrong in a unit of source text, where, and how grave it is. -/

namespace EndpointCompiler

/-- Line and column of a byte offset, counted on from those of the start of the text. An offset
inside a character counts as the start of it, one past the end as the end. -/
def lineColumnFrom (line column : Nat) : List Char → Nat → Nat × Nat
  | [], _ => (line, column)
  | c :: cs, n =>
    if n < c.utf8Size then (line, column)
    else if c = '\n' then lineColumnFrom (line + 1) 1 cs (n - c.utf8Size)
    else lineColumnFrom line (column + 1) cs (n - c.utf8Size)

/-- Line and column of a byte offset, both counted from one; columns are characters. -/
def lineColumn (text : String) (offset : Nat) : Nat × Nat :=
  lineColumnFrom 1 1 text.toList offset

inductive Severity where
  | error | warning
  deriving Repr, DecidableEq

def Severity.text : Severity → String
  | .error => "error"
  | .warning => "warning"

structure Diagnostic where
  severity : Severity
  code : String
  message : String
  unit : String
  span : Span
  line : Nat
  column : Nat
  label : Option String
  deriving Repr, DecidableEq

namespace Diagnostic

def isError (d : Diagnostic) : Bool :=
  d.severity == .error

def text (d : Diagnostic) : String :=
  d.severity.text ++ "[" ++ d.code ++ "]: " ++ d.message ++ " (" ++ d.unit ++ ":" ++
    natText d.line ++ ":" ++ natText d.column ++ ")"

end Diagnostic

structure CompilationError where
  diagnostics : List Diagnostic
  units : List SourceUnit
  deriving Repr, DecidableEq

namespace CompilationError

def errorCount (e : CompilationError) : Nat :=
  e.diagnostics.countP (·.isError)

/-- The text of the first unit of a name. -/
def unitText? (e : CompilationError) (name : String) : Option String :=
  (e.units.find? (·.name == name)).map (·.text)

def endLine (text : String) : String :=
  if text.toList.getLast? = some '\n' then text else text ++ "\n"

def unitListing (u : SourceUnit) : String :=
  "// unit: " ++ u.name ++
    (match u.path with
      | some path => " (" ++ path ++ ")"
      | none => "") ++ "\n" ++ endLine u.text

def sourceText (e : CompilationError) : String :=
  String.join (e.units.map unitListing)

end CompilationError

end EndpointCompiler

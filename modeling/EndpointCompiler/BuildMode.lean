import EndpointCompiler.Text.Word

/-! The two ways to build: for use, or with symbols that lead back to the source. -/

namespace EndpointCompiler

inductive BuildMode where
  | debug | release
  deriving Repr, DecidableEq

namespace BuildMode

def text : BuildMode → String
  | .debug => "debug"
  | .release => "release"

def ofWord? (word : String) : Option BuildMode :=
  [BuildMode.debug, .release].find? (·.text == word)

/-- Reads a mode without regard to ASCII case. -/
def ofText (text : String) : Except UnknownWord BuildMode :=
  match ofWord? (lowercase text) with
  | some mode => .ok mode
  | none => .error ⟨"build mode", lowercase text⟩

end BuildMode

end EndpointCompiler

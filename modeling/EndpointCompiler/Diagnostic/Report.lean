import EndpointCompiler.Diagnostic.Basic
import EndpointCompiler.Text.WhiteSpace

/-! Reports: diagnostics shown beside the lines of text that they point into. A report reads the
offsets of a diagnostic as counts of characters. -/

namespace EndpointCompiler

namespace Report

/-- The characters that end a line. -/
def endsLine (c : Char) : Bool :=
  c == '\n' || c == '\r' || c == '\x0B' || c == '\x0C' || c == '\u0085' || c == '\u2028' ||
    c == '\u2029'

/-- The lines of a text, each with what ends it; a carriage return and a line feed are one end. -/
def splitLines : List Char → List (List Char)
  | [] => []
  | '\r' :: '\n' :: cs => ['\r', '\n'] :: splitLines cs
  | c :: cs =>
    if endsLine c then [c] :: splitLines cs
    else match splitLines cs with
      | [] => [[c]]
      | line :: lines => (c :: line) :: lines

/-- The lines of a text, of which there is always one. -/
def linesOf (text : String) : List (List Char) :=
  match splitLines text.toList with
  | [] => [[]]
  | lines => lines

/-- A line and a column in it, both counted from zero. -/
structure Place where
  line : Nat
  column : Nat
  deriving Repr, DecidableEq

/-- The place of an offset, counted on from a line. The end of the text is on its last line. -/
def placeFrom (line : Nat) : List (List Char) → Nat → Option Place
  | [], _ => none
  | [l], n => if n ≤ l.length then some ⟨line, n⟩ else none
  | l :: ls, n => if n < l.length then some ⟨line, n⟩ else placeFrom (line + 1) ls (n - l.length)

def place (lines : List (List Char)) (offset : Nat) : Option Place :=
  placeFrom 0 lines offset

def blanks (n : Nat) : String :=
  String.ofList (List.replicate n ' ')

def bar (n : Nat) : String :=
  String.ofList (List.replicate n '─')

/-- A line as it is shown, without white space at its end. -/
def shown (lines : List (List Char)) (line : Nat) : String :=
  String.ofList (((lines.getD line []).reverse.dropWhile isWhiteSpace).reverse)

def numbered (width line : Nat) : String :=
  let digits := natText (line + 1)
  " " ++ blanks (width - digits.length) ++ digits

/-- The line under a span in one line: a stroke with a stem in the middle. -/
def underline (start stop middle : Nat) : String :=
  String.ofList <| (List.range (stop + 2)).map fun column =>
    let inside := start ≤ column && column < stop
    if column = middle then (if inside then '┬' else '│')
    else if inside then '─' else ' '

/-- A span from one column to another of the same line, and the text for it. -/
def inOneLine (lines : List (List Char)) (width line start stop : Nat) (text : String) :
    List String :=
  let middle := (start + stop) / 2
  [numbered width line ++ " │ " ++ shown lines line,
    blanks (width + 2) ++ "│ " ++ underline start stop middle,
    blanks (width + 2) ++ "│ " ++ blanks middle ++ "╰" ++ bar (stop + 1 - middle) ++ " " ++ text]

/-- A span from one line to a later one, and the text for it. Lines between them are left out. -/
def overLines (lines : List (List Char)) (width first last : Nat) (text : String) : List String :=
  let reach := (lines.getD last []).length + 5
  [numbered width first ++ " │ ╭─▶ " ++ shown lines first] ++
    (if first + 1 < last then [blanks (width + 2) ++ "┆ ┆   "] else []) ++
    [numbered width last ++ " │ ├─▶ " ++ shown lines last,
      blanks (width + 2) ++ "│ │" ++ blanks reach,
      blanks (width + 2) ++ "│ ╰" ++ bar reach ++ " " ++ text]

/-- Everything below the heading: the place and the lines of a span. A span that reaches past the
text is not shown. -/
def body (lines : List (List Char)) (span : Span) (text : String) : List String :=
  match place lines span.start, place lines (max span.start (span.stop - 1)) with
  | some first, some last =>
    let width := (natText (last.line + 1)).length
    let lineStart := span.start - first.column
    [blanks (width + 2) ++ "╭─[ <unknown>:" ++ natText (first.line + 1) ++ ":" ++
        natText (first.column + 1) ++ " ]",
      blanks (width + 2) ++ "│"] ++
      (if first.line = last.line then
        inOneLine lines width first.line first.column (span.stop - lineStart) text
      else overLines lines width first.line last.line text) ++
      [bar (width + 2) ++ "╯"]
  | _, _ => []

end Report

def Severity.heading : Severity → String
  | .error => "Error"
  | .warning => "Warning"

namespace Diagnostic

/-- The range that a report points out: within the text, and not empty unless the text is. -/
def reportSpan (d : Diagnostic) (text : String) : Span :=
  let length := utf8Length text.toList
  let start := min d.span.start length
  let stop := max (min d.span.stop length) start
  if start < stop then ⟨start, stop⟩
  else ⟨if start = length then start - 1 else start, min (stop + 1) length⟩

def render (d : Diagnostic) (text : String) : String :=
  let heading := "[" ++ d.code ++ "] " ++ d.severity.heading ++ ": " ++ d.message
  let body := Report.body (Report.linesOf text) (d.reportSpan text) (d.label.getD d.message)
  String.join ((heading :: body).map (· ++ "\n"))

end Diagnostic

namespace CompilationError

/-- The report of a diagnostic of one of the units, or else the diagnostic on one line. -/
def report (e : CompilationError) (d : Diagnostic) : String :=
  match e.unitText? d.unit with
  | some text => d.render text
  | none => d.text ++ "\n"

def message (e : CompilationError) : String :=
  "compilation of " ++ natText e.units.length ++ " generated unit(s) failed with " ++
    natText e.errorCount ++ " error(s)\n" ++ String.join (e.diagnostics.map e.report) ++
    "\ngenerated source:\n" ++ e.sourceText

end CompilationError

end EndpointCompiler

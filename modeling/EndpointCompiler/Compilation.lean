import EndpointCompiler.BuildMode
import EndpointCompiler.Checking.Program
import EndpointCompiler.FileTree
import EndpointCompiler.Image.Codec

/-! Compilation: units of source text, checked together against references, become the image of
one module. -/

namespace EndpointCompiler

open Source

structure CompileOptions where
  module : ModuleId
  /-- The type that the operations belong to. -/
  controller : String
  mode : BuildMode
  debugDir : String
  filePrefix : String
  deriving Repr, DecidableEq

def SourceUnit.fileName (filePrefix : String) (u : SourceUnit) : String :=
  filePrefix ++ "_" ++ u.name ++ ".fg"

/-- Writes a unit into a directory. A unit that cannot be written is left without a path. -/
def SourceUnit.place (dir filePrefix : String) (u : SourceUnit) (files : FileTree) :
    SourceUnit × FileTree :=
  let path := FileTree.join dir (u.fileName filePrefix)
  match files.write path u.text with
  | .ok files => ({ u with path := some path }, files)
  | .error _ => (u, files)

def placeUnits (dir filePrefix : String) : List SourceUnit → FileTree → List SourceUnit × FileTree
  | [], files => ([], files)
  | u :: us, files =>
    let (u, files) := u.place dir filePrefix files
    let (us, files) := placeUnits dir filePrefix us files
    (u :: us, files)

/-- Debug builds write their units to files first, if they have a directory for them. -/
def CompileOptions.place (o : CompileOptions) (units : List SourceUnit) (files : FileTree) :
    List SourceUnit × FileTree :=
  match o.mode with
  | .release => (units, files)
  | .debug =>
    let (files, made) := files.createDirAll o.debugDir
    if made then placeUnits o.debugDir o.filePrefix units files else (units, files)

def syntaxDiagnostic (u : SourceUnit) (e : SourceError) : Diagnostic :=
  Finding.diagnostic u ⟨.malformedSource e.cause, e.span⟩

/-- The units that follow the grammar, and diagnostics for the others. -/
def parseUnits : List SourceUnit → List ParsedUnit × List Diagnostic
  | [] => ([], [])
  | u :: us =>
    let (parsed, diagnostics) := parseUnits us
    match parseSource u.text with
    | .ok items => (⟨u, items⟩ :: parsed, diagnostics)
    | .error e => (parsed, syntaxDiagnostic u e :: diagnostics)

/-- What a compilation that found no error makes. Only debug builds have symbols. -/
structure Emission where
  image : ModuleImage
  symbols : Option SymbolTable
  warnings : List Diagnostic

/-- The image of checked declarations. Release builds have no locals in it. -/
def CheckedProgram.image (p : CheckedProgram) (o : CompileOptions) : ModuleImage :=
  { format := imageFormat
    module := o.module
    controller := o.controller
    shapes := p.shapes
    operations :=
      match o.mode with
      | .release => p.operations.map (·.inlineLocals)
      | .debug => p.operations }

/-- Compiles units, or gives all diagnostics if an error is among them. -/
def emit (references : ReferenceSet) (o : CompileOptions) (units : List SourceUnit) :
    Except (List Diagnostic) Emission :=
  let (parsed, malformed) := parseUnits units
  let checked := checkProgram references o.module parsed
  let diagnostics := malformed ++ checked.diagnostics
  if diagnostics.any (·.isError) then .error diagnostics
  else .ok {
    image := checked.image o
    symbols :=
      match o.mode with
      | .release => none
      | .debug => some ⟨o.module, declaredSymbols parsed⟩
    warnings := diagnostics }

structure Artifact where
  module : ModuleId
  image : String
  symbols : Option String
  units : List SourceUnit
  warnings : List Diagnostic
  deriving Repr, DecidableEq

/-- Debug builds are written to be read, release builds on one line. -/
def BuildMode.print : BuildMode → Json → String
  | .debug => Json.pretty
  | .release => Json.compact

def Emission.artifact (e : Emission) (o : CompileOptions) (units : List SourceUnit) : Artifact :=
  { module := o.module
    image := o.mode.print e.image.toJson
    symbols := e.symbols.map fun table => o.mode.print table.toJson
    units
    warnings := e.warnings }

/-- Compiles units that are where they belong. -/
def compile (references : ReferenceSet) (o : CompileOptions) (units : List SourceUnit) :
    Except CompilationError Artifact :=
  match emit references o units with
  | .ok e => .ok (e.artifact o units)
  | .error diagnostics => .error ⟨diagnostics, units⟩

end EndpointCompiler

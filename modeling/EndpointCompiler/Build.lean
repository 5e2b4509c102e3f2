import EndpointCompiler.Diagnostic.Report
import EndpointCompiler.Loading
import EndpointCompiler.References
import EndpointCompiler.Settings
import EndpointCompiler.Synthesis.Operation

/-! Builds: definitions of handlers become a module. Every definition is checked, the references
that they need are resolved, source is made for them and compiled, and the result is loaded. -/

namespace EndpointCompiler

/-- The stage at which a build ends, and why. -/
inductive BuildError where
  | definition (error : DefinitionError)
  | unresolvable (error : UnresolvableReference)
  | synthesis (error : NameCollision)
  | compilation (error : CompilationError)
  | load (error : LoadError)
  deriving Repr, DecidableEq

def BuildError.message : BuildError → String
  | .definition e => "invalid handler definition: " ++ e.message
  | .unresolvable e => e.message
  | .synthesis e => "synthesis failed: " ++ e.message
  | .compilation e => e.message
  | .load e => "failed to load compiled module: " ++ e.message

def generatedController : String := "GeneratedController"

namespace Settings

def compileOptions (s : Settings) : CompileOptions :=
  ⟨s.moduleName, generatedController, s.mode, s.debugDir, s.filePrefix⟩

/-- What a build begins with. The random bits count for random surrogates alone. -/
def synthesizer (s : Settings) (randomBits : Nat) : Synthesizer :=
  ⟨.empty s.maxNameSuffix, .ofMode randomBits s.surrogates⟩

end Settings

structure Builder where
  catalog : Catalog
  settings : Settings
  randomBits : Nat

namespace Builder

def validate (ds : List HandlerDefinition) : Except BuildError Unit :=
  (ds.forM (·.validate)).mapError .definition

def resolve (b : Builder) (ds : List HandlerDefinition) : Except BuildError ReferenceSet := do
  validate ds
  (b.catalog.resolve (definitionTypes ds)).mapError .unresolvable

/-- The source for definitions, apart from any checks. -/
def specs (b : Builder) (ds : List HandlerDefinition) : Except NameCollision (List OperationSpec) :=
  ((Synthesizer.synthesizeAll ds).run.run (b.settings.synthesizer b.randomBits)).1

def synthesize (b : Builder) (ds : List HandlerDefinition) :
    Except BuildError (List OperationSpec) := do
  validate ds
  (b.specs ds).mapError .synthesis

def prepare (b : Builder) (ds : List HandlerDefinition) :
    Except BuildError (ReferenceSet × List SourceUnit) := do
  let references ← b.resolve ds
  let specs ← (b.specs ds).mapError .synthesis
  return (references, specs.flatMap (·.units))

/-- Compiles the source for definitions. Units may be written to files also where it fails. -/
def buildArtifact (b : Builder) (ds : List HandlerDefinition) (files : FileTree) :
    Except BuildError Artifact × FileTree :=
  match b.prepare ds with
  | .error e => (.error e, files)
  | .ok (references, units) =>
    let options := b.settings.compileOptions
    let (units, files) := options.place units files
    ((compile references options units).mapError .compilation, files)

/-- The module for definitions, with one operation for each. -/
def build (b : Builder) (ds : List HandlerDefinition) (files : FileTree) :
    Except BuildError CompiledModule × FileTree :=
  let (artifact, files) := b.buildArtifact ds files
  (artifact.bind fun a => a.load.mapError .load, files)

end Builder

end EndpointCompiler

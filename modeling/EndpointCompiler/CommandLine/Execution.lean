import EndpointCompiler.Build
import EndpointCompiler.CommandLine.Arguments
import EndpointCompiler.Handler.DefinitionFile

/-! Execution of commands: what they print, how they fail, and the files that they leave. -/

namespace EndpointCompiler

/-- A build that ends early tells the reason of the stage again, without the name of the stage. -/
def BuildError.failure (e : BuildError) : Failure :=
  match e with
  | .definition d => ⟨.definition, [e.message, d.message]⟩
  | .unresolvable u => ⟨.build, [e.message, u.message]⟩
  | .synthesis c => ⟨.build, [e.message, c.message, c.message]⟩
  | .compilation c => ⟨.build, [e.message, c.message]⟩
  | .load (.undecodable d) => ⟨.malformedJson, [e.message, (LoadError.undecodable d).message]⟩
  | .load l => ⟨.build, [e.message, l.message]⟩

structure Surroundings where
  env : Variables
  randomBits : Nat
  files : FileTree

structure Execution where
  output : String
  failure : Option Failure
  files : FileTree

namespace Execution

def failed (files : FileTree) (output : String) (failure : Failure) : Execution :=
  ⟨output, some failure, files⟩

def succeeded (files : FileTree) (output : String) : Execution :=
  ⟨output, none, files⟩

end Execution

def padRight (width : Nat) (text : String) : String :=
  text ++ String.ofList (List.replicate (width - text.length) ' ')

def SourceUnit.listing (u : SourceUnit) : String :=
  "// ---- " ++ u.name ++ " ----\n" ++ u.text

def Operation.tableRow (o : Operation) : String :=
  padRight 8 o.route.method.token ++ padRight 32 o.route.template ++ o.name ++
    (match o.location? with
      | some l => "  [" ++ l.text ++ "]"
      | none => "") ++ "\n"

def CompiledModule.table (m : CompiledModule) : String :=
  "module " ++ m.module.id ++ " (" ++ m.mode.text ++ " build)\n" ++
    String.join (m.operations.map (·.tableRow))

namespace Command

def defs : Command → String
  | .synth defs _ => defs
  | .check defs _ _ => defs

def adjust (s : Settings) : Command → Settings
  | .synth _ surrogates => { s with surrogates := surrogates.getD s.surrogates }
  | .check _ debug debugDir =>
    { s with
      mode := if debug then .debug else s.mode
      debugDir := debugDir.getD s.debugDir }

def run (c : Command) (b : Builder) (ds : List HandlerDefinition) (files : FileTree) : Execution :=
  match c with
  | .synth _ _ =>
    match b.synthesize ds with
    | .ok specs => .succeeded files (String.join ((specs.flatMap (·.units)).map (·.listing)))
    | .error e => .failed files "" e.failure
  | .check _ _ _ =>
    match b.build ds files with
    | (.ok m, files) => .succeeded files m.table
    | (.error (.compilation e), files) =>
      .failed files e.message
        ⟨.other, ["compilation failed with " ++ natText e.errorCount ++ " error(s)"]⟩
    | (.error e, files) => .failed files "" e.failure

end Command

namespace CommandLine

/-- Settings come from a file if one is named, else from variables; options of the command come
first. -/
def settings (c : CommandLine) (s : Surroundings) : Except SettingsError Settings :=
  match c.config with
  | some path => (Settings.ofFile s.files path).map c.command.adjust
  | none => .ok (c.command.adjust (.ofVariables s.env))

def execute (c : CommandLine) (s : Surroundings) : Execution :=
  match c.settings s with
  | .error e => .failed s.files "" e.failure
  | .ok settings =>
    match Definitions.ofFile s.files c.command.defs with
    | .error e =>
      .failed s.files "" (e.failure.within ("cannot load definitions from " ++ c.command.defs))
    | .ok d => c.command.run ⟨d.catalog, settings, s.randomBits⟩ d.handlers s.files

end CommandLine

end EndpointCompiler

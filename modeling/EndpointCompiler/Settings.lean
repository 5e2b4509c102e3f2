import EndpointCompiler.BuildMode
import EndpointCompiler.Document.Yaml.Reader
import EndpointCompiler.Failure
import EndpointCompiler.FileTree
import EndpointCompiler.Synthesis.Names
import EndpointCompiler.Synthesis.Surrogates

/-! The settings of a build, and where they are read from: variables of the environment, or a
file. -/

namespace EndpointCompiler

structure Settings where
  moduleName : ModuleId
  mode : BuildMode
  /-- Where debug builds put their source texts. -/
  debugDir : String
  filePrefix : String
  surrogates : SurrogateMode
  maxNameSuffix : Nat
  deriving Repr, DecidableEq

def temporaryDir : String := "/tmp"

def Settings.default : Settings :=
  ⟨"forge.generated", .release, temporaryDir, "rc", .random, defaultMaxSuffix⟩

/-- Whether source texts go where they go if nothing else is said. -/
def Settings.hasDefaultDir (s : Settings) : Bool :=
  FileTree.samePath s.debugDir Settings.default.debugDir

abbrev Variables := String → Option String

namespace Settings

/-- Settings out of variables. One that is blank or cannot be read counts as not set. -/
def ofVariables (env : Variables) : Settings :=
  let value (name : String) :=
    (env name).filter fun v => !(trim v.toList).isEmpty
  { moduleName := (value "BRRTR_FORGE_MODULE").getD default.moduleName
    mode :=
      ((value "BRRTR_FORGE_MODE").bind fun v => (BuildMode.ofText v).toOption).getD default.mode
    debugDir := (value "BRRTR_FORGE_DEBUG_DIR").getD default.debugDir
    filePrefix := (value "BRRTR_FORGE_PREFIX").getD default.filePrefix
    surrogates :=
      ((value "BRRTR_FORGE_SURROGATES").bind fun v =>
        (SurrogateMode.ofText v).toOption).getD default.surrogates
    maxNameSuffix := default.maxNameSuffix }

open Document in
/-- Settings out of a document, in which each of them may be left out. -/
def decode (d : Document) : Decoded Settings := do
  let r ← d.asRecord
    ["module_name", "mode", "debug_dir", "file_prefix", "surrogates", "max_name_suffix"]
  return {
    moduleName := ← r.withDefault "module_name" default.moduleName asText
    mode := ← r.withDefault "mode" default.mode (asWord BuildMode.ofWord?)
    debugDir := ← r.withDefault "debug_dir" default.debugDir asText
    filePrefix := ← r.withDefault "file_prefix" default.filePrefix asText
    surrogates := ← r.withDefault "surrogates" default.surrogates (asWord SurrogateMode.ofWord?)
    maxNameSuffix := ← r.withDefault "max_name_suffix" default.maxNameSuffix (asNatural 32) }

end Settings

inductive SettingsError where
  | unreadable (path : String) (error : FileError)
  | malformed (path : String)
  deriving Repr, DecidableEq

def SettingsError.failure : SettingsError → Failure
  | .unreadable path error => ⟨.file, ["failed to read config file " ++ path, error.message]⟩
  | .malformed path => ⟨.malformedYaml, ["failed to parse config file " ++ path]⟩

def Settings.ofFile (files : FileTree) (path : String) : Except SettingsError Settings :=
  match files.read path with
  | .error e => .error (.unreadable path e)
  | .ok text =>
    match Yaml.read text with
    | .error _ => .error (.malformed path)
    | .ok d => (decode d).mapError fun _ => .malformed path

end EndpointCompiler

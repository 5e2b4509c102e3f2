import EndpointCompiler.CommandLine.Execution

/-! The command line of the compiler. -/

namespace EndpointCompiler.CommandLine

def usage : String :=
  "Usage: endpoint-compiler [--config FILE] [-v] COMMAND\n\n" ++
    "Commands:\n" ++
    "  synth -d FILE [--surrogates random|sequential]\n" ++
    "      print the source made for a file of definitions\n" ++
    "  check -d FILE [--debug] [--debug-dir DIR]\n" ++
    "      compile a file of definitions and print its routes or diagnostics\n"

def readVariables : IO Variables := do
  let names := ["BRRTR_FORGE_MODULE", "BRRTR_FORGE_MODE", "BRRTR_FORGE_DEBUG_DIR",
    "BRRTR_FORGE_PREFIX", "BRRTR_FORGE_SURROGATES"]
  let values ← names.mapM fun name => do return (name, ← IO.getEnv name)
  return fun name => (values.lookup name).join

def takeIn (files : FileTree) (path : String) : IO FileTree := do
  let place := (← IO.currentDir) / path
  if ← place.isDir then return (files.createDirAll path).1
  if ← place.pathExists then
    try return files.addFile path (← IO.FS.readFile place)
    catch _ => return files
  return files

def writeNew (old new : FileTree) : IO Unit :=
  new.entries.forM fun (place, entry) => do
    let path := "/" ++ "/".intercalate place
    if old.entries.contains (place, entry) then return
    match entry with
    | .directory => IO.FS.createDirAll path
    | .text content => IO.FS.writeFile path content

/-- Random bits for a thousand identifiers. -/
def drawBits : IO Nat := do
  let bytes ← IO.getRandomBytes 16384
  return bytes.foldl (fun bits byte => bits * 256 + byte.toNat) 0

def run (c : CommandLine) : IO UInt32 := do
  let home := FileTree.names (← IO.currentDir).toString
  let randomBits ← drawBits
  let env ← readVariables
  let paths := c.config.toList ++ [c.command.defs]
  let files ← paths.foldlM takeIn (FileTree.ofHome home)
  let files ← match c.settings ⟨env, randomBits, files⟩ with
    | .ok settings => takeIn files settings.debugDir
    | .error _ => pure files
  let execution := c.execute ⟨env, randomBits, files⟩
  writeNew files execution.files
  IO.print execution.output
  match execution.failure with
  | none => return 0
  | some failure =>
    IO.eprintln ("error: " ++ failure.message)
    return 1

end EndpointCompiler.CommandLine

open EndpointCompiler in
def main (args : List String) : IO UInt32 :=
  match CommandLine.read args with
  | .ok c => c.run
  | .error .helpAsked => do
    IO.print CommandLine.usage
    return 0
  | .error _ => do
    IO.eprint CommandLine.usage
    return 2

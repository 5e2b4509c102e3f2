import EndpointCompiler.Synthesis.Surrogates
import EndpointCompiler.Text.Percent

/-! Command lines: a command with its options. Options of the program itself may stand before or
after the command. -/

namespace EndpointCompiler

inductive CommandName where
  | synth | check
  deriving Repr, DecidableEq

def CommandName.ofWord? (word : String) : Option CommandName :=
  if word = "synth" then some .synth else if word = "check" then some .check else none

inductive OptionName where
  | config | verbose | help | defs | surrogates | debug | debugDir
  deriving Repr, DecidableEq

/-- Why a command line is not accepted. To ask for help is one of the reasons. -/
inductive UsageError where
  | nothingGiven
  | helpAsked
  | noCommand
  | unknownCommand (word : String)
  | unknownArgument (word : String)
  | missingOption (option : OptionName)
  | invalidValue (option : OptionName) (value : String)
  | missingValue (option : OptionName)
  | repeatedOption (option : OptionName)
  | unwantedValue (option : OptionName) (value : String)
  deriving Repr, DecidableEq

namespace OptionName

def all : List OptionName :=
  [.config, .verbose, .help, .defs, .surrogates, .debug, .debugDir]

def long : OptionName → String
  | .config => "config"
  | .verbose => "verbose"
  | .help => "help"
  | .defs => "defs"
  | .surrogates => "surrogates"
  | .debug => "debug"
  | .debugDir => "debug-dir"

def short? : OptionName → Option Char
  | .verbose => some 'v'
  | .help => some 'h'
  | .defs => some 'd'
  | _ => none

def takesValue : OptionName → Bool
  | .config | .defs | .surrogates | .debugDir => true
  | .verbose | .help | .debug => false

/-- Whether an option is one of a command, or of the program if there is no command yet. -/
def belongsTo (command : Option CommandName) : OptionName → Bool
  | .config | .verbose | .help => true
  | .defs => command.isSome
  | .surrogates => command == some .synth
  | .debug | .debugDir => command == some .check

/-- Paths are not empty, and surrogates have a mode. -/
def accepts (value : String) : OptionName → Bool
  | .surrogates => (SurrogateMode.ofWord? value).isSome
  | .config | .defs | .debugDir => value ≠ ""
  | .verbose | .help | .debug => true

def ofLong? (command : Option CommandName) (name : String) : Option OptionName :=
  all.find? fun o => o.belongsTo command && o.long == name

def ofShort? (command : Option CommandName) (c : Char) : Option OptionName :=
  all.find? fun o => o.belongsTo command && o.short? == some c

end OptionName

/-- The options read so far, and one that is not taken in yet, with its value once it is there. -/
structure OptionReading where
  given : List (OptionName × String)
  pending : Option (OptionName × Option String)
  /-- Whether what follows can no longer be an option. -/
  closed : Bool

namespace OptionReading

def start : OptionReading := ⟨[], none, false⟩

def awaitsValue (r : OptionReading) : Bool :=
  match r.pending with
  | some (_, none) => true
  | _ => false

def value? (r : OptionReading) (o : OptionName) : Option String :=
  (r.given.find? (·.1 == o)).map (·.2)

def has (r : OptionReading) (o : OptionName) : Bool :=
  (r.value? o).isSome

def take (r : OptionReading) (o : OptionName) (value : String) : Except UsageError OptionReading :=
  if r.has o then .error (.repeatedOption o)
  else if o.accepts value then .ok { r with given := r.given ++ [(o, value)] }
  else .error (.invalidValue o value)

def settle (r : OptionReading) : Except UsageError OptionReading :=
  match r.pending with
  | none => .ok r
  | some (o, none) => .error (.missingValue o)
  | some (o, some value) => { r with pending := none }.take o value

def flag (r : OptionReading) (o : OptionName) : Except UsageError OptionReading := do
  let r ← r.settle
  if o = .help then throw .helpAsked
  r.take o ""

def attach (r : OptionReading) (o : OptionName) (value : String) :
    Except UsageError OptionReading := do
  (← r.settle).take o value

def await (r : OptionReading) (o : OptionName) : Except UsageError OptionReading := do
  return { ← r.settle with pending := some (o, none) }

def long (r : OptionReading) (command : Option CommandName) (cs : List Char) :
    Except UsageError OptionReading :=
  let (name, value) := splitOnce '=' cs
  match OptionName.ofLong? command (String.ofList name) with
  | none => .error (.unknownArgument ("--" ++ String.ofList name))
  | some o =>
    match o.takesValue, value with
    | true, some value => r.attach o (String.ofList value)
    | true, none => r.await o
    | false, some value => .error (.unwantedValue o (String.ofList value))
    | false, none => r.flag o

/-- Reads options by their short names. One that takes a value takes the rest of the word, or else
the next word. -/
def shorts (command : Option CommandName) : List Char → OptionReading →
    Except UsageError OptionReading
  | [], r => .ok r
  | c :: cs, r =>
    match OptionName.ofShort? command c with
    | none => .error (.unknownArgument (String.ofList ['-', c]))
    | some o =>
      if o.takesValue then
        match cs with
        | [] => r.await o
        | '=' :: cs => r.attach o (String.ofList cs)
        | cs => r.attach o (String.ofList cs)
      else do shorts command cs (← r.flag o)

/-- Reads a word that can be no command: an option, or the value of one. -/
def word (r : OptionReading) (command : Option CommandName) (stray : String → UsageError)
    (word : String) : Except UsageError OptionReading :=
  if r.closed then .error (stray word)
  else match word.toList with
    | ['-', '-'] => .ok { r with closed := true }
    | '-' :: '-' :: cs => r.long command cs
    | '-' :: c :: cs => shorts command (c :: cs) r
    | _ =>
      match r.pending with
      | some (o, none) => .ok { r with pending := some (o, some word) }
      | _ => .error (stray word)

def ofCommand (command : CommandName) (words : List String) : Except UsageError OptionReading := do
  let r ← words.foldlM (fun r w => r.word (some command) .unknownArgument w) start
  let r ← r.settle
  if r.has .defs then return r else throw (.missingOption .defs)

end OptionReading

inductive Command where
  | synth (defs : String) (surrogates : Option SurrogateMode)
  | check (defs : String) (debug : Bool) (debugDir : Option String)
  deriving Repr, DecidableEq

structure CommandLine where
  config : Option String
  verbose : Bool
  command : Command
  deriving Repr, DecidableEq

namespace CommandLine

def help : List String → UsageError
  | [] => .helpAsked
  | [word] =>
    if word = "help" ∨ (CommandName.ofWord? word).isSome then .helpAsked else .unknownCommand word
  | first :: second :: _ =>
    if first = "help" ∨ (CommandName.ofWord? first).isSome then .unknownCommand second
    else .unknownCommand first

def strayWord (closed : Bool) (word : String) : UsageError :=
  if closed ∧ (word = "help" ∨ (CommandName.ofWord? word).isSome) then .unknownArgument word
  else .unknownCommand word

/-- The command line of a command, given the program's options and the command's. Of an option on
both sides the later one counts. -/
def assemble (before : OptionReading) (name : CommandName) (after : OptionReading) : CommandLine :=
  let defs := (after.value? .defs).getD ""
  { config := after.value? .config <|> before.value? .config
    verbose := before.has .verbose || after.has .verbose
    command :=
      match name with
      | .synth => .synth defs ((after.value? .surrogates).bind SurrogateMode.ofWord?)
      | .check => .check defs (after.has .debug) (after.value? .debugDir) }

def readFrom (r : OptionReading) : List String → Except UsageError CommandLine
  | [] => do
    let r ← r.settle
    if r.given.isEmpty then throw .nothingGiven else throw .noCommand
  | word :: words =>
    if r.closed ∨ r.awaitsValue then next word words
    else if word = "help" then .error (help words)
    else match CommandName.ofWord? word with
      | some name => do
        let after ← OptionReading.ofCommand name words
        return assemble (← r.settle) name after
      | none => next word words
where
  /-- Reads a word that is no command and goes on. -/
  next (word : String) (words : List String) : Except UsageError CommandLine := do
    let r ← r.word none (strayWord r.closed) word
    readFrom r words

def read (words : List String) : Except UsageError CommandLine :=
  readFrom .start words

end CommandLine

end EndpointCompiler

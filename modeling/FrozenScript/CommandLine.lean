import FrozenScript.Artifact.Build

/-!
# The command line

`parseArguments` reads the arguments one after the other: three of them name the input, the output
and the module, and the others are options. The first argument that does not fit decides the
result, and so does a question for the version or for help. `runCommand` carries a command out on a
file tree.
-/

namespace FrozenScript

/-- What the arguments ask for. -/
inductive Command where
  | build (request : BuildRequest) (useEnvironment : Bool)
  | showVersion
  | showHelp
  deriving DecidableEq, Repr

/-- What is wrong with the arguments. -/
inductive UsageFault where
  | unknownOption (argument : String)
  | repeatedOption (argument : String)
  | surplus (argument : String)
  | emptyPath
  | missing (count : Nat)
  deriving DecidableEq, Repr

/-- The wording of a usage fault. -/
def UsageFault.message : UsageFault → String
  | unknownOption argument => s!"unexpected argument '{argument}' found"
  | repeatedOption argument => s!"the argument '{argument}' cannot be used multiple times"
  | surplus argument => s!"unexpected argument '{argument}' found"
  | emptyPath => "a path is empty"
  | missing count => s!"{count} required arguments were not provided"

/-- The name of the program. -/
def programName : String := "freeze_module"

/-- The version of the program. -/
def programVersion : String := "0.1.0"

/-- How the program is called. -/
def usageText : String :=
  "Freeze a bootstrap script into a C byte array\n\n" ++
    s!"Usage: {programName} [OPTIONS] <INPUT> <OUTPUT> <MODULE>\n"

/-- The option that lets the environment change the settings. -/
def useEnvironmentOption : String := "--use-environment"

/-- What the arguments so far amount to. -/
structure ArgumentState where
  /-- The arguments that are no options, last one first. -/
  operands : List String := []
  useEnvironment : Bool := false
  /-- Whether every further argument is an operand. -/
  optionsEnded : Bool := false

/-- What one more argument leads to. -/
inductive ArgumentStep where
  | proceed (state : ArgumentState)
  | decided (command : Command)

namespace ArgumentState

/-- Take one more operand. There are three, and the first two are paths. -/
def addOperand (state : ArgumentState) (argument : String) : Except UsageFault ArgumentStep :=
  let count := state.operands.length
  if 3 ≤ count then .error (.surplus argument)
  else if count < 2 ∧ argument.isEmpty then .error .emptyPath
  else .ok (.proceed { state with operands := argument :: state.operands })

/-- Take one more option with a long name. -/
def addLongOption (state : ArgumentState) (argument : String) : Except UsageFault ArgumentStep :=
  if argument = "--" then .ok (.proceed { state with optionsEnded := true })
  else if argument = "--version" then .ok (.decided .showVersion)
  else if argument = "--help" then .ok (.decided .showHelp)
  else if argument = useEnvironmentOption then
    if state.useEnvironment then .error (.repeatedOption argument)
    else .ok (.proceed { state with useEnvironment := true })
  else .error (.unknownOption argument)

/-- Take one more argument. A lonely hyphen is an operand. -/
def add (state : ArgumentState) (argument : String) : Except UsageFault ArgumentStep :=
  if state.optionsEnded then state.addOperand argument
  else
    match argument.toList with
    | '-' :: '-' :: _ => state.addLongOption argument
    | '-' :: 'V' :: _ => .ok (.decided .showVersion)
    | '-' :: 'h' :: _ => .ok (.decided .showHelp)
    | '-' :: _ :: _ => .error (.unknownOption argument)
    | _ => state.addOperand argument

/-- The command of all arguments. -/
def finish (state : ArgumentState) : Except UsageFault Command :=
  match state.operands with
  | [module, output, input] => .ok (.build { input, output, module } state.useEnvironment)
  | operands => .error (.missing (3 - operands.length))

/-- Read the arguments that are left. -/
def read (state : ArgumentState) : List String → Except UsageFault Command
  | [] => state.finish
  | argument :: rest =>
    match state.add argument with
    | .error fault => .error fault
    | .ok (.decided command) => .ok command
    | .ok (.proceed state) => state.read rest

end ArgumentState

/-- The command that some arguments ask for. -/
def parseArguments (arguments : List String) : Except UsageFault Command :=
  ArgumentState.read {} arguments

/-- What the program prints before it starts a build. -/
def announcement (request : BuildRequest) : String :=
  s!"input: {request.input}\noutput: {request.output}\nmodule: {request.module}\n"

/-- How a command ends. -/
structure CommandResult where
  exitCode : UInt32
  output : String
  tree : FileTree

/-- Carry out what the arguments ask for. Wrong usage ends with code two, a failed build with code
one. -/
def runCommand (arguments : List String) (lookUp : String → Option String) (tree : FileTree) :
    CommandResult :=
  match parseArguments arguments with
  | .error _ => ⟨2, "", tree⟩
  | .ok .showVersion => ⟨0, s!"{programName} {programVersion}\n", tree⟩
  | .ok .showHelp => ⟨0, usageText, tree⟩
  | .ok (.build request useEnvironment) =>
    let output := announcement request
    match Settings.applyEnvironment { useEnvironment } lookUp with
    | .error _ => ⟨1, output, tree⟩
    | .ok settings =>
      match build settings request tree with
      | (.ok (), tree) => ⟨0, output, tree⟩
      | (.error _, tree) => ⟨1, output, tree⟩

end FrozenScript

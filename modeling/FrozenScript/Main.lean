import FrozenScript.CommandLine

/-!
# The program

The command line on the file system and the environment of the process. Every decision is made by
the functions of the library; this module reads, writes and reports.
-/

namespace FrozenScript

/-- Report an error. -/
def report (message : String) : IO Unit :=
  IO.eprintln s!"error: {message}"

/-- The result of an action, or nothing if it fails. -/
def attempt {α : Type} (action : IO α) : IO (Option α) :=
  tryCatch (some <$> action) fun _ => pure none

/-- Remove a file that was not written completely. Only a regular file is removed. -/
def removePartial (path : String) : IO Unit := do
  let resolved ← IO.FS.realPath path
  let info ← resolved.metadata
  if info.type == .file then IO.FS.removeFile resolved

/-- The length that is told of a file. -/
def fileLength (path : String) : IO Nat := do
  let info ← (← IO.FS.realPath path).metadata
  return info.byteSize.toNat

/-- Read up to a number of bytes. -/
def readUpTo (handle : IO.FS.Handle) (count : Nat) : IO ByteArray := do
  if count = 0 then return .empty
  return (← handle.readBinToEnd).extract 0 count

/-- Read an input file. -/
def loadFile (path : String) : ExceptT BuildError IO ByteArray := do
  let some handle ← attempt (IO.FS.Handle.mk path .read) | throw (.openInput path)
  let some expected ← attempt (fileLength path) | throw (.readInput (.unknownLength path))
  if longestBuffer < bufferSize expected then
    throw (.readInput (.noMemory (bufferSize expected)))
  let some source ← attempt (readUpTo handle expected) | throw (.readInput (.unreadable path))
  checkLength path expected source

/-- Write an output file, completely or not at all. -/
def emitFile (path text : String) : ExceptT BuildError IO Unit := do
  let some handle ← attempt (IO.FS.Handle.mk path .write) | throw (.openOutput path)
  if (← attempt (do handle.write text.toUTF8; handle.flush)).isNone then
    let _ ← attempt (removePartial path)
    throw (.writeOutput path)

/-- Freeze a module. -/
def buildFile (settings : Settings) (request : BuildRequest) : ExceptT BuildError IO Unit := do
  let image ← imageFrom (loadFile request.input) settings request.module
  emitFile request.output (ArrayText.render request.module image)

/-- Carry out what the arguments ask for, and give the exit code. -/
def runProgram (arguments : List String) : IO UInt32 := do
  match parseArguments arguments with
  | .error fault =>
    report fault.message
    return 2
  | .ok .showVersion =>
    IO.println s!"{programName} {programVersion}"
    return 0
  | .ok .showHelp =>
    IO.print usageText
    return 0
  | .ok (.build request useEnvironment) =>
    IO.print (announcement request)
    let level ← IO.getEnv optimizeVariable
    let lookUp := fun name => if name = optimizeVariable then level else none
    let result ←
      match Settings.applyEnvironment { useEnvironment } lookUp with
      | .error error => pure (.error error)
      | .ok settings => (buildFile settings request).run
    match result with
    | .ok () => return 0
    | .error error =>
      report error.message
      return 1

end FrozenScript

/-- The entry point of the program. -/
def main (arguments : List String) : IO UInt32 :=
  FrozenScript.runProgram arguments

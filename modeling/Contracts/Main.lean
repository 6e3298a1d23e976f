import Contracts.CommandLine.Run

/-!
# The program

The command line on a machine: files and the environment are those of the process. No solver is
started from here, so each counts as not installed.
-/

set_option autoImplicit false

namespace Contracts.CommandLine

/-- Whether a variable of the environment is set, and set to something else than `0`. -/
def switchedOn (name : String) : IO (Option Bool) := do
  return (← IO.getEnv name).map (· != "0")

/-- Colours are used on a terminal, unless the environment asks for them or forbids them. -/
def machinePalette : IO Palette := do
  let force ← switchedOn "CLICOLOR_FORCE"
  let wanted ← switchedOn "CLICOLOR"
  let forbidden ← switchedOn "NO_COLOR"
  let terminal ← (← IO.getStdout).isTty
  return { colored := force == some true
    || (forbidden.isNone && wanted.getD true && terminal) }

/-- Why the system refuses a file. -/
def systemMessage (e : IO.Error) : String :=
  match e with
  | .noFileOrDirectory _ code details | .inappropriateType _ code details
  | .permissionDenied _ code details | .invalidArgument _ code details =>
    details ++ " (os error " ++ toString code ++ ")"
  | e => toString e

/-- The text of a file. -/
def readMachineFile (path : String) : IO (Except String String) := do
  let bytes : IO ByteArray := do (← IO.FS.Handle.mk path .read).readBinToEnd
  match ← bytes.toBaseIO with
  | .error e => return .error (systemMessage e)
  | .ok bytes =>
    match String.fromUTF8? bytes with
    | some text => return .ok text
    | none => return .error "stream did not contain valid UTF-8"

/-- Writes a file into a directory, which is made if need be. -/
def writeMachineFile (dir name text : String) : IO Unit := do
  let made := (if isAbsolute dir then "/" else "") ++ "/".intercalate (dirSteps dir)
  discard (do
    if !made.isEmpty then IO.FS.createDirAll made
    IO.FS.writeFile (joinPath dir name) text : IO Unit).toBaseIO

/-- The host that is the machine. -/
def machine (palette : Palette) : Host IO where
  readFile := readMachineFile
  writeFile := writeMachineFile
  solver := fun _ _ => pure none
  clock := IO.monoMsNow
  printOut := IO.println
  printErr := IO.eprintln
  palette := palette

/-- Runs the command line on the machine. -/
def runOnMachine (args : List String) : IO UInt32 := do
  let host := machine (← machinePalette)
  let exit ← host.run args (← IO.getEnv solverVariable)
  return exit.status.toUInt32

end Contracts.CommandLine

/-- The program. -/
def main (args : List String) : IO UInt32 := Contracts.CommandLine.runOnMachine args

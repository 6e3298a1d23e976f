import Contracts.Check
import Contracts.CommandLine.Options
import Contracts.CommandLine.Path
import Contracts.Report.Document
import Contracts.Report.Layout
import Contracts.Syntax.Decode

/-!
# A run of the command line

A run reads a program, checks it and writes the report: text to the error output, JSON to the
standard output. All that it needs from outside is a `Host`, so that it runs on a machine as well
as on files and answers that are given.
-/

set_option autoImplicit false

namespace Contracts.CommandLine

open Smt

/-- The name under which the program speaks of itself. -/
def toolName : String := "hoare-fv"

/-- The version of the program. -/
def toolVersion : String := "0.1.0"

/-- The environment variable that names a solver. -/
def solverVariable : String := "HOARE_FV_SOLVER"

/-- What a run needs from outside. -/
structure Host (m : Type → Type) where
  /-- The text of a file, or why it cannot be read. -/
  readFile : String → m (Except String String)
  /-- Writes a file of the given name into a directory, which is made if need be. That it cannot
  be written does not stop a run. -/
  writeFile : (dir name text : String) → m Unit
  /-- How a solver with a time limit in milliseconds answers; none if it is not installed. -/
  solver : SolverKind → Nat → m (Option (Script → m (Except SolverError Answer)))
  /-- The time in milliseconds. -/
  clock : m Nat
  /-- Writes a line to the standard output. -/
  printOut : String → m Unit
  /-- Writes a line to the error output. -/
  printErr : String → m Unit
  palette : Palette

/-- Why a run ends before anything is checked. -/
inductive StartError where
  | unreadable (path reason : String)
  | malformed
  | solver (error : SolverError)
  deriving DecidableEq, Repr

/-- The message of an error. -/
def StartError.message : StartError → String
  | unreadable path reason => "cannot read " ++ path ++ ": " ++ reason
  | malformed => "invalid input: malformed program"
  | solver e => e.message

/-- The help text. -/
def usage : List String :=
  [ toolName ++ ": weakest-precondition verifier for annotated modules",
    "",
    "USAGE:",
    "    " ++ toolName ++ " [OPTIONS] <MODULE.json>",
    "",
    "OPTIONS:",
    "    --timeout <SECONDS>         Solver timeout per function, 0 for none (default: "
      ++ toString defaultTimeoutSeconds ++ ")",
    "    --solver <NAME>             z3, cvc5 or yices (default: $" ++ solverVariable ++ " or z3)",
    "    --jobs, -j <N>              Functions checked in parallel (default: 1)",
    "    --output-format <FORMAT>    Output format: text or json (default: text)",
    "    --close-loops               Quantify loop obligations over loop-assigned variables",
    "                                (without it loop proofs only cover the entry state and are "
      ++ "unsound)",
    "    --dump-smt <DIR>            Write each function's SMT-LIB query to DIR/<function>.smt2",
    "    --verbose, -v               Show timings and info-level logs",
    "    --version, -V               Print version information",
    "    --help, -h                  Print this help",
    "",
    "EXIT STATUS:",
    "    0  every function verified",
    "    1  a function failed, was inconclusive or could not be checked",
    "    2  usage, input or solver setup error" ]

/-- How a run ends. -/
inductive Exit where
  /-- Every function is verified, or the run was asked for nothing else than help. -/
  | success
  /-- Something stands against some function. -/
  | unverified
  /-- The run could not start. -/
  | misuse
  deriving DecidableEq, Repr

/-- The exit status of the process. -/
def Exit.status : Exit → Nat
  | success => 0
  | unverified => 1
  | misuse => 2

section

variable {m : Type → Type} [Monad m]

/-- The line that reports an error. -/
def Host.printError (host : Host m) (message : String) : m Unit :=
  host.printErr (host.palette.paint .alarm "error:" ++ " " ++ message)

/-- Reads the program in a file. -/
def Host.loadProgram (host : Host m) (path : String) : m (Except StartError Program) := do
  match ← host.readFile path with
  | .error reason => return .error (.unreadable path reason)
  | .ok text =>
    match Program.parse? text with
    | some p => return .ok p
    | none => return .error .malformed

/-- The backend of a run: each query is written to a file first, if that is wanted. -/
def Host.backend (host : Host m) (options : Options)
    (ask : Script → m (Except SolverError Answer)) : Backend m where
  ask := ask
  announce := fun query =>
    match options.dumpDir with
    | some dir => host.writeFile dir (query.function ++ ".smt2") query.script.query
    | none => pure ()
  clock := host.clock

/-- Checks the program in a file. -/
def Host.verify (host : Host m) (input : String) (options : Options) :
    m (Except StartError Report) := do
  match ← host.loadProgram input with
  | .error e => return .error e
  | .ok p =>
    match ← host.solver options.solver options.timeoutMs with
    | none => return .error (.solver (.notFound options.solver options.solver.binary))
    | some ask =>
      let name := programName input
      if options.format = .text then
        host.printErr (Report.header host.palette name options.solver.name)
      return .ok (← p.check (host.backend options ask) options.closeLoops options.jobs name)

/-- Writes a report. -/
def Host.printReport (host : Host m) (options : Options) (report : Report) : m Unit :=
  match options.format with
  | .text => (report.layout host.palette options.verbose).forM host.printErr
  | .json => host.printOut report.toJson.pretty

/-- Runs the command line with the given arguments and the solver that the environment names. -/
def Host.run (host : Host m) (args : List String) (envSolver : Option String) : m Exit := do
  match readArguments args envSolver with
  | .error e =>
    host.printError e.message
    host.printErr "Run with --help for usage."
    return .misuse
  | .ok .help =>
    usage.forM host.printErr
    return .success
  | .ok .version =>
    host.printErr (toolName ++ " " ++ toolVersion)
    return .success
  | .ok (.verify input options) =>
    match ← host.verify input options with
    | .error e =>
      host.printError e.message
      return .misuse
    | .ok report =>
      host.printReport options report
      return if report.allVerified then .success else .unverified

end

end Contracts.CommandLine

import Contracts.Solver.Kind
import Contracts.Text

/-!
# Command-line options

Arguments are read from left to right. An option with a value is written `--name value` or
`--name=value`; in the first form the next argument is the value, whatever it looks like. Help and
version end the reading where they stand. Of an option given twice the last counts, and only the
last name of a solver has to be one.
-/

set_option autoImplicit false

namespace Contracts.CommandLine

/-- How results are written. -/
inductive OutputFormat where
  | text | json
  deriving DecidableEq, Repr

def OutputFormat.name : OutputFormat → String
  | text => "text"
  | json => "json"

def OutputFormat.ofName? : String → Option OutputFormat
  | "text" => some text
  | "json" => some json
  | _ => none

/-- How a program is checked. -/
structure Options where
  solver : SolverKind
  /-- Time limit of a query; zero is no limit. -/
  timeoutMs : Nat
  jobs : Nat
  closeLoops : Bool
  /-- Where queries are written. -/
  dumpDir : Option String
  format : OutputFormat
  verbose : Bool
  deriving DecidableEq, Repr

/-- The time limit unless stated otherwise. -/
def defaultTimeoutSeconds : Nat := 30

/-- The options without arguments. -/
def Options.default : Options :=
  { solver := .z3, timeoutMs := defaultTimeoutSeconds * 1000, jobs := 1, closeLoops := false,
    dumpDir := none, format := .text, verbose := false }

/-- What the arguments ask for. -/
inductive Request where
  | help
  | version
  | verify (input : String) (options : Options)
  deriving DecidableEq, Repr

/-! ## Arguments -/

/-- The options that take a value. -/
inductive ValueOption where
  | timeout | jobs | solver | outputFormat | dumpSmt
  deriving DecidableEq, Repr

def ValueOption.name : ValueOption → String
  | timeout => "--timeout"
  | jobs => "--jobs"
  | solver => "--solver"
  | outputFormat => "--output-format"
  | dumpSmt => "--dump-smt"

/-- The option of a name; one has a short name too. -/
def ValueOption.ofName? : String → Option ValueOption
  | "--timeout" => some timeout
  | "--jobs" | "-j" => some jobs
  | "--solver" => some solver
  | "--output-format" => some outputFormat
  | "--dump-smt" => some dumpSmt
  | _ => none

/-- The options without a value. -/
inductive Switch where
  | help | version | verbose | closeLoops
  deriving DecidableEq, Repr

def Switch.ofName? : String → Option Switch
  | "--help" | "-h" => some help
  | "--version" | "-V" => some version
  | "--verbose" | "-v" => some verbose
  | "--close-loops" => some closeLoops
  | _ => none

/-- An argument by itself. -/
inductive Argument where
  | switch (s : Switch)
  | option (o : ValueOption) (inline : Option String)
  | unknown (name : String)
  | input (path : String)
  deriving DecidableEq, Repr

/-- The name in an argument and the value behind its first equals sign, which counts only behind
two dashes. -/
def splitInline (arg : String) : String × Option String :=
  let cs := arg.toList
  match cs.dropWhile (· != '=') with
  | '=' :: value =>
    if Text.startsWith ['-', '-'] cs then
      (String.ofList (cs.takeWhile (· != '=')), some (String.ofList value))
    else (arg, none)
  | _ => (arg, none)

/-- Reads an argument by itself. A switch takes no notice of a value. -/
def Argument.ofString (arg : String) : Argument :=
  let (name, inline) := splitInline arg
  match Switch.ofName? name, ValueOption.ofName? name with
  | some s, _ => .switch s
  | none, some o => .option o inline
  | none, none => if Text.startsWith ['-'] name.toList then .unknown name else .input name

/-! ## Errors -/

/-- What is wrong with the arguments. -/
inductive UsageError where
  | unknownOption (name : String)
  | missingValue (option : ValueOption)
  | notANumber (option : ValueOption) (text : String)
  | noJobs
  | unknownFormat (text : String)
  | unknownSolver (text : String)
  | severalInputs
  | missingInput
  deriving DecidableEq, Repr

/-- The message of an error. -/
def UsageError.message : UsageError → String
  | unknownOption name => "unknown option '" ++ name ++ "'"
  | missingValue o => o.name ++ " requires a value"
  | notANumber o text => o.name ++ ": '" ++ text ++ "' is not a valid number"
  | noJobs => "--jobs must be at least 1"
  | unknownFormat text => "unknown output format '" ++ text ++ "' (expected 'text' or 'json')"
  | unknownSolver text => SolverKind.unknownMessage text
  | severalInputs => "expected exactly one input file"
  | missingInput => "missing input file"

/-! ## Reading -/

/-- What the arguments read so far say. -/
structure Reading where
  options : Options
  /-- The name given for a solver. -/
  solverName : Option String
  input : Option String
  deriving DecidableEq, Repr

/-- The reading before the first argument. -/
def Reading.start : Reading := { options := .default, solverName := none, input := none }

/-- The most that a number may be: what fits in 64 bits. -/
def largestNumber : Nat := 18446744073709551615

/-- The number that is the value of an option. -/
def readNumber (o : ValueOption) (text : String) : Except UsageError Nat :=
  match Text.natural? text.toList with
  | some n => if n ≤ largestNumber then .ok n else .error (.notANumber o text)
  | none => .error (.notANumber o text)

/-- The reading after an option with its value. -/
def Reading.set (r : Reading) (o : ValueOption) (value : String) : Except UsageError Reading :=
  match o with
  | .timeout => do
    let seconds ← readNumber o value
    return { r with options.timeoutMs := min (seconds * 1000) largestNumber }
  | .jobs => do
    let jobs ← readNumber o value
    if jobs = 0 then throw .noJobs
    return { r with options.jobs := jobs }
  | .solver => .ok { r with solverName := some value }
  | .outputFormat =>
    match OutputFormat.ofName? value with
    | some format => .ok { r with options.format := format }
    | none => .error (.unknownFormat value)
  | .dumpSmt => .ok { r with options.dumpDir := some value }

/-- The reading after the path of an input. -/
def Reading.setInput (r : Reading) (path : String) : Except UsageError Reading :=
  match r.input with
  | some _ => .error .severalInputs
  | none => .ok { r with input := some path }

/-- What a reading asks for: the solver is the one given, else the one of the environment. -/
def Reading.finish (r : Reading) (envSolver : Option String) : Except UsageError Request := do
  let solver ← match r.solverName.or envSolver with
    | none => pure r.options.solver
    | some name => match SolverKind.ofName? name with
      | some kind => pure kind
      | none => throw (.unknownSolver name)
  match r.input with
  | some path => return .verify path { r.options with solver }
  | none => throw .missingInput

/-- Reads arguments from a reading on. -/
def Reading.readAll (envSolver : Option String) :
    Reading → List String → Except UsageError Request
  | r, [] => r.finish envSolver
  | r, arg :: args =>
    match Argument.ofString arg with
    | .switch .help => .ok .help
    | .switch .version => .ok .version
    | .switch .verbose => Reading.readAll envSolver { r with options.verbose := true } args
    | .switch .closeLoops => Reading.readAll envSolver { r with options.closeLoops := true } args
    | .option o (some value) => do Reading.readAll envSolver (← r.set o value) args
    | .option o none =>
      match args with
      | [] => .error (.missingValue o)
      | value :: args => do Reading.readAll envSolver (← r.set o value) args
    | .unknown name => .error (.unknownOption name)
    | .input path => do Reading.readAll envSolver (← r.setInput path) args

/-- Reads the arguments of a command line, given the solver that the environment names. -/
def readArguments (args : List String) (envSolver : Option String) : Except UsageError Request :=
  Reading.start.readAll envSolver args

/-- Whether some argument is the switch for verbose output, read before all others. -/
def wantsVerbose (args : List String) : Bool :=
  args.any fun arg => arg == "--verbose" || arg == "-v"

end Contracts.CommandLine

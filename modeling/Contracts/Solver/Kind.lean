/-!
# Solvers

The solvers that queries can go to: their names, how they are called to read a query from standard
input, and how they are told a time limit.
-/

set_option autoImplicit false

namespace Contracts

/-- A solver. -/
inductive SolverKind where
  | z3 | cvc5 | yices
  deriving DecidableEq, Repr

namespace SolverKind

/-- The name in reports. -/
def name : SolverKind → String
  | z3 => "Z3"
  | cvc5 => "CVC5"
  | yices => "Yices"

/-- The name of the binary. -/
def binary : SolverKind → String
  | z3 => "z3"
  | cvc5 => "cvc5"
  | yices => "yices-smt2"

/-- The solver of a name; capital letters do not matter. -/
def ofName? (name : String) : Option SolverKind :=
  match String.ofList (name.toList.map Char.toLower) with
  | "z3" => some z3
  | "cvc5" => some cvc5
  | "yices" | "yices2" | "yices-smt2" => some yices
  | _ => none

/-- What is said of a name that no solver has. -/
def unknownMessage (name : String) : String :=
  "Unknown solver: " ++ name ++ ". Valid options: z3, cvc5, yices"

/-- The arguments that make a solver read from standard input. -/
def inputArgs : SolverKind → List String
  | z3 => ["-in"]
  | cvc5 => ["--lang", "smt2", "--produce-models"]
  | yices => []

/-- The argument for a time limit in milliseconds; zero is no limit. One solver counts in whole
seconds, rounded up. -/
def timeoutArgs (kind : SolverKind) (ms : Nat) : List String :=
  if ms = 0 then []
  else match kind with
    | z3 => ["-t:" ++ toString ms]
    | cvc5 => ["--tlimit=" ++ toString ms]
    | yices => ["--timeout=" ++ toString ((ms + 999) / 1000)]

end SolverKind

/-- How a solver is called. -/
structure SolverConfig where
  kind : SolverKind
  path : String
  timeoutMs : Nat
  extraArgs : List String

namespace SolverConfig

/-- All arguments of a call. -/
def args (c : SolverConfig) : List String :=
  c.kind.inputArgs ++ c.kind.timeoutArgs c.timeoutMs ++ c.extraArgs

/-- What a solver is given beyond its own time limit before it is stopped, in milliseconds. -/
def graceMs : Nat := 1500

/-- When a solver is stopped, in milliseconds, if it has a time limit. -/
def wallLimitMs? (c : SolverConfig) : Option Nat :=
  if c.timeoutMs = 0 then none else some (c.timeoutMs + graceMs)

end SolverConfig

end Contracts

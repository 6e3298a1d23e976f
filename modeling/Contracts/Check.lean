import Contracts.Report.Basic
import Contracts.Solver.Answer
import Contracts.WeakestPre

/-!
# Checking a program

The check of a function has two parts. First its obligation is built and encoded; this needs no
solver and depends on earlier functions only through the session. Then the query goes to a
backend, and its answer decides the outcome. The first part is planned for the whole program: with
one job the functions share a session, with more each has its own.

A backend answers in a monad, so that the same check serves a solver process, a fixed answer, and
a record of what was asked.
-/

set_option autoImplicit false

namespace Contracts

open Smt

/-- What comes of a function before a solver is asked. -/
inductive Preparation where
  /-- There is no postcondition. -/
  | nothingToProve
  /-- There is no obligation, or no query for it. -/
  | stopped (stage : Stage) (error : VerifyError)
  | ready (query : Query)

/-- Builds and encodes the obligation of a function. -/
def Program.prepare (p : Program) (close : Bool) (f : FunctionDef) : StateM Session Preparation :=
  match f.obligation close with
  | .error e => pure (.stopped .pending e)
  | .ok none => pure .nothingToProve
  | .ok (some obligation) => fun s =>
    match p.query f obligation s with
    | (.error e, s) => (.stopped .built e, s)
    | (.ok query, s) => (.ready query, s)

/-- Prepares functions one after the other in one session. -/
def Program.prepareShared (p : Program) (close : Bool) :
    List FunctionDef → Session → List (FunctionDef × Preparation)
  | [], _ => []
  | f :: fs, s =>
    let (prepared, s) := p.prepare close f s
    (f, prepared) :: p.prepareShared close fs s

/-- Prepares each function in a session of its own. -/
def Program.prepareAlone (p : Program) (close : Bool) (fs : List FunctionDef) :
    List (FunctionDef × Preparation) :=
  fs.map fun f => (f, (p.prepare close f Session.new).1)

/-- The functions of a program, prepared for so many jobs. -/
def Program.plan (p : Program) (close : Bool) (jobs : Nat) : List (FunctionDef × Preparation) :=
  if jobs ≤ 1 then p.prepareShared close p.functions Session.new
  else p.prepareAlone close p.functions

/-- What an answer says of a function. -/
def Program.judge (p : Program) (f : FunctionDef) (query : Query) :
    Except SolverError Answer → Outcome
  | .error e => .error .encoded e.message
  | .ok .unsat => .verified
  | .ok (.sat model) => .failed (p.counterexample f query.symbols model)
  | .ok (.unknown reason) => .inconclusive reason

/-- What a check needs from outside. -/
structure Backend (m : Type → Type) where
  /-- Answers a query. -/
  ask : Script → m (Except SolverError Answer)
  /-- Is told of each query before it is asked. -/
  announce : Query → m Unit
  /-- The time in milliseconds. -/
  clock : m Nat

/-- Settles a prepared function: asks for an answer where there is a query. -/
def Program.settle {m : Type → Type} [Monad m] (p : Program) (backend : Backend m)
    (f : FunctionDef) : Preparation → m Outcome
  | .nothingToProve => pure .skipped
  | .stopped stage e => pure (.error stage e.message)
  | .ready query => do
    backend.announce query
    return p.judge f query (← backend.ask query.script)

/-- Settles a prepared function and takes the time. -/
def Program.settleTimed {m : Type → Type} [Monad m] (p : Program) (backend : Backend m)
    (f : FunctionDef) (prepared : Preparation) : m FunctionResult := do
  let start ← backend.clock
  let outcome ← p.settle backend f prepared
  let stop ← backend.clock
  return { name := f.name, outcome, durationMs := stop - start }

/-- Checks every function of a program, in order. -/
def Program.check {m : Type → Type} [Monad m] (p : Program) (backend : Backend m) (close : Bool)
    (jobs : Nat) (name : String) : m Report := do
  let results ← (p.plan close jobs).mapM fun (f, prepared) => p.settleTimed backend f prepared
  return { name, results }

end Contracts

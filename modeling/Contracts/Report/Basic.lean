import Contracts.Counterexample

/-!
# Reports

How the check of each function of a program ended, in the order of the program, with counts over
all of them.
-/

set_option autoImplicit false

namespace Contracts

/-- How far the check of a function has come. -/
inductive Stage where
  | pending
  /-- There is an obligation. -/
  | built
  /-- There is a query. -/
  | encoded
  /-- There is an answer. -/
  | discharged
  deriving DecidableEq, Repr

def Stage.name : Stage → String
  | pending => "pending"
  | built => "built"
  | encoded => "encoded"
  | discharged => "discharged"

/-- How the check of a function ended. -/
inductive Outcome where
  | verified
  | failed (counterexample : Counterexample)
  /-- The solver does not know. -/
  | inconclusive (reason : String)
  /-- The check went no further than the stage. -/
  | error (stage : Stage) (message : String)
  /-- There is nothing to prove. -/
  | skipped
  deriving DecidableEq, Repr

namespace Outcome

/-- The kinds of outcomes. -/
inductive Kind where
  | verified | failed | inconclusive | error | skipped
  deriving DecidableEq, Repr

def kind : Outcome → Kind
  | verified => .verified
  | failed _ => .failed
  | inconclusive _ => .inconclusive
  | error .. => .error
  | skipped => .skipped

/-- Whether nothing stands against the function. -/
def isVerified (o : Outcome) : Bool := o.kind == .verified || o.kind == .skipped

end Outcome

/-- The result for one function. -/
structure FunctionResult where
  name : String
  outcome : Outcome
  durationMs : Nat
  deriving DecidableEq, Repr

/-- The results for a program. -/
structure Report where
  name : String
  results : List FunctionResult
  deriving DecidableEq, Repr

namespace Report

/-- Whether nothing stands against any function. -/
def allVerified (r : Report) : Bool := r.results.all fun f => f.outcome.isVerified

/-- How many functions ended in a kind of outcome. -/
def count (r : Report) (kind : Outcome.Kind) : Nat :=
  r.results.countP fun f => f.outcome.kind == kind

/-- The time of all checks together. -/
def totalMs (r : Report) : Nat := r.results.foldl (fun total f => total + f.durationMs) 0

/-- The report with other durations, by position; those beyond the list are zero. -/
def withDurations (r : Report) (durations : List Nat) : Report :=
  { r with results := r.results.mapIdx fun i f => { f with durationMs := durations.getD i 0 } }

end Report

end Contracts

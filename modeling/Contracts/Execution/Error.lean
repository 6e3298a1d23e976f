/-!
# Why an execution stops

Each cause is a constructor; the words are in `RunError.message`.
-/

set_option autoImplicit false

namespace Contracts

/-- What stops an execution or an evaluation. -/
inductive RunError where
  | unbound (name : String)
  /-- An array where an integer is needed, or an integer where an array is. -/
  | wrongKind (name : String)
  | divisionByZero
  | overflow
  | outOfFuel
  | tooDeep (name : String)
  | unknownFunction (name : String)
  | unknownFormula (name : String)
  | arity (name : String) (expected found : Nat)
  | quantifier
  deriving DecidableEq, Repr

/-- The message of an error. -/
def RunError.message : RunError → String
  | unbound x => "variable `" ++ x ++ "` is not defined"
  | wrongKind x => "`" ++ x ++ "` has the wrong kind of value"
  | divisionByZero => "division by zero"
  | overflow => "arithmetic overflow"
  | outOfFuel => "loop iteration limit reached"
  | tooDeep x => "call depth limit reached in `" ++ x ++ "`"
  | unknownFunction x => "unknown function `" ++ x ++ "`"
  | unknownFormula x => "unknown formula `" ++ x ++ "`"
  | arity x n m =>
    "`" ++ x ++ "` expects " ++ toString n ++ " argument(s), got " ++ toString m
  | quantifier => "quantified predicates cannot be evaluated"

end Contracts

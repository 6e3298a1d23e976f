import Contracts.Syntax.Text

/-!
# Why a function has no obligation or no query

Each cause is a constructor. The words are in `VerifyError.message` and nowhere else; every cause
belongs to one `VerifyError.Kind`, and two of the kinds are faults of the program's shape.
-/

set_option autoImplicit false

namespace Contracts

/-- What keeps an obligation from being built or encoded. -/
inductive VerifyError where
  /-- A cell of the array is written while a formula takes the whole array as an argument. -/
  | cellUnderFormula (array formula : String)
  /-- An assignment whose targets and expressions differ in number. -/
  | assignmentCount (targets exprs : Nat)
  /-- A loop, named by its condition, that carries no invariant. -/
  | missingInvariant (condition : Pred)
  | unboundVariable (name : String)
  | unknownFormula (name : String)
  /-- Wrong number of arguments of a function or a formula. -/
  | arity (name : String) (expected found : Nat)
  | quantifiedArray (name : String)
  | arrayAsScalar (name : String)
  | notAnArray (name : String)
  | arrayParameters (function : String)
  | returnCount (function : String) (count : Nat)
  /-- A formula whose expansion meets itself. -/
  | selfReference (formula : String)
  | scalarForArray (argument param formula : String)
  | arrayNameNeeded (param formula : String) (argument : Expr)
  deriving DecidableEq

namespace VerifyError

/-- The kinds under which causes are reported. -/
inductive Kind where
  | structural | missingInvariant | unboundVariable | unknownFormula | arityMismatch | encoding
  deriving DecidableEq, Repr

def kind : VerifyError → Kind
  | cellUnderFormula .. | assignmentCount .. => .structural
  | missingInvariant _ => .missingInvariant
  | unboundVariable _ => .unboundVariable
  | unknownFormula _ => .unknownFormula
  | arity .. => .arityMismatch
  | quantifiedArray _ | arrayAsScalar _ | notAnArray _ | arrayParameters _ | returnCount ..
  | selfReference _ | scalarForArray .. | arrayNameNeeded .. => .encoding

/-- Whether the cause is the program's shape rather than what a query can express. -/
def isStructural (e : VerifyError) : Bool :=
  e.kind == .structural || e.kind == .missingInvariant

/-- The text between backquotes in which messages quote names. -/
def quote (name : String) : String := "`" ++ name ++ "`"

/-- What is wrong, without the words that introduce its kind. -/
def detail : VerifyError → String
  | cellUnderFormula a f => "cell of " ++ quote a ++ " written while " ++ quote f
      ++ " takes the whole array; array writes only rewrite explicit reads"
  | assignmentCount n m => "assignment has " ++ toString n ++ " target(s) but " ++ toString m
      ++ " expression(s)"
  | missingInvariant c => "loop " ++ quote ("while (" ++ c.text ++ ")") ++ " has no invariant"
  | unboundVariable x => "unbound variable " ++ quote x
  | unknownFormula x => "unknown formula " ++ quote x
  | arity x n m => quote x ++ " expects " ++ toString n ++ " argument(s), got " ++ toString m
  | quantifiedArray x => "quantified variable " ++ quote x ++ " must be an int"
  | arrayAsScalar x => "array " ++ quote x ++ " used as a scalar"
  | notAnArray x => quote x ++ " is not an array"
  | arrayParameters f => "call to " ++ quote f
      ++ " passes arrays; only scalar arguments are supported"
  | returnCount f n => quote f ++ " returns " ++ toString n
      ++ " values and cannot be used in an expression"
  | selfReference f => "formula " ++ quote f ++ " refers to itself"
  | scalarForArray x p f => quote x ++ " passed for array parameter " ++ quote p ++ " of "
      ++ quote f
  | arrayNameNeeded p f e => "array parameter " ++ quote p ++ " of " ++ quote f
      ++ " needs an array name, got " ++ quote e.text

/-- The message of an error. -/
def message (e : VerifyError) : String :=
  match e.kind with
  | .structural => "malformed program: " ++ e.detail
  | .encoding => "cannot encode: " ++ e.detail
  | _ => e.detail

end VerifyError

end Contracts

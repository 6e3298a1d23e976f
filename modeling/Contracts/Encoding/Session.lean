import Contracts.Error
import Contracts.Smt.Script

/-!
# Sessions

A session holds what the encoding of obligations accumulates. Part of it outlives a function: the
uninterpreted functions and constants declared so far, the functions whose contracts are axioms
already, the global commands and a counter for new symbols. The rest (`FunctionScope`) starts
afresh with each function: its declarations and assertions, the constants of array cells, the
selectors and lengths of arrays, and the call sites seen.

An encoding step keeps what it did to the session even where it fails, so a step is a function
from sessions to a result *and* a session (`EncodeM`).
-/

set_option autoImplicit false

namespace Contracts

open Smt

/-- The constant that stands for one array cell. -/
structure CellConst where
  array : String
  index : Term
  symbol : String
  deriving DecidableEq

/-- What a session knows of the function being encoded. Lists grow at their end. -/
structure FunctionScope where
  function : String
  /-- Names of the constants in `decls`. -/
  declared : List String
  decls : List Command
  assertions : List Command
  cells : List CellConst
  /-- Arrays that have a selector function. -/
  selectors : List String
  /-- Arrays that have a length constant. -/
  lengths : List String
  /-- Calls whose contract is asserted at their arguments. -/
  callSites : List (String × List Term)

/-- The scope at the start of a function. -/
def FunctionScope.start (function : String) : FunctionScope :=
  { function, declared := [], decls := [], assertions := [], cells := [], selectors := [],
    lengths := [], callSites := [] }

/-- A session. -/
structure Session where
  /-- The uninterpreted functions and their numbers of arguments. -/
  arities : List (String × Nat)
  globalConsts : List String
  /-- Functions whose contract axioms are settled, for good or ill. -/
  axiomatized : List String
  /-- Functions whose contract is being worked on. -/
  inProgress : List String
  commands : List Command
  scope : FunctionScope
  /-- How many symbols were made so far. -/
  counter : Nat

/-- A session without history. -/
def Session.new : Session :=
  { arities := [], globalConsts := [], axiomatized := [], inProgress := [], commands := [],
    scope := .start "", counter := 0 }

/-- A step of an encoding. -/
abbrev EncodeM := ExceptT VerifyError (StateM Session)

/-- The result of a step, or nothing where it fails; the session goes on either way. -/
def attempt {α : Type} (step : EncodeM α) : EncodeM (Option α) := fun s =>
  match step s with
  | (.ok a, s) => (.ok (some a), s)
  | (.error _, s) => (.ok none, s)

namespace Session

/-! ## Observations -/

def isDeclaredFun (s : Session) (symbol : String) : Bool := (s.arities.lookup symbol).isSome

def isAxiomatized (s : Session) (name : String) : Bool := s.axiomatized.contains name

def isInProgress (s : Session) (name : String) : Bool := s.inProgress.contains name

/-- The session at the start of a function. -/
def beginFunction (s : Session) (function : String) : Session :=
  { s with scope := .start function }

/-- The equations that tie the cells of an array to its selector, where it has one. -/
def cellLinks (s : FunctionScope) : List Command :=
  (s.cells.filter fun c => s.selectors.contains c.array).map fun c =>
    .assert (.eq (.const c.symbol) (.app (c.array ++ "!sel") [c.index]))

/-- The script that asks whether the goal can fail, given all that was declared and asserted. -/
def assemble (s : Session) (goal : Term) : Script :=
  [.setLogic "ALL", .comment ("verification condition for `" ++ s.scope.function ++ "`")]
    ++ s.commands ++ s.scope.decls ++ s.scope.assertions ++ cellLinks s.scope
    ++ [.assert (.not goal), .checkSat, .getModel]

/-! ## Steps on the session -/

/-- The session with a global command more. -/
def addCommand (s : Session) (c : Command) : Session := { s with commands := s.commands ++ [c] }

/-- The session with a declaration more in the current function. -/
def addDecl (s : Session) (c : Command) : Session :=
  { s with scope := { s.scope with decls := s.scope.decls ++ [c] } }

/-- The session with an assertion more in the current function. -/
def addAssertion (s : Session) (t : Term) : Session :=
  { s with scope := { s.scope with assertions := s.scope.assertions ++ [.assert t] } }

/-- Declares an integer constant for the whole session, once. -/
def declareGlobalConst (s : Session) (name : String) : Session :=
  if s.globalConsts.contains name then s
  else { s with
    globalConsts := name :: s.globalConsts
    commands := s.commands ++ [.declareConst name .int] }

/-- Declares an integer constant for the current function, once. -/
def declareLocalConst (s : Session) (name : String) : Session :=
  if s.scope.declared.contains name then s
  else { s with
    scope := { s.scope with
      declared := name :: s.scope.declared
      decls := s.scope.decls ++ [.declareConst name .int] } }

end Session

/-- A symbol `base!n` with a number that no other symbol of the session has. -/
def freshSymbol (base : String) : EncodeM String := do
  let s ← get
  let n := s.counter + 1
  set { s with counter := n }
  return base ++ "!" ++ toString n

/-- Declares an uninterpreted function on integers, once; the arity of a name never changes. -/
def declareFun (name : String) (arity : Nat) : EncodeM Unit := do
  let s ← get
  match s.arities.lookup name with
  | some expected => if expected ≠ arity then throw (.arity name expected arity)
  | none =>
    set { s with
      arities := (name, arity) :: s.arities
      commands := s.commands ++ [Command.declareFun name (List.replicate arity .int) .int] }

/-- The constant of a cell at a ground index. -/
def cellSymbol (array : String) (index : Term) : EncodeM String := do
  let s ← get
  match s.scope.cells.find? fun c => c.array = array ∧ c.index = index with
  | some c => return c.symbol
  | none =>
    let symbol ← freshSymbol (array ++ "!elem")
    modify fun s => s.declareLocalConst symbol
    modify fun s =>
      { s with scope := { s.scope with cells := s.scope.cells ++ [{ array, index, symbol }] } }
    return symbol

/-- The function that reads an array at indices with quantified variables. -/
def selectorSymbol (array : String) : EncodeM String := do
  let symbol := array ++ "!sel"
  let s ← get
  if !s.scope.selectors.contains array then
    modify fun s => s.addDecl (.declareFun symbol [.int] .int)
    modify fun s =>
      { s with scope := { s.scope with selectors := array :: s.scope.selectors } }
  return symbol

/-- The constant of the length of an array, which is not negative. -/
def lengthSymbol (array : String) : EncodeM String := do
  let symbol := array ++ "!len"
  let s ← get
  if !s.scope.lengths.contains array then
    modify fun s => s.declareLocalConst symbol
    modify fun s => s.addAssertion (.binary .ge (.const symbol) (.int 0))
    modify fun s => { s with scope := { s.scope with lengths := array :: s.scope.lengths } }
  return symbol

/-- Marks a function as being worked on. -/
def enter (name : String) : EncodeM Unit :=
  modify fun s => { s with inProgress := name :: s.inProgress }

/-- Takes the mark away. -/
def leave (name : String) : EncodeM Unit :=
  modify fun s => { s with inProgress := s.inProgress.erase name }

end Contracts

import Contracts.Encoding.Contract

/-!
# Queries

The query of an obligation is the script whose satisfiability means that the obligation can fail,
together with what the symbols in it stand for.
-/

set_option autoImplicit false

namespace Contracts

open Smt

/-- Which symbols stand for which parts of a program. -/
structure SymbolTable where
  /-- The constant of each integer variable, in the order of declaration. -/
  scalars : List (String × String)
  /-- The array cells at ground indices. -/
  cells : List CellConst

namespace SymbolTable

/-- The constant of a variable. -/
def scalar? (t : SymbolTable) (name : String) : Option String := t.scalars.lookup name

/-- The cells of an array at literal indices, with their symbols. -/
def literalCells (t : SymbolTable) (array : String) : List (Int × String) :=
  t.cells.filterMap fun c => match c.index with
    | .int i => if c.array = array then some (i, c.symbol) else none
    | _ => none

end SymbolTable

/-- An encoded obligation. -/
structure Query where
  function : String
  script : Script
  symbols : SymbolTable

/-- The integer variables of a function with their constants. -/
def FunctionDef.scalars (f : FunctionDef) : List (String × String) :=
  (f.decls.filter (·.type == .int)).map fun p => (p.name, varSymbol p.name)

/-- The query of an obligation of a function. -/
def Program.query (p : Program) (f : FunctionDef) (obligation : Pred) : EncodeM Query := do
  modify fun s => s.beginFunction f.name
  modify fun s => (f.scalars.map Prod.snd).foldl Session.declareLocalConst s
  let goal ← p.encodePred obligation (Env.ofFunction f)
  let s ← get
  return {
    function := f.name
    script := s.assemble goal
    symbols := { scalars := f.scalars, cells := s.scope.cells } }

end Contracts

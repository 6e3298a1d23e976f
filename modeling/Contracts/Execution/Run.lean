import Contracts.Execution.Error
import Contracts.Execution.Value
import Contracts.Word

/-!
# Execution

Functions run on concrete values. Arithmetic is checked, every loop iteration uses up one unit of
fuel, and calls and formula references nest to a limited depth, so a run always ends.

A call or a formula reference leads one level down. `Below` is what is available there, and
`below n` gives it for `n` further levels; evaluation and execution at one level are recursions on
the syntax over a given `Below`.
-/

set_option autoImplicit false

namespace Contracts

/-- A computation that uses fuel and may stop with an error. -/
abbrev EvalM := StateT Nat (Except RunError)

/-- What a level can ask of the level below it. -/
structure Below where
  /-- Runs a function on its arguments, to its final state. -/
  run : FunctionDef → State → EvalM State
  /-- Evaluates the body of a formula, if the depth allows one more level. -/
  holds? : Option (Pred → State → EvalM Bool)

/-! ## Calls and formula references -/

/-- The arguments under the names of the parameters. -/
def bindParams (params : List Param) (values : List Value) : State :=
  State.ofPairs ((params.map Param.name).zip values)

/-- The values that a call returns. -/
def callFunction (p : Program) (b : Below) (name : String) (count : Nat)
    (operands : EvalM (List Value)) : EvalM (List Value) := do
  match p.function? name with
  | none => throw (.unknownFunction name)
  | some f =>
    if f.params.length ≠ count then throw (.arity name f.params.length count)
    let values ← operands
    let final ← b.run f (bindParams f.params values)
    return f.returns.map fun r => final[r.name]?.getD (.int 0)

/-- Whether a formula holds of its arguments. -/
def holdsFormula (p : Program) (b : Below) (name : String) (count : Nat)
    (operands : EvalM (List Value)) : EvalM Bool := do
  match p.formula? name with
  | none => throw (.unknownFormula name)
  | some d =>
    if d.params.length ≠ count then throw (.arity name d.params.length count)
    match b.holds? with
    | none => throw (.tooDeep name)
    | some holds =>
      let values ← operands
      holds d.body (bindParams d.params values)

/-! ## Expressions and predicates -/

/-- The integer of a variable. -/
def readVar (s : State) (x : String) : EvalM Int64 :=
  match s[x]? with
  | some (.int v) => pure v
  | some (.array _) => throw (.wrongKind x)
  | none => throw (.unbound x)

/-- The cell of an array. -/
def readCell (s : State) (a : String) (i : Int64) : EvalM Int64 :=
  match s[a]? with
  | some (.array c) => pure (c.read i)
  | some (.int _) => throw (.wrongKind a)
  | none => throw (.unbound a)

/-- The result of an operation. -/
def arithmetic (op : ArithOp) (a b : Int64) : EvalM Int64 :=
  if op = .div ∧ b = 0 then throw .divisionByZero
  else match op.onWord? a b with
    | some v => pure v
    | none => throw .overflow

/-- The array that an expression names. -/
def Expr.array? (s : State) : Expr → Option Cells
  | .var x => s.array? x
  | _ => none

/-- The length that a call asks for: `length` of the name of an array. -/
def askedLength? (s : State) (f : String) (args : List Expr) : Option Int64 :=
  match f, args with
  | "length", [a] => (a.array? s).map Cells.length
  | _, _ => none

mutual

/-- The value of an expression. -/
def Expr.eval (p : Program) (b : Below) (s : State) : Expr → EvalM Int64
  | .const n => pure n
  | .var x => readVar s x
  | .neg e => do
    match negWord? (← e.eval p b s) with
    | some v => pure v
    | none => throw .overflow
  | .binary op l r => do
    let m ← l.eval p b s
    let n ← r.eval p b s
    arithmetic op m n
  | .read a i => do readCell s a (← i.eval p b s)
  | .call f args => do
    match askedLength? s f args with
    | some n => pure n
    | none =>
      match ← callFunction p b f args.length (Expr.operands p b s args) with
      | [.int v] => pure v
      | _ => throw (.wrongKind f)
  | .cond t yes no => do
    if ← t.eval p b s then yes.eval p b s else no.eval p b s

/-- The values of arguments; the name of an array stands for the whole array. -/
def Expr.operands (p : Program) (b : Below) (s : State) : List Expr → EvalM (List Value)
  | [] => pure []
  | e :: es => do
    let v ← match e.array? s with
      | some c => pure (Value.array c)
      | none => Value.int <$> e.eval p b s
    return v :: (← Expr.operands p b s es)

/-- Whether a predicate holds. A connective looks at its second part only if it has to. -/
def Pred.eval (p : Program) (b : Below) (s : State) : Pred → EvalM Bool
  | .bool v => pure v
  | .compare op l r => do
    let m ← l.eval p b s
    let n ← r.eval p b s
    return op.holds m.toInt n.toInt
  | .not q => do return !(← q.eval p b s)
  | .and q r => do if ← q.eval p b s then r.eval p b s else pure false
  | .or q r => do if ← q.eval p b s then pure true else r.eval p b s
  | .implies q r => do if ← q.eval p b s then r.eval p b s else pure true
  | .paren q => q.eval p b s
  | .quantified .. => throw .quantifier
  | .formula f args => holdsFormula p b f args.length (Expr.operands p b s args)

end

/-! ## Assignments -/

/-- Where an assignment writes, with the index of a cell worked out. -/
inductive Place where
  | var (name : String)
  | cell (array : String) (index : Int64)

/-- The place of a target. -/
def Target.place (p : Program) (b : Below) (s : State) : Target → EvalM Place
  | .var x => pure (.var x)
  | .cell a i => do return .cell a (← i.eval p b s)

/-- The state with one place written. -/
def Place.write (s : State) (v : Value) : Place → EvalM State
  | .var x => pure (s.insert x v)
  | .cell a i =>
    match v, s[a]? with
    | .int v, some (.array c) => pure (s.insert a (.array (c.write i v)))
    | .int _, none => throw (.unbound a)
    | _, _ => throw (.wrongKind a)

/-- The state with several places written, in order. -/
def writeAll (s : State) : List (Place × Value) → EvalM State
  | [] => pure s
  | (place, v) :: rest => do writeAll (← place.write s v) rest

/-- The call that an expression list consists of. -/
def singleCall? : List Expr → Option (String × List Expr)
  | [.call f args] => some (f, args)
  | _ => none

/-- The values that an assignment to some number of targets distributes: those that a single call
returns, unless there is one target, else those of the expressions. -/
def assignedValues (p : Program) (b : Below) (s : State) (count : Nat) (exprs : List Expr) :
    EvalM (List Value) :=
  match singleCall? exprs with
  | some (f, args) =>
    if count ≠ 1 then callFunction p b f args.length (Expr.operands p b s args)
    else Expr.operands p b s exprs
  | none => Expr.operands p b s exprs

/-- Executes an assignment. All values and indices are those of the state before it; a call
without targets discards what it returns. -/
def execAssign (p : Program) (b : Below) (targets : List Target) (exprs : List Expr) (s : State) :
    EvalM State := do
  let values ← assignedValues p b s targets.length exprs
  if targets.isEmpty && (singleCall? exprs).isSome then return s
  if values.length ≠ targets.length then
    throw (.arity "assignment" targets.length values.length)
  let places ← targets.mapM (Target.place p b s)
  writeAll s (places.zip values)

/-! ## Statements -/

/-- Repeats a body while a test holds, for one unit of fuel each time. The bound is one more than
the fuel at the start, so the fuel ends first. -/
def iterate (test : State → EvalM Bool) (body : State → EvalM State) :
    Nat → State → Nat → Except RunError (State × Nat)
  | 0, _, _ => .error .outOfFuel
  | n + 1, s, fuel =>
    match test s fuel with
    | .error e => .error e
    | .ok (false, fuel) => .ok (s, fuel)
    | .ok (true, 0) => .error .outOfFuel
    | .ok (true, fuel + 1) =>
      match body s fuel with
      | .error e => .error e
      | .ok (s, fuel) => iterate test body n s fuel

mutual

/-- Executes a statement. -/
def Stmt.exec (p : Program) (b : Below) : Stmt → State → EvalM State
  | .assign targets exprs, s => execAssign p b targets exprs s
  | .block stmts, s => Stmt.execBlock p b stmts s
  | .branch condition yes no, s => do
    if ← condition.eval p b s then yes.exec p b s
    else match no with
      | some t => t.exec p b s
      | none => pure s
  | .loop condition body _, s => fun fuel =>
    iterate (fun s => condition.eval p b s) (fun s => body.exec p b s) (fuel + 1) s fuel

/-- Executes statements one after the other. -/
def Stmt.execBlock (p : Program) (b : Below) : List Stmt → State → EvalM State
  | [], s => pure s
  | t :: rest, s => do Stmt.execBlock p b rest (← t.exec p b s)

end

/-! ## Levels -/

/-- Runs a function at one level. -/
def FunctionDef.runAt (p : Program) (b : Below) (f : FunctionDef) (args : State) : EvalM State :=
  f.body.exec p b (State.start f args)

/-- What is available below a level with so many levels under it. -/
def below (p : Program) : Nat → Below
  | 0 => { run := fun f _ => throw (.tooDeep f.name), holds? := none }
  | n + 1 =>
    { run := fun f args => f.runAt p (below p n) args
      holds? := some fun q s => q.eval p (below p n) s }

/-- Levels of calls and formula references below the outermost. -/
def depthLimit : Nat := 64

/-- Loop iterations allowed to a run unless stated otherwise. -/
def defaultFuel : Nat := 100000

/-- Runs a function of a program; missing arguments, returns and locals start at their initial
values. The result is the final state. -/
def Program.run (p : Program) (f : FunctionDef) (args : State) (fuel : Nat) :
    Except RunError State :=
  (f.runAt p (below p depthLimit) args fuel).map Prod.fst

/-- Evaluates a predicate in a state. -/
def Program.holds (p : Program) (q : Pred) (s : State) (fuel : Nat) :
    Except RunError Bool :=
  (q.eval p (below p depthLimit) s fuel).map Prod.fst

end Contracts

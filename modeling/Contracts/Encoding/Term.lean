import Contracts.Encoding.Env
import Contracts.Encoding.Session

/-!
# Predicates as terms

Everything is over the integers. A variable is what the environment says; an array cell at a
ground index is a constant of its own, at an index with a quantified variable it is an application
of the array's selector; a call is an application of an uninterpreted function.

A call may bring in the contract of the function, and a formula reference its body. Both lead to
further predicates, one level down: `Resolver` is what a level can ask for there, and the encoding
at one level is a recursion on the syntax.
-/

set_option autoImplicit false

namespace Contracts

open Smt

/-- What the encoding at one level asks of the level below it. -/
structure Resolver where
  /-- Brings in the contract of a function called with these arguments where these symbols are
  bound. What cannot be brought in is left out. -/
  contract : FunctionDef → List Term → List String → EncodeM Unit
  /-- Whether the body of the formula is being expanded already. -/
  isExpanding : String → Bool
  /-- The body of a formula in an environment for its parameters. -/
  body : FormulaDef → Env → EncodeM Term

/-- Division that truncates toward zero, from the Euclidean one. -/
def truncatedDiv (a b : Term) : Term :=
  .ite (.binary .ge a (.int 0)) (.binary .div a b) (.neg (.binary .div (.neg a) b))

/-- An arithmetic operation on terms. -/
def arithTerm (op : ArithOp) (a b : Term) : Term :=
  match op with
  | .add => .binary .add a b
  | .sub => .binary .sub a b
  | .mul => .binary .mul a b
  | .div => truncatedDiv a b

/-- A comparison of terms. -/
def cmpTerm (op : CmpOp) (a b : Term) : Term :=
  match op with
  | .eq => .eq a b
  | .ne => .not (.eq a b)
  | .gt => .binary .gt a b
  | .lt => .binary .lt a b
  | .ge => .binary .ge a b
  | .le => .binary .le a b

/-- The term of a variable. -/
def varTerm (env : Env) (x : String) : EncodeM Term :=
  match env.lookup? x with
  | some (.scalar t) => pure t
  | some (.array _) => throw (.arrayAsScalar x)
  | none => throw (.unboundVariable x)

/-- The array that a name stands for. -/
def arrayName (env : Env) (a : String) : EncodeM String :=
  match env.lookup? a with
  | some (.array name) => pure name
  | some (.scalar _) => throw (.notAnArray a)
  | none => throw (.unboundVariable a)

/-- The term of a cell. -/
def cellTerm (env : Env) (array : String) (index : Term) : EncodeM Term := do
  if index.mentions env.bound then return .app (← selectorSymbol array) [index]
  else return .const (← cellSymbol array index)

/-- The array whose length a call asks for: `length` of the name of an array. -/
def lengthOf? (env : Env) (f : String) (args : List Expr) : Option String :=
  match f, args with
  | "length", [.var a] => match env.lookup? a with
    | some (.array name) => some name
    | _ => none
  | _, _ => none

/-- Refuses a call that an expression cannot hold. -/
def checkCall (g : FunctionDef) (name : String) (count : Nat) : EncodeM Unit := do
  if g.params.length ≠ count then throw (.arity name g.params.length count)
  if g.hasArrayParams then throw (.arrayParameters name)
  if g.returns.length ≠ 1 then throw (.returnCount name g.returns.length)

/-- The formula that a reference names, if its body can be expanded. -/
def referredFormula (p : Program) (r : Resolver) (name : String) (count : Nat) :
    EncodeM FormulaDef := do
  match p.formula? name with
  | none => throw (.unknownFormula name)
  | some d =>
    if d.params.length ≠ count then throw (.arity name d.params.length count)
    if r.isExpanding name then throw (.selfReference name)
    return d

/-- The meaning of an argument for an array parameter: it has to be the name of an array. -/
def arrayArgument (env : Env) (formula : String) (param : Param) (arg : Expr) : EncodeM Meaning :=
  match arg with
  | .var a => match env.lookup? a with
    | some (.array name) => pure (.array name)
    | some (.scalar _) => throw (.scalarForArray a param.name formula)
    | none => throw (.unboundVariable a)
  | e => throw (.arrayNameNeeded param.name formula e)

mutual

/-- The term of an expression. -/
def encodeExpr (p : Program) (r : Resolver) : Expr → Env → EncodeM Term
  | .const n, _ => pure (.int n.toInt)
  | .var x, env => varTerm env x
  | .neg e, env => do return .neg (← encodeExpr p r e env)
  | .binary op a b, env => do
    let s ← encodeExpr p r a env
    let t ← encodeExpr p r b env
    return arithTerm op s t
  | .read a i, env => do
    let array ← arrayName env a
    let index ← encodeExpr p r i env
    cellTerm env array index
  | .call f args, env => do
    match lengthOf? env f args with
    | some array => return .const (← lengthSymbol array)
    | none =>
      match p.function? f with
      | none =>
        let terms ← encodeArgs p r args env
        declareFun (fnSymbol f) terms.length
        return .app (fnSymbol f) terms
      | some g =>
        checkCall g f args.length
        let terms ← encodeArgs p r args env
        declareFun (fnSymbol f) terms.length
        r.contract g terms env.bound
        return .app (fnSymbol f) terms
  | .cond q a b, env => do
    let c ← encodePred p r q env
    let s ← encodeExpr p r a env
    let t ← encodeExpr p r b env
    return .ite c s t

/-- The terms of arguments. -/
def encodeArgs (p : Program) (r : Resolver) : List Expr → Env → EncodeM (List Term)
  | [], _ => pure []
  | e :: es, env => do
    let t ← encodeExpr p r e env
    return t :: (← encodeArgs p r es env)

/-- Extends the environment of a formula's body by its parameters. -/
def bindArgs (p : Program) (r : Resolver) (formula : String) :
    List Expr → List Param → Env → Env → EncodeM Env
  | e :: es, x :: xs, env, inner => do
    let m ← match x.type with
      | .int => Meaning.scalar <$> encodeExpr p r e env
      | .array => arrayArgument env formula x e
    bindArgs p r formula es xs env (inner.bind x.name m)
  | _, _, _, inner => pure inner

/-- The term of a predicate. -/
def encodePred (p : Program) (r : Resolver) : Pred → Env → EncodeM Term
  | .bool b, _ => pure (.bool b)
  | .compare op a b, env => do
    let s ← encodeExpr p r a env
    let t ← encodeExpr p r b env
    return cmpTerm op s t
  | .not q, env => do return .not (← encodePred p r q env)
  | .and a b, env => do
    let s ← encodePred p r a env
    let t ← encodePred p r b env
    return .and s t
  | .or a b, env => do
    let s ← encodePred p r a env
    let t ← encodePred p r b env
    return .or s t
  | .implies a b, env => do
    let s ← encodePred p r a env
    let t ← encodePred p r b env
    return .implies s t
  | .paren q, env => encodePred p r q env
  | .quantified k x q, env => do
    if x.type ≠ .int then throw (.quantifiedArray x.name)
    let symbol ← freshSymbol x.name
    let t ← encodePred p r q (env.bindBound x.name symbol)
    return .quantified k [(symbol, .int)] t
  | .formula f args, env => do
    let d ← referredFormula p r f args.length
    let inner ← bindArgs p r f args d.params env env.closed
    r.body d inner

end

end Contracts

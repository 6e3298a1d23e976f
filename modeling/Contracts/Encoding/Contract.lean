import Contracts.Encoding.Term

/-!
# Contracts as axioms

The first call of a function `g` in a session turns its contract into assertions about the
uninterpreted function of `g`:

* if `g` has one parameter and one return and its postcondition calls `g`: the instance at `0`,
  the instances at all positive numbers in one quantified axiom, and those at `1`, `2` and `3`;
* otherwise the instance at constants of its own and, if `g` has parameters, the instances where
  all of them are `0` and where all of them are `1`.

Either all of these are added or, if one of them cannot be encoded, none. Besides, each call gets
the instance at its own arguments, once in a function. A function whose contract is being worked
on is left alone, so a recursion through contracts ends.

`resolver p n` serves `n` levels of contracts within contracts and formulas within formulas.
Functions in progress and formulas being expanded are all different, so as many levels as there are
functions and formulas are enough: below them every function is in progress and every formula is
being expanded, and nothing is left to ask for.
-/

set_option autoImplicit false

namespace Contracts

open Smt

/-! ## Calls in a predicate -/

mutual

/-- Whether the expression calls a function. -/
def Expr.calls (g : String) : Expr → Bool
  | .const _ | .var _ => false
  | .neg e => e.calls g
  | .binary _ a b => a.calls g || b.calls g
  | .read _ i => i.calls g
  | .call f args => f == g || Expr.anyCalls g args
  | .cond q a b => q.calls g || a.calls g || b.calls g

def Expr.anyCalls (g : String) : List Expr → Bool
  | [] => false
  | e :: es => e.calls g || Expr.anyCalls g es

/-- Whether the predicate calls a function, other than in the bodies of formulas. -/
def Pred.calls (g : String) : Pred → Bool
  | .bool _ => false
  | .compare _ a b => a.calls g || b.calls g
  | .not q | .paren q => q.calls g
  | .and a b | .or a b | .implies a b => a.calls g || b.calls g
  | .quantified _ _ q => q.calls g
  | .formula _ args => Expr.anyCalls g args

end

/-- Whether the contract of `g` defines `g` by itself. -/
def FunctionDef.isRecursive (g : FunctionDef) (post : Pred) : Bool :=
  g.params.length == 1 && g.returns.length == 1 && post.calls g.name

/-! ## Instances of a contract -/

/-- The environment of a contract: parameters stand for arguments, the first return for the
application of the function. -/
def contractEnv (g : FunctionDef) (args : List Term) (bound : List String) : Env :=
  let params := (g.params.zip args).foldl (fun env (p, t) => env.bind p.name (.scalar t))
    { Env.empty with bound }
  match g.returns.head? with
  | some ret => params.bind ret.name (.scalar (.app (fnSymbol g.name) args))
  | none => params

/-- An implication from any number of hypotheses. -/
def hypothetical : List Term → Term → Term
  | [], t => t
  | [h], t => .implies h t
  | hs, t => .implies (.junction .and hs) t

/-- The contract at some arguments: guard and precondition imply the postcondition. -/
def contractInstance (p : Program) (r : Resolver) (g : FunctionDef) (post : Pred)
    (args : List Term) (bound : List String) (guard : List Term) : EncodeM Term := do
  let env := contractEnv g args bound
  let consequent ← encodePred p r post env
  let pre ← match g.pre with
    | some q => do pure [← encodePred p r q env]
    | none => pure []
  return hypothetical (guard ++ pre) consequent

/-- The instances at integer literals, the same for all parameters. -/
def literalInstances (p : Program) (r : Resolver) (g : FunctionDef) (post : Pred) :
    List Int → EncodeM (List Term)
  | [] => pure []
  | k :: ks => do
    let t ← contractInstance p r g post (List.replicate g.params.length (.int k)) [] []
    return t :: (← literalInstances p r g post ks)

/-- The axioms of a function with one parameter that its contract defines by itself. -/
def inductiveAxioms (p : Program) (r : Resolver) (g : FunctionDef) (post : Pred) :
    EncodeM (List Term) := do
  let base ← literalInstances p r g post [0]
  let n ← freshSymbol ((g.params.map Param.name).headD "")
  let step ← contractInstance p r g post [.const n] [n] [.binary .gt (.const n) (.int 0)]
  let ground ← literalInstances p r g post [1, 2, 3]
  return base ++ [.quantified .universal [(n, .int)] step] ++ ground

/-- The constant that stands for a parameter in the axioms of a function. -/
def formalSymbol (g : FunctionDef) (x : Param) : String := g.name ++ ".arg." ++ x.name

/-- The axioms of any other function. -/
def instanceAxioms (p : Program) (r : Resolver) (g : FunctionDef) (post : Pred) :
    EncodeM (List Term) := do
  let formals := g.params.map (formalSymbol g)
  modify fun s => formals.foldl Session.declareGlobalConst s
  let formal ← contractInstance p r g post (formals.map Term.const) [] []
  let fixed ← if g.params.isEmpty then pure [] else literalInstances p r g post [0, 1]
  return formal :: fixed

/-- The axioms of a function; none without a postcondition. -/
def contractAxioms (p : Program) (r : Resolver) (g : FunctionDef) : EncodeM (List Term) :=
  match g.post with
  | none => pure []
  | some post =>
    if g.isRecursive post then inductiveAxioms p r g post else instanceAxioms p r g post

/-! ## What a call brings in -/

/-- Adds the axioms of a function, unless they are settled or under way. -/
def ensureAxioms (p : Program) (r : Resolver) (g : FunctionDef) : EncodeM Unit := do
  let s ← get
  if s.isAxiomatized g.name || s.isInProgress g.name then return
  enter g.name
  let axioms ← attempt (contractAxioms p r g)
  modify fun s => { s with
    commands := s.commands ++ (axioms.getD []).map Command.assert
    axiomatized := g.name :: s.axiomatized }
  leave g.name

/-- Asserts the contract at the arguments of a call, if they hold no bound symbol and the call is
new in this function. -/
def instantiateCall (p : Program) (r : Resolver) (g : FunctionDef) (args : List Term)
    (bound : List String) : EncodeM Unit := do
  match g.post with
  | none => return
  | some post =>
    let s ← get
    if s.isInProgress g.name || Term.anyMentions bound args
        || s.scope.callSites.contains (g.name, args) then return
    modify fun s =>
      { s with scope := { s.scope with callSites := (g.name, args) :: s.scope.callSites } }
    enter g.name
    if let some t ← attempt (contractInstance p r g post args bound []) then
      modify fun s => s.addAssertion t
    leave g.name

/-- What is available for so many levels of contracts and formulas, inside the formulas that are
being expanded. -/
def resolver (p : Program) : Nat → List String → Resolver
  | 0, expanding =>
    { contract := fun _ _ _ => pure ()
      isExpanding := expanding.contains
      body := fun d _ => throw (.selfReference d.name) }
  | n + 1, expanding =>
    { contract := fun g args bound => do
        ensureAxioms p (resolver p n expanding) g
        instantiateCall p (resolver p n expanding) g args bound
      isExpanding := expanding.contains
      body := fun d env => encodePred p (resolver p n (d.name :: expanding)) d.body env }

/-- Levels of contracts and formulas that a program can nest. -/
def Program.levels (p : Program) : Nat := p.functions.length + p.formulas.length

/-- The term of an expression of a program. -/
def Program.encodeExpr (p : Program) (e : Expr) (env : Env) : EncodeM Term :=
  Contracts.encodeExpr p (resolver p p.levels []) e env

/-- The term of a predicate of a program. -/
def Program.encodePred (p : Program) (q : Pred) (env : Env) : EncodeM Term :=
  Contracts.encodePred p (resolver p p.levels []) q env

end Contracts

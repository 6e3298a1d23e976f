import Contracts.Error
import Contracts.Simplify
import Contracts.Substitution

/-!
# Weakest preconditions

`Stmt.wp close s q` is the predicate that has to hold before `s` for `q` to hold after it:

| statement                     | weakest precondition                                       |
|-------------------------------|------------------------------------------------------------|
| `x := e`                      | `q[x ↦ e]`                                                 |
| `x₁, …, xₙ := e₁, …, eₙ`      | `q[x₁ ↦ e₁, …, xₙ ↦ eₙ]`, all at once                      |
| `a[i] := e`                   | `q[a[i] ↦ e]`, by the index as written                     |
| `f(…)`                        | `q`                                                        |
| `x₁, …, xₙ := f(…)`           | `∀ t₁ … tₙ, q[x₁ ↦ t₁, …]`                                 |
| `s; t`                        | `wp s (wp t q)`                                            |
| `if c then s else t`          | `(c ∧ wp s q) ∨ (¬c ∧ wp t q)`                             |
| `while c invariant i do s`    | `i ∧ (i ∧ c → wp s i) ∧ (i ∧ ¬c → q)`                      |

Each result but a block's is simplified. With `close` the last two conjuncts of a loop are
quantified over the scalars that its body assigns. Without it they speak of the state before the
loop only, and a loop can then be accepted that does not establish `q`.
-/

set_option autoImplicit false

namespace Contracts

/-! ## Arrays handed to formulas

A formula that takes an array as an argument hides reads that the substitution for a cell does not
reach, so such a write is refused. -/

mutual

/-- Whether the variable stands in the expression outside the tests of conditionals. -/
def Expr.mentions (x : String) : Expr → Bool
  | .const _ => false
  | .var y => y == x
  | .neg e => e.mentions x
  | .binary _ a b => a.mentions x || b.mentions x
  | .read _ i => i.mentions x
  | .call _ args => Expr.anyMentions x args
  | .cond _ a b => a.mentions x || b.mentions x

def Expr.anyMentions (x : String) : List Expr → Bool
  | [] => false
  | a :: as => a.mentions x || Expr.anyMentions x as

end

mutual

/-- The first formula in the expression that takes the array as an argument. -/
def Expr.formulaTaking? (array : String) : Expr → Option String
  | .const _ | .var _ => none
  | .neg e => e.formulaTaking? array
  | .binary _ a b => (a.formulaTaking? array).or (b.formulaTaking? array)
  | .read _ i => i.formulaTaking? array
  | .call _ args => Expr.firstFormulaTaking? array args
  | .cond p a b =>
    ((p.formulaTaking? array).or (a.formulaTaking? array)).or (b.formulaTaking? array)

def Expr.firstFormulaTaking? (array : String) : List Expr → Option String
  | [] => none
  | a :: as => (a.formulaTaking? array).or (Expr.firstFormulaTaking? array as)

/-- The first formula in the predicate that takes the array as an argument; a binder of the
array's name hides its body. -/
def Pred.formulaTaking? (array : String) : Pred → Option String
  | .bool _ => none
  | .compare _ a b => (a.formulaTaking? array).or (b.formulaTaking? array)
  | .not p | .paren p => p.formulaTaking? array
  | .and a b | .or a b | .implies a b => (a.formulaTaking? array).or (b.formulaTaking? array)
  | .quantified _ x p => if x.name = array then none else p.formulaTaking? array
  | .formula f args =>
    if Expr.anyMentions array args then some f else Expr.firstFormulaTaking? array args

end

/-! ## Assigned scalars -/

/-- The name of a target that is a variable. -/
def Target.scalar? : Target → Option String
  | .var x => some x
  | .cell _ _ => none

mutual

/-- The variables that a statement assigns, one entry for each target. -/
def Stmt.assigned : Stmt → List String
  | .assign targets _ => targets.filterMap Target.scalar?
  | .block stmts => Stmt.assignedList stmts
  | .branch _ yes no => yes.assigned ++ (match no with
    | some s => s.assigned
    | none => [])
  | .loop _ body _ => body.assigned

def Stmt.assignedList : List Stmt → List String
  | [] => []
  | s :: rest => s.assigned ++ Stmt.assignedList rest

end

/-- The variables that a statement assigns, each once, in the order of names. -/
def Stmt.assignedScalars (s : Stmt) : List String := sortedNames s.assigned

/-! ## Assignments -/

/-- The postcondition with one target replaced by an expression. -/
def Target.replaceIn (t : Target) (e : Expr) (q : Pred) : Pred :=
  match t with
  | .var x => q.substVar x e
  | .cell a i => q.substCell ⟨a, i, e⟩

/-- The names that a target and its expression use. -/
def Target.usedNames (t : Target) (e : Expr) : List String :=
  t.name :: e.free ++ (match t with
    | .var _ => []
    | .cell _ i => i.free)

/-- A new name for each target, derived by `base` and outside `avoid` and each other. -/
def newNames (base : Target → String) : List Target → List String → List String
  | [], _ => []
  | t :: ts, avoid =>
    let name := freshName (base t) avoid
    name :: newNames base ts (name :: avoid)

/-- A simultaneous assignment with cells among its targets: every expression goes to a temporary
first, the cells are written from the temporaries and the variables last. -/
def viaTemporaries (targets : List Target) (exprs : List Expr) (q : Pred) : Pred :=
  let used := (targets.zip exprs).flatMap fun (t, e) => t.usedNames e
  let temps := newNames (fun t => t.name ++ "_tmp") targets (q.free ++ used)
  let pairs := targets.zip temps
  let vars := pairs.filter fun p => p.1.scalar?.isSome
  let cells := pairs.filter fun p => p.1.scalar?.isNone
  let q := (vars ++ cells).foldl (fun q (t, temp) => t.replaceIn (.var temp) q) q
  q.subst (temps.zip exprs)

/-- Targets that receive unknown values: the postcondition for all values of them. -/
def havoc (targets : List Target) (q : Pred) : Pred :=
  let names := newNames Target.name targets (q.free ++ targets.map Target.name)
  let q := (targets.zip names).foldl (fun q (t, name) => t.replaceIn (.var name) q) q
  names.foldr Pred.forall_ q

/-- The first written cell whose array a formula of the postcondition takes as an argument. -/
def hiddenWrite? (targets : List Target) (q : Pred) : Option (String × String) :=
  targets.findSome? fun
    | .var _ => none
    | .cell a _ => (q.formulaTaking? a).map fun f => (a, f)

/-- Whether an expression list is one call. -/
def isSingleCall : List Expr → Bool
  | [.call ..] => true
  | _ => false

/-- The weakest precondition of an assignment, before simplification. -/
def wpAssign (targets : List Target) (exprs : List Expr) (q : Pred) : Except VerifyError Pred :=
  if targets.isEmpty then .ok q
  else match hiddenWrite? targets q with
    | some (array, formula) => .error (.cellUnderFormula array formula)
    | none =>
      if 1 < targets.length ∧ isSingleCall exprs then .ok (havoc targets q)
      else match targets, exprs with
        | [t], [e] => .ok (t.replaceIn e q)
        | targets, exprs =>
          if targets.length ≠ exprs.length then
            .error (.assignmentCount targets.length exprs.length)
          else if targets.all (·.scalar?.isSome) then
            .ok (q.subst (.ofPairs ((targets.map Target.name).zip exprs)))
          else .ok (viaTemporaries targets exprs q)

/-! ## Statements -/

/-- Both sides of a conditional. -/
def wpBranch (condition yes no : Pred) : Pred :=
  .or (.and condition yes) (.and (.not condition) no)

/-- The obligations of a loop: its invariant holds, its body keeps it, its end implies the
postcondition. The last two hold for all values of `vars`. -/
def wpLoop (vars : List String) (condition invariant body q : Pred) : Pred :=
  .and invariant
    (.and (vars.foldr Pred.forall_ (.implies (.and invariant condition) body))
      (vars.foldr Pred.forall_ (.implies (.and invariant (.not condition)) q)))

mutual

/-- The weakest precondition of a statement. -/
def Stmt.wp (close : Bool) : Stmt → Pred → Except VerifyError Pred
  | .assign targets exprs, q => (wpAssign targets exprs q).map Pred.simplify
  | .block stmts, q => Stmt.wpBlock close stmts q
  | .branch condition yes no, q => do
    let p ← yes.wp close q
    let r ← match no with
      | some s => s.wp close q
      | none => .ok q
    return (wpBranch condition p r).simplify
  | .loop condition body invariant, q => do
    match invariant with
    | none => .error (.missingInvariant condition)
    | some inv =>
      let p ← body.wp close inv
      let vars := if close then body.assignedScalars else []
      return (wpLoop vars condition inv p q).simplify

/-- The weakest precondition of a sequence, from its end. -/
def Stmt.wpBlock (close : Bool) : List Stmt → Pred → Except VerifyError Pred
  | [], q => .ok q
  | s :: rest, q => do
    let p ← Stmt.wpBlock close rest q
    s.wp close p

end

/-! ## Obligations -/

/-- What has to hold in every state for a function to meet its contract: the precondition implies
the weakest precondition of the body. There is none without a postcondition. -/
def FunctionDef.obligation (close : Bool) (f : FunctionDef) : Except VerifyError (Option Pred) :=
  match f.post with
  | none => .ok none
  | some post => do
    let p ← f.body.wp close post
    return some (Pred.implies (f.pre.getD (.bool true)) p).simplify

end Contracts

import Contracts.Syntax.Basic

/-!
# Free names and fresh names

The names that occur free in an expression or a predicate are listed with repetitions, in the
order of their occurrences; array names count like variables, names of functions and formulas
do not. A quantifier takes away its binder's name, whatever the name is used for.

`freshName base avoid` is the first of `base_1`, `base_2`, … outside a list of names.
-/

set_option autoImplicit false

namespace Contracts

mutual

/-- The free names of an expression, one entry for each occurrence. -/
def Expr.free : Expr → List String
  | .const _ => []
  | .var x => [x]
  | .neg e => e.free
  | .binary _ a b => a.free ++ b.free
  | .read a i => a :: i.free
  | .call _ args => Expr.freeList args
  | .cond p a b => p.free ++ a.free ++ b.free

/-- The free names of an argument list. -/
def Expr.freeList : List Expr → List String
  | [] => []
  | a :: as => a.free ++ Expr.freeList as

/-- The free names of a predicate, one entry for each occurrence. -/
def Pred.free : Pred → List String
  | .bool _ => []
  | .compare _ a b => a.free ++ b.free
  | .not p | .paren p => p.free
  | .and a b | .or a b | .implies a b => a.free ++ b.free
  | .quantified _ x p => p.free.filter (· != x.name)
  | .formula _ args => Expr.freeList args

end

/-- A list of names without repetitions, in the order of code points. -/
def sortedNames (names : List String) : List String :=
  names.eraseDups.mergeSort (fun a b => decide (a ≤ b))

/-- The `n`-th name derived from a base. -/
def numberedName (base : String) (n : Nat) : String := base ++ "_" ++ toString n

/-- The first of `base_1`, `base_2`, … that is not in `avoid`. One of the first
`avoid.length + 1` candidates is outside, so the search ends there. -/
def freshName (base : String) (avoid : List String) : String :=
  match (List.range (avoid.length + 1)).find? fun n =>
      !avoid.contains (numberedName base (n + 1)) with
  | some n => numberedName base (n + 1)
  | none => base ++ "_"

end Contracts

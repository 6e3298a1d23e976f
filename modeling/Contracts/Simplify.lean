import Contracts.Word

/-!
# Simplification

One bottom-up pass of local laws: literal arithmetic and comparisons are computed, units and
absorbing elements of the connectives go, a double negation goes, a comparison of an expression
with itself is decided, written parentheses are dropped, and a conditional whose test is a literal
or whose branches agree becomes a branch.

Quantified predicates and formula references are left as they are. Every law yields a literal, a
part that is simplified already, or a node that no law applies to, so a second pass changes
nothing. An operation on literals that would overflow or divide by zero stays in place.
-/

set_option autoImplicit false

namespace Contracts

/-! ## One node

The laws for a node whose parts are simplified already. -/

/-- The negation of a simplified predicate. -/
def Pred.negate : Pred → Pred
  | .bool b => .bool (!b)
  | .not p => p
  | p => .not p

/-- The conjunction of two simplified predicates. -/
def Pred.conj : Pred → Pred → Pred
  | .bool false, _ => .bool false
  | _, .bool false => .bool false
  | .bool true, p => p
  | p, .bool true => p
  | p, q => .and p q

/-- The disjunction of two simplified predicates. -/
def Pred.disj : Pred → Pred → Pred
  | .bool true, _ => .bool true
  | _, .bool true => .bool true
  | .bool false, p => p
  | p, .bool false => p
  | p, q => .or p q

/-- The implication between two simplified predicates. -/
def Pred.imp : Pred → Pred → Pred
  | .bool true, q => q
  | .bool false, _ => .bool true
  | _, .bool true => .bool true
  | p, .bool false => p.negate
  | p, q => .implies p q

/-- Whether the comparison holds between equal sides. -/
def CmpOp.isReflexive : CmpOp → Bool
  | .eq | .le | .ge => true
  | .ne | .lt | .gt => false

/-- The comparison of two simplified expressions. -/
def Pred.comparison (op : CmpOp) (a b : Expr) : Pred :=
  match a, b with
  | .const m, .const n => .bool (op.holds m.toInt n.toInt)
  | a, b => if a = b then .bool op.isReflexive else .compare op a b

/-- The opposite of a simplified expression. -/
def Expr.opposite : Expr → Expr
  | .const n => match negWord? n with
    | some m => .const m
    | none => .neg (.const n)
  | .neg e => e
  | e => .neg e

/-- An operation with its neutral literal removed, if it has one. -/
def Expr.dropNeutral : ArithOp → Expr → Expr → Expr
  | .add, e, .const 0 => e
  | .add, .const 0, e => e
  | .sub, e, .const 0 => e
  | .mul, e, .const 1 => e
  | .mul, .const 1, e => e
  | .div, e, .const 1 => e
  | op, a, b => .binary op a b

/-- The operation on two simplified expressions. -/
def Expr.operation (op : ArithOp) (a b : Expr) : Expr :=
  match a, b with
  | .const m, .const n => match op.onWord? m n with
    | some v => .const v
    | none => Expr.dropNeutral op (.const m) (.const n)
  | a, b => Expr.dropNeutral op a b

/-- The conditional with simplified test and branches. -/
def Expr.choose : Pred → Expr → Expr → Expr
  | .bool true, a, _ => a
  | .bool false, _, b => b
  | p, a, b => if a = b then a else .cond p a b

/-! ## The pass -/

mutual

/-- The simplified expression. -/
def Expr.simplify : Expr → Expr
  | .const n => .const n
  | .var x => .var x
  | .neg e => e.simplify.opposite
  | .binary op a b => Expr.operation op a.simplify b.simplify
  | .read a i => .read a i.simplify
  | .call f args => .call f (Expr.simplifyList args)
  | .cond p a b => Expr.choose p.simplify a.simplify b.simplify

/-- The simplified argument list. -/
def Expr.simplifyList : List Expr → List Expr
  | [] => []
  | a :: as => a.simplify :: Expr.simplifyList as

/-- The simplified predicate. -/
def Pred.simplify : Pred → Pred
  | .bool b => .bool b
  | .compare op a b => Pred.comparison op a.simplify b.simplify
  | .not p => p.simplify.negate
  | .and p q => p.simplify.conj q.simplify
  | .or p q => p.simplify.disj q.simplify
  | .implies p q => p.simplify.imp q.simplify
  | .paren p => p.simplify
  | .quantified q x p => .quantified q x p
  | .formula f args => .formula f args

end

end Contracts

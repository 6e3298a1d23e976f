import Contracts.Syntax.Basic

/-!
# The infix text of expressions and predicates

An operand of an arithmetic operator stands in parentheses when it is itself a binary operation
or a conditional, and nowhere else; a connective always brings its own pair. The text is for
people: error messages and reports quote it, and nothing reads it back.
-/

set_option autoImplicit false

namespace Contracts

def ArithOp.symbol : ArithOp → String
  | .add => "+"
  | .sub => "-"
  | .mul => "*"
  | .div => "/"

def CmpOp.symbol : CmpOp → String
  | .eq => "=="
  | .ne => "!="
  | .gt => ">"
  | .lt => "<"
  | .ge => ">="
  | .le => "<="

def Quantifier.word : Quantifier → String
  | .universal => "forall"
  | .existential => "exists"

def VarType.text : VarType → String
  | .int => "int"
  | .array => "int[]"

/-- Whether an expression needs parentheses where it is an operand. -/
def Expr.isCompound : Expr → Bool
  | .binary .. | .cond .. => true
  | _ => false

/-- The text of an operand, from the expression's own text. -/
def Expr.operandText (e : Expr) (text : String) : String :=
  if e.isCompound then "(" ++ text ++ ")" else text

mutual

def Expr.text : Expr → String
  | .const n => toString n.toInt
  | .var x => x
  | .neg e => "-" ++ e.operandText e.text
  | .binary op a b =>
    a.operandText a.text ++ " " ++ op.symbol ++ " " ++ b.operandText b.text
  | .read a i => a ++ "[" ++ i.text ++ "]"
  | .call f args => f ++ "(" ++ ", ".intercalate (Expr.texts args) ++ ")"
  | .cond p a b => p.text ++ " ? " ++ a.text ++ " : " ++ b.text

def Expr.texts : List Expr → List String
  | [] => []
  | a :: as => a.text :: Expr.texts as

def Pred.text : Pred → String
  | .bool true => "true"
  | .bool false => "false"
  | .compare op a b => a.text ++ " " ++ op.symbol ++ " " ++ b.text
  | .not p => "not (" ++ p.text ++ ")"
  | .and a b => "(" ++ a.text ++ " and " ++ b.text ++ ")"
  | .or a b => "(" ++ a.text ++ " or " ++ b.text ++ ")"
  | .implies a b => "(" ++ a.text ++ " -> " ++ b.text ++ ")"
  | .paren p => "(" ++ p.text ++ ")"
  | .quantified q x p =>
    q.word ++ " (" ++ x.name ++ ": " ++ x.type.text ++ " | " ++ p.text ++ ")"
  | .formula f args => f ++ "(" ++ ", ".intercalate (Expr.texts args) ++ ")"

end

end Contracts

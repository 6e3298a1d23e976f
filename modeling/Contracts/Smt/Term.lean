import Contracts.Syntax.Basic

/-!
# SMT-LIB terms

Terms over integers and truth values with uninterpreted functions and quantifiers, and their text.
The format has no negative numerals, so a negative literal is written as a negation; a conjunction
or disjunction of no terms is written as its unit and one of a single term as that term; a
function without arguments is written as its name.
-/

set_option autoImplicit false

namespace Contracts.Smt

/-- The sorts of declared symbols. -/
inductive SmtSort where
  | bool | int
  deriving DecidableEq, Repr

/-- The connectives that take any number of terms. -/
inductive Junction where
  | and | or
  deriving DecidableEq, Repr

/-- The operators on two terms. Division is Euclidean. -/
inductive BinOp where
  | implies | eq | add | sub | mul | div | lt | le | gt | ge
  deriving DecidableEq, Repr

/-- A term. -/
inductive Term where
  | bool (value : Bool)
  | int (value : Int)
  | const (name : String)
  | not (operand : Term)
  | neg (operand : Term)
  | junction (op : Junction) (operands : List Term)
  | binary (op : BinOp) (lhs rhs : Term)
  | ite (test yes no : Term)
  | quantified (quantifier : Quantifier) (vars : List (String × SmtSort)) (body : Term)
  | app (function : String) (args : List Term)

instance : Inhabited Term := ⟨.bool true⟩

namespace Term

/-- Conjunction of two terms. -/
def and (a b : Term) : Term := .junction .and [a, b]

/-- Disjunction of two terms. -/
def or (a b : Term) : Term := .junction .or [a, b]

/-- Implication. -/
def implies (a b : Term) : Term := .binary .implies a b

/-- Equality. -/
def eq (a b : Term) : Term := .binary .eq a b

/-! ## Structural equality -/

mutual

/-- Structural equality of terms. -/
def same : Term → Term → Bool
  | .bool a, .bool b => a == b
  | .int a, .int b => a == b
  | .const a, .const b => a == b
  | .not a, .not b => a.same b
  | .neg a, .neg b => a.same b
  | .junction o as, .junction p bs => o == p && sameList as bs
  | .binary o a b, .binary p c d => o == p && a.same c && b.same d
  | .ite a b c, .ite d e f => a.same d && b.same e && c.same f
  | .quantified k xs t, .quantified l ys u => k == l && xs == ys && t.same u
  | .app f as, .app g bs => f == g && sameList as bs
  | _, _ => false

def sameList : List Term → List Term → Bool
  | [], [] => true
  | a :: as, b :: bs => a.same b && sameList as bs
  | _, _ => false

end

mutual

theorem same_iff : ∀ t u : Term, t.same u = true ↔ t = u
  | .bool _, u => by cases u <;> simp [same]
  | .int _, u => by cases u <;> simp [same]
  | .const _, u => by cases u <;> simp [same]
  | .not a, u => by cases u <;> simp [same, same_iff a]
  | .neg a, u => by cases u <;> simp [same, same_iff a]
  | .junction _ as, u => by cases u <;> simp [same, sameList_iff as]
  | .binary _ a b, u => by cases u <;> simp [same, same_iff a, same_iff b, and_assoc]
  | .ite a b c, u => by cases u <;> simp [same, same_iff a, same_iff b, same_iff c, and_assoc]
  | .quantified _ _ t, u => by cases u <;> simp [same, same_iff t, and_assoc]
  | .app _ as, u => by cases u <;> simp [same, sameList_iff as]

theorem sameList_iff : ∀ ts us : List Term, sameList ts us = true ↔ ts = us
  | [], us => by cases us <;> simp [sameList]
  | t :: ts, us => by cases us <;> simp [sameList, same_iff t, sameList_iff ts]

end

instance : DecidableEq Term := fun t u => decidable_of_iff _ (same_iff t u)

/-! ## Constants in a term -/

mutual

/-- Whether one of the names occurs as a constant, inside quantifiers too. -/
def mentions (names : List String) : Term → Bool
  | .bool _ | .int _ => false
  | .const x => names.contains x
  | .not t | .neg t => t.mentions names
  | .junction _ ts | .app _ ts => anyMentions names ts
  | .binary _ a b => a.mentions names || b.mentions names
  | .ite a b c => a.mentions names || b.mentions names || c.mentions names
  | .quantified _ _ t => t.mentions names

/-- Whether one of the terms mentions one of the names. -/
def anyMentions (names : List String) : List Term → Bool
  | [] => false
  | t :: ts => t.mentions names || anyMentions names ts

end

end Term

/-! ## Text -/

def SmtSort.text : SmtSort → String
  | .bool => "Bool"
  | .int => "Int"

def BinOp.symbol : BinOp → String
  | .implies => "=>"
  | .eq => "="
  | .add => "+"
  | .sub => "-"
  | .mul => "*"
  | .div => "div"
  | .lt => "<"
  | .le => "<="
  | .gt => ">"
  | .ge => ">="

def Junction.symbol : Junction → String
  | .and => "and"
  | .or => "or"

/-- The text of a conjunction or disjunction without parts. -/
def Junction.unit : Junction → String
  | .and => "true"
  | .or => "false"

/-- The keyword of a quantifier. -/
def quantifierWord : Quantifier → String
  | .universal => "forall"
  | .existential => "exists"

/-- A list in parentheses. -/
def parens (parts : List String) : String := "(" ++ " ".intercalate parts ++ ")"

/-- The text of an integer literal. -/
def intText (n : Int) : String :=
  if n < 0 then parens ["-", toString n.natAbs] else toString n

/-- The text of a conjunction or disjunction from those of its parts. -/
def Junction.text (op : Junction) : List String → String
  | [] => op.unit
  | [only] => only
  | parts => parens (op.symbol :: parts)

/-- The text of an application from those of its arguments. -/
def applicationText (f : String) (args : List String) : String :=
  if args.isEmpty then f else parens (f :: args)

/-- The text of quantified variables. -/
def varsText (vars : List (String × SmtSort)) : String :=
  parens (vars.map fun (x, sort) => parens [x, sort.text])

mutual

/-- The text of a term. -/
def Term.text : Term → String
  | .bool true => "true"
  | .bool false => "false"
  | .int n => intText n
  | .const x => x
  | .not t => parens ["not", t.text]
  | .neg t => parens ["-", t.text]
  | .junction op ts => op.text (Term.texts ts)
  | .binary op a b => parens [op.symbol, a.text, b.text]
  | .ite a b c => parens ["ite", a.text, b.text, c.text]
  | .quantified q vars t => parens [quantifierWord q, varsText vars, t.text]
  | .app f ts => applicationText f (Term.texts ts)

/-- The texts of several terms. -/
def Term.texts : List Term → List String
  | [] => []
  | t :: ts => t.text :: Term.texts ts

end

end Contracts.Smt

/-!
# Annotated programs

Expressions, predicates, statements, functions with their contracts, named formulas and whole
programs. Everything here is plain data. Literals are 64-bit integers, as in a program's text;
the meaning of a predicate is a matter of the modules that give one (`Execution`, `Meaning`).

An expression can hold a predicate (the test of a conditional) and a predicate holds expressions,
so the two types are mutual; argument lists are ordinary lists. A binder or a declaration carries
its type, because quantifiers over arrays can be written and are refused only by the encoding.
-/

set_option autoImplicit false

namespace Contracts

/-- The arithmetic operators. Division truncates toward zero. -/
inductive ArithOp where
  | add | sub | mul | div
  deriving DecidableEq, Repr

/-- The comparison operators. -/
inductive CmpOp where
  | eq | ne | gt | lt | ge | le
  deriving DecidableEq, Repr

/-- The two quantifiers. -/
inductive Quantifier where
  | universal | existential
  deriving DecidableEq, Repr

/-- The declared type of a name: an integer or an array of integers. -/
inductive VarType where
  | int | array
  deriving DecidableEq, Repr

/-- A name with its type: a parameter, a return, a local or the binder of a quantifier. -/
structure Param where
  name : String
  type : VarType
  deriving DecidableEq, Repr

mutual

/-- Integer-valued expressions. -/
inductive Expr where
  | const (value : Int64)
  | var (name : String)
  | neg (operand : Expr)
  | binary (op : ArithOp) (lhs rhs : Expr)
  /-- The cell of an array at an index. -/
  | read (array : String) (index : Expr)
  | call (function : String) (args : List Expr)
  /-- The value of `yes` where the test holds, of `no` elsewhere. -/
  | cond (test : Pred) (yes no : Expr)

/-- Logical formulas over expressions. -/
inductive Pred where
  | bool (value : Bool)
  | compare (op : CmpOp) (lhs rhs : Expr)
  | not (operand : Pred)
  | and (lhs rhs : Pred)
  | or (lhs rhs : Pred)
  | implies (lhs rhs : Pred)
  /-- Written parentheses; they mean nothing. -/
  | paren (inner : Pred)
  | quantified (quantifier : Quantifier) (binder : Param) (body : Pred)
  /-- A named formula at the given arguments. -/
  | formula (name : String) (args : List Expr)

end

instance : Inhabited Expr := ⟨.const 0⟩
instance : Inhabited Pred := ⟨.bool true⟩

/-- What an assignment writes: a variable, or one cell of an array. -/
inductive Target where
  | var (name : String)
  | cell (array : String) (index : Expr)

/-- Statements. -/
inductive Stmt where
  /-- Simultaneous assignment; without targets it is a call for its own sake. -/
  | assign (targets : List Target) (exprs : List Expr)
  | block (stmts : List Stmt)
  | branch (condition : Pred) (yes : Stmt) (no : Option Stmt)
  | loop (condition : Pred) (body : Stmt) (invariant : Option Pred)

instance : Inhabited Stmt := ⟨.block []⟩

/-- A function with its optional contract. -/
structure FunctionDef where
  name : String
  params : List Param
  returns : List Param
  locals : List Param
  body : Stmt
  pre : Option Pred
  post : Option Pred

/-- A named predicate with parameters. -/
structure FormulaDef where
  name : String
  params : List Param
  body : Pred

/-- A program: its functions and its formulas, each in the order written. -/
structure Program where
  functions : List FunctionDef
  formulas : List FormulaDef

/-! ## Small accessors -/

/-- The name that a target writes. -/
def Target.name : Target → String
  | .var x => x
  | .cell a _ => a

/-- A scalar parameter. -/
def Param.scalar (name : String) : Param := ⟨name, .int⟩

/-- Quantification of a scalar over all integers. -/
def Pred.forall_ (name : String) (body : Pred) : Pred :=
  .quantified .universal (.scalar name) body

namespace FunctionDef

/-- Parameters, then returns, then locals. -/
def decls (f : FunctionDef) : List Param := f.params ++ f.returns ++ f.locals

/-- The first declaration of a name. -/
def lookup? (f : FunctionDef) (name : String) : Option Param :=
  f.decls.find? (·.name == name)

def hasArrayParams (f : FunctionDef) : Bool := f.params.any (·.type == .array)

end FunctionDef

namespace Program

/-- The program without functions and formulas. -/
def empty : Program := ⟨[], []⟩

/-- The first function of that name. -/
def function? (p : Program) (name : String) : Option FunctionDef :=
  p.functions.find? (·.name == name)

/-- The first formula of that name. -/
def formula? (p : Program) (name : String) : Option FormulaDef :=
  p.formulas.find? (·.name == name)

end Program

/-! ## Comparison on integers -/

/-- Whether the comparison holds of two integers. -/
def CmpOp.holds : CmpOp → Int → Int → Bool
  | .eq, a, b => a == b
  | .ne, a, b => a != b
  | .gt, a, b => b < a
  | .lt, a, b => a < b
  | .ge, a, b => b ≤ a
  | .le, a, b => a ≤ b

/-! ## Structural equality

Argument lists nest the types in lists, so the test is written out; `beq_iff` says that it is
equality, and the instances below rest on it. -/

mutual

/-- Structural equality of expressions. -/
def Expr.same : Expr → Expr → Bool
  | .const a, .const b => a == b
  | .var x, .var y => x == y
  | .neg a, .neg b => a.same b
  | .binary o a b, .binary p c d => o == p && a.same c && b.same d
  | .read a i, .read b j => a == b && i.same j
  | .call f as, .call g bs => f == g && Expr.sameList as bs
  | .cond p a b, .cond q c d => p.same q && a.same c && b.same d
  | _, _ => false

/-- Structural equality of argument lists. -/
def Expr.sameList : List Expr → List Expr → Bool
  | [], [] => true
  | a :: as, b :: bs => a.same b && Expr.sameList as bs
  | _, _ => false

/-- Structural equality of predicates. -/
def Pred.same : Pred → Pred → Bool
  | .bool a, .bool b => a == b
  | .compare o a b, .compare p c d => o == p && a.same c && b.same d
  | .not p, .not q => p.same q
  | .and a b, .and c d => a.same c && b.same d
  | .or a b, .or c d => a.same c && b.same d
  | .implies a b, .implies c d => a.same c && b.same d
  | .paren p, .paren q => p.same q
  | .quantified k x p, .quantified l y q => k == l && x == y && p.same q
  | .formula f as, .formula g bs => f == g && Expr.sameList as bs
  | _, _ => false

end

mutual

theorem Expr.same_iff : ∀ a b : Expr, a.same b = true ↔ a = b
  | .const _, b => by cases b <;> simp [Expr.same]
  | .var _, b => by cases b <;> simp [Expr.same]
  | .neg a, b => by cases b <;> simp [Expr.same, Expr.same_iff a]
  | .binary _ a c, b => by
    cases b <;> simp [Expr.same, Expr.same_iff a, Expr.same_iff c, and_assoc]
  | .read _ i, b => by cases b <;> simp [Expr.same, Expr.same_iff i]
  | .call _ as, b => by cases b <;> simp [Expr.same, Expr.sameList_iff as]
  | .cond p a c, b => by
    cases b <;> simp [Expr.same, Pred.same_iff p, Expr.same_iff a, Expr.same_iff c, and_assoc]

theorem Expr.sameList_iff : ∀ as bs : List Expr, Expr.sameList as bs = true ↔ as = bs
  | [], bs => by cases bs <;> simp [Expr.sameList]
  | a :: as, bs => by
    cases bs <;> simp [Expr.sameList, Expr.same_iff a, Expr.sameList_iff as]

theorem Pred.same_iff : ∀ p q : Pred, p.same q = true ↔ p = q
  | .bool _, q => by cases q <;> simp [Pred.same]
  | .compare _ a b, q => by
    cases q <;> simp [Pred.same, Expr.same_iff a, Expr.same_iff b, and_assoc]
  | .not p, q => by cases q <;> simp [Pred.same, Pred.same_iff p]
  | .and a b, q => by cases q <;> simp [Pred.same, Pred.same_iff a, Pred.same_iff b]
  | .or a b, q => by cases q <;> simp [Pred.same, Pred.same_iff a, Pred.same_iff b]
  | .implies a b, q => by cases q <;> simp [Pred.same, Pred.same_iff a, Pred.same_iff b]
  | .paren p, q => by cases q <;> simp [Pred.same, Pred.same_iff p]
  | .quantified _ _ p, q => by cases q <;> simp [Pred.same, Pred.same_iff p, and_assoc]
  | .formula _ as, q => by cases q <;> simp [Pred.same, Expr.sameList_iff as]

end

instance : DecidableEq Expr := fun a b => decidable_of_iff _ (Expr.same_iff a b)

instance : DecidableEq Pred := fun p q => decidable_of_iff _ (Pred.same_iff p q)

deriving instance DecidableEq for Target

/-! ## Size -/

mutual

/-- Number of nodes, those of nested predicates included. -/
def Expr.size : Expr → Nat
  | .const _ | .var _ => 1
  | .neg e => 1 + e.size
  | .binary _ a b => 1 + a.size + b.size
  | .read _ i => 1 + i.size
  | .call _ args => 1 + Expr.sizes args
  | .cond p a b => 1 + p.size + a.size + b.size

/-- Number of nodes of an argument list. -/
def Expr.sizes : List Expr → Nat
  | [] => 0
  | a :: as => a.size + Expr.sizes as

/-- Number of nodes, those of nested expressions included. -/
def Pred.size : Pred → Nat
  | .bool _ => 1
  | .compare _ a b => 1 + a.size + b.size
  | .not p | .paren p => 1 + p.size
  | .and a b | .or a b | .implies a b => 1 + a.size + b.size
  | .quantified _ _ p => 1 + p.size
  | .formula _ args => 1 + Expr.sizes args

end

end Contracts

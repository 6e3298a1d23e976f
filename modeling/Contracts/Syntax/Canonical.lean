import Contracts.Json.Basic
import Contracts.Syntax.Text

/-!
# The canonical JSON of programs

Every field is present, comparisons are written with their operator, and what is missing is null.
-/

set_option autoImplicit false

namespace Contracts

/-- A parameter as JSON. -/
def Param.toJson (p : Param) : Json :=
  .object [("name", .string p.name), ("varType", .string p.type.text)]

mutual

/-- An expression as JSON. -/
def Expr.toJson : Expr → Json
  | .const n => .object [("type", .string "const"), ("value", .int n.toInt)]
  | .var x => .object [("type", .string "var"), ("name", .string x)]
  | .neg e => .object [("type", .string "unary"), ("argument", e.toJson)]
  | .binary op a b =>
    .object [("type", .string "binop"), ("op", .string op.symbol), ("left", a.toJson),
      ("right", b.toJson)]
  | .read a i =>
    .object [("type", .string "arraccess"), ("name", .string a), ("index", i.toJson)]
  | .call f args =>
    .object [("type", .string "funccall"), ("name", .string f),
      ("args", .array (Expr.listToJson args))]
  | .cond p a b =>
    .object [("type", .string "ite"), ("condition", p.toJson), ("thenExpr", a.toJson),
      ("elseExpr", b.toJson)]

/-- An argument list as JSON. -/
def Expr.listToJson : List Expr → List Json
  | [] => []
  | a :: as => a.toJson :: Expr.listToJson as

/-- A predicate as JSON. -/
def Pred.toJson : Pred → Json
  | .bool true => .object [("kind", .string "true")]
  | .bool false => .object [("kind", .string "false")]
  | .compare op a b =>
    .object [("kind", .string "comparison"), ("op", .string op.symbol), ("left", a.toJson),
      ("right", b.toJson)]
  | .not p => .object [("kind", .string "not"), ("condition", p.toJson)]
  | .and p q => .object [("kind", .string "and"), ("left", p.toJson), ("right", q.toJson)]
  | .or p q => .object [("kind", .string "or"), ("left", p.toJson), ("right", q.toJson)]
  | .implies p q => .object [("kind", .string "implies"), ("left", p.toJson), ("right", q.toJson)]
  | .paren p => .object [("kind", .string "paren"), ("inner", p.toJson)]
  | .quantified q x p =>
    .object [("kind", .string q.word), ("variable", x.toJson), ("predicate", p.toJson)]
  | .formula f args =>
    .object [("kind", .string "formulaRef"), ("name", .string f),
      ("args", .array (Expr.listToJson args))]

end

/-- A target as JSON. -/
def Target.toJson : Target → Json
  | .var x => .object [("type", .string "lvar"), ("name", .string x)]
  | .cell a i => .object [("type", .string "larr"), ("name", .string a), ("index", i.toJson)]

/-- Null where there is no predicate. -/
def Pred.optionToJson : Option Pred → Json
  | some p => p.toJson
  | none => .null

mutual

/-- A statement as JSON. -/
def Stmt.toJson : Stmt → Json
  | .assign targets exprs =>
    .object [("type", .string "assign"), ("targets", .array (targets.map Target.toJson)),
      ("exprs", .array (Expr.listToJson exprs))]
  | .block stmts => .object [("type", .string "block"), ("stmts", .array (Stmt.listToJson stmts))]
  | .branch condition yes no =>
    .object [("type", .string "if"), ("condition", condition.toJson), ("then", yes.toJson),
      ("else", match no with
        | some s => s.toJson
        | none => .null)]
  | .loop condition body invariant =>
    .object [("type", .string "while"), ("condition", condition.toJson), ("body", body.toJson),
      ("invariant", Pred.optionToJson invariant)]

/-- The statements of a block as JSON. -/
def Stmt.listToJson : List Stmt → List Json
  | [] => []
  | s :: rest => s.toJson :: Stmt.listToJson rest

end

/-- A function as JSON. -/
def FunctionDef.toJson (f : FunctionDef) : Json :=
  .object [("name", .string f.name),
    ("parameters", .array (f.params.map Param.toJson)),
    ("returns", .array (f.returns.map Param.toJson)),
    ("locals", .array (f.locals.map Param.toJson)),
    ("body", f.body.toJson),
    ("precondition", Pred.optionToJson f.pre),
    ("postcondition", Pred.optionToJson f.post)]

/-- A formula as JSON. -/
def FormulaDef.toJson (f : FormulaDef) : Json :=
  .object [("name", .string f.name), ("parameters", .array (f.params.map Param.toJson)),
    ("body", f.body.toJson)]

/-- A program as JSON. -/
def Program.toJson (p : Program) : Json :=
  .object [("functions", .array (p.functions.map FunctionDef.toJson)),
    ("formulas", .array (p.formulas.map FormulaDef.toJson))]

end Contracts

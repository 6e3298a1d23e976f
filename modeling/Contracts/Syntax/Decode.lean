import Contracts.Json.Read
import Contracts.Word

/-!
# Programs from JSON

Two kinds of objects make up a program's text.

* *Records* (programs, functions, formulas, parameters) have declared fields. A field may come in
  any place, a repeated one is an error, and others are stepped over unread.
* *Tagged objects* (expressions, predicates, targets, statements) name their variant in a tag field.
  They are taken in as a whole before the variant is known, so everything in them has to be
  readable and within the nesting limit, the unknown fields too.

Both may also be written as the list of their fields in declared order, the tag first. Inside a
tagged object a tag may be the variant's position. An operator or a type is its spelling, or an
object with the spelling as its only key and nothing as its value.

`room` counts the levels of nesting that are left.
-/

set_option autoImplicit false

namespace Contracts

/-- Levels of arrays and objects that a text may nest. -/
def nestingLimit : Nat := 127

namespace Json

/-- The single value of a field; the outer `none` is a repeated field. -/
def single? (entries : List (String × Json)) (name : String) : Option (Option Json) :=
  match entries.filter (·.1 == name) with
  | [] => some none
  | [(_, j)] => some (some j)
  | _ => none

/-- The declared fields, each with its value if it has one: by name from an object, by position
from a list. -/
def fields? (names : List String) : Json → Option (List (Option Json))
  | .object entries => names.mapM (single? entries)
  | .array items =>
    if items.length ≤ names.length then
      some (items.map some ++ List.replicate (names.length - items.length) none)
    else none
  | _ => none

/-- The tag and what is left of a tagged object. -/
def tagged? (tag : String) : Json → Option (Json × Json)
  | .object entries =>
    match single? entries tag with
    | some (some j) => some (j, .object (entries.filter (·.1 != tag)))
    | _ => none
  | .array (j :: items) => some (j, .array items)
  | _ => none

/-- The variant that a tag names. A position counts only inside a tagged object. -/
def variant? (inside : Bool) (names : List String) : Json → Option String
  | .string s => some s
  | .int n => if inside ∧ 0 ≤ n then names[n.toNat]? else none
  | _ => none

/-- The spelling of an operator or a type. -/
def spelling? (inside : Bool) : Json → Option String
  | .string s => some s
  | .object [(s, .null)] => some s
  | .object [(s, .object [])] => if inside then some s else none
  | _ => none

/-- The text of a string. -/
def string? : Json → Option String
  | .string s => some s
  | _ => none

/-- A 64-bit integer. -/
def int64? : Json → Option Int64
  | .int n => Contracts.word? n
  | _ => none

/-- A list; a missing one is empty. -/
def list? {α : Type} (decode : Json → Option α) : Option Json → Option (List α)
  | none => some []
  | some (.array items) => items.mapM decode
  | some _ => none

/-- Something that may be missing or null. -/
def optional? {α : Type} (decode : Json → Option α) : Option Json → Option (Option α)
  | none | some .null => some none
  | some j => (decode j).map some

/-- A tagged object that can be taken in as a whole. -/
def admitted? (room : Nat) (j : Json) : Option Json :=
  if j.depth ≤ room ∧ j.isReadable then some j else none

end Json

open Json

/-! ## Spellings -/

def ArithOp.ofSymbol? : String → Option ArithOp
  | "+" => some .add
  | "-" => some .sub
  | "*" => some .mul
  | "/" => some .div
  | _ => none

def CmpOp.ofSymbol? : String → Option CmpOp
  | "==" => some .eq
  | "!=" => some .ne
  | ">" => some .gt
  | "<" => some .lt
  | ">=" => some .ge
  | "<=" => some .le
  | _ => none

/-- The comparisons that have a variant of their own. -/
def CmpOp.ofWord? : String → Option CmpOp
  | "eq" => some .eq
  | "neq" => some .ne
  | "gt" => some .gt
  | "lt" => some .lt
  | "ge" => some .ge
  | "le" => some .le
  | _ => none

def VarType.ofText? : String → Option VarType
  | "int" => some .int
  | "int[]" => some .array
  | _ => none

/-! ## Parameters -/

/-- The type of a parameter; an integer if nothing is said. -/
def VarType.decode (room : Nat) (inside : Bool) : Option Json → Option VarType
  | none => some .int
  | some j => if j.depth ≤ room then spelling? inside j >>= VarType.ofText? else none

/-- A parameter. -/
def Param.decode (inside : Bool) : Nat → Json → Option Param
  | 0, _ => none
  | room + 1, j => do
    let [some name, type] ← j.fields? ["name", "varType"] | none
    return { name := ← name.string?, type := ← VarType.decode room inside type }

/-! ## Expressions and predicates -/

def exprVariants : List String :=
  ["const", "var", "unary", "binop", "arraccess", "funccall", "ite"]

def predVariants : List String :=
  ["true", "false", "comparison", "eq", "neq", "gt", "lt", "ge", "le", "not", "and", "or",
    "implies", "paren", "forall", "exists", "formulaRef"]

mutual

/-- An expression with at most the given levels of nested expressions and predicates. -/
def Expr.decodeAt : Nat → Bool → Json → Option Expr
  | 0, _, _ => none
  | n + 1, inside, j => do
    let (tag, body) ← j.tagged? "type"
    match ← tag.variant? inside exprVariants with
    | "const" => do
      let [some value] ← body.fields? ["value"] | none
      return .const (← value.int64?)
    | "var" => do
      let [some name] ← body.fields? ["name"] | none
      return .var (← name.string?)
    | "unary" => do
      let [some argument] ← body.fields? ["argument"] | none
      return .neg (← Expr.decodeAt n true argument)
    | "binop" => do
      let [some op, some left, some right] ← body.fields? ["op", "left", "right"] | none
      let op ← op.spelling? true >>= ArithOp.ofSymbol?
      return .binary op (← Expr.decodeAt n true left) (← Expr.decodeAt n true right)
    | "arraccess" => do
      let [some name, some index] ← body.fields? ["name", "index"] | none
      return .read (← name.string?) (← Expr.decodeAt n true index)
    | "funccall" => do
      let [some name, args] ← body.fields? ["name", "args"] | none
      return .call (← name.string?) (← list? (Expr.decodeAt n true) args)
    | "ite" => do
      let [some test, some yes, some no] ← body.fields? ["condition", "thenExpr", "elseExpr"] | none
      return .cond (← Pred.decodeAt n true test) (← Expr.decodeAt n true yes)
        (← Expr.decodeAt n true no)
    | _ => none

/-- A predicate with at most the given levels of nested expressions and predicates. -/
def Pred.decodeAt : Nat → Bool → Json → Option Pred
  | 0, _, _ => none
  | n + 1, inside, j => do
    let (tag, body) ← j.tagged? "kind"
    match ← tag.variant? inside predVariants with
    | "true" => do
      let [] ← body.fields? [] | none
      return .bool true
    | "false" => do
      let [] ← body.fields? [] | none
      return .bool false
    | "comparison" => do
      let [some op, some left, some right] ← body.fields? ["op", "left", "right"] | none
      let op ← op.spelling? true >>= CmpOp.ofSymbol?
      return .compare op (← Expr.decodeAt n true left) (← Expr.decodeAt n true right)
    | "not" => do
      let [some condition] ← body.fields? ["condition"] | none
      return .not (← Pred.decodeAt n true condition)
    | "and" => do
      let [some left, some right] ← body.fields? ["left", "right"] | none
      return .and (← Pred.decodeAt n true left) (← Pred.decodeAt n true right)
    | "or" => do
      let [some left, some right] ← body.fields? ["left", "right"] | none
      return .or (← Pred.decodeAt n true left) (← Pred.decodeAt n true right)
    | "implies" => do
      let [some left, some right] ← body.fields? ["left", "right"] | none
      return .implies (← Pred.decodeAt n true left) (← Pred.decodeAt n true right)
    | "paren" => do
      let [some inner] ← body.fields? ["inner"] | none
      return .paren (← Pred.decodeAt n true inner)
    | "forall" => do
      let [some binder, some predicate] ← body.fields? ["variable", "predicate"] | none
      return .quantified .universal (← Param.decode true nestingLimit binder)
        (← Pred.decodeAt n true predicate)
    | "exists" => do
      let [some binder, some predicate] ← body.fields? ["variable", "predicate"] | none
      return .quantified .existential (← Param.decode true nestingLimit binder)
        (← Pred.decodeAt n true predicate)
    | "formulaRef" => do
      let [some name, args] ← body.fields? ["name", "args"] | none
      return .formula (← name.string?) (← list? (Expr.decodeAt n true) args)
    | word => do
      let op ← CmpOp.ofWord? word
      let [some left, some right] ← body.fields? ["left", "right"] | none
      return .compare op (← Expr.decodeAt n true left) (← Expr.decodeAt n true right)

end

/-- An expression. -/
def Expr.decode (room : Nat) (j : Json) : Option Expr := do
  Expr.decodeAt (nestingLimit + 1) false (← j.admitted? room)

/-- A predicate. -/
def Pred.decode (room : Nat) (j : Json) : Option Pred := do
  Pred.decodeAt (nestingLimit + 1) false (← j.admitted? room)

/-! ## Statements -/

/-- An assignment target; it stands inside a statement. -/
def Target.decodeInside (j : Json) : Option Target := do
  let (tag, body) ← j.tagged? "type"
  match ← tag.variant? true ["lvar", "larr"] with
  | "lvar" => do
    let [some name] ← body.fields? ["name"] | none
    return .var (← name.string?)
  | "larr" => do
    let [some name, some index] ← body.fields? ["name", "index"] | none
    return .cell (← name.string?) (← Expr.decodeAt (nestingLimit + 1) true index)
  | _ => none

/-- A predicate inside a statement. -/
def Pred.decodeInside (j : Json) : Option Pred := Pred.decodeAt (nestingLimit + 1) true j

def stmtVariants : List String := ["assign", "block", "if", "while"]

/-- A statement with at most the given levels of nested statements. -/
def Stmt.decodeAt : Nat → Bool → Json → Option Stmt
  | 0, _, _ => none
  | n + 1, inside, j => do
    let (tag, body) ← j.tagged? "type"
    match ← tag.variant? inside stmtVariants with
    | "assign" => do
      let [some targets, some exprs] ← body.fields? ["targets", "exprs"] | none
      return .assign (← list? Target.decodeInside (some targets))
        (← list? (Expr.decodeAt (nestingLimit + 1) true) (some exprs))
    | "block" => do
      let [some stmts] ← body.fields? ["stmts"] | none
      return .block (← list? (Stmt.decodeAt n true) (some stmts))
    | "if" => do
      let [some condition, some yes, no] ← body.fields? ["condition", "then", "else"] | none
      return .branch (← Pred.decodeInside condition) (← Stmt.decodeAt n true yes)
        (← optional? (Stmt.decodeAt n true) no)
    | "while" => do
      let [some condition, some inner, invariant] ←
        body.fields? ["condition", "body", "invariant"] | none
      return .loop (← Pred.decodeInside condition) (← Stmt.decodeAt n true inner)
        (← optional? Pred.decodeInside invariant)
    | _ => none

/-- A statement. -/
def Stmt.decode (room : Nat) (j : Json) : Option Stmt := do
  Stmt.decodeAt (nestingLimit + 1) false (← j.admitted? room)

/-! ## Functions, formulas, programs -/

/-- A list of records; a missing one is empty. -/
def decodeRecords {α : Type} (decode : Nat → Json → Option α) : Nat → Option Json → Option (List α)
  | _, none => some []
  | room + 1, some (.array items) => items.mapM (decode room)
  | _, some _ => none

/-- A function. -/
def FunctionDef.decode : Nat → Json → Option FunctionDef
  | 0, _ => none
  | room + 1, j => do
    let [some name, params, returns, locals, some body, pre, post] ← j.fields? ["name",
      "parameters", "returns", "locals", "body", "precondition", "postcondition"] | none
    return {
      name := ← name.string?
      params := ← decodeRecords (Param.decode false) room params
      returns := ← decodeRecords (Param.decode false) room returns
      locals := ← decodeRecords (Param.decode false) room locals
      body := ← Stmt.decode room body
      pre := ← optional? (Pred.decode room) pre
      post := ← optional? (Pred.decode room) post }

/-- A formula. -/
def FormulaDef.decode : Nat → Json → Option FormulaDef
  | 0, _ => none
  | room + 1, j => do
    let [some name, params, some body] ← j.fields? ["name", "parameters", "body"] | none
    return {
      name := ← name.string?
      params := ← decodeRecords (Param.decode false) room params
      body := ← Pred.decode room body }

/-- A program. -/
def Program.decode : Nat → Json → Option Program
  | 0, _ => none
  | room + 1, j => do
    let [functions, formulas] ← j.fields? ["functions", "formulas"] | none
    return {
      functions := ← decodeRecords FunctionDef.decode room functions
      formulas := ← decodeRecords FormulaDef.decode room formulas }

/-! ## From the outermost level -/

def Expr.ofJson? (j : Json) : Option Expr := Expr.decode nestingLimit j

def Pred.ofJson? (j : Json) : Option Pred := Pred.decode nestingLimit j

def Stmt.ofJson? (j : Json) : Option Stmt := Stmt.decode nestingLimit j

def Program.ofJson? (j : Json) : Option Program := Program.decode nestingLimit j

/-- The program that a text denotes. -/
def Program.parse? (text : String) : Option Program := Json.read text >>= Program.ofJson?

end Contracts

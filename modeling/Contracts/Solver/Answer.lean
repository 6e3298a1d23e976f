import Contracts.Solver.Kind
import Contracts.Solver.Model

/-!
# Answers of solvers

The first line that is not blank is the answer; after `sat` the rest is a model, after `unknown`
it may be a reason. An error before the answer means that the query was refused, an error after it
only that there is no model.

A model is a sequence of definitions `(define-fun name () Sort value)` in whatever surroundings.
Definitions with parameters are stepped over.
-/

set_option autoImplicit false

namespace Contracts

/-- What a solver says of a query. -/
inductive Answer where
  /-- It can be satisfied, perhaps by a known model. -/
  | sat (model : Option Model)
  | unsat
  | unknown (reason : String)
  deriving DecidableEq, Repr

/-- Why there is no answer. -/
inductive SolverError where
  | notFound (kind : SolverKind) (path : String)
  | process (what : String)
  | emptyOutput (stderr : String)
  | rejected (line : String)
  | unexpected (line : String)
  deriving DecidableEq, Repr

/-- The message of an error. -/
def SolverError.message : SolverError → String
  | notFound kind path => kind.name ++ " binary not found at: " ++ path
  | process what => "Solver process error: " ++ what
  | emptyOutput stderr => "Failed to parse solver output: Empty solver output. stderr: " ++ stderr
  | rejected line => "Failed to parse solver output: Solver rejected the script: " ++ line
  | unexpected line => "Failed to parse solver output: Unexpected solver output: " ++ line

/-- The error of a solver that is not at its path. -/
def SolverConfig.notFound (c : SolverConfig) : SolverError := .notFound c.kind c.path

/-! ## Models -/

/-- A text cut behind the parenthesis that closes the outermost of so many open ones. -/
def takeClosed : Nat → List Char → Option (List Char × List Char)
  | _, [] => none
  | depth, c :: cs =>
    if c = '(' then (takeClosed (depth + 1) cs).map fun (inside, rest) => (c :: inside, rest)
    else if c = ')' then
      if depth ≤ 1 then some ([c], cs)
      else (takeClosed (depth - 1) cs).map fun (inside, rest) => (c :: inside, rest)
    else (takeClosed depth cs).map fun (inside, rest) => (c :: inside, rest)

theorem takeClosed_append {depth : Nat} {cs inside rest : List Char}
    (h : takeClosed depth cs = some (inside, rest)) : inside ++ rest = cs := by
  fun_induction takeClosed depth cs generalizing inside rest with
  | case1 => cases h
  | case2 depth cs ih =>
    obtain ⟨⟨a, b⟩, hab, heq⟩ := Option.map_eq_some_iff.1 h
    cases heq
    simp [ih hab]
  | case3 depth cs => cases h; rfl
  | case4 depth cs _ _ ih =>
    obtain ⟨⟨a, b⟩, hab, heq⟩ := Option.map_eq_some_iff.1 h
    cases heq
    simp [ih hab]
  | case5 depth c cs _ _ ih =>
    obtain ⟨⟨a, b⟩, hab, heq⟩ := Option.map_eq_some_iff.1 h
    cases heq
    simp [ih hab]

theorem length_rest_takeClosed {depth : Nat} {cs inside rest : List Char}
    (h : takeClosed depth cs = some (inside, rest)) : rest.length ≤ cs.length := by
  rw [← takeClosed_append h, List.length_append]
  exact Nat.le_add_left _ _

/-- What a text holds behind its leading sort, which is a word or stands in parentheses. -/
def dropSort? : List Char → Option (List Char)
  | [] => none
  | '(' :: cs => (takeClosed 1 cs).map Prod.snd
  | cs => some (cs.dropWhile fun c => c != ' ' && c != '(' && c != ')')

/-- Name and value of a definition without parameters, from what stands between its keyword and
its closing parenthesis. -/
def definition? (body : List Char) : Option (String × String) :=
  match Text.words body with
  | [] | [_] => none
  | name :: rest => do
    let rest ← Text.strip? ['(', ')'] ([' '].intercalate rest)
    let value := Text.trim (← dropSort? (Text.trimStart rest))
    if value.isEmpty then none else some (String.ofList name, String.ofList value)

/-- The keyword of a definition. -/
def defineFun : List Char := "define-fun ".toList

/-- The definitions without parameters in a text. One that is never closed ends the search. -/
def definitions (cs : List Char) : List (String × String) :=
  match cs with
  | [] => []
  | c :: cs =>
    match (if c = '(' then Text.strip? defineFun cs else none) with
    | none => definitions cs
    | some _ =>
      match _h : takeClosed 1 cs with
      | none => []
      | some (inside, rest) =>
        (definition? (inside.drop defineFun.length).dropLast).toList ++ definitions rest
termination_by cs.length
decreasing_by
  · exact Nat.lt_succ_self _
  · exact Nat.lt_succ_of_le (length_rest_takeClosed _h)

/-- The model in a text; none if nothing is defined there. -/
def readModel? (cs : List Char) : Option Model :=
  let entries := definitions cs
  if entries.isEmpty then none else some ⟨entries⟩

/-! ## The answer -/

/-- Whether a line reports an error. -/
def isErrorLine (line : List Char) : Bool := Text.startsWith "(error".toList line

/-- A reason without the parentheses, the keyword and the quotes around it. -/
def bareReason (line : List Char) : List Char :=
  let inside := Text.dropWhileEnd (· == ')') (line.dropWhile (· == '('))
  let text := Text.stripAll ":reason-unknown ".toList inside
  Text.dropWhileEnd (· == '"') (text.dropWhile (· == '"'))

/-- The reason for not knowing: the first line after the answer that is neither blank nor an
error, else what the solver wrote to its error output. -/
def unknownReason (lines : List (List Char)) (stderr : List Char) : List Char :=
  let after := (lines.dropWhile (· != "unknown".toList)).drop 1
  match after.find? fun line => !line.isEmpty && !isErrorLine line with
  | some line => bareReason line
  | none =>
    let stderr := Text.trim stderr
    if stderr.isEmpty then "unknown".toList else stderr

/-- Whether a text speaks of a timeout. -/
def mentionsTimeout (cs : List Char) : Bool := Text.occursIn "timeout".toList cs

/-- The answer in what a solver wrote to its two outputs. -/
def parseAnswer (stdout stderr : List Char) : Except SolverError Answer :=
  let stdout := Text.trim stdout
  if stdout.isEmpty then
    if mentionsTimeout stderr then .ok (.unknown "timeout")
    else .error (.emptyOutput (String.ofList (Text.trim stderr)))
  else
    let lines := Text.trimmedLines stdout
    let first := (lines.find? (!·.isEmpty)).getD []
    if isErrorLine first then .error (.rejected (String.ofList first))
    else match String.ofList first with
      | "unsat" => .ok .unsat
      | "sat" => .ok (.sat (readModel? stdout))
      | "unknown" => .ok (.unknown (String.ofList (unknownReason lines stderr)))
      | "timeout" => .ok (.unknown "timeout")
      | line => .error (.unexpected line)

/-- The answer of a solver that has ended: a timeout on either output comes first. -/
def readAnswer (stdout stderr : String) : Except SolverError Answer :=
  if mentionsTimeout stderr.toList || Text.trim stdout.toList == "timeout".toList then
    .ok (.unknown "timeout")
  else parseAnswer stdout.toList stderr.toList

end Contracts

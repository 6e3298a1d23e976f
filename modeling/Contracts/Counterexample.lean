import Contracts.Encoding.Query
import Contracts.Execution.Run
import Contracts.Solver.Model
import Contracts.Word

/-!
# Counterexamples

A model of a failing obligation fixes the arguments of the function. The body is run from them: if
the run ends and does not satisfy the postcondition, its final state supplies the returns and
locals (a *replay*). Otherwise the values of the model itself are shown.
-/

set_option autoImplicit false

namespace Contracts

/-- A counterexample in words: the call with its returns, then a line for each local. -/
structure Counterexample where
  call : String
  lines : List String
  /-- Whether the values come from a run. -/
  replayed : Bool
  deriving DecidableEq, Repr

/-- All lines of a counterexample. -/
def Counterexample.text (c : Counterexample) : String :=
  "\n".intercalate (c.call :: c.lines)

/-! ## Arguments from a model -/

/-- The written cells of an array in a model; none if an index or a value needs more than 64
bits. -/
def modelCells? (t : SymbolTable) (m : Model) (array : String) : Option Cells := do
  let known := (t.literalCells array).filterMap fun (i, symbol) =>
    (m.getInt? symbol).map fun v => (i, v)
  let words ← known.mapM fun (i, v) => do return (← word? i, ← word? v)
  return words.foldl (fun c (i, v) => c.write i v) ∅

/-- The value of a parameter in a model. What the model leaves open is zero. -/
def modelValue? (t : SymbolTable) (m : Model) (x : Param) : Option Value :=
  match x.type with
  | .int => (word? (((t.scalar? x.name).bind m.getInt?).getD 0)).map .int
  | .array => (modelCells? t m x.name).map .array

/-- The arguments that a model gives a function; none if some value needs more than 64 bits. -/
def FunctionDef.modelArgs? (f : FunctionDef) (t : SymbolTable) (m : Model) : Option State := do
  let pairs ← f.params.mapM fun x => do return (x.name, ← modelValue? t m x)
  return State.ofPairs pairs

/-- The final state of a run from the given arguments, unless the run fails or ends in a state
that satisfies the postcondition. -/
def Program.replay? (p : Program) (f : FunctionDef) (args : State) : Option State :=
  match p.run f args defaultFuel with
  | .error _ => none
  | .ok final =>
    match f.post.map fun q => p.holds q final defaultFuel with
    | some (.ok true) => none
    | _ => some final

/-! ## Values in words -/

/-- What is shown for a variable without a known value. -/
def unknownValue (name : String) : String := "<unknown:" ++ name ++ ">"

/-- Cells in words, such as `{0: 5, 3: -1}`. -/
def cellsText (cells : List (String × String)) : String :=
  "\x7b" ++ ", ".intercalate (cells.map fun (i, v) => i ++ ": " ++ v) ++ "\x7d"

/-- The cells of an array with indices and values in words, by ascending index. -/
def Cells.texts (c : Cells) : List (String × String) :=
  c.toList.map fun (i, v) => (toString i.toInt, toString v.toInt)

/-- A value in words. -/
def Value.text : Value → String
  | .int v => toString v.toInt
  | .array c => cellsText c.texts

/-- A value of a model in words: an integer in decimal, anything else as the solver wrote it. -/
def modelText (value : String) : String :=
  match modelInt? value with
  | some n => toString n
  | none => value

/-- Where shown values come from. -/
inductive Source where
  | run (final : State)
  | model (symbols : SymbolTable) (model : Model)

namespace Source

/-- The cells of an array, by ascending index. -/
def cells (source : Source) (array : String) : List (String × String) :=
  match source with
  | run final => ((final.array? array).map Cells.texts).getD []
  | model t m =>
    let known := (t.literalCells array).filterMap fun (i, symbol) =>
      (m.get? symbol).map fun v => (i, modelText v)
    (known.mergeSort fun a b => a.1 ≤ b.1).map fun (i, v) => (toString i, v)

/-- The value of a variable. -/
def value (source : Source) (x : Param) : String :=
  match source with
  | run final => (final[x.name]?.map Value.text).getD (unknownValue x.name)
  | model t m =>
    match x.type with
    | .int => (((t.scalar? x.name).bind m.get?).map modelText).getD (unknownValue x.name)
    | .array => cellsText (source.cells x.name)

/-- The lines of a local: one for an integer or an empty array, else one for each cell. -/
def localLines (source : Source) (x : Param) : List String :=
  match x.type with
  | .int => [x.name ++ " = " ++ source.value x]
  | .array =>
    match source.cells x.name with
    | [] => [x.name ++ " = \x7b\x7d"]
    | cells => cells.map fun (i, v) => x.name ++ "[" ++ i ++ "] = " ++ v

end Source

/-- The counterexample with values from a source; arguments that are known are shown as such. -/
def FunctionDef.describe (f : FunctionDef) (args : Option State) (source : Source) :
    Counterexample :=
  let shown := f.params.map fun x =>
    match args.bind fun s => s[x.name]? with
    | some v => v.text
    | none => source.value x
  let returned := f.returns.map fun x => x.name ++ " = " ++ source.value x
  { call := f.name ++ "(" ++ ", ".intercalate shown ++ ") => [" ++ ", ".intercalate returned ++ "]"
    lines := f.locals.flatMap source.localLines
    replayed := match source with
      | .run _ => true
      | .model .. => false }

/-- The counterexample that a model gives; without a model every value is open. -/
def Program.counterexample (p : Program) (f : FunctionDef) (t : SymbolTable)
    (model : Option Model) : Counterexample :=
  let m := model.getD ⟨[]⟩
  let args := f.modelArgs? t m
  match args.bind (p.replay? f) with
  | some final => f.describe args (.run final)
  | none => f.describe args (.model t m)

end Contracts

import Contracts.Smt.Term

/-!
# SMT-LIB scripts

A script is the list of its commands, and its text has one command to a line. `Script.query` is
what a solver is given: models are asked for first, and a script that does not end in a check and
a request for the model is completed.
-/

set_option autoImplicit false

namespace Contracts.Smt

/-- A command of a script. -/
inductive Command where
  | setLogic (logic : String)
  | setOption (key value : String)
  | declareConst (name : String) (sort : SmtSort)
  | declareFun (name : String) (params : List SmtSort) (result : SmtSort)
  | assert (term : Term)
  | checkSat
  | getModel
  | comment (text : String)
  deriving DecidableEq

/-- The text of a command. -/
def Command.text : Command → String
  | .setLogic l => parens ["set-logic", l]
  | .setOption k v => parens ["set-option", ":" ++ k, v]
  | .declareConst x sort => parens ["declare-const", x, sort.text]
  | .declareFun f params result =>
    parens ["declare-fun", f, parens (params.map SmtSort.text), result.text]
  | .assert t => parens ["assert", t.text]
  | .checkSat => "(check-sat)"
  | .getModel => "(get-model)"
  | .comment text => ";; " ++ text

/-- Whether a command asserts something. -/
def Command.isAssert : Command → Bool
  | .assert _ => true
  | _ => false

/-- A sequence of commands. -/
abbrev Script := List Command

namespace Script

/-- The text of a script. -/
def text (s : Script) : String := "\n".intercalate (s.map Command.text)

/-- Number of assertions. -/
def assertionCount (s : Script) : Nat := s.countP Command.isAssert

/-- Whether the script checks satisfiability. -/
def hasCheckSat (s : Script) : Bool := s.contains .checkSat

/-- Whether the script asks for a model. -/
def hasGetModel (s : Script) : Bool := s.contains .getModel

/-- The complete text for a solver. -/
def query (s : Script) : String :=
  (Command.setOption "produce-models" "true").text ++ "\n" ++ s.text ++ "\n"
    ++ (if s.hasCheckSat then "" else Command.checkSat.text ++ "\n")
    ++ (if s.hasGetModel then "" else Command.getModel.text ++ "\n")

end Script

end Contracts.Smt

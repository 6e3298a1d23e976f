import Contracts.Report.Basic

/-!
# Reports as lines of text

A function takes one line that starts with a tag for its outcome; a counterexample follows on
lines of its own. The summary counts the outcomes that occur. On a terminal, tags and counted
words are coloured by escape sequences.
-/

set_option autoImplicit false

namespace Contracts

/-- How a piece of text stands out. -/
inductive Style where
  /-- A tag in bold and in the colour of an outcome. -/
  | tag (kind : Outcome.Kind)
  /-- A word in the colour of an outcome. -/
  | word (kind : Outcome.Kind)
  | alarm
  | bold
  | dim
  deriving DecidableEq, Repr

/-- The colour of an outcome. -/
def Outcome.Kind.color : Outcome.Kind → String
  | .verified => "32"
  | .skipped => "36"
  | .failed => "31"
  | .inconclusive => "33"
  | .error => "35"

/-- The word for an outcome. -/
def Outcome.Kind.word : Outcome.Kind → String
  | .verified => "OK"
  | .skipped => "SKIP"
  | .failed => "FAIL"
  | .inconclusive => "UNKNOWN"
  | .error => "ERROR"

/-- The parameters of the escape sequence that turns a style on. -/
def Style.codes : Style → String
  | tag kind => "1;" ++ kind.color
  | word kind => kind.color
  | alarm => "1;31"
  | bold => "1"
  | dim => "2"

/-- Whether text is coloured. -/
structure Palette where
  colored : Bool

/-- A text in a style. -/
def Palette.paint (c : Palette) (style : Style) (text : String) : String :=
  if c.colored then "\x1b[" ++ style.codes ++ "m" ++ text ++ "\x1b[0m" else text

/-- Width of the tags with the blanks behind them. -/
def tagWidth : Nat := 11

/-- The tag of an outcome and the blanks behind it. -/
def Palette.tag (c : Palette) (kind : Outcome.Kind) : String :=
  let text := "[" ++ kind.word ++ "]"
  c.paint (.tag kind) text ++ String.ofList (List.replicate (tagWidth - text.length) ' ')

/-- What stands behind the name of a function. -/
def Outcome.remark : Outcome → String
  | verified | failed _ => ""
  | skipped => " (no postcondition)"
  | inconclusive reason => " (" ++ reason ++ ")"
  | error stage message => " (" ++ stage.name ++ ": " ++ message ++ ")"

/-- The lines of a counterexample. -/
def Counterexample.layout (c : Palette) (x : Counterexample) : List String :=
  let origin := if x.replayed then "" else " (solver model)"
  ("      counterexample" ++ c.paint .dim origin ++ ":")
    :: (x.call :: x.lines).map fun line => "        " ++ line

/-- The lines of a function. -/
def FunctionResult.layout (c : Palette) (verbose : Bool) (r : FunctionResult) : List String :=
  let timing := if verbose then " (" ++ toString r.durationMs ++ "ms)" else ""
  ("  " ++ c.tag r.outcome.kind ++ r.name ++ r.outcome.remark ++ timing)
    :: match r.outcome with
      | .failed x => x.layout c
      | _ => []

namespace Report

/-- The order of the counts in a summary. -/
def summaryOrder : List Outcome.Kind := [.verified, .skipped, .failed, .inconclusive, .error]

/-- The line that counts the outcomes. -/
def summary (c : Palette) (r : Report) : String :=
  let parts := (summaryOrder.filter fun kind => 0 < r.count kind).map fun kind =>
    toString (r.count kind) ++ " " ++ c.paint (.word kind) kind.word
  let total := if 0 < r.totalMs then " (total: " ++ toString r.totalMs ++ "ms)" else ""
  "Summary: " ++ ", ".intercalate parts ++ total

/-- The line above a report. -/
def header (c : Palette) (name solver : String) : String :=
  c.paint .bold ("Verifying " ++ name ++ " with " ++ solver)

/-- All lines of a report. -/
def layout (c : Palette) (verbose : Bool) (r : Report) : List String :=
  if r.results.isEmpty then [c.paint .dim "No functions found."]
  else [""] ++ r.results.flatMap (·.layout c verbose) ++ ["", r.summary c, ""]

end Report

end Contracts

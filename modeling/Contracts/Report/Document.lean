import Contracts.Json.Write
import Contracts.Report.Basic

/-!
# Reports as JSON

Members that do not apply to an outcome are left out.
-/

set_option autoImplicit false

namespace Contracts

/-- The status in a document. -/
def Outcome.Kind.status : Outcome.Kind → String
  | .verified => "verified"
  | .failed => "failed"
  | .inconclusive => "inconclusive"
  | .error => "error"
  | .skipped => "skipped"

def Counterexample.toJson (c : Counterexample) : Json :=
  .object [("call", .string c.call), ("locals", .array (c.lines.map .string)),
    ("replayed", .bool c.replayed)]

/-- The members that only some outcomes have. -/
def Outcome.details : Outcome → List (String × Json)
  | verified | skipped => []
  | failed c => [("counterexample", c.toJson)]
  | inconclusive reason => [("message", .string reason)]
  | error stage message => [("message", .string message), ("stage", .string stage.name)]

def FunctionResult.toJson (r : FunctionResult) : Json :=
  .object ([("name", .string r.name), ("status", .string r.outcome.kind.status),
    ("verified", .bool r.outcome.isVerified), ("duration_ms", .int r.durationMs)]
    ++ r.outcome.details)

namespace Report

/-- The counts of a report. -/
def summaryJson (r : Report) : Json :=
  .object [("total", .int r.results.length), ("verified", .int (r.count .verified)),
    ("failed", .int (r.count .failed)), ("inconclusive", .int (r.count .inconclusive)),
    ("errors", .int (r.count .error)), ("skipped", .int (r.count .skipped)),
    ("total_ms", .int r.totalMs)]

def toJson (r : Report) : Json :=
  .object [("module", .string r.name), ("verified", .bool r.allVerified),
    ("functions", .array (r.results.map FunctionResult.toJson)), ("summary", r.summaryJson)]

end Report

end Contracts

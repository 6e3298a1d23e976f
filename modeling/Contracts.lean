import Contracts.Check
import Contracts.CommandLine.Folder
import Contracts.CommandLine.Options
import Contracts.CommandLine.Path
import Contracts.CommandLine.Run
import Contracts.Counterexample
import Contracts.Encoding.Contract
import Contracts.Encoding.Env
import Contracts.Encoding.Query
import Contracts.Encoding.Session
import Contracts.Encoding.Term
import Contracts.Error
import Contracts.Execution.Error
import Contracts.Execution.Run
import Contracts.Execution.Value
import Contracts.Json.Basic
import Contracts.Json.Number
import Contracts.Json.Read
import Contracts.Json.Write
import Contracts.Main
import Contracts.Report.Basic
import Contracts.Report.Document
import Contracts.Report.Layout
import Contracts.Simplify
import Contracts.Smt.Script
import Contracts.Smt.Term
import Contracts.Solver.Answer
import Contracts.Solver.Kind
import Contracts.Solver.Model
import Contracts.Substitution
import Contracts.Syntax.Basic
import Contracts.Syntax.Canonical
import Contracts.Syntax.Decode
import Contracts.Syntax.Names
import Contracts.Syntax.Text
import Contracts.Text
import Contracts.WeakestPre
import Contracts.Word
import Contracts.Proofs.Meaning
import Contracts.Proofs.NewNames
import Contracts.Proofs.Renaming
import Contracts.Proofs.SubstitutionMeaning
import Contracts.Proofs.ExecutionMeaning
import Contracts.Proofs.SimplifyMeaning
import Contracts.Proofs.AssignmentMeaning
import Contracts.Proofs.ExecutionFrame
import Contracts.Proofs.WeakestPreSound
import Contracts.Proofs.WeakestPreExact
import Contracts.Proofs.CellAssignment
import Contracts.Proofs.WeakestPreCells
import Contracts.Proofs.EncodingGrowth
import Contracts.Proofs.EncodingInvariant
import Contracts.Proofs.EncodingMeaning
import Contracts.Proofs.ContractAssertions
import Contracts.Proofs.QuerySound
import Contracts.Proofs.Depth
import Contracts.Proofs.EncodingAgreement
import Contracts.Proofs.SymbolRenaming
import Contracts.Proofs.ContractInvariant
import Contracts.Proofs.EncodingCoupling
import Contracts.Proofs.QueryHistory
import Contracts.Proofs.ScriptSorts
import Contracts.Proofs.SessionSorts
import Contracts.Proofs.QuerySorts
import Contracts.Proofs.ContractCoupling
import Contracts.Proofs.StandaloneContracts
import Contracts.Proofs.SessionAxioms
import Contracts.Proofs.SharedSession
import Contracts.Proofs.AxiomSets
import Contracts.Proofs.EncodingDepth
import Contracts.Proofs.QueryOutcome
import Contracts.Proofs.SymbolHygiene
import Contracts.Proofs.StraightLine
import Contracts.Proofs.CounterexampleReplay
import Contracts.Proofs.SimplifyEvaluation
import Contracts.Proofs.SimplifyNormal
import Contracts.Proofs.CheckProtocol
import Contracts.Proofs.SortedMeaning
import Contracts.Proofs.Numerals
import Contracts.Proofs.ModelReading
import Contracts.Proofs.SexpText
import Contracts.Proofs.TermText
import Contracts.Proofs.JsonText
import Contracts.Proofs.JsonVariants
import Contracts.Proofs.ProgramJson
import Contracts.Proofs.SubstitutionEvaluation
import Contracts.Proofs.CellEvaluation
import Contracts.Proofs.MixedAssignment
import Contracts.Proofs.CellAliasing
import Contracts.Proofs.CellUpdateMeaning
import Contracts.Proofs.WeakestPreTransformer
import Contracts.Proofs.FreeNames
import Contracts.Proofs.ArgumentReading
import Contracts.Proofs.VerboseSwitch
import Contracts.Proofs.SubstitutionDepth

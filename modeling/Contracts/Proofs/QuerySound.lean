import Mathlib
import Contracts.Encoding.Query
import Contracts.Proofs.ContractAssertions
import Contracts.Proofs.Reflection

/-!
# Queries are sound

A session stays well-formed through all queries, failed ones included, so everything that a query
asserts before its goal holds in the structure that reflects a valuation. There the goal is as true
as the obligation, by the meaning of the encoding. So an obligation whose query is unsatisfiable
holds (`query_sound`), whatever queries the session has seen before.
-/

set_option autoImplicit false

namespace Contracts

open Smt

variable {α : Type}

/-! ## Sessions with a history -/

/-- The session after some queries, whether they succeeded or not. -/
def Program.sessionAfter (p : Program) (history : List (FunctionDef × Pred)) : Session :=
  history.foldl (fun s h => (p.query h.1 h.2 s).2) Session.new

/-- What holds of a new session and is kept by queries holds after all queries. -/
theorem Program.sessionAfter_induction (p : Program) {P : Session → Prop} (hnew : P Session.new)
    {history : List (FunctionDef × Pred)}
    (hquery : ∀ h ∈ history, ∀ s, P s → P (p.query h.1 h.2 s).2) : P (p.sessionAfter history) := by
  unfold sessionAfter
  generalize Session.new = s at hnew ⊢
  induction history generalizing s with
  | nil => exact hnew
  | cons h history ih =>
    obtain ⟨hfirst, hrest⟩ := List.forall_mem_cons.mp hquery
    exact ih hrest _ (hfirst s hnew)

/-- The session in which the obligation of a function is encoded. -/
def Session.forFunction (s : Session) (f : FunctionDef) : Session :=
  (f.scalars.map Prod.snd).foldl Session.declareLocalConst (s.beginFunction f.name)

/-- A query is an encoding, and it leaves the session where the encoding leaves it. -/
theorem Program.query_run (p : Program) (f : FunctionDef) (obligation : Pred) (s : Session) :
    (p.query f obligation s).2 =
        (p.encodePred obligation (Env.ofFunction f) (s.forFunction f)).2 ∧
      ∀ query, (p.query f obligation s).1 = .ok query → ∃ goal s',
        p.encodePred obligation (Env.ofFunction f) (s.forFunction f) = (.ok goal, s') ∧
        query.script = s'.assemble goal ∧ query.symbols.cells = s'.scope.cells := by
  have hopen : p.query f obligation s =
      (p.encodePred obligation (Env.ofFunction f) >>= fun goal => get >>= fun s' =>
        pure ⟨f.name, s'.assemble goal, ⟨f.scalars, s'.scope.cells⟩⟩) (s.forFunction f) := rfl
  rw [hopen]
  cases hrun : p.encodePred obligation (Env.ofFunction f) (s.forFunction f) with
  | mk result s' =>
    cases result with
    | error e =>
      rw [EncodeM.bind_of_error hrun]
      refine ⟨rfl, ?_⟩
      rintro query ⟨⟩
    | ok goal =>
      rw [EncodeM.bind_of_ok hrun]
      refine ⟨rfl, ?_⟩
      rintro query ⟨⟩
      exact ⟨goal, s', rfl, rfl, rfl⟩

section

variable {p : Program} {V : Command → Prop}

theorem Session.WellFormed.forFunction (hV : AdmitsBasics V) {s : Session} (hs : s.WellFormed V)
    (f : FunctionDef) :
    (s.forFunction f).WellFormed V ∧ (s.forFunction f).scope.cells = [] := by
  have hbegin : (s.beginFunction f.name).WellFormed V ∧ (s.beginFunction f.name).scope.cells = [] :=
    ⟨⟨fun c hc => absurd hc List.not_mem_nil, List.Pairwise.nil, hs.commands,
      fun c hc => absurd hc List.not_mem_nil, fun c hc => absurd hc List.not_mem_nil⟩, rfl⟩
  unfold Session.forFunction
  generalize f.scalars.map Prod.snd = names
  generalize s.beginFunction f.name = s₁ at hbegin ⊢
  induction names generalizing s₁ with
  | nil => exact hbegin
  | cons x names ih =>
    refine ih (s₁.declareLocalConst x) ⟨hbegin.1.declareLocalConst hV x, ?_⟩
    rw [Session.declareLocalConst_cells, hbegin.2]

/-- The encoding of an obligation, also a failed one, keeps the session well-formed, and the cells
it makes are those of the arrays of the function. -/
theorem query_keeps (hp : p.PlainNames) (hV : p.Admits p.levels V) {f : FunctionDef}
    (hf : f ∈ p.functions) (obligation : Pred) {s : Session} (hs : s.WellFormed V) :
    (p.query f obligation s).2.WellFormed V ∧
      ∀ c ∈ (p.query f obligation s).2.scope.cells, c.array ∈ f.arrays := by
  obtain ⟨hstart, hnone⟩ := hs.forFunction hV.toAdmitsBasics f
  have hr := resolver_keeps hp hV (Nat.le_refl p.levels) []
  rw [(p.query_run f obligation s).1]
  obtain ⟨hwf, hgrows, -⟩ := keeps_encodePred hV.toAdmitsBasics hr obligation
    (Env.settled_ofFunction (hp f hf) _) (s.forFunction f) _ _ rfl hstart (Nat.le_refl _)
  refine ⟨hwf, fun c hc => ?_⟩
  rcases hgrows.mem_cells_cases hc with hc | hc
  · rw [hnone] at hc
    cases hc
  · exact hc.1

theorem sessionAfter_wellFormed (hp : p.PlainNames) (hV : p.Admits p.levels V)
    {history : List (FunctionDef × Pred)} (hhistory : ∀ h ∈ history, h.1 ∈ p.functions) :
    (p.sessionAfter history).WellFormed V := by
  have hnew : Session.new.WellFormed V :=
    ⟨fun c hc => absurd hc List.not_mem_nil, List.Pairwise.nil,
      fun c hc => absurd hc List.not_mem_nil, fun c hc => absurd hc List.not_mem_nil,
      fun c hc => absurd hc List.not_mem_nil⟩
  exact p.sessionAfter_induction hnew fun h hh _ hs => (query_keeps hp hV (hhistory h hh) h.2 hs).1

end

/-! ## The script -/

/-- The commands of a query before its goal. -/
def Session.hypotheses (s : Session) : Script :=
  [.setLogic "ALL", .comment ("verification condition for `" ++ s.scope.function ++ "`")]
    ++ s.commands ++ s.scope.decls ++ s.scope.assertions ++ Session.cellLinks s.scope

theorem Session.assemble_eq (s : Session) (goal : Term) :
    s.assemble goal = s.hypotheses ++ [.assert (.not goal), .checkSat, .getModel] := rfl

/-- A structure satisfies a script with one more assertion where it satisfies both. -/
theorem Smt.Structure.satisfies_goal {J : Structure} {hypotheses : Script} {goal : Term} :
    J.Satisfies (hypotheses ++ [.assert (.not goal), .checkSat, .getModel]) ↔
      J.Satisfies hypotheses ∧ ¬goal.Holds J := by
  have hnot : (Term.not goal).Holds J ↔ ¬goal.Holds J := by
    rw [Term.Holds, Term.eval, Val.truth_bool]
    rfl
  rw [← hnot]
  constructor
  · intro h
    refine ⟨⟨fun c hc => h.1 c (List.mem_append_left _ hc), fun t ht =>
      h.2 t (List.mem_append_left _ ht)⟩, h.2 _ (List.mem_append_right _ List.mem_cons_self)⟩
  · rintro ⟨h, hgoal⟩
    refine ⟨fun c hc => ?_, fun t ht => ?_⟩
    · rcases List.mem_append.mp hc with hc | hc
      · exact h.1 c hc
      · simp only [List.mem_cons, List.not_mem_nil, or_false] at hc
        rcases hc with rfl | rfl | rfl <;> exact trivial
    · rcases List.mem_append.mp ht with ht | ht
      · exact h.2 t ht
      · simp only [List.mem_cons, List.not_mem_nil, or_false, Command.assert.injEq, reduceCtorEq]
          at ht
        rw [ht]
        exact hgoal

/-- What comes before the goal holds in every structure that fits, if cells and selectors agree. -/
theorem satisfies_hypotheses {M : Interpretation α} {s : Session} {J : Structure}
    (hs : s.WellFormed M.Justifies) (hJ : J.Fits M)
    (hlength : ∀ a : String, 0 ≤ (J.const (a ++ "!len")).toInt)
    (hlinks : ∀ c ∈ s.scope.cells, J.const c.symbol = J.fn (c.array ++ "!sel") [c.index.eval J]) :
    J.Satisfies s.hypotheses := by
  have hall : ∀ c ∈ s.hypotheses, J.Respects c ∧ ∀ t, c = .assert t → t.Holds J := by
    intro c hc
    unfold Session.hypotheses at hc
    simp only [List.mem_append] at hc
    rcases hc with (((hc | hc) | hc) | hc) | hc
    · simp only [List.mem_cons, List.not_mem_nil, or_false] at hc
      rcases hc with rfl | rfl
      · exact ⟨trivial, by rintro t ⟨⟩⟩
      · exact ⟨trivial, by rintro t ⟨⟩⟩
    · exact hs.commands c hc J hJ hlength
    · exact hs.decls c hc J hJ hlength
    · exact hs.assertions c hc J hJ hlength
    · -- a link equates a cell and its selector, which the structure has agree
      unfold Session.cellLinks at hc
      obtain ⟨d, hd, rfl⟩ := List.mem_map.mp hc
      refine ⟨trivial, ?_⟩
      rintro t ⟨⟩
      rw [Term.Holds, Term.eq, Term.eval, Term.eval, Term.eval, Term.evals, Term.evals]
      exact hlinks d (List.mem_filter.mp hd).1
  exact ⟨fun c hc => (hall c hc).1, fun t ht => (hall _ ht).2 t rfl⟩

/-! ## Soundness -/

/-- **Queries are sound.** Take a session after any queries for functions of the program, and a
query that succeeds in it. For all values of the variables of the function, and all readings of
called names that meet the contracts of the program, there is a structure that agrees with them and
satisfies everything before the goal of the query, and in it the goal has the truth value of the
obligation. So the obligation holds if the query is unsatisfiable. -/
theorem query_sound {p : Program} (hp : p.PlainNames) {history : List (FunctionDef × Pred)}
    (hhistory : ∀ h ∈ history, h.1 ∈ p.functions) {f : FunctionDef} (hf : f ∈ p.functions)
    {obligation : Pred} {query : Query} {s' : Session}
    (hrun : p.query f obligation (p.sessionAfter history) = (.ok query, s'))
    (M : Interpretation α) (hlength : ∀ a, 0 ≤ M.length a) (zeroQuot : Int → Int)
    (hquot : ∀ a, M.zeroQuot a = if 0 ≤ a then zeroQuot a else -zeroQuot (-a))
    (hM : M.MeetsContracts p) (ρ : Valuation α)
    (hρ : ∀ d ∈ f.decls, (ρ d.name).type = d.type) :
    ∃ (hypotheses : Script) (goal : Term),
      query.script = hypotheses ++ [.assert (.not goal), .checkSat, .getModel] ∧
      (∃ J : Structure, J.Fits M ∧ J.zeroQuot = zeroQuot ∧
        (Env.ofFunction f).Denotes M J query.symbols.cells ρ ∧ J.Satisfies hypotheses ∧
        goal.eval J = .bool (obligation.Holds (M.expand p p.levels) ρ)) ∧
      (query.script.Unsat → obligation.Holds (M.expand p p.levels) ρ) := by
  have hV := admits_justifies hp hM
  have hplain := hp f hf
  have hs := sessionAfter_wellFormed hp hV hhistory
  obtain ⟨hwf, harrays⟩ := query_keeps hp hV hf obligation hs
  obtain ⟨hsession, hgoal⟩ := p.query_run f obligation (p.sessionAfter history)
  obtain ⟨goal, s₁, hencode, hscript, hcells⟩ := hgoal query (by rw [hrun])
  rw [hrun] at hwf harrays
  rw [hrun, hencode] at hsession
  dsimp only at hwf harrays hsession
  subst hsession
  have hJ : (ρ.reflectAll M f.decls zeroQuot s'.scope.cells).Fits M :=
    reflectAll_fits hplain hquot
  have hdenotes : (Env.ofFunction f).Denotes M (ρ.reflectAll M f.decls zeroQuot s'.scope.cells)
      s'.scope.cells ρ := reflectAll_denotes hplain hρ hwf.cells hwf.ordered
  have hhypotheses : (ρ.reflectAll M f.decls zeroQuot s'.scope.cells).Satisfies s'.hypotheses := by
    refine satisfies_hypotheses hwf hJ
      (reflectAll_length_nonneg hplain hρ hlength hwf.cells) fun c hc => ?_
    rw [reflectAll_cell hwf.cells hwf.ordered hc, reflectAll_fn]
    exact congrArg Val.int (function_select_read hρ (harrays c hc) _).symm
  -- the encoding says what the goal means, in any structure that fits
  have htruth := eval_encodePred (resolver_keeps hp (p.admits_true _) (Nat.le_refl p.levels) [])
    (resolver_means hp M p.levels []) (Nat.le_refl _) obligation
    ((hs.mono fun _ _ => trivial).forFunction admitsBasics_true f).1
    (Env.settled_ofFunction hplain _) hencode hJ hdenotes
  refine ⟨s'.hypotheses, goal, hscript, ⟨_, hJ, reflectAll_zeroQuot, ?_, hhypotheses, htruth⟩,
    fun hunsat => ?_⟩
  · rw [hcells]
    exact hdenotes
  · by_contra hfails
    refine hunsat (ρ.reflectAll M f.decls zeroQuot s'.scope.cells) ?_
    rw [hscript, Session.assemble_eq, Structure.satisfies_goal]
    refine ⟨hhypotheses, ?_⟩
    rw [Term.Holds, htruth]
    exact hfails

/-! ### An instance

A function `scan` of an array and a number, and a function `increment` with a contract. The
obligation calls `increment` at a cell of the array and refers to a formula that quantifies over all
cells. It is false for an array of twos and the number two, so its query is satisfiable. -/

/-- Returns its argument plus one. -/
def increment : FunctionDef where
  name := "increment"
  params := [⟨"x", .int⟩]
  returns := [⟨"r", .int⟩]
  locals := []
  body := .assign [.var "r"] [.binary .add (.var "x") (.const 1)]
  pre := none
  post := some (.compare .eq (.var "r") (.binary .add (.var "x") (.const 1)))

def scan : FunctionDef where
  name := "scan"
  params := [⟨"a", .array⟩, ⟨"n", .int⟩]
  returns := []
  locals := []
  body := .block []
  pre := none
  post := none

/-- No cell of the array is above the bound. -/
def atMost : FormulaDef where
  name := "atMost"
  params := [⟨"a", .array⟩, ⟨"bound", .int⟩]
  body := .quantified .universal ⟨"i", .int⟩ (.compare .le (.read "a" (.var "i")) (.var "bound"))

def scanProgram : Program := ⟨[increment, scan], [atMost]⟩

/-- A query that fails, since `m` is not declared, and one that brings in the contract. -/
def scanHistory : List (FunctionDef × Pred) :=
  [(scan, .compare .eq (.var "m") (.const 0)),
    (scan, .compare .eq (.call "increment" [.var "n"]) (.const 0))]

def scanObligation : Pred :=
  .implies (.formula "atMost" [.var "a", .var "n"])
    (.compare .le (.call "increment" [.read "a" (.const 0)]) (.var "n"))

/-- Arrays are functions, and every call adds one. -/
def scanReading : Interpretation (Int → Int) where
  cell a i := a i
  length _ := 0
  fn _ args := (args.headD (.int 0)).toInt + 1
  formula _ _ := False
  zeroQuot _ := 0

def scanValues : Valuation (Int → Int) := fun x => if x = "a" then .array fun _ => 2 else .int 2

theorem scanReading_meetsContracts : scanReading.MeetsContracts scanProgram := by
  intro g hg post hpost ns hns ρ hρ _
  obtain ⟨hmem, -⟩ := Program.mem_of_function? hg.found
  rcases List.mem_cons.mp hmem with rfl | hmem
  · cases hpost
    obtain ⟨n, rfl⟩ := List.length_eq_one_iff.mp hns
    rw [hρ]
    simp [increment, FunctionDef.contractValuation, Valuation.bindAll, Pred.Holds, Expr.value,
      CmpOp.holds, Interpretation.arith, ArithOp.onInt, scanReading]
  · rw [List.mem_singleton.mp hmem] at hg
    cases hg.scalars

theorem not_scanObligation :
    ¬scanObligation.Holds (scanReading.expand scanProgram scanProgram.levels) scanValues := by
  intro h
  have hatMost : (Pred.formula "atMost" [.var "a", .var "n"]).Holds
      (scanReading.expand scanProgram scanProgram.levels) scanValues := by
    rw [Pred.Holds]
    refine (scanReading.expand_formula (d := atMost) rfl 2 _).mpr fun i => ?_
    simp [Pred.Holds, Expr.value, Expr.data, Expr.datum, Valuation.bindAll, atMost, scanValues,
      CmpOp.holds, Interpretation.read, Interpretation.expand, scanReading]
  have hbound := h hatMost
  simp [Pred.Holds, Expr.value, Expr.data, Expr.datum, scanValues, CmpOp.holds,
    Interpretation.call, Interpretation.read, Interpretation.expand, scanReading] at hbound

/-- The query of the false obligation has a model. -/
theorem query_sound_scan : ∃ (query : Query) (s' : Session),
    scanProgram.query scan scanObligation (scanProgram.sessionAfter scanHistory) =
      (.ok query, s') ∧ ∃ J : Structure, J.Satisfies query.script := by
  have hok : (scanProgram.query scan scanObligation
      (scanProgram.sessionAfter scanHistory)).1.isOk = true := by cbv
  cases hrun : scanProgram.query scan scanObligation (scanProgram.sessionAfter scanHistory) with
  | mk result s' =>
    cases result with
    | error e =>
      rw [hrun] at hok
      cases hok
    | ok query =>
      have hplain : scanProgram.PlainNames := by
        unfold Program.PlainNames PlainName
        decide
      have hscan : scan ∈ scanProgram.functions := List.mem_cons_of_mem _ List.mem_cons_self
      have hhistory : ∀ h ∈ scanHistory, h.1 ∈ scanProgram.functions := by
        intro h hh
        simp only [scanHistory, List.mem_cons, List.not_mem_nil, or_false] at hh
        rcases hh with rfl | rfl <;> exact hscan
      have hquot : ∀ a : Int, scanReading.zeroQuot a = if 0 ≤ a then 0 else -0 := by
        intro a
        simp [scanReading]
      obtain ⟨hypotheses, goal, hscript, ⟨J, -, -, -, hsat, hgoal⟩, -⟩ :=
        query_sound hplain hhistory hscan hrun scanReading (fun _ => Int.le_refl 0) (fun _ => 0)
          hquot scanReading_meetsContracts scanValues (by decide)
      refine ⟨query, s', rfl, J, ?_⟩
      rw [hscript, Structure.satisfies_goal]
      refine ⟨hsat, ?_⟩
      rw [Term.Holds, hgoal]
      exact not_scanObligation

end Contracts

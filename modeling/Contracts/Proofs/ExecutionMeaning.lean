import Contracts.Execution.Run
import Contracts.Proofs.Meaning

/-!
# What an execution says about the meaning

An execution works on 64-bit numbers, stops at overflow and at a zero divisor, and looks at the
second part of a connective only if it has to. Where it does give a value or a truth, that is the
value or the truth over all integers, for every interpretation that agrees with the runs of the
functions and the evaluations of the formulas (`Interpretation.Agrees`).

Arrays are the finite maps of the execution: a cell that was never written, or whose index is no
64-bit number, is zero.
-/

set_option autoImplicit false

namespace Contracts

/-! ## Computations with fuel -/

namespace EvalM

variable {α β : Type} {fuel : Nat}

/-- A sequence gives a result when both of its parts do. -/
theorem bind_eq_ok {x : EvalM α} {f : α → EvalM β} {r : β × Nat} :
    (x >>= f) fuel = .ok r ↔ ∃ a fuel', x fuel = .ok (a, fuel') ∧ f a fuel' = .ok r := by
  simp only [bind, StateT.bind, Except.bind]
  cases x fuel with
  | error e => simp only [reduceCtorEq, false_and, exists_false]
  | ok a =>
    obtain ⟨a, fuel'⟩ := a
    simp only [Except.ok.injEq, Prod.mk.injEq]
    constructor
    · intro h
      exact ⟨a, fuel', ⟨rfl, rfl⟩, h⟩
    · rintro ⟨a', fuel'', ⟨rfl, rfl⟩, h⟩
      exact h

theorem map_eq_ok {x : EvalM α} {f : α → β} {r : β × Nat} :
    (f <$> x) fuel = .ok r ↔ ∃ a, x fuel = .ok (a, r.2) ∧ f a = r.1 := by
  simp only [Functor.map, StateT.map, bind, Except.bind, pure, Except.pure]
  cases x fuel with
  | error e => simp only [reduceCtorEq, false_and, exists_false]
  | ok a =>
    obtain ⟨a, fuel'⟩ := a
    obtain ⟨b, fuel''⟩ := r
    simp only [Except.ok.injEq, Prod.mk.injEq]
    constructor
    · rintro ⟨rfl, rfl⟩
      exact ⟨a, ⟨rfl, rfl⟩, rfl⟩
    · rintro ⟨a', ⟨rfl, rfl⟩, rfl⟩
      exact ⟨rfl, rfl⟩

/-- A choice gives a result when its test and the chosen part do. -/
theorem cond_eq_ok {x : EvalM Bool} {y z : EvalM α} {r : α × Nat} :
    (do if ← x then y else z) fuel = .ok r ↔
      ∃ fuel', (x fuel = .ok (true, fuel') ∧ y fuel' = .ok r) ∨
        (x fuel = .ok (false, fuel') ∧ z fuel' = .ok r) := by
  rw [bind_eq_ok, exists_comm]
  refine exists_congr fun fuel' => ?_
  rw [Bool.exists_bool, Or.comm]
  simp only [Bool.false_eq_true, if_false, if_true]

@[simp] theorem pure_eq_ok {a : α} {r : α × Nat} :
    (pure a : EvalM α) fuel = .ok r ↔ (a, fuel) = r := by
  rw [show (pure a : EvalM α) fuel = .ok (a, fuel) from rfl, Except.ok.injEq]

@[simp] theorem throw_ne_ok {e : RunError} {r : α × Nat} :
    ¬(throw e : EvalM α) fuel = .ok r := by
  intro h
  cases h

end EvalM

/-! ## States as valuations -/

/-- The cell of an array at any integer. -/
def Cells.valueAt (c : Cells) (i : Int) : Int :=
  match word? i with
  | some w => (c.read w).toInt
  | none => 0

theorem Cells.valueAt_toInt (c : Cells) (i : Int64) : c.valueAt i.toInt = (c.read i).toInt := by
  unfold Cells.valueAt
  rw [word?_toInt]

/-- What a run-time value is. -/
def Value.datum : Value → Datum Cells
  | .int v => .int v.toInt
  | .array c => .array c

/-- The kind of a run-time value. -/
def Value.type : Value → VarType
  | .int _ => .int
  | .array _ => .array

@[simp] theorem Value.type_datum (v : Value) : v.datum.type = v.type := by
  cases v <;> rfl

namespace State

/-- What the names stand for in a state; `rest` is for those without a value. -/
def valuation (s : State) (rest : Valuation Cells) : Valuation Cells := fun x =>
  match s[x]? with
  | some v => v.datum
  | none => rest x

variable {s : State} {rest : Valuation Cells} {x : String}

theorem valuation_of_some {v : Value} (h : s[x]? = some v) : s.valuation rest x = v.datum := by
  unfold valuation
  rw [h]

theorem valuation_of_none (h : s[x]? = none) : s.valuation rest x = rest x := by
  unfold valuation
  rw [h]

theorem valuation_congr {t : State} (h : t[x]? = s[x]?) :
    t.valuation rest x = s.valuation rest x := by
  unfold valuation
  rw [h]

theorem getElem?_insert (s : State) (x y : String) (v : Value) :
    (Std.ExtTreeMap.insert s x v)[y]? = if x = y then some v else s[y]? := by
  rw [Std.ExtTreeMap.getElem?_insert]
  simp only [Std.LawfulEqCmp.compare_eq_iff_eq]

/-- Each name that has a value has one of its kind. -/
def HasKinds (s : State) (K : Kinds) : Prop := ∀ x v, s[x]? = some v → v.type = K x

theorem HasKinds.valuation {K : Kinds} (h : s.HasKinds K) (hrest : rest.HasKinds K) :
    (s.valuation rest).HasKinds K := by
  intro y
  cases hy : s[y]? with
  | none => rw [valuation_of_none hy, hrest y]
  | some v => rw [valuation_of_some hy, Value.type_datum, h y v hy]

end State

/-! ## Agreement with the interpreter -/

/-- An interpretation on the arrays of an execution that says of calls and formulas what the level
below says of them, where it says anything. -/
structure Interpretation.Agrees (M : Interpretation Cells) (p : Program) (b : Below) : Prop where
  cell : ∀ c i, M.cell c i = c.valueAt i
  length : ∀ c, M.length c = c.length.toInt
  fn : ∀ f values fuel v fuel',
    callFunction p b f values.length (pure values) fuel = .ok ([.int v], fuel') →
      M.fn f (values.map Value.datum) = v.toInt
  formula : ∀ f values fuel r fuel',
    holdsFormula p b f values.length (pure values) fuel = .ok (r, fuel') →
      (M.formula f (values.map Value.datum) ↔ r = true)

/-! ## The parts of an evaluation -/

section

variable {p : Program} {b : Below} {s : State} {fuel : Nat}

/-- What a finished call has done: it found the function with the right number of parameters,
evaluated the arguments and ran the body on their values. -/
theorem callFunction_eq_ok {f : String} {count : Nat} {operands : EvalM (List Value)}
    {r : List Value × Nat} :
    callFunction p b f count operands fuel = .ok r ↔
      ∃ g, p.function? f = some g ∧ g.params.length = count ∧ ∃ values fuel₁ final,
        operands fuel = .ok (values, fuel₁) ∧
          b.run g (bindParams g.params values) fuel₁ = .ok (final, r.2) ∧
          r.1 = g.returns.map fun ret => final[ret.name]?.getD (.int 0) := by
  unfold callFunction
  cases hg : p.function? f with
  | none => simp only [EvalM.throw_ne_ok, reduceCtorEq, false_and, exists_false]
  | some g =>
    dsimp only
    by_cases hn : g.params.length = count
    · rw [if_neg (not_not.mpr hn)]
      constructor
      · intro h
        obtain ⟨values, fuel₁, hv, h⟩ := EvalM.bind_eq_ok.mp h
        obtain ⟨final, fuel₂, hrun, h⟩ := EvalM.bind_eq_ok.mp h
        cases EvalM.pure_eq_ok.mp h
        exact ⟨g, rfl, hn, values, fuel₁, final, hv, hrun, rfl⟩
      · rintro ⟨g', hg', -, values, fuel₁, final, hv, hrun, hr⟩
        cases hg'
        refine EvalM.bind_eq_ok.mpr ⟨values, fuel₁, hv, EvalM.bind_eq_ok.mpr ⟨final, r.2, hrun, ?_⟩⟩
        exact EvalM.pure_eq_ok.mpr (Prod.ext hr.symm rfl)
    · rw [if_pos hn]
      constructor
      · intro h
        obtain ⟨_, fuel₁, h, -⟩ := EvalM.bind_eq_ok.mp h
        exact (EvalM.throw_ne_ok h).elim
      · rintro ⟨g', hg', hn', -⟩
        cases hg'
        exact absurd hn' hn

/-- The same for a formula reference. -/
theorem holdsFormula_eq_ok {f : String} {count : Nat} {operands : EvalM (List Value)}
    {r : Bool × Nat} :
    holdsFormula p b f count operands fuel = .ok r ↔
      ∃ d, p.formula? f = some d ∧ d.params.length = count ∧ ∃ holds, b.holds? = some holds ∧
        ∃ values fuel₁, operands fuel = .ok (values, fuel₁) ∧
          holds d.body (bindParams d.params values) fuel₁ = .ok r := by
  unfold holdsFormula
  cases hd : p.formula? f with
  | none => simp only [EvalM.throw_ne_ok, reduceCtorEq, false_and, exists_false]
  | some d =>
    dsimp only
    by_cases hn : d.params.length = count
    · rw [if_neg (not_not.mpr hn)]
      cases hb : b.holds? with
      | none =>
        constructor
        · intro h
          exact (EvalM.throw_ne_ok h).elim
        · rintro ⟨-, -, -, holds, hh, -⟩
          cases hh
      | some holds =>
        dsimp only
        rw [EvalM.bind_eq_ok]
        constructor
        · rintro ⟨values, fuel₁, hv, h⟩
          exact ⟨d, rfl, hn, holds, rfl, values, fuel₁, hv, h⟩
        · rintro ⟨d', hd', -, holds', hh, values, fuel₁, hv, h⟩
          cases hd'
          cases hh
          exact ⟨values, fuel₁, hv, h⟩
    · rw [if_pos hn]
      constructor
      · intro h
        obtain ⟨_, fuel₁, h, -⟩ := EvalM.bind_eq_ok.mp h
        exact (EvalM.throw_ne_ok h).elim
      · rintro ⟨d', hd', hn', -⟩
        cases hd'
        exact absurd hn' hn

theorem readVar_eq_ok {x : String} {r : Int64 × Nat} :
    readVar s x fuel = .ok r ↔ s[x]? = some (.int r.1) ∧ r.2 = fuel := by
  unfold readVar
  cases hx : s[x]? with
  | none => simp only [EvalM.throw_ne_ok, reduceCtorEq, false_and]
  | some v =>
    cases v with
    | array c =>
      simp only [EvalM.throw_ne_ok, Option.some.injEq, reduceCtorEq, false_and]
    | int n =>
      simp only [EvalM.pure_eq_ok, Option.some.injEq, Value.int.injEq, Prod.ext_iff]
      exact and_congr_right' eq_comm

theorem readCell_eq_ok {a : String} {i : Int64} {r : Int64 × Nat} :
    readCell s a i fuel = .ok r ↔ ∃ c, s[a]? = some (.array c) ∧ r = (c.read i, fuel) := by
  unfold readCell
  cases ha : s[a]? with
  | none => simp only [EvalM.throw_ne_ok, reduceCtorEq, false_and, exists_false]
  | some v =>
    cases v with
    | int n =>
      simp only [EvalM.throw_ne_ok, Option.some.injEq, reduceCtorEq, false_and, exists_false]
    | array c =>
      simp only [EvalM.pure_eq_ok, Option.some.injEq, Value.array.injEq, exists_eq_left']
      exact eq_comm

theorem arithmetic_eq_ok {op : ArithOp} {m n : Int64} {r : Int64 × Nat} :
    arithmetic op m n fuel = .ok r ↔ op.onWord? m n = some r.1 ∧ r.2 = fuel := by
  unfold arithmetic
  split
  · next hz =>
    simp only [EvalM.throw_ne_ok, ArithOp.onWord?, if_pos hz, reduceCtorEq, false_and]
  · cases hv : op.onWord? m n with
    | none => simp only [EvalM.throw_ne_ok, reduceCtorEq, false_and]
    | some v =>
      simp only [EvalM.pure_eq_ok, Option.some.injEq, Prod.ext_iff]
      exact and_congr_right' eq_comm

theorem Expr.array?_eq_some {e : Expr} {c : Cells} :
    e.array? s = some c ↔ ∃ x, e = .var x ∧ s[x]? = some (.array c) := by
  cases e with
  | var y =>
    simp only [Expr.array?, State.array?, Expr.var.injEq, exists_eq_left']
    cases s[y]? with
    | none => simp only [reduceCtorEq]
    | some v =>
      cases v with
      | int n => simp only [Option.some.injEq, reduceCtorEq]
      | array c' => simp only [Option.some.injEq, Value.array.injEq]
  | _ => simp only [Expr.array?, reduceCtorEq, false_and, exists_false]

/-- The length that a call asks for is that of the array that its argument names. -/
theorem askedLength?_eq_some {f : String} {args : List Expr} {n : Int64}
    (h : askedLength? s f args = some n) :
    f = "length" ∧ ∃ a c, args = [.var a] ∧ s[a]? = some (.array c) ∧ n = c.length := by
  unfold askedLength? at h
  split at h
  · obtain ⟨c, hc, rfl⟩ := Option.map_eq_some_iff.mp h
    obtain ⟨a, rfl, ha⟩ := Expr.array?_eq_some.mp hc
    exact ⟨rfl, a, c, rfl, ha, rfl⟩
  · cases h

theorem Expr.eval_neg_eq_ok {e : Expr} {r : Int64 × Nat} :
    (Expr.neg e).eval p b s fuel = .ok r ↔
      ∃ v, e.eval p b s fuel = .ok (v, r.2) ∧ negWord? v = some r.1 := by
  rw [Expr.eval, EvalM.bind_eq_ok]
  refine exists_congr fun v => ?_
  cases hv : negWord? v with
  | none => simp only [EvalM.throw_ne_ok, and_false, exists_false, reduceCtorEq]
  | some w =>
    simp only [EvalM.pure_eq_ok, Option.some.injEq]
    constructor
    · rintro ⟨fuel', he, rfl⟩
      exact ⟨he, rfl⟩
    · rintro ⟨he, rfl⟩
      exact ⟨r.2, he, rfl⟩

-- The least word has no negation.
example : (Expr.neg (.const (-9223372036854775808))).eval p b s fuel = .error .overflow := by
  cbv

theorem Expr.eval_binary_eq_ok {op : ArithOp} {x y : Expr} {r : Int64 × Nat} :
    (Expr.binary op x y).eval p b s fuel = .ok r ↔
      ∃ m fuel₁ n, x.eval p b s fuel = .ok (m, fuel₁) ∧ y.eval p b s fuel₁ = .ok (n, r.2) ∧
        op.onWord? m n = some r.1 := by
  simp only [Expr.eval, EvalM.bind_eq_ok, arithmetic_eq_ok]
  constructor
  · rintro ⟨m, fuel₁, hm, n, fuel₂, hn, hv, hf⟩
    exact ⟨m, fuel₁, n, hm, hf ▸ hn, hv⟩
  · rintro ⟨m, fuel₁, n, hm, hn, hv⟩
    exact ⟨m, fuel₁, hm, n, r.2, hn, hv, rfl⟩

theorem Expr.eval_read_eq_ok {a : String} {i : Expr} {r : Int64 × Nat} :
    (Expr.read a i).eval p b s fuel = .ok r ↔
      ∃ v c, i.eval p b s fuel = .ok (v, r.2) ∧ s[a]? = some (.array c) ∧ r.1 = c.read v := by
  simp only [Expr.eval, EvalM.bind_eq_ok, readCell_eq_ok]
  constructor
  · rintro ⟨v, fuel', hv, c, hc, rfl⟩
    exact ⟨v, c, hv, hc, rfl⟩
  · rintro ⟨v, c, hv, hc, hr⟩
    exact ⟨v, r.2, hv, c, hc, Prod.ext hr rfl⟩

theorem Expr.eval_call_eq_ok {f : String} {args : List Expr} {r : Int64 × Nat} :
    (Expr.call f args).eval p b s fuel = .ok r ↔
      (askedLength? s f args = some r.1 ∧ r.2 = fuel) ∨
      (askedLength? s f args = none ∧
        callFunction p b f args.length (Expr.operands p b s args) fuel =
          .ok ([.int r.1], r.2)) := by
  rw [Expr.eval]
  cases askedLength? s f args with
  | some n =>
    simp only [EvalM.pure_eq_ok, Prod.ext_iff, Option.some.injEq, reduceCtorEq, false_and, or_false]
    exact and_congr_right' eq_comm
  | none =>
    simp only [EvalM.bind_eq_ok, reduceCtorEq, false_and, true_and, false_or]
    constructor
    · rintro ⟨values, fuel', hv, h⟩
      split at h
      · next v =>
        cases EvalM.pure_eq_ok.mp h
        exact hv
      · exact (EvalM.throw_ne_ok h).elim
    · intro h
      exact ⟨_, _, h, rfl⟩

theorem Expr.eval_cond_eq_ok {t : Pred} {x y : Expr} {r : Int64 × Nat} :
    (Expr.cond t x y).eval p b s fuel = .ok r ↔
      ∃ fuel₁, (t.eval p b s fuel = .ok (true, fuel₁) ∧ x.eval p b s fuel₁ = .ok r) ∨
        (t.eval p b s fuel = .ok (false, fuel₁) ∧ y.eval p b s fuel₁ = .ok r) := by
  rw [Expr.eval]
  exact EvalM.cond_eq_ok

/-- One argument: the array that a name holds, else the value of the expression. -/
def Expr.operand (p : Program) (b : Below) (s : State) (e : Expr) : EvalM Value :=
  match e.array? s with
  | some c => pure (.array c)
  | none => Value.int <$> e.eval p b s

theorem Expr.operand_eq_ok {e : Expr} {r : Value × Nat} :
    e.operand p b s fuel = .ok r ↔
      (∃ c, e.array? s = some c ∧ r = (.array c, fuel)) ∨
      (e.array? s = none ∧ ∃ v, e.eval p b s fuel = .ok (v, r.2) ∧ r.1 = .int v) := by
  unfold Expr.operand
  cases e.array? s with
  | some c =>
    simp only [EvalM.pure_eq_ok, reduceCtorEq, false_and, or_false, Option.some.injEq,
      exists_eq_left']
    exact eq_comm
  | none =>
    simp only [EvalM.map_eq_ok, reduceCtorEq, false_and, exists_false, false_or, true_and]
    exact exists_congr fun v => and_congr_right' eq_comm

theorem Expr.operands_nil_eq_ok {r : List Value × Nat} :
    Expr.operands p b s [] fuel = .ok r ↔ r = ([], fuel) := by
  rw [Expr.operands, EvalM.pure_eq_ok]
  exact eq_comm

theorem Expr.operands_cons_eq_ok {e : Expr} {es : List Expr} {r : List Value × Nat} :
    Expr.operands p b s (e :: es) fuel = .ok r ↔
      ∃ v fuel₁ vs, e.operand p b s fuel = .ok (v, fuel₁) ∧
        Expr.operands p b s es fuel₁ = .ok (vs, r.2) ∧ r.1 = v :: vs := by
  have hop : Expr.operands p b s (e :: es) = (do
      let v ← e.operand p b s
      return v :: (← Expr.operands p b s es)) := by
    rw [Expr.operands, Expr.operand]
    cases e.array? s <;> rfl
  rw [hop, EvalM.bind_eq_ok]
  refine exists_congr fun v => exists_congr fun fuel₁ => ?_
  rw [EvalM.bind_eq_ok]
  constructor
  · rintro ⟨hv, vs, fuel₂, hvs, hr⟩
    cases EvalM.pure_eq_ok.mp hr
    exact ⟨vs, hv, hvs, rfl⟩
  · rintro ⟨vs, hv, hvs, hr⟩
    exact ⟨hv, vs, r.2, hvs, EvalM.pure_eq_ok.mpr (Prod.ext hr.symm rfl)⟩

theorem Expr.length_of_operands : ∀ {es : List Expr} {fuel : Nat} {r : List Value × Nat},
    Expr.operands p b s es fuel = .ok r → r.1.length = es.length
  | [], _, _, h => by
    rw [Expr.operands_nil_eq_ok.mp h]
    rfl
  | e :: es, _, _, h => by
    obtain ⟨v, fuel₁, vs, -, hvs, hr⟩ := Expr.operands_cons_eq_ok.mp h
    rw [hr, List.length_cons, List.length_cons, Expr.length_of_operands hvs]

/-- A call evaluates its arguments first, and then only their values matter. -/
theorem callFunction_operands {f : String} {es : List Expr} {r : List Value × Nat}
    (h : callFunction p b f es.length (Expr.operands p b s es) fuel = .ok r) :
    ∃ values fuel₁, Expr.operands p b s es fuel = .ok (values, fuel₁) ∧
      callFunction p b f values.length (pure values) fuel₁ = .ok r := by
  obtain ⟨g, hg, hn, values, fuel₁, final, hv, hrun, hr⟩ := callFunction_eq_ok.mp h
  refine ⟨values, fuel₁, hv, callFunction_eq_ok.mpr ?_⟩
  exact ⟨g, hg, by rw [hn, Expr.length_of_operands hv], values, fuel₁, final, rfl, hrun, hr⟩

theorem holdsFormula_operands {f : String} {es : List Expr} {r : Bool × Nat}
    (h : holdsFormula p b f es.length (Expr.operands p b s es) fuel = .ok r) :
    ∃ values fuel₁, Expr.operands p b s es fuel = .ok (values, fuel₁) ∧
      holdsFormula p b f values.length (pure values) fuel₁ = .ok r := by
  obtain ⟨d, hd, hn, holds, hb, values, fuel₁, hv, hbody⟩ := holdsFormula_eq_ok.mp h
  refine ⟨values, fuel₁, hv, holdsFormula_eq_ok.mpr ?_⟩
  exact ⟨d, hd, by rw [hn, Expr.length_of_operands hv], holds, hb, values, fuel₁, rfl, hbody⟩

theorem Pred.eval_compare_eq_ok {op : CmpOp} {x y : Expr} {r : Bool × Nat} :
    (Pred.compare op x y).eval p b s fuel = .ok r ↔
      ∃ m fuel₁ n, x.eval p b s fuel = .ok (m, fuel₁) ∧ y.eval p b s fuel₁ = .ok (n, r.2) ∧
        r.1 = op.holds m.toInt n.toInt := by
  simp only [Pred.eval, EvalM.bind_eq_ok, EvalM.pure_eq_ok]
  constructor
  · rintro ⟨m, fuel₁, hm, n, fuel₂, hn, rfl⟩
    exact ⟨m, fuel₁, n, hm, hn, rfl⟩
  · rintro ⟨m, fuel₁, n, hm, hn, hr⟩
    exact ⟨m, fuel₁, hm, n, r.2, hn, Prod.ext hr.symm rfl⟩

theorem Pred.eval_not_eq_ok {q : Pred} {r : Bool × Nat} :
    (Pred.not q).eval p b s fuel = .ok r ↔ q.eval p b s fuel = .ok (!r.1, r.2) := by
  simp only [Pred.eval, EvalM.bind_eq_ok, EvalM.pure_eq_ok]
  constructor
  · rintro ⟨t, fuel', h, rfl⟩
    rw [h, Bool.not_not]
  · intro h
    exact ⟨!r.1, r.2, h, by rw [Bool.not_not]⟩

end

/-! ## Evaluation is sound -/

section

variable {M : Interpretation Cells} {p : Program} {b : Below} {s : State}
  {rest : Valuation Cells}

/-- A call that does not ask for a length is a call of a function of the program. -/
theorem Interpretation.call_of_askedLength?_none (M : Interpretation Cells) {f : String}
    {es : List Expr} {values : List Value} {fuel fuel₁ : Nat} (hf : askedLength? s f es = none)
    (hvalues : Expr.operands p b s es fuel = .ok (values, fuel₁)) :
    M.call f (values.map Value.datum) = M.fn f (values.map Value.datum) := by
  unfold Interpretation.call
  split
  · next a hdata =>
    -- the only argument is an array, so the expression names one and its length was asked for
    obtain ⟨v, rfl, hv⟩ := List.map_eq_singleton_iff.mp hdata
    have hlen := Expr.length_of_operands hvalues
    obtain ⟨e, rfl⟩ := List.length_eq_one_iff.mp hlen.symm
    obtain ⟨v', fuel', vs, hop, -, hcons⟩ := Expr.operands_cons_eq_ok.mp hvalues
    cases hcons
    rcases Expr.operand_eq_ok.mp hop with ⟨c, hc, -⟩ | ⟨-, n, -, hn⟩
    · rw [askedLength?, hc] at hf
      cases hf
    · cases hn
      cases hv
  · rfl

mutual

/-- Where an expression evaluates to a number, that is its value. -/
theorem Expr.value_of_eval (hM : M.Agrees p b) : ∀ {e : Expr} {fuel : Nat} {r : Int64 × Nat},
    e.eval p b s fuel = .ok r → e.value M (s.valuation rest) = r.1.toInt
  | .const n, _, _, h => by
    rw [Expr.eval, EvalM.pure_eq_ok] at h
    cases h
    rfl
  | .var x, _, _, h => by
    rw [Expr.eval, readVar_eq_ok] at h
    rw [Expr.value, State.valuation_of_some h.1]
    rfl
  | .neg e, _, _, h => by
    obtain ⟨v, he, hv⟩ := Expr.eval_neg_eq_ok.mp h
    rw [Expr.value, Expr.value_of_eval hM he, toInt_of_word? hv]
  | .binary op x y, _, _, h => by
    obtain ⟨m, fuel₁, n, hm, hn, hv⟩ := Expr.eval_binary_eq_ok.mp h
    rw [Expr.value, Expr.value_of_eval hM hm, Expr.value_of_eval hM hn, M.arith_of_onWord? hv]
  | .read a i, _, _, h => by
    obtain ⟨v, c, hi, hc, hr⟩ := Expr.eval_read_eq_ok.mp h
    rw [Expr.value, Expr.value_of_eval hM hi, State.valuation_of_some hc, Value.datum,
      Interpretation.read, hM.cell, Cells.valueAt_toInt, hr]
  | .call f args, _, _, h => by
    rw [Expr.value]
    rcases Expr.eval_call_eq_ok.mp h with ⟨hn, -⟩ | ⟨hnone, hcall⟩
    · obtain ⟨rfl, a, c, rfl, ha, hc⟩ := askedLength?_eq_some hn
      rw [Expr.data, Expr.data, Expr.datum, State.valuation_of_some ha, Value.datum,
        Interpretation.call_length, hM.length, hc]
    · obtain ⟨values, fuel₁, hv, hcall⟩ := callFunction_operands hcall
      rw [Expr.data_of_operands hM hv, M.call_of_askedLength?_none hnone hv,
        hM.fn f values fuel₁ _ _ hcall]
  | .cond t x y, _, _, h => by
    rw [Expr.value]
    obtain ⟨fuel₁, ⟨ht, hx⟩ | ⟨ht, hy⟩⟩ := Expr.eval_cond_eq_ok.mp h
    · rw [select_of_true ((Pred.holds_of_eval hM ht).mpr rfl), Expr.value_of_eval hM hx]
    · rw [select_of_false (by simp only [Pred.holds_of_eval hM ht, Bool.false_eq_true,
        not_false_eq_true]), Expr.value_of_eval hM hy]

/-- Where arguments evaluate, they are what the meaning of the call takes. -/
theorem Expr.data_of_operands (hM : M.Agrees p b) :
    ∀ {es : List Expr} {fuel : Nat} {r : List Value × Nat},
    Expr.operands p b s es fuel = .ok r →
      Expr.data M es (s.valuation rest) = r.1.map Value.datum
  | [], _, _, h => by
    rw [Expr.operands_nil_eq_ok.mp h]
    rfl
  | e :: es, _, _, h => by
    obtain ⟨v, fuel₁, vs, hv, hvs, hr⟩ := Expr.operands_cons_eq_ok.mp h
    rw [Expr.data, hr, List.map_cons, Expr.data_of_operands hM hvs]
    congr 1
    rcases Expr.operand_eq_ok.mp hv with ⟨c, hc, heq⟩ | ⟨hnone, n, hn, heq⟩
    · cases heq
      obtain ⟨x, rfl, hx⟩ := Expr.array?_eq_some.mp hc
      exact State.valuation_of_some hx
    · cases heq
      have hval : e.value M (s.valuation rest) = n.toInt := Expr.value_of_eval hM hn
      cases e with
      | var x =>
        rw [Expr.eval, readVar_eq_ok] at hn
        exact State.valuation_of_some hn.1
      | _ => exact congrArg Datum.int hval

/-- Where a predicate evaluates, the result says whether it is true. -/
theorem Pred.holds_of_eval (hM : M.Agrees p b) : ∀ {q : Pred} {fuel : Nat} {r : Bool × Nat},
    q.eval p b s fuel = .ok r → (q.Holds M (s.valuation rest) ↔ r.1 = true)
  | .bool v, _, _, h => by
    rw [Pred.eval, EvalM.pure_eq_ok] at h
    cases h
    rfl
  | .compare op x y, _, _, h => by
    obtain ⟨m, fuel₁, n, hm, hn, hr⟩ := Pred.eval_compare_eq_ok.mp h
    rw [Pred.Holds, Expr.value_of_eval hM hm, Expr.value_of_eval hM hn, hr]
  | .not q, _, r, h => by
    rw [Pred.Holds, Pred.holds_of_eval hM (Pred.eval_not_eq_ok.mp h)]
    simp only [Bool.not_eq_true', Bool.not_eq_false]
  | .and q q', _, _, h => by
    rw [Pred.eval, EvalM.cond_eq_ok] at h
    rw [Pred.Holds]
    -- the second part may have been skipped, and with it what it could fail with
    obtain ⟨fuel₁, ⟨hq, hq'⟩ | ⟨hq, hr⟩⟩ := h
    · rw [Pred.holds_of_eval hM hq, Pred.holds_of_eval hM hq']
      simp only [true_and]
    · cases EvalM.pure_eq_ok.mp hr
      rw [Pred.holds_of_eval hM hq]
      simp only [Bool.false_eq_true, false_and]
  | .or q q', _, _, h => by
    rw [Pred.eval, EvalM.cond_eq_ok] at h
    rw [Pred.Holds]
    obtain ⟨fuel₁, ⟨hq, hr⟩ | ⟨hq, hq'⟩⟩ := h
    · cases EvalM.pure_eq_ok.mp hr
      rw [Pred.holds_of_eval hM hq]
      simp only [true_or]
    · rw [Pred.holds_of_eval hM hq, Pred.holds_of_eval hM hq']
      simp only [Bool.false_eq_true, false_or]
  | .implies q q', _, _, h => by
    rw [Pred.eval, EvalM.cond_eq_ok] at h
    rw [Pred.Holds]
    obtain ⟨fuel₁, ⟨hq, hq'⟩ | ⟨hq, hr⟩⟩ := h
    · rw [Pred.holds_of_eval hM hq, Pred.holds_of_eval hM hq']
      simp only [true_imp_iff]
    · cases EvalM.pure_eq_ok.mp hr
      rw [Pred.holds_of_eval hM hq]
      simp only [Bool.false_eq_true, false_imp_iff]
  | .paren q, _, _, h => by
    rw [Pred.eval] at h
    rw [Pred.Holds, Pred.holds_of_eval hM h]
  | .quantified .., _, _, h => by
    rw [Pred.eval] at h
    exact (EvalM.throw_ne_ok h).elim
  | .formula f args, _, _, h => by
    rw [Pred.eval] at h
    obtain ⟨values, fuel₁, hv, h⟩ := holdsFormula_operands h
    rw [Pred.Holds, Expr.data_of_operands hM hv, hM.formula f values fuel₁ _ _ h]

end

end

end Contracts

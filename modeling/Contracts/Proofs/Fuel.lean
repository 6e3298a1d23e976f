import Contracts.Proofs.ExecutionMeaning
import Mathlib

/-!
# Fuel decides only whether an execution finishes

An execution that does not run out of fuel does the same with more of it, and what is left is more
by the same amount; this holds of its errors as well as of its results. `EvalM.Frugal` says so of
one computation. It is closed under the ways to put computations together, and the one place that looks
at the fuel is the loop.

So a run and the evaluation of a predicate have one outcome, whatever the fuel, wherever they have one
(`fuel_only_decides_finishing`). In particular the result of a call does not depend on the fuel, and
there is an interpretation that agrees with all calls and formulas of a program
(`Program.reading_agrees`).
-/

set_option autoImplicit false

namespace Contracts

/-! ## Frugal computations -/

namespace EvalM

variable {α β : Type}

/-- The computation gains no fuel, and where it does not run out, more fuel changes only what is
left. -/
structure Frugal (x : EvalM α) : Prop where
  le : ∀ fuel r, x fuel = .ok r → r.2 ≤ fuel
  more : ∀ fuel k, x fuel ≠ .error .outOfFuel →
    x (fuel + k) = (x fuel).map fun r => (r.1, r.2 + k)

theorem Frugal.pure (a : α) : Frugal (Pure.pure a : EvalM α) := by
  refine ⟨fun fuel r h => ?_, fun fuel k _ => rfl⟩
  cases pure_eq_ok.mp h
  exact Nat.le_refl fuel

theorem Frugal.throw (e : RunError) : Frugal (MonadExcept.throw e : EvalM α) :=
  ⟨fun _ _ h => (throw_ne_ok h).elim, fun _ _ _ => rfl⟩

theorem bind_of_ok {x : EvalM α} {f : α → EvalM β} {fuel fuel₁ : Nat} {a : α}
    (h : x fuel = .ok (a, fuel₁)) : (x >>= f) fuel = f a fuel₁ := by
  simp only [Bind.bind, StateT.bind, Except.bind, h]

theorem bind_of_error {x : EvalM α} {f : α → EvalM β} {fuel : Nat} {e : RunError}
    (h : x fuel = .error e) : (x >>= f) fuel = .error e := by
  simp only [Bind.bind, StateT.bind, Except.bind, h]

theorem Frugal.bind {x : EvalM α} {f : α → EvalM β} (hx : Frugal x) (hf : ∀ a, Frugal (f a)) :
    Frugal (x >>= f) := by
  refine ⟨fun fuel r h => ?_, fun fuel k h => ?_⟩
  · obtain ⟨a, fuel₁, ha, hr⟩ := bind_eq_ok.mp h
    exact Nat.le_trans ((hf a).le fuel₁ r hr) (hx.le fuel _ ha)
  · cases hres : x fuel with
    | error e =>
      rw [bind_of_error hres] at h
      have he : x fuel ≠ .error .outOfFuel := by
        intro hout
        cases hres.symm.trans hout
        exact h rfl
      have hmore := hx.more fuel k he
      rw [hres] at hmore
      rw [bind_of_error hres, bind_of_error hmore]
      rfl
    | ok r =>
      obtain ⟨a, fuel₁⟩ := r
      have hmore := hx.more fuel k (by rw [hres]; exact fun h' => nomatch h')
      rw [hres] at hmore
      rw [bind_of_ok hres] at h ⊢
      rw [bind_of_ok hmore]
      exact (hf a).more fuel₁ k h

theorem Frugal.map {x : EvalM α} (hx : Frugal x) (f : α → β) : Frugal (f <$> x) := by
  rw [map_eq_pure_bind]
  exact hx.bind fun a => .pure _

theorem Frugal.mapM {f : α → EvalM β} (hf : ∀ a, Frugal (f a)) (as : List α) :
    Frugal (as.mapM f) := by
  induction as with
  | nil => exact .pure []
  | cons a as ih =>
    rw [List.mapM_cons]
    exact (hf a).bind fun b => ih.bind fun bs => .pure _

/-- Without what is left over, more fuel changes nothing. -/
theorem Frugal.outcome {x : EvalM α} (hx : Frugal x) {n m : Nat} (hnm : n ≤ m)
    (h : (x n).map Prod.fst ≠ .error .outOfFuel) : (x m).map Prod.fst = (x n).map Prod.fst := by
  obtain ⟨k, rfl⟩ := Nat.exists_eq_add_of_le hnm
  have hn : x n ≠ .error .outOfFuel := fun hout => h (by rw [hout]; rfl)
  rw [hx.more n k hn]
  cases x n <;> rfl

/-- With any two amounts of fuel, two results are the same. -/
theorem Frugal.unique {x : EvalM α} (hx : Frugal x) {fuel fuel' : Nat} {r r' : α × Nat}
    (h : x fuel = .ok r) (h' : x fuel' = .ok r') : r.1 = r'.1 := by
  have hmore := hx.more fuel fuel' (by rw [h]; exact fun h => nomatch h)
  have hmore' := hx.more fuel' fuel (by rw [h']; exact fun h => nomatch h)
  rw [Nat.add_comm, hmore, h, h'] at hmore'
  have hpair : (r.1, r.2 + fuel') = (r'.1, r'.2 + fuel) := Except.ok.inj hmore'
  exact (Prod.mk.inj hpair).1

end EvalM

/-! ## Evaluation -/

/-- What a level can ask of the level below it is frugal. -/
structure Below.Frugal (b : Below) : Prop where
  run : ∀ f args, (b.run f args).Frugal
  holds : ∀ holds, b.holds? = some holds → ∀ q s, (holds q s).Frugal

section

variable {p : Program} {b : Below}

theorem frugal_callFunction (hb : b.Frugal) (f : String) (count : Nat)
    {operands : EvalM (List Value)} (ho : operands.Frugal) :
    (callFunction p b f count operands).Frugal := by
  unfold callFunction
  split
  · exact .throw _
  · split
    · exact (EvalM.Frugal.throw _).bind fun _ => ho.bind fun _ => (hb.run _ _).bind fun _ => .pure _
    · exact ho.bind fun _ => (hb.run _ _).bind fun _ => .pure _

theorem frugal_holdsFormula (hb : b.Frugal) (f : String) (count : Nat)
    {operands : EvalM (List Value)} (ho : operands.Frugal) :
    (holdsFormula p b f count operands).Frugal := by
  unfold holdsFormula
  cases p.formula? f with
  | none => exact .throw _
  | some d =>
    dsimp only
    cases hh : b.holds? with
    | none =>
      split
      · exact (EvalM.Frugal.throw _).bind fun _ => .throw _
      · exact .throw _
    | some holds =>
      split
      · exact (EvalM.Frugal.throw _).bind fun _ => ho.bind fun values => hb.holds holds hh _ _
      · exact ho.bind fun values => hb.holds holds hh _ _

theorem frugal_readVar (s : State) (x : String) : (readVar s x).Frugal := by
  unfold readVar
  split
  · exact .pure _
  · exact .throw _
  · exact .throw _

theorem frugal_readCell (s : State) (a : String) (i : Int64) : (readCell s a i).Frugal := by
  unfold readCell
  split
  · exact .pure _
  · exact .throw _
  · exact .throw _

theorem frugal_arithmetic (op : ArithOp) (m n : Int64) : (arithmetic op m n).Frugal := by
  unfold arithmetic
  split
  · exact .throw _
  · split
    · exact .pure _
    · exact .throw _

mutual

theorem Expr.frugal_eval (hb : b.Frugal) (s : State) : ∀ e : Expr, (e.eval p b s).Frugal
  | .const n => by
    rw [Expr.eval]
    exact .pure n
  | .var x => by
    rw [Expr.eval]
    exact frugal_readVar s x
  | .neg e => by
    rw [Expr.eval]
    refine (Expr.frugal_eval hb s e).bind fun v => ?_
    split
    · exact .pure _
    · exact .throw _
  | .binary op x y => by
    rw [Expr.eval]
    exact (Expr.frugal_eval hb s x).bind fun m => (Expr.frugal_eval hb s y).bind fun n =>
      frugal_arithmetic op m n
  | .read a i => by
    rw [Expr.eval]
    exact (Expr.frugal_eval hb s i).bind fun v => frugal_readCell s a v
  | .call f args => by
    rw [Expr.eval]
    split
    · exact .pure _
    · refine (frugal_callFunction hb f _ (Expr.frugal_operands hb s args)).bind fun values => ?_
      split
      · exact .pure _
      · exact .throw _
  | .cond t x y => by
    rw [Expr.eval]
    refine (Pred.frugal_eval hb s t).bind fun v => ?_
    split
    · exact Expr.frugal_eval hb s x
    · exact Expr.frugal_eval hb s y

theorem Expr.frugal_operands (hb : b.Frugal) (s : State) :
    ∀ es : List Expr, (Expr.operands p b s es).Frugal
  | [] => by
    rw [Expr.operands]
    exact .pure []
  | e :: es => by
    have hes := Expr.frugal_operands hb s es
    have he := Expr.frugal_eval hb s e
    rw [Expr.operands]
    split
    · exact (EvalM.Frugal.pure _).bind fun v => hes.bind fun vs => .pure _
    · exact (he.map _).bind fun v => hes.bind fun vs => .pure _

theorem Pred.frugal_eval (hb : b.Frugal) (s : State) : ∀ q : Pred, (q.eval p b s).Frugal
  | .bool v => by
    rw [Pred.eval]
    exact .pure v
  | .compare op x y => by
    rw [Pred.eval]
    exact (Expr.frugal_eval hb s x).bind fun m => (Expr.frugal_eval hb s y).bind fun n => .pure _
  | .not q => by
    rw [Pred.eval]
    exact (Pred.frugal_eval hb s q).bind fun v => .pure _
  | .and q q' => by
    rw [Pred.eval]
    refine (Pred.frugal_eval hb s q).bind fun v => ?_
    split
    · exact Pred.frugal_eval hb s q'
    · exact .pure _
  | .or q q' => by
    rw [Pred.eval]
    refine (Pred.frugal_eval hb s q).bind fun v => ?_
    split
    · exact .pure _
    · exact Pred.frugal_eval hb s q'
  | .implies q q' => by
    rw [Pred.eval]
    refine (Pred.frugal_eval hb s q).bind fun v => ?_
    split
    · exact Pred.frugal_eval hb s q'
    · exact .pure _
  | .paren q => by
    rw [Pred.eval]
    exact Pred.frugal_eval hb s q
  | .quantified .. => by
    rw [Pred.eval]
    exact .throw _
  | .formula f args => by
    rw [Pred.eval]
    exact frugal_holdsFormula hb f _ (Expr.frugal_operands hb s args)

end

end

/-! ## Statements -/

section

variable {p : Program} {b : Below}

theorem Target.frugal_place (hb : b.Frugal) (s : State) (t : Target) : (t.place p b s).Frugal := by
  cases t with
  | var x => exact .pure _
  | cell a i =>
    rw [Target.place]
    exact (Expr.frugal_eval hb s i).bind fun v => .pure _

theorem Place.frugal_write (s : State) (v : Value) (place : Place) : (place.write s v).Frugal := by
  cases place with
  | var x => exact .pure _
  | cell a i =>
    unfold Place.write
    dsimp only
    split
    · exact .pure _
    · exact .throw _
    · exact .throw _

theorem frugal_writeAll (s : State) (pairs : List (Place × Value)) :
    (writeAll s pairs).Frugal := by
  induction pairs generalizing s with
  | nil =>
    rw [writeAll]
    exact .pure s
  | cons c pairs ih =>
    rw [writeAll]
    exact (Place.frugal_write s c.2 c.1).bind fun t => ih t

theorem frugal_assignedValues (hb : b.Frugal) (s : State) (count : Nat) (es : List Expr) :
    (assignedValues p b s count es).Frugal := by
  unfold assignedValues
  split
  · split
    · exact frugal_callFunction hb _ _ (Expr.frugal_operands hb s _)
    · exact Expr.frugal_operands hb s es
  · exact Expr.frugal_operands hb s es

theorem frugal_execAssign (hb : b.Frugal) (targets : List Target) (es : List Expr) (s : State) :
    (execAssign p b targets es s).Frugal := by
  have hwrite : ∀ values : List Value, (do
      let places ← targets.mapM (Target.place p b s)
      writeAll s (places.zip values) : EvalM State).Frugal := by
    intro values
    exact (EvalM.Frugal.mapM (fun t => t.frugal_place hb s) targets).bind fun places =>
      frugal_writeAll s _
  unfold execAssign
  refine (frugal_assignedValues hb s _ es).bind fun values => ?_
  split
  · exact .pure _
  · split
    · exact (EvalM.Frugal.throw _).bind fun _ => hwrite values
    · exact hwrite values

/-- A loop with a larger bound than its fuel does not depend on the bound. -/
theorem iterate_more {test : State → EvalM Bool} {body : State → EvalM State}
    (htest : ∀ s, (test s).Frugal) (hbody : ∀ s, (body s).Frugal) (k : Nat) :
    ∀ {n m : Nat} {s : State} {fuel : Nat}, fuel < n → fuel + k < m →
      iterate test body n s fuel ≠ .error .outOfFuel →
      iterate test body m s (fuel + k) =
        (iterate test body n s fuel).map fun r => (r.1, r.2 + k)
  | n + 1, m + 1, s, fuel, hn, hm, h => by
    rw [iterate] at h ⊢
    rw [iterate]
    cases ht : test s fuel with
    | error e =>
      rw [ht] at h
      have hmore := (htest s).more fuel k (by rw [ht]; exact fun he => h (by cases he; rfl))
      rw [hmore, ht]
      rfl
    | ok r =>
      obtain ⟨t, fuel₁⟩ := r
      have hle : fuel₁ ≤ fuel := (htest s).le fuel _ ht
      have hmore := (htest s).more fuel k (by rw [ht]; exact fun he => nomatch he)
      rw [ht] at h hmore
      simp only [Except.map] at hmore
      rw [hmore]
      cases t with
      | false => rfl
      | true =>
        -- a round costs fuel, so that the bound stays above what is left
        cases fuel₁ with
        | zero => exact absurd rfl h
        | succ fuel₁ =>
          rw [Nat.add_right_comm fuel₁ 1 k]
          dsimp only at h ⊢
          cases hb : body s fuel₁ with
          | error e =>
            rw [hb] at h
            have hmore' := (hbody s).more fuel₁ k (by rw [hb]; exact fun he => h (by cases he; rfl))
            rw [hmore', hb]
            rfl
          | ok r =>
            obtain ⟨s', fuel₂⟩ := r
            have hle' : fuel₂ ≤ fuel₁ := (hbody s).le fuel₁ _ hb
            have hmore' := (hbody s).more fuel₁ k (by rw [hb]; exact fun he => nomatch he)
            rw [hb] at h hmore'
            rw [hmore']
            exact iterate_more htest hbody k (by omega) (by omega) h

/-- A loop gains no fuel. -/
theorem iterate_le {test : State → EvalM Bool} {body : State → EvalM State}
    (htest : ∀ s, (test s).Frugal) (hbody : ∀ s, (body s).Frugal) :
    ∀ {n : Nat} {s : State} {fuel : Nat} {r : State × Nat},
      iterate test body n s fuel = .ok r → r.2 ≤ fuel
  | 0, _, _, _, h => by
    rw [iterate] at h
    cases h
  | n + 1, s, fuel, r, h => by
    rw [iterate] at h
    split at h
    · cases h
    · next fuel₁ ht =>
      cases h
      exact (htest s).le fuel _ ht
    · cases h
    · next fuel₁ ht =>
      have hle : fuel₁ + 1 ≤ fuel := (htest s).le fuel _ ht
      split at h
      · cases h
      · next s' fuel₂ hb =>
        have hle₂ : fuel₂ ≤ fuel₁ := (hbody s).le fuel₁ _ hb
        have hrest : r.2 ≤ fuel₂ := iterate_le htest hbody h
        omega

mutual

theorem Stmt.frugal_exec (hb : b.Frugal) : ∀ (c : Stmt) (s : State), (c.exec p b s).Frugal
  | .assign targets es, s => by
    rw [Stmt.exec]
    exact frugal_execAssign hb targets es s
  | .block stmts, s => by
    rw [Stmt.exec]
    exact Stmt.frugal_execBlock hb stmts s
  | .branch c yes none, s => by
    rw [Stmt.exec]
    refine (Pred.frugal_eval hb s c).bind fun t => ?_
    split
    · exact Stmt.frugal_exec hb yes s
    · exact .pure s
  | .branch c yes (some no), s => by
    rw [Stmt.exec]
    refine (Pred.frugal_eval hb s c).bind fun t => ?_
    split
    · exact Stmt.frugal_exec hb yes s
    · exact Stmt.frugal_exec hb no s
  | .loop c body inv, s => by
    have htest : ∀ s, (c.eval p b s).Frugal := fun s => Pred.frugal_eval hb s c
    have hbody : ∀ s, (body.exec p b s).Frugal := fun s => Stmt.frugal_exec hb body s
    rw [Stmt.exec]
    refine ⟨fun fuel r h => iterate_le htest hbody h, fun fuel k h => ?_⟩
    exact iterate_more htest hbody k (Nat.lt_succ_self fuel) (Nat.lt_succ_self _) h

theorem Stmt.frugal_execBlock (hb : b.Frugal) :
    ∀ (cs : List Stmt) (s : State), (Stmt.execBlock p b cs s).Frugal
  | [], s => by
    rw [Stmt.execBlock]
    exact .pure s
  | c :: cs, s => by
    rw [Stmt.execBlock]
    exact (Stmt.frugal_exec hb c s).bind fun t => Stmt.frugal_execBlock hb cs t

end

end

/-- All levels are frugal. -/
theorem frugal_below (p : Program) (n : Nat) : (below p n).Frugal := by
  induction n with
  | zero => exact ⟨fun f args => .throw _, fun holds hh => nomatch hh⟩
  | succ n ih =>
    refine ⟨fun f args => Stmt.frugal_exec ih f.body _, fun holds hh q s => ?_⟩
    cases hh
    exact Pred.frugal_eval ih s q

/-! ## Runs -/

/-- **Fuel only decides whether a run finishes.** A run of a function that ends with some fuel, be it
in a state or in an error other than being out of fuel, ends in the same way with more fuel. The same
holds for the evaluation of a predicate. -/
theorem fuel_only_decides_finishing (p : Program) {n m : Nat} (hnm : n ≤ m) :
    (∀ (f : FunctionDef) (args : State), p.run f args n ≠ .error .outOfFuel →
      p.run f args m = p.run f args n) ∧
    ∀ (q : Pred) (s : State), p.holds q s n ≠ .error .outOfFuel →
      p.holds q s m = p.holds q s n := by
  have hlevels := frugal_below p depthLimit
  constructor
  · intro f args h
    exact (Stmt.frugal_exec hlevels f.body (State.start f args)).outcome hnm h
  · intro q s h
    exact (Pred.frugal_eval hlevels s q).outcome hnm h

/-- Counts up to its argument. -/
def countTo : FunctionDef where
  name := "countTo"
  params := [.scalar "d"]
  returns := [.scalar "k"]
  locals := []
  body := .loop (.compare .lt (.var "k") (.var "d"))
    (.assign [.var "k"] [.binary .add (.var "k") (.const 1)]) none
  pre := none
  post := none

/-- Counts to `d` in each of `n` iterations, and divides the sum of the counts by `d`. -/
def averageCount : FunctionDef where
  name := "averageCount"
  params := [.scalar "n", .scalar "d"]
  returns := [.scalar "r"]
  locals := []
  body := .block
    [.loop (.compare .gt (.var "n") (.const 0))
      (.assign [.var "n", .var "r"]
        [.binary .sub (.var "n") (.const 1), .binary .add (.var "r") (.call "countTo" [.var "d"])])
      none,
     .assign [.var "r"] [.binary .div (.var "r") (.var "d")]]
  pre := none
  post := none

/-- A program whose loops draw on one amount of fuel from two levels. -/
def averageProgram : Program := ⟨[countTo, averageCount], []⟩

/-- Two iterations with two counts in each need six units of fuel, and with any amount above that
nothing changes. With a zero divisor there is nothing to count, and the run ends in the same error
from two units on. -/
theorem fuel_only_decides_finishing_average :
    averageProgram.run averageCount (State.ofPairs [("n", .int 2), ("d", .int 2)]) 5 =
      .error .outOfFuel ∧
    averageProgram.run averageCount (State.ofPairs [("n", .int 2), ("d", .int 2)]) defaultFuel =
      .ok (State.ofPairs [("n", .int 0), ("d", .int 2), ("r", .int 2)]) ∧
    averageProgram.run averageCount (State.ofPairs [("n", .int 2)]) defaultFuel =
      .error .divisionByZero ∧
    averageProgram.holds (.compare .gt (.call "averageCount" [.const 2, .var "x"]) (.const 1))
      (State.ofPairs [("x", .int 2)]) defaultFuel = .ok true := by
  have hout : averageProgram.run averageCount (State.ofPairs [("n", .int 2), ("d", .int 2)]) 5 =
      .error .outOfFuel := by cbv
  have hend : averageProgram.run averageCount (State.ofPairs [("n", .int 2), ("d", .int 2)]) 6 =
      .ok (State.ofPairs [("n", .int 0), ("d", .int 2), ("r", .int 2)]) := by cbv
  have hzero : averageProgram.run averageCount (State.ofPairs [("n", .int 2)]) 2 =
      .error .divisionByZero := by cbv
  have htest : averageProgram.holds
      (.compare .gt (.call "averageCount" [.const 2, .var "x"]) (.const 1))
      (State.ofPairs [("x", .int 2)]) 6 = .ok true := by cbv
  obtain ⟨hrun, hholds⟩ := fuel_only_decides_finishing averageProgram (n := 6) (m := defaultFuel)
    (by decide)
  have hrun' := (fuel_only_decides_finishing averageProgram (n := 2) (m := defaultFuel)
    (by decide)).1
  refine ⟨hout, (hrun _ _ ?_).trans hend, (hrun' _ _ ?_).trans hzero, (hholds _ _ ?_).trans htest⟩
  · rw [hend]
    exact fun h => by cases h
  · rw [hzero]
    exact fun h => by cases h
  · rw [htest]
    exact fun h => by cases h

/-! ## An interpretation that agrees -/

theorem Value.datum_injective : Function.Injective Value.datum := by
  intro v w h
  cases v with
  | int m =>
    cases w with
    | int n =>
      rw [Value.datum, Value.datum, Datum.int.injEq] at h
      rw [Int64.toInt_inj.mp h]
    | array c => cases h
  | array c =>
    cases w with
    | int n => cases h
    | array c' =>
      rw [Value.datum, Value.datum, Datum.array.injEq] at h
      rw [h]

/-- With some amount of fuel the call of a function on these arguments returns the number. -/
def Program.CallGives (p : Program) (b : Below) (f : String) (data : List (Datum Cells))
    (v : Int64) : Prop :=
  ∃ values fuel fuel', values.map Value.datum = data ∧
    callFunction p b f values.length (pure values) fuel = .ok ([.int v], fuel')

/-- With some amount of fuel the formula evaluates to the truth value on these arguments. -/
def Program.FormulaGives (p : Program) (b : Below) (f : String) (data : List (Datum Cells))
    (t : Bool) : Prop :=
  ∃ values fuel fuel', values.map Value.datum = data ∧
    holdsFormula p b f values.length (pure values) fuel = .ok (t, fuel')

section

variable {p : Program} {b : Below} {f : String} {data : List (Datum Cells)}

theorem Program.CallGives.unique (hb : b.Frugal) {v w : Int64} (hv : p.CallGives b f data v)
    (hw : p.CallGives b f data w) : v = w := by
  obtain ⟨values, fuel, fuel₁, rfl, h⟩ := hv
  obtain ⟨values', fuel', fuel₂, hvalues, h'⟩ := hw
  rw [(List.map_inj_right fun _ _ h => Value.datum_injective h).mp hvalues] at h'
  have hcall := frugal_callFunction (p := p) hb f values.length (EvalM.Frugal.pure values)
  cases hcall.unique h h'
  rfl

theorem Program.FormulaGives.unique (hb : b.Frugal) {t u : Bool} (ht : p.FormulaGives b f data t)
    (hu : p.FormulaGives b f data u) : t = u := by
  obtain ⟨values, fuel, fuel₁, rfl, h⟩ := ht
  obtain ⟨values', fuel', fuel₂, hvalues, h'⟩ := hu
  rw [(List.map_inj_right fun _ _ h => Value.datum_injective h).mp hvalues] at h'
  have hholds := frugal_holdsFormula (p := p) hb f values.length (EvalM.Frugal.pure values)
  exact hholds.unique h h'

end

/-- The reading of a program in which calls and formulas are what their executions say. Where
these say nothing, a call is some number and a formula is false. -/
noncomputable def Program.reading (p : Program) (b : Below) : Interpretation Cells where
  cell := Cells.valueAt
  length c := c.length.toInt
  fn f data := Classical.epsilon fun n => ∃ v, p.CallGives b f data v ∧ n = v.toInt
  formula f data := p.FormulaGives b f data true
  zeroQuot _ := 0

/-- Every program has a reading that agrees with it, at every level. -/
theorem Program.reading_agrees (p : Program) (n : Nat) :
    (p.reading (below p n)).Agrees p (below p n) where
  cell c i := rfl
  length c := rfl
  fn f values fuel v fuel' h := by
    have hv : p.CallGives (below p n) f (values.map Value.datum) v :=
      ⟨values, fuel, fuel', rfl, h⟩
    have hex : ∃ m : Int, ∃ w, p.CallGives (below p n) f (values.map Value.datum) w ∧ m = w.toInt :=
      ⟨v.toInt, v, hv, rfl⟩
    obtain ⟨w, hw, heq⟩ := Classical.epsilon_spec hex
    rw [hv.unique (frugal_below p n) hw]
    exact heq
  formula f values fuel r fuel' h := by
    have hr : p.FormulaGives (below p n) f (values.map Value.datum) r :=
      ⟨values, fuel, fuel', rfl, h⟩
    constructor
    · intro htrue
      exact hr.unique (frugal_below p n) htrue
    · rintro rfl
      exact hr

end Contracts

import Contracts.Counterexample
import Contracts.Proofs.Numerals
import Contracts.Proofs.QueryHistory
import Contracts.Proofs.StraightLine
import Contracts.Proofs.Symbols

/-!
# Counterexamples that are replayed

A model in which an obligation is false gives arguments for a run. For a straight-line function over
numbers the run is a counterexample whenever it finishes and its postcondition can be evaluated:
the obligation is retraced from the final state (`Stmt.retraces`), so the postcondition yields what
the obligation yields for the arguments, which is false. What is shown are then the arguments of the
model and the numbers of the final state (`counterexample_replayed`).

For any other function a replay is a run from the arguments that are shown, at whose end the
postcondition does not evaluate to true (`replay_contradicts_post`). It need not be false there: a
postcondition that does not evaluate, because of a quantifier or an error, does not stop a replay.

The values of a model are text. Printed integers come back unchanged (`modelInt?_intText`).
-/

set_option autoImplicit false

namespace Contracts

/-! ## Names and their values -/

theorem lookup_map_name {β : Type} (g : String → β) (ds : List Param) (x : String) :
    (ds.map fun d => (d.name, g d.name)).lookup x =
      if x ∈ ds.map Param.name then some (g x) else none := by
  induction ds with
  | nil => rfl
  | cons d ds ih =>
    rw [List.map_cons, List.lookup_cons, ih, List.map_cons]
    by_cases hxd : x = d.name
    · rw [hxd, beq_self_eq_true, if_pos List.mem_cons_self]
    · rw [beq_eq_false_iff_ne.mpr hxd]
      simp only [List.mem_cons, hxd, false_or]

theorem State.getElem?_ofPairs (pairs : List (String × Value)) (x : String) :
    (State.ofPairs pairs)[x]? = pairs.reverse.lookup x := by
  have hpairs : (State.ofPairs pairs)[x]? = (pairs.reverse.lookup x).or (∅ : State)[x]? :=
    State.getElem?_insertAll ∅ pairs x
  rw [hpairs, show (∅ : State)[x]? = none from rfl, Option.or_none]

theorem State.getElem?_ofPairs_map (g : String → Value) (ds : List Param) (x : String) :
    (State.ofPairs (ds.map fun d => (d.name, g d.name)))[x]? =
      if x ∈ ds.map Param.name then some (g x) else none := by
  rw [State.getElem?_ofPairs, ← List.map_reverse, lookup_map_name]
  simp only [List.map_reverse, List.mem_reverse]

section

variable {f : FunctionDef} {v : String → Int64}

/-- The arguments with these numbers. -/
def FunctionDef.intArgs (f : FunctionDef) (v : String → Int64) : State :=
  State.ofPairs (f.params.map fun x => (x.name, .int (v x.name)))

theorem FunctionDef.getElem?_intArgs {x : Param} (hx : x ∈ f.params) :
    (f.intArgs v)[x.name]? = some (.int (v x.name)) := by
  have hmem : x.name ∈ f.params.map Param.name := List.mem_map_of_mem hx
  rw [FunctionDef.intArgs, State.getElem?_ofPairs_map fun x => .int (v x), if_pos hmem]

theorem FunctionDef.allInts_intArgs (f : FunctionDef) (v : String → Int64) :
    (f.intArgs v).AllInts := by
  refine State.HasKinds.ofPairs fun b hb => ?_
  obtain ⟨x, -, rfl⟩ := List.mem_map.mp hb
  rfl

variable (htypes : ∀ d ∈ f.decls, d.type = .int)

include htypes

/-- Every declared name starts with its argument, or with zero. -/
theorem State.getElem?_start (args : State) {d : Param} (hd : d ∈ f.decls) :
    (State.start f args)[d.name]? = some (args[d.name]?.getD (.int 0)) := by
  have hpairs : (f.decls.map fun d => (d.name, args[d.name]?.getD d.type.initial)) =
      f.decls.map fun d => (d.name, args[d.name]?.getD (.int 0)) := by
    refine List.map_congr_left fun d hd => ?_
    rw [htypes d hd]
    rfl
  have hmem : d.name ∈ f.decls.map Param.name := List.mem_map_of_mem hd
  rw [State.start, hpairs, State.getElem?_ofPairs_map fun x => args[x]?.getD (.int 0),
    if_pos hmem]

theorem FunctionDef.scalars_lookup {d : Param} (hd : d ∈ f.decls) :
    f.scalars.lookup d.name = some (varSymbol d.name) := by
  have hmem : d.name ∈ (f.decls.filter (·.type == .int)).map Param.name :=
    List.mem_map_of_mem (List.mem_filter.mpr ⟨hd, beq_iff_eq.mpr (htypes d hd)⟩)
  rw [FunctionDef.scalars, lookup_map_name, if_pos hmem]

variable {m : Model} (cells : List CellConst)
  (hm : ∀ x ∈ f.params, m.get? (varSymbol x.name) = some (Smt.intText (v x.name).toInt))

include hm

theorem modelValue?_of_printed {x : Param} (hx : x ∈ f.params) :
    modelValue? ⟨f.scalars, cells⟩ m x = some (.int (v x.name)) := by
  have hdecl : x ∈ f.decls := List.mem_append_left _ (List.mem_append_left _ hx)
  have hint : m.getInt? (varSymbol x.name) = some (v x.name).toInt := by
    have hlo := (v x.name).le_toInt
    have hhi := (v x.name).toInt_lt
    rw [Model.getInt?, hm x hx, Option.bind_eq_bind, Option.bind_some, modelInt?_intText]
    -- words are well inside the range of 128 bits
    all_goals
      unfold int128Bound
      omega
  rw [modelValue?, htypes x hdecl]
  dsimp only
  rw [SymbolTable.scalar?, FunctionDef.scalars_lookup htypes hdecl, Option.bind_some, hint,
    Option.getD_some, word?_toInt, Option.map_some]

/-- The arguments that a model gives are the numbers printed in it. -/
theorem FunctionDef.modelArgs?_of_printed :
    f.modelArgs? ⟨f.scalars, cells⟩ m = some (f.intArgs v) := by
  have hpairs : ∀ xs : List Param, (∀ x ∈ xs, x ∈ f.params) →
      (xs.mapM fun x => do return (x.name, ← modelValue? ⟨f.scalars, cells⟩ m x)) =
        some (xs.map fun x => (x.name, .int (v x.name))) := by
    intro xs
    induction xs with
    | nil => exact fun _ => rfl
    | cons x xs ih =>
      intro hxs
      obtain ⟨hx, hxs⟩ := List.forall_mem_cons.mp hxs
      rw [List.mapM_cons, ih hxs, modelValue?_of_printed htypes cells hm hx]
      rfl
  rw [FunctionDef.modelArgs?, hpairs f.params fun _ hx => hx]
  rfl

end

/-! ## The run -/

/-- The number of a variable, and zero if it has none. -/
def State.number (s : State) (x : String) : Int64 :=
  match s[x]? with
  | some (.int n) => n
  | _ => 0

section

variable {p : Program} {f : FunctionDef} {args final : State} {fuel : Nat}
  (htypes : ∀ d ∈ f.decls, d.type = .int) (hbody : f.body.straight = true) (hargs : args.AllInts)
  (hrun : p.run f args fuel = .ok final)

include htypes hbody hargs hrun

theorem FunctionDef.retraces (close : Bool) :
    Retraces (f.body.wp close) (State.start f args) final := by
  obtain ⟨fuel', hexec⟩ := Program.run_eq_ok.mp hrun
  exact Stmt.retraces close hbody (hargs.start htypes) hexec

/-- Every declared name is a number at the end. -/
theorem FunctionDef.getElem?_final {d : Param} (hd : d ∈ f.decls) :
    final[d.name]? = some (.int (final.number d.name)) := by
  have hretraces := FunctionDef.retraces htypes hbody hargs hrun false
  have hstart : (State.start f args)[d.name]?.isSome = true := by
    rw [State.getElem?_start htypes args hd]
    rfl
  obtain ⟨value, hvalue⟩ := Option.isSome_iff_exists.mp (hretraces.kept d.name hstart)
  cases value with
  | int n => rw [State.number, hvalue]
  | array c => exact absurd hvalue hretraces.ints.not_array

/-- Where the obligation is false for the arguments, the postcondition can only evaluate to false
at the end of the run. -/
theorem FunctionDef.post_false {α : Type} {M : Interpretation α} {rest : Valuation α}
    {close : Bool} {obligation post : Pred} (hpost : f.post = some post)
    (hcontract : post.callFree = true) (hob : f.obligation close = .ok (some obligation))
    (hfalse : ¬obligation.Holds M ((State.start f args).numbers rest)) {fuel' : Nat} {r : Bool}
    (heval : p.holds post final fuel' = .ok r) : r = false := by
  obtain ⟨post', w, hpost', hwp, rfl⟩ := FunctionDef.obligation_eq_ok.mp hob
  cases hpost.symm.trans hpost'
  obtain ⟨fuel'', heval⟩ := Program.holds_eq_ok.mp heval
  have hretraces := FunctionDef.retraces htypes hbody hargs hrun close
  have hend : post.Yields final r := Pred.yields_of_eval hretraces.ints hcontract heval
  have hbefore : w.simplify.Yields (State.start f args) r := (hretraces.yields hwp hend).simplify
  -- the precondition need not evaluate: a false implication has a false conclusion
  rw [Pred.simplify, Pred.holds_imp, hbefore.holds_iff M rest] at hfalse
  exact Bool.eq_false_iff.mpr fun hr => hfalse fun _ => hr

end

/-! ## What is shown -/

/-- The counterexample that shows these arguments and these final values. -/
def FunctionDef.showing (f : FunctionDef) (args final : String → Int64) : Counterexample where
  call := f.name ++ "(" ++ ", ".intercalate (f.params.map fun x => toString (args x.name).toInt) ++
    ") => [" ++ ", ".intercalate (f.returns.map fun x =>
      x.name ++ " = " ++ toString (final x.name).toInt) ++ "]"
  lines := f.locals.map fun x => x.name ++ " = " ++ toString (final x.name).toInt
  replayed := true

theorem FunctionDef.describe_run {f : FunctionDef} (htypes : ∀ d ∈ f.decls, d.type = .int)
    {args final : State} {v w : String → Int64}
    (hargs : ∀ x ∈ f.params, args[x.name]? = some (.int (v x.name)))
    (hfinal : ∀ d ∈ f.decls, final[d.name]? = some (.int (w d.name))) :
    f.describe (some args) (.run final) = f.showing v w := by
  have hvalue : ∀ d ∈ f.decls, (Source.run final).value d = toString (w d.name).toInt := by
    intro d hd
    rw [Source.value, hfinal d hd]
    rfl
  have hreturned : (f.returns.map fun x => x.name ++ " = " ++ (Source.run final).value x) =
      f.returns.map fun x => x.name ++ " = " ++ toString (w x.name).toInt := by
    refine List.map_congr_left fun x hx => ?_
    rw [hvalue x (List.mem_append_left _ (List.mem_append_right _ hx))]
  have hlines : f.locals.flatMap (Source.run final).localLines =
      f.locals.map fun x => x.name ++ " = " ++ toString (w x.name).toInt := by
    rw [List.map_eq_flatMap]
    refine List.flatMap_congr fun x hx => ?_
    have hdecl : x ∈ f.decls := List.mem_append_right _ hx
    rw [Source.localLines, htypes x hdecl]
    dsimp only
    rw [hvalue x hdecl]
  unfold FunctionDef.describe FunctionDef.showing
  rw [hreturned, hlines]
  dsimp only
  congr 6
  refine List.map_congr_left fun x hx => ?_
  rw [Option.bind_some, hargs x hx]
  rfl

/-- **Counterexamples of straight-line functions are genuine.** Take a function over numbers whose
body has no loops and no calls and assigns variables, and an obligation in which only its parameters
are free. Let a model give each parameter a 64-bit number, printed as a solver prints it, and let the
obligation be false for these numbers, in any reading of what a number does not say. If the run from
these numbers finishes and the postcondition evaluates at its end, then the counterexample is a
replay, shows these numbers as the arguments and the numbers at the end of the run as the returns
and locals, and the postcondition evaluates to false there. -/
theorem counterexample_replayed {p : Program} {f : FunctionDef}
    (htypes : ∀ d ∈ f.decls, d.type = .int) (hbody : f.body.straight = true) {post : Pred}
    (hpost : f.post = some post) (hcontract : post.callFree = true) {close : Bool}
    {obligation : Pred} (hob : f.obligation close = .ok (some obligation))
    (hfree : ∀ x ∈ obligation.free, x ∈ f.params.map Param.name) {s s' : Session} {query : Query}
    (hquery : p.query f obligation s = (.ok query, s')) {m : Model} {v : String → Int64}
    (hm : ∀ x ∈ f.params, m.get? (varSymbol x.name) = some (Smt.intText (v x.name).toInt))
    {α : Type} {M : Interpretation α} {ρ : Valuation α}
    (hρ : ∀ x ∈ f.params, ρ x.name = .int (v x.name).toInt) (hfalse : ¬obligation.Holds M ρ)
    {final : State} (hrun : p.run f (f.intArgs v) defaultFuel = .ok final) {r : Bool}
    (heval : p.holds post final defaultFuel = .ok r) :
    (∀ d ∈ f.decls, final[d.name]? = some (.int (final.number d.name))) ∧
      p.counterexample f query.symbols (some m) = f.showing v final.number ∧
      p.holds post final defaultFuel = .ok false := by
  have hints := f.allInts_intArgs v
  -- the obligation sees the parameters only, and these have the numbers of the model at the start
  have hstart : ¬obligation.Holds M ((State.start f (f.intArgs v)).numbers ρ) := by
    refine mt (Pred.holds_congr M obligation fun y hy => ?_).mp hfalse
    obtain ⟨x, hx, rfl⟩ := List.mem_map.mp (hfree y hy)
    have hdecl : x ∈ f.decls := List.mem_append_left _ (List.mem_append_left _ hx)
    rw [hρ x hx, State.numbers_of_some]
    rw [State.getElem?_start htypes _ hdecl, FunctionDef.getElem?_intArgs hx, Option.getD_some]
  obtain rfl := FunctionDef.post_false htypes hbody hints hrun hpost hcontract hob hstart heval
  have hfinal := fun d (hd : d ∈ f.decls) => FunctionDef.getElem?_final htypes hbody hints hrun hd
  obtain ⟨-, -, -, hsymbols⟩ := Program.query_eq_ok hquery
  have hargs := FunctionDef.modelArgs?_of_printed htypes s'.scope.cells hm
  have hreplay : p.replay? f (f.intArgs v) = some final := by
    simp only [Program.replay?, hrun, hpost, Option.map_some, heval]
  refine ⟨hfinal, ?_, heval⟩
  rw [hsymbols, Program.counterexample, Option.getD_some, hargs, Option.bind_some, hreplay]
  exact FunctionDef.describe_run htypes (fun x hx => FunctionDef.getElem?_intArgs hx) hfinal

/-! ### A broken promise -/

/-- The value is even and not negative. -/
def evenAndLarge (k : String) (e : Expr) : Pred :=
  .and (.compare .ge e (.const 0))
    (.quantified .existential (.scalar k) (.compare .eq e (.binary .add (.var k) (.var k))))

/-- Subtracts, and adds one to a negative difference. The name of one parameter is reserved in
queries, and that of the other is bound in the postcondition. -/
def surplus : FunctionDef where
  name := "surplus"
  params := [.scalar "x", .scalar "mod"]
  returns := [.scalar "r"]
  locals := [.scalar "d"]
  body := .block [
    .assign [.var "d"] [.binary .sub (.var "x") (.var "mod")],
    .branch (.compare .lt (.var "d") (.const 0))
      (.assign [.var "r", .var "d"] [.binary .add (.var "d") (.const 1), .const 0])
      (some (.assign [.var "r"] [.var "d"]))]
  pre := some (.compare .gt (.var "mod") (.const 0))
  post := some (evenAndLarge "x" (.var "r"))

/-- The obligation of `surplus`, with the bound name renamed. -/
def surplusObligation : Pred :=
  let d : Expr := .binary .sub (.var "x") (.var "mod")
  .implies (.compare .gt (.var "mod") (.const 0))
    (.or
      (.and (.compare .lt d (.const 0)) (evenAndLarge "x_1" (.binary .add d (.const 1))))
      (.and (.not (.compare .lt d (.const 0))) (evenAndLarge "x_1" d)))

/-- The arguments `-5` and `2`. -/
def surplusArgs (x : String) : Int64 := if x = "x" then -5 else 2

/-- The final state of the run from these arguments. -/
def surplusFinal : State :=
  State.ofPairs [("x", .int (-5)), ("mod", .int 2), ("r", .int (-6)), ("d", .int 0)]

/-- From `-5` and `2` the run ends with `-6`, which is even but negative. The second part of the
postcondition is a quantifier, which is not looked at. -/
theorem counterexample_replayed_surplus : ∃ (query : Query) (s' : Session),
    (Program.mk [surplus] []).query surplus surplusObligation Session.new = (.ok query, s') ∧
    (Program.mk [surplus] []).run surplus (surplus.intArgs surplusArgs) defaultFuel =
      .ok surplusFinal ∧
    (Program.mk [surplus] []).counterexample surplus query.symbols
      (some ⟨[("mod!v", "2"), ("x", "(- 5)")]⟩) = ⟨"surplus(-5, 2) => [r = -6]", ["d = 0"], true⟩ ∧
    (Program.mk [surplus] []).holds (evenAndLarge "x" (.var "r")) surplusFinal defaultFuel =
      .ok false := by
  have hscalars : ((Program.mk [surplus] []).query surplus surplusObligation
      Session.new).1.toOption.map (fun query => query.symbols.scalars) =
      some [("x", "x"), ("mod", "mod!v"), ("r", "r"), ("d", "d")] := by cbv
  obtain ⟨query, s', hquery, -⟩ := exists_ok_of_map_toOption hscalars
  let M : Interpretation Unit := ⟨fun _ _ => 0, fun _ => 0, fun _ _ => 0, fun _ _ => True, id⟩
  have hob : surplus.obligation true = .ok (some surplusObligation) := by cbv
  have hfree : ∀ x ∈ surplusObligation.free, x ∈ surplus.params.map Param.name := by decide
  have hfalse : ¬surplusObligation.Holds M fun x => .int (surplusArgs x).toInt := by
    simp [surplusObligation, evenAndLarge, surplusArgs, Pred.Holds, Expr.value, CmpOp.holds,
      Interpretation.arith, ArithOp.onInt]
  have hrun : (Program.mk [surplus] []).run surplus (surplus.intArgs surplusArgs) defaultFuel =
      .ok surplusFinal := by cbv
  have hm : ∀ x ∈ surplus.params,
      (⟨[("mod!v", "2"), ("x", "(- 5)")]⟩ : Model).get? (varSymbol x.name) =
        some (Smt.intText (surplusArgs x.name).toInt) := by
    intro x hx
    rcases List.mem_pair.mp hx with rfl | rfl <;> cbv
  have heval : (Program.mk [surplus] []).holds (evenAndLarge "x" (.var "r")) surplusFinal
      defaultFuel = .ok false := by cbv
  obtain ⟨-, hshown, hpost⟩ := counterexample_replayed (by decide) (by decide) rfl (by decide)
    hob hfree hquery hm (fun _ _ => rfl) hfalse hrun heval
  refine ⟨query, s', hquery, hrun, hshown.trans ?_, hpost⟩
  cbv

/-! ## What a replay shows -/

theorem State.getElem?_ofPairs_eq_none {pairs : List (String × Value)} {x : String} :
    (State.ofPairs pairs)[x]? = none ↔ x ∉ pairs.map Prod.fst := by
  rw [State.getElem?_ofPairs, List.lookup_eq_none_iff, List.mem_map]
  constructor
  · rintro h ⟨b, hb, rfl⟩
    exact absurd (beq_self_eq_true b.1) (by simpa using h b (List.mem_reverse.mpr hb))
  · intro h b hb
    simpa using fun heq : x = b.1 => h ⟨b, List.mem_reverse.mp hb, heq.symm⟩

section

variable {p : Program} {f : FunctionDef} {t : SymbolTable} {m : Model} {args final : State}

theorem map_fst_of_modelValues {xs : List Param} {pairs : List (String × Value)}
    (h : (xs.mapM fun x => do return (x.name, ← modelValue? t m x)) = some pairs) :
    pairs.map Prod.fst = xs.map Param.name := by
  induction xs generalizing pairs with
  | nil =>
    cases h
    rfl
  | cons x xs ih =>
    simp only [List.mapM_cons, Option.bind_eq_bind, Option.bind_eq_some_iff, Option.pure_def,
      Option.some.injEq] at h
    obtain ⟨pair, ⟨v, -, rfl⟩, rest, hrest, rfl⟩ := h
    rw [List.map_cons, List.map_cons, ih hrest]

/-- The arguments that a model gives have a value for each parameter and none for other names. -/
theorem FunctionDef.getElem?_modelArgs?_eq_none (h : f.modelArgs? t m = some args) {x : String} :
    args[x]? = none ↔ x ∉ f.params.map Param.name := by
  rw [FunctionDef.modelArgs?] at h
  obtain ⟨pairs, hpairs, heq⟩ := Option.bind_eq_some_iff.mp h
  cases heq
  rw [State.getElem?_ofPairs_eq_none, map_fst_of_modelValues hpairs]

/-- The values of the parameters. -/
def FunctionDef.argValues (f : FunctionDef) (args : State) : List Value :=
  f.params.map fun x => args[x.name]?.getD default

/-- The arguments that a model gives are the values of the parameters, bound to their names. -/
theorem FunctionDef.bindParams_argValues (h : f.modelArgs? t m = some args) :
    bindParams f.params (f.argValues args) = args := by
  -- of two parameters of one name both show the value that counts, so the order does not matter
  refine Std.ExtTreeMap.ext_getElem? fun x => ?_
  rw [bindParams, FunctionDef.argValues, List.zip_map',
    State.getElem?_ofPairs_map fun y => args[y]?.getD default]
  split
  · next hx =>
    cases hvalue : args[x]? with
    | none => exact absurd hx ((FunctionDef.getElem?_modelArgs?_eq_none h).mp hvalue)
    | some v => rfl
  · next hx => exact ((FunctionDef.getElem?_modelArgs?_eq_none h).mpr hx).symm

theorem Program.replay?_eq_some {post : Pred} (hpost : f.post = some post) :
    p.replay? f args = some final ↔
      p.run f args defaultFuel = .ok final ∧ p.holds post final defaultFuel ≠ .ok true := by
  unfold Program.replay?
  rw [hpost]
  cases p.run f args defaultFuel with
  | error e => exact ⟨nofun, nofun⟩
  | ok final' =>
    dsimp only [Option.map_some]
    constructor
    · intro h
      split at h
      · cases h
      · next hne =>
        cases h
        exact ⟨rfl, fun htrue => hne (congrArg some htrue)⟩
    · rintro ⟨heq, hne⟩
      cases heq
      split
      · next htrue => exact absurd (Option.some.inj htrue) hne
      · rfl

/-- A counterexample is a replay if its model gives arguments from which there is one. -/
theorem Program.counterexample_cases (p : Program) (f : FunctionDef) (t : SymbolTable)
    (model : Option Model) :
    (∃ args final, f.modelArgs? t (model.getD ⟨[]⟩) = some args ∧ p.replay? f args = some final ∧
      p.counterexample f t model = f.describe (some args) (.run final)) ∨
    ((∀ args, f.modelArgs? t (model.getD ⟨[]⟩) = some args → p.replay? f args = none) ∧
      (p.counterexample f t model).replayed = false) := by
  unfold Program.counterexample
  dsimp only
  cases hargs : f.modelArgs? t (model.getD ⟨[]⟩) with
  | none => exact .inr ⟨nofun, rfl⟩
  | some args =>
    rw [Option.bind_some]
    cases hreplay : p.replay? f args with
    | none =>
      refine .inr ⟨fun args' heq => ?_, rfl⟩
      cases heq
      exact hreplay
    | some final => exact .inl ⟨args, final, rfl, hreplay, rfl⟩

/-- A call in words, with the returns of a final state. -/
def FunctionDef.callText (f : FunctionDef) (values : List Value) (final : State) : String :=
  f.name ++ "(" ++ ", ".intercalate (values.map Value.text) ++ ") => [" ++
    ", ".intercalate (f.returns.map fun x => x.name ++ " = " ++ (Source.run final).value x) ++ "]"

/-- The values that are shown for the parameters are the arguments. -/
theorem FunctionDef.call_describe (h : f.modelArgs? t m = some args) (final : State) :
    (f.describe (some args) (.run final)).call = f.callText (f.argValues args) final := by
  rw [FunctionDef.callText, FunctionDef.argValues, List.map_map]
  refine congrArg (fun shown => f.name ++ "(" ++ ", ".intercalate shown ++ ") => [" ++
    ", ".intercalate (f.returns.map fun x => x.name ++ " = " ++ (Source.run final).value x) ++ "]")
    (List.map_congr_left fun x hx => ?_)
  have hx' : x.name ∈ f.params.map Param.name := List.mem_map_of_mem hx
  cases hvalue : args[x.name]? with
  | none => exact absurd hx' ((FunctionDef.getElem?_modelArgs?_eq_none h).mp hvalue)
  | some v => simp only [Option.bind_some, hvalue, Function.comp_apply, Option.getD_some]

end

/-- **A replay never satisfies the postcondition as far as this evaluates.** A counterexample is
replayed if and only if its model gives arguments, the run from them ends, and the postcondition
does not evaluate to true at the end. The values that a replay shows for the parameters are the
arguments of this run. At its end the postcondition evaluates to false, and then it is false in every
reading that agrees with the program; or it does not evaluate at all. -/
theorem replay_contradicts_post {p : Program} {f : FunctionDef} {post : Pred}
    (hpost : f.post = some post) (t : SymbolTable) (model : Option Model) :
    ((p.counterexample f t model).replayed = true ↔
      ∃ args final, f.modelArgs? t (model.getD ⟨[]⟩) = some args ∧
        p.run f args defaultFuel = .ok final ∧ p.holds post final defaultFuel ≠ .ok true) ∧
    ((p.counterexample f t model).replayed = true → ∃ (values : List Value) (final : State),
      values.length = f.params.length ∧
      (p.counterexample f t model).call = f.callText values final ∧
      p.run f (bindParams f.params values) defaultFuel = .ok final ∧
      (p.holds post final defaultFuel = .ok false ∧
          (∀ (M : Interpretation Cells) (rest : Valuation Cells),
            M.Agrees p (below p depthLimit) → ¬post.Holds M (final.valuation rest)) ∨
        ∃ e, p.holds post final defaultFuel = .error e)) := by
  rcases p.counterexample_cases f t model with ⟨args, final, hargs, hreplay, heq⟩ | ⟨hnone, heq⟩
  · -- the replay is the run from the arguments that the model gives
    obtain ⟨hrun, hne⟩ := (Program.replay?_eq_some hpost).mp hreplay
    rw [heq]
    refine ⟨⟨fun _ => ⟨args, final, hargs, hrun, hne⟩, fun _ => rfl⟩, fun _ => ?_⟩
    refine ⟨f.argValues args, final, List.length_map _, FunctionDef.call_describe hargs _, ?_, ?_⟩
    · rw [FunctionDef.bindParams_argValues hargs, hrun]
    · cases heval : p.holds post final defaultFuel with
      | error e => exact .inr ⟨e, rfl⟩
      | ok r =>
        cases r with
        | true => exact absurd heval hne
        | false =>
          refine .inl ⟨rfl, fun M rest hM hholds => ?_⟩
          obtain ⟨fuel', heval⟩ := Program.holds_eq_ok.mp heval
          cases (Pred.holds_of_eval hM heval).mp hholds
  · rw [heq]
    refine ⟨⟨nofun, ?_⟩, nofun⟩
    rintro ⟨args, final, hargs, hrun, hne⟩
    cases (hnone args hargs).symm.trans ((Program.replay?_eq_some hpost).mpr ⟨hrun, hne⟩)

/-- The run of `surplus` that breaks its promise, once more. -/
theorem replay_contradicts_post_surplus :
    ((Program.mk [surplus] []).counterexample surplus ⟨surplus.scalars, []⟩
      (some ⟨[("mod!v", "2"), ("x", "(- 5)")]⟩)).replayed = true ∧
    ∃ (values : List Value) (final : State),
      ((Program.mk [surplus] []).counterexample surplus ⟨surplus.scalars, []⟩
        (some ⟨[("mod!v", "2"), ("x", "(- 5)")]⟩)).call = surplus.callText values final ∧
      (Program.mk [surplus] []).run surplus (bindParams surplus.params values) defaultFuel =
        .ok final ∧
      (Program.mk [surplus] []).holds (evenAndLarge "x" (.var "r")) final defaultFuel ≠
        .ok true := by
  have hreplay := replay_contradicts_post (p := Program.mk [surplus] []) (f := surplus) rfl
    ⟨surplus.scalars, []⟩ (some ⟨[("mod!v", "2"), ("x", "(- 5)")]⟩)
  have hargs : surplus.modelArgs? ⟨surplus.scalars, []⟩ ⟨[("mod!v", "2"), ("x", "(- 5)")]⟩ =
      some (surplus.intArgs surplusArgs) := by cbv
  have hrun : (Program.mk [surplus] []).run surplus (surplus.intArgs surplusArgs) defaultFuel =
      .ok surplusFinal := by cbv
  have heval : (Program.mk [surplus] []).holds (evenAndLarge "x" (.var "r")) surplusFinal
      defaultFuel = .ok false := by cbv
  have hreplayed := hreplay.1.mpr ⟨_, _, hargs, hrun, by rw [heval]; intro hok; cases hok⟩
  obtain ⟨values, final, -, hcall, hrun', hpost⟩ := hreplay.2 hreplayed
  refine ⟨hreplayed, values, final, hcall, hrun', fun htrue => ?_⟩
  rcases hpost with ⟨hfalse, -⟩ | ⟨e, herror⟩
  · cases hfalse.symm.trans htrue
  · cases herror.symm.trans htrue

/-! ### A promise that is kept -/

def evenReturn : Pred :=
  .quantified .existential (.scalar "k")
    (.compare .eq (.var "r") (.binary .add (.var "k") (.var "k")))

/-- Returns an even number. The invariant does not say so. -/
def climb : FunctionDef where
  name := "climb"
  params := []
  returns := [.scalar "r"]
  locals := []
  body := .loop (.compare .lt (.var "r") (.const 2))
    (.assign [.var "r"] [.binary .add (.var "r") (.const 2)]) (some (.bool true))
  pre := none
  post := some evenReturn

def climbObligation : Pred :=
  .implies (.not (.compare .lt (.var "r") (.const 2))) evenReturn

def climbEnd : State := State.ofPairs [("r", .int 2)]

theorem evenReturn_holds_iff {α : Type} {M : Interpretation α} {ρ : Valuation α} {n : Int}
    (h : ρ "r" = .int n) : evenReturn.Holds M ρ ↔ ∃ k, n = k + k := by
  simp [evenReturn, Param.scalar, Pred.Holds, Expr.value, CmpOp.holds, Interpretation.arith,
    ArithOp.onInt, h]

/-- The obligation of `climb` is false in a model where three is returned, but its run returns two.
This keeps the promise, and is shown as a replay since a quantifier does not evaluate. -/
theorem replay_keeps_post_climb :
    climb.obligation false = .ok (some climbObligation) ∧
    (∀ (α : Type) (M : Interpretation α), ¬climbObligation.Holds M fun _ => .int 3) ∧
    (∀ (t : SymbolTable) (model : Option Model),
      (Program.mk [climb] []).counterexample climb t model = ⟨"climb() => [r = 2]", [], true⟩) ∧
    (Program.mk [climb] []).run climb (bindParams climb.params []) defaultFuel = .ok climbEnd ∧
    (∀ (M : Interpretation Cells) (rest : Valuation Cells),
      evenReturn.Holds M (climbEnd.valuation rest)) ∧
    (Program.mk [climb] []).holds evenReturn climbEnd defaultFuel = .error .quantifier := by
  have hrun : (Program.mk [climb] []).run climb ∅ defaultFuel = .ok climbEnd := by cbv
  have heval : (Program.mk [climb] []).holds evenReturn climbEnd defaultFuel =
      .error .quantifier := by cbv
  refine ⟨by cbv, fun α M => ?_, fun t model => ?_, hrun, fun M rest => ?_, heval⟩
  · intro hholds
    have hlarge : (Pred.not (.compare .lt (.var "r") (.const 2))).Holds M fun _ => .int 3 := by
      simp [Pred.Holds, Expr.value, CmpOp.holds]
    obtain ⟨k, hk⟩ := (evenReturn_holds_iff rfl).mp (hholds hlarge)
    omega
  · have hreplay : (Program.mk [climb] []).replay? climb ∅ = some climbEnd := by
      refine (Program.replay?_eq_some rfl).mpr ⟨hrun, fun htrue => ?_⟩
      cases heval.symm.trans htrue
    -- there are no parameters, so every model gives the same arguments
    have hargs : climb.modelArgs? t (model.getD ⟨[]⟩) = some ∅ := rfl
    rcases (Program.mk [climb] []).counterexample_cases climb t model with
      ⟨args, final, hargs', hfinal, heq⟩ | ⟨hnone, -⟩
    · cases hargs.symm.trans hargs'
      cases hreplay.symm.trans hfinal
      rw [heq]
      cbv
    · cases (hnone ∅ hargs).symm.trans hreplay
  · have hr : climbEnd["r"]? = some (.int 2) := by cbv
    exact (evenReturn_holds_iff (State.valuation_of_some hr)).mpr ⟨1, rfl⟩

end Contracts

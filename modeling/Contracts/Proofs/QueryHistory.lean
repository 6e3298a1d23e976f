import Mathlib
import Contracts.Proofs.ContractInvariant
import Contracts.Proofs.EncodingCoupling
import Contracts.Proofs.QuerySound

/-!
# Queries and the history of a session

A session that has seen other queries has a counter of its own, and has the axioms of some functions
already. So the encoding of an obligation makes symbols with other numbers in it, and takes other
steps on the way. None of this shows in the goal but in the numbers of symbols
(`goal_independent_of_history`).

Contracts know no arrays. What a call brings in therefore makes no cell, and leaves the cells of the
function as they are, whatever it does besides (`cellsKept`). So the cells of the two sessions stay
counterparts of each other, and this is all that the terms of an obligation depend on.
-/

set_option autoImplicit false

namespace Contracts

open Smt

/-- A query that succeeds is made of the goal and of the session that its encoding ends with. -/
theorem Program.query_eq_ok {p : Program} {f : FunctionDef} {obligation : Pred} {s s' : Session}
    {query : Query} (h : p.query f obligation s = (.ok query, s')) : ∃ goal,
      p.encodePred obligation (Env.ofFunction f) (s.forFunction f) = (.ok goal, s') ∧
      query.script = s'.assemble goal ∧ query.symbols = ⟨f.scalars, s'.scope.cells⟩ := by
  have hopen : p.query f obligation s =
      (p.encodePred obligation (Env.ofFunction f) >>= fun goal => get >>= fun s' =>
        pure ⟨f.name, s'.assemble goal, ⟨f.scalars, s'.scope.cells⟩⟩) (s.forFunction f) := rfl
  rw [hopen] at h
  obtain ⟨goal, s₁, hencode, hrest⟩ := EncodeM.bind_eq_ok.mp h
  rw [EncodeM.get_bind] at hrest
  cases hrest
  exact ⟨goal, hencode, rfl, rfl⟩

theorem Session.forFunction_cells (s : Session) (f : FunctionDef) :
    (s.forFunction f).scope.cells = [] := by
  have hfold : ∀ (names : List String) (s : Session),
      (names.foldl Session.declareLocalConst s).scope.cells = s.scope.cells := by
    intro names
    induction names with
    | nil => exact fun _ => rfl
    | cons x names ih =>
      intro s
      rw [List.foldl_cons, ih, Session.declareLocalConst_cells]
  exact hfold _ _

/-! ## What a call leaves alone -/

/-- The session has the cells it had, and its counter has not gone back. -/
structure Session.CellsKept (s s' : Session) : Prop where
  cells : s'.scope.cells = s.scope.cells
  counter : s.counter ≤ s'.counter

/-- The regime of steps that make no cell. -/
def cellsKept : Regime :=
  .frame (fun _ => True) Session.CellsKept (fun _ => ⟨rfl, Nat.le_refl _⟩)
    fun h h' => ⟨h'.cells.trans h.cells, Nat.le_trans h.counter h'.counter⟩

section

variable {α : Type} {s : Session}

theorem EncodeM.Meets.of_cellsKept {x : EncodeM α} {post : α → Session → Prop}
    (hkept : s.CellsKept (x s).2) (hpost : ∀ a, (x s).1 = .ok a → post a (x s).2) :
    EncodeM.Meets cellsKept s x post := fun _ => ⟨trivial, hkept, hpost⟩

theorem meets_cellsKept_declareFun (name : String) (arity : Nat) :
    EncodeM.Meets cellsKept s (declareFun name arity) fun _ _ => True := by
  refine .of_cellsKept ?_ fun _ _ => trivial
  unfold declareFun
  rw [EncodeM.get_bind]
  cases s.arities.lookup name with
  | none => exact ⟨rfl, Nat.le_refl _⟩
  | some expected =>
    dsimp only
    split <;> exact ⟨rfl, Nat.le_refl _⟩

theorem meets_cellsKept_selectorSymbol (array : String) :
    EncodeM.Meets cellsKept s (selectorSymbol array) fun f _ => f = array ++ "!sel" := by
  refine .of_cellsKept ?_ fun f hf => selectorSymbol_eq_ok (Prod.ext hf rfl)
  rw [selectorSymbol_run]
  dsimp only
  split <;> exact ⟨rfl, Nat.le_refl _⟩

theorem meets_cellsKept_lengthSymbol (array : String) :
    EncodeM.Meets cellsKept s (lengthSymbol array) fun x _ => x = array ++ "!len" := by
  refine .of_cellsKept ?_ fun f hf => lengthSymbol_eq_ok (Prod.ext hf rfl)
  rw [lengthSymbol_run]
  dsimp only
  split
  · exact ⟨rfl, Nat.le_refl _⟩
  · exact ⟨Session.declareLocalConst_cells .., Nat.le_of_eq (Session.declareLocalConst_counter ..).symm⟩

theorem Session.cellsKept_declareGlobalConsts (names : List String) :
    s.CellsKept (names.foldl Session.declareGlobalConst s) := by
  induction names generalizing s with
  | nil => exact ⟨rfl, Nat.le_refl _⟩
  | cons x names ih =>
    have hstep : s.CellsKept (s.declareGlobalConst x) :=
      ⟨Session.declareGlobalConst_cells s x, Nat.le_of_eq (Session.declareGlobalConst_counter s x).symm⟩
    exact cellsKept.trans hstep ih

theorem cellsKept_allows (p : Program) : cellsKept.Allows p [] fun _ => True where
  fresh s base _ _ := .of_cellsKept ⟨rfl, Nat.le_succ _⟩ fun x hx => by
    cases hx
    exact ⟨⟨base, _, Nat.lt_succ_self _, rfl⟩, trivial⟩
  cell _ _ _ _ _ ha := absurd ha List.not_mem_nil
  selector _ _ _ _ ha := absurd ha List.not_mem_nil
  length _ _ _ ha := absurd ha List.not_mem_nil
  declare _ f n _ _ := meets_cellsKept_declareFun (fnSymbol f) n

theorem cellsKept_lasts (p : Program) : cellsKept.Lasts cellsKept p where
  inv := rfl
  leads := rfl
  applies := rfl
  number h := h
  strengthen _ _ _ _ := trivial
  formals s _ _ := .of_cellsKept (s.cellsKept_declareGlobalConsts _) fun _ _ _ _ => trivial
  entered _ _ _ := ⟨trivial, rfl, Nat.le_refl _⟩
  settled _ _ _ _ _ := ⟨trivial, rfl, Nat.le_refl _⟩
  noted _ _ _ _ := ⟨trivial, rfl, Nat.le_refl _⟩
  instantiated _ _ _ _ _ := ⟨trivial, rfl, Nat.le_refl _⟩

/-- What a call brings in makes no cell. -/
theorem meets_cellsKept_contract (p : Program) (n : Nat) (expanding : List String)
    {g : FunctionDef} (hg : p.Callable g) {args : List Term}
    (hcount : g.params.length = args.length) (bound : List String) :
    EncodeM.Meets cellsKept s ((resolver p n expanding).contract g args bound) fun _ _ => True := by
  obtain ⟨-, hserves⟩ := serves_resolver (cellsKept_lasts p) (cellsKept_allows p)
    (cellsKept_allows p) (fun _ _ _ _ _ _ => trivial) (fun _ _ _ _ => trivial) n expanding
  exact hserves.contract s g args bound [] trivial hg hcount (fun _ h => absurd h List.not_mem_nil)
    (fun _ h => absurd h List.not_mem_nil) (fun _ _ => trivial) trivial

end

/-! ## The two encodings -/

section

variable {α : Type} {w : SessionPair} {p : Program}

/-- Steps that make no cell are coupled, even if they do different things. -/
theorem coupled_of_cellsKept {x y : EncodeM α} {post post' : α → Session → Prop}
    (hx : EncodeM.Meets cellsKept w.left x post) (hy : EncodeM.Meets cellsKept w.right y post') :
    EncodeM.Coupled SessionPair.CellsMatch True w x y fun w' a b =>
      post a w'.left ∧ post' b w'.right := by
  intro hw
  obtain ⟨-, hleft, hpost⟩ := hx trivial
  obtain ⟨-, hright, hpost'⟩ := hy trivial
  revert hleft hpost hright hpost'
  cases x w.left with
  | mk result s =>
    cases y w.right with
    | mk result' s' =>
      intro hleft hpost hright hpost'
      cases result with
      | error e =>
        cases result' with
        | error e' => trivial
        | ok b => trivial
      | ok a =>
        cases result' with
        | error e' => trivial
        | ok b =>
          -- the symbols that the steps have made are not known, so they need no counterparts
          have hext := w.extends_of_counters hleft.counter hright.counter
          exact ⟨_, hext, rfl, rfl, hw.mono hext hleft.cells hright.cells, hpost a rfl,
            hpost' b rfl⟩

/-- Whatever the level below serves for the bodies of formulas, the rest of a level is coupled. -/
theorem couples_of_body (n : Nat) (expanding arrays : List String)
    (hbody : ∀ w d env env', w.Matches arrays env env' →
      EncodeM.Coupled SessionPair.CellsMatch True w ((resolver p n expanding).body d env)
        ((resolver p n expanding).body d env') fun w' t u => w'.Carries t u) :
    (resolver p n expanding).Couples SessionPair.CellsMatch True p arrays fun _ => True where
  fresh w base := coupled_freshSymbol base fun w' hext hleft hright hw =>
    hw.mono hext (by rw [hleft]) (by rw [hright])
  cell w a i j _ hij := coupled_cellSymbol hij id fun w' _ hw' _ _ _ => hw'
  selector w a _ := by
    refine .imp (coupled_of_cellsKept (meets_cellsKept_selectorSymbol a)
      (meets_cellsKept_selectorSymbol a)) fun f g w' h => ?_
    rw [h.1, h.2]
  length w a _ := by
    refine .imp (coupled_of_cellsKept (meets_cellsKept_lengthSymbol a)
      (meets_cellsKept_lengthSymbol a)) fun x y w' h => ?_
    rw [h.1, h.2, w'.names.apply_of_not_madeAfter (lengthSymbol_not_madeAfter a 0)]
    exact ⟨w'.knows_of_not_madeAfter (lengthSymbol_not_madeAfter a), rfl⟩
  declare w f k _ _ := .imp (coupled_of_cellsKept (meets_cellsKept_declareFun _ k)
    (meets_cellsKept_declareFun _ k)) fun _ _ _ _ => trivial
  contract w g ts us bound _ hg hcount hts _ := by
    have hcount' : g.params.length = us.length := by rw [hcount, hts.length]
    exact .imp (coupled_of_cellsKept (meets_cellsKept_contract p n expanding hg hcount bound)
      (meets_cellsKept_contract p n expanding hg hcount' _)) fun _ _ _ _ => trivial
  body w _ d env env' _ henv _ := hbody w d env env' henv

/-- Encodings in sessions with matching cells are coupled, at all levels. -/
theorem couples_cellsMatch (n : Nat) (expanding arrays : List String) :
    (resolver p n expanding).Couples SessionPair.CellsMatch True p arrays fun _ => True := by
  induction n generalizing expanding with
  | zero => exact couples_of_body 0 expanding arrays fun _ _ _ _ _ => .throw
  | succ n ih =>
    exact couples_of_body (n + 1) expanding arrays fun w d env env' henv =>
      coupled_encodePred (ih (d.name :: expanding)) d.body (fun _ _ => trivial) henv

/-- The variables of a function stand for the same constants in all sessions. -/
theorem SessionPair.matches_ofFunction {f : FunctionDef} (hf : ∀ d ∈ f.decls, PlainName d.name)
    (w : SessionPair) : w.Matches f.arrays (Env.ofFunction f) (Env.ofFunction f) := by
  refine ⟨fun x => ?_, ?_, ?_⟩
  · cases hm : (Env.ofFunction f).lookup? x with
    | none => exact .unbound
    | some m =>
      obtain ⟨d, hd, -, rfl⟩ := Env.lookup?_ofFunction hm
      unfold Env.declared
      split
      · have hplain : ∀ c, ¬MadeAfter c (varSymbol d.name) := varSymbol_not_madeAfter (hf d hd).1
        have hcarries := SessionPair.carries_const (w.knows_of_not_madeAfter hplain)
        rw [w.names.apply_of_not_madeAfter (hplain 0)] at hcarries
        exact .scalar hcarries
      · next htype => exact .array _ (FunctionDef.mem_arrays.mpr ⟨d, hd, htype, rfl⟩)
  · rw [Env.bound_ofFunction, List.map_nil]
  · intro x hx
    rw [Env.bound_ofFunction] at hx
    cases hx

end

/-- **Goals do not depend on the history of a session.** Take a function whose variables have plain
names, and a query that succeeds in a new session and in one that has seen any queries, failed ones
included. Then a renumbering takes the goal of the first to the goal of the second. Both have the
same constants for the variables, and the cells of the second are, one by one, those of the first
with their indices and symbols renumbered. -/
theorem goal_independent_of_history {p : Program} {f : FunctionDef}
    (hf : ∀ d ∈ f.decls, PlainName d.name) {obligation : Pred}
    {history : List (FunctionDef × Pred)} {query query' : Query} {s s' : Session}
    (hnew : p.query f obligation Session.new = (.ok query, s))
    (hshared : p.query f obligation (p.sessionAfter history) = (.ok query', s')) :
    ∃ (σ : Renumbering) (hypotheses hypotheses' : Script) (goal goal' : Term),
      query.script = hypotheses ++ [.assert (.not goal), .checkSat, .getModel] ∧
      query'.script = hypotheses' ++ [.assert (.not goal'), .checkSat, .getModel] ∧
      goal' = goal.rename σ.perm ∧
      query'.symbols.scalars = query.symbols.scalars ∧
      query'.symbols.cells = query.symbols.cells.map (CellConst.rename σ.perm) := by
  obtain ⟨goal, hencode, hscript, hsymbols⟩ := Program.query_eq_ok hnew
  obtain ⟨goal', hencode', hscript', hsymbols'⟩ := Program.query_eq_ok hshared
  -- at the start no cell has been made, and no symbol has to be renumbered
  let w : SessionPair := ⟨.refl, Session.new.forFunction f, (p.sessionAfter history).forFunction f⟩
  have hstart : w.CellsMatch :=
    SessionPair.cellsMatch_of_nil (Session.forFunction_cells _ f) (Session.forFunction_cells _ f)
  have hcoupled := coupled_encodePred (couples_cellsMatch (p := p) p.levels [] f.arrays) obligation
    (fun _ _ => trivial) (w.matches_ofFunction hf) hstart
  have hleft : encodePred p (resolver p p.levels []) obligation (Env.ofFunction f) w.left =
    (.ok goal, s) := hencode
  have hright : encodePred p (resolver p p.levels []) obligation (Env.ofFunction f) w.right =
    (.ok goal', s') := hencode'
  rw [hleft, hright] at hcoupled
  obtain ⟨w', -, rfl, rfl, hcells, hgoal⟩ := hcoupled
  refine ⟨w'.names, _, _, goal, goal', hscript, hscript', hgoal.eq, ?_, ?_⟩
  · rw [hsymbols, hsymbols']
  · rw [hsymbols, hsymbols']
    exact hcells.eq

/-- A result that is known to be there. -/
theorem exists_ok_of_map_toOption {α β : Type} {x : EncodeM α} {s : Session} {g : α → β} {b : β}
    (h : (x s).1.toOption.map g = some b) : ∃ a s', x s = (.ok a, s') ∧ g a = b := by
  cases hrun : x s with
  | mk result s' =>
    rw [hrun] at h
    cases result with
    | error e => cases h
    | ok a => exact ⟨a, s', rfl, Option.some.inj h⟩

/-- The obligation of `scan` twice in one session. It quantifies over the cells of an array and reads
one of them, so the second query has symbols with higher numbers. -/
theorem goal_independent_of_history_scan : ∃ (query query' : Query) (s s' : Session),
    scanProgram.query scan scanObligation Session.new = (.ok query, s) ∧
    scanProgram.query scan scanObligation
      (scanProgram.sessionAfter [(scan, scanObligation)]) = (.ok query', s') ∧
    query.symbols.cells.map CellConst.symbol = ["a!elem!2"] ∧
    query'.symbols.cells.map CellConst.symbol = ["a!elem!4"] ∧
    ∃ (σ : Renumbering) (hypotheses hypotheses' : Script) (goal goal' : Term),
      query.script = hypotheses ++ [.assert (.not goal), .checkSat, .getModel] ∧
      query'.script = hypotheses' ++ [.assert (.not goal'), .checkSat, .getModel] ∧
      goal' = goal.rename σ.perm ∧
      query'.symbols.scalars = query.symbols.scalars ∧
      query'.symbols.cells = query.symbols.cells.map (CellConst.rename σ.perm) := by
  have hfirst : ((scanProgram.query scan scanObligation Session.new).1.toOption.map
      fun query => query.symbols.cells.map CellConst.symbol) = some ["a!elem!2"] := by cbv
  have hsecond : ((scanProgram.query scan scanObligation
      (scanProgram.sessionAfter [(scan, scanObligation)])).1.toOption.map
      fun query => query.symbols.cells.map CellConst.symbol) = some ["a!elem!4"] := by cbv
  obtain ⟨query, s, hnew, hcells⟩ := exists_ok_of_map_toOption hfirst
  obtain ⟨query', s', hshared, hcells'⟩ := exists_ok_of_map_toOption hsecond
  have hplain : ∀ d ∈ scan.decls, PlainName d.name := by
    unfold PlainName
    decide
  exact ⟨query, query', s, s', hnew, hshared, hcells, hcells',
    goal_independent_of_history hplain hnew hshared⟩

end Contracts

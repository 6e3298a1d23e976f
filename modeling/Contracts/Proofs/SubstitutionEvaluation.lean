import Contracts.Proofs.SimplifyEvaluation

/-!
# Evaluation across an assignment of variables

What a predicate evaluates to after an assignment of variables, the predicate worked out for the
assignment evaluates to before it. This is said of evaluations, so nothing is asked of how names are
used: a variable may receive a number or a whole array, and it may stand in a predicate as a number,
as an argument and as the array of a cell.

The last use is where the two part. A substitution puts expressions in for variables and leaves the
name of the array in a read `x[i]` as it is, while the assignment of a whole array to `x` changes
what the read gives. So the arrays whose cells are read have to be the same before and after
(`Pred.arraysRead`); all other uses of a name, arguments included, are followed exactly.

Fuel plays no part in the comparison: `EvalM.Gives` says that some amount is enough, and the rules
for the parts of an expression are then equivalences.
-/

set_option autoImplicit false

namespace Contracts

/-! ## Results whatever the fuel -/

namespace EvalM

variable {α β : Type}

/-- With some amount of fuel the computation gives the result. -/
def Gives (x : EvalM α) (a : α) : Prop := ∃ fuel left, x fuel = .ok (a, left)

theorem Gives.unique {x : EvalM α} (hx : Frugal x) {a a' : α} (h : x.Gives a) (h' : x.Gives a') :
    a = a' := by
  obtain ⟨fuel, left, h⟩ := h
  obtain ⟨fuel', left', h'⟩ := h'
  exact hx.unique h h'

theorem Gives.eased {x y : EvalM α} {a : α} (h : x.Gives a) (hxy : Eased x y) : y.Gives a := by
  obtain ⟨fuel, left, h⟩ := h
  obtain ⟨spare, hy⟩ := hxy fuel a left h
  exact ⟨fuel, left + spare, hy⟩

/-- What two computations give, they give one after the other: the fuel is that of both. -/
theorem Gives.seq {x : EvalM α} {y : EvalM β} (hx : Frugal x) (hy : Frugal y) {a : α} {c : β}
    (h : x.Gives a) (h' : y.Gives c) :
    ∃ fuel fuel₁ left, x fuel = .ok (a, fuel₁) ∧ y fuel₁ = .ok (c, left) := by
  obtain ⟨fuel, left, h⟩ := h
  obtain ⟨fuel', left', h'⟩ := h'
  refine ⟨fuel + fuel', left + fuel', left' + left, hx.more_ok h fuel', ?_⟩
  rw [Nat.add_comm left]
  exact hy.more_ok h' left

theorem gives_pure {a a' : α} : (pure a : EvalM α).Gives a' ↔ a' = a := by
  constructor
  · rintro ⟨fuel, left, h⟩
    cases pure_eq_ok.mp h
    rfl
  · rintro rfl
    exact ⟨0, 0, rfl⟩

theorem not_gives_throw {e : RunError} {a : α} : ¬(throw e : EvalM α).Gives a := by
  rintro ⟨fuel, left, h⟩
  exact throw_ne_ok h

theorem gives_cond {x : EvalM Bool} {y z : EvalM α} (hx : Frugal x) (hy : Frugal y)
    (hz : Frugal z) {a : α} : (do if ← x then y else z : EvalM α).Gives a ↔
      (x.Gives true ∧ y.Gives a) ∨ (x.Gives false ∧ z.Gives a) := by
  constructor
  · rintro ⟨fuel, left, h⟩
    obtain ⟨fuel₁, ⟨ht, ha⟩ | ⟨ht, ha⟩⟩ := cond_eq_ok.mp h
    · exact .inl ⟨⟨fuel, fuel₁, ht⟩, fuel₁, left, ha⟩
    · exact .inr ⟨⟨fuel, fuel₁, ht⟩, fuel₁, left, ha⟩
  · rintro (⟨ht, ha⟩ | ⟨ht, ha⟩)
    · obtain ⟨fuel, fuel₁, left, ht, ha⟩ := ht.seq hx hy ha
      exact ⟨fuel, left, cond_eq_ok.mpr ⟨fuel₁, .inl ⟨ht, ha⟩⟩⟩
    · obtain ⟨fuel, fuel₁, left, ht, ha⟩ := ht.seq hx hz ha
      exact ⟨fuel, left, cond_eq_ok.mpr ⟨fuel₁, .inr ⟨ht, ha⟩⟩⟩

end EvalM

/-! ### Expressions and arguments -/

/-- The length that a call asks for, from the values of its arguments. -/
def arrayLength? : String → List Value → Option Int64
  | "length", [.array c] => some c.length
  | _, _ => none

/-- What a call returns for the values of its arguments. -/
def Program.CallReturns (p : Program) (b : Below) (f : String) (values : List Value)
    (v : Int64) : Prop :=
  arrayLength? f values = some v ∨
    arrayLength? f values = none ∧ (callFunction p b f values.length (pure values)).Gives [.int v]

/-- The expression stands for the value where it is an argument. -/
def Expr.Passes (p : Program) (b : Below) (s : State) (e : Expr) (w : Value) : Prop :=
  (e.operand p b s).Gives w

section

variable {p : Program} {b : Below} {s : State}

theorem Expr.gives_const {n v : Int64} : ((Expr.const n).eval p b s).Gives v ↔ v = n := by
  rw [Expr.eval]
  exact EvalM.gives_pure

theorem Expr.gives_var {x : String} {v : Int64} :
    ((Expr.var x).eval p b s).Gives v ↔ s[x]? = some (.int v) := by
  rw [Expr.eval]
  constructor
  · rintro ⟨fuel, left, h⟩
    exact (readVar_eq_ok.mp h).1
  · intro h
    exact ⟨0, 0, readVar_eq_ok.mpr ⟨h, rfl⟩⟩

theorem Expr.gives_neg {e : Expr} {v : Int64} : ((Expr.neg e).eval p b s).Gives v ↔
    ∃ u, (e.eval p b s).Gives u ∧ negWord? u = some v := by
  constructor
  · rintro ⟨fuel, left, h⟩
    obtain ⟨u, hu, hv⟩ := Expr.eval_neg_eq_ok.mp h
    exact ⟨u, ⟨fuel, left, hu⟩, hv⟩
  · rintro ⟨u, ⟨fuel, left, hu⟩, hv⟩
    exact ⟨fuel, left, Expr.eval_neg_eq_ok.mpr ⟨u, hu, hv⟩⟩

theorem Expr.gives_binary (hb : b.Frugal) {op : ArithOp} {x y : Expr} {v : Int64} :
    ((Expr.binary op x y).eval p b s).Gives v ↔
      ∃ m n, (x.eval p b s).Gives m ∧ (y.eval p b s).Gives n ∧ op.onWord? m n = some v := by
  constructor
  · rintro ⟨fuel, left, h⟩
    obtain ⟨m, fuel₁, n, hm, hn, hv⟩ := Expr.eval_binary_eq_ok.mp h
    exact ⟨m, n, ⟨fuel, fuel₁, hm⟩, ⟨fuel₁, left, hn⟩, hv⟩
  · rintro ⟨m, n, hm, hn, hv⟩
    obtain ⟨fuel, fuel₁, left, hm, hn⟩ :=
      hm.seq (Expr.frugal_eval hb s x) (Expr.frugal_eval hb s y) hn
    exact ⟨fuel, left, Expr.eval_binary_eq_ok.mpr ⟨m, fuel₁, n, hm, hn, hv⟩⟩

theorem Expr.gives_read {a : String} {i : Expr} {v : Int64} :
    ((Expr.read a i).eval p b s).Gives v ↔
      ∃ k c, (i.eval p b s).Gives k ∧ s[a]? = some (.array c) ∧ v = c.read k := by
  constructor
  · rintro ⟨fuel, left, h⟩
    obtain ⟨k, c, hk, hc, hv⟩ := Expr.eval_read_eq_ok.mp h
    exact ⟨k, c, ⟨fuel, left, hk⟩, hc, hv⟩
  · rintro ⟨k, c, ⟨fuel, left, hk⟩, hc, hv⟩
    exact ⟨fuel, left, Expr.eval_read_eq_ok.mpr ⟨k, c, hk, hc, hv⟩⟩

theorem Expr.gives_cond (hb : b.Frugal) {t : Pred} {x y : Expr} {v : Int64} :
    ((Expr.cond t x y).eval p b s).Gives v ↔
      ((t.eval p b s).Gives true ∧ (x.eval p b s).Gives v) ∨
        ((t.eval p b s).Gives false ∧ (y.eval p b s).Gives v) := by
  rw [Expr.eval]
  exact EvalM.gives_cond (Pred.frugal_eval hb s t) (Expr.frugal_eval hb s x)
    (Expr.frugal_eval hb s y)

theorem Expr.passes_array {e : Expr} {c : Cells} :
    e.Passes p b s (.array c) ↔ e.array? s = some c := by
  constructor
  · rintro ⟨fuel, left, h⟩
    rcases Expr.operand_eq_ok.mp h with ⟨c', hc', hr⟩ | ⟨-, n, -, hr⟩
    · cases hr
      exact hc'
    · cases hr
  · intro h
    exact ⟨0, 0, Expr.operand_eq_ok.mpr (.inl ⟨c, h, rfl⟩)⟩

theorem Expr.passes_int {e : Expr} {v : Int64} :
    e.Passes p b s (.int v) ↔ (e.eval p b s).Gives v := by
  constructor
  · rintro ⟨fuel, left, h⟩
    rcases Expr.operand_eq_ok.mp h with ⟨c, -, hr⟩ | ⟨-, n, hn, hr⟩
    · cases hr
    · cases hr
      exact ⟨fuel, left, hn⟩
  · rintro ⟨fuel, left, h⟩
    exact ⟨fuel, left, Expr.operand_eq_ok.mpr (.inr ⟨Expr.array?_of_eval h, v, h, rfl⟩)⟩

/-- A name as an argument stands for what it holds. -/
theorem Expr.passes_var {x : String} {w : Value} :
    (Expr.var x).Passes p b s w ↔ s[x]? = some w := by
  cases w with
  | int v => rw [Expr.passes_int, Expr.gives_var]
  | array c =>
    rw [Expr.passes_array, Expr.array?_eq_some]
    simp only [Expr.var.injEq, exists_eq_left']

theorem Expr.frugal_operand (hb : b.Frugal) (e : Expr) : (e.operand p b s).Frugal := by
  unfold Expr.operand
  split
  · exact .pure _
  · exact (Expr.frugal_eval hb s e).map _

theorem Expr.gives_operands (hb : b.Frugal) : ∀ {es : List Expr} {values : List Value},
    (Expr.operands p b s es).Gives values ↔ List.Forall₂ (Expr.Passes p b s) es values
  | [], values => by
    rw [Expr.operands, EvalM.gives_pure, List.forall₂_nil_left_iff]
  | e :: es, values => by
    rw [List.forall₂_cons_left_iff]
    constructor
    · rintro ⟨fuel, left, h⟩
      obtain ⟨w, fuel₁, ws, hw, hws, hr⟩ := Expr.operands_cons_eq_ok.mp h
      exact ⟨w, ws, ⟨fuel, fuel₁, hw⟩, (Expr.gives_operands hb).mp ⟨fuel₁, left, hws⟩, hr⟩
    · rintro ⟨w, ws, hw, hws, hr⟩
      obtain ⟨fuel, fuel₁, left, hw, hws⟩ := EvalM.Gives.seq (Expr.frugal_operand hb e)
        (Expr.frugal_operands hb s es) hw ((Expr.gives_operands hb).mpr hws)
      exact ⟨fuel, left, Expr.operands_cons_eq_ok.mpr ⟨w, fuel₁, ws, hw, hws, hr⟩⟩

/-- Whether a call asks for a length can be seen from the values of its arguments. -/
theorem askedLength?_of_passes (f : String) {es : List Expr} {values : List Value}
    (h : List.Forall₂ (Expr.Passes p b s) es values) :
    askedLength? s f es = arrayLength? f values := by
  unfold askedLength?
  split
  · next e =>
    obtain ⟨w, ws, hw, hws, rfl⟩ := List.forall₂_cons_left_iff.mp h
    cases hws
    cases w with
    | array c => rw [Expr.passes_array.mp hw, Option.map_some, arrayLength?]
    | int n =>
      obtain ⟨fuel, left, hn⟩ := Expr.passes_int.mp hw
      rw [Expr.array?_of_eval hn, Option.map_none]
      rfl
  · next hother =>
    unfold arrayLength?
    split
    · next c =>
      obtain ⟨e, es', -, hes', rfl⟩ := List.forall₂_cons_right_iff.mp h
      cases hes'
      exact (hother e rfl rfl).elim
    · rfl

/-- A call depends on the state through the values of its arguments only. -/
theorem Expr.gives_call (hb : b.Frugal) {f : String} {es : List Expr} {v : Int64} :
    ((Expr.call f es).eval p b s).Gives v ↔
      ∃ values, List.Forall₂ (Expr.Passes p b s) es values ∧ p.CallReturns b f values v := by
  constructor
  · rintro ⟨fuel, left, h⟩
    rcases Expr.eval_call_eq_ok.mp h with ⟨hlen, -⟩ | ⟨hnone, hcall⟩
    · obtain ⟨-, a, c, rfl, ha, -⟩ := askedLength?_eq_some hlen
      have hpass : List.Forall₂ (Expr.Passes p b s) [.var a] [.array c] :=
        .cons (Expr.passes_var.mpr ha) .nil
      exact ⟨_, hpass, .inl (askedLength?_of_passes f hpass ▸ hlen)⟩
    · obtain ⟨values, fuel₁, hvalues, hcall⟩ := callFunction_operands hcall
      have hpass := (Expr.gives_operands hb).mp ⟨fuel, fuel₁, hvalues⟩
      exact ⟨values, hpass, .inr ⟨askedLength?_of_passes f hpass ▸ hnone, fuel₁, left, hcall⟩⟩
  · rintro ⟨values, hpass, hlen | ⟨hnone, fuel', left', hcall⟩⟩
    · rw [← askedLength?_of_passes f hpass] at hlen
      exact ⟨0, 0, Expr.eval_call_eq_ok.mpr (.inl ⟨hlen, rfl⟩)⟩
    · obtain ⟨g, hg, hn, _, fuel₁, final, hpure, hrun, hr⟩ := callFunction_eq_ok.mp hcall
      cases EvalM.pure_eq_ok.mp hpure
      obtain ⟨fuel, fuel₁, left, hvalues, hrun⟩ := EvalM.Gives.seq (Expr.frugal_operands hb s es)
        (hb.run g _) ((Expr.gives_operands hb).mpr hpass) ⟨fuel', left', hrun⟩
      rw [← askedLength?_of_passes f hpass] at hnone
      refine ⟨fuel, left, Expr.eval_call_eq_ok.mpr (.inr ⟨hnone, callFunction_eq_ok.mpr ?_⟩)⟩
      exact ⟨g, hg, hn.trans hpass.length_eq.symm, values, fuel₁, final, hvalues, hrun, hr⟩

/-! ### Predicates -/

theorem Pred.gives_bool {t r : Bool} : ((Pred.bool t).eval p b s).Gives r ↔ r = t := by
  rw [Pred.eval]
  exact EvalM.gives_pure

theorem Pred.gives_compare (hb : b.Frugal) {op : CmpOp} {x y : Expr} {r : Bool} :
    ((Pred.compare op x y).eval p b s).Gives r ↔
      ∃ m n, (x.eval p b s).Gives m ∧ (y.eval p b s).Gives n ∧ r = op.holds m.toInt n.toInt := by
  constructor
  · rintro ⟨fuel, left, h⟩
    obtain ⟨m, fuel₁, n, hm, hn, hr⟩ := Pred.eval_compare_eq_ok.mp h
    exact ⟨m, n, ⟨fuel, fuel₁, hm⟩, ⟨fuel₁, left, hn⟩, hr⟩
  · rintro ⟨m, n, hm, hn, hr⟩
    obtain ⟨fuel, fuel₁, left, hm, hn⟩ :=
      hm.seq (Expr.frugal_eval hb s x) (Expr.frugal_eval hb s y) hn
    exact ⟨fuel, left, Pred.eval_compare_eq_ok.mpr ⟨m, fuel₁, n, hm, hn, hr⟩⟩

theorem Pred.gives_not {q : Pred} {r : Bool} :
    ((Pred.not q).eval p b s).Gives r ↔ (q.eval p b s).Gives (!r) :=
  exists_congr fun _ => exists_congr fun _ => Pred.eval_not_eq_ok

theorem Pred.gives_and (hb : b.Frugal) {q q' : Pred} {r : Bool} :
    ((Pred.and q q').eval p b s).Gives r ↔
      ((q.eval p b s).Gives true ∧ (q'.eval p b s).Gives r) ∨
        ((q.eval p b s).Gives false ∧ r = false) := by
  rw [Pred.eval, EvalM.gives_cond (Pred.frugal_eval hb s q) (Pred.frugal_eval hb s q') (.pure _),
    EvalM.gives_pure]

theorem Pred.gives_or (hb : b.Frugal) {q q' : Pred} {r : Bool} :
    ((Pred.or q q').eval p b s).Gives r ↔
      ((q.eval p b s).Gives true ∧ r = true) ∨
        ((q.eval p b s).Gives false ∧ (q'.eval p b s).Gives r) := by
  rw [Pred.eval, EvalM.gives_cond (Pred.frugal_eval hb s q) (.pure _) (Pred.frugal_eval hb s q'),
    EvalM.gives_pure]

theorem Pred.gives_implies (hb : b.Frugal) {q q' : Pred} {r : Bool} :
    ((Pred.implies q q').eval p b s).Gives r ↔
      ((q.eval p b s).Gives true ∧ (q'.eval p b s).Gives r) ∨
        ((q.eval p b s).Gives false ∧ r = true) := by
  rw [Pred.eval, EvalM.gives_cond (Pred.frugal_eval hb s q) (Pred.frugal_eval hb s q') (.pure _),
    EvalM.gives_pure]

theorem Pred.gives_paren {q : Pred} {r : Bool} :
    ((Pred.paren q).eval p b s).Gives r ↔ (q.eval p b s).Gives r := by
  rw [Pred.eval]

theorem Pred.not_gives_quantified {k : Quantifier} {x : Param} {q : Pred} {r : Bool} :
    ¬((Pred.quantified k x q).eval p b s).Gives r := by
  rw [Pred.eval]
  exact EvalM.not_gives_throw

theorem Pred.gives_formula (hb : b.Frugal) {f : String} {es : List Expr} {r : Bool} :
    ((Pred.formula f es).eval p b s).Gives r ↔
      ∃ values, List.Forall₂ (Expr.Passes p b s) es values ∧
        (holdsFormula p b f values.length (pure values)).Gives r := by
  rw [Pred.eval]
  constructor
  · rintro ⟨fuel, left, h⟩
    obtain ⟨values, fuel₁, hvalues, hr⟩ := holdsFormula_operands h
    exact ⟨values, (Expr.gives_operands hb).mp ⟨fuel, fuel₁, hvalues⟩, fuel₁, left, hr⟩
  · rintro ⟨values, hpass, fuel', left', h⟩
    obtain ⟨d, hd, hn, holds, hh, _, fuel₁, hpure, hbody⟩ := holdsFormula_eq_ok.mp h
    cases EvalM.pure_eq_ok.mp hpure
    obtain ⟨fuel, fuel₁, left, hvalues, hbody⟩ := EvalM.Gives.seq (Expr.frugal_operands hb s es)
      (hb.holds holds hh _ _) ((Expr.gives_operands hb).mpr hpass) ⟨fuel', left', hbody⟩
    refine ⟨fuel, left, holdsFormula_eq_ok.mpr ?_⟩
    exact ⟨d, hd, hn.trans hpass.length_eq.symm, holds, hh, values, fuel₁, hvalues, hbody⟩

end

/-! ## Substitution -/

mutual

/-- The arrays whose cells the expression reads, one entry for each read. -/
def Expr.arraysRead : Expr → List String
  | .const _ | .var _ => []
  | .neg e => e.arraysRead
  | .binary _ x y => x.arraysRead ++ y.arraysRead
  | .read a i => a :: i.arraysRead
  | .call _ args => Expr.arraysReadAll args
  | .cond t x y => t.arraysRead ++ x.arraysRead ++ y.arraysRead

def Expr.arraysReadAll : List Expr → List String
  | [] => []
  | e :: es => e.arraysRead ++ Expr.arraysReadAll es

/-- The arrays whose cells the predicate reads. Quantifiers are left out, because no evaluation goes
into one. -/
def Pred.arraysRead : Pred → List String
  | .bool _ => []
  | .compare _ x y => x.arraysRead ++ y.arraysRead
  | .not q | .paren q => q.arraysRead
  | .and q r | .or q r | .implies q r => q.arraysRead ++ r.arraysRead
  | .quantified .. => []
  | .formula _ args => Expr.arraysReadAll args

end

/-- An array that the name holds in the second state is the one that it holds in the first. -/
def State.KeepsArray (s s' : State) (a : String) : Prop :=
  ∀ c, s'[a]? = some (.array c) → s[a]? = some (.array c)

/-- What is put in for the name stands in the first state for what the name holds in the second. -/
def Bindings.Supplies (p : Program) (b : Below) (m : Bindings) (s s' : State) (x : String) :
    Prop :=
  ∀ w, s'[x]? = some w → ((m.lookup x).getD (.var x)).Passes p b s w

section

variable {p : Program} {b : Below} {m : Bindings} {s s' : State}

/-- An argument stands for the same value after the substitution if it evaluates to the same. -/
theorem Expr.Passes.subst {e : Expr} (hm : ∀ x ∈ e.free, m.Supplies p b s s' x)
    (heval : ∀ v, (e.eval p b s').Gives v → ((e.subst m).eval p b s).Gives v) {w : Value}
    (h : e.Passes p b s' w) : (e.subst m).Passes p b s w := by
  cases w with
  | int v => exact Expr.passes_int.mpr (heval v (Expr.passes_int.mp h))
  | array c =>
    -- only a bare name stands for an array
    obtain ⟨x, rfl, hx⟩ := Expr.array?_eq_some.mp (Expr.passes_array.mp h)
    rw [Expr.subst]
    exact hm x (by rw [Expr.free]; exact List.mem_singleton_self x) _ hx

mutual

theorem Expr.gives_subst (hb : b.Frugal) : ∀ {e : Expr} {v : Int64},
    (∀ x ∈ e.free, m.Supplies p b s s' x) → (∀ a ∈ e.arraysRead, s.KeepsArray s' a) →
      (e.eval p b s').Gives v → ((e.subst m).eval p b s).Gives v
  | .const n, _, _, _, h => by
    rw [Expr.subst]
    exact Expr.gives_const.mpr (Expr.gives_const.mp h)
  | .var x, _, hm, _, h => by
    rw [Expr.subst]
    exact Expr.passes_int.mp (hm x (by rw [Expr.free]; exact List.mem_singleton_self x) _
      (Expr.gives_var.mp h))
  | .neg e, _, hm, hk, h => by
    rw [Expr.subst]
    obtain ⟨u, hu, hv⟩ := Expr.gives_neg.mp h
    exact Expr.gives_neg.mpr ⟨u, Expr.gives_subst hb (e := e) hm hk hu, hv⟩
  | .binary op x y, _, hm, hk, h => by
    rw [Expr.free, List.forall_mem_append] at hm
    rw [Expr.arraysRead, List.forall_mem_append] at hk
    rw [Expr.subst]
    obtain ⟨k, n, hx, hy, hv⟩ := (Expr.gives_binary hb).mp h
    exact (Expr.gives_binary hb).mpr
      ⟨k, n, Expr.gives_subst hb hm.1 hk.1 hx, Expr.gives_subst hb hm.2 hk.2 hy, hv⟩
  | .read a i, _, hm, hk, h => by
    rw [Expr.free, List.forall_mem_cons] at hm
    rw [Expr.arraysRead, List.forall_mem_cons] at hk
    rw [Expr.subst]
    obtain ⟨k, c, hi, hc, hv⟩ := Expr.gives_read.mp h
    exact Expr.gives_read.mpr ⟨k, c, Expr.gives_subst hb hm.2 hk.2 hi, hk.1 c hc, hv⟩
  | .call f args, _, hm, hk, h => by
    rw [Expr.subst]
    obtain ⟨values, hvalues, hv⟩ := (Expr.gives_call hb).mp h
    exact (Expr.gives_call hb).mpr ⟨values, Expr.passes_substList hb hm hk hvalues, hv⟩
  | .cond t x y, _, hm, hk, h => by
    simp only [Expr.free, List.forall_mem_append] at hm
    simp only [Expr.arraysRead, List.forall_mem_append] at hk
    rw [Expr.subst]
    refine (Expr.gives_cond hb).mpr (((Expr.gives_cond hb).mp h).imp ?_ ?_)
    · exact fun ⟨ht, hx⟩ =>
        ⟨Pred.gives_subst hb hm.1.1 hk.1.1 ht, Expr.gives_subst hb hm.1.2 hk.1.2 hx⟩
    · exact fun ⟨ht, hy⟩ =>
        ⟨Pred.gives_subst hb hm.1.1 hk.1.1 ht, Expr.gives_subst hb hm.2 hk.2 hy⟩

theorem Expr.passes_substList (hb : b.Frugal) : ∀ {es : List Expr} {values : List Value},
    (∀ x ∈ Expr.freeList es, m.Supplies p b s s' x) →
      (∀ a ∈ Expr.arraysReadAll es, s.KeepsArray s' a) →
        List.Forall₂ (Expr.Passes p b s') es values →
          List.Forall₂ (Expr.Passes p b s) (Expr.substList m es) values
  | [], _, _, _, h => by
    rw [Expr.substList]
    cases h
    exact .nil
  | e :: es, _, hm, hk, h => by
    rw [Expr.freeList, List.forall_mem_append] at hm
    rw [Expr.arraysReadAll, List.forall_mem_append] at hk
    rw [Expr.substList]
    obtain ⟨w, ws, hw, hws, rfl⟩ := List.forall₂_cons_left_iff.mp h
    exact .cons (hw.subst hm.1 fun v => Expr.gives_subst hb hm.1 hk.1)
      (Expr.passes_substList hb hm.2 hk.2 hws)

/-- What a predicate evaluates to in the second state, it evaluates to after the substitution in the
first. -/
theorem Pred.gives_subst (hb : b.Frugal) : ∀ {q : Pred} {r : Bool},
    (∀ x ∈ q.free, m.Supplies p b s s' x) → (∀ a ∈ q.arraysRead, s.KeepsArray s' a) →
      (q.eval p b s').Gives r → ((q.subst m).eval p b s).Gives r
  | .bool t, _, _, _, h => by
    rw [Pred.subst]
    exact Pred.gives_bool.mpr (Pred.gives_bool.mp h)
  | .compare op x y, _, hm, hk, h => by
    rw [Pred.free, List.forall_mem_append] at hm
    rw [Pred.arraysRead, List.forall_mem_append] at hk
    rw [Pred.subst]
    obtain ⟨k, n, hx, hy, hr⟩ := (Pred.gives_compare hb).mp h
    exact (Pred.gives_compare hb).mpr
      ⟨k, n, Expr.gives_subst hb hm.1 hk.1 hx, Expr.gives_subst hb hm.2 hk.2 hy, hr⟩
  | .not q, _, hm, hk, h => by
    rw [Pred.subst]
    exact Pred.gives_not.mpr (Pred.gives_subst hb (q := q) hm hk (Pred.gives_not.mp h))
  | .and q q', _, hm, hk, h => by
    rw [Pred.free, List.forall_mem_append] at hm
    rw [Pred.arraysRead, List.forall_mem_append] at hk
    rw [Pred.subst]
    refine (Pred.gives_and hb).mpr (((Pred.gives_and hb).mp h).imp ?_ ?_)
    · exact fun ⟨hq, hr⟩ => ⟨Pred.gives_subst hb hm.1 hk.1 hq, Pred.gives_subst hb hm.2 hk.2 hr⟩
    · exact fun ⟨hq, hr⟩ => ⟨Pred.gives_subst hb hm.1 hk.1 hq, hr⟩
  | .or q q', _, hm, hk, h => by
    rw [Pred.free, List.forall_mem_append] at hm
    rw [Pred.arraysRead, List.forall_mem_append] at hk
    rw [Pred.subst]
    refine (Pred.gives_or hb).mpr (((Pred.gives_or hb).mp h).imp ?_ ?_)
    · exact fun ⟨hq, hr⟩ => ⟨Pred.gives_subst hb hm.1 hk.1 hq, hr⟩
    · exact fun ⟨hq, hr⟩ => ⟨Pred.gives_subst hb hm.1 hk.1 hq, Pred.gives_subst hb hm.2 hk.2 hr⟩
  | .implies q q', _, hm, hk, h => by
    rw [Pred.free, List.forall_mem_append] at hm
    rw [Pred.arraysRead, List.forall_mem_append] at hk
    rw [Pred.subst]
    refine (Pred.gives_implies hb).mpr (((Pred.gives_implies hb).mp h).imp ?_ ?_)
    · exact fun ⟨hq, hr⟩ => ⟨Pred.gives_subst hb hm.1 hk.1 hq, Pred.gives_subst hb hm.2 hk.2 hr⟩
    · exact fun ⟨hq, hr⟩ => ⟨Pred.gives_subst hb hm.1 hk.1 hq, hr⟩
  | .paren q, _, hm, hk, h => by
    rw [Pred.subst]
    exact Pred.gives_paren.mpr (Pred.gives_subst hb (q := q) hm hk (Pred.gives_paren.mp h))
  | .quantified _ _ _, _, _, _, h => absurd h Pred.not_gives_quantified
  | .formula f args, _, hm, hk, h => by
    rw [Pred.subst]
    obtain ⟨values, hvalues, hr⟩ := (Pred.gives_formula hb).mp h
    exact (Pred.gives_formula hb).mpr ⟨values, Expr.passes_substList hb hm hk hvalues, hr⟩

end

end

/-! ## Assignments -/

theorem State.getElem?_insertAll_of_not_mem {s : State} {xs : List String} {values : List Value}
    {x : String} (hx : x ∉ xs) : (s.insertAll (xs.zip values))[x]? = s[x]? := by
  have hnone : (xs.zip values).reverse.lookup x = none := by
    refine List.lookup_eq_none_iff.mpr fun b hb => bne_iff_ne.mpr ?_
    rintro rfl
    exact hx (List.of_mem_zip (List.mem_reverse.mp hb)).1
  rw [State.getElem?_insertAll, hnone, Option.none_or]

section

variable {p : Program} {b : Below} {s s' : State} {q w : Pred}

/-- Simplification does not come between two results. -/
theorem Pred.eq_of_gives_simplify (hb : b.Frugal) {r c : Bool} (h : (q.eval p b s).Gives r)
    (h' : (q.simplify.eval p b s).Gives c) : r = c :=
  (h.eased (Pred.eased_simplify hb s q)).unique (Pred.frugal_eval hb s _) h'

/-- The expressions of an assignment supply what the variables hold afterwards. -/
theorem Bindings.supplies_ofPairs {es : List Expr} {values : List Value}
    (h : List.Forall₂ (Expr.Passes p b s) es values) (xs : List String) (x : String) :
    (Bindings.ofPairs (xs.zip es)).Supplies p b s (s.insertAll (xs.zip values)) x := by
  intro v hv
  rw [State.getElem?_insertAll] at hv
  rw [Bindings.lookup_ofPairs]
  have hrel := rel_lookup_zip h xs x
  generalize (xs.zip es).reverse.lookup x = e at hrel
  generalize (xs.zip values).reverse.lookup x = v' at hrel hv
  cases hrel with
  | none => exact Expr.passes_var.mpr hv
  | some hpass =>
    cases hv
    exact hpass

/-- Unknown values are quantified, so there is nothing to evaluate. -/
theorem Pred.not_gives_havoc_vars {xs : List String} (hxs : 0 < xs.length) {c : Bool} :
    ¬((havoc (xs.map Target.var) q).simplify.eval p b s).Gives c := by
  rw [havoc_vars]
  obtain ⟨t, ts, hts⟩ : ∃ t ts, unknownNames xs q = t :: ts := by
    refine List.exists_cons_of_length_pos ?_
    rwa [length_unknownNames]
  rw [hts, List.foldr_cons, Pred.forall_, Pred.simplify]
  exact Pred.not_gives_quantified

/-- What is put in for variables evaluates before an assignment to what it evaluates to after it. -/
theorem Pred.gives_subst_vars (hb : b.Frugal) {xs : List String} {es : List Expr}
    {values : List Value} (hvalues : List.Forall₂ (Expr.Passes p b s) es values)
    (hread : ∀ x ∈ xs, x ∈ q.arraysRead → s.KeepsArray (s.insertAll (xs.zip values)) x) {r : Bool}
    (h : (q.eval p b (s.insertAll (xs.zip values))).Gives r) :
    ((q.subst (.ofPairs (xs.zip es))).eval p b s).Gives r := by
  refine Pred.gives_subst hb (fun x _ => Bindings.supplies_ofPairs hvalues xs x) (fun a ha => ?_) h
  by_cases hmem : a ∈ xs
  · exact hread a hmem ha
  · intro c hc
    rwa [State.getElem?_insertAll_of_not_mem hmem] at hc

/-- The predicate before an assignment to variables evaluates to what the predicate evaluates to
after it, if there is anything to evaluate. -/
theorem Pred.gives_wpAssign_vars (hb : b.Frugal) {xs : List String} {es : List Expr}
    {fuel left : Nat} (hexec : execAssign p b (xs.map .var) es s fuel = .ok (s', left))
    (hread : ∀ x ∈ xs, x ∈ q.arraysRead → s.KeepsArray s' x)
    (hw : wpAssign (xs.map .var) es q = .ok w) {r c : Bool} (hr : (q.eval p b s').Gives r)
    (hc : (w.simplify.eval p b s).Gives c) : (w.eval p b s).Gives r := by
  obtain ⟨values, fuel', hvalues, -, rfl⟩ := execAssign_vars hexec
  rcases wpAssign_vars hw with ⟨rfl, rfl⟩ | ⟨hlen, -, rfl⟩ | ⟨hform, rfl⟩
  · -- a call for its own sake changes nothing
    exact hr
  · -- several results of one call are quantified, which `hc` excludes
    exact absurd hc (Pred.not_gives_havoc_vars (by omega))
  · rw [assignedValues_of_operands hform] at hvalues
    exact Pred.gives_subst_vars hb ((Expr.gives_operands hb).mp ⟨fuel, fuel', hvalues⟩) hread hr

end

/-- **Variables that receive numbers or whole arrays.** After an assignment to variables a predicate
evaluates to what the predicate worked out for the assignment evaluates to before it, whatever is
assigned, if no variable whose cells the predicate reads comes to hold another array. -/
theorem variables_wp_agrees (p : Program) (n : Nat) (close : Bool) (xs : List String)
    (es : List Expr) (q w : Pred) (s s' : State) (r c : Bool)
    (fuel₁ fuel₂ fuel₃ left₁ left₂ left₃ : Nat)
    (hread : ∀ x ∈ xs, x ∈ q.arraysRead → s.KeepsArray s' x)
    (hwp : (Stmt.assign (xs.map .var) es).wp close q = .ok w)
    (hexec : (Stmt.assign (xs.map .var) es).exec p (below p n) s fuel₁ = .ok (s', left₁))
    (hq : q.eval p (below p n) s' fuel₂ = .ok (r, left₂))
    (hw : w.eval p (below p n) s fuel₃ = .ok (c, left₃)) : r = c := by
  have hb := frugal_below p n
  rw [Stmt.exec] at hexec
  obtain ⟨w₀, hw₀, rfl⟩ := Stmt.wp_assign_eq_ok.mp hwp
  have hc : (w₀.simplify.eval p (below p n) s).Gives c := ⟨fuel₃, left₃, hw⟩
  have hr := Pred.gives_wpAssign_vars hb hexec hread hw₀ ⟨fuel₂, left₂, hq⟩ hc
  exact Pred.eq_of_gives_simplify hb hr hc

/-! ### An array under a new name -/

/-- A formula about the first cell of its argument. -/
def startsAtSeven : FormulaDef :=
  ⟨"starts", [⟨"a", .array⟩], .compare .eq (.read "a" (.const 0)) (.const 7)⟩

def handoverProgram : Program := ⟨[], [startsAtSeven]⟩

/-- The array `b` goes to `a` and to itself, and its length to `x`. -/
def handover : Stmt :=
  .assign (["a", "b", "x"].map .var) [.var "b", .var "b", .call "length" [.var "b"]]

/-- The array `a` is an argument and `b` is read at a cell. -/
def handoverGoal : Pred :=
  .and (.formula "starts" [.var "a"])
    (.and (.compare .eq (.call "length" [.var "a"]) (.var "x"))
      (.compare .gt (.read "b" (.const 0)) (.var "x")))

/-- What is worked out for it; the comparison of a length with itself is gone. -/
def handoverBefore : Pred :=
  .and (.formula "starts" [.var "b"])
    (.compare .gt (.read "b" (.const 0)) (.call "length" [.var "b"]))

/-- The array `a` is empty and `b` has one cell. -/
def handoverStart : State :=
  State.ofPairs [("a", .array ∅), ("b", .array (Cells.write ∅ 0 7)), ("x", .int 0)]

/-- Both arrays have the one cell. -/
def handoverEnd : State :=
  handoverStart.insertAll
    [("a", .array (Cells.write ∅ 0 7)), ("b", .array (Cells.write ∅ 0 7)), ("x", .int 1)]

/-- The whole array is followed into a formula and into a length. -/
theorem variables_wp_agrees_handover :
    handover.wp false handoverGoal = .ok handoverBefore ∧
    handover.exec handoverProgram (below handoverProgram 1) handoverStart 0 =
      .ok (handoverEnd, 0) ∧
    handoverGoal.eval handoverProgram (below handoverProgram 1) handoverEnd 0 = .ok (true, 0) ∧
    handoverBefore.eval handoverProgram (below handoverProgram 1) handoverStart 0 =
      .ok (true, 0) ∧
    ∀ fuel c left, handoverBefore.eval handoverProgram (below handoverProgram 1) handoverStart
      fuel = .ok (c, left) → true = c := by
  have hwp : handover.wp false handoverGoal = .ok handoverBefore := by cbv
  have hexec : handover.exec handoverProgram (below handoverProgram 1) handoverStart 0 =
      .ok (handoverEnd, 0) := by cbv
  have hgoal : handoverGoal.eval handoverProgram (below handoverProgram 1) handoverEnd 0 =
      .ok (true, 0) := by cbv
  refine ⟨hwp, hexec, hgoal, by cbv, fun fuel c left hc => ?_⟩
  refine variables_wp_agrees handoverProgram 1 false _ _ _ _ _ _ _ _ _ _ _ _ _ _ ?_ hwp hexec
    hgoal hc
  intro x _ hx
  obtain rfl : x = "b" := List.mem_singleton.mp hx
  -- the array that is read is assigned to itself
  have hstart : handoverStart["b"]? = some (.array (Cells.write ∅ 0 7)) := by cbv
  have hend : handoverEnd["b"]? = some (.array (Cells.write ∅ 0 7)) := by cbv
  intro cells hcells
  rw [hstart, ← hend, hcells]

/-- The array `b` goes to `x`, where the predicate reads a cell of `x`. -/
def overwrittenArray : Stmt := .assign [.var "x"] [.var "b"]

def overwrittenGoal : Pred := .compare .eq (.read "x" (.const 0)) (.const 1)

/-- The array `x` is empty. -/
def overwrittenStart : State :=
  State.ofPairs [("x", .array ∅), ("b", .array (Cells.write ∅ 0 1))]

/-- **A read of a whole array that is assigned is left as it was.** The predicate stays the same,
is true after the assignment and false before it. -/
theorem overwritten_array_read_kept :
    overwrittenArray.wp false overwrittenGoal = .ok overwrittenGoal ∧
    overwrittenArray.exec .empty (below .empty 0) overwrittenStart 0 =
      .ok (overwrittenStart.insert "x" (.array (Cells.write ∅ 0 1)), 0) ∧
    overwrittenGoal.eval .empty (below .empty 0)
      (overwrittenStart.insert "x" (.array (Cells.write ∅ 0 1))) 0 = .ok (true, 0) ∧
    overwrittenGoal.eval .empty (below .empty 0) overwrittenStart 0 = .ok (false, 0) := by
  refine ⟨by cbv, by cbv, by cbv, by cbv⟩

end Contracts

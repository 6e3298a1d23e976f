import Contracts.Proofs.Fuel
import Contracts.Proofs.StraightLine

/-!
# Simplification keeps what an evaluation gives

An evaluation can stop where the meaning goes on: at an overflow, at a zero divisor, at a name of
the wrong kind, at a quantifier, or because a called function uses up the fuel. Simplification leaves
parts out, so it can only do away with such stops. What an evaluation gives, it still gives for the
simplified predicate, from the same fuel and with no less of it left (`EvalM.Eased`).

Three facts carry the laws. Fuel that a dropped part would have used is there for what follows,
which does the same with more of it. An expression on both sides of a comparison has one value,
although the second evaluation starts with less fuel. And an expression that evaluates to a number
does not become the name of an array, so the arguments of a call are passed as before.
-/

set_option autoImplicit false

namespace Contracts

/-! ## Computations with work left out -/

namespace EvalM

variable {α β : Type}

/-- What the first computation gives, the second one gives as well, with no less fuel left. -/
def Eased (x y : EvalM α) : Prop :=
  ∀ fuel a left, x fuel = .ok (a, left) → ∃ spare, y fuel = .ok (a, left + spare)

theorem Eased.refl (x : EvalM α) : Eased x x := fun _ _ _ h => ⟨0, h⟩

theorem Eased.trans {x y z : EvalM α} (h : Eased x y) (h' : Eased y z) : Eased x z := by
  intro fuel a left hx
  obtain ⟨spare, hy⟩ := h fuel a left hx
  obtain ⟨spare', hz⟩ := h' fuel a _ hy
  exact ⟨spare + spare', by rw [hz, Nat.add_assoc]⟩

/-- A finished computation with more fuel. -/
theorem Frugal.more_ok {x : EvalM α} (hx : Frugal x) {fuel left : Nat} {a : α}
    (h : x fuel = .ok (a, left)) (spare : Nat) : x (fuel + spare) = .ok (a, left + spare) := by
  rw [hx.more fuel spare (by rw [h]; exact fun he => nomatch he), h]
  rfl

/-- Without the computation before it, a computation does the same and has fuel to spare. -/
theorem Frugal.skip {x : EvalM α} {y : EvalM β} (hx : Frugal x) (hy : Frugal y)
    {fuel fuel₁ left : Nat} {a : α} {c : β} (h : x fuel = .ok (a, fuel₁))
    (h' : y fuel₁ = .ok (c, left)) : ∃ spare, y fuel = .ok (c, left + spare) := by
  obtain ⟨spare, rfl⟩ := Nat.exists_eq_add_of_le (hx.le fuel _ h)
  exact ⟨spare, hy.more_ok h' spare⟩

/-- Two computations in sequence, both eased: the second starts with what the first one spares. -/
theorem Eased.seq {x x' : EvalM α} {y y' : EvalM β} (hx : Eased x x') (hy : Eased y y')
    (hy' : Frugal y') {fuel fuel₁ left : Nat} {a : α} {c : β} (h : x fuel = .ok (a, fuel₁))
    (h' : y fuel₁ = .ok (c, left)) :
    ∃ fuel₁' spare, x' fuel = .ok (a, fuel₁') ∧ y' fuel₁' = .ok (c, left + spare) := by
  obtain ⟨spare, hxa⟩ := hx fuel a fuel₁ h
  obtain ⟨spare', hyc⟩ := hy fuel₁ c left h'
  refine ⟨fuel₁ + spare, spare' + spare, hxa, ?_⟩
  rw [hy'.more_ok hyc spare, Nat.add_assoc]

theorem Eased.cond {x x' : EvalM Bool} {y y' z z' : EvalM α} (hx : Eased x x') (hy : Eased y y')
    (hz : Eased z z') (hy' : Frugal y') (hz' : Frugal z') :
    Eased (do if ← x then y else z) (do if ← x' then y' else z') := by
  intro fuel c left h
  obtain ⟨fuel₁, ⟨ht, hc⟩ | ⟨ht, hc⟩⟩ := cond_eq_ok.mp h
  · obtain ⟨fuel₁', spare, ht', hc'⟩ := hx.seq hy hy' ht hc
    exact ⟨spare, cond_eq_ok.mpr ⟨fuel₁', .inl ⟨ht', hc'⟩⟩⟩
  · obtain ⟨fuel₁', spare, ht', hc'⟩ := hx.seq hz hz' ht hc
    exact ⟨spare, cond_eq_ok.mpr ⟨fuel₁', .inr ⟨ht', hc'⟩⟩⟩

end EvalM

section

variable {p : Program} {b : Below} {s : State}

/-! ## Laws on expressions

Each law is a comparison of a node with what the law makes of it, whatever its parts are. -/

theorem Expr.eval_const_eq_ok {n : Int64} {fuel : Nat} {r : Int64 × Nat} :
    (Expr.const n).eval p b s fuel = .ok r ↔ r = (n, fuel) := by
  rw [Expr.eval, EvalM.pure_eq_ok]
  exact eq_comm

theorem Expr.eased_opposite (e : Expr) :
    ((Expr.neg e).eval p b s).Eased (e.opposite.eval p b s) := by
  intro fuel v left h
  obtain ⟨u, hu, hv⟩ := Expr.eval_neg_eq_ok.mp h
  cases e with
  | const n =>
    cases Expr.eval_const_eq_ok.mp hu
    simp only [Expr.opposite, hv]
    exact ⟨0, Expr.eval_const_eq_ok.mpr rfl⟩
  | neg e =>
    -- the inner negation has not overflowed, so the outer one gives its operand back
    obtain ⟨w, hw, hwu⟩ := Expr.eval_neg_eq_ok.mp hu
    have hvw : v = w := eq_of_word? hv (by rw [toInt_of_word? hwu, Int.neg_neg])
    exact ⟨0, hvw ▸ hw⟩
  | var | binary | read | call | cond => exact ⟨0, h⟩

theorem Expr.eased_dropNeutral (op : ArithOp) (x y : Expr) :
    ((Expr.binary op x y).eval p b s).Eased ((Expr.dropNeutral op x y).eval p b s) := by
  intro fuel v left h
  obtain ⟨m, fuel₁, n, hm, hn, hv⟩ := Expr.eval_binary_eq_ok.mp h
  -- a neutral operand is a literal, which uses no fuel, and the other one is the result
  have hword : word? (op.onInt m.toInt n.toInt) = some v := ArithOp.word?_of_onWord? hv
  unfold Expr.dropNeutral
  split
  · cases Expr.eval_const_eq_ok.mp hn
    exact ⟨0, eq_of_word? hword (Int.add_zero _) ▸ hm⟩
  · cases Expr.eval_const_eq_ok.mp hm
    exact ⟨0, eq_of_word? hword (Int.zero_add _) ▸ hn⟩
  · cases Expr.eval_const_eq_ok.mp hn
    exact ⟨0, eq_of_word? hword (Int.sub_zero _) ▸ hm⟩
  · cases Expr.eval_const_eq_ok.mp hn
    exact ⟨0, eq_of_word? hword (Int.mul_one _) ▸ hm⟩
  · cases Expr.eval_const_eq_ok.mp hm
    exact ⟨0, eq_of_word? hword (Int.one_mul _) ▸ hn⟩
  · cases Expr.eval_const_eq_ok.mp hn
    exact ⟨0, eq_of_word? hword (Int.tdiv_one _) ▸ hm⟩
  · exact ⟨0, h⟩

theorem Expr.eased_operation (op : ArithOp) (x y : Expr) :
    ((Expr.binary op x y).eval p b s).Eased ((Expr.operation op x y).eval p b s) := by
  unfold Expr.operation
  split
  · next m n =>
    cases hfold : op.onWord? m n with
    | none => exact Expr.eased_dropNeutral op _ _
    | some w =>
      intro fuel v left h
      obtain ⟨m', fuel₁, n', hm, hn, hv⟩ := Expr.eval_binary_eq_ok.mp h
      cases Expr.eval_const_eq_ok.mp hm
      cases Expr.eval_const_eq_ok.mp hn
      cases hfold.symm.trans hv
      exact ⟨0, Expr.eval_const_eq_ok.mpr rfl⟩
  · exact Expr.eased_dropNeutral op x y

/-- A conditional whose branches are one expression is that expression, without the test. -/
theorem Expr.eased_choose (hb : b.Frugal) (t : Pred) (x y : Expr) :
    ((Expr.cond t x y).eval p b s).Eased ((Expr.choose t x y).eval p b s) := by
  intro fuel v left h
  obtain ⟨fuel₁, ⟨ht, hx⟩ | ⟨ht, hy⟩⟩ := Expr.eval_cond_eq_ok.mp h
  · have hskip := (Pred.frugal_eval hb s t).skip (Expr.frugal_eval hb s x) ht hx
    unfold Expr.choose
    split
    · exact hskip
    · rw [Pred.eval] at ht
      cases ht
    · split
      · exact hskip
      · exact ⟨0, h⟩
  · have hskip := (Pred.frugal_eval hb s t).skip (Expr.frugal_eval hb s y) ht hy
    unfold Expr.choose
    split
    · rw [Pred.eval] at ht
      cases ht
    · exact hskip
    · split
      · next hxy =>
        rw [hxy]
        exact hskip
      · exact ⟨0, h⟩

/-! ## Laws on predicates -/

theorem Pred.eval_bool_eq_ok {t : Bool} {fuel : Nat} {r : Bool × Nat} :
    (Pred.bool t).eval p b s fuel = .ok r ↔ r = (t, fuel) := by
  rw [Pred.eval, EvalM.pure_eq_ok]
  exact eq_comm

/-- A literal leaves all of the fuel. -/
theorem Pred.eval_bool_spare (t : Bool) {fuel left : Nat} (h : left ≤ fuel) :
    ∃ spare, (Pred.bool t).eval p b s fuel = .ok (t, left + spare) := by
  obtain ⟨spare, rfl⟩ := Nat.exists_eq_add_of_le h
  exact ⟨spare, Pred.eval_bool_eq_ok.mpr rfl⟩

theorem Pred.eased_negate (q : Pred) :
    ((Pred.not q).eval p b s).Eased (q.negate.eval p b s) := by
  intro fuel r left h
  have hq := Pred.eval_not_eq_ok.mp h
  cases q with
  | bool t =>
    cases Pred.eval_bool_eq_ok.mp hq
    rw [Pred.negate, Bool.not_not]
    exact ⟨0, Pred.eval_bool_eq_ok.mpr rfl⟩
  | not q =>
    have hinner := Pred.eval_not_eq_ok.mp hq
    rw [Bool.not_not] at hinner
    exact ⟨0, hinner⟩
  | compare | and | or | implies | paren | quantified | formula => exact ⟨0, h⟩

theorem Pred.eased_conj (hb : b.Frugal) (q q' : Pred) :
    ((Pred.and q q').eval p b s).Eased ((q.conj q').eval p b s) := by
  intro fuel r left h
  have hle : left ≤ fuel := (Pred.frugal_eval hb s _).le fuel _ h
  have hparts := h
  rw [Pred.eval, EvalM.cond_eq_ok] at hparts
  -- the five cases are the law's: a literal on the left or the right, and neither
  obtain ⟨fuel₁, ⟨hq, hq'⟩ | ⟨hq, hr⟩⟩ := hparts
  · have hskip := (Pred.frugal_eval hb s q).skip (Pred.frugal_eval hb s q') hq hq'
    unfold Pred.conj
    split
    · cases Pred.eval_bool_eq_ok.mp hq
    · exact hskip
    · exact hskip
    · cases Pred.eval_bool_eq_ok.mp hq'
      exact ⟨0, hq⟩
    · exact ⟨0, h⟩
  · cases EvalM.pure_eq_ok.mp hr
    unfold Pred.conj
    split
    · exact Pred.eval_bool_spare false hle
    · exact Pred.eval_bool_spare false hle
    · cases Pred.eval_bool_eq_ok.mp hq
    · exact ⟨0, hq⟩
    · exact ⟨0, h⟩

theorem Pred.eased_disj (hb : b.Frugal) (q q' : Pred) :
    ((Pred.or q q').eval p b s).Eased ((q.disj q').eval p b s) := by
  intro fuel r left h
  have hle : left ≤ fuel := (Pred.frugal_eval hb s _).le fuel _ h
  have hparts := h
  rw [Pred.eval, EvalM.cond_eq_ok] at hparts
  obtain ⟨fuel₁, ⟨hq, hr⟩ | ⟨hq, hq'⟩⟩ := hparts
  · cases EvalM.pure_eq_ok.mp hr
    unfold Pred.disj
    split
    · exact Pred.eval_bool_spare true hle
    · exact Pred.eval_bool_spare true hle
    · cases Pred.eval_bool_eq_ok.mp hq
    · exact ⟨0, hq⟩
    · exact ⟨0, h⟩
  · have hskip := (Pred.frugal_eval hb s q).skip (Pred.frugal_eval hb s q') hq hq'
    unfold Pred.disj
    split
    · cases Pred.eval_bool_eq_ok.mp hq
    · exact hskip
    · exact hskip
    · cases Pred.eval_bool_eq_ok.mp hq'
      exact ⟨0, hq⟩
    · exact ⟨0, h⟩

theorem Pred.eased_imp (hb : b.Frugal) (q q' : Pred) :
    ((Pred.implies q q').eval p b s).Eased ((q.imp q').eval p b s) := by
  intro fuel r left h
  have hle : left ≤ fuel := (Pred.frugal_eval hb s _).le fuel _ h
  have hparts := h
  rw [Pred.eval, EvalM.cond_eq_ok] at hparts
  obtain ⟨fuel₁, ⟨hq, hq'⟩ | ⟨hq, hr⟩⟩ := hparts
  · have hskip := (Pred.frugal_eval hb s q).skip (Pred.frugal_eval hb s q') hq hq'
    unfold Pred.imp
    split
    · exact hskip
    · cases Pred.eval_bool_eq_ok.mp hq
    · exact hskip
    · -- a false conclusion makes the implication the negation of its premise
      cases Pred.eval_bool_eq_ok.mp hq'
      exact Pred.eased_negate q fuel false _ (Pred.eval_not_eq_ok.mpr hq)
    · exact ⟨0, h⟩
  · cases EvalM.pure_eq_ok.mp hr
    unfold Pred.imp
    split
    · cases Pred.eval_bool_eq_ok.mp hq
    · exact Pred.eval_bool_spare true hle
    · exact Pred.eval_bool_spare true hle
    · exact Pred.eased_negate q fuel true _ (Pred.eval_not_eq_ok.mpr hq)
    · exact ⟨0, h⟩

theorem Pred.eased_comparison (hb : b.Frugal) (op : CmpOp) (x y : Expr) :
    ((Pred.compare op x y).eval p b s).Eased ((Pred.comparison op x y).eval p b s) := by
  intro fuel r left h
  have hle : left ≤ fuel := (Pred.frugal_eval hb s _).le fuel _ h
  obtain ⟨m, fuel₁, n, hm, hn, hr⟩ := Pred.eval_compare_eq_ok.mp h
  unfold Pred.comparison
  split
  · cases Expr.eval_const_eq_ok.mp hm
    cases Expr.eval_const_eq_ok.mp hn
    exact hr ▸ Pred.eval_bool_spare _ hle
  · split
    · next hxy =>
      -- one expression on both sides, so one value, whatever fuel is left for the second
      subst hxy
      obtain rfl : m = n := (Expr.frugal_eval hb s x).unique hm hn
      rw [show r = op.isReflexive from hr.trans (CmpOp.holds_self op _)]
      exact Pred.eval_bool_spare _ hle
    · exact ⟨0, h⟩

/-! ## Arguments -/

/-- What evaluates to a number is not the name of an array. -/
theorem Expr.array?_of_eval {e : Expr} {fuel : Nat} {r : Int64 × Nat}
    (h : e.eval p b s fuel = .ok r) : e.array? s = none := by
  refine Option.eq_none_iff_forall_ne_some.mpr fun c hc => ?_
  obtain ⟨x, rfl, hx⟩ := Expr.array?_eq_some.mp hc
  rw [Expr.eval, readVar_eq_ok, hx] at h
  cases h.1

theorem Expr.eased_operand {e : Expr} (h : (e.eval p b s).Eased (e.simplify.eval p b s)) :
    (e.operand p b s).Eased (e.simplify.operand p b s) := by
  intro fuel v left hop
  rcases Expr.operand_eq_ok.mp hop with ⟨c, hc, -⟩ | ⟨-, n, hn, hv⟩
  · -- the name of an array is passed as it is, and is not simplified
    obtain ⟨x, rfl, -⟩ := Expr.array?_eq_some.mp hc
    rw [Expr.simplify]
    exact ⟨0, hop⟩
  · obtain ⟨spare, hsimp⟩ := h fuel n left hn
    exact ⟨spare, Expr.operand_eq_ok.mpr (.inr ⟨Expr.array?_of_eval hsimp, n, hsimp, hv⟩)⟩

/-- A call gives the same on arguments that are evaluated with less work. -/
theorem eased_callFunction (hb : b.Frugal) (f : String) (count : Nat)
    {operands operands' : EvalM (List Value)} (ho : operands.Eased operands') :
    (callFunction p b f count operands).Eased (callFunction p b f count operands') := by
  intro fuel r left h
  obtain ⟨g, hg, hn, values, fuel₁, final, hv, hrun, hr⟩ := callFunction_eq_ok.mp h
  obtain ⟨fuel₁', spare, hv', hrun'⟩ := ho.seq (.refl _) (hb.run g _) hv hrun
  exact ⟨spare, callFunction_eq_ok.mpr ⟨g, hg, hn, values, fuel₁', final, hv', hrun', hr⟩⟩

theorem Expr.length_simplifyList (es : List Expr) :
    (Expr.simplifyList es).length = es.length := by
  induction es with
  | nil => rfl
  | cons e es ih => rw [Expr.simplifyList, List.length_cons, List.length_cons, ih]

theorem Expr.eased_operands_cons (hb : b.Frugal) {e e' : Expr} {es es' : List Expr}
    (he : (e.operand p b s).Eased (e'.operand p b s))
    (hes : (Expr.operands p b s es).Eased (Expr.operands p b s es')) :
    (Expr.operands p b s (e :: es)).Eased (Expr.operands p b s (e' :: es')) := by
  intro fuel values left h
  obtain ⟨v, fuel₁, vs, hv, hvs, hr⟩ := Expr.operands_cons_eq_ok.mp h
  obtain ⟨fuel₁', spare, hv', hvs'⟩ := he.seq hes (Expr.frugal_operands hb s es') hv hvs
  exact ⟨spare, Expr.operands_cons_eq_ok.mpr ⟨v, fuel₁', vs, hv', hvs', hr⟩⟩

/-- A call that evaluates its arguments does not ask for a length after simplification. -/
theorem askedLength?_simplifyList {f : String} {es : List Expr} {fuel : Nat}
    {r : List Value × Nat} (hes : ∀ e ∈ es, (e.eval p b s).Eased (e.simplify.eval p b s))
    (hnone : askedLength? s f es = none) (h : Expr.operands p b s es fuel = .ok r) :
    askedLength? s f (Expr.simplifyList es) = none := by
  refine Option.eq_none_iff_forall_ne_some.mpr fun n hn => ?_
  obtain ⟨rfl, a, c, hargs, ha, -⟩ := askedLength?_eq_some hn
  -- the only argument is a number before, and the name of an array after
  obtain ⟨e, rfl⟩ : ∃ e, es = [e] := by
    refine List.length_eq_one_iff.mp ?_
    rw [← Expr.length_simplifyList, hargs, List.length_singleton]
  rw [Expr.simplifyList, Expr.simplifyList, List.singleton_inj] at hargs
  obtain ⟨v, fuel₁, vs, hv, -, -⟩ := Expr.operands_cons_eq_ok.mp h
  rcases Expr.operand_eq_ok.mp hv with ⟨c', hc', -⟩ | ⟨-, n', hn', -⟩
  · rw [askedLength?, hc'] at hnone
    cases hnone
  · obtain ⟨spare, hsimp⟩ := hes e List.mem_cons_self fuel n' _ hn'
    have hnot := Expr.array?_of_eval hsimp
    rw [hargs, Expr.array?_eq_some.mpr ⟨a, rfl, ha⟩] at hnot
    cases hnot

theorem Expr.eased_operands (hb : b.Frugal) : ∀ {es : List Expr},
    (∀ e ∈ es, (e.eval p b s).Eased (e.simplify.eval p b s)) →
      (Expr.operands p b s es).Eased (Expr.operands p b s (Expr.simplifyList es))
  | [], _ => .refl _
  | _ :: _, hes => by
    obtain ⟨he, hes⟩ := List.forall_mem_cons.mp hes
    rw [Expr.simplifyList]
    exact Expr.eased_operands_cons hb (Expr.eased_operand he) (Expr.eased_operands hb hes)

theorem Expr.eased_call (hb : b.Frugal) (f : String) {es : List Expr}
    (hes : ∀ e ∈ es, (e.eval p b s).Eased (e.simplify.eval p b s)) :
    ((Expr.call f es).eval p b s).Eased ((Expr.call f (Expr.simplifyList es)).eval p b s) := by
  intro fuel v left h
  rcases Expr.eval_call_eq_ok.mp h with ⟨hlen, -⟩ | ⟨hnone, hcall⟩
  · obtain ⟨-, a, -, rfl, -, -⟩ := askedLength?_eq_some hlen
    exact ⟨0, h⟩
  · obtain ⟨values, fuel₁, hvalues, -⟩ := callFunction_operands hcall
    obtain ⟨spare, hcall'⟩ := eased_callFunction hb f es.length (Expr.eased_operands hb hes)
      fuel _ left hcall
    rw [← Expr.length_simplifyList] at hcall'
    exact ⟨spare, Expr.eval_call_eq_ok.mpr
      (.inr ⟨askedLength?_simplifyList hes hnone hvalues, hcall'⟩)⟩

/-! ## The pass

At every node the parts are eased first and then the law is applied. -/

theorem Expr.eased_neg {e e' : Expr} (h : (e.eval p b s).Eased (e'.eval p b s)) :
    ((Expr.neg e).eval p b s).Eased ((Expr.neg e').eval p b s) := by
  intro fuel v left hneg
  obtain ⟨u, hu, hv⟩ := Expr.eval_neg_eq_ok.mp hneg
  obtain ⟨spare, hu'⟩ := h fuel u left hu
  exact ⟨spare, Expr.eval_neg_eq_ok.mpr ⟨u, hu', hv⟩⟩

theorem Expr.eased_binary (hb : b.Frugal) (op : ArithOp) {x x' y y' : Expr}
    (hx : (x.eval p b s).Eased (x'.eval p b s)) (hy : (y.eval p b s).Eased (y'.eval p b s)) :
    ((Expr.binary op x y).eval p b s).Eased ((Expr.binary op x' y').eval p b s) := by
  intro fuel v left h
  obtain ⟨m, fuel₁, n, hm, hn, hv⟩ := Expr.eval_binary_eq_ok.mp h
  obtain ⟨fuel₁', spare, hm', hn'⟩ := hx.seq hy (Expr.frugal_eval hb s y') hm hn
  exact ⟨spare, Expr.eval_binary_eq_ok.mpr ⟨m, fuel₁', n, hm', hn', hv⟩⟩

theorem Expr.eased_read (a : String) {i i' : Expr} (h : (i.eval p b s).Eased (i'.eval p b s)) :
    ((Expr.read a i).eval p b s).Eased ((Expr.read a i').eval p b s) := by
  intro fuel v left hread
  obtain ⟨n, c, hn, hc, hv⟩ := Expr.eval_read_eq_ok.mp hread
  obtain ⟨spare, hn'⟩ := h fuel n left hn
  exact ⟨spare, Expr.eval_read_eq_ok.mpr ⟨n, c, hn', hc, hv⟩⟩

theorem Pred.eased_compare (hb : b.Frugal) (op : CmpOp) {x x' y y' : Expr}
    (hx : (x.eval p b s).Eased (x'.eval p b s)) (hy : (y.eval p b s).Eased (y'.eval p b s)) :
    ((Pred.compare op x y).eval p b s).Eased ((Pred.compare op x' y').eval p b s) := by
  intro fuel r left h
  obtain ⟨m, fuel₁, n, hm, hn, hr⟩ := Pred.eval_compare_eq_ok.mp h
  obtain ⟨fuel₁', spare, hm', hn'⟩ := hx.seq hy (Expr.frugal_eval hb s y') hm hn
  exact ⟨spare, Pred.eval_compare_eq_ok.mpr ⟨m, fuel₁', n, hm', hn', hr⟩⟩

theorem Pred.eased_not {q q' : Pred} (h : (q.eval p b s).Eased (q'.eval p b s)) :
    ((Pred.not q).eval p b s).Eased ((Pred.not q').eval p b s) := by
  intro fuel r left hnot
  obtain ⟨spare, hq'⟩ := h fuel (!r) left (Pred.eval_not_eq_ok.mp hnot)
  exact ⟨spare, Pred.eval_not_eq_ok.mpr hq'⟩

mutual

theorem Expr.eased_simplify (hb : b.Frugal) (s : State) : ∀ e : Expr,
    (e.eval p b s).Eased (e.simplify.eval p b s)
  | .const n => by
    rw [Expr.simplify]
    exact .refl _
  | .var x => by
    rw [Expr.simplify]
    exact .refl _
  | .neg e => by
    rw [Expr.simplify]
    exact (Expr.eased_neg (Expr.eased_simplify hb s e)).trans (Expr.eased_opposite _)
  | .binary op x y => by
    rw [Expr.simplify]
    exact (Expr.eased_binary hb op (Expr.eased_simplify hb s x) (Expr.eased_simplify hb s y)).trans
      (Expr.eased_operation op _ _)
  | .read a i => by
    rw [Expr.simplify]
    exact Expr.eased_read a (Expr.eased_simplify hb s i)
  | .call f args => by
    rw [Expr.simplify]
    exact Expr.eased_call hb f (Expr.eased_simplifyAll hb s args)
  | .cond t x y => by
    rw [Expr.simplify]
    refine EvalM.Eased.trans ?_ (Expr.eased_choose hb _ _ _)
    rw [Expr.eval, Expr.eval]
    exact (Pred.eased_simplify hb s t).cond (Expr.eased_simplify hb s x)
      (Expr.eased_simplify hb s y) (Expr.frugal_eval hb s _) (Expr.frugal_eval hb s _)

theorem Expr.eased_simplifyAll (hb : b.Frugal) (s : State) : ∀ es : List Expr,
    ∀ e ∈ es, (e.eval p b s).Eased (e.simplify.eval p b s)
  | [] => fun _ he => (List.not_mem_nil he).elim
  | e :: es =>
    List.forall_mem_cons.mpr ⟨Expr.eased_simplify hb s e, Expr.eased_simplifyAll hb s es⟩

theorem Pred.eased_simplify (hb : b.Frugal) (s : State) : ∀ q : Pred,
    (q.eval p b s).Eased (q.simplify.eval p b s)
  | .bool t => by
    rw [Pred.simplify]
    exact .refl _
  | .compare op x y => by
    rw [Pred.simplify]
    exact (Pred.eased_compare hb op (Expr.eased_simplify hb s x) (Expr.eased_simplify hb s y)).trans
      (Pred.eased_comparison hb op _ _)
  | .not q => by
    rw [Pred.simplify]
    exact (Pred.eased_not (Pred.eased_simplify hb s q)).trans (Pred.eased_negate _)
  | .and q q' => by
    rw [Pred.simplify]
    refine EvalM.Eased.trans ?_ (Pred.eased_conj hb _ _)
    rw [Pred.eval, Pred.eval]
    exact (Pred.eased_simplify hb s q).cond (Pred.eased_simplify hb s q') (.refl _)
      (Pred.frugal_eval hb s _) (.pure false)
  | .or q q' => by
    rw [Pred.simplify]
    refine EvalM.Eased.trans ?_ (Pred.eased_disj hb _ _)
    rw [Pred.eval, Pred.eval]
    exact (Pred.eased_simplify hb s q).cond (.refl _) (Pred.eased_simplify hb s q')
      (.pure true) (Pred.frugal_eval hb s _)
  | .implies q q' => by
    rw [Pred.simplify]
    refine EvalM.Eased.trans ?_ (Pred.eased_imp hb _ _)
    rw [Pred.eval, Pred.eval]
    exact (Pred.eased_simplify hb s q).cond (Pred.eased_simplify hb s q') (.refl _)
      (Pred.frugal_eval hb s _) (.pure true)
  | .paren q => by
    rw [Pred.simplify, Pred.eval]
    exact Pred.eased_simplify hb s q
  | .quantified .. | .formula .. => by
    rw [Pred.simplify]
    exact .refl _

end

end

/-- **Simplification never changes a successful evaluation.** A predicate that evaluates to a truth
value still does after simplification, in the same state and with the same fuel. So does, at every
depth, an expression that evaluates to a number, and an argument that stands for a number or for a
whole array; none of them leaves less fuel than before. -/
theorem simplify_keeps_evaluation (p : Program) (s : State) (fuel : Nat) :
    (∀ (q : Pred) (r : Bool), p.holds q s fuel = .ok r → p.holds q.simplify s fuel = .ok r) ∧
      ∀ (depth : Nat) (e : Expr) (left : Nat),
        (∀ v : Int64, e.eval p (below p depth) s fuel = .ok (v, left) →
          ∃ spare, e.simplify.eval p (below p depth) s fuel = .ok (v, left + spare)) ∧
        (∀ v : Value, e.operand p (below p depth) s fuel = .ok (v, left) →
          ∃ spare, e.simplify.operand p (below p depth) s fuel = .ok (v, left + spare)) := by
  refine ⟨fun q r h => ?_, fun depth e left => ⟨fun v h => ?_, fun v h => ?_⟩⟩
  · obtain ⟨left, heval⟩ := Program.holds_eq_ok.mp h
    obtain ⟨spare, hsimp⟩ := Pred.eased_simplify (frugal_below p depthLimit) s q fuel r left heval
    exact Program.holds_eq_ok.mpr ⟨left + spare, hsimp⟩
  · exact Expr.eased_simplify (frugal_below p depth) s e fuel v left h
  · exact Expr.eased_operand (Expr.eased_simplify (frugal_below p depth) s e) fuel v left h

/-! ### Calls that are left out -/

/-- Three counts: two that are compared with each other, and one under neutral operations. -/
def threeCounts : Pred :=
  .and (.compare .eq (.call "count" [.const 2]) (.call "count" [.const 2]))
    (.compare .le (.call "count" [.binary .mul (.const 1) (.var "n")])
      (.binary .div (.var "y") (.const 1)))

/-- A count that does not depend on the test in front of it, which is a count too. -/
def testedCount : Expr :=
  .cond (.compare .gt (.call "count" [.const 2]) (.var "y"))
    (.call "count" [.binary .add (.var "n") (.const 0)]) (.call "count" [.var "n"])

/-- The state in which both are evaluated. -/
def countState : State := State.ofPairs [("n", .int 3), ("y", .int 5)]

/-- With just the fuel that they need before simplification, both still evaluate to the same. The
count without its test may leave fuel that the test would have used. -/
theorem simplify_keeps_evaluation_counting :
    threeCounts.simplify = .compare .le (.call "count" [.var "n"]) (.var "y") ∧
    countingProgram.holds threeCounts countState 7 = .ok true ∧
    countingProgram.holds threeCounts.simplify countState 7 = .ok true ∧
    testedCount.simplify = .call "count" [.var "n"] ∧
    testedCount.eval countingProgram (below countingProgram 2) countState 5 = .ok (3, 0) ∧
    ∃ spare, testedCount.simplify.eval countingProgram (below countingProgram 2) countState 5 =
      .ok (3, 0 + spare) := by
  have hall : countingProgram.holds threeCounts countState 7 = .ok true := by cbv
  have hone : testedCount.eval countingProgram (below countingProgram 2) countState 5 =
      .ok (3, 0) := by cbv
  refine ⟨by decide, hall, ?_, by decide, hone, ?_⟩
  · exact (simplify_keeps_evaluation countingProgram _ 7).1 threeCounts true hall
  · exact ((simplify_keeps_evaluation countingProgram _ 5).2 2 testedCount 0).1 3 hone

end Contracts

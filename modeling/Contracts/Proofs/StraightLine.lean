import Contracts.Proofs.WeakestPreSound

/-!
# Straight-line statements over numbers

A statement without loops and calls that assigns variables can be traced backwards: if it finishes
and a predicate evaluates after it, then the weakest precondition evaluates before it, to the same
truth value (`Stmt.retraces`).

This is said of evaluations and not of meanings, because an evaluation leaves parts of a predicate
out. A quantifier, a cell of a name that is no array or a division by zero may stand in a part that
is never looked at, and substitution and simplification then only have to leave it unlooked at.
So nothing is asked of how names are used. `Expr.Yields` and `Pred.Yields` give evaluation as a
relation in which what is not looked at does not occur; it has no rules for cells, calls, formulas
and quantifiers, which have no value in a state of numbers.
-/

set_option autoImplicit false

namespace Contracts

/-! ## Evaluation as a relation -/

mutual

/-- The expression has the value in the state. -/
inductive Expr.Yields (s : State) : Expr → Int64 → Prop
  | const (n : Int64) : Expr.Yields s (.const n) n
  | var {x : String} {v : Int64} (h : s[x]? = some (.int v)) : Expr.Yields s (.var x) v
  | neg {e : Expr} {v w : Int64} (h : Expr.Yields s e v) (hw : negWord? v = some w) :
      Expr.Yields s (.neg e) w
  | binary {op : ArithOp} {a b : Expr} {m n v : Int64} (ha : Expr.Yields s a m)
      (hb : Expr.Yields s b n) (hv : op.onWord? m n = some v) : Expr.Yields s (.binary op a b) v
  | condTrue {t : Pred} {a b : Expr} {v : Int64} (ht : Pred.Yields s t true)
      (h : Expr.Yields s a v) : Expr.Yields s (.cond t a b) v
  | condFalse {t : Pred} {a b : Expr} {v : Int64} (ht : Pred.Yields s t false)
      (h : Expr.Yields s b v) : Expr.Yields s (.cond t a b) v

/-- The predicate has the truth value in the state. -/
inductive Pred.Yields (s : State) : Pred → Bool → Prop
  | bool (b : Bool) : Pred.Yields s (.bool b) b
  | compare {op : CmpOp} {a b : Expr} {m n : Int64} (ha : Expr.Yields s a m)
      (hb : Expr.Yields s b n) : Pred.Yields s (.compare op a b) (op.holds m.toInt n.toInt)
  | not {q : Pred} {r : Bool} (h : Pred.Yields s q r) : Pred.Yields s (.not q) (!r)
  | andTrue {q q' : Pred} {r : Bool} (h : Pred.Yields s q true) (h' : Pred.Yields s q' r) :
      Pred.Yields s (.and q q') r
  | andFalse {q q' : Pred} (h : Pred.Yields s q false) : Pred.Yields s (.and q q') false
  | orTrue {q q' : Pred} (h : Pred.Yields s q true) : Pred.Yields s (.or q q') true
  | orFalse {q q' : Pred} {r : Bool} (h : Pred.Yields s q false) (h' : Pred.Yields s q' r) :
      Pred.Yields s (.or q q') r
  | impliesTrue {q q' : Pred} {r : Bool} (h : Pred.Yields s q true) (h' : Pred.Yields s q' r) :
      Pred.Yields s (.implies q q') r
  | impliesFalse {q q' : Pred} (h : Pred.Yields s q false) : Pred.Yields s (.implies q q') true
  | paren {q : Pred} {r : Bool} (h : Pred.Yields s q r) : Pred.Yields s (.paren q) r

end

/-! ### What evaluates yields -/

mutual

/-- There is no call and no formula in the expression. -/
def Expr.callFree : Expr → Bool
  | .const _ | .var _ => true
  | .neg e => e.callFree
  | .binary _ a b => a.callFree && b.callFree
  | .read _ i => i.callFree
  | .call _ _ => false
  | .cond t a b => t.callFree && a.callFree && b.callFree

/-- There is no call and no formula in the predicate. -/
def Pred.callFree : Pred → Bool
  | .bool _ => true
  | .compare _ a b => a.callFree && b.callFree
  | .not q | .paren q => q.callFree
  | .and q r | .or q r | .implies q r => q.callFree && r.callFree
  | .quantified _ _ q => q.callFree
  | .formula _ _ => false

end

/-- All variables with a value are numbers. -/
abbrev State.AllInts (s : State) : Prop := s.HasKinds fun _ => .int

theorem State.AllInts.not_array {s : State} (hs : s.AllInts) {x : String} {c : Cells} :
    s[x]? ≠ some (.array c) := by
  intro h
  cases hs x _ h

section

variable {p : Program} {b : Below} {s : State}

mutual

theorem Expr.yields_of_eval (hs : s.AllInts) : ∀ {e : Expr} {fuel : Nat} {r : Int64 × Nat},
    e.callFree = true → e.eval p b s fuel = .ok r → e.Yields s r.1
  | .const n, _, _, _, h => by
    rw [Expr.eval, EvalM.pure_eq_ok] at h
    cases h
    exact .const n
  | .var x, _, _, _, h => by
    rw [Expr.eval, readVar_eq_ok] at h
    exact .var h.1
  | .neg e, _, _, hc, h => by
    obtain ⟨v, he, hv⟩ := Expr.eval_neg_eq_ok.mp h
    exact .neg (Expr.yields_of_eval hs (e := e) hc he) hv
  | .binary op x y, _, _, hc, h => by
    rw [Expr.callFree, Bool.and_eq_true] at hc
    obtain ⟨m, fuel₁, n, hm, hn, hv⟩ := Expr.eval_binary_eq_ok.mp h
    exact .binary (Expr.yields_of_eval hs hc.1 hm) (Expr.yields_of_eval hs hc.2 hn) hv
  | .read a i, _, _, _, h => by
    -- a cell that has been read belongs to an array, and no name holds one
    obtain ⟨v, c, -, hc, -⟩ := Expr.eval_read_eq_ok.mp h
    exact absurd hc hs.not_array
  | .call _ _, _, _, hc, _ => by cases hc
  | .cond t x y, _, _, hc, h => by
    simp only [Expr.callFree, Bool.and_eq_true] at hc
    obtain ⟨fuel₁, ⟨ht, hx⟩ | ⟨ht, hy⟩⟩ := Expr.eval_cond_eq_ok.mp h
    · exact .condTrue (Pred.yields_of_eval hs hc.1.1 ht) (Expr.yields_of_eval hs hc.1.2 hx)
    · exact .condFalse (Pred.yields_of_eval hs hc.1.1 ht) (Expr.yields_of_eval hs hc.2 hy)

theorem Pred.yields_of_eval (hs : s.AllInts) : ∀ {q : Pred} {fuel : Nat} {r : Bool × Nat},
    q.callFree = true → q.eval p b s fuel = .ok r → q.Yields s r.1
  | .bool v, _, _, _, h => by
    rw [Pred.eval, EvalM.pure_eq_ok] at h
    cases h
    exact .bool v
  | .compare op x y, _, _, hc, h => by
    rw [Pred.callFree, Bool.and_eq_true] at hc
    obtain ⟨m, fuel₁, n, hm, hn, hr⟩ := Pred.eval_compare_eq_ok.mp h
    rw [hr]
    exact .compare (Expr.yields_of_eval hs hc.1 hm) (Expr.yields_of_eval hs hc.2 hn)
  | .not q, _, r, hc, h => by
    have hq := Pred.yields_of_eval hs (q := q) hc (Pred.eval_not_eq_ok.mp h)
    rw [← Bool.not_not r.1]
    exact .not hq
  | .and q q', _, _, hc, h => by
    rw [Pred.callFree, Bool.and_eq_true] at hc
    rw [Pred.eval, EvalM.cond_eq_ok] at h
    obtain ⟨fuel₁, ⟨hq, hq'⟩ | ⟨hq, hr⟩⟩ := h
    · exact .andTrue (Pred.yields_of_eval hs hc.1 hq) (Pred.yields_of_eval hs hc.2 hq')
    · cases EvalM.pure_eq_ok.mp hr
      exact .andFalse (Pred.yields_of_eval hs hc.1 hq)
  | .or q q', _, _, hc, h => by
    rw [Pred.callFree, Bool.and_eq_true] at hc
    rw [Pred.eval, EvalM.cond_eq_ok] at h
    obtain ⟨fuel₁, ⟨hq, hr⟩ | ⟨hq, hq'⟩⟩ := h
    · cases EvalM.pure_eq_ok.mp hr
      exact .orTrue (Pred.yields_of_eval hs hc.1 hq)
    · exact .orFalse (Pred.yields_of_eval hs hc.1 hq) (Pred.yields_of_eval hs hc.2 hq')
  | .implies q q', _, _, hc, h => by
    rw [Pred.callFree, Bool.and_eq_true] at hc
    rw [Pred.eval, EvalM.cond_eq_ok] at h
    obtain ⟨fuel₁, ⟨hq, hq'⟩ | ⟨hq, hr⟩⟩ := h
    · exact .impliesTrue (Pred.yields_of_eval hs hc.1 hq) (Pred.yields_of_eval hs hc.2 hq')
    · cases EvalM.pure_eq_ok.mp hr
      exact .impliesFalse (Pred.yields_of_eval hs hc.1 hq)
  | .paren q, _, _, hc, h => by
    rw [Pred.eval] at h
    exact .paren (Pred.yields_of_eval hs (q := q) hc h)
  | .quantified .., _, _, _, h => by
    rw [Pred.eval] at h
    exact (EvalM.throw_ne_ok h).elim
  | .formula _ _, _, _, hc, _ => by cases hc

end

end

/-! ### What is yielded is the meaning -/

/-- The numbers of a state; `rest` is for the names without one. -/
def State.numbers {α : Type} (s : State) (rest : Valuation α) : Valuation α := fun x =>
  match s[x]? with
  | some (.int v) => .int v.toInt
  | _ => rest x

theorem State.numbers_of_some {α : Type} {s : State} {x : String} {v : Int64}
    (h : s[x]? = some (.int v)) (rest : Valuation α) : s.numbers rest x = .int v.toInt := by
  unfold State.numbers
  rw [h]

section

variable {α : Type} {s : State}

mutual

theorem Expr.Yields.value_eq (M : Interpretation α) (rest : Valuation α) : ∀ {e : Expr} {v : Int64},
    e.Yields s v → e.value M (s.numbers rest) = v.toInt
  | _, _, .const n => by rw [Expr.value]
  | _, _, .var h => by
    rw [Expr.value, State.numbers_of_some h]
    rfl
  | _, _, .neg h hw => by rw [Expr.value, h.value_eq M rest, toInt_of_word? hw]
  | _, _, .binary ha hb hv => by
    rw [Expr.value, ha.value_eq M rest, hb.value_eq M rest, M.arith_of_onWord? hv]
  | _, _, .condTrue ht h => by
    rw [Expr.value, select_of_true ((ht.holds_iff M rest).mpr rfl), h.value_eq M rest]
  | _, _, .condFalse ht h => by
    have hfalse := mt (ht.holds_iff M rest).mp Bool.false_ne_true
    rw [Expr.value, select_of_false hfalse, h.value_eq M rest]

/-- A predicate that has a truth value in a state has it as its meaning, however calls, formulas and
arrays are read. -/
theorem Pred.Yields.holds_iff (M : Interpretation α) (rest : Valuation α) : ∀ {q : Pred} {r : Bool},
    q.Yields s r → (q.Holds M (s.numbers rest) ↔ r = true)
  | _, _, .bool b => by rw [Pred.Holds]
  | _, _, .compare ha hb => by rw [Pred.Holds, ha.value_eq M rest, hb.value_eq M rest]
  | _, _, .not h => by rw [Pred.Holds, h.holds_iff M rest, Bool.not_eq_true', Bool.not_eq_true]
  | _, _, .andTrue h h' => by
    rw [Pred.Holds, h.holds_iff M rest, h'.holds_iff M rest]
    simp only [true_and]
  | _, _, .andFalse h => by
    rw [Pred.Holds, h.holds_iff M rest]
    simp only [Bool.false_eq_true, false_and]
  | _, _, .orTrue h => by
    rw [Pred.Holds, h.holds_iff M rest]
    simp only [true_or]
  | _, _, .orFalse h h' => by
    rw [Pred.Holds, h.holds_iff M rest, h'.holds_iff M rest]
    simp only [Bool.false_eq_true, false_or]
  | _, _, .impliesTrue h h' => by
    rw [Pred.Holds, h.holds_iff M rest, h'.holds_iff M rest]
    simp only [true_imp_iff]
  | _, _, .impliesFalse h => by
    rw [Pred.Holds, h.holds_iff M rest]
    simp only [Bool.false_eq_true, false_imp_iff]
  | _, _, .paren h => by rw [Pred.Holds, h.holds_iff M rest]

end

/-- An expression has one value, since any meaning of it is that value. -/
theorem Expr.Yields.unique {e : Expr} {v w : Int64} (hv : e.Yields s v) (hw : e.Yields s w) :
    v = w := by
  let M : Interpretation Unit := ⟨fun _ _ => 0, fun _ => 0, fun _ _ => 0, fun _ _ => True, id⟩
  let rest : Valuation Unit := fun _ => .int 0
  exact Int64.toInt_inj.mp ((hv.value_eq M rest).symm.trans (hw.value_eq M rest))

end

/-! ## Substitution -/

/-- What is put in for a variable has before the value that the variable has after. -/
def Bindings.Supply (m : Bindings) (s s' : State) : Prop :=
  ∀ x v, s'[x]? = some (.int v) → ((m.lookup x).getD (.var x)).Yields s v

section

variable {m : Bindings} {s s' : State}

mutual

theorem Expr.Yields.subst (hm : m.Supply s s') : ∀ {e : Expr} {v : Int64},
    e.Yields s' v → (e.subst m).Yields s v
  | _, _, .const n => by
    rw [Expr.subst]
    exact .const n
  | _, _, .var h => by
    rw [Expr.subst]
    exact hm _ _ h
  | _, _, .neg h hw => by
    rw [Expr.subst]
    exact .neg (h.subst hm) hw
  | _, _, .binary ha hb hv => by
    rw [Expr.subst]
    exact .binary (ha.subst hm) (hb.subst hm) hv
  | _, _, .condTrue ht h => by
    rw [Expr.subst]
    exact .condTrue (ht.subst hm) (h.subst hm)
  | _, _, .condFalse ht h => by
    rw [Expr.subst]
    exact .condFalse (ht.subst hm) (h.subst hm)

theorem Pred.Yields.subst (hm : m.Supply s s') : ∀ {q : Pred} {r : Bool},
    q.Yields s' r → (q.subst m).Yields s r
  | _, _, .bool b => by
    rw [Pred.subst]
    exact .bool b
  | _, _, .compare ha hb => by
    rw [Pred.subst]
    exact .compare (ha.subst hm) (hb.subst hm)
  | _, _, .not h => by
    rw [Pred.subst]
    exact .not (h.subst hm)
  | _, _, .andTrue h h' => by
    rw [Pred.subst]
    exact .andTrue (h.subst hm) (h'.subst hm)
  | _, _, .andFalse h => by
    rw [Pred.subst]
    exact .andFalse (h.subst hm)
  | _, _, .orTrue h => by
    rw [Pred.subst]
    exact .orTrue (h.subst hm)
  | _, _, .orFalse h h' => by
    rw [Pred.subst]
    exact .orFalse (h.subst hm) (h'.subst hm)
  | _, _, .impliesTrue h h' => by
    rw [Pred.subst]
    exact .impliesTrue (h.subst hm) (h'.subst hm)
  | _, _, .impliesFalse h => by
    rw [Pred.subst]
    exact .impliesFalse (h.subst hm)
  | _, _, .paren h => by
    rw [Pred.subst]
    exact .paren (h.subst hm)

end

end

/-! ## Simplification

Each law keeps what a node yields: it computes a literal, drops a part that the evaluation has found
neutral, or drops one that it has not looked at. -/

section

variable {s : State}

/-- A word with the value of a word is that word. -/
theorem eq_of_word? {n : Int} {v w : Int64} (h : word? n = some v) (hn : n = w.toInt) : v = w :=
  Int64.toInt_inj.mp ((toInt_of_word? h).trans hn)

/-- What an operation on words gives when it gives a result. -/
theorem ArithOp.word?_of_onWord? {op : ArithOp} {m n v : Int64} (h : op.onWord? m n = some v) :
    word? (op.onInt m.toInt n.toInt) = some v := by
  unfold ArithOp.onWord? at h
  split at h
  · cases h
  · exact h

theorem Expr.Yields.opposite {e : Expr} {v : Int64} (h : (Expr.neg e).Yields s v) :
    e.opposite.Yields s v := by
  cases e with
  | const n =>
    cases h with
    | neg h hv =>
      cases h
      simp only [Expr.opposite, hv]
      exact .const v
  | neg e =>
    -- the inner negation has not overflowed, so the outer one gives its operand back
    cases h with
    | neg h hv =>
      cases h with
      | @neg _ u _ h hu =>
        have hvu : v = u := eq_of_word? hv (by rw [toInt_of_word? hu, Int.neg_neg])
        rw [hvu]
        exact h
  | var | binary | read | call | cond => exact h

theorem Expr.Yields.dropNeutral {op : ArithOp} {a b : Expr} {v : Int64}
    (h : (Expr.binary op a b).Yields s v) : (Expr.dropNeutral op a b).Yields s v := by
  cases h with
  | @binary _ _ _ m n _ ha hb hv =>
    have hword := ArithOp.word?_of_onWord? hv
    unfold Expr.dropNeutral
    split
    · cases hb
      rwa [eq_of_word? hword (Int.add_zero _)]
    · cases ha
      rwa [eq_of_word? hword (Int.zero_add _)]
    · cases hb
      rwa [eq_of_word? hword (Int.sub_zero _)]
    · cases hb
      rwa [eq_of_word? hword (Int.mul_one _)]
    · cases ha
      rwa [eq_of_word? hword (Int.one_mul _)]
    · cases hb
      rwa [eq_of_word? hword (Int.tdiv_one _)]
    · exact .binary ha hb hv

theorem Expr.Yields.operation {op : ArithOp} {a b : Expr} {v : Int64}
    (h : (Expr.binary op a b).Yields s v) : (Expr.operation op a b).Yields s v := by
  unfold Expr.operation
  split
  · cases h with
    | binary ha hb hv =>
      cases ha
      cases hb
      simp only [hv]
      exact .const v
  · exact h.dropNeutral

theorem Expr.Yields.choose {t : Pred} {a b : Expr} {v : Int64} (h : (Expr.cond t a b).Yields s v) :
    (Expr.choose t a b).Yields s v := by
  unfold Expr.choose
  split
  · cases h with
    | condTrue _ ha => exact ha
    | condFalse ht _ => cases ht
  · cases h with
    | condTrue ht _ => cases ht
    | condFalse _ hb => exact hb
  · split
    · next hab =>
      subst hab
      cases h with
      | condTrue _ ha => exact ha
      | condFalse _ ha => exact ha
    · exact h

theorem Pred.Yields.negate {q : Pred} {r : Bool} (h : (Pred.not q).Yields s r) :
    q.negate.Yields s r := by
  cases q with
  | bool b =>
    cases h with
    | not h =>
      cases h
      exact .bool _
  | not q =>
    cases h with
    | not h =>
      cases h with
      | not h =>
        rw [Bool.not_not]
        exact h
  | compare | and | or | implies | paren | quantified | formula => exact h

theorem Pred.Yields.conj {q q' : Pred} {r : Bool} (h : (Pred.and q q').Yields s r) :
    (q.conj q').Yields s r := by
  cases h with
  | andTrue h h' =>
    unfold Pred.conj
    split
    · cases h
    · exact h'
    · exact h'
    · cases h'
      exact h
    · exact .andTrue h h'
  | andFalse h =>
    unfold Pred.conj
    split
    · exact h
    · exact .bool false
    · cases h
    · exact h
    · exact .andFalse h

theorem Pred.Yields.disj {q q' : Pred} {r : Bool} (h : (Pred.or q q').Yields s r) :
    (q.disj q').Yields s r := by
  cases h with
  | orTrue h =>
    unfold Pred.disj
    split
    · exact h
    · exact .bool true
    · cases h
    · exact h
    · exact .orTrue h
  | orFalse h h' =>
    unfold Pred.disj
    split
    · cases h
    · exact h'
    · exact h'
    · cases h'
      exact h
    · exact .orFalse h h'

theorem Pred.Yields.imp {q q' : Pred} {r : Bool} (h : (Pred.implies q q').Yields s r) :
    (q.imp q').Yields s r := by
  cases h with
  | impliesTrue h h' =>
    unfold Pred.imp
    split
    · exact h'
    · cases h
    · exact h'
    · cases h'
      exact Pred.Yields.negate (.not h)
    · exact .impliesTrue h h'
  | impliesFalse h =>
    unfold Pred.imp
    split
    · cases h
    · exact .bool true
    · exact .bool true
    · exact Pred.Yields.negate (.not h)
    · exact .impliesFalse h

theorem Pred.Yields.comparison {op : CmpOp} {a b : Expr} {r : Bool}
    (h : (Pred.compare op a b).Yields s r) : (Pred.comparison op a b).Yields s r := by
  cases h with
  | compare ha hb =>
    unfold Pred.comparison
    split
    · cases ha
      cases hb
      exact .bool _
    · split
      · next hab =>
        -- one expression on both sides, so one value
        subst hab
        rw [ha.unique hb, CmpOp.holds_self]
        exact .bool _
      · exact .compare ha hb

mutual

theorem Expr.Yields.simplify : ∀ {e : Expr} {v : Int64}, e.Yields s v → e.simplify.Yields s v
  | _, _, .const n => by
    rw [Expr.simplify]
    exact .const n
  | _, _, .var h => by
    rw [Expr.simplify]
    exact .var h
  | _, _, .neg h hw => by
    rw [Expr.simplify]
    exact Expr.Yields.opposite (.neg h.simplify hw)
  | _, _, .binary ha hb hv => by
    rw [Expr.simplify]
    exact Expr.Yields.operation (.binary ha.simplify hb.simplify hv)
  | _, _, .condTrue ht h => by
    rw [Expr.simplify]
    exact Expr.Yields.choose (.condTrue ht.simplify h.simplify)
  | _, _, .condFalse ht h => by
    rw [Expr.simplify]
    exact Expr.Yields.choose (.condFalse ht.simplify h.simplify)

theorem Pred.Yields.simplify : ∀ {q : Pred} {r : Bool}, q.Yields s r → q.simplify.Yields s r
  | _, _, .bool b => by
    rw [Pred.simplify]
    exact .bool b
  | _, _, .compare ha hb => by
    rw [Pred.simplify]
    exact Pred.Yields.comparison (.compare ha.simplify hb.simplify)
  | _, _, .not h => by
    rw [Pred.simplify]
    exact Pred.Yields.negate (.not h.simplify)
  | _, _, .andTrue h h' => by
    rw [Pred.simplify]
    exact Pred.Yields.conj (.andTrue h.simplify h'.simplify)
  | _, _, .andFalse h => by
    rw [Pred.simplify]
    exact Pred.Yields.conj (.andFalse h.simplify)
  | _, _, .orTrue h => by
    rw [Pred.simplify]
    exact Pred.Yields.disj (.orTrue h.simplify)
  | _, _, .orFalse h h' => by
    rw [Pred.simplify]
    exact Pred.Yields.disj (.orFalse h.simplify h'.simplify)
  | _, _, .impliesTrue h h' => by
    rw [Pred.simplify]
    exact Pred.Yields.imp (.impliesTrue h.simplify h'.simplify)
  | _, _, .impliesFalse h => by
    rw [Pred.simplify]
    exact Pred.Yields.imp (.impliesFalse h.simplify)
  | _, _, .paren h => by
    rw [Pred.simplify]
    exact h.simplify

end

end

/-! ## Assignments -/

section

variable {p : Program} {b : Below} {s : State}

/-- The arguments of an assignment without calls are numbers, those of its expressions. -/
theorem Expr.yields_of_operands (hs : s.AllInts) : ∀ {es : List Expr} {fuel : Nat}
    {r : List Value × Nat}, (∀ e ∈ es, e.callFree = true) →
      Expr.operands p b s es fuel = .ok r →
      ∃ ns : List Int64, r.1 = ns.map .int ∧ List.Forall₂ (Expr.Yields s) es ns
  | [], _, _, _, h => by
    rw [Expr.operands_nil_eq_ok.mp h]
    exact ⟨[], rfl, .nil⟩
  | e :: es, _, _, hc, h => by
    obtain ⟨he, hes⟩ := List.forall_mem_cons.mp hc
    obtain ⟨v, fuel₁, vs, hv, hvs, hr⟩ := Expr.operands_cons_eq_ok.mp h
    obtain ⟨ns, hns, hall⟩ := Expr.yields_of_operands hs hes hvs
    rcases Expr.operand_eq_ok.mp hv with ⟨c, harray, -⟩ | ⟨-, n, hn, hvn⟩
    · obtain ⟨x, -, hx⟩ := Expr.array?_eq_some.mp harray
      exact absurd hx hs.not_array
    · refine ⟨n :: ns, ?_, .cons (Expr.yields_of_eval hs he hn) hall⟩
      rw [hr, List.map_cons, ← hns, ← hvn]

/-- Of two lists that are related element by element, the last entries for a name are related. -/
theorem rel_lookup_zip {α β : Type} {R : α → β → Prop} {as : List α} {bs : List β}
    (h : List.Forall₂ R as bs) (xs : List String) (x : String) :
    Option.Rel R ((xs.zip as).reverse.lookup x) ((xs.zip bs).reverse.lookup x) := by
  induction h generalizing xs with
  | nil =>
    rw [List.zip_nil_right, List.zip_nil_right]
    exact .none
  | @cons a b as bs hab _ ih =>
    cases xs with
    | nil => exact .none
    | cons y xs =>
      rw [List.zip_cons_cons, List.zip_cons_cons, List.reverse_cons, List.reverse_cons,
        List.lookup_append, List.lookup_append]
      have hlater := ih xs
      generalize (xs.zip as).reverse.lookup x = a' at hlater
      generalize (xs.zip bs).reverse.lookup x = b' at hlater
      cases hlater with
      | some hlater => exact .some hlater
      | none =>
        rw [Option.none_or, Option.none_or, List.lookup_cons, List.lookup_cons]
        cases x == y with
        | true => exact .some hab
        | false => exact .none

theorem State.getElem?_insertAll_ints (s : State) (xs : List String) (ns : List Int64)
    (x : String) : (s.insertAll (xs.zip (ns.map .int)))[x]? =
      (((xs.zip ns).reverse.lookup x).map .int).or s[x]? := by
  rw [State.getElem?_insertAll, List.zip_map_right, ← List.map_reverse, lookup_map_snd]

/-- The expressions of an assignment supply what the variables are afterwards. -/
theorem Bindings.supply_ofPairs {es : List Expr} {ns : List Int64}
    (h : List.Forall₂ (Expr.Yields s) es ns) (xs : List String) :
    (Bindings.ofPairs (xs.zip es)).Supply s (s.insertAll (xs.zip (ns.map .int))) := by
  intro x v hx
  rw [State.getElem?_insertAll_ints] at hx
  rw [Bindings.lookup_ofPairs]
  have hrel := rel_lookup_zip h xs x
  generalize (xs.zip es).reverse.lookup x = e at hrel
  generalize (xs.zip ns).reverse.lookup x = n at hrel hx
  cases hrel with
  | none => exact .var hx
  | some hn =>
    cases hx
    exact hn

theorem State.AllInts.insertAll_ints (hs : s.AllInts) (xs : List String) (ns : List Int64) :
    (s.insertAll (xs.zip (ns.map .int))).AllInts := by
  refine hs.insertAll ?_
  rintro ⟨x, v⟩ hb
  obtain ⟨n, -, rfl⟩ := List.mem_map.mp (List.of_mem_zip hb).2
  rfl

end

/-! ## Statements -/

mutual

/-- There is no loop, no call and no formula in the statement, and its targets are variables. -/
def Stmt.straight : Stmt → Bool
  | .assign targets exprs => targets.all (·.scalar?.isSome) && exprs.all Expr.callFree
  | .block stmts => Stmt.straightList stmts
  | .branch condition yes no => condition.callFree && yes.straight && (match no with
    | some t => t.straight
    | none => true)
  | .loop _ _ _ => false

def Stmt.straightList : List Stmt → Bool
  | [] => true
  | t :: rest => t.straight && Stmt.straightList rest

end

/-- The second state holds numbers and has a value for each name that the first has one for. What a
predicate yields in it, the predicate worked out by `wp` yields in the first. -/
structure Retraces (wp : Pred → Except VerifyError Pred) (s s' : State) : Prop where
  ints : s'.AllInts
  kept : ∀ x : String, s[x]?.isSome = true → s'[x]?.isSome = true
  yields : ∀ {q w : Pred} {r : Bool}, wp q = .ok w → q.Yields s' r → w.Yields s r

theorem Retraces.skip {s : State} (hs : s.AllInts) : Retraces .ok s s where
  ints := hs
  kept _ h := h
  yields h hq := by
    cases h
    exact hq

theorem exists_names_of_scalar {targets : List Target}
    (h : targets.all (·.scalar?.isSome) = true) : ∃ xs : List String, targets = xs.map .var := by
  refine ⟨targets.filterMap Target.scalar?, ?_⟩
  induction targets with
  | nil => rfl
  | cons t targets ih =>
    rw [List.all_cons, Bool.and_eq_true] at h
    cases t with
    | var x => exact congrArg _ (ih h.2)
    | cell a i => cases h.1

section

variable {p : Program} {b : Below} {s s' : State} {fuel fuel' : Nat} (close : Bool)

theorem retraces_assign {targets : List Target} {exprs : List Expr}
    (htargets : targets.all (·.scalar?.isSome) = true) (hexprs : exprs.all Expr.callFree = true)
    (hs : s.AllInts) (h : execAssign p b targets exprs s fuel = .ok (s', fuel')) :
    Retraces ((Stmt.assign targets exprs).wp close) s s' := by
  obtain ⟨xs, rfl⟩ := exists_names_of_scalar htargets
  -- without calls there is nothing to receive several values from
  have hsingle : isSingleCall exprs = false := by
    unfold isSingleCall
    split
    · cases hexprs
    · rfl
  obtain ⟨values, fuel₁, hv, -, rfl⟩ := execAssign_vars h
  rw [assignedValues_of_operands (.inr hsingle)] at hv
  obtain ⟨ns, rfl, hns⟩ := Expr.yields_of_operands hs (List.all_eq_true.mp hexprs) hv
  refine ⟨hs.insertAll_ints xs ns, fun x hx => ?_, fun {q w r} hw hq => ?_⟩
  · rw [State.getElem?_insertAll_ints, Option.isSome_or, hx, Bool.or_true]
  · obtain ⟨w₀, hw₀, rfl⟩ := Stmt.wp_assign_eq_ok.mp hw
    refine Pred.Yields.simplify ?_
    rcases wpAssign_vars hw₀ with ⟨rfl, rfl⟩ | ⟨-, hcall, -⟩ | ⟨-, rfl⟩
    · exact hq
    · cases hsingle.symm.trans hcall
    · exact hq.subst (Bindings.supply_ofPairs hns xs)

theorem Pred.Yields.wpBranch_true {c q₁ q₂ : Pred} {r : Bool} (hc : c.Yields s true)
    (h : q₁.Yields s r) : (wpBranch c q₁ q₂).Yields s r := by
  cases r with
  | true => exact .orTrue (.andTrue hc h)
  | false =>
    -- the other side is looked at as well, but only up to its condition
    exact .orFalse (.andTrue hc h) (.andFalse (.not hc))

theorem Pred.Yields.wpBranch_false {c q₁ q₂ : Pred} {r : Bool} (hc : c.Yields s false)
    (h : q₂.Yields s r) : (wpBranch c q₁ q₂).Yields s r :=
  .orFalse (.andFalse hc) (.andTrue (.not hc) h)

/-- A conditional is retraced on the side that was taken. -/
theorem Stmt.retraces_branch {condition : Pred} {yes : Stmt} {no : Option Stmt}
    (hcondition : condition.callFree = true) (hs : s.AllInts)
    (hyes : ∀ {fuel}, yes.exec p b s fuel = .ok (s', fuel') → Retraces (yes.wp close) s s')
    (hno : ∀ {fuel}, no.elim pure (fun t => t.exec p b) s fuel = .ok (s', fuel') →
      Retraces (fun q => no.elim (.ok q) fun t => t.wp close q) s s')
    (h : (Stmt.branch condition yes no).exec p b s fuel = .ok (s', fuel')) :
    Retraces ((Stmt.branch condition yes no).wp close) s s' := by
  rw [Stmt.exec_branch, EvalM.cond_eq_ok] at h
  obtain ⟨fuel₁, ⟨hc, hrun⟩ | ⟨hc, hrun⟩⟩ := h
  · obtain ⟨hints, hkept, hyields⟩ := hyes hrun
    refine ⟨hints, hkept, fun hw hq => ?_⟩
    obtain ⟨q₁, q₂, h₁, -, rfl⟩ := Stmt.wp_branch_eq_ok.mp hw
    have htrue := Pred.yields_of_eval hs hcondition hc
    exact (Pred.Yields.wpBranch_true htrue (hyields h₁ hq)).simplify
  · obtain ⟨hints, hkept, hyields⟩ := hno hrun
    refine ⟨hints, hkept, fun hw hq => ?_⟩
    obtain ⟨q₁, q₂, -, h₂, rfl⟩ := Stmt.wp_branch_eq_ok.mp hw
    have hfalse := Pred.yields_of_eval hs hcondition hc
    exact (Pred.Yields.wpBranch_false hfalse (hyields h₂ hq)).simplify

mutual

/-- **Straight-line statements are retraced by their weakest preconditions.** -/
theorem Stmt.retraces : ∀ {c : Stmt} {s s' : State} {fuel fuel' : Nat}, c.straight = true →
    s.AllInts → c.exec p b s fuel = .ok (s', fuel') → Retraces (c.wp close) s s'
  | .assign _ _, _, _, _, _, hc, hs, h => by
    rw [Stmt.straight, Bool.and_eq_true] at hc
    rw [Stmt.exec] at h
    exact retraces_assign close hc.1 hc.2 hs h
  | .block _, _, _, _, _, hc, hs, h => by
    rw [Stmt.exec] at h
    obtain ⟨hints, hkept, hyields⟩ := Stmt.retraces_block hc hs h
    refine ⟨hints, hkept, fun hw => hyields ?_⟩
    rwa [Stmt.wp] at hw
  | .branch _ _ none, _, _, _, _, hc, hs, h => by
    simp only [Stmt.straight, Bool.and_eq_true] at hc
    refine Stmt.retraces_branch close hc.1.1 hs (Stmt.retraces hc.1.2 hs) (fun hrun => ?_) h
    cases EvalM.pure_eq_ok.mp hrun
    exact .skip hs
  | .branch _ _ (some _), _, _, _, _, hc, hs, h => by
    simp only [Stmt.straight, Bool.and_eq_true] at hc
    exact Stmt.retraces_branch close hc.1.1 hs (Stmt.retraces hc.1.2 hs) (Stmt.retraces hc.2 hs) h
  | .loop _ _ _, _, _, _, _, hc, _, _ => by cases hc

theorem Stmt.retraces_block : ∀ {cs : List Stmt} {s s' : State} {fuel fuel' : Nat},
    Stmt.straightList cs = true → s.AllInts → Stmt.execBlock p b cs s fuel = .ok (s', fuel') →
      Retraces (Stmt.wpBlock close cs) s s'
  | [], s, _, _, _, _, hs, h => by
    rw [Stmt.execBlock, EvalM.pure_eq_ok] at h
    cases h
    obtain ⟨hints, hkept, hyields⟩ := Retraces.skip hs
    refine ⟨hints, hkept, fun hw => hyields ?_⟩
    rwa [Stmt.wpBlock] at hw
  | _ :: _, _, _, _, _, hc, hs, h => by
    rw [Stmt.straightList, Bool.and_eq_true] at hc
    rw [Stmt.execBlock] at h
    obtain ⟨t, fuel₁, hfirst, hrest⟩ := EvalM.bind_eq_ok.mp h
    have first := Stmt.retraces hc.1 hs hfirst
    have rest := Stmt.retraces_block hc.2 first.ints hrest
    refine ⟨rest.ints, fun x hx => rest.kept x (first.kept x hx), fun hw hq => ?_⟩
    -- the run goes forwards and the predicates go backwards
    obtain ⟨w, hw, hv⟩ := Stmt.wpBlock_cons_eq_ok.mp hw
    exact first.yields hv (rest.yields hw hq)

end

end

end Contracts

import Contracts.Proofs.Meaning
import Contracts.Simplify

/-!
# The laws of simplification

The laws of `Simplify` are about arithmetic and logic, one node at a time. So they are proved of
every denotation in which these nodes are arithmetic and logic (`Denotation.Regular`), whatever
names, cells, calls, quantifiers and formulas stand for. Literals are folded only where the 64-bit
result is the integer result, a zero divisor is never folded, and equal operands are equal by
`DecidableEq` and so have equal values.

Beyond the laws the pass needs that a call keeps its value when its arguments keep theirs. This is
not so of every call, because an argument can become the bare name of an array. `Expr.EveryCall` asks
a condition of the calls that the pass reaches, and `Denotation.KeepsCalls` says that it is enough.

A syntactic property that passes between nodes and their parts (`Hereditary`) is kept by the pass.
-/

set_option autoImplicit false

namespace Contracts

/-! ## Denotations -/

/-- Numbers for expressions and propositions for predicates. -/
structure Denotation where
  value : Expr → Int
  Holds : Pred → Prop

/-- Literals, operations, conditionals, comparisons and connectives mean what they say, with the
arithmetic of an interpretation. -/
structure Denotation.Regular {α : Type} (R : Denotation) (M : Interpretation α) : Prop where
  const : ∀ n, R.value (.const n) = n.toInt
  neg : ∀ e, R.value (.neg e) = -R.value e
  binary : ∀ op a b, R.value (.binary op a b) = M.arith op (R.value a) (R.value b)
  cond : ∀ p a b, R.value (.cond p a b) = select (R.Holds p) (R.value a) (R.value b)
  bool : ∀ b, R.Holds (.bool b) ↔ b = true
  compare : ∀ op a b, R.Holds (.compare op a b) ↔ op.holds (R.value a) (R.value b) = true
  not : ∀ p, R.Holds (.not p) ↔ ¬R.Holds p
  and : ∀ p q, R.Holds (.and p q) ↔ R.Holds p ∧ R.Holds q
  or : ∀ p q, R.Holds (.or p q) ↔ R.Holds p ∨ R.Holds q
  implies : ∀ p q, R.Holds (.implies p q) ↔ (R.Holds p → R.Holds q)
  paren : ∀ p, R.Holds (.paren p) ↔ R.Holds p

theorem CmpOp.holds_self (op : CmpOp) (n : Int) : op.holds n n = op.isReflexive := by
  cases op <;> simp [CmpOp.holds, CmpOp.isReflexive]

namespace Denotation.Regular

variable {α : Type} {M : Interpretation α} {R : Denotation} (h : R.Regular M)

include h

/-! ## Laws on expressions -/

theorem value_opposite (e : Expr) : R.value e.opposite = -R.value e := by
  cases e with
  | const n =>
    simp only [Expr.opposite]
    split
    · next m hm => rw [h.const, h.const, toInt_of_word? hm]
    · rw [h.neg]
  | neg e => rw [Expr.opposite, h.neg, Int.neg_neg]
  | var | binary | read | call | cond => exact h.neg _

theorem value_dropNeutral (op : ArithOp) (a b : Expr) :
    R.value (Expr.dropNeutral op a b) = M.arith op (R.value a) (R.value b) := by
  have hexact : ∀ {op : ArithOp}, op ≠ .div → ∀ m n : Int, M.arith op m n = op.onInt m n :=
    fun hop _ _ => if_neg fun hz => hop hz.1
  unfold Expr.dropNeutral
  split
  · rw [h.const, hexact (by decide)]
    exact (Int.add_zero _).symm
  · rw [h.const, hexact (by decide)]
    exact (Int.zero_add _).symm
  · rw [h.const, hexact (by decide)]
    exact (Int.sub_zero _).symm
  · rw [h.const, hexact (by decide)]
    exact (Int.mul_one _).symm
  · rw [h.const, hexact (by decide)]
    exact (Int.one_mul _).symm
  · -- the divisor is one, so this quotient is not left to the interpretation
    rw [h.const, Interpretation.arith, if_neg (by rintro ⟨-, hz⟩; exact absurd hz (by decide))]
    exact (Int.tdiv_one _).symm
  · exact h.binary _ _ _

theorem value_operation (op : ArithOp) (a b : Expr) :
    R.value (Expr.operation op a b) = M.arith op (R.value a) (R.value b) := by
  unfold Expr.operation
  split
  · next m n =>
    split
    · next v hv => rw [h.const, h.const, h.const, M.arith_of_onWord? hv]
    · -- literals whose result does not fit, or a zero divisor: the node stays, but for the next law
      exact h.value_dropNeutral op _ _
  · exact h.value_dropNeutral op a b

theorem value_choose (p : Pred) (a b : Expr) :
    R.value (Expr.choose p a b) = select (R.Holds p) (R.value a) (R.value b) := by
  unfold Expr.choose
  split
  · rw [select_of_true ((h.bool true).mpr rfl)]
  · rw [select_of_false (by rw [h.bool]; exact Bool.false_ne_true)]
  · split
    · next hab => rw [hab, select_self]
    · exact h.cond _ _ _

/-! ## Laws on predicates -/

theorem holds_negate (p : Pred) : R.Holds p.negate ↔ ¬R.Holds p := by
  cases p with
  | bool b => cases b <;> simp [Pred.negate, h.bool]
  | not p => rw [Pred.negate, h.not, not_not]
  | compare | and | or | implies | paren | quantified | formula => exact h.not _

theorem holds_conj (p q : Pred) : R.Holds (p.conj q) ↔ R.Holds p ∧ R.Holds q := by
  unfold Pred.conj
  split <;> simp [h.bool, h.and]

theorem holds_disj (p q : Pred) : R.Holds (p.disj q) ↔ R.Holds p ∨ R.Holds q := by
  unfold Pred.disj
  split <;> simp [h.bool, h.or]

theorem holds_imp (p q : Pred) : R.Holds (p.imp q) ↔ (R.Holds p → R.Holds q) := by
  unfold Pred.imp
  split
  · simp [h.bool]
  · simp [h.bool]
  · simp [h.bool]
  · rw [h.holds_negate]
    simp [h.bool]
  · exact h.implies _ _

theorem holds_comparison (op : CmpOp) (a b : Expr) :
    R.Holds (Pred.comparison op a b) ↔ op.holds (R.value a) (R.value b) = true := by
  unfold Pred.comparison
  split
  · rw [h.bool, h.const, h.const]
  · split
    · next hab => rw [hab, CmpOp.holds_self, h.bool]
    · exact h.compare _ _ _

end Denotation.Regular

/-! ## The pass -/

mutual

/-- A condition on every call that simplification reaches. It reaches all of them but those under
quantifiers and in the arguments of formulas. -/
def Expr.EveryCall (C : String → List Expr → Prop) : Expr → Prop
  | .const _ | .var _ => True
  | .neg e | .read _ e => e.EveryCall C
  | .binary _ a b => a.EveryCall C ∧ b.EveryCall C
  | .call f args => C f args ∧ Expr.EveryCallIn C args
  | .cond p a b => p.EveryCall C ∧ a.EveryCall C ∧ b.EveryCall C

def Expr.EveryCallIn (C : String → List Expr → Prop) : List Expr → Prop
  | [] => True
  | e :: es => e.EveryCall C ∧ Expr.EveryCallIn C es

def Pred.EveryCall (C : String → List Expr → Prop) : Pred → Prop
  | .bool _ | .quantified .. | .formula .. => True
  | .compare _ a b => a.EveryCall C ∧ b.EveryCall C
  | .not p | .paren p => p.EveryCall C
  | .and p q | .or p q | .implies p q => p.EveryCall C ∧ q.EveryCall C

end

mutual

/-- A condition that all calls meet. -/
theorem Expr.everyCall_of_forall {C : String → List Expr → Prop} (hC : ∀ f args, C f args) :
    ∀ e : Expr, e.EveryCall C
  | .const _ | .var _ => by simp only [Expr.EveryCall]
  | .neg e | .read _ e => by
    rw [Expr.EveryCall]
    exact Expr.everyCall_of_forall hC e
  | .binary _ a b => by
    rw [Expr.EveryCall]
    exact ⟨Expr.everyCall_of_forall hC a, Expr.everyCall_of_forall hC b⟩
  | .call f args => by
    rw [Expr.EveryCall]
    exact ⟨hC f args, Expr.everyCallIn_of_forall hC args⟩
  | .cond p a b => by
    rw [Expr.EveryCall]
    exact ⟨Pred.everyCall_of_forall hC p, Expr.everyCall_of_forall hC a,
      Expr.everyCall_of_forall hC b⟩

theorem Expr.everyCallIn_of_forall {C : String → List Expr → Prop} (hC : ∀ f args, C f args) :
    ∀ es : List Expr, Expr.EveryCallIn C es
  | [] => by rw [Expr.EveryCallIn]; trivial
  | e :: es => by
    rw [Expr.EveryCallIn]
    exact ⟨Expr.everyCall_of_forall hC e, Expr.everyCallIn_of_forall hC es⟩

theorem Pred.everyCall_of_forall {C : String → List Expr → Prop} (hC : ∀ f args, C f args) :
    ∀ p : Pred, p.EveryCall C
  | .bool _ | .quantified .. | .formula .. => by simp only [Pred.EveryCall]
  | .compare _ a b => by
    rw [Pred.EveryCall]
    exact ⟨Expr.everyCall_of_forall hC a, Expr.everyCall_of_forall hC b⟩
  | .not p | .paren p => by
    rw [Pred.EveryCall]
    exact Pred.everyCall_of_forall hC p
  | .and p q | .or p q | .implies p q => by
    rw [Pred.EveryCall]
    exact ⟨Pred.everyCall_of_forall hC p, Pred.everyCall_of_forall hC q⟩

end

/-- Cells depend on the value of the index, and calls that meet the condition keep their value when
their arguments are simplified, provided that these do. -/
structure Denotation.KeepsCalls (R : Denotation) (C : String → List Expr → Prop) : Prop where
  read : ∀ a i j, R.value i = R.value j → R.value (.read a i) = R.value (.read a j)
  call : ∀ f args, C f args → (∀ e ∈ args, R.value e.simplify = R.value e) →
    R.value (.call f (Expr.simplifyList args)) = R.value (.call f args)

section

variable {α : Type} {M : Interpretation α} {R : Denotation} {C : String → List Expr → Prop}

mutual

/-- Simplification keeps the value of an expression. -/
theorem Denotation.Regular.value_simplify (h : R.Regular M) (hC : R.KeepsCalls C) :
    ∀ {e : Expr}, e.EveryCall C → R.value e.simplify = R.value e
  | .const _, _ | .var _, _ => by rw [Expr.simplify]
  | .neg e, he => by
    simp only [Expr.EveryCall] at he
    rw [Expr.simplify, h.value_opposite, h.value_simplify hC he, h.neg]
  | .binary .., he => by
    simp only [Expr.EveryCall] at he
    rw [Expr.simplify, h.value_operation, h.value_simplify hC he.1, h.value_simplify hC he.2,
      h.binary]
  | .read .., he => by
    simp only [Expr.EveryCall] at he
    rw [Expr.simplify, hC.read _ _ _ (h.value_simplify hC he)]
  | .call .., he => by
    simp only [Expr.EveryCall] at he
    rw [Expr.simplify, hC.call _ _ he.1 (h.value_simplifyAll hC he.2)]
  | .cond .., he => by
    simp only [Expr.EveryCall] at he
    rw [Expr.simplify, h.value_choose, propext (h.holds_simplify hC he.1),
      h.value_simplify hC he.2.1, h.value_simplify hC he.2.2, h.cond]

theorem Denotation.Regular.value_simplifyAll (h : R.Regular M) (hC : R.KeepsCalls C) :
    ∀ {es : List Expr}, Expr.EveryCallIn C es → ∀ e ∈ es, R.value e.simplify = R.value e
  | [], _ => fun _ he => (List.not_mem_nil he).elim
  | _ :: _, hes => by
    simp only [Expr.EveryCallIn] at hes
    exact List.forall_mem_cons.mpr ⟨h.value_simplify hC hes.1, h.value_simplifyAll hC hes.2⟩

/-- Simplification keeps the truth of a predicate. -/
theorem Denotation.Regular.holds_simplify (h : R.Regular M) (hC : R.KeepsCalls C) :
    ∀ {p : Pred}, p.EveryCall C → (R.Holds p.simplify ↔ R.Holds p)
  | .bool _, _ | .quantified .., _ | .formula .., _ => by rw [Pred.simplify]
  | .compare .., hp => by
    simp only [Pred.EveryCall] at hp
    rw [Pred.simplify, h.holds_comparison, h.value_simplify hC hp.1, h.value_simplify hC hp.2,
      h.compare]
  | .not _, hp => by
    simp only [Pred.EveryCall] at hp
    rw [Pred.simplify, h.holds_negate, h.holds_simplify hC hp, h.not]
  | .and .., hp => by
    simp only [Pred.EveryCall] at hp
    rw [Pred.simplify, h.holds_conj, h.holds_simplify hC hp.1, h.holds_simplify hC hp.2, h.and]
  | .or .., hp => by
    simp only [Pred.EveryCall] at hp
    rw [Pred.simplify, h.holds_disj, h.holds_simplify hC hp.1, h.holds_simplify hC hp.2, h.or]
  | .implies .., hp => by
    simp only [Pred.EveryCall] at hp
    rw [Pred.simplify, h.holds_imp, h.holds_simplify hC hp.1, h.holds_simplify hC hp.2, h.implies]
  | .paren _, hp => by
    simp only [Pred.EveryCall] at hp
    rw [Pred.simplify, h.holds_simplify hC hp, h.paren]

end

end

theorem Expr.simplifyList_eq_map (es : List Expr) :
    Expr.simplifyList es = es.map Expr.simplify := by
  induction es with
  | nil => rw [Expr.simplifyList, List.map_nil]
  | cons e es ih => rw [Expr.simplifyList, List.map_cons, ih]

/-! ## What simplification inherits

The laws take nodes apart and put their parts together again, with literals in between. So they keep
every property that literals have and that a node has exactly if its parts have it. Of reads and
calls this is asked only as far as the pass goes, which simplifies their arguments in place. -/

/-- A property of expressions and predicates that passes between nodes and their parts. -/
structure Hereditary (E : Expr → Prop) (P : Pred → Prop) : Prop where
  const : ∀ n, E (.const n)
  neg : ∀ e, E (.neg e) ↔ E e
  binary : ∀ op a b, E (.binary op a b) ↔ E a ∧ E b
  read : ∀ a i, E (.read a i) → (E i → E i.simplify) → E (.read a i.simplify)
  call : ∀ f args, E (.call f args) → (∀ e ∈ args, E e → E e.simplify) →
    E (.call f (Expr.simplifyList args))
  cond : ∀ p a b, E (.cond p a b) ↔ P p ∧ E a ∧ E b
  bool : ∀ b, P (.bool b)
  compare : ∀ op a b, P (.compare op a b) ↔ E a ∧ E b
  not : ∀ p, P (.not p) ↔ P p
  and : ∀ p q, P (.and p q) ↔ P p ∧ P q
  or : ∀ p q, P (.or p q) ↔ P p ∧ P q
  implies : ∀ p q, P (.implies p q) ↔ P p ∧ P q
  paren : ∀ p, P (.paren p) ↔ P p

namespace Hereditary

variable {E : Expr → Prop} {P : Pred → Prop}

section

variable (h : Hereditary E P)

include h

theorem opposite {e : Expr} (he : E e) : E e.opposite := by
  cases e with
  | const n =>
    rw [Expr.opposite]
    split
    · exact h.const _
    · exact (h.neg _).mpr he
  | neg e => exact (h.neg e).mp he
  | var | binary | read | call | cond => exact (h.neg _).mpr he

theorem dropNeutral {op : ArithOp} {a b : Expr} (ha : E a) (hb : E b) :
    E (Expr.dropNeutral op a b) := by
  have hab : E (.binary op a b) := (h.binary op a b).mpr ⟨ha, hb⟩
  unfold Expr.dropNeutral
  split
  all_goals first | exact ha | exact hb | exact hab

theorem operation {op : ArithOp} {a b : Expr} (ha : E a) (hb : E b) :
    E (Expr.operation op a b) := by
  unfold Expr.operation
  split
  · split
    · exact h.const _
    · exact h.dropNeutral ha hb
  · exact h.dropNeutral ha hb

theorem choose {p : Pred} {a b : Expr} (hp : P p) (ha : E a) (hb : E b) :
    E (Expr.choose p a b) := by
  unfold Expr.choose
  split
  · exact ha
  · exact hb
  · split
    · exact ha
    · exact (h.cond _ _ _).mpr ⟨hp, ha, hb⟩

theorem negate {p : Pred} (hp : P p) : P p.negate := by
  cases p with
  | bool b => exact h.bool _
  | not p => exact (h.not p).mp hp
  | compare | and | or | implies | paren | quantified | formula => exact (h.not _).mpr hp

theorem conj {p q : Pred} (hp : P p) (hq : P q) : P (p.conj q) := by
  unfold Pred.conj
  split
  · exact h.bool _
  · exact h.bool _
  · exact hq
  · exact hp
  · exact (h.and _ _).mpr ⟨hp, hq⟩

theorem disj {p q : Pred} (hp : P p) (hq : P q) : P (p.disj q) := by
  unfold Pred.disj
  split
  · exact h.bool _
  · exact h.bool _
  · exact hq
  · exact hp
  · exact (h.or _ _).mpr ⟨hp, hq⟩

theorem imp {p q : Pred} (hp : P p) (hq : P q) : P (p.imp q) := by
  unfold Pred.imp
  split
  · exact hq
  · exact h.bool _
  · exact h.bool _
  · exact h.negate hp
  · exact (h.implies _ _).mpr ⟨hp, hq⟩

theorem comparison {op : CmpOp} {a b : Expr} (ha : E a) (hb : E b) :
    P (Pred.comparison op a b) := by
  unfold Pred.comparison
  split
  · exact h.bool _
  · split
    · exact h.bool _
    · exact (h.compare _ _ _).mpr ⟨ha, hb⟩

end

mutual

theorem expr_simplify (h : Hereditary E P) : ∀ {e : Expr}, E e → E e.simplify
  | .const _, he | .var _, he => he
  | .neg e, he => by
    rw [Expr.simplify]
    exact h.opposite (h.expr_simplify ((h.neg e).mp he))
  | .binary op a b, he => by
    obtain ⟨ha, hb⟩ := (h.binary op a b).mp he
    rw [Expr.simplify]
    exact h.operation (h.expr_simplify ha) (h.expr_simplify hb)
  | .read a i, he => by
    rw [Expr.simplify]
    exact h.read a i he h.expr_simplify
  | .call f args, he => by
    rw [Expr.simplify]
    exact h.call f args he (h.args_simplify args)
  | .cond p a b, he => by
    obtain ⟨hp, ha, hb⟩ := (h.cond p a b).mp he
    rw [Expr.simplify]
    exact h.choose (h.pred_simplify hp) (h.expr_simplify ha) (h.expr_simplify hb)

theorem args_simplify (h : Hereditary E P) : ∀ (es : List Expr), ∀ e ∈ es, E e → E e.simplify
  | [] => fun _ he => absurd he List.not_mem_nil
  | _ :: es => List.forall_mem_cons.mpr ⟨h.expr_simplify, h.args_simplify es⟩

theorem pred_simplify (h : Hereditary E P) : ∀ {p : Pred}, P p → P p.simplify
  | .bool _, hp | .quantified .., hp | .formula .., hp => hp
  | .compare op a b, hp => by
    obtain ⟨ha, hb⟩ := (h.compare op a b).mp hp
    rw [Pred.simplify]
    exact h.comparison (h.expr_simplify ha) (h.expr_simplify hb)
  | .not p, hp => by
    rw [Pred.simplify]
    exact h.negate (h.pred_simplify ((h.not p).mp hp))
  | .and p q, hpq => by
    obtain ⟨hp, hq⟩ := (h.and p q).mp hpq
    rw [Pred.simplify]
    exact h.conj (h.pred_simplify hp) (h.pred_simplify hq)
  | .or p q, hpq => by
    obtain ⟨hp, hq⟩ := (h.or p q).mp hpq
    rw [Pred.simplify]
    exact h.disj (h.pred_simplify hp) (h.pred_simplify hq)
  | .implies p q, hpq => by
    obtain ⟨hp, hq⟩ := (h.implies p q).mp hpq
    rw [Pred.simplify]
    exact h.imp (h.pred_simplify hp) (h.pred_simplify hq)
  | .paren p, hp => by
    rw [Pred.simplify]
    exact h.pred_simplify ((h.paren p).mp hp)

end

end Hereditary

end Contracts

import Contracts.Simplify
import Contracts.Substitution

/-!
# Normal forms

One pass of simplification is enough. `Expr.Redex` and `Pred.Redex` list the laws, as the nodes that
they rewrite; an expression or a predicate is normal if no node that the pass reaches is one of them.
What the pass gives is normal (`Pred.normal_simplify`), and it leaves alone what is normal
(`Pred.simplify_of_normal`), so a second pass changes nothing. Nor does it ever add nodes
(`Pred.size_simplify_le`).

All three rest on what the pass does at one node, where the parts are simplified already. If a law
applies, the result is a literal or one of the parts; otherwise the node stays (`Yields`). The only
law that builds a node is that for an implication of falsehood, and what it builds is a negation, to
which the laws for negations have been applied.
-/

set_option autoImplicit false

namespace Contracts

/-! ## The laws -/

/-- One operand is neutral, so that the other one is the result. -/
inductive Expr.Neutral : ArithOp → Expr → Expr → Prop where
  | addZero (e : Expr) : Neutral .add e (.const 0)
  | zeroAdd (e : Expr) : Neutral .add (.const 0) e
  | subZero (e : Expr) : Neutral .sub e (.const 0)
  | mulOne (e : Expr) : Neutral .mul e (.const 1)
  | oneMul (e : Expr) : Neutral .mul (.const 1) e
  | divOne (e : Expr) : Neutral .div e (.const 1)

/-- The expressions that a law rewrites. Literals are computed only where the result fits. -/
inductive Expr.Redex : Expr → Prop where
  | negConst {n m : Int64} (h : negWord? n = some m) : Redex (.neg (.const n))
  | negNeg (e : Expr) : Redex (.neg (.neg e))
  | fold {op : ArithOp} {m n v : Int64} (h : op.onWord? m n = some v) :
    Redex (.binary op (.const m) (.const n))
  | neutral {op : ArithOp} {a b : Expr} (h : Neutral op a b) : Redex (.binary op a b)
  | condBool (v : Bool) (a b : Expr) : Redex (.cond (.bool v) a b)
  | condSame (p : Pred) (a : Expr) : Redex (.cond p a a)

/-- The predicates that a law rewrites. -/
inductive Pred.Redex : Pred → Prop where
  | compareConst (op : CmpOp) (m n : Int64) : Redex (.compare op (.const m) (.const n))
  | compareSame (op : CmpOp) (a : Expr) : Redex (.compare op a a)
  | notBool (v : Bool) : Redex (.not (.bool v))
  | notNot (p : Pred) : Redex (.not (.not p))
  | andLeft (v : Bool) (p : Pred) : Redex (.and (.bool v) p)
  | andRight (p : Pred) (v : Bool) : Redex (.and p (.bool v))
  | orLeft (v : Bool) (p : Pred) : Redex (.or (.bool v) p)
  | orRight (p : Pred) (v : Bool) : Redex (.or p (.bool v))
  | impliesLeft (v : Bool) (p : Pred) : Redex (.implies (.bool v) p)
  | impliesRight (p : Pred) (v : Bool) : Redex (.implies p (.bool v))
  | paren (p : Pred) : Redex (.paren p)

mutual

/-- No law applies at any node that the pass reaches. -/
def Expr.Normal : Expr → Prop
  | .const _ | .var _ => True
  | .neg e => e.Normal ∧ ¬(Expr.neg e).Redex
  | .binary op a b => (a.Normal ∧ b.Normal) ∧ ¬(Expr.binary op a b).Redex
  | .read _ i => i.Normal
  | .call _ args => Expr.NormalList args
  | .cond p a b => (p.Normal ∧ a.Normal ∧ b.Normal) ∧ ¬(Expr.cond p a b).Redex

def Expr.NormalList : List Expr → Prop
  | [] => True
  | e :: es => e.Normal ∧ Expr.NormalList es

/-- The same for a predicate. The pass does not reach into quantifiers and formula references. -/
def Pred.Normal : Pred → Prop
  | .bool _ | .quantified .. | .formula .. => True
  | .compare op a b => (a.Normal ∧ b.Normal) ∧ ¬(Pred.compare op a b).Redex
  | .not p => p.Normal ∧ ¬(Pred.not p).Redex
  | .and p q => (p.Normal ∧ q.Normal) ∧ ¬(Pred.and p q).Redex
  | .or p q => (p.Normal ∧ q.Normal) ∧ ¬(Pred.or p q).Redex
  | .implies p q => (p.Normal ∧ q.Normal) ∧ ¬(Pred.implies p q).Redex
  | .paren p => p.Normal ∧ ¬(Pred.paren p).Redex

end

/-! ## One node -/

/-- What the pass makes of a node: one of the candidates if a law applies, else the node itself. -/
inductive Yields {α : Type} (Applies : Prop) (Candidate : α → Prop) (node : α) : α → Prop where
  | law {r : α} (h : Applies) (hr : Candidate r) : Yields Applies Candidate node r
  | stay (h : ¬Applies) : Yields Applies Candidate node node

namespace Yields

variable {α : Type} {Applies : Prop} {Candidate : α → Prop} {node r : α}

/-- What the candidates have, and the node where no law applies, the result has. -/
theorem keeps {C : α → Prop} (h : Yields Applies Candidate node r)
    (hcandidate : ∀ x, Candidate x → C x) (hnode : ¬Applies → C node) : C r := by
  cases h with
  | law _ hr => exact hcandidate r hr
  | stay hn => exact hnode hn

/-- The same where the candidates are literals and two predicates. -/
theorem keeps_parts {C : Pred → Prop} {p q node r : Pred}
    (h : Yields Applies (fun r => (∃ v, r = .bool v) ∨ r = p ∨ r = q) node r)
    (hbool : ∀ v, C (.bool v)) (hp : C p) (hq : C q) (hnode : ¬Applies → C node) : C r := by
  refine h.keeps ?_ hnode
  rintro r (⟨v, rfl⟩ | rfl | rfl)
  · exact hbool v
  · exact hp
  · exact hq

theorem candidate (h : Yields Applies Candidate node r) (ha : Applies) : Candidate r := by
  cases h with
  | law _ hr => exact hr
  | stay hn => exact absurd ha hn

theorem eq_node (h : Yields Applies Candidate node r) (hn : ¬Applies) : r = node := by
  cases h with
  | law ha _ => exact absurd ha hn
  | stay _ => rfl

end Yields

theorem Expr.yields_opposite (e : Expr) :
    Yields (Expr.neg e).Redex (fun r => (∃ n, r = .const n) ∨ e = .neg r) (.neg e) e.opposite := by
  cases e with
  | const n =>
    rw [Expr.opposite]
    cases hn : negWord? n with
    | some m => exact .law (.negConst hn) (.inl ⟨m, rfl⟩)
    | none =>
      refine .stay fun h => ?_
      cases h with
      | negConst h => cases hn.symm.trans h
  | neg d => exact .law (.negNeg d) (.inr rfl)
  | var | binary | read | call | cond => exact .stay fun h => by cases h

theorem Expr.yields_dropNeutral (op : ArithOp) (a b : Expr) :
    Yields (Expr.Neutral op a b) (fun r => r = a ∨ r = b) (.binary op a b)
      (Expr.dropNeutral op a b) := by
  unfold Expr.dropNeutral
  split
  · exact .law (.addZero _) (.inl rfl)
  · exact .law (.zeroAdd _) (.inr rfl)
  · exact .law (.subZero _) (.inl rfl)
  · exact .law (.mulOne _) (.inl rfl)
  · exact .law (.oneMul _) (.inr rfl)
  · exact .law (.divOne _) (.inl rfl)
  · next hzeroAdd honeMul haddZero hsubZero hmulOne hdivOne =>
    refine .stay fun h => ?_
    cases h with
    | addZero => exact haddZero rfl rfl
    | zeroAdd => exact hzeroAdd rfl rfl
    | subZero => exact hsubZero rfl rfl
    | mulOne => exact hmulOne rfl rfl
    | oneMul => exact honeMul rfl rfl
    | divOne => exact hdivOne rfl rfl

/-- Neutral operands are looked for only where literals are not computed. -/
theorem Expr.yields_operation (op : ArithOp) (a b : Expr) :
    Yields (Expr.binary op a b).Redex (fun r => (∃ n, r = .const n) ∨ r = a ∨ r = b)
      (.binary op a b) (Expr.operation op a b) := by
  have hrest : (∀ m n v, a = .const m → b = .const n → op.onWord? m n ≠ some v) →
      Yields (Expr.binary op a b).Redex (fun r => (∃ n, r = .const n) ∨ r = a ∨ r = b)
        (.binary op a b) (Expr.dropNeutral op a b) := by
    intro hfold
    have hdrop := Expr.yields_dropNeutral op a b
    by_cases hneutral : Expr.Neutral op a b
    · exact .law (.neutral hneutral) (.inr (hdrop.candidate hneutral))
    · rw [hdrop.eq_node hneutral]
      refine .stay fun h => ?_
      cases h with
      | fold h => exact hfold _ _ _ rfl rfl h
      | neutral h => exact hneutral h
  unfold Expr.operation
  split
  · next m n =>
    cases hv : op.onWord? m n with
    | some v => exact .law (.fold hv) (.inl ⟨v, rfl⟩)
    | none =>
      refine hrest fun m' n' v hm hn h => ?_
      cases hm
      cases hn
      cases hv.symm.trans h
  · next hconst => exact hrest fun m n v hm hn _ => hconst m n hm hn

theorem Expr.yields_choose (p : Pred) (a b : Expr) :
    Yields (Expr.cond p a b).Redex (fun r => r = a ∨ r = b) (.cond p a b)
      (Expr.choose p a b) := by
  unfold Expr.choose
  split
  · exact .law (.condBool true a b) (.inl rfl)
  · exact .law (.condBool false a b) (.inr rfl)
  · next htrue hfalse =>
    by_cases hab : a = b
    · subst hab
      rw [if_pos rfl]
      exact .law (.condSame p a) (.inl rfl)
    · rw [if_neg hab]
      refine .stay fun h => ?_
      cases h with
      | condBool v => cases v <;> contradiction
      | condSame => exact hab rfl

theorem Pred.yields_comparison (op : CmpOp) (a b : Expr) :
    Yields (Pred.compare op a b).Redex (fun r => ∃ v, r = .bool v) (.compare op a b)
      (Pred.comparison op a b) := by
  unfold Pred.comparison
  split
  · exact .law (.compareConst op _ _) ⟨_, rfl⟩
  · next hconst =>
    by_cases hab : a = b
    · subst hab
      rw [if_pos rfl]
      exact .law (.compareSame op a) ⟨_, rfl⟩
    · rw [if_neg hab]
      refine .stay fun h => ?_
      cases h with
      | compareConst _ m n => exact hconst m n rfl rfl
      | compareSame => exact hab rfl

theorem Pred.yields_negate (p : Pred) :
    Yields (Pred.not p).Redex (fun r => (∃ v, r = .bool v) ∨ p = .not r) (.not p) p.negate := by
  cases p with
  | bool v => exact .law (.notBool v) (.inl ⟨_, rfl⟩)
  | not p => exact .law (.notNot p) (.inr rfl)
  | compare | and | or | implies | paren | quantified | formula => exact .stay fun h => by cases h

theorem Pred.yields_conj (p q : Pred) :
    Yields (Pred.and p q).Redex (fun r => (∃ v, r = .bool v) ∨ r = p ∨ r = q) (.and p q)
      (p.conj q) := by
  unfold Pred.conj
  split
  · exact .law (.andLeft _ _) (.inl ⟨_, rfl⟩)
  · exact .law (.andRight _ _) (.inl ⟨_, rfl⟩)
  · exact .law (.andLeft _ _) (.inr (.inr rfl))
  · exact .law (.andRight _ _) (.inr (.inl rfl))
  · refine .stay fun h => ?_
    cases h with
    | andLeft v | andRight _ v => cases v <;> contradiction

theorem Pred.yields_disj (p q : Pred) :
    Yields (Pred.or p q).Redex (fun r => (∃ v, r = .bool v) ∨ r = p ∨ r = q) (.or p q)
      (p.disj q) := by
  unfold Pred.disj
  split
  · exact .law (.orLeft _ _) (.inl ⟨_, rfl⟩)
  · exact .law (.orRight _ _) (.inl ⟨_, rfl⟩)
  · exact .law (.orLeft _ _) (.inr (.inr rfl))
  · exact .law (.orRight _ _) (.inr (.inl rfl))
  · refine .stay fun h => ?_
    cases h with
    | orLeft v | orRight _ v => cases v <;> contradiction

theorem Pred.yields_imp (p q : Pred) :
    Yields (Pred.implies p q).Redex (fun r => (∃ v, r = .bool v) ∨ r = q ∨ r = p.negate)
      (.implies p q) (p.imp q) := by
  unfold Pred.imp
  split
  · exact .law (.impliesLeft _ _) (.inr (.inl rfl))
  · exact .law (.impliesLeft _ _) (.inl ⟨_, rfl⟩)
  · exact .law (.impliesRight _ _) (.inl ⟨_, rfl⟩)
  · exact .law (.impliesRight _ _) (.inr (.inr rfl))
  · refine .stay fun h => ?_
    cases h with
    | impliesLeft v | impliesRight _ v => cases v <;> contradiction

/-! ## The pass gives normal forms -/

theorem Pred.Normal.negate {p : Pred} (hp : p.Normal) : p.negate.Normal := by
  refine p.yields_negate.keeps ?_ fun hn => ⟨hp, hn⟩
  rintro r (⟨v, rfl⟩ | rfl)
  · trivial
  · exact hp.1

mutual

theorem Expr.normal_simplify : ∀ e : Expr, e.simplify.Normal
  | .const _ | .var _ => by
    rw [Expr.simplify]
    trivial
  | .neg e => by
    have he := Expr.normal_simplify e
    rw [Expr.simplify]
    refine (Expr.yields_opposite _).keeps ?_ fun hn => ⟨he, hn⟩
    rintro r (⟨n, rfl⟩ | hr)
    · trivial
    · -- the operand is the negation of `r`
      rw [hr] at he
      exact he.1
  | .binary op a b => by
    have ha := Expr.normal_simplify a
    have hb := Expr.normal_simplify b
    rw [Expr.simplify]
    refine (Expr.yields_operation op _ _).keeps ?_ fun hn => ⟨⟨ha, hb⟩, hn⟩
    rintro r (⟨n, rfl⟩ | rfl | rfl)
    · trivial
    · exact ha
    · exact hb
  | .read _ i => by
    rw [Expr.simplify]
    exact Expr.normal_simplify i
  | .call _ args => by
    rw [Expr.simplify]
    exact Expr.normal_simplifyList args
  | .cond p a b => by
    have hp := Pred.normal_simplify p
    have ha := Expr.normal_simplify a
    have hb := Expr.normal_simplify b
    rw [Expr.simplify]
    refine (Expr.yields_choose _ _ _).keeps ?_ fun hn => ⟨⟨hp, ha, hb⟩, hn⟩
    rintro r (rfl | rfl)
    · exact ha
    · exact hb

theorem Expr.normal_simplifyList : ∀ es : List Expr, Expr.NormalList (Expr.simplifyList es)
  | [] => by
    rw [Expr.simplifyList]
    trivial
  | e :: es => by
    rw [Expr.simplifyList]
    exact ⟨Expr.normal_simplify e, Expr.normal_simplifyList es⟩

theorem Pred.normal_simplify : ∀ p : Pred, p.simplify.Normal
  | .bool _ | .quantified .. | .formula .. => by
    rw [Pred.simplify]
    trivial
  | .compare op a b => by
    rw [Pred.simplify]
    refine (Pred.yields_comparison op _ _).keeps ?_
      fun hn => ⟨⟨Expr.normal_simplify a, Expr.normal_simplify b⟩, hn⟩
    rintro r ⟨v, rfl⟩
    trivial
  | .not p => by
    rw [Pred.simplify]
    exact (Pred.normal_simplify p).negate
  | .and p q => by
    have hp := Pred.normal_simplify p
    have hq := Pred.normal_simplify q
    rw [Pred.simplify]
    exact (Pred.yields_conj _ _).keeps_parts (fun _ => trivial) hp hq fun hn => ⟨⟨hp, hq⟩, hn⟩
  | .or p q => by
    have hp := Pred.normal_simplify p
    have hq := Pred.normal_simplify q
    rw [Pred.simplify]
    exact (Pred.yields_disj _ _).keeps_parts (fun _ => trivial) hp hq fun hn => ⟨⟨hp, hq⟩, hn⟩
  | .implies p q => by
    have hp := Pred.normal_simplify p
    have hq := Pred.normal_simplify q
    rw [Pred.simplify]
    exact (Pred.yields_imp _ _).keeps_parts (fun _ => trivial) hq hp.negate
      fun hn => ⟨⟨hp, hq⟩, hn⟩
  | .paren p => by
    rw [Pred.simplify]
    exact Pred.normal_simplify p

end

/-! ## Normal forms stay -/

mutual

theorem Expr.simplify_of_normal : ∀ {e : Expr}, e.Normal → e.simplify = e
  | .const _, _ | .var _, _ => by rw [Expr.simplify]
  | .neg e, h => by
    rw [Expr.simplify, Expr.simplify_of_normal h.1]
    exact (Expr.yields_opposite e).eq_node h.2
  | .binary op a b, h => by
    rw [Expr.simplify, Expr.simplify_of_normal h.1.1, Expr.simplify_of_normal h.1.2]
    exact (Expr.yields_operation op a b).eq_node h.2
  | .read _ i, h => by
    have hi : i.Normal := h
    rw [Expr.simplify, Expr.simplify_of_normal hi]
  | .call _ args, h => by
    have hargs : Expr.NormalList args := h
    rw [Expr.simplify, Expr.simplifyList_of_normal hargs]
  | .cond p a b, h => by
    rw [Expr.simplify, Pred.simplify_of_normal h.1.1, Expr.simplify_of_normal h.1.2.1,
      Expr.simplify_of_normal h.1.2.2]
    exact (Expr.yields_choose p a b).eq_node h.2

theorem Expr.simplifyList_of_normal : ∀ {es : List Expr}, Expr.NormalList es →
    Expr.simplifyList es = es
  | [], _ => by rw [Expr.simplifyList]
  | e :: es, h => by
    rw [Expr.simplifyList, Expr.simplify_of_normal h.1, Expr.simplifyList_of_normal h.2]

theorem Pred.simplify_of_normal : ∀ {p : Pred}, p.Normal → p.simplify = p
  | .bool _, _ | .quantified .., _ | .formula .., _ => by rw [Pred.simplify]
  | .compare op a b, h => by
    rw [Pred.simplify, Expr.simplify_of_normal h.1.1, Expr.simplify_of_normal h.1.2]
    exact (Pred.yields_comparison op a b).eq_node h.2
  | .not p, h => by
    rw [Pred.simplify, Pred.simplify_of_normal h.1]
    exact p.yields_negate.eq_node h.2
  | .and p q, h => by
    rw [Pred.simplify, Pred.simplify_of_normal h.1.1, Pred.simplify_of_normal h.1.2]
    exact (Pred.yields_conj p q).eq_node h.2
  | .or p q, h => by
    rw [Pred.simplify, Pred.simplify_of_normal h.1.1, Pred.simplify_of_normal h.1.2]
    exact (Pred.yields_disj p q).eq_node h.2
  | .implies p q, h => by
    rw [Pred.simplify, Pred.simplify_of_normal h.1.1, Pred.simplify_of_normal h.1.2]
    exact (Pred.yields_imp p q).eq_node h.2
  | .paren p, h => absurd (.paren p) h.2

end

/-! ## Size -/

theorem Expr.size_const (n : Int64) : (Expr.const n).size = 1 := by rw [Expr.size]

theorem Pred.size_bool (v : Bool) : (Pred.bool v).size = 1 := by rw [Pred.size]

theorem Pred.size_negate_le (p : Pred) : p.negate.size ≤ 1 + p.size := by
  refine p.yields_negate.keeps (C := fun r => r.size ≤ 1 + p.size) ?_ fun _ => ?_
  · rintro r (⟨v, rfl⟩ | rfl)
    · rw [Pred.size_bool]
      omega
    · rw [Pred.size]
      omega
  · exact Nat.le_of_eq (by rw [Pred.size])

theorem Yields.size_le {Applies : Prop} {p q node r : Pred} {k : Nat}
    (h : Yields Applies (fun r => (∃ v, r = .bool v) ∨ r = p ∨ r = q) node r)
    (hp : p.size ≤ k) (hq : q.size ≤ k) (hnode : node.size ≤ k) : r.size ≤ k := by
  refine h.keeps_parts (C := fun r => r.size ≤ k) (fun v => ?_) hp hq fun _ => hnode
  have hpos := p.size_pos
  rw [Pred.size_bool]
  omega

mutual

theorem Expr.size_simplify_le : ∀ e : Expr, e.simplify.size ≤ e.size
  | .const _ | .var _ => Nat.le_of_eq (by rw [Expr.simplify])
  | .neg e => by
    have he := Expr.size_simplify_le e
    rw [Expr.simplify, Expr.size]
    refine (Expr.yields_opposite _).keeps (C := fun r => r.size ≤ 1 + e.size) ?_ fun _ => ?_
    · rintro r (⟨n, rfl⟩ | hr)
      · rw [Expr.size_const]
        omega
      · -- two negations are gone
        rw [hr, Expr.size] at he
        omega
    · rw [Expr.size]
      omega
  | .binary op a b => by
    have ha := Expr.size_simplify_le a
    have hb := Expr.size_simplify_le b
    rw [Expr.simplify, Expr.size]
    refine (Expr.yields_operation op _ _).keeps (C := fun r => r.size ≤ 1 + a.size + b.size) ?_
      fun _ => ?_
    · rintro r (⟨n, rfl⟩ | rfl | rfl)
      · rw [Expr.size_const]
        omega
      · omega
      · omega
    · rw [Expr.size]
      omega
  | .read _ i => by
    have hi := Expr.size_simplify_le i
    rw [Expr.simplify, Expr.size, Expr.size]
    omega
  | .call _ args => by
    have hargs := Expr.sizes_simplifyList_le args
    rw [Expr.simplify, Expr.size, Expr.size]
    omega
  | .cond p a b => by
    have hp := Pred.size_simplify_le p
    have ha := Expr.size_simplify_le a
    have hb := Expr.size_simplify_le b
    rw [Expr.simplify, Expr.size]
    refine (Expr.yields_choose _ _ _).keeps (C := fun r => r.size ≤ 1 + p.size + a.size + b.size) ?_
      fun _ => ?_
    · rintro r (rfl | rfl)
      · omega
      · omega
    · rw [Expr.size]
      omega

theorem Expr.sizes_simplifyList_le : ∀ es : List Expr,
    Expr.sizes (Expr.simplifyList es) ≤ Expr.sizes es
  | [] => Nat.le_of_eq (by rw [Expr.simplifyList])
  | e :: es => by
    have he := Expr.size_simplify_le e
    have hes := Expr.sizes_simplifyList_le es
    rw [Expr.simplifyList, Expr.sizes, Expr.sizes]
    omega

theorem Pred.size_simplify_le : ∀ p : Pred, p.simplify.size ≤ p.size
  | .bool _ | .quantified .. | .formula .. => Nat.le_of_eq (by rw [Pred.simplify])
  | .compare op a b => by
    have ha := Expr.size_simplify_le a
    have hb := Expr.size_simplify_le b
    rw [Pred.simplify, Pred.size]
    refine (Pred.yields_comparison op _ _).keeps (C := fun r => r.size ≤ 1 + a.size + b.size) ?_
      fun _ => ?_
    · rintro r ⟨v, rfl⟩
      rw [Pred.size_bool]
      omega
    · rw [Pred.size]
      omega
  | .not p => by
    have hp := Pred.size_simplify_le p
    have hnegate := Pred.size_negate_le p.simplify
    rw [Pred.simplify, Pred.size]
    omega
  | .and p q => by
    have hp := Pred.size_simplify_le p
    have hq := Pred.size_simplify_le q
    rw [Pred.simplify, Pred.size]
    exact (Pred.yields_conj _ _).size_le (by omega) (by omega) (by rw [Pred.size]; omega)
  | .or p q => by
    have hp := Pred.size_simplify_le p
    have hq := Pred.size_simplify_le q
    rw [Pred.simplify, Pred.size]
    exact (Pred.yields_disj _ _).size_le (by omega) (by omega) (by rw [Pred.size]; omega)
  | .implies p q => by
    have hp := Pred.size_simplify_le p
    have hq := Pred.size_simplify_le q
    -- a negation can take the place of the implication; the falsehood that it drops has a node
    have hnegate := Pred.size_negate_le p.simplify
    have hpos := q.size_pos
    rw [Pred.simplify, Pred.size]
    exact (Pred.yields_imp _ _).size_le (by omega) (by omega) (by rw [Pred.size]; omega)
  | .paren p => by
    have hp := Pred.size_simplify_le p
    rw [Pred.simplify, Pred.size]
    omega

end

/-! ## One pass is enough -/

/-- **Simplification reaches a normal form in one pass.** No law applies to the result any more, so a
second pass changes nothing, and the result has no more nodes than there were. -/
theorem simplify_reaches_normal_form :
    (∀ p : Pred, p.simplify.Normal ∧ p.simplify.simplify = p.simplify ∧
      p.simplify.size ≤ p.size) ∧
    ∀ e : Expr, e.simplify.Normal ∧ e.simplify.simplify = e.simplify ∧
      e.simplify.size ≤ e.size := by
  constructor
  · intro p
    have hnormal := p.normal_simplify
    exact ⟨hnormal, Pred.simplify_of_normal hnormal, p.size_simplify_le⟩
  · intro e
    have hnormal := e.normal_simplify
    exact ⟨hnormal, Expr.simplify_of_normal hnormal, e.size_simplify_le⟩

end Contracts

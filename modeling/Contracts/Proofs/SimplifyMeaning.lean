import Contracts.Proofs.SimplifyLaws

/-!
# Simplification keeps the meaning

The meaning of predicates is one of the denotations that the laws of simplification keep
(`SimplifyLaws`). What is left to say is about kinds: the laws keep them, and where they are kept an
argument that is a number before simplification is the same number after it, while the bare name of
an array stays what it is.
-/

set_option autoImplicit false

namespace Contracts

/-! ## The meaning as a denotation -/

section

variable {α : Type} (M : Interpretation α) (ρ : Valuation α)

/-- What expressions and predicates mean where names stand for these data. -/
noncomputable def Interpretation.denotation : Denotation where
  value e := e.value M ρ
  Holds p := p.Holds M ρ

theorem Interpretation.regular : (M.denotation ρ).Regular M := by
  constructor <;> intros <;> simp only [Interpretation.denotation, Expr.value, Pred.Holds]

theorem Pred.holds_imp (p q : Pred) : (p.imp q).Holds M ρ ↔ (p.Holds M ρ → q.Holds M ρ) :=
  (M.regular ρ).holds_imp p q

end

/-! ## Simplification keeps kinds -/

/-- A bare name stays one, and other arguments keep their kinds if each of them does. -/
theorem Expr.KindedArgs.simplify {K : Kinds} {es : List Expr} (h : Expr.KindedArgs es K)
    (hes : ∀ e ∈ es, e.Kinded K → e.simplify.Kinded K) :
    Expr.KindedArgs (Expr.simplifyList es) K := by
  induction es with
  | nil => exact h
  | cons e es ih =>
    obtain ⟨he, hes⟩ := List.forall_mem_cons.mp hes
    simp only [Expr.simplifyList, Expr.KindedArgs] at h ⊢
    refine ⟨?_, ih h.2 hes⟩
    rcases h.1 with ⟨x, rfl⟩ | h
    · exact .inl ⟨x, rfl⟩
    · exact .inr (he h)

theorem Kinds.hereditary (K : Kinds) :
    Hereditary (fun e => e.Kinded K) (fun p => p.Kinded K) where
  const _ := trivial
  neg _ := Iff.rfl
  binary _ _ _ := Iff.rfl
  read _ _ h hi := ⟨h.1, hi h.2⟩
  call _ _ h hargs := Expr.KindedArgs.simplify h hargs
  cond _ _ _ := Iff.rfl
  bool _ := trivial
  compare _ _ _ := Iff.rfl
  not _ := Iff.rfl
  and _ _ := Iff.rfl
  or _ _ := Iff.rfl
  implies _ _ := Iff.rfl
  paren _ := Iff.rfl

theorem Expr.Kinded.simplify {e : Expr} {K : Kinds} (h : e.Kinded K) : e.simplify.Kinded K :=
  K.hereditary.expr_simplify h

theorem Pred.Kinded.simplify {p : Pred} {K : Kinds} (h : p.Kinded K) : p.simplify.Kinded K :=
  K.hereditary.pred_simplify h

/-! ## Arguments -/

mutual

/-- The arguments of every call that simplification reaches are used as their kinds allow. -/
theorem Expr.Kinded.everyCall : ∀ {e : Expr} {K : Kinds},
    e.Kinded K → e.EveryCall fun _ args => Expr.KindedArgs args K
  | .const _, _, _ | .var _, _, _ => by simp only [Expr.EveryCall]
  | .neg _, _, h => by
    simp only [Expr.Kinded, Expr.EveryCall] at h ⊢
    exact h.everyCall
  | .binary .., _, h => by
    simp only [Expr.Kinded, Expr.EveryCall] at h ⊢
    exact ⟨h.1.everyCall, h.2.everyCall⟩
  | .read .., _, h => by
    simp only [Expr.Kinded, Expr.EveryCall] at h ⊢
    exact h.2.everyCall
  | .call .., _, h => by
    simp only [Expr.Kinded, Expr.EveryCall] at h ⊢
    exact ⟨h, h.everyCallIn⟩
  | .cond .., _, h => by
    simp only [Expr.Kinded, Expr.EveryCall] at h ⊢
    exact ⟨h.1.everyCall, h.2.1.everyCall, h.2.2.everyCall⟩

theorem Expr.KindedArgs.everyCallIn : ∀ {es : List Expr} {K : Kinds},
    Expr.KindedArgs es K → Expr.EveryCallIn (fun _ args => Expr.KindedArgs args K) es
  | [], _, _ => by simp only [Expr.EveryCallIn]
  | _ :: _, _, h => by
    simp only [Expr.KindedArgs, Expr.EveryCallIn] at h ⊢
    refine ⟨?_, Expr.KindedArgs.everyCallIn h.2⟩
    rcases h.1 with ⟨x, rfl⟩ | h
    · simp only [Expr.EveryCall]
    · exact h.everyCall

theorem Pred.Kinded.everyCall : ∀ {p : Pred} {K : Kinds},
    p.Kinded K → p.EveryCall fun _ args => Expr.KindedArgs args K
  | .bool _, _, _ | .quantified .., _, _ | .formula .., _, _ => by simp only [Pred.EveryCall]
  | .compare .., _, h => by
    simp only [Pred.Kinded, Pred.EveryCall] at h ⊢
    exact ⟨h.1.everyCall, h.2.everyCall⟩
  | .not _, _, h | .paren _, _, h => by
    simp only [Pred.Kinded, Pred.EveryCall] at h ⊢
    exact h.everyCall
  | .and .., _, h | .or .., _, h | .implies .., _, h => by
    simp only [Pred.Kinded, Pred.EveryCall] at h ⊢
    exact ⟨h.1.everyCall, h.2.everyCall⟩

end

section

variable {α : Type} (M : Interpretation α) {ρ : Valuation α} {K : Kinds}

theorem Expr.data_simplify {es : List Expr} (hk : Expr.KindedArgs es K) (hρ : ρ.HasKinds K)
    (hes : ∀ e ∈ es, e.simplify.value M ρ = e.value M ρ) :
    Expr.data M (Expr.simplifyList es) ρ = Expr.data M es ρ := by
  induction es with
  | nil => rw [Expr.simplifyList]
  | cons e es ih =>
    obtain ⟨he, hes⟩ := List.forall_mem_cons.mp hes
    simp only [Expr.KindedArgs] at hk
    rw [Expr.simplifyList, Expr.data, Expr.data, ih hk.2 hes]
    congr 1
    -- a bare name stays one; anything else is a number before and after
    rcases hk.1 with ⟨x, rfl⟩ | hk
    · rw [Expr.simplify]
    · rw [hk.simplify.datum_eq hρ, hk.datum_eq hρ, he]

theorem Interpretation.keepsCalls (hρ : ρ.HasKinds K) :
    (M.denotation ρ).KeepsCalls fun _ args => Expr.KindedArgs args K where
  read a i j hij := by
    simp only [Interpretation.denotation, Expr.value] at hij ⊢
    rw [hij]
  call f args hk hargs := by
    simp only [Interpretation.denotation, Expr.value] at hargs ⊢
    rw [Expr.data_simplify M hk hρ hargs]

/-- **Simplification keeps the truth of a predicate.** -/
theorem Pred.holds_simplify {p : Pred} (hk : p.Kinded K) (hρ : ρ.HasKinds K) :
    p.simplify.Holds M ρ ↔ p.Holds M ρ :=
  (M.regular ρ).holds_simplify (M.keepsCalls hρ) hk.everyCall

end

end Contracts

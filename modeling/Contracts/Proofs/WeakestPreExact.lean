import Contracts.Proofs.WeakestPreSound

/-!
# Weakest preconditions without loops are exact

Soundness says that the predicate worked out for a statement is strong enough. For statements
without loops, which receive no several results of one call, it is also weak enough: when the
statement finishes, the predicate worked out is true before it exactly when the predicate asked for
is true after it. Only a loop (its invariant may be too weak) and unknown values (the predicate is
asked for all of them) lose anything.

A run is deterministic, so exactness is soundness for a property and for its complement
(`Exact`). The rules for statements are thereby the rules of `Ensures`, used twice, and only the
assignment has an argument of its own: the substitution is an equivalence.
-/

set_option autoImplicit false

namespace Contracts

/-! ## Properties that a run reflects -/

/-- From a state of the given kinds the computation leads from the first property to the second, and
from its failure to the failure of the second. -/
structure Exact (K : Kinds) (A : State → Prop) (run : State → EvalM State) (B : State → Prop) :
    Prop where
  ensures : Ensures K A run B
  ensures_not : Ensures K (fun s => ¬A s) run (fun s => ¬B s)

section

variable {K : Kinds} {A B C : State → Prop} {run : State → EvalM State} {p : Program} {b : Below}

theorem exact_of_iff
    (h : ∀ s fuel s' fuel', s.HasKinds K → run s fuel = .ok (s', fuel') →
      s'.HasKinds K ∧ (A s ↔ B s')) : Exact K A run B where
  ensures s fuel s' fuel' hs hA hrun :=
    (h s fuel s' fuel' hs hrun).imp_right fun hiff => hiff.mp hA
  ensures_not s fuel s' fuel' hs hA hrun :=
    (h s fuel s' fuel' hs hrun).imp_right fun hiff => mt hiff.mpr hA

theorem Exact.iff (h : Exact K A run B) {s s' : State} {fuel fuel' : Nat} (hs : s.HasKinds K)
    (hrun : run s fuel = .ok (s', fuel')) : A s ↔ B s' := by
  refine ⟨fun hA => (h.ensures s fuel s' fuel' hs hA hrun).2, fun hB => ?_⟩
  by_contra hA
  exact (h.ensures_not s fuel s' fuel' hs hA hrun).2 hB

theorem Exact.congr (h : Exact K A run B) (hA : ∀ s, s.HasKinds K → (C s ↔ A s)) :
    Exact K C run B where
  ensures := h.ensures.weaken fun s hs => (hA s hs).mp
  ensures_not := h.ensures_not.weaken fun s hs => mt (hA s hs).mpr

theorem Exact.skip (A : State → Prop) : Exact K A pure A where
  ensures := Ensures.skip A
  ensures_not := Ensures.skip fun s => ¬A s

theorem Stmt.exact_block_nil (A : State → Prop) : Exact K A (Stmt.execBlock p b []) A where
  ensures := Stmt.ensures_block_nil A
  ensures_not := Stmt.ensures_block_nil fun s => ¬A s

theorem Stmt.exact_block_cons {c : Stmt} {rest : List Stmt} (hc : Exact K A (c.exec p b) B)
    (hrest : Exact K B (Stmt.execBlock p b rest) C) :
    Exact K A (Stmt.execBlock p b (c :: rest)) C where
  ensures := Stmt.ensures_block_cons hc.ensures hrest.ensures
  ensures_not := Stmt.ensures_block_cons hc.ensures_not hrest.ensures_not

variable {M : Interpretation Cells} {rest : Valuation Cells}

theorem Stmt.exact_branch (hM : M.Agrees p b) {c : Pred} {yes : Stmt} {no : Option Stmt}
    (hyes : Exact K A (yes.exec p b) C) (hno : Exact K B (no.elim pure fun t => t.exec p b) C) :
    Exact K
      (fun s => (c.Holds M (s.valuation rest) ∧ A s) ∨ (¬c.Holds M (s.valuation rest) ∧ B s))
      ((Stmt.branch c yes no).exec p b) C where
  ensures := Stmt.ensures_branch rest hM hyes.ensures hno.ensures
  ensures_not := by
    refine (Stmt.ensures_branch rest hM hyes.ensures_not hno.ensures_not).weaken fun s _ hs => ?_
    obtain ⟨hyes, hno⟩ := not_or.mp hs
    by_cases hc : c.Holds M (s.valuation rest)
    · exact .inl ⟨hc, fun hA => hyes ⟨hc, hA⟩⟩
    · exact .inr ⟨hc, fun hB => hno ⟨hc, hB⟩⟩

end

/-! ## Statements without loops -/

mutual

/-- There is no loop, all targets are variables that receive numbers, no call is received by
several of them, and names are used according to their kinds. -/
def Stmt.LoopFree (K : Kinds) : Stmt → Prop
  | .assign targets exprs =>
    (∀ t ∈ targets, ∃ x, t = .var x ∧ K x = .int) ∧ (∀ e ∈ exprs, e.Kinded K) ∧
      (1 < targets.length → isSingleCall exprs = false)
  | .block stmts => Stmt.LoopFreeList K stmts
  | .branch condition yes no => condition.Kinded K ∧ yes.LoopFree K ∧ (match no with
    | some s => s.LoopFree K
    | none => True)
  | .loop _ _ _ => False

def Stmt.LoopFreeList (K : Kinds) : List Stmt → Prop
  | [] => True
  | s :: rest => s.LoopFree K ∧ Stmt.LoopFreeList K rest

end

section

variable {p : Program} {b : Below} {K : Kinds}

mutual

theorem Stmt.LoopFree.scalar : ∀ {c : Stmt}, c.LoopFree K → c.Scalar p b K
  | .assign _ _, h => by
    refine ⟨h.1, h.2.1, ?_⟩
    rintro hlen f args rfl
    cases h.2.2 hlen
  | .block _, h => Stmt.LoopFreeList.scalar h
  | .branch _ _ none, h => ⟨h.1, h.2.1.scalar, trivial⟩
  | .branch _ _ (some _), h => ⟨h.1, h.2.1.scalar, Stmt.LoopFree.scalar h.2.2⟩
  | .loop _ _ _, h => h.elim

theorem Stmt.LoopFreeList.scalar : ∀ {cs : List Stmt}, Stmt.LoopFreeList K cs →
    Stmt.ScalarList p b K cs
  | [], _ => trivial
  | _ :: _, h => ⟨h.1.scalar, Stmt.LoopFreeList.scalar h.2⟩

end

variable {M : Interpretation Cells} {rest : Valuation Cells}

/-- An assignment to variables whose values are those of its expressions is exact. -/
theorem exact_assign_vars (hM : M.Agrees p b) (hrest : rest.HasKinds K) {xs : List String}
    {es : List Expr} {q r : Pred} (hxs : ∀ x ∈ xs, K x = .int) (hes : ∀ e ∈ es, e.Kinded K)
    (hcall : 1 < xs.length → isSingleCall es = false) (hq : q.Kinded K)
    (h : wpAssign (xs.map Target.var) es q = .ok r) :
    Exact K (fun s => r.Holds M (s.valuation rest)) (execAssign p b (xs.map Target.var) es)
      (fun s => q.Holds M (s.valuation rest)) := by
  refine exact_of_iff fun s fuel s' fuel' hs hrun => ?_
  obtain ⟨values, fuel₁, hv, -, rfl⟩ := execAssign_vars hrun
  rcases wpAssign_vars h with ⟨rfl, rfl⟩ | ⟨hlen, hsingle, -⟩ | ⟨hop, rfl⟩
  · exact ⟨hs, Iff.rfl⟩
  · cases (hcall hlen).symm.trans hsingle
  · rw [assignedValues_of_operands hop] at hv
    have hints := hs.of_operands hM hes hrest hv
    refine ⟨hs.insertAll ?_, ?_⟩
    · rintro ⟨x, v⟩ hb
      obtain ⟨hx, hvmem⟩ := List.of_mem_zip hb
      rw [hints v hvmem, hxs x hx]
    · have hρ := hs.valuation hrest
      rw [State.valuation_of_operands hM hes hρ hv]
      exact Pred.holds_subst M hq (Bindings.Kinded.ofPairs_zip hxs hes) hρ

variable {close : Bool}

theorem Stmt.exact_wpBranch (hM : M.Agrees p b) (hrest : rest.HasKinds K) {condition r₁ r₂ : Pred}
    {yes : Stmt} {no : Option Stmt} {Q : State → Prop} (hk : (wpBranch condition r₁ r₂).Kinded K)
    (hyes : Exact K (fun s => r₁.Holds M (s.valuation rest)) (yes.exec p b) Q)
    (hno : Exact K (fun s => r₂.Holds M (s.valuation rest))
      (no.elim pure fun t => t.exec p b) Q) :
    Exact K (fun s => (wpBranch condition r₁ r₂).simplify.Holds M (s.valuation rest))
      ((Stmt.branch condition yes no).exec p b) Q :=
  (Stmt.exact_branch hM hyes hno).congr fun _ hs => Pred.holds_simplify M hk (hs.valuation hrest)

mutual

/-- The predicate worked out for a statement without loops holds before it exactly when the
predicate asked for holds after it. -/
theorem Stmt.LoopFree.exact_wp (hM : M.Agrees p b) (hrest : rest.HasKinds K) :
    ∀ {c : Stmt} {q r : Pred}, c.LoopFree K → q.Kinded K → c.wp close q = .ok r →
      Exact K (fun s => r.Holds M (s.valuation rest)) (c.exec p b)
        (fun s => q.Holds M (s.valuation rest))
  | .assign targets exprs, q, r, hc, hq, h => by
    obtain ⟨r₀, hr₀, rfl⟩ := Stmt.wp_assign_eq_ok.mp h
    obtain ⟨hts, hes, hcall⟩ := hc
    obtain ⟨xs, rfl, hxs⟩ := exists_names_of_targets hts
    rw [List.length_map] at hcall
    have hexec : (Stmt.assign (xs.map Target.var) exprs).exec p b =
        execAssign p b (xs.map Target.var) exprs := funext fun s => by rw [Stmt.exec]
    rw [hexec]
    refine (exact_assign_vars hM hrest hxs hes hcall hq hr₀).congr fun s hs => ?_
    exact Pred.holds_simplify M (hq.wpAssign_vars hxs hes hr₀) (hs.valuation hrest)
  | .block stmts, q, r, hc, hq, h => by
    rw [Stmt.wp] at h
    have hexec : (Stmt.block stmts).exec p b = Stmt.execBlock p b stmts :=
      funext fun s => by rw [Stmt.exec]
    rw [hexec]
    exact Stmt.LoopFreeList.exact_wpBlock hM hrest hc hq h
  | .branch condition yes none, q, r, hc, hq, h => by
    obtain ⟨r₁, r₂, h₁, h₂, rfl⟩ := Stmt.wp_branch_eq_ok.mp h
    cases h₂
    have hk := Pred.kinded_wpBranch hc.1 (hc.2.1.scalar.kinded_wp (p := p) (b := b) hq h₁) hq
    exact Stmt.exact_wpBranch hM hrest hk (Stmt.LoopFree.exact_wp hM hrest hc.2.1 hq h₁)
      (Exact.skip _)
  | .branch condition yes (some no), q, r, hc, hq, h => by
    obtain ⟨r₁, r₂, h₁, h₂, rfl⟩ := Stmt.wp_branch_eq_ok.mp h
    have hno : no.LoopFree K := hc.2.2
    have hk := Pred.kinded_wpBranch hc.1 (hc.2.1.scalar.kinded_wp (p := p) (b := b) hq h₁)
      (hno.scalar.kinded_wp (p := p) (b := b) hq h₂)
    exact Stmt.exact_wpBranch hM hrest hk (Stmt.LoopFree.exact_wp hM hrest hc.2.1 hq h₁)
      (Stmt.LoopFree.exact_wp hM hrest hno hq h₂)
  | .loop _ _ _, _, _, hc, _, _ => hc.elim

theorem Stmt.LoopFreeList.exact_wpBlock (hM : M.Agrees p b) (hrest : rest.HasKinds K) :
    ∀ {cs : List Stmt} {q r : Pred}, Stmt.LoopFreeList K cs → q.Kinded K →
      Stmt.wpBlock close cs q = .ok r →
      Exact K (fun s => r.Holds M (s.valuation rest)) (Stmt.execBlock p b cs)
        (fun s => q.Holds M (s.valuation rest))
  | [], q, r, _, hq, h => by
    rw [Stmt.wpBlock] at h
    cases h
    exact Stmt.exact_block_nil _
  | c :: cs, q, r, hc, hq, h => by
    obtain ⟨w, hw, hr⟩ := Stmt.wpBlock_cons_eq_ok.mp h
    have hkw := (Stmt.LoopFreeList.scalar hc.2).kinded_wpBlock (p := p) (b := b) hq hw
    exact Stmt.exact_block_cons (Stmt.LoopFree.exact_wp hM hrest hc.1 hkw hr)
      (Stmt.LoopFreeList.exact_wpBlock hM hrest hc.2 hq hw)

end

end

/-- Weakest preconditions of statements without loops are exact, whether loops are closed or not:
when the statement finishes, the predicate worked out was true before it if and only if the
predicate asked for is true after it. A reading that agrees with the program exists at every
level. -/
theorem wp_loopFree_exact (p : Program) (K : Kinds) (rest : Valuation Cells)
    (hrest : rest.HasKinds K) :
    (∀ (n : Nat) (M : Interpretation Cells), M.Agrees p (below p n) →
      ∀ (close : Bool) (c : Stmt) (q r : Pred) (s s' : State) (fuel fuel' : Nat),
        c.LoopFree K → q.Kinded K → s.HasKinds K → c.wp close q = .ok r →
        c.exec p (below p n) s fuel = .ok (s', fuel') →
        (r.Holds M (s.valuation rest) ↔ q.Holds M (s'.valuation rest))) ∧
    (∀ n : Nat, ∃ M : Interpretation Cells, M.Agrees p (below p n)) := by
  refine ⟨?_, fun n => ⟨_, p.reading_agrees n⟩⟩
  intro n M hM close c q r s s' fuel fuel' hc hq hs hwp hrun
  exact (hc.exact_wp hM hrest hq hwp).iff hs hrun

/-! ### An exchange under a quantifier -/

/-- Exchanges two variables and, if they are then in order, makes the first larger. -/
def exchange : Stmt :=
  .block [
    .assign [.var "x", .var "y"] [.var "y", .var "x"],
    .branch (.compare .lt (.var "x") (.var "y"))
      (.assign [.var "x"] [.binary .add (.var "x") (.const 1)]) none]

/-- The first variable is even; the bound name is that of the second. -/
def evenFirst : Pred :=
  .quantified .existential (.scalar "y")
    (.compare .eq (.var "x") (.binary .add (.var "y") (.var "y")))

/-- What has to hold before `exchange` for `evenFirst` to hold after it, with the binder renamed. -/
def evenFirstBefore : Pred :=
  .or
    (.and (.compare .lt (.var "y") (.var "x"))
      (.quantified .existential (.scalar "y_1")
        (.compare .eq (.binary .add (.var "y") (.const 1))
          (.binary .add (.var "y_1") (.var "y_1")))))
    (.and (.not (.compare .lt (.var "y") (.var "x")))
      (.quantified .existential (.scalar "y_1")
        (.compare .eq (.var "y") (.binary .add (.var "y_1") (.var "y_1")))))

/-- After the exchange of `5` and `1` the first variable is even, so the predicate worked out was
true before it. -/
theorem wp_loopFree_exact_exchange : ∃ (M : Interpretation Cells) (s' : State),
    M.Agrees ⟨[], []⟩ (below ⟨[], []⟩ 0) ∧
    exchange.exec ⟨[], []⟩ (below ⟨[], []⟩ 0)
      (State.ofPairs [("x", .int 5), ("y", .int 1)]) 0 = .ok (s', 0) ∧
    (evenFirstBefore.Holds M
        ((State.ofPairs [("x", .int 5), ("y", .int 1)]).valuation fun _ => .int 0) ↔
      evenFirst.Holds M (s'.valuation fun _ => .int 0)) := by
  obtain ⟨hexact, hM⟩ := wp_loopFree_exact ⟨[], []⟩ (fun _ => .int) (fun _ => .int 0) fun _ => rfl
  obtain ⟨M, hM⟩ := hM 0
  have hrun : exchange.exec ⟨[], []⟩ (below ⟨[], []⟩ 0)
      (State.ofPairs [("x", .int 5), ("y", .int 1)]) 0 =
        .ok (State.ofPairs [("x", .int 2), ("y", .int 5)], 0) := by cbv
  refine ⟨M, _, hM, hrun, hexact 0 M hM true exchange evenFirst evenFirstBefore _ _ 0 0
    ?_ ⟨rfl, rfl, rfl⟩ ?_ (by cbv) hrun⟩
  · simp [exchange, Stmt.LoopFree, Stmt.LoopFreeList, Expr.Kinded, Pred.Kinded, isSingleCall]
  · refine State.HasKinds.ofPairs ?_
    intro b hb
    rcases List.mem_pair.mp hb with rfl | rfl <;> rfl

end Contracts

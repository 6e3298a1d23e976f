import Contracts.Proofs.WeakestPreSound

/-!
# Weakest preconditions as a predicate transformer

For a statement over variables the predicate that is worked out says, in every state, what
`Stmt.Requires` says. This is a transformer of sets of states: it knows nothing of substitution, of
new names and of simplification, which all depend on how the postcondition is written.

| question                                        | answer                           |
|-------------------------------------------------|----------------------------------|
| is the result what the transformer says?        | `Stmt.OverVars.holds_wp`         |
| does it keep implications?                      | `Stmt.OverVars.requires_mono`    |
| does it keep conjunctions?                      | `Stmt.requires_and`              |
| does it ask for more when loops are closed?     | `Stmt.OverVars.requires_open`    |
| does it matter what is asked for to succeed?    | `Stmt.uniform_wp`                |

The disjunction of a conditional is no harm to conjunctions, since its two sides exclude each other.
-/

set_option autoImplicit false

namespace Contracts

/-! ## Unknown values

`Pred.holds_of_havoc` is the half of the next statement that soundness needs. -/

section

variable {α : Type} {M : Interpretation α} {K : Kinds} {ρ σ : Valuation α} {xs : List String}
  {q : Pred}

/-- Other numbers for variables of numbers do not change the kinds. -/
theorem Valuation.HasKinds.of_variesOn {ρ' : Valuation α} (hρ : ρ.HasKinds K)
    (hxs : ∀ x ∈ xs, K x = .int) (hvary : ρ.VariesOn xs ρ') : ρ'.HasKinds K := by
  have h := hρ.variesOn hvary
  rwa [Kinds.withInts_eq_self hxs] at h

/-- Variables turned into other names are asked for at some numbers, those of the other names. A
variable that is turned twice has the number of the first name. -/
theorem Pred.exists_holds_renameAll (hσ : σ.HasKinds K) {pairs : List (String × String)}
    (hpairs : ∀ b ∈ pairs, K b.1 = .int ∧ K b.2 = .int) (hq : q.Kinded K) :
    ∃ ρ', σ.VariesOn (pairs.map Prod.fst) ρ' ∧
      ((q.renameAll pairs).Holds M σ ↔ q.Holds M ρ') := by
  induction pairs generalizing q with
  | nil =>
    have hvary : σ.VariesOn [] σ := ⟨fun _ _ => rfl, fun x hx => absurd hx List.not_mem_nil⟩
    exact ⟨σ, hvary, Iff.rfl⟩
  | cons b pairs ih =>
    obtain ⟨x, t⟩ := b
    obtain ⟨hx, ht⟩ := hpairs (x, t) List.mem_cons_self
    have hrest : ∀ b ∈ pairs, K b.1 = .int ∧ K b.2 = .int := fun b hb =>
      hpairs b (List.mem_cons_of_mem _ hb)
    obtain ⟨ρ₁, hvary, hiff⟩ := ih hrest (hq.substVar_var hx ht)
    have hints : ∀ y ∈ pairs.map Prod.fst, K y = .int := by
      intro y hy
      obtain ⟨b, hb, rfl⟩ := List.mem_map.mp hy
      exact (hrest b hb).1
    have hρ₁ : ρ₁.HasKinds K := hσ.of_variesOn hints hvary
    -- the substitution that was made first acts on what the later ones lead to
    have hfirst : (q.substVar x (.var t)).Holds M ρ₁ ↔
        q.Holds M (Function.update ρ₁ x (.int (ρ₁ t).toInt)) := by
      have hm : Bindings.Kinded [(x, .var t)] K := List.forall_mem_singleton.mpr ⟨hx, ht⟩
      have h := Pred.holds_subst M hq hm hρ₁
      rwa [Bindings.apply_single, Expr.value] at h
    refine ⟨Function.update ρ₁ x (.int (ρ₁ t).toInt), ⟨fun y hy => ?_, fun y hy => ?_⟩,
      hiff.trans hfirst⟩
    · rw [Function.update_of_ne (List.ne_of_not_mem_cons hy),
        hvary.same y (List.not_mem_of_not_mem_cons hy)]
    · by_cases hyx : y = x
      · rw [hyx, Function.update_self, Datum.type]
      · rw [Function.update_of_ne hyx]
        exact hvary.ints y ((List.mem_cons.mp hy).resolve_left hyx)

/-- Unknown values for variables: the predicate has to hold for all of their numbers. -/
theorem Pred.holds_havoc (hq : q.Kinded K) (hxs : ∀ x ∈ xs, K x = .int) (hρ : ρ.HasKinds K) :
    (havoc (xs.map Target.var) q).Holds M ρ ↔ ∀ ρ', ρ.VariesOn xs ρ' → q.Holds M ρ' := by
  constructor
  · intro h ρ' hvary
    exact Pred.holds_of_havoc hq hxs hρ h hvary
  · intro h
    rw [havoc_vars, Pred.holds_forall_names]
    intro σ hσ
    obtain ⟨ρ', hvary, hiff⟩ := Pred.exists_holds_renameAll (M := M) (hρ.variesOn hσ)
      (Kinds.withInts_unknownNames hxs) hq.withInts_unknownNames
    have hfst : (xs.zip (unknownNames xs q)).map Prod.fst = xs :=
      List.map_fst_zip (Nat.le_of_eq (length_unknownNames xs q).symm)
    rw [hfst] at hvary
    rw [hiff]
    -- off the variables `ρ'` is `σ`, which is `ρ` on the free names of the predicate
    have hback : ρ.VariesOn xs fun y => if y ∈ xs then ρ' y else ρ y := by
      constructor
      · intro y hy
        exact if_neg hy
      · intro y hy
        rw [if_pos hy]
        exact hvary.ints y hy
    refine (Pred.holds_congr M q fun y hy => ?_).mp (h _ hback)
    have hnew : y ∉ unknownNames xs q := fun ht => (not_mem_of_mem_unknownNames ht).1 hy
    by_cases hyxs : y ∈ xs
    · rw [if_pos hyxs]
    · rw [if_neg hyxs, hvary.same y hyxs, hσ.same y hnew]

end

/-! ## The transformer -/

mutual

/-- What a state has to satisfy before a statement for `Q` to be sure after it. A loop is judged by
its invariant: with `close` in all states that differ in the variables that its body assigns, and
without it in the state before the loop only. -/
def Stmt.Requires {α : Type} (M : Interpretation α) (close : Bool) :
    Stmt → (Valuation α → Prop) → Valuation α → Prop
  | .assign targets exprs, Q, ρ =>
    if 1 < targets.length ∧ isSingleCall exprs then
      ∀ ρ', ρ.VariesOn (targets.map Target.name) ρ' → Q ρ'
    else Q ((Bindings.ofPairs ((targets.map Target.name).zip exprs)).apply M ρ)
  | .block stmts, Q, ρ => Stmt.RequiresList M close stmts Q ρ
  | .branch condition yes no, Q, ρ =>
    (condition.Holds M ρ → yes.Requires M close Q ρ) ∧
      (¬condition.Holds M ρ → match no with
        | some s => s.Requires M close Q ρ
        | none => Q ρ)
  | .loop _ _ none, _, _ => False
  | .loop condition body (some inv), Q, ρ =>
    inv.Holds M ρ ∧ ∀ ρ', ρ.VariesOn (if close then body.assignedScalars else []) ρ' →
      inv.Holds M ρ' → (condition.Holds M ρ' → body.Requires M close (fun σ => inv.Holds M σ) ρ') ∧
        (¬condition.Holds M ρ' → Q ρ')

def Stmt.RequiresList {α : Type} (M : Interpretation α) (close : Bool) :
    List Stmt → (Valuation α → Prop) → Valuation α → Prop
  | [], Q, ρ => Q ρ
  | s :: rest, Q, ρ => s.Requires M close (fun σ => Stmt.RequiresList M close rest Q σ) ρ

end

section

variable {α : Type} {M : Interpretation α} {K : Kinds} {close : Bool}

theorem Valuation.HasKinds.variesOn_self {ρ : Valuation α} {xs : List String} (hρ : ρ.HasKinds K)
    (hxs : ∀ x ∈ xs, K x = .int) : ρ.VariesOn xs ρ := by
  constructor
  · intro x _
    rfl
  · intro x hx
    rw [hρ x, hxs x hx]

theorem Valuation.VariesOn.eq_of_nil {ρ ρ' : Valuation α} (h : ρ.VariesOn [] ρ') : ρ' = ρ :=
  funext fun x => h.same x List.not_mem_nil

theorem Valuation.HasKinds.apply {ρ : Valuation α} (hρ : ρ.HasKinds K) {m : Bindings}
    (hm : m.Kinded K) : (m.apply M ρ).HasKinds K := by
  intro x
  unfold Bindings.apply
  cases hx : m.lookup x with
  | none => exact hρ x
  | some e =>
    have hint := (hm (x, e) (Bindings.mem_of_lookup hx)).1
    rw [hint, Datum.type]

/-- The variables over which the obligations of a loop are closed, if they are, have numbers. -/
theorem Stmt.OverVars.closed_vars {c : Stmt} (hc : c.OverVars K) (close : Bool) :
    ∀ x ∈ (if close then c.assignedScalars else []), K x = .int := by
  intro x hx
  cases close with
  | true => exact hc.assignedScalars x hx
  | false => exact absurd hx List.not_mem_nil

mutual

/-- A predicate that is implied asks for no more. -/
theorem Stmt.OverVars.requires_mono : ∀ {c : Stmt}, c.OverVars K → ∀ {Q Q' : Valuation α → Prop},
    (∀ ρ, ρ.HasKinds K → Q ρ → Q' ρ) → ∀ ρ, ρ.HasKinds K →
      c.Requires M close Q ρ → c.Requires M close Q' ρ
  | .assign targets exprs, hc, Q, Q', hQ, ρ, hρ, h => by
    obtain ⟨xs, rfl, hxs⟩ := exists_names_of_targets hc.1
    rw [Stmt.Requires, Target.map_name_vars] at h ⊢
    by_cases hcall : 1 < (xs.map Target.var).length ∧ isSingleCall exprs
    · rw [if_pos hcall] at h ⊢
      intro ρ' hvary
      exact hQ ρ' (hρ.of_variesOn hxs hvary) (h ρ' hvary)
    · rw [if_neg hcall] at h ⊢
      exact hQ _ (hρ.apply (Bindings.Kinded.ofPairs_zip hxs hc.2)) h
  | .block stmts, hc, Q, Q', hQ, ρ, hρ, h => by
    rw [Stmt.Requires] at h ⊢
    exact Stmt.OverVarsList.requiresList_mono hc hQ ρ hρ h
  | .branch condition yes none, hc, Q, Q', hQ, ρ, hρ, h => by
    rw [Stmt.Requires] at h ⊢
    exact ⟨fun ht => hc.2.1.requires_mono hQ ρ hρ (h.1 ht), fun hf => hQ ρ hρ (h.2 hf)⟩
  | .branch condition yes (some no), hc, Q, Q', hQ, ρ, hρ, h => by
    have hno : no.OverVars K := hc.2.2
    rw [Stmt.Requires] at h ⊢
    exact ⟨fun ht => hc.2.1.requires_mono hQ ρ hρ (h.1 ht),
      fun hf => hno.requires_mono hQ ρ hρ (h.2 hf)⟩
  | .loop condition body none, hc, Q, Q', hQ, ρ, hρ, h => by
    rw [Stmt.Requires] at h
    exact h.elim
  | .loop condition body (some inv), hc, Q, Q', hQ, ρ, hρ, h => by
    -- the body is asked for the invariant, only the end of the loop for the postcondition
    rw [Stmt.Requires] at h ⊢
    refine ⟨h.1, fun ρ' hvary hinv => ⟨(h.2 ρ' hvary hinv).1, fun hend => ?_⟩⟩
    have hρ' : ρ'.HasKinds K := hρ.of_variesOn (hc.2.2.closed_vars close) hvary
    exact hQ ρ' hρ' ((h.2 ρ' hvary hinv).2 hend)

theorem Stmt.OverVarsList.requiresList_mono : ∀ {cs : List Stmt}, Stmt.OverVarsList K cs →
    ∀ {Q Q' : Valuation α → Prop}, (∀ ρ, ρ.HasKinds K → Q ρ → Q' ρ) → ∀ ρ, ρ.HasKinds K →
      Stmt.RequiresList M close cs Q ρ → Stmt.RequiresList M close cs Q' ρ
  | [], _, Q, Q', hQ, ρ, hρ, h => by
    rw [Stmt.RequiresList] at h ⊢
    exact hQ ρ hρ h
  | c :: rest, hc, Q, Q', hQ, ρ, hρ, h => by
    rw [Stmt.RequiresList] at h ⊢
    exact hc.1.requires_mono (fun σ hσ => Stmt.OverVarsList.requiresList_mono hc.2 hQ σ hσ) ρ hρ h

end

mutual

/-- Two predicates are asked for together where each of them is asked for. -/
theorem Stmt.requires_and : ∀ (c : Stmt) (Q Q' : Valuation α → Prop) (ρ : Valuation α),
    c.Requires M close (fun σ => Q σ ∧ Q' σ) ρ ↔
      c.Requires M close Q ρ ∧ c.Requires M close Q' ρ
  | .assign targets exprs, Q, Q', ρ => by
    rw [Stmt.Requires, Stmt.Requires, Stmt.Requires]
    by_cases hcall : 1 < targets.length ∧ isSingleCall exprs
    · rw [if_pos hcall, if_pos hcall, if_pos hcall]
      simp only [imp_and, forall_and]
    · rw [if_neg hcall, if_neg hcall, if_neg hcall]
  | .block stmts, Q, Q', ρ => by
    rw [Stmt.Requires, Stmt.Requires, Stmt.Requires]
    exact Stmt.requiresList_and stmts Q Q' ρ
  | .branch condition yes none, Q, Q', ρ => by
    rw [Stmt.Requires, Stmt.Requires, Stmt.Requires, Stmt.requires_and yes]
    tauto
  | .branch condition yes (some no), Q, Q', ρ => by
    rw [Stmt.Requires, Stmt.Requires, Stmt.Requires, Stmt.requires_and yes, Stmt.requires_and no]
    tauto
  | .loop condition body none, Q, Q', ρ => by
    rw [Stmt.Requires, Stmt.Requires, Stmt.Requires, and_self]
  | .loop condition body (some inv), Q, Q', ρ => by
    rw [Stmt.Requires, Stmt.Requires, Stmt.Requires]
    constructor
    · rintro ⟨hinv, h⟩
      exact ⟨⟨hinv, fun ρ' hvary hi => ⟨(h ρ' hvary hi).1, fun hend => ((h ρ' hvary hi).2 hend).1⟩⟩,
        hinv, fun ρ' hvary hi => ⟨(h ρ' hvary hi).1, fun hend => ((h ρ' hvary hi).2 hend).2⟩⟩
    · rintro ⟨⟨hinv, h⟩, -, h'⟩
      exact ⟨hinv, fun ρ' hvary hi => ⟨(h ρ' hvary hi).1,
        fun hend => ⟨(h ρ' hvary hi).2 hend, (h' ρ' hvary hi).2 hend⟩⟩⟩

theorem Stmt.requiresList_and : ∀ (cs : List Stmt) (Q Q' : Valuation α → Prop) (ρ : Valuation α),
    Stmt.RequiresList M close cs (fun σ => Q σ ∧ Q' σ) ρ ↔
      Stmt.RequiresList M close cs Q ρ ∧ Stmt.RequiresList M close cs Q' ρ
  | [], Q, Q', ρ => by
    rw [Stmt.RequiresList, Stmt.RequiresList, Stmt.RequiresList]
  | c :: rest, Q, Q', ρ => by
    have hrest : (fun σ => Stmt.RequiresList M close rest (fun σ => Q σ ∧ Q' σ) σ) =
        fun σ => Stmt.RequiresList M close rest Q σ ∧ Stmt.RequiresList M close rest Q' σ :=
      funext fun σ => propext (Stmt.requiresList_and rest Q Q' σ)
    rw [Stmt.RequiresList, Stmt.RequiresList, Stmt.RequiresList, hrest]
    exact Stmt.requires_and c _ _ ρ

end

mutual

/-- With closed loops no less is asked for: the state before a loop is one of those that differ from
it in the variables that the body assigns. -/
theorem Stmt.OverVars.requires_open : ∀ {c : Stmt}, c.OverVars K → ∀ {Q : Valuation α → Prop} {ρ},
    ρ.HasKinds K → c.Requires M true Q ρ → c.Requires M false Q ρ
  | .assign targets exprs, hc, Q, ρ, hρ, h => by
    rw [Stmt.Requires] at h ⊢
    exact h
  | .block stmts, hc, Q, ρ, hρ, h => by
    rw [Stmt.Requires] at h ⊢
    exact Stmt.OverVarsList.requiresList_open hc hρ h
  | .branch condition yes none, hc, Q, ρ, hρ, h => by
    rw [Stmt.Requires] at h ⊢
    exact ⟨fun ht => hc.2.1.requires_open hρ (h.1 ht), h.2⟩
  | .branch condition yes (some no), hc, Q, ρ, hρ, h => by
    have hno : no.OverVars K := hc.2.2
    rw [Stmt.Requires] at h ⊢
    exact ⟨fun ht => hc.2.1.requires_open hρ (h.1 ht), fun hf => hno.requires_open hρ (h.2 hf)⟩
  | .loop condition body none, hc, Q, ρ, hρ, h => by
    rw [Stmt.Requires] at h
    exact h.elim
  | .loop condition body (some inv), hc, Q, ρ, hρ, h => by
    rw [Stmt.Requires] at h ⊢
    obtain ⟨hinv, hall⟩ := h
    -- of the states that vary from `ρ` an open loop asks for `ρ` alone
    obtain ⟨hbody, hend⟩ := hall ρ (hρ.variesOn_self (hc.2.2.closed_vars true)) hinv
    refine ⟨hinv, fun ρ' hvary _ => ?_⟩
    have hsame : ρ' = ρ := hvary.eq_of_nil
    rw [hsame]
    exact ⟨fun ht => hc.2.2.requires_open hρ (hbody ht), hend⟩

theorem Stmt.OverVarsList.requiresList_open : ∀ {cs : List Stmt}, Stmt.OverVarsList K cs →
    ∀ {Q : Valuation α → Prop} {ρ}, ρ.HasKinds K → Stmt.RequiresList M true cs Q ρ →
      Stmt.RequiresList M false cs Q ρ
  | [], _, Q, ρ, hρ, h => by
    rw [Stmt.RequiresList] at h ⊢
    exact h
  | c :: rest, hc, Q, ρ, hρ, h => by
    -- the two calculi hand different predicates to `c`, so its monotonicity is needed here
    rw [Stmt.RequiresList] at h ⊢
    have hopen := hc.1.requires_open hρ h
    exact hc.1.requires_mono (fun σ hσ => Stmt.OverVarsList.requiresList_open hc.2 hσ) ρ hρ hopen

end

/-! ## The predicates that are worked out -/

theorem Pred.holds_wpAssign_vars {xs : List String} {es : List Expr} {q r : Pred}
    {ρ : Valuation α} (hxs : ∀ x ∈ xs, K x = .int) (hes : ∀ e ∈ es, e.Kinded K) (hq : q.Kinded K)
    (h : wpAssign (xs.map Target.var) es q = .ok r) (hρ : ρ.HasKinds K) :
    r.Holds M ρ ↔
      (Stmt.assign (xs.map Target.var) es).Requires M close (fun σ => q.Holds M σ) ρ := by
  rw [Stmt.Requires, Target.map_name_vars, List.length_map]
  rcases wpAssign_vars h with ⟨rfl, rfl⟩ | ⟨hlen, hcall, rfl⟩ | ⟨hop, rfl⟩
  · have hnone : Bindings.apply M (Bindings.ofPairs (([] : List String).zip es)) ρ = ρ := rfl
    rw [if_neg fun h => absurd h.1 (Nat.not_lt_zero 1), hnone]
  · rw [if_pos ⟨hlen, hcall⟩]
    exact Pred.holds_havoc hq hxs hρ
  · have hone : ¬(1 < xs.length ∧ isSingleCall es) := by
      rintro ⟨hlen, hcall⟩
      rcases hop with hop | hop
      · omega
      · rw [hop] at hcall
        cases hcall
    rw [if_neg hone]
    exact Pred.holds_subst M hq (Bindings.Kinded.ofPairs_zip hxs hes) hρ

theorem Pred.holds_wpBranch {c r₁ r₂ : Pred} {ρ : Valuation α} :
    (wpBranch c r₁ r₂).Holds M ρ ↔
      (c.Holds M ρ → r₁.Holds M ρ) ∧ (¬c.Holds M ρ → r₂.Holds M ρ) := by
  rw [wpBranch, Pred.Holds, Pred.Holds, Pred.Holds, Pred.Holds]
  tauto

mutual

/-- The predicate worked out for a statement is what the transformer says. -/
theorem Stmt.OverVars.holds_wp : ∀ {c : Stmt} {q r : Pred}, c.OverVars K → q.Kinded K →
    c.wp close q = .ok r → ∀ {ρ : Valuation α}, ρ.HasKinds K →
      (r.Holds M ρ ↔ c.Requires M close (fun σ => q.Holds M σ) ρ)
  | .assign targets exprs, q, r, hc, hq, h, ρ, hρ => by
    obtain ⟨r₀, hr₀, rfl⟩ := Stmt.wp_assign_eq_ok.mp h
    obtain ⟨xs, rfl, hxs⟩ := exists_names_of_targets hc.1
    rw [Pred.holds_simplify M (hq.wpAssign_vars hxs hc.2 hr₀) hρ]
    exact Pred.holds_wpAssign_vars hxs hc.2 hq hr₀ hρ
  | .block stmts, q, r, hc, hq, h, ρ, hρ => by
    rw [Stmt.wp] at h
    rw [Stmt.Requires]
    exact Stmt.OverVarsList.holds_wpBlock hc hq h hρ
  | .branch condition yes none, q, r, hc, hq, h, ρ, hρ => by
    obtain ⟨r₁, r₂, h₁, h₂, rfl⟩ := Stmt.wp_branch_eq_ok.mp h
    cases h₂
    have hk := Pred.kinded_wpBranch hc.1 (hc.2.1.kinded_wp hq h₁) hq
    rw [Pred.holds_simplify M hk hρ, Pred.holds_wpBranch, hc.2.1.holds_wp hq h₁ hρ, Stmt.Requires]
  | .branch condition yes (some no), q, r, hc, hq, h, ρ, hρ => by
    obtain ⟨r₁, r₂, h₁, h₂, rfl⟩ := Stmt.wp_branch_eq_ok.mp h
    have hno : no.OverVars K := hc.2.2
    have hk := Pred.kinded_wpBranch hc.1 (hc.2.1.kinded_wp hq h₁) (hno.kinded_wp hq h₂)
    rw [Pred.holds_simplify M hk hρ, Pred.holds_wpBranch, hc.2.1.holds_wp hq h₁ hρ,
      hno.holds_wp hq h₂ hρ, Stmt.Requires]
  | .loop condition body invariant, q, r, hc, hq, h, ρ, hρ => by
    obtain ⟨inv, w, rfl, hw, rfl⟩ := Stmt.wp_loop_eq_ok.mp h
    have hvars := hc.2.2.closed_vars close
    have hinv : inv.Kinded K := hc.2.1 inv rfl
    have hk := Pred.kinded_wpLoop hvars hc.1 hinv (hc.2.2.kinded_wp hinv hw) hq
    rw [Pred.holds_simplify M hk hρ, Pred.holds_wpLoop, Stmt.Requires]
    -- the body starts in states that vary in what it assigns, and these have the kinds as well
    refine and_congr_right fun _ => forall₂_congr fun ρ' hvary => ?_
    rw [hc.2.2.holds_wp hinv hw (hρ.of_variesOn hvars hvary)]

theorem Stmt.OverVarsList.holds_wpBlock : ∀ {cs : List Stmt} {q r : Pred},
    Stmt.OverVarsList K cs → q.Kinded K → Stmt.wpBlock close cs q = .ok r →
      ∀ {ρ : Valuation α}, ρ.HasKinds K →
        (r.Holds M ρ ↔ Stmt.RequiresList M close cs (fun σ => q.Holds M σ) ρ)
  | [], q, r, _, hq, h, ρ, hρ => by
    rw [Stmt.wpBlock] at h
    cases h
    rw [Stmt.RequiresList]
  | c :: rest, q, r, hc, hq, h, ρ, hρ => by
    obtain ⟨w, hw, hr⟩ := Stmt.wpBlock_cons_eq_ok.mp h
    have hkw : w.Kinded K := Stmt.OverVarsList.kinded_wpBlock hc.2 hq hw
    have hrest : ∀ σ : Valuation α, σ.HasKinds K →
        (w.Holds M σ ↔ Stmt.RequiresList M close rest (fun σ => q.Holds M σ) σ) := fun σ hσ =>
      Stmt.OverVarsList.holds_wpBlock hc.2 hq hw hσ
    rw [hc.1.holds_wp hkw hr hρ, Stmt.RequiresList]
    constructor
    · exact hc.1.requires_mono (fun σ hσ => (hrest σ hσ).mp) ρ hρ
    · exact hc.1.requires_mono (fun σ hσ => (hrest σ hσ).mpr) ρ hρ

end

end

/-! ## When there is a weakest precondition

It can fail to exist because a loop has no invariant, or because the numbers of targets and of
expressions differ. Over variables neither depends on the postcondition. -/

/-- Whether the step succeeds depends neither on how loops are treated nor on the predicate, and if
it fails, then in one way. -/
def Uniform (f : Bool → Pred → Except VerifyError Pred) : Prop :=
  (∃ e, ∀ close q, f close q = .error e) ∨
    ∃ w : Bool → Pred → Pred, ∀ close q, f close q = .ok (w close q)

theorem Uniform.ok (w : Bool → Pred → Pred) : Uniform fun close q => .ok (w close q) :=
  .inr ⟨w, fun _ _ => rfl⟩

/-- One step after the other: the second one can depend on the predicate and on what the first one
gives. -/
theorem Uniform.bind {f : Bool → Pred → Except VerifyError Pred}
    {g : Bool → Pred → Pred → Except VerifyError Pred} (hf : Uniform f)
    (hg : ∀ w : Bool → Pred → Pred, Uniform fun close q => g close q (w close q)) :
    Uniform fun close q => f close q >>= g close q := by
  rcases hf with ⟨e, he⟩ | ⟨w, hw⟩
  · refine .inl ⟨e, fun close q => ?_⟩
    dsimp only
    rw [he]
    rfl
  · have hstep : (fun close q => f close q >>= g close q) =
        fun close q => g close q (w close q) := by
      funext close q
      rw [hw]
      rfl
    rw [hstep]
    exact hg w

/-- The predicate can be another one at each use. -/
theorem Uniform.comp {f : Bool → Pred → Except VerifyError Pred} (hf : Uniform f)
    (u : Bool → Pred → Pred) : Uniform fun close q => f close (u close q) := by
  rcases hf with ⟨e, he⟩ | ⟨w, hw⟩
  · exact .inl ⟨e, fun close q => he close (u close q)⟩
  · exact .inr ⟨fun close q => w close (u close q), fun close q => hw close (u close q)⟩

theorem hiddenWrite?_vars (xs : List String) (q : Pred) :
    hiddenWrite? (xs.map Target.var) q = none := by
  unfold hiddenWrite?
  rw [List.findSome?_eq_none_iff]
  intro t ht
  obtain ⟨x, -, rfl⟩ := List.mem_map.mp ht
  rfl

theorem uniform_wpAssign (xs : List String) (es : List Expr) :
    Uniform fun _ q => wpAssign (xs.map Target.var) es q := by
  unfold wpAssign
  simp only [hiddenWrite?_vars]
  by_cases hnil : (xs.map Target.var).isEmpty
  · simp only [if_pos hnil]
    exact .ok fun _ q => q
  by_cases hcall : 1 < (xs.map Target.var).length ∧ isSingleCall es
  · simp only [if_neg hnil, if_pos hcall]
    exact .ok fun _ q => havoc (xs.map Target.var) q
  simp only [if_neg hnil, if_neg hcall]
  split
  · exact .ok _
  · split
    · exact .inl ⟨_, fun _ _ => rfl⟩
    · split
      · exact .ok _
      · exact .ok _

mutual

theorem Stmt.uniform_wp : ∀ {c : Stmt}, (∀ t ∈ c.targets, ∃ x, t = .var x) →
    Uniform fun close q => c.wp close q
  | .assign targets exprs, h => by
    obtain ⟨xs, rfl, -⟩ := exists_names_of_targets (K := fun _ => .int) fun t ht =>
      (h t ht).imp fun _ hx => ⟨hx, rfl⟩
    have hstep : (fun close q => (Stmt.assign (xs.map Target.var) exprs).wp close q) =
        fun close q => wpAssign (xs.map Target.var) exprs q >>= fun r => .ok r.simplify := by
      funext close q
      rw [Stmt.wp]
      cases wpAssign (xs.map Target.var) exprs q <;> rfl
    rw [hstep]
    exact (uniform_wpAssign xs exprs).bind fun w => .ok _
  | .block stmts, h => by
    have hstep : (fun close q => (Stmt.block stmts).wp close q) =
        fun close q => Stmt.wpBlock close stmts q := by
      funext close q
      rw [Stmt.wp]
    rw [hstep]
    exact Stmt.uniform_wpBlock h
  | .branch condition yes none, h => by
    have hyes := Stmt.uniform_wp (c := yes) fun t ht => h t (List.mem_append_left _ ht)
    have hstep : (fun close q => (Stmt.branch condition yes none).wp close q) =
        fun close q => yes.wp close q >>= fun r => .ok (wpBranch condition r q).simplify := by
      funext close q
      rw [Stmt.wp]
      rfl
    rw [hstep]
    exact hyes.bind fun w => .ok _
  | .branch condition yes (some no), h => by
    have hyes := Stmt.uniform_wp (c := yes) fun t ht => h t (List.mem_append_left _ ht)
    have hno := Stmt.uniform_wp (c := no) fun t ht => h t (List.mem_append_right _ ht)
    have hstep : (fun close q => (Stmt.branch condition yes (some no)).wp close q) =
        fun close q => yes.wp close q >>= fun r =>
          no.wp close q >>= fun r' => .ok (wpBranch condition r r').simplify := by
      funext close q
      rw [Stmt.wp]
      rfl
    rw [hstep]
    exact hyes.bind fun w => hno.bind fun w' => .ok _
  | .loop condition body none, h => by
    refine .inl ⟨.missingInvariant condition, fun close q => ?_⟩
    dsimp only
    rw [Stmt.wp]
  | .loop condition body (some inv), h => by
    -- the body is asked for the invariant, whatever the loop is asked for
    have hstep : (fun close q => (Stmt.loop condition body (some inv)).wp close q) =
        fun close q => body.wp close inv >>= fun w => .ok
          (wpLoop (if close then body.assignedScalars else []) condition inv w q).simplify := by
      funext close q
      rw [Stmt.wp]
      rfl
    rw [hstep]
    have hbody := (Stmt.uniform_wp (c := body) h).comp fun _ _ => inv
    exact hbody.bind fun w => .ok _

theorem Stmt.uniform_wpBlock : ∀ {cs : List Stmt}, (∀ t ∈ Stmt.targetsList cs, ∃ x, t = .var x) →
    Uniform fun close q => Stmt.wpBlock close cs q
  | [], _ => by
    have hstep : (fun close q => Stmt.wpBlock close [] q) = fun _ q => .ok q := by
      funext close q
      rw [Stmt.wpBlock]
    rw [hstep]
    exact .ok fun _ q => q
  | c :: rest, h => by
    have hc := Stmt.uniform_wp (c := c) fun t ht => h t (List.mem_append_left _ ht)
    have hrest : Uniform fun close q => Stmt.wpBlock close rest q :=
      Stmt.uniform_wpBlock fun t ht => h t (List.mem_append_right _ ht)
    have hstep : (fun close q => Stmt.wpBlock close (c :: rest) q) =
        fun close q => Stmt.wpBlock close rest q >>= fun w => c.wp close w := by
      funext close q
      rw [Stmt.wpBlock]
    rw [hstep]
    exact hrest.bind fun w => hc.comp w

end

/-! ## Healthiness -/

/-- A statement whose targets are variables either has no weakest precondition, for one reason,
whatever is asked for and however loops are treated, or always has one. Then, where names are used
according to their kinds, it is true of a conjunction in exactly the states in which it is true of
both parts, and of a predicate that is implied in every state it is implied in every state. -/
theorem wp_healthy (c : Stmt) (hc : ∀ t ∈ c.targets, ∃ x, t = .var x) :
    (∃ e, ∀ close q, c.wp close q = .error e) ∨
    ∃ w : Bool → Pred → Pred, (∀ close q, c.wp close q = .ok (w close q)) ∧
      ∀ (K : Kinds) (α : Type) (M : Interpretation α) (close : Bool) (q₁ q₂ : Pred),
        c.OverVars K → q₁.Kinded K → q₂.Kinded K →
          (∀ ρ, ρ.HasKinds K → ((w close (.and q₁ q₂)).Holds M ρ ↔
            (w close q₁).Holds M ρ ∧ (w close q₂).Holds M ρ)) ∧
          ((∀ ρ, ρ.HasKinds K → q₁.Holds M ρ → q₂.Holds M ρ) →
            ∀ ρ, ρ.HasKinds K → (w close q₁).Holds M ρ → (w close q₂).Holds M ρ) := by
  rcases Stmt.uniform_wp hc with herror | ⟨w, hw⟩
  · exact .inl herror
  · refine .inr ⟨w, hw, fun K α M close q₁ q₂ hcK hq₁ hq₂ => ⟨fun ρ hρ => ?_, fun hQ ρ hρ => ?_⟩⟩
    · have hand : (Pred.and q₁ q₂).Kinded K := ⟨hq₁, hq₂⟩
      rw [hcK.holds_wp hand (hw close _) hρ, hcK.holds_wp hq₁ (hw close _) hρ,
        hcK.holds_wp hq₂ (hw close _) hρ]
      exact Stmt.requires_and c _ _ ρ
    · rw [hcK.holds_wp hq₁ (hw close _) hρ, hcK.holds_wp hq₂ (hw close _) hρ]
      exact hcK.requires_mono hQ ρ hρ

theorem counting_overVars : counting.body.OverVars fun _ => .int := counting_scalar.overVars

/-- The body of `counting`, with a call of two results and a loop: the result is the argument where
it is neither above nor below it, and then it is not above. -/
theorem wp_healthy_counting : ∃ w : Bool → Pred → Pred,
    (∀ close q, counting.body.wp close q = .ok (w close q)) ∧
    ∀ (M : Interpretation Cells) (close : Bool) (ρ : Valuation Cells),
      ρ.HasKinds (fun _ => .int) →
      ((w close (.and (.compare .le (.var "r") (.var "n"))
          (.compare .ge (.var "r") (.var "n")))).Holds M ρ ↔
        (w close (.compare .le (.var "r") (.var "n"))).Holds M ρ ∧
            (w close (.compare .ge (.var "r") (.var "n"))).Holds M ρ) ∧
      ((w close (.compare .eq (.var "r") (.var "n"))).Holds M ρ →
        (w close (.compare .le (.var "r") (.var "n"))).Holds M ρ) := by
  have hvars : ∀ t ∈ counting.body.targets, ∃ x, t = .var x := fun t ht =>
    (counting_overVars.targets t ht).imp fun _ hx => hx.1
  rcases wp_healthy counting.body hvars with ⟨e, he⟩ | ⟨w, hw, hlaws⟩
  · have hok : (counting.body.wp true (.bool true)).isOk = true := by cbv
    rw [he] at hok
    cases hok
  · have hkinded : ∀ op, (Pred.compare op (.var "r") (.var "n")).Kinded fun _ => .int :=
      fun _ => ⟨rfl, rfl⟩
    refine ⟨w, hw, fun M close ρ hρ => ⟨?_, ?_⟩⟩
    · exact (hlaws _ Cells M close _ _ counting_overVars (hkinded .le) (hkinded .ge)).1 ρ hρ
    · refine (hlaws _ Cells M close _ _ counting_overVars (hkinded .eq) (hkinded .le)).2 ?_ ρ hρ
      intro σ _ heq
      have hval : (σ "r").toInt = (σ "n").toInt := of_decide_eq_true heq
      exact decide_eq_true hval.le

/-! ## Closed and open loops -/

/-- A statement that has a weakest precondition with closed loops has one with open loops, which
the first one implies. -/
theorem Stmt.OverVars.exists_wp_open {K : Kinds} {c : Stmt} {q r : Pred} (hc : c.OverVars K)
    (hq : q.Kinded K) (hr : c.wp true q = .ok r) :
    ∃ r', c.wp false q = .ok r' ∧ ∀ (α : Type) (M : Interpretation α) (ρ : Valuation α),
      ρ.HasKinds K → r.Holds M ρ → r'.Holds M ρ := by
  have hvars : ∀ t ∈ c.targets, ∃ x, t = .var x := fun t ht =>
    (hc.targets t ht).imp fun _ hx => hx.1
  rcases Stmt.uniform_wp hvars with ⟨e, he⟩ | ⟨w, hw⟩
  · cases (he true q).symm.trans hr
  · refine ⟨w false q, hw false q, fun α M ρ hρ h => ?_⟩
    rw [hc.holds_wp hq hr hρ] at h
    rw [hc.holds_wp hq (hw false q) hρ]
    exact hc.requires_open hρ h

/-- To close the obligations of loops only strengthens: wherever the weakest precondition with
closed loops is true, there is one with open loops and it is true. So the open obligation of a
function is true wherever its closed one is. -/
theorem closed_loops_strengthen (K : Kinds) :
    (∀ (c : Stmt) (q r : Pred), c.OverVars K → q.Kinded K → c.wp true q = .ok r →
      ∃ r', c.wp false q = .ok r' ∧
        ∀ (α : Type) (M : Interpretation α) (ρ : Valuation α), ρ.HasKinds K →
          r.Holds M ρ → r'.Holds M ρ) ∧
    (∀ (f : FunctionDef) (vc : Pred), f.body.OverVars K → (f.pre.getD (.bool true)).Kinded K →
      (∀ post, f.post = some post → post.Kinded K) → f.obligation true = .ok (some vc) →
      ∃ vc', f.obligation false = .ok (some vc') ∧
        ∀ (α : Type) (M : Interpretation α) (ρ : Valuation α), ρ.HasKinds K →
          vc.Holds M ρ → vc'.Holds M ρ) := by
  refine ⟨fun c q r hc hq hr => hc.exists_wp_open hq hr, fun f vc hc hpre hpost hvc => ?_⟩
  obtain ⟨post, r, hsome, hr, rfl⟩ := FunctionDef.obligation_eq_ok.mp hvc
  have hq : post.Kinded K := hpost post hsome
  obtain ⟨r', hr', himp⟩ := hc.exists_wp_open hq hr
  refine ⟨_, FunctionDef.obligation_eq_ok.mpr ⟨post, r', hsome, hr', rfl⟩, fun α M ρ hρ h => ?_⟩
  have hk : (Pred.implies (f.pre.getD (.bool true)) r).Kinded K := ⟨hpre, hc.kinded_wp hq hr⟩
  have hk' : (Pred.implies (f.pre.getD (.bool true)) r').Kinded K := ⟨hpre, hc.kinded_wp hq hr'⟩
  rw [Pred.holds_simplify M hk hρ] at h
  rw [Pred.holds_simplify M hk' hρ]
  exact fun hp => himp α M ρ hρ (h hp)

/-- The open obligation of `counting` is true in every state, since its closed one is. -/
theorem closed_loops_strengthen_counting : ∃ vc, counting.obligation false = .ok (some vc) ∧
    ∀ (M : Interpretation Cells) (ρ : Valuation Cells), ρ.HasKinds (fun _ => .int) →
      vc.Holds M ρ := by
  have hpost : ∀ post, counting.post = some post → post.Kinded fun _ => .int := by
    intro post hsome
    cases hsome
    exact ⟨rfl, rfl⟩
  obtain ⟨vc, hvc, himp⟩ := (closed_loops_strengthen fun _ => .int).2 counting countingObligation
    counting_overVars ⟨rfl, trivial⟩ hpost (by cbv)
  exact ⟨vc, hvc, fun M ρ hρ => himp Cells M ρ hρ (countingObligation_holds M ρ)⟩

end Contracts

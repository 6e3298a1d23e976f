import Contracts.Proofs.AssignmentMeaning
import Contracts.Proofs.ExecutionFrame
import Contracts.Proofs.Fuel
import Contracts.Proofs.SimplifyMeaning
import Mathlib

/-!
# Weakest preconditions are sound over variables

If the predicate worked out for a statement holds before it and the execution of the statement
finishes, then the predicate asked for holds after it. This is about statements that assign
variables only (`Stmt.Scalar`): arrays are read but not written, calls of several results are
received by variables, and loops and conditionals nest in any way. The obligations of a loop are
closed over the variables that its body assigns; all other names are the same in every iteration,
so what was closed at the start can be used at each of them.

The truth of the predicates is over all integers, the execution is over 64-bit integers and stops at
overflow, and called functions and formulas are read in any way that agrees with their executions.
-/

set_option autoImplicit false

namespace Contracts

/-! ## Statements over variables -/

mutual

/-- All targets are variables of numbers, and names are used according to their kinds. -/
def Stmt.OverVars (K : Kinds) : Stmt → Prop
  | .assign targets exprs =>
    (∀ t ∈ targets, ∃ x, t = .var x ∧ K x = .int) ∧ ∀ e ∈ exprs, e.Kinded K
  | .block stmts => Stmt.OverVarsList K stmts
  | .branch condition yes no => condition.Kinded K ∧ yes.OverVars K ∧ (match no with
    | some s => s.OverVars K
    | none => True)
  | .loop condition body invariant =>
    condition.Kinded K ∧ (∀ i, invariant = some i → i.Kinded K) ∧ body.OverVars K

def Stmt.OverVarsList (K : Kinds) : List Stmt → Prop
  | [] => True
  | s :: rest => s.OverVars K ∧ Stmt.OverVarsList K rest

end

mutual

/-- The same, and the variables that receive the results of a call receive numbers. -/
def Stmt.Scalar (p : Program) (b : Below) (K : Kinds) : Stmt → Prop
  | .assign targets exprs =>
    (∀ t ∈ targets, ∃ x, t = .var x ∧ K x = .int) ∧ (∀ e ∈ exprs, e.Kinded K) ∧
      (1 < targets.length → ∀ f args, exprs = [.call f args] → p.ReturnsInts b f)
  | .block stmts => Stmt.ScalarList p b K stmts
  | .branch condition yes no => condition.Kinded K ∧ yes.Scalar p b K ∧ (match no with
    | some s => s.Scalar p b K
    | none => True)
  | .loop condition body invariant =>
    condition.Kinded K ∧ (∀ i, invariant = some i → i.Kinded K) ∧ body.Scalar p b K

def Stmt.ScalarList (p : Program) (b : Below) (K : Kinds) : List Stmt → Prop
  | [] => True
  | s :: rest => s.Scalar p b K ∧ Stmt.ScalarList p b K rest

end

section

variable {p : Program} {b : Below} {K : Kinds}

/-- Targets that are variables, as names. -/
theorem exists_names_of_targets {targets : List Target}
    (h : ∀ t ∈ targets, ∃ x, t = .var x ∧ K x = .int) :
    ∃ xs : List String, targets = xs.map Target.var ∧ ∀ x ∈ xs, K x = .int := by
  induction targets with
  | nil => exact ⟨[], rfl, fun x hx => absurd hx List.not_mem_nil⟩
  | cons t targets ih =>
    obtain ⟨x, rfl, hx⟩ := h t List.mem_cons_self
    obtain ⟨xs, rfl, hxs⟩ := ih fun t ht => h t (List.mem_cons_of_mem _ ht)
    exact ⟨x :: xs, rfl, List.forall_mem_cons.mpr ⟨hx, hxs⟩⟩

mutual

theorem Stmt.Scalar.overVars : ∀ {c : Stmt}, c.Scalar p b K → c.OverVars K
  | .assign _ _, h => ⟨h.1, h.2.1⟩
  | .block _, h => Stmt.ScalarList.overVars h
  | .branch _ _ none, h => ⟨h.1, h.2.1.overVars, trivial⟩
  | .branch _ _ (some _), h => ⟨h.1, h.2.1.overVars, Stmt.Scalar.overVars h.2.2⟩
  | .loop _ _ _, h => ⟨h.1, h.2.1, h.2.2.overVars⟩

theorem Stmt.ScalarList.overVars : ∀ {cs : List Stmt},
    Stmt.ScalarList p b K cs → Stmt.OverVarsList K cs
  | [], _ => trivial
  | _ :: _, h => ⟨h.1.overVars, Stmt.ScalarList.overVars h.2⟩

end

mutual

theorem Stmt.OverVars.targets : ∀ {c : Stmt}, c.OverVars K →
    ∀ t ∈ c.targets, ∃ x, t = .var x ∧ K x = .int
  | .assign _ _, h => h.1
  | .block _, h => Stmt.OverVarsList.targets h
  | .branch _ _ none, h => by
    intro t ht
    rw [Stmt.targets, List.append_nil] at ht
    exact h.2.1.targets t ht
  | .branch _ _ (some _), h => by
    intro t ht
    rcases List.mem_append.mp ht with ht | ht
    · exact h.2.1.targets t ht
    · exact Stmt.OverVars.targets h.2.2 t ht
  | .loop _ _ _, h => h.2.2.targets

theorem Stmt.OverVarsList.targets : ∀ {cs : List Stmt}, Stmt.OverVarsList K cs →
    ∀ t ∈ Stmt.targetsList cs, ∃ x, t = .var x ∧ K x = .int
  | [], _ => fun t ht => absurd ht List.not_mem_nil
  | _ :: _, h => by
    intro t ht
    rcases List.mem_append.mp ht with ht | ht
    · exact h.1.targets t ht
    · exact Stmt.OverVarsList.targets h.2 t ht

end

theorem Stmt.OverVars.assignedScalars {c : Stmt} (h : c.OverVars K) :
    ∀ x ∈ c.assignedScalars, K x = .int := by
  intro x hx
  obtain ⟨y, hxy, hy⟩ := h.targets _ (Stmt.mem_assignedScalars.mp hx)
  cases hxy
  exact hy

/-- A statement over variables changes no others than those it assigns. -/
theorem Stmt.Scalar.frame {c : Stmt} (h : c.Scalar p b K) {s s' : State} {fuel fuel' : Nat}
    (hrun : c.exec p b s fuel = .ok (s', fuel')) :
    ∀ x, x ∉ c.assignedScalars → s'[x]? = s[x]? := by
  intro x hx
  refine (Stmt.writtenAt_exec hrun).other x fun hname => ?_
  obtain ⟨t, ht, rfl⟩ := List.mem_map.mp hname
  obtain ⟨y, rfl, -⟩ := h.overVars.targets t ht
  exact hx (Stmt.mem_assignedScalars.mpr ht)

end

/-! ## How a weakest precondition is worked out -/

theorem Except.bind_eq_ok {ε α β : Type} {x : Except ε α} {f : α → Except ε β} {r : β} :
    (x >>= f) = .ok r ↔ ∃ a, x = .ok a ∧ f a = .ok r := by
  cases x with
  | error e => simp only [bind, Except.bind, reduceCtorEq, false_and, exists_false]
  | ok a => simp only [bind, Except.bind, Except.ok.injEq, exists_eq_left']

/-- The result of a computation without what it leaves over. -/
theorem Except.map_fst_eq_ok {ε α β : Type} {x : Except ε (α × β)} {a : α} :
    x.map Prod.fst = .ok a ↔ ∃ b, x = .ok (a, b) := by
  cases x with
  | error e => simp only [Except.map, reduceCtorEq, exists_false]
  | ok r =>
    simp only [Except.map, Except.ok.injEq, Prod.ext_iff]
    constructor
    · intro h
      exact ⟨r.2, h, rfl⟩
    · rintro ⟨-, h, -⟩
      exact h

section

variable {close : Bool} {q r : Pred}

theorem Stmt.wp_assign_eq_ok {targets : List Target} {exprs : List Expr} :
    (Stmt.assign targets exprs).wp close q = .ok r ↔
      ∃ r₀, wpAssign targets exprs q = .ok r₀ ∧ r = r₀.simplify := by
  rw [Stmt.wp]
  cases wpAssign targets exprs q with
  | error e => simp only [Except.map, reduceCtorEq, false_and, exists_false]
  | ok r₀ =>
    simp only [Except.map, Except.ok.injEq, exists_eq_left']
    exact eq_comm

theorem Stmt.wp_branch_eq_ok {condition : Pred} {yes : Stmt} {no : Option Stmt} :
    (Stmt.branch condition yes no).wp close q = .ok r ↔
      ∃ r₁ r₂, yes.wp close q = .ok r₁ ∧ no.elim (.ok q) (fun t => t.wp close q) = .ok r₂ ∧
        r = (wpBranch condition r₁ r₂).simplify := by
  have hwp : (Stmt.branch condition yes no).wp close q = (do
      let r₁ ← yes.wp close q
      let r₂ ← no.elim (.ok q) (fun t => t.wp close q)
      return (wpBranch condition r₁ r₂).simplify) := by
    cases no <;> rw [Stmt.wp] <;> rfl
  rw [hwp, Except.bind_eq_ok]
  refine exists_congr fun r₁ => ?_
  rw [Except.bind_eq_ok]
  constructor
  · rintro ⟨h₁, r₂, h₂, hr⟩
    cases hr
    exact ⟨r₂, h₁, h₂, rfl⟩
  · rintro ⟨r₂, h₁, h₂, rfl⟩
    exact ⟨h₁, r₂, h₂, rfl⟩

theorem Stmt.wp_loop_eq_ok {condition : Pred} {body : Stmt} {invariant : Option Pred} :
    (Stmt.loop condition body invariant).wp close q = .ok r ↔
      ∃ inv w, invariant = some inv ∧ body.wp close inv = .ok w ∧
        r = (wpLoop (if close then body.assignedScalars else []) condition inv w q).simplify := by
  cases invariant with
  | none =>
    rw [Stmt.wp]
    simp only [reduceCtorEq, false_and, exists_false]
  | some inv =>
    rw [Stmt.wp, Except.bind_eq_ok]
    constructor
    · rintro ⟨w, hw, hr⟩
      cases hr
      exact ⟨inv, w, rfl, hw, rfl⟩
    · rintro ⟨inv', w, hinv, hw, rfl⟩
      cases hinv
      exact ⟨w, hw, rfl⟩

theorem Stmt.wpBlock_cons_eq_ok {c : Stmt} {rest : List Stmt} :
    Stmt.wpBlock close (c :: rest) q = .ok r ↔
      ∃ w, Stmt.wpBlock close rest q = .ok w ∧ c.wp close w = .ok r := by
  rw [Stmt.wpBlock, Except.bind_eq_ok]

end

theorem Pred.kinded_wpBranch {c q r : Pred} {K : Kinds} (hc : c.Kinded K) (hq : q.Kinded K)
    (hr : r.Kinded K) : (wpBranch c q r).Kinded K :=
  ⟨⟨hc, hq⟩, hc, hr⟩

/-- The obligations of a loop are of the kinds of their parts. -/
theorem Pred.kinded_wpLoop {c inv w q : Pred} {K : Kinds} {vars : List String}
    (hvars : ∀ x ∈ vars, K x = .int) (hc : c.Kinded K) (hinv : inv.Kinded K) (hw : w.Kinded K)
    (hq : q.Kinded K) : (wpLoop vars c inv w q).Kinded K := by
  refine ⟨hinv, ?_, ?_⟩
  · rw [Pred.kinded_forall_names, Kinds.withInts_eq_self hvars]
    exact ⟨⟨hinv, hc⟩, hw⟩
  · rw [Pred.kinded_forall_names, Kinds.withInts_eq_self hvars]
    exact ⟨⟨hinv, hc⟩, hq⟩

/-- What the obligations of a loop say in each state that differs in the assigned variables. -/
theorem Pred.holds_wpLoop {α : Type} (M : Interpretation α) (vars : List String)
    (c inv w q : Pred) (ρ : Valuation α) :
    (wpLoop vars c inv w q).Holds M ρ ↔ inv.Holds M ρ ∧ ∀ ρ', ρ.VariesOn vars ρ' →
      inv.Holds M ρ' → (c.Holds M ρ' → w.Holds M ρ') ∧ (¬c.Holds M ρ' → q.Holds M ρ') := by
  rw [wpLoop, Pred.Holds, Pred.Holds, Pred.holds_forall_names, Pred.holds_forall_names]
  refine and_congr_right fun _ => ?_
  constructor
  · rintro ⟨hkeep, hend⟩ ρ' hρ hinv
    exact ⟨fun hc => hkeep ρ' hρ ⟨hinv, hc⟩, fun hc => hend ρ' hρ ⟨hinv, hc⟩⟩
  · intro h
    exact ⟨fun ρ' hρ ⟨hinv, hc⟩ => (h ρ' hρ hinv).1 hc,
      fun ρ' hρ ⟨hinv, hc⟩ => (h ρ' hρ hinv).2 hc⟩

/-! ## The induction over statements -/

section

variable {p : Program} {b : Below} {K : Kinds} {close : Bool}

mutual

theorem Stmt.OverVars.kinded_wp : ∀ {c : Stmt} {q r : Pred}, c.OverVars K → q.Kinded K →
    c.wp close q = .ok r → r.Kinded K
  | .assign targets exprs, q, r, hc, hq, h => by
    obtain ⟨r₀, hr₀, rfl⟩ := Stmt.wp_assign_eq_ok.mp h
    obtain ⟨xs, rfl, hxs⟩ := exists_names_of_targets hc.1
    exact (hq.wpAssign_vars hxs hc.2 hr₀).simplify
  | .block stmts, q, r, hc, hq, h => by
    rw [Stmt.wp] at h
    exact Stmt.OverVarsList.kinded_wpBlock hc hq h
  | .branch condition yes none, q, r, hc, hq, h => by
    obtain ⟨r₁, r₂, h₁, h₂, rfl⟩ := Stmt.wp_branch_eq_ok.mp h
    cases h₂
    exact (Pred.kinded_wpBranch hc.1 (hc.2.1.kinded_wp hq h₁) hq).simplify
  | .branch condition yes (some no), q, r, hc, hq, h => by
    obtain ⟨r₁, r₂, h₁, h₂, rfl⟩ := Stmt.wp_branch_eq_ok.mp h
    have hno : no.OverVars K := hc.2.2
    exact (Pred.kinded_wpBranch hc.1 (hc.2.1.kinded_wp hq h₁) (hno.kinded_wp hq h₂)).simplify
  | .loop condition body invariant, q, r, hc, hq, h => by
    obtain ⟨inv, w, hinv, hw, rfl⟩ := Stmt.wp_loop_eq_ok.mp h
    have hkinv := hc.2.1 inv hinv
    refine (Pred.kinded_wpLoop ?_ hc.1 hkinv (hc.2.2.kinded_wp hkinv hw) hq).simplify
    intro x hx
    split at hx
    · exact hc.2.2.assignedScalars x hx
    · cases hx

theorem Stmt.OverVarsList.kinded_wpBlock : ∀ {cs : List Stmt} {q r : Pred},
    Stmt.OverVarsList K cs → q.Kinded K → Stmt.wpBlock close cs q = .ok r → r.Kinded K
  | [], q, r, _, hq, h => by
    rw [Stmt.wpBlock] at h
    cases h
    exact hq
  | c :: rest, q, r, hc, hq, h => by
    obtain ⟨w, hw, hr⟩ := Stmt.wpBlock_cons_eq_ok.mp h
    exact hc.1.kinded_wp (Stmt.OverVarsList.kinded_wpBlock hc.2 hq hw) hr

end

theorem Stmt.Scalar.kinded_wp {c : Stmt} {q r : Pred} (hc : c.Scalar p b K) (hq : q.Kinded K)
    (h : c.wp close q = .ok r) : r.Kinded K :=
  hc.overVars.kinded_wp hq h

theorem Stmt.ScalarList.kinded_wpBlock {cs : List Stmt} {q r : Pred}
    (hc : Stmt.ScalarList p b K cs) (hq : q.Kinded K) (h : Stmt.wpBlock close cs q = .ok r) :
    r.Kinded K :=
  Stmt.OverVarsList.kinded_wpBlock hc.overVars hq h

variable {M : Interpretation Cells} {rest : Valuation Cells}

/-- Each state that the body of a loop leads to differs from the first in the variables that the
body assigns, and these are numbers. -/
theorem Stmt.Scalar.variesOn {c : Stmt} (hc : c.Scalar p b K) (hrest : rest.HasKinds K)
    {s t : State} (hst : ∀ x, x ∉ c.assignedScalars → t[x]? = s[x]?) (ht : t.HasKinds K) :
    (s.valuation rest).VariesOn c.assignedScalars (t.valuation rest) := by
  refine ⟨fun x hx => State.valuation_congr (hst x hx), fun x hx => ?_⟩
  rw [ht.valuation hrest x, hc.overVars.assignedScalars x hx]

/-- Both sides of a conditional ensure what the conditional has to ensure. -/
theorem Stmt.ensures_wpBranch (hM : M.Agrees p b) (hrest : rest.HasKinds K) {condition r₁ r₂ : Pred}
    {yes : Stmt} {no : Option Stmt} {Q : State → Prop} (hk : (wpBranch condition r₁ r₂).Kinded K)
    (hyes : Ensures K (fun s => r₁.Holds M (s.valuation rest)) (yes.exec p b) Q)
    (hno : Ensures K (fun s => r₂.Holds M (s.valuation rest))
      (no.elim pure fun t => t.exec p b) Q) :
    Ensures K (fun s => (wpBranch condition r₁ r₂).simplify.Holds M (s.valuation rest))
      ((Stmt.branch condition yes no).exec p b) Q := by
  refine (Stmt.ensures_branch rest hM hyes hno).weaken fun s hs hr => ?_
  exact (Pred.holds_simplify M hk (hs.valuation hrest)).mp hr

mutual

/-- The predicate worked out for a statement, where it holds, makes the statement end where the
predicate asked for holds. -/
theorem Stmt.Scalar.ensures_wp (hM : M.Agrees p b) (hrest : rest.HasKinds K) :
    ∀ {c : Stmt} {q r : Pred}, c.Scalar p b K → q.Kinded K → c.wp true q = .ok r →
      Ensures K (fun s => r.Holds M (s.valuation rest)) (c.exec p b)
        (fun s => q.Holds M (s.valuation rest))
  | .assign targets exprs, q, r, hc, hq, h => by
    obtain ⟨r₀, hr₀, rfl⟩ := Stmt.wp_assign_eq_ok.mp h
    obtain ⟨hts, hes, hcall⟩ := hc
    obtain ⟨xs, rfl, hxs⟩ := exists_names_of_targets hts
    rw [List.length_map] at hcall
    have hassign := ensures_assign_vars hM hrest hxs hes hcall hq hr₀
    intro s fuel s' fuel' hs hr hrun
    rw [Stmt.exec] at hrun
    rw [Pred.holds_simplify M (hq.wpAssign_vars hxs hes hr₀) (hs.valuation hrest)] at hr
    exact hassign s fuel s' fuel' hs hr hrun
  | .block stmts, q, r, hc, hq, h => by
    rw [Stmt.wp] at h
    have hblock := Stmt.ScalarList.ensures_wpBlock hM hrest hc hq h
    intro s fuel s' fuel' hs hr hrun
    rw [Stmt.exec] at hrun
    exact hblock s fuel s' fuel' hs hr hrun
  | .branch condition yes none, q, r, hc, hq, h => by
    obtain ⟨r₁, r₂, h₁, h₂, rfl⟩ := Stmt.wp_branch_eq_ok.mp h
    cases h₂
    have hk := Pred.kinded_wpBranch hc.1 (hc.2.1.kinded_wp hq h₁) hq
    have hyes := Stmt.Scalar.ensures_wp hM hrest hc.2.1 hq h₁
    exact Stmt.ensures_wpBranch hM hrest hk hyes (Ensures.skip _)
  | .branch condition yes (some no), q, r, hc, hq, h => by
    obtain ⟨r₁, r₂, h₁, h₂, rfl⟩ := Stmt.wp_branch_eq_ok.mp h
    have hcno : no.Scalar p b K := hc.2.2
    have hk := Pred.kinded_wpBranch hc.1 (hc.2.1.kinded_wp hq h₁) (hcno.kinded_wp hq h₂)
    have hyes := Stmt.Scalar.ensures_wp hM hrest hc.2.1 hq h₁
    have hno := Stmt.Scalar.ensures_wp hM hrest hcno hq h₂
    exact Stmt.ensures_wpBranch hM hrest hk hyes hno
  | .loop condition body invariant, q, r, hc, hq, h => by
    obtain ⟨inv, w, hinv, hw, rfl⟩ := Stmt.wp_loop_eq_ok.mp h
    rw [if_pos rfl]
    have hkinv := hc.2.1 inv hinv
    have hbody := Stmt.Scalar.ensures_wp hM hrest hc.2.2 hkinv hw
    have hk := Pred.kinded_wpLoop hc.2.2.overVars.assignedScalars hc.1 hkinv
      (hc.2.2.kinded_wp hkinv hw) hq
    -- two states are related when they agree off the assigned variables
    refine (Stmt.ensures_loop (R := fun s t => ∀ x, x ∉ body.assignedScalars → t[x]? = s[x]?)
      rest hM (fun _ _ _ => rfl) (fun s t u hst htu x hx => (htu x hx).trans (hst x hx))
      (fun s fuel s' fuel' _ hrun => hc.2.2.frame hrun) hbody).weaken fun s hs hr => ?_
    rw [Pred.holds_simplify M hk (hs.valuation hrest), Pred.holds_wpLoop] at hr
    exact ⟨hr.1, fun t hst ht hI => hr.2 _ (hc.2.2.variesOn hrest hst ht) hI⟩

theorem Stmt.ScalarList.ensures_wpBlock (hM : M.Agrees p b) (hrest : rest.HasKinds K) :
    ∀ {cs : List Stmt} {q r : Pred}, Stmt.ScalarList p b K cs → q.Kinded K →
      Stmt.wpBlock true cs q = .ok r →
      Ensures K (fun s => r.Holds M (s.valuation rest)) (Stmt.execBlock p b cs)
        (fun s => q.Holds M (s.valuation rest))
  | [], q, r, _, hq, h => by
    rw [Stmt.wpBlock] at h
    cases h
    exact Stmt.ensures_block_nil _
  | c :: cs, q, r, hc, hq, h => by
    obtain ⟨w, hw, hr⟩ := Stmt.wpBlock_cons_eq_ok.mp h
    have hkw := hc.2.kinded_wpBlock hq hw
    exact Stmt.ensures_block_cons (Stmt.Scalar.ensures_wp hM hrest hc.1 hkw hr)
      (Stmt.ScalarList.ensures_wpBlock hM hrest hc.2 hq hw)

end

end

/-! ## Functions -/

theorem FunctionDef.obligation_eq_none (close : Bool) (f : FunctionDef) :
    f.obligation close = .ok none ↔ f.post = none := by
  unfold FunctionDef.obligation
  cases f.post with
  | none => exact ⟨fun _ => rfl, fun _ => rfl⟩
  | some post =>
    refine ⟨fun h => ?_, nofun⟩
    obtain ⟨w, -, heq⟩ := Except.bind_eq_ok.mp h
    cases heq

theorem FunctionDef.obligation_eq_ok {close : Bool} {f : FunctionDef} {vc : Pred} :
    f.obligation close = .ok (some vc) ↔ ∃ post w, f.post = some post ∧
      f.body.wp close post = .ok w ∧
      vc = (Pred.implies (f.pre.getD (.bool true)) w).simplify := by
  unfold FunctionDef.obligation
  cases f.post with
  | none => simp only [Except.ok.injEq, reduceCtorEq, false_and, exists_false]
  | some post =>
    simp only [Except.bind_eq_ok]
    constructor
    · rintro ⟨w, hw, h⟩
      cases h
      exact ⟨post, w, rfl, hw, rfl⟩
    · rintro ⟨post', w, hpost, hw, rfl⟩
      cases hpost
      exact ⟨w, hw, rfl⟩

theorem Program.run_eq_ok {p : Program} {f : FunctionDef} {args s' : State} {fuel : Nat} :
    p.run f args fuel = .ok s' ↔
      ∃ fuel', f.body.exec p (below p depthLimit) (State.start f args) fuel = .ok (s', fuel') := by
  unfold Program.run FunctionDef.runAt
  exact Except.map_fst_eq_ok

theorem Program.holds_eq_ok {p : Program} {q : Pred} {s : State} {fuel : Nat} {r : Bool} :
    p.holds q s fuel = .ok r ↔ ∃ fuel', q.eval p (below p depthLimit) s fuel = .ok (r, fuel') := by
  unfold Program.holds
  exact Except.map_fst_eq_ok

/-- Weakest preconditions with closed loops are sound for statements over variables: where the
predicate worked out for a statement is true and the statement finishes, the predicate asked for is
true. So a function whose obligation is true in every state meets its contract in every run that
returns. A reading that agrees with the program exists at every level. -/
theorem wp_closed_sound (p : Program) (K : Kinds) (rest : Valuation Cells)
    (hrest : rest.HasKinds K) :
    (∀ (n : Nat) (M : Interpretation Cells), M.Agrees p (below p n) →
      ∀ (c : Stmt) (q r : Pred) (s s' : State) (fuel fuel' : Nat),
        c.Scalar p (below p n) K → q.Kinded K → s.HasKinds K →
        c.wp true q = .ok r → r.Holds M (s.valuation rest) →
        c.exec p (below p n) s fuel = .ok (s', fuel') → q.Holds M (s'.valuation rest)) ∧
    (∀ M : Interpretation Cells, M.Agrees p (below p depthLimit) →
      ∀ (f : FunctionDef) (post vc : Pred) (args s' : State) (fuel : Nat),
        f.body.Scalar p (below p depthLimit) K → (f.pre.getD (.bool true)).Kinded K →
        f.post = some post → post.Kinded K → (State.start f args).HasKinds K →
        f.obligation true = .ok (some vc) →
        (∀ s : State, s.HasKinds K → vc.Holds M (s.valuation rest)) →
        (f.pre.getD (.bool true)).Holds M ((State.start f args).valuation rest) →
        p.run f args fuel = .ok s' → post.Holds M (s'.valuation rest)) ∧
    (∀ n : Nat, ∃ M : Interpretation Cells, M.Agrees p (below p n)) := by
  refine ⟨?_, ?_, fun n => ⟨_, p.reading_agrees n⟩⟩
  · intro n M hM c q r s s' fuel fuel' hc hq hs hwp hr hrun
    exact (hc.ensures_wp hM hrest hq hwp s fuel s' fuel' hs hr hrun).2
  · intro M hM f post vc args s' fuel hc hpre hpost hq hs hvc hvalid hpre' hrun
    obtain ⟨post', w, hpost', hw, rfl⟩ := FunctionDef.obligation_eq_ok.mp hvc
    cases hpost.symm.trans hpost'
    obtain ⟨fuel', hrun⟩ := Program.run_eq_ok.mp hrun
    have himp : (f.pre.getD (.bool true)).Holds M ((State.start f args).valuation rest) →
        w.Holds M ((State.start f args).valuation rest) := by
      have hk : (Pred.implies (f.pre.getD (.bool true)) w).Kinded K := ⟨hpre, hc.kinded_wp hq hw⟩
      exact (Pred.holds_simplify M hk (hs.valuation hrest)).mp (hvalid _ hs)
    exact (hc.ensures_wp hM hrest hq hw _ fuel s' fuel' hs (himp hpre') hrun).2

/-! ### A function that counts -/

/-- A function of two results and no effect. -/
def blank : FunctionDef :=
  { name := "blank", params := [], returns := [.scalar "u", .scalar "v"], locals := []
    body := .block [], pre := none, post := none }

/-- Counts up to its argument, after a call that leaves unknown values in its variables. -/
def counting : FunctionDef :=
  { name := "count", params := [.scalar "n"], returns := [.scalar "r"], locals := [.scalar "t"]
    body := .block [
      .assign [.var "r", .var "t"] [.call "blank" []],
      .assign [.var "r"] [.const 0],
      .loop (.compare .lt (.var "r") (.var "n"))
        (.assign [.var "r"] [.binary .add (.var "r") (.const 1)])
        (some (.compare .le (.var "r") (.var "n")))]
    pre := some (.compare .ge (.var "n") (.const 0))
    post := some (.compare .eq (.var "r") (.var "n")) }

def countingProgram : Program := ⟨[blank, counting], []⟩

/-- The obligation of `counting`. -/
def countingObligation : Pred :=
  .implies (.compare .ge (.var "n") (.const 0))
    (.forall_ "r_1" (.forall_ "t_1" (.and (.compare .le (.const 0) (.var "n"))
      (.and
        (.forall_ "r" (.implies
          (.and (.compare .le (.var "r") (.var "n")) (.compare .lt (.var "r") (.var "n")))
          (.compare .le (.binary .add (.var "r") (.const 1)) (.var "n"))))
        (.forall_ "r" (.implies
          (.and (.compare .le (.var "r") (.var "n")) (.not (.compare .lt (.var "r") (.var "n"))))
          (.compare .eq (.var "r") (.var "n"))))))))

theorem blank_returnsInts (n : Nat) :
    countingProgram.ReturnsInts (below countingProgram (n + 1)) "blank" := by
  intro values fuel out fuel' h
  obtain ⟨g, hg, -, values, fuel₁, final, -, hrun, hr⟩ := callFunction_eq_ok.mp h
  obtain rfl : blank = g := Option.some.inj hg
  obtain rfl : State.start blank (bindParams [] values) = final := by
    cases hrun
    rfl
  have hkinds : (State.start blank (bindParams [] values)).HasKinds fun _ => .int := by
    refine State.HasKinds.start ?_ (by decide)
    intro x v hx
    cases hx
  intro v hv
  rw [show out = _ from hr] at hv
  obtain ⟨d, -, rfl⟩ := List.mem_map.mp hv
  cases hx : (State.start blank (bindParams [] values))[d.name]? with
  | some v => exact hkinds d.name v hx
  | none => rfl

theorem counting_scalar :
    counting.body.Scalar countingProgram (below countingProgram depthLimit) fun _ => .int := by
  have hblank := blank_returnsInts 63
  simpa [counting, Stmt.Scalar, Stmt.ScalarList, Expr.Kinded, Expr.KindedArgs, Pred.Kinded,
    depthLimit] using hblank

theorem countingObligation_holds (M : Interpretation Cells) (ρ : Valuation Cells) :
    countingObligation.Holds M ρ := by
  intro hn r₁ t₁
  have hn : 0 ≤ (ρ "n").toInt := of_decide_eq_true hn
  refine ⟨?_, fun r h => ?_, fun r h => ?_⟩
  · simpa [Pred.Holds, Expr.value, CmpOp.holds, Param.scalar] using hn
  · have hlt : r < (ρ "n").toInt := by
      simpa [Pred.Holds, Expr.value, CmpOp.holds, Param.scalar] using h.2
    have hle : r + 1 ≤ (ρ "n").toInt := hlt
    simpa [Pred.Holds, Expr.value, CmpOp.holds, Param.scalar, Interpretation.arith,
      ArithOp.onInt] using hle
  · have hle : r ≤ (ρ "n").toInt := by
      simpa [Pred.Holds, Expr.value, CmpOp.holds, Param.scalar] using h.1
    have hge : (ρ "n").toInt ≤ r := by
      simpa [Pred.Holds, Expr.value, CmpOp.holds, Param.scalar] using h.2
    have heq : r = (ρ "n").toInt := by omega
    simpa [Pred.Holds, Expr.value, CmpOp.holds, Param.scalar] using heq

/-- The obligation of `counting` is true in every state, so its run from `3` ends in a state in
which the result is the argument. -/
theorem wp_closed_sound_counting : ∃ (M : Interpretation Cells) (s' : State),
    M.Agrees countingProgram (below countingProgram depthLimit) ∧
    countingProgram.run counting (State.ofPairs [("n", .int 3)]) 10 = .ok s' ∧
    (Pred.compare .eq (.var "r") (.var "n")).Holds M (s'.valuation fun _ => .int 0) := by
  obtain ⟨-, hfun, hM⟩ := wp_closed_sound countingProgram (fun _ => .int) (fun _ => .int 0)
    fun _ => rfl
  obtain ⟨M, hM⟩ := hM depthLimit
  have hok : (countingProgram.run counting (State.ofPairs [("n", .int 3)]) 10).isOk = true := by cbv
  cases hrun : countingProgram.run counting (State.ofPairs [("n", .int 3)]) 10 with
  | error e =>
    rw [hrun] at hok
    cases hok
  | ok s' =>
    refine ⟨M, s', hM, rfl, ?_⟩
    refine hfun M hM counting _ countingObligation (State.ofPairs [("n", .int 3)]) s' 10
      counting_scalar ⟨rfl, trivial⟩ rfl ⟨rfl, rfl⟩ ?_ (by cbv)
      (fun s _ => countingObligation_holds M _) ?_ hrun
    · refine State.HasKinds.start (State.HasKinds.ofPairs ?_) (by decide)
      intro b hb
      obtain rfl := List.mem_singleton.mp hb
      rfl
    · have hpre : (counting.pre.getD (.bool true)).eval countingProgram
          (below countingProgram depthLimit)
          (State.start counting (State.ofPairs [("n", .int 3)])) 0 = .ok (true, 0) := by cbv
      exact (Pred.holds_of_eval hM hpre).mpr rfl

end Contracts

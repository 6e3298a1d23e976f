import Contracts.Proofs.EncodingMeaning

/-!
# The assertions of a session

An interpretation meets the contracts of a program if every function that expressions can call
gives a result that satisfies its postcondition, wherever its precondition holds. Whatever a session
asserts then holds in every structure that fits the interpretation and gives arrays lengths that are
not negative (`admits_justifies`): an instance of a contract says nothing but that the function
meets its contract at the values of the arguments, whatever they are.
-/

set_option autoImplicit false

namespace Contracts

open Smt

variable {α : Type}

/-! ## Contracts -/

/-- What the names of a contract stand for: the parameters for the arguments, the first return for
the result. -/
def FunctionDef.contractValuation (g : FunctionDef) (args : List (Datum α)) (result : Int) :
    Valuation α :=
  match g.returns.head? with
  | some ret => Function.update (Valuation.bindAll g.params args fun _ => .int 0) ret.name
      (.int result)
  | none => Valuation.bindAll g.params args fun _ => .int 0

/-- Every function that can be called meets its contract at all arguments. References to formulas
are unfolded as deep as the program nests them. -/
def Interpretation.MeetsContracts (p : Program) (M : Interpretation α) : Prop :=
  ∀ g, p.Callable g → ∀ post, g.post = some post →
    ∀ ns : List Int, ns.length = g.params.length → ∀ ρ : Valuation α,
      ρ = g.contractValuation (ns.map .int) (M.fn g.name (ns.map .int)) →
      (∀ pre, g.pre = some pre → pre.Holds (M.expand p p.levels) ρ) →
      post.Holds (M.expand p p.levels) ρ

/-- The command is respected and, if it asserts something, that is true, whenever the structure fits
the interpretation. -/
def Interpretation.Justifies (M : Interpretation α) (c : Command) : Prop :=
  ∀ J : Structure, J.Fits M → (∀ a : String, 0 ≤ (J.const (a ++ "!len")).toInt) →
    J.Respects c ∧ ∀ t, c = .assert t → t.Holds J

theorem Interpretation.justifies_assert {M : Interpretation α} {t : Term}
    (h : ∀ J : Structure, J.Fits M → (∀ a : String, 0 ≤ (J.const (a ++ "!len")).toInt) →
      t.Holds J) : M.Justifies (.assert t) := by
  intro J hJ hlength
  refine ⟨trivial, ?_⟩
  rintro u ⟨⟩
  exact h J hJ hlength

/-! ## Instances of a contract -/

theorem holds_hypothetical (J : Structure) (hs : List Term) (t : Term) :
    (hypothetical hs t).Holds J ↔ ((∀ h ∈ hs, h.Holds J) → t.Holds J) := by
  unfold hypothetical
  split
  · simp
  · simp [Term.Holds, Term.implies, Term.eval, BinOp.apply]
  · simp [Term.Holds, Term.implies, Term.eval, BinOp.apply, Junction.Holds, Term.evals_eq_map]

/-- Terms that are integers have integers as values. -/
theorem exists_ints_of_numeric {J : Structure} (hJ : J.AllInts) {c : Nat} {ts : List Term}
    (h : ∀ t ∈ ts, t.Numeric c) : ∃ ns : List Int, Term.evals ts J = ns.map .int := by
  refine ⟨ts.map fun t => (t.eval J).toInt, ?_⟩
  rw [Term.evals_eq_map, List.map_map]
  refine List.map_congr_left fun t ht => ?_
  exact Val.eq_int_of_sort ((h t ht).isInt J hJ)

section

variable {M : Interpretation α} {J : Structure} {cells : List CellConst}

theorem denotes_params {xs : List Param} {ts : List Term} {ns : List Int} {env : Env}
    {ρ : Valuation α} (hts : Term.evals ts J = ns.map .int) (h : env.Denotes M J cells ρ) :
    ((xs.zip ts).foldl (fun env q => env.bind q.1.name (.scalar q.2)) env).Denotes M J cells
      (Valuation.bindAll xs (ns.map .int) ρ) := by
  induction xs generalizing ts ns env ρ with
  | nil => exact h
  | cons x xs ih =>
    cases ts with
    | nil =>
      have hns : ns = [] := by
        rw [Term.evals] at hts
        exact List.map_eq_nil_iff.mp hts.symm
      rw [hns]
      exact h
    | cons t ts =>
      cases ns with
      | nil => simp [Term.evals] at hts
      | cons n ns =>
        rw [Term.evals, List.map_cons, List.cons.injEq] at hts
        exact ih hts.2 (h.bind_scalar x.name hts.1)

/-- In the environment of a contract the names stand for arguments and result. -/
theorem denotes_contractEnv (hJ : J.Fits M) (g : FunctionDef) {args : List Term} {ns : List Int}
    (bound : List String) (hargs : Term.evals args J = ns.map .int) :
    (contractEnv g args bound).Denotes M J cells
      (g.contractValuation (ns.map .int) (M.fn g.name (ns.map .int))) := by
  have hempty : ({ Env.empty with bound } : Env).Denotes M J cells fun _ => .int 0 :=
    Env.denotes_of_empty rfl
  have hparams : Env.Denotes M J cells _ (Valuation.bindAll g.params (ns.map .int) _) :=
    denotes_params hargs hempty
  have hresult : (Term.app (fnSymbol g.name) args).eval J = .int (M.fn g.name (ns.map .int)) := by
    rw [Term.eval, hargs, hJ.fn]
  unfold contractEnv FunctionDef.contractValuation
  cases g.returns.head? with
  | none => exact hparams
  | some ret => exact hparams.bind_scalar ret.name hresult

/-- An instance of a contract holds, since the function meets its contract at the values that the
arguments have. -/
theorem contractInstance_holds {p : Program} (hp : p.PlainNames) (hM : M.MeetsContracts p)
    {n : Nat} (hn : n ≤ p.levels) {expanding : List String} {g : FunctionDef} {post : Pred}
    {args : List Term} {bound : List String} {guard : List Term} {s s' : Session} {t : Term}
    (hg : p.Callable g) (hpost : g.post = some post) (hcount : g.params.length = args.length)
    (hs : s.WellFormed fun _ => True) (hargs : ∀ u ∈ args, u.Numeric s.counter)
    (hrun : contractInstance p (resolver p n expanding) g post args bound guard s = (.ok t, s'))
    (hJ : J.Fits M) : t.Holds J := by
  obtain ⟨ns, hns⟩ := exists_ints_of_numeric hJ.ints hargs
  have hlength : ns.length = g.params.length := by
    have hlengths := congrArg List.length hns
    rw [Term.evals_eq_map, List.length_map, List.length_map] at hlengths
    rw [hcount, hlengths]
  have hr := resolver_keeps hp (p.admits_true n) (Nat.le_refl n) expanding
  have hmeans := resolver_means hp M n expanding
  have henv := settled_contractEnv g bound hargs
  -- the environment stands for the values of the arguments, and for that of the function at them
  have hρ : ∀ cells, (contractEnv g args bound).Denotes M J cells
      (g.contractValuation (ns.map .int) (M.fn g.name (ns.map .int))) := fun cells =>
    denotes_contractEnv hJ g bound hns
  unfold contractInstance at hrun
  obtain ⟨u, s₁, hu, hrest⟩ := EncodeM.bind_eq_ok.mp hrun
  have hconsequent := eval_encodePred hr hmeans hn post hs henv hu hJ (hρ _)
  have hmeets := hM g hg post hpost ns hlength _ rfl
  cases hpre : g.pre with
  | none =>
    rw [hpre] at hrest
    obtain ⟨rfl, -⟩ := EncodeM.pure_eq_ok.mp hrest
    refine (holds_hypothetical J _ u).mpr fun _ => ?_
    rw [Term.Holds, hconsequent]
    refine hmeets fun pre hsome => ?_
    rw [hpre] at hsome
    cases hsome
  | some pre =>
    rw [hpre] at hrest
    obtain ⟨v, s₂, hv, hrest₂⟩ := EncodeM.bind_eq_ok.mp hrest
    obtain ⟨rfl, -⟩ := EncodeM.pure_eq_ok.mp hrest₂
    obtain ⟨hs₁, hgrows⟩ := encodePred_grows hr hs henv hu
    have hantecedent := eval_encodePred hr hmeans hn pre hs₁ (henv.mono hgrows.counter) hv hJ (hρ _)
    refine (holds_hypothetical J _ u).mpr fun hall => ?_
    have hholds : v.Holds J := hall v (List.mem_append_right _ List.mem_cons_self)
    rw [Term.Holds, hantecedent] at hholds
    rw [Term.Holds, hconsequent]
    refine hmeets fun pre' hsome => ?_
    rw [hpre] at hsome
    cases hsome
    exact hholds

end

/-- Everything that an encoding adds to its session is justified. -/
theorem admits_justifies {p : Program} (hp : p.PlainNames) {M : Interpretation α}
    (hM : M.MeetsContracts p) : p.Admits p.levels M.Justifies := by
  refine ⟨⟨?_, ?_, ?_⟩, ?_, ?_⟩
  · intro x J hJ _
    refine ⟨hJ.ints.const x, ?_⟩
    rintro t ⟨⟩
  · intro f params J hJ _
    refine ⟨fun vs _ => hJ.ints.fn f vs, ?_⟩
    rintro t ⟨⟩
  · intro a
    refine Interpretation.justifies_assert fun J _ hlength => ?_
    simpa [Term.Holds, Term.eval, BinOp.apply] using hlength a
  · intro t base n ht
    refine Interpretation.justifies_assert fun J hJ hlength => ?_
    rw [Term.Holds, Term.eval, Val.truth_bool, Structure.quantified_int]
    intro i
    refine (ht _ (hJ.update _ i) fun a => ?_).2 t rfl
    -- a numbered symbol is no length
    rw [Structure.update_const_of_ne]
    · exact hlength a
    · intro heq
      refine lengthSymbol_not_madeAfter a n ?_
      rw [heq, madeAfter_numberedSymbol]
      omega
  · intro n expanding g post args bound guard s t s' hn hg hpost hcount hs hargs hrun
    exact Interpretation.justifies_assert fun J hJ _ =>
      contractInstance_holds hp hM (Nat.le_of_lt hn) hg hpost hcount hs hargs hrun hJ

end Contracts

import Contracts.Proofs.ExecutionMeaning
import Contracts.WeakestPre
import Mathlib.Data.List.Forall2

/-!
# Rules for the execution of statements

Two ways to say what a statement does to a state.

* `Stmt.exec_related`: a statement does nothing but write the places of its targets, so any
  reflexive and transitive relation that holds across such a write holds across the statement. What
  a statement leaves alone is an instance of it.
* `Ensures`: from a state with one property every finished execution ends in a state with another.
  There is a rule for each way to build a statement. The rule for a loop asks for its obligations
  in all states that the body can reach from the first one, which are those related to it.

An execution that fails or runs out of fuel ensures everything.
-/

set_option autoImplicit false

namespace Contracts

/-! ## Lists of computations -/

/-- Where a list of computations gives results, each of them gave one. -/
theorem EvalM.forall₂_of_mapM {α β : Type} {f : α → EvalM β} : ∀ {as : List α} {fuel : Nat}
    {r : List β × Nat}, as.mapM f fuel = .ok r →
      List.Forall₂ (fun a b => ∃ fuel₀ fuel₁, f a fuel₀ = .ok (b, fuel₁)) as r.1
  | [], _, _, h => by
    rw [List.mapM_nil, EvalM.pure_eq_ok] at h
    cases h
    exact .nil
  | a :: as, fuel, _, h => by
    rw [List.mapM_cons] at h
    obtain ⟨b, fuel₁, hb, h⟩ := EvalM.bind_eq_ok.mp h
    obtain ⟨bs, fuel₂, hbs, h⟩ := EvalM.bind_eq_ok.mp h
    cases EvalM.pure_eq_ok.mp h
    exact .cons ⟨fuel, fuel₁, hb⟩ (EvalM.forall₂_of_mapM hbs)

theorem EvalM.exists_of_mem_mapM {α β : Type} {f : α → EvalM β} {as : List α} {fuel : Nat}
    {r : List β × Nat} (h : as.mapM f fuel = .ok r) {b : β} (hb : b ∈ r.1) :
    ∃ a ∈ as, ∃ fuel₀ fuel₁, f a fuel₀ = .ok (b, fuel₁) := by
  have hall := EvalM.forall₂_of_mapM h
  clear h
  generalize r.1 = bs at hall hb
  induction hall with
  | nil => cases hb
  | cons hfirst _ ih =>
    rcases List.mem_cons.mp hb with rfl | hb
    · exact ⟨_, List.mem_cons_self, hfirst⟩
    · obtain ⟨a, ha, hab⟩ := ih hb
      exact ⟨a, List.mem_cons_of_mem _ ha, hab⟩

/-! ## Assignments -/

section

variable {p : Program} {b : Below} {s : State} {fuel : Nat}

/-- What a finished assignment has done: it has values, and either it is a call for its own sake or
there is one value for each target and they were written. -/
theorem execAssign_cases {targets : List Target} {exprs : List Expr} {r : State × Nat}
    (h : execAssign p b targets exprs s fuel = .ok r) :
    ∃ values fuel₁, assignedValues p b s targets.length exprs fuel = .ok (values, fuel₁) ∧
      ((targets = [] ∧ r.1 = s) ∨
        (values.length = targets.length ∧ ∃ places fuel₂,
          targets.mapM (Target.place p b s) fuel₁ = .ok (places, fuel₂) ∧
            writeAll s (places.zip values) fuel₂ = .ok r)) := by
  unfold execAssign at h
  obtain ⟨values, fuel₁, hv, h⟩ := EvalM.bind_eq_ok.mp h
  refine ⟨values, fuel₁, hv, ?_⟩
  split at h
  · next hcall =>
    rw [Bool.and_eq_true, List.isEmpty_iff] at hcall
    cases EvalM.pure_eq_ok.mp h
    exact .inl ⟨hcall.1, rfl⟩
  · by_cases hn : values.length = targets.length
    · rw [if_neg (not_not.mpr hn)] at h
      obtain ⟨places, fuel₂, hplaces, hwrite⟩ := EvalM.bind_eq_ok.mp h
      exact .inr ⟨hn, places, fuel₂, hplaces, hwrite⟩
    · rw [if_pos hn] at h
      obtain ⟨_, fuel₂, h, -⟩ := EvalM.bind_eq_ok.mp h
      exact (EvalM.throw_ne_ok h).elim

/-- A finished write of a cell found an array. -/
theorem Place.write_cell_eq_ok {a : String} {i : Int64} {v : Value} {r : State × Nat}
    (h : (Place.cell a i).write s v fuel = .ok r) :
    ∃ c n, s[a]? = some (.array c) ∧ v = .int n ∧ r.1 = s.insert a (.array (c.write i n)) := by
  cases v with
  | array c =>
    simp only [Place.write, EvalM.throw_ne_ok] at h
  | int n =>
    simp only [Place.write] at h
    cases ha : s[a]? with
    | none =>
      rw [ha] at h
      exact (EvalM.throw_ne_ok h).elim
    | some w =>
      rw [ha] at h
      cases w with
      | int m => exact (EvalM.throw_ne_ok h).elim
      | array c =>
        cases EvalM.pure_eq_ok.mp h
        exact ⟨c, n, rfl, rfl, rfl⟩

end

/-! ## Loops -/

/-- What a body keeps, a loop keeps, and the loop ends where its test fails. -/
theorem iterate_invariant {test : State → EvalM Bool} {body : State → EvalM State}
    {Φ : State → Prop}
    (hbody : ∀ s fuel fuel₁ s' fuel₂, Φ s → test s fuel = .ok (true, fuel₁ + 1) →
      body s fuel₁ = .ok (s', fuel₂) → Φ s') :
    ∀ {n : Nat} {s : State} {fuel : Nat} {r : State × Nat}, Φ s →
      iterate test body n s fuel = .ok r → Φ r.1 ∧ ∃ fuel₀, test r.1 fuel₀ = .ok (false, r.2)
  | 0, _, _, _, _, h => by
    rw [iterate] at h
    cases h
  | n + 1, s, fuel, r, hs, h => by
    rw [iterate] at h
    split at h
    · cases h
    · next fuel₁ ht =>
      cases h
      exact ⟨hs, fuel, ht⟩
    · cases h
    · next fuel₁ ht =>
      split at h
      · cases h
      · next s' fuel₂ hb => exact iterate_invariant hbody (hbody s fuel fuel₁ s' fuel₂ hs ht hb) h

/-! ## Only the targets are written -/

mutual

/-- All targets of the assignments of a statement. -/
def Stmt.targets : Stmt → List Target
  | .assign targets _ => targets
  | .block stmts => Stmt.targetsList stmts
  | .branch _ yes no => yes.targets ++ (match no with
    | some s => s.targets
    | none => [])
  | .loop _ body _ => body.targets

def Stmt.targetsList : List Stmt → List Target
  | [] => []
  | s :: rest => s.targets ++ Stmt.targetsList rest

end

mutual

/-- The assigned variables are the targets that are variables. -/
theorem Stmt.assigned_eq : ∀ t : Stmt, t.assigned = t.targets.filterMap Target.scalar?
  | .assign _ _ => by rw [Stmt.assigned, Stmt.targets]
  | .block stmts => by rw [Stmt.assigned, Stmt.targets, Stmt.assignedList_eq stmts]
  | .branch _ yes none => by
    rw [Stmt.assigned, Stmt.targets, Stmt.assigned_eq yes, List.append_nil, List.append_nil]
  | .branch _ yes (some no) => by
    rw [Stmt.assigned, Stmt.targets, Stmt.assigned_eq yes, Stmt.assigned_eq no,
      List.filterMap_append]
  | .loop _ body _ => by rw [Stmt.assigned, Stmt.targets, Stmt.assigned_eq body]

theorem Stmt.assignedList_eq : ∀ ts : List Stmt,
    Stmt.assignedList ts = (Stmt.targetsList ts).filterMap Target.scalar?
  | [] => by rw [Stmt.assignedList, Stmt.targetsList, List.filterMap_nil]
  | t :: rest => by
    rw [Stmt.assignedList, Stmt.targetsList, Stmt.assigned_eq t, Stmt.assignedList_eq rest,
      List.filterMap_append]

end

theorem mem_sortedNames {x : String} {names : List String} : x ∈ sortedNames names ↔ x ∈ names := by
  rw [sortedNames, List.mem_mergeSort, List.mem_eraseDups]

theorem Stmt.mem_assignedScalars {c : Stmt} {x : String} :
    x ∈ c.assignedScalars ↔ Target.var x ∈ c.targets := by
  rw [Stmt.assignedScalars, mem_sortedNames, Stmt.assigned_eq, List.mem_filterMap]
  constructor
  · rintro ⟨t, ht, htx⟩
    cases t with
    | var y =>
      cases htx
      exact ht
    | cell a i => cases htx
  · intro hx
    exact ⟨.var x, hx, rfl⟩

/-- Writing the place of a target, worked out in any state, leads to a related state. -/
def Target.WritesWithin (p : Program) (b : Below) (R : State → State → Prop) (t : Target) : Prop :=
  ∀ s₀ fuel₀ place fuel₁, t.place p b s₀ fuel₀ = .ok (place, fuel₁) →
    ∀ s v fuel₂ s' fuel₃, place.write s v fuel₂ = .ok (s', fuel₃) → R s s'

section

variable {p : Program} {b : Below} {R : State → State → Prop}

theorem writeAll_related (hrefl : ∀ s, R s s) (htrans : ∀ s t u, R s t → R t u → R s u) :
    ∀ {places : List Place} {values : List Value} {s : State} {fuel : Nat} {r : State × Nat},
      (∀ place ∈ places, ∀ s v fuel s' fuel', place.write s v fuel = .ok (s', fuel') → R s s') →
      writeAll s (places.zip values) fuel = .ok r → R s r.1
  | [], _, s, _, _, _, h => by
    rw [List.zip_nil_left, writeAll, EvalM.pure_eq_ok] at h
    cases h
    exact hrefl s
  | _ :: _, [], s, _, _, _, h => by
    rw [List.zip_nil_right, writeAll, EvalM.pure_eq_ok] at h
    cases h
    exact hrefl s
  | place :: places, v :: values, s, fuel, _, hplaces, h => by
    rw [List.zip_cons_cons, writeAll] at h
    obtain ⟨t, fuel₁, ht, h⟩ := EvalM.bind_eq_ok.mp h
    have hfirst : R s t := hplaces place List.mem_cons_self s v fuel t fuel₁ ht
    have hrest := writeAll_related hrefl htrans
      (fun pl hpl => hplaces pl (List.mem_cons_of_mem _ hpl)) h
    exact htrans s t _ hfirst hrest

theorem execAssign_related (hrefl : ∀ s, R s s) (htrans : ∀ s t u, R s t → R t u → R s u)
    {targets : List Target} {exprs : List Expr} {s : State} {fuel : Nat} {r : State × Nat}
    (ht : ∀ t ∈ targets, t.WritesWithin p b R)
    (h : execAssign p b targets exprs s fuel = .ok r) : R s r.1 := by
  obtain ⟨values, fuel₁, -, ⟨-, hr⟩ | ⟨-, places, fuel₂, hplaces, hwrite⟩⟩ := execAssign_cases h
  · rw [hr]
    exact hrefl s
  · refine writeAll_related hrefl htrans ?_ hwrite
    intro place hplace s₁ v fuel₃ s₂ fuel₄ hw
    obtain ⟨t, htmem, fuel₅, fuel₆, hplace⟩ := EvalM.exists_of_mem_mapM hplaces hplace
    exact ht t htmem s fuel₅ place fuel₆ hplace s₁ v fuel₃ s₂ fuel₄ hw

mutual

/-- What holds across every write holds across the statement. -/
theorem Stmt.exec_related (hrefl : ∀ s, R s s) (htrans : ∀ s t u, R s t → R t u → R s u) :
    ∀ {c : Stmt} {s : State} {fuel : Nat} {r : State × Nat},
      (∀ t ∈ c.targets, t.WritesWithin p b R) → c.exec p b s fuel = .ok r → R s r.1
  | .assign targets exprs, _, _, _, hc, h => by
    rw [Stmt.exec] at h
    exact execAssign_related hrefl htrans hc h
  | .block stmts, _, _, _, hc, h => by
    rw [Stmt.exec] at h
    exact Stmt.execBlock_related hrefl htrans hc h
  | .branch c yes none, s, _, _, hc, h => by
    rw [Stmt.exec, EvalM.cond_eq_ok] at h
    obtain ⟨fuel₁, ⟨-, h⟩ | ⟨-, h⟩⟩ := h
    · exact Stmt.exec_related hrefl htrans (fun t ht => hc t (List.mem_append_left _ ht)) h
    · cases EvalM.pure_eq_ok.mp h
      exact hrefl s
  | .branch c yes (some no), s, _, _, hc, h => by
    rw [Stmt.exec, EvalM.cond_eq_ok] at h
    obtain ⟨fuel₁, ⟨-, h⟩ | ⟨-, h⟩⟩ := h
    · exact Stmt.exec_related hrefl htrans (fun t ht => hc t (List.mem_append_left _ ht)) h
    · exact Stmt.exec_related hrefl htrans (fun t ht => hc t (List.mem_append_right _ ht)) h
  | .loop c body _, s, _, _, hc, h => by
    rw [Stmt.exec] at h
    have hc : ∀ t ∈ body.targets, t.WritesWithin p b R := hc
    -- the invariant of the loop is that its states are related to the first one
    refine (iterate_invariant (Φ := R s) ?_ (hrefl s) h).1
    intro t fuel₁ fuel₂ u fuel₃ hst _ hbody
    exact htrans s t u hst (Stmt.exec_related hrefl htrans hc hbody)

theorem Stmt.execBlock_related (hrefl : ∀ s, R s s) (htrans : ∀ s t u, R s t → R t u → R s u) :
    ∀ {cs : List Stmt} {s : State} {fuel : Nat} {r : State × Nat},
      (∀ t ∈ Stmt.targetsList cs, t.WritesWithin p b R) →
        Stmt.execBlock p b cs s fuel = .ok r → R s r.1
  | [], s, _, _, _, h => by
    rw [Stmt.execBlock, EvalM.pure_eq_ok] at h
    cases h
    exact hrefl s
  | c :: rest, s, _, _, hc, h => by
    rw [Stmt.execBlock] at h
    obtain ⟨t, fuel₁, ht, h⟩ := EvalM.bind_eq_ok.mp h
    have hfirst := Stmt.exec_related hrefl htrans
      (fun t ht => hc t (List.mem_append_left _ ht)) ht
    have hrest := Stmt.execBlock_related hrefl htrans
      (fun t ht => hc t (List.mem_append_right _ ht)) h
    exact htrans s t _ hfirst hrest

end

end

/-! ## Before and after -/

/-- From a state of the given kinds with the first property, every finished run of the computation
ends in a state of these kinds with the second. -/
def Ensures (K : Kinds) (A : State → Prop) (run : State → EvalM State) (B : State → Prop) : Prop :=
  ∀ s fuel s' fuel', s.HasKinds K → A s → run s fuel = .ok (s', fuel') → s'.HasKinds K ∧ B s'

section

variable {K : Kinds} {A B C : State → Prop} {p : Program} {b : Below}

theorem Ensures.weaken {run : State → EvalM State} (h : Ensures K A run B)
    (hA : ∀ s, s.HasKinds K → C s → A s) : Ensures K C run B := by
  intro s fuel s' fuel' hk hC hrun
  exact h s fuel s' fuel' hk (hA s hk hC) hrun

theorem Ensures.skip (A : State → Prop) : Ensures K A pure A := by
  intro s fuel s' fuel' hk hA hrun
  cases EvalM.pure_eq_ok.mp hrun
  exact ⟨hk, hA⟩

theorem Stmt.ensures_block_nil (A : State → Prop) : Ensures K A (Stmt.execBlock p b []) A := by
  intro s fuel s' fuel' hk hA hrun
  rw [Stmt.execBlock] at hrun
  exact Ensures.skip A s fuel s' fuel' hk hA hrun

theorem Stmt.ensures_block_cons {c : Stmt} {rest : List Stmt}
    (hc : Ensures K A (c.exec p b) B) (hrest : Ensures K B (Stmt.execBlock p b rest) C) :
    Ensures K A (Stmt.execBlock p b (c :: rest)) C := by
  intro s fuel s' fuel' hk hA hrun
  rw [Stmt.execBlock] at hrun
  obtain ⟨t, fuel₁, ht, hrun⟩ := EvalM.bind_eq_ok.mp hrun
  obtain ⟨hkt, hB⟩ := hc s fuel t fuel₁ hk hA ht
  exact hrest t fuel₁ s' fuel' hkt hB hrun

variable {M : Interpretation Cells} (rest : Valuation Cells)

theorem Stmt.exec_branch (c : Pred) (yes : Stmt) (no : Option Stmt) (s : State) :
    (Stmt.branch c yes no).exec p b s = (do
      if ← c.eval p b s then yes.exec p b s else no.elim pure (fun t => t.exec p b) s) := by
  cases no with
  | none => rw [Stmt.exec, Option.elim_none]
  | some t => rw [Stmt.exec, Option.elim_some]

/-- A conditional runs the side that its condition selects. -/
theorem Stmt.ensures_branch (hM : M.Agrees p b) {c : Pred} {yes : Stmt} {no : Option Stmt}
    (hyes : Ensures K A (yes.exec p b) C)
    (hno : Ensures K B (no.elim pure fun t => t.exec p b) C) :
    Ensures K
      (fun s => (c.Holds M (s.valuation rest) ∧ A s) ∨ (¬c.Holds M (s.valuation rest) ∧ B s))
      ((Stmt.branch c yes no).exec p b) C := by
  intro s fuel s' fuel' hk hAB hrun
  rw [Stmt.exec_branch, EvalM.cond_eq_ok] at hrun
  obtain ⟨fuel₁, ⟨hc, hrun⟩ | ⟨hc, hrun⟩⟩ := hrun
  · have htrue : c.Holds M (s.valuation rest) := (Pred.holds_of_eval hM hc).mpr rfl
    rcases hAB with ⟨-, hA⟩ | ⟨hfalse, -⟩
    · exact hyes s fuel₁ s' fuel' hk hA hrun
    · exact absurd htrue hfalse
  · have hfalse : ¬c.Holds M (s.valuation rest) := by
      rw [Pred.holds_of_eval hM hc]
      exact Bool.false_ne_true
    rcases hAB with ⟨htrue, -⟩ | ⟨-, hB⟩
    · exact absurd htrue hfalse
    · exact hno s fuel₁ s' fuel' hk hB hrun

/-- A loop keeps its invariant. What it needs of the states that it runs through is asked for all
states that its body can lead to, those in the relation `R` with the first one. -/
theorem Stmt.ensures_loop (hM : M.Agrees p b) {c : Pred} {body : Stmt} {inv : Option Pred}
    {R : State → State → Prop} {I : State → Prop} (hrefl : ∀ s, R s s)
    (htrans : ∀ s t u, R s t → R t u → R s u)
    (hR : ∀ s fuel s' fuel', s.HasKinds K → body.exec p b s fuel = .ok (s', fuel') → R s s')
    (hbody : Ensures K A (body.exec p b) I) :
    Ensures K
      (fun s => I s ∧ ∀ t, R s t → t.HasKinds K → I t →
        (c.Holds M (t.valuation rest) → A t) ∧ (¬c.Holds M (t.valuation rest) → B t))
      ((Stmt.loop c body inv).exec p b) B := by
  rintro s fuel s' fuel' hk ⟨hI, hnext⟩ hrun
  rw [Stmt.exec] at hrun
  have hend := iterate_invariant (Φ := fun t => t.HasKinds K ∧ R s t ∧ I t) ?_
    ⟨hk, hrefl s, hI⟩ hrun
  · obtain ⟨⟨hk', hR', hI'⟩, fuel₀, htest⟩ := hend
    refine ⟨hk', (hnext s' hR' hk' hI').2 ?_⟩
    rw [Pred.holds_of_eval hM htest]
    exact Bool.false_ne_true
  · rintro t fuel₁ fuel₂ u fuel₃ ⟨hkt, hRt, hIt⟩ htest hrun'
    have htrue : c.Holds M (t.valuation rest) := (Pred.holds_of_eval hM htest).mpr rfl
    obtain ⟨hku, hIu⟩ := hbody t fuel₂ u fuel₃ hkt ((hnext t hRt hkt hIt).1 htrue) hrun'
    exact ⟨hku, htrans s t u hRt (hR t fuel₂ u fuel₃ hkt hrun'), hIu⟩

end

end Contracts

import Mathlib
import Contracts.Proofs.Depth
import Contracts.Proofs.Fuel
import Contracts.Proofs.Reflection

/-!
# Encodings agree with evaluation

A predicate can be evaluated in a state, and it can be encoded as a term. Where both succeed, the
term is as true as the evaluation says, in every structure that gives the constants and functions of
the term the values of the state (`Structure.Reflects`). Evaluation looks at a part only if it has
to, uses 64-bit arithmetic and binds the parameters of formulas as values; the encoding expands
everything and uses the integers. What evaluation skips does not matter for the truth of the term,
so the induction follows the evaluation.
-/

set_option autoImplicit false

namespace Contracts

open Smt

/-! ## States and environments -/

/-- The structure reads the cells and the length of an array as the state has them. -/
structure Smt.Structure.FitsCells (J : Structure) (cells : List CellConst) (name : String)
    (a : Cells) : Prop where
  cell : ∀ d ∈ cells, d.array = name →
    J.const d.symbol = .int (a.valueAt (d.index.eval J).toInt)
  length : J.const (name ++ "!len") = .int a.length.toInt

/-- The names of the environment have values in the state, and these are what they stand for. No
symbol is bound. -/
structure Env.Describes (J : Structure) (cells : List CellConst) (env : Env) (σ : State) :
    Prop where
  ground : env.bound = []
  scalar : ∀ x t, env.lookup? x = some (.scalar t) →
    ∃ n : Int64, σ[x]? = some (.int n) ∧ t.eval J = .int n.toInt
  array : ∀ x name, env.lookup? x = some (.array name) →
    ∃ a, σ[x]? = some (.array a) ∧ J.FitsCells cells name a

/-- The functions of called names give what calls give where they succeed. -/
def Smt.Structure.Calls (J : Structure) (p : Program) (b : Below) : Prop :=
  ∀ (g : String) (ns : List Int64) (fuel : Nat) (v : Int64) (fuel' : Nat),
    callFunction p b g ns.length (pure (ns.map .int)) fuel = .ok ([.int v], fuel') →
      J.fn (fnSymbol g) (ns.map fun n => .int n.toInt) = .int v.toInt

section

variable {J : Structure} {cells cells' : List CellConst} {env : Env} {σ : State}

theorem Env.Describes.mono (h : env.Describes J cells σ) (hsub : ∀ c ∈ cells', c ∈ cells) :
    env.Describes J cells' σ := by
  refine ⟨h.ground, h.scalar, fun x name hname => ?_⟩
  obtain ⟨a, ha, hfits⟩ := h.array x name hname
  exact ⟨a, ha, fun d hd => hfits.cell d (hsub d hd), hfits.length⟩

theorem Env.describes_of_empty (hbound : env.bound = []) (h : env.meanings = []) :
    env.Describes J cells σ := by
  refine ⟨hbound, fun x t ht => ?_, fun x name hname => ?_⟩
  · rw [lookup?, h] at ht
    cases ht
  · rw [lookup?, h] at hname
    cases hname

theorem Env.Describes.bind_scalar (h : env.Describes J cells σ) (x : String) {t : Term}
    {n : Int64} (ht : t.eval J = .int n.toInt) :
    (env.bind x (.scalar t)).Describes J cells (σ.insert x (.int n)) := by
  refine ⟨h.ground, fun y u hu => ?_, fun y name hname => ?_⟩
  · rw [lookup?_bind] at hu
    rw [State.getElem?_insert]
    split at hu
    · next hyx =>
      cases hu
      exact ⟨n, by rw [if_pos hyx.symm], ht⟩
    · next hyx =>
      rw [if_neg (Ne.symm hyx)]
      exact h.scalar y u hu
  · rw [lookup?_bind] at hname
    rw [State.getElem?_insert]
    split at hname
    · cases hname
    · next hyx =>
      rw [if_neg (Ne.symm hyx)]
      exact h.array y name hname

theorem Env.Describes.bind_array (h : env.Describes J cells σ) (x : String) {name : String}
    {a : Cells} (ha : J.FitsCells cells name a) :
    (env.bind x (.array name)).Describes J cells (σ.insert x (.array a)) := by
  refine ⟨h.ground, fun y u hu => ?_, fun y name' hname => ?_⟩
  · rw [lookup?_bind] at hu
    rw [State.getElem?_insert]
    split at hu
    · cases hu
    · next hyx =>
      rw [if_neg (Ne.symm hyx)]
      exact h.scalar y u hu
  · rw [lookup?_bind] at hname
    rw [State.getElem?_insert]
    split at hname
    · next hyx =>
      cases hname
      exact ⟨a, by rw [if_pos hyx.symm], ha⟩
    · next hyx =>
      rw [if_neg (Ne.symm hyx)]
      exact h.array y name' hname

/-- A name with a scalar meaning holds no array. -/
theorem Env.Describes.array?_eq_none (h : env.Describes J cells σ) {x : String} {t : Term}
    (ht : env.lookup? x = some (.scalar t)) : (Expr.var x).array? σ = none := by
  obtain ⟨n, hn, -⟩ := h.scalar x t ht
  rw [Expr.array?, State.array?, hn]

end

/-! ## The induction -/

/-- What the encoding at a level relies on from the level below it. -/
def Resolver.Simulates (p : Program) (J : Structure) (K : Nat) (r : Resolver) : Prop :=
  ∀ arrays d env s t s' k σ fuel v fuel', k ≤ K → s.WellFormed (fun _ => True) →
    env.Settled arrays s.counter → r.body d env s = (.ok t, s') →
    d.body.eval p (below p k) σ fuel = .ok (v, fuel') → env.Describes J s'.scope.cells σ →
      t.eval J = .bool (v = true)

/-- An operation that does not overflow is the one of the integers. -/
theorem eval_arithTerm_of_onWord? {J : Structure} {op : ArithOp} {a b : Term} {m n v : Int64}
    (ha : a.eval J = .int m.toInt) (hb : b.eval J = .int n.toInt) (hv : op.onWord? m n = some v) :
    (arithTerm op a b).eval J = .int v.toInt := by
  let M : Interpretation Unit := ⟨fun _ _ => 0, fun _ => 0, fun _ _ => 0, fun _ _ => False,
    fun a => if 0 ≤ a then J.zeroQuot a else -J.zeroQuot (-a)⟩
  have hquot : ∀ a, M.zeroQuot a = if 0 ≤ a then J.zeroQuot a else -J.zeroQuot (-a) :=
    fun _ => rfl
  rw [eval_arithTerm hquot op ha hb, M.arith_of_onWord? hv]

/-- Without bound symbols a cell is a constant. -/
theorem cellTerm_eval_ground {J : Structure} {env : Env} {array : String} {index t : Term}
    {a : Cells} {i : Int64} {s s' : Session} (hground : env.bound = [])
    (hrun : cellTerm env array index s = (.ok t, s')) (hfits : J.FitsCells s'.scope.cells array a)
    (hindex : index.eval J = .int i.toInt) : t.eval J = .int (a.read i).toInt := by
  unfold cellTerm at hrun
  split at hrun
  · next hmentions =>
    obtain ⟨x, -, hx⟩ := (Term.mentions_iff _ _).mp hmentions
    rw [hground] at hx
    cases hx
  · obtain ⟨symbol, s₁, hcell, hpure⟩ := EncodeM.bind_eq_ok.mp hrun
    obtain ⟨rfl, rfl⟩ := EncodeM.pure_eq_ok.mp hpure
    have hmem := mem_cells_of_cellSymbol hcell
    rw [Term.eval, hfits.cell _ hmem rfl, hindex, Val.toInt_int, Cells.valueAt_toInt]

section

variable {p : Program} {r : Resolver} {J : Structure} {K : Nat} {arrays : List String}

/-- An argument that has a term is evaluated to a number. -/
theorem operand_of_encodeExpr {e : Expr} {env : Env} {s s' : Session} {t : Term}
    {cells : List CellConst} {σ : State} {b : Below} {fuel : Nat} {result : Value × Nat}
    (hrun : encodeExpr p r e env s = (.ok t, s')) (hσ : env.Describes J cells σ)
    (hop : e.operand p b σ fuel = .ok result) :
    ∃ v, e.eval p b σ fuel = .ok (v, result.2) ∧ result.1 = .int v := by
  rcases Expr.operand_eq_ok.mp hop with ⟨c, hc, -⟩ | ⟨-, hint⟩
  · obtain ⟨x, rfl, -⟩ := Expr.array?_eq_some.mp hc
    rw [encodeExpr] at hrun
    rw [hσ.array?_eq_none (varTerm_eq_ok hrun).2] at hc
    cases hc
  · exact hint

/-- A call whose arguments have terms asks for no length. -/
theorem askedLength?_of_encodeArgs {f : String} {args : List Expr} {env : Env} {s s' : Session}
    {ts : List Term} {cells : List CellConst} {σ : State}
    (hrun : encodeArgs p r args env s = (.ok ts, s')) (hσ : env.Describes J cells σ) :
    askedLength? σ f args = none := by
  cases hasked : askedLength? σ f args with
  | none => rfl
  | some n =>
    obtain ⟨-, a, c, rfl, ha, -⟩ := askedLength?_eq_some hasked
    rw [encodeArgs] at hrun
    obtain ⟨t, s₁, ht, -⟩ := EncodeM.bind_eq_ok.mp hrun
    rw [encodeExpr] at ht
    obtain ⟨m, hm, -⟩ := hσ.scalar a t (varTerm_eq_ok ht).2
    rw [ha] at hm
    cases hm

mutual

theorem eval_of_encodeExpr (hr : r.Keeps p fun _ => True) (hsim : r.Simulates p J K)
    (hcalls : ∀ k ≤ K, J.Calls p (below p k)) :
    ∀ (e : Expr) {env : Env} {s s' : Session} {t : Term} {σ : State} {k fuel fuel' : Nat}
      {v : Int64}, k ≤ K → s.WellFormed (fun _ => True) → env.Settled arrays s.counter →
      encodeExpr p r e env s = (.ok t, s') → e.eval p (below p k) σ fuel = .ok (v, fuel') →
      env.Describes J s'.scope.cells σ → t.eval J = .int v.toInt
  | .const n, _, _, _, _, _, _, _, _, _, _, _, _, hrun, heval, _ => by
    rw [encodeExpr] at hrun
    obtain ⟨rfl, -⟩ := EncodeM.pure_eq_ok.mp hrun
    rw [Expr.eval] at heval
    cases EvalM.pure_eq_ok.mp heval
    rw [Term.eval]
  | .var x, _, _, _, _, _, _, _, _, _, _, _, _, hrun, heval, hσ => by
    rw [encodeExpr] at hrun
    obtain ⟨n, hn, ht⟩ := hσ.scalar x _ (varTerm_eq_ok hrun).2
    rw [Expr.eval, readVar_eq_ok, hn] at heval
    cases heval.1
    exact ht
  | .neg e, _, _, _, _, _, _, _, _, _, hk, hs, henv, hrun, heval, hσ => by
    rw [encodeExpr] at hrun
    obtain ⟨u, s₁, hu, hrest⟩ := EncodeM.bind_eq_ok.mp hrun
    obtain ⟨rfl, rfl⟩ := EncodeM.pure_eq_ok.mp hrest
    obtain ⟨w, hw, hneg⟩ := Expr.eval_neg_eq_ok.mp heval
    rw [Term.eval, eval_of_encodeExpr hr hsim hcalls e hk hs henv hu hw hσ, Val.toInt_int,
      toInt_of_word? hneg]
  | .binary op a b, _, _, _, _, _, _, _, _, _, hk, hs, henv, hrun, heval, hσ => by
    rw [encodeExpr] at hrun
    obtain ⟨u, s₁, hu, hrest₁⟩ := EncodeM.bind_eq_ok.mp hrun
    obtain ⟨w, s₂, hw, hrest₂⟩ := EncodeM.bind_eq_ok.mp hrest₁
    obtain ⟨rfl, rfl⟩ := EncodeM.pure_eq_ok.mp hrest₂
    obtain ⟨hs₁, hgrows₁, -⟩ := encodeExpr_grows hr hs henv hu
    have henv₁ := henv.mono hgrows₁.counter
    obtain ⟨-, hgrows₂, -⟩ := encodeExpr_grows hr hs₁ henv₁ hw
    obtain ⟨m, fuel₁, n, hm, hn, hv⟩ := Expr.eval_binary_eq_ok.mp heval
    have ha := eval_of_encodeExpr hr hsim hcalls a hk hs henv hu hm
      (hσ.mono fun c hc => hgrows₂.mem_cells hc)
    have hb := eval_of_encodeExpr hr hsim hcalls b hk hs₁ henv₁ hw hn hσ
    exact eval_arithTerm_of_onWord? ha hb hv
  | .read a i, _, _, _, _, _, _, _, _, _, hk, hs, henv, hrun, heval, hσ => by
    rw [encodeExpr] at hrun
    obtain ⟨name, s₁, hname, hrest₁⟩ := EncodeM.bind_eq_ok.mp hrun
    obtain ⟨rfl, hlookup⟩ := arrayName_eq_ok hname
    obtain ⟨u, s₂, hu, hrest₂⟩ := EncodeM.bind_eq_ok.mp hrest₁
    obtain ⟨hs₂, -, hnumeric⟩ := encodeExpr_grows hr hs henv hu
    obtain ⟨-, hgrows₃, -⟩ := keeps_cellTerm admitsBasics_true (henv.array a name hlookup)
      hnumeric s₂ _ _ hrest₂ hs₂ (Nat.le_refl _)
    obtain ⟨w, c, hw, hc, hv⟩ := Expr.eval_read_eq_ok.mp heval
    have hi := eval_of_encodeExpr hr hsim hcalls i hk hs henv hu hw
      (hσ.mono fun c hc => hgrows₃.mem_cells hc)
    obtain ⟨c', hc', hfits⟩ := hσ.array a name hlookup
    rw [hc] at hc'
    cases hc'
    dsimp only at hv
    rw [cellTerm_eval_ground hσ.ground hrest₂ hfits hi, hv]
  | .call f args, env, s, s', t, σ, k, fuel, fuel', v, hk, hs, henv, hrun, heval, hσ => by
    rw [encodeExpr] at hrun
    cases hlength : lengthOf? env f args with
    | some array =>
      rw [hlength] at hrun
      obtain ⟨symbol, s₁, hsymbol, hrest⟩ := EncodeM.bind_eq_ok.mp hrun
      obtain ⟨rfl, rfl⟩ := EncodeM.pure_eq_ok.mp hrest
      obtain ⟨a, rfl, rfl, hlookup⟩ := lengthOf?_eq_some hlength
      obtain ⟨c, hc, hfits⟩ := hσ.array a array hlookup
      have hasked : askedLength? σ "length" [.var a] = some c.length := by
        rw [askedLength?, Expr.array?, State.array?, hc]
        rfl
      rw [Term.eval, lengthSymbol_eq_ok hsymbol, hfits.length]
      rcases Expr.eval_call_eq_ok.mp heval with ⟨hv, -⟩ | ⟨hnone, -⟩
      · rw [hasked] at hv
        cases hv
        rfl
      · rw [hasked] at hnone
        cases hnone
    | none =>
      rw [hlength] at hrun
      cases hfind : p.function? f with
      | none =>
        rw [hfind] at hrun
        obtain ⟨ts, s₁, hts, -⟩ := EncodeM.bind_eq_ok.mp hrun
        rcases Expr.eval_call_eq_ok.mp heval with ⟨hsome, -⟩ | ⟨-, hcall⟩
        · rw [askedLength?_of_encodeArgs hts hσ] at hsome
          cases hsome
        · -- only functions of the program can be called
          obtain ⟨g, hg, -⟩ := callFunction_eq_ok.mp hcall
          rw [hfind] at hg
          cases hg
      | some g =>
        rw [hfind] at hrun
        obtain ⟨_, s₁, hcheck, hrest₁⟩ := EncodeM.bind_eq_ok.mp hrun
        obtain ⟨rfl, hcount, hscalars, hsingle⟩ := checkCall_eq_ok hcheck
        obtain ⟨ts, s₂, hts, hrest₂⟩ := EncodeM.bind_eq_ok.mp hrest₁
        obtain ⟨_, s₃, hdeclare, hrest₃⟩ := EncodeM.bind_eq_ok.mp hrest₂
        obtain ⟨_, s₄, hcontract, hrest₄⟩ := EncodeM.bind_eq_ok.mp hrest₃
        obtain ⟨rfl, rfl⟩ := EncodeM.pure_eq_ok.mp hrest₄
        obtain ⟨hs₂, hgrows₂, hargs⟩ := encodeArgs_grows hr hs henv hts
        obtain ⟨hs₃, hgrows₃⟩ := declareFun_grows hs₂ hdeclare
        have hname : g.name = f := (Program.mem_of_function? hfind).2
        obtain ⟨-, hgrows₄, -⟩ := hr.contract g ts env.bound s₃.counter
          ⟨by rw [hname, hfind], hscalars, hsingle⟩ (by rw [hcount, hargs.2])
          (fun u hu => (hargs.1 u hu).mono hgrows₃.counter) s₃ _ _ hcontract hs₃ (Nat.le_refl _)
        have hσ₂ := hσ.mono fun c hc => hgrows₄.mem_cells (hgrows₃.mem_cells hc)
        rcases Expr.eval_call_eq_ok.mp heval with ⟨hsome, -⟩ | ⟨-, hcall⟩
        · rw [askedLength?_of_encodeArgs hts hσ₂] at hsome
          cases hsome
        · obtain ⟨values, fuel₁, hvalues, hresult⟩ := callFunction_operands hcall
          obtain ⟨ns, rfl, hns⟩ :=
            evals_of_encodeArgs hr hsim hcalls args hk hs henv hts hvalues hσ₂
          rw [List.length_map] at hresult
          rw [Term.eval, hns]
          exact hcalls k hk f ns fuel₁ v fuel' hresult
  | .cond q a b, _, _, _, _, _, _, _, _, _, hk, hs, henv, hrun, heval, hσ => by
    rw [encodeExpr] at hrun
    obtain ⟨u, s₁, hu, hrest₁⟩ := EncodeM.bind_eq_ok.mp hrun
    obtain ⟨w, s₂, hw, hrest₂⟩ := EncodeM.bind_eq_ok.mp hrest₁
    obtain ⟨z, s₃, hz, hrest₃⟩ := EncodeM.bind_eq_ok.mp hrest₂
    obtain ⟨rfl, rfl⟩ := EncodeM.pure_eq_ok.mp hrest₃
    obtain ⟨hs₁, hgrows₁⟩ := encodePred_grows hr hs henv hu
    have henv₁ := henv.mono hgrows₁.counter
    obtain ⟨hs₂, hgrows₂, -⟩ := encodeExpr_grows hr hs₁ henv₁ hw
    have henv₂ := henv₁.mono hgrows₂.counter
    obtain ⟨-, hgrows₃, -⟩ := encodeExpr_grows hr hs₂ henv₂ hz
    have hσ₂ := hσ.mono fun c hc => hgrows₃.mem_cells hc
    have hσ₁ := hσ₂.mono fun c hc => hgrows₂.mem_cells hc
    -- evaluation takes one branch, and the test chooses it in the term as well
    obtain ⟨fuel₁, ⟨ht, hx⟩ | ⟨ht, hy⟩⟩ := Expr.eval_cond_eq_ok.mp heval
    · have hq := eval_of_encodePred hr hsim hcalls q hk hs henv hu ht hσ₁
      rw [Term.eval, hq, Val.select_of_true ((Val.truth_bool _).mpr rfl)]
      exact eval_of_encodeExpr hr hsim hcalls a hk hs₁ henv₁ hw hx hσ₂
    · have hq := eval_of_encodePred hr hsim hcalls q hk hs henv hu ht hσ₁
      rw [Term.eval, hq, Val.select_of_false fun h => Bool.false_ne_true ((Val.truth_bool _).mp h)]
      exact eval_of_encodeExpr hr hsim hcalls b hk hs₂ henv₂ hz hy hσ

theorem evals_of_encodeArgs (hr : r.Keeps p fun _ => True) (hsim : r.Simulates p J K)
    (hcalls : ∀ k ≤ K, J.Calls p (below p k)) :
    ∀ (es : List Expr) {env : Env} {s s' : Session} {ts : List Term} {σ : State}
      {k fuel fuel' : Nat} {values : List Value}, k ≤ K → s.WellFormed (fun _ => True) →
      env.Settled arrays s.counter → encodeArgs p r es env s = (.ok ts, s') →
      Expr.operands p (below p k) σ es fuel = .ok (values, fuel') →
      env.Describes J s'.scope.cells σ →
      ∃ ns : List Int64, values = ns.map .int ∧
        Term.evals ts J = ns.map fun n => .int n.toInt
  | [], _, _, _, _, _, _, _, _, _, _, _, _, hrun, hops, _ => by
    rw [encodeArgs] at hrun
    obtain ⟨rfl, -⟩ := EncodeM.pure_eq_ok.mp hrun
    cases Expr.operands_nil_eq_ok.mp hops
    exact ⟨[], rfl, by rw [Term.evals, List.map_nil]⟩
  | e :: es, _, _, _, _, _, _, _, _, _, hk, hs, henv, hrun, hops, hσ => by
    rw [encodeArgs] at hrun
    obtain ⟨u, s₁, hu, hrest₁⟩ := EncodeM.bind_eq_ok.mp hrun
    obtain ⟨us, s₂, hus, hrest₂⟩ := EncodeM.bind_eq_ok.mp hrest₁
    obtain ⟨rfl, rfl⟩ := EncodeM.pure_eq_ok.mp hrest₂
    obtain ⟨hs₁, hgrows₁, -⟩ := encodeExpr_grows hr hs henv hu
    have henv₁ := henv.mono hgrows₁.counter
    obtain ⟨-, hgrows₂, -⟩ := encodeArgs_grows hr hs₁ henv₁ hus
    have hσ₁ := hσ.mono fun c hc => hgrows₂.mem_cells hc
    obtain ⟨w, fuel₁, ws, hw, hws, rfl⟩ := Expr.operands_cons_eq_ok.mp hops
    obtain ⟨n, hn, rfl⟩ := operand_of_encodeExpr hu hσ₁ hw
    have he := eval_of_encodeExpr hr hsim hcalls e hk hs henv hu hn hσ₁
    obtain ⟨ns, rfl, hns⟩ := evals_of_encodeArgs hr hsim hcalls es hk hs₁ henv₁ hus hws hσ
    exact ⟨n :: ns, rfl, by rw [Term.evals, he, hns, List.map_cons]⟩

theorem describes_of_bindArgs (hr : r.Keeps p fun _ => True) (hsim : r.Simulates p J K)
    (hcalls : ∀ k ≤ K, J.Calls p (below p k)) (formula : String) :
    ∀ (es : List Expr) (xs : List Param) {env inner env' : Env} {s s' : Session} {σ σ₀ : State}
      {k fuel fuel' : Nat} {values : List Value} {cells : List CellConst}, k ≤ K →
      s.WellFormed (fun _ => True) → env.Settled arrays s.counter →
      inner.Settled arrays s.counter → bindArgs p r formula es xs env inner s = (.ok env', s') →
      Expr.operands p (below p k) σ es fuel = .ok (values, fuel') →
      (∀ c ∈ s'.scope.cells, c ∈ cells) → env.Describes J cells σ → inner.Describes J cells σ₀ →
      env'.Describes J cells (((xs.map Param.name).zip values).foldl
        (fun σ q => σ.insert q.1 q.2) σ₀)
  | [], xs, _, _, _, _, _, _, _, _, _, _, _, _, _, _, _, _, hrun, hops, _, _, hinner => by
    cases Expr.operands_nil_eq_ok.mp hops
    rw [bindArgs] at hrun
    · obtain ⟨rfl, rfl⟩ := EncodeM.pure_eq_ok.mp hrun
      rw [List.zip_nil_right]
      exact hinner
    · intro _ _ _ _ h
      cases h
  | _ :: _, [], _, _, _, _, _, _, _, _, _, _, _, _, _, _, _, _, hrun, _, _, _, hinner => by
    rw [bindArgs] at hrun
    · obtain ⟨rfl, rfl⟩ := EncodeM.pure_eq_ok.mp hrun
      exact hinner
    · intro _ _ _ _ _ h
      cases h
  | e :: es, x :: xs, env, inner, env', s, s', σ, σ₀, k, fuel, fuel', _, cells, hk, hs, henv,
      hsettled, hrun, hops, hsub, hσ, hinner => by
    rw [bindArgs] at hrun
    obtain ⟨w, fuel₁, ws, hw, hws, rfl⟩ := Expr.operands_cons_eq_ok.mp hops
    cases htype : x.type with
    | int =>
      rw [htype] at hrun
      obtain ⟨_, s₁, hscalar, hrest⟩ := EncodeM.bind_eq_ok.mp hrun
      obtain ⟨u, hu, rfl⟩ := EncodeM.map_eq_ok.mp hscalar
      obtain ⟨hs₁, hgrows₁, hnumeric⟩ := encodeExpr_grows hr hs henv hu
      have henv₁ := henv.mono hgrows₁.counter
      have hsettled₁ := (hsettled.mono hgrows₁.counter).bind_scalar x.name hnumeric
      obtain ⟨-, hgrows₂, -⟩ := keeps_bindArgs admitsBasics_true hr formula es xs henv₁ hsettled₁
        s₁ _ _ hrest hs₁ (Nat.le_refl _)
      obtain ⟨n, hn, rfl⟩ := operand_of_encodeExpr hu hσ hw
      have he := eval_of_encodeExpr hr hsim hcalls e hk hs henv hu hn
        (hσ.mono fun c hc => hsub c (hgrows₂.mem_cells hc))
      exact describes_of_bindArgs hr hsim hcalls formula es xs hk hs₁ henv₁ hsettled₁ hrest hws
        hsub hσ (hinner.bind_scalar x.name he)
    | array =>
      rw [htype] at hrun
      obtain ⟨_, s₁, hargument, hrest⟩ := EncodeM.bind_eq_ok.mp hrun
      obtain ⟨rfl, a, name, rfl, rfl, hlookup⟩ := arrayArgument_eq_ok hargument
      have hsettled₁ := hsettled.bind_array x.name (henv.array a name hlookup)
      obtain ⟨c, hc, hfits⟩ := hσ.array a name hlookup
      -- the argument is the array that the name holds
      have harray : (Expr.var a).array? σ = some c := Expr.array?_eq_some.mpr ⟨a, rfl, hc⟩
      rcases Expr.operand_eq_ok.mp hw with ⟨c', hc', heq⟩ | ⟨hnone, -⟩
      · rw [harray] at hc'
        cases hc'
        cases heq
        exact describes_of_bindArgs hr hsim hcalls formula es xs hk hs henv hsettled₁ hrest hws
          hsub hσ (hinner.bind_array x.name hfits)
      · rw [harray] at hnone
        cases hnone

theorem eval_of_encodePred (hr : r.Keeps p fun _ => True) (hsim : r.Simulates p J K)
    (hcalls : ∀ k ≤ K, J.Calls p (below p k)) :
    ∀ (q : Pred) {env : Env} {s s' : Session} {t : Term} {σ : State} {k fuel fuel' : Nat}
      {v : Bool}, k ≤ K → s.WellFormed (fun _ => True) → env.Settled arrays s.counter →
      encodePred p r q env s = (.ok t, s') → q.eval p (below p k) σ fuel = .ok (v, fuel') →
      env.Describes J s'.scope.cells σ → t.eval J = .bool (v = true)
  | .bool c, _, _, _, _, _, _, _, _, _, _, _, _, hrun, heval, _ => by
    rw [encodePred] at hrun
    obtain ⟨rfl, -⟩ := EncodeM.pure_eq_ok.mp hrun
    rw [Pred.eval] at heval
    cases EvalM.pure_eq_ok.mp heval
    rw [Term.eval]
  | .compare op a b, _, _, _, _, _, _, _, _, _, hk, hs, henv, hrun, heval, hσ => by
    rw [encodePred] at hrun
    obtain ⟨u, s₁, hu, hrest₁⟩ := EncodeM.bind_eq_ok.mp hrun
    obtain ⟨w, s₂, hw, hrest₂⟩ := EncodeM.bind_eq_ok.mp hrest₁
    obtain ⟨rfl, rfl⟩ := EncodeM.pure_eq_ok.mp hrest₂
    obtain ⟨hs₁, hgrows₁, -⟩ := encodeExpr_grows hr hs henv hu
    have henv₁ := henv.mono hgrows₁.counter
    obtain ⟨-, hgrows₂, -⟩ := encodeExpr_grows hr hs₁ henv₁ hw
    have hσ₁ := hσ.mono fun c hc => hgrows₂.mem_cells hc
    obtain ⟨m, fuel₁, n, hm, hn, hv⟩ := Pred.eval_compare_eq_ok.mp heval
    have ha := eval_of_encodeExpr hr hsim hcalls a hk hs henv hu hm hσ₁
    have hb := eval_of_encodeExpr hr hsim hcalls b hk hs₁ henv₁ hw hn hσ
    dsimp only at hv
    rw [eval_cmpTerm op ha hb, hv]
  | .not q, _, _, _, _, _, _, _, _, _, hk, hs, henv, hrun, heval, hσ => by
    rw [encodePred] at hrun
    obtain ⟨u, s₁, hu, hrest⟩ := EncodeM.bind_eq_ok.mp hrun
    obtain ⟨rfl, rfl⟩ := EncodeM.pure_eq_ok.mp hrest
    have hq := eval_of_encodePred hr hsim hcalls q hk hs henv hu (Pred.eval_not_eq_ok.mp heval) hσ
    rw [Term.eval, hq]
    simp
  | .and a b, _, _, _, _, _, _, _, _, _, hk, hs, henv, hrun, heval, hσ => by
    rw [encodePred] at hrun
    obtain ⟨u, s₁, hu, hrest₁⟩ := EncodeM.bind_eq_ok.mp hrun
    obtain ⟨w, s₂, hw, hrest₂⟩ := EncodeM.bind_eq_ok.mp hrest₁
    obtain ⟨rfl, rfl⟩ := EncodeM.pure_eq_ok.mp hrest₂
    obtain ⟨hs₁, hgrows₁⟩ := encodePred_grows hr hs henv hu
    have henv₁ := henv.mono hgrows₁.counter
    obtain ⟨-, hgrows₂⟩ := encodePred_grows hr hs₁ henv₁ hw
    have hσ₁ := hσ.mono fun c hc => hgrows₂.mem_cells hc
    rw [Pred.eval] at heval
    obtain ⟨fuel₁, ⟨ha, hb⟩ | ⟨ha, hb⟩⟩ := EvalM.cond_eq_ok.mp heval
    · have hfirst := eval_of_encodePred hr hsim hcalls a hk hs henv hu ha hσ₁
      have hsecond := eval_of_encodePred hr hsim hcalls b hk hs₁ henv₁ hw hb hσ
      rw [Term.eval_and, hfirst, hsecond]
      simp
    · have hfirst := eval_of_encodePred hr hsim hcalls a hk hs henv hu ha hσ₁
      cases EvalM.pure_eq_ok.mp hb
      rw [Term.eval_and, hfirst]
      simp
  | .or a b, _, _, _, _, _, _, _, _, _, hk, hs, henv, hrun, heval, hσ => by
    rw [encodePred] at hrun
    obtain ⟨u, s₁, hu, hrest₁⟩ := EncodeM.bind_eq_ok.mp hrun
    obtain ⟨w, s₂, hw, hrest₂⟩ := EncodeM.bind_eq_ok.mp hrest₁
    obtain ⟨rfl, rfl⟩ := EncodeM.pure_eq_ok.mp hrest₂
    obtain ⟨hs₁, hgrows₁⟩ := encodePred_grows hr hs henv hu
    have henv₁ := henv.mono hgrows₁.counter
    obtain ⟨-, hgrows₂⟩ := encodePred_grows hr hs₁ henv₁ hw
    have hσ₁ := hσ.mono fun c hc => hgrows₂.mem_cells hc
    rw [Pred.eval] at heval
    obtain ⟨fuel₁, ⟨ha, hb⟩ | ⟨ha, hb⟩⟩ := EvalM.cond_eq_ok.mp heval
    · have hfirst := eval_of_encodePred hr hsim hcalls a hk hs henv hu ha hσ₁
      cases EvalM.pure_eq_ok.mp hb
      rw [Term.eval_or, hfirst]
      simp
    · have hfirst := eval_of_encodePred hr hsim hcalls a hk hs henv hu ha hσ₁
      have hsecond := eval_of_encodePred hr hsim hcalls b hk hs₁ henv₁ hw hb hσ
      rw [Term.eval_or, hfirst, hsecond]
      simp
  | .implies a b, _, _, _, _, _, _, _, _, _, hk, hs, henv, hrun, heval, hσ => by
    rw [encodePred] at hrun
    obtain ⟨u, s₁, hu, hrest₁⟩ := EncodeM.bind_eq_ok.mp hrun
    obtain ⟨w, s₂, hw, hrest₂⟩ := EncodeM.bind_eq_ok.mp hrest₁
    obtain ⟨rfl, rfl⟩ := EncodeM.pure_eq_ok.mp hrest₂
    obtain ⟨hs₁, hgrows₁⟩ := encodePred_grows hr hs henv hu
    have henv₁ := henv.mono hgrows₁.counter
    obtain ⟨-, hgrows₂⟩ := encodePred_grows hr hs₁ henv₁ hw
    have hσ₁ := hσ.mono fun c hc => hgrows₂.mem_cells hc
    rw [Pred.eval] at heval
    obtain ⟨fuel₁, ⟨ha, hb⟩ | ⟨ha, hb⟩⟩ := EvalM.cond_eq_ok.mp heval
    · have hfirst := eval_of_encodePred hr hsim hcalls a hk hs henv hu ha hσ₁
      have hsecond := eval_of_encodePred hr hsim hcalls b hk hs₁ henv₁ hw hb hσ
      rw [Term.eval_implies, hfirst, hsecond]
      simp
    · have hfirst := eval_of_encodePred hr hsim hcalls a hk hs henv hu ha hσ₁
      cases EvalM.pure_eq_ok.mp hb
      rw [Term.eval_implies, hfirst]
      simp
  | .paren q, _, _, _, _, _, _, _, _, _, hk, hs, henv, hrun, heval, hσ => by
    rw [encodePred] at hrun
    rw [Pred.eval] at heval
    exact eval_of_encodePred hr hsim hcalls q hk hs henv hrun heval hσ
  | .quantified _ _ _, _, _, _, _, _, _, _, _, _, _, _, _, _, heval, _ => by
    rw [Pred.eval] at heval
    exact (EvalM.throw_ne_ok heval).elim
  | .formula f args, env, s, s', t, σ, k, fuel, fuel', v, hk, hs, henv, hrun, heval, hσ => by
    rw [encodePred] at hrun
    obtain ⟨d, s₁, hformula, hrest₁⟩ := EncodeM.bind_eq_ok.mp hrun
    obtain ⟨rfl, hfind, -⟩ := referredFormula_eq_ok hformula
    obtain ⟨inner, s₂, hinner, hbody⟩ := EncodeM.bind_eq_ok.mp hrest₁
    obtain ⟨hs₂, -, hsettled⟩ := keeps_bindArgs admitsBasics_true hr f args d.params henv
      (Env.settled_of_empty rfl) _ _ _ hinner hs (Nat.le_refl _)
    obtain ⟨hinner₂, -⟩ := hsettled inner rfl
    obtain ⟨-, hgrows₃, -⟩ := hr.body arrays d inner _ hinner₂ s₂ _ _ hbody hs₂ (Nat.le_refl _)
    rw [Pred.eval] at heval
    obtain ⟨d', hd', -, holds, hholds, values, fuel₁, hvalues, heval'⟩ :=
      holdsFormula_eq_ok.mp heval
    rw [hfind] at hd'
    cases hd'
    have hdescribes : inner.Describes J s'.scope.cells (bindParams d.params values) :=
      describes_of_bindArgs hr hsim hcalls f args d.params hk hs henv (Env.settled_of_empty rfl)
        hinner hvalues (fun c hc => hgrows₃.mem_cells hc) hσ
        (Env.describes_of_empty hσ.ground rfl)
    -- the body is evaluated one level down
    cases k with
    | zero => cases hholds
    | succ k =>
      cases hholds
      exact hsim arrays d inner s₂ t s' k _ fuel₁ v fuel' (by omega) hs₂ hinner₂ hbody heval'
        hdescribes

end

end

/-! ## All levels -/

theorem resolver_simulates {p : Program} (hp : p.PlainNames) {J : Structure} {K : Nat}
    (hcalls : ∀ k ≤ K, J.Calls p (below p k)) (n : Nat) (expanding : List String) :
    (resolver p n expanding).Simulates p J K := by
  induction n generalizing expanding with
  | zero =>
    intro arrays d env s t s' k σ fuel v fuel' _ _ _ hrun
    cases hrun
  | succ n ih =>
    intro arrays d env s t s' k σ fuel v fuel' hk hs henv hrun heval hσ
    exact eval_of_encodePred (resolver_keeps hp (p.admits_true n) (Nat.le_refl n) _) (ih _) hcalls
      d.body hk hs henv hrun heval hσ

/-! ## Agreement -/

/-- The structure gives the symbols of a function the values of a state: variables have their
values, cells the values of the arrays at their indices, lengths those of the arrays, and the
functions of called names give what calls give where they succeed. -/
structure Smt.Structure.Reflects (J : Structure) (p : Program) (f : FunctionDef) (σ : State)
    (cells : List CellConst) : Prop where
  scalar : ∀ d ∈ f.decls, ∀ n : Int64, σ[d.name]? = some (.int n) →
    J.const (varSymbol d.name) = .int n.toInt
  cell : ∀ c ∈ cells, ∀ a : Cells, σ[c.array]? = some (.array a) →
    J.const c.symbol = .int (a.valueAt (c.index.eval J).toInt)
  length : ∀ d ∈ f.decls, ∀ a : Cells, σ[d.name]? = some (.array a) →
    J.const (d.name ++ "!len") = .int a.length.toInt
  calls : J.Calls p (below p depthLimit)

/-- The session of a function after some encodings in it, whether they succeeded or not. -/
def Program.encodeAll (p : Program) (f : FunctionDef) (qs : List Pred) (s : Session) : Session :=
  qs.foldl (fun s q => (p.encodePred q (Env.ofFunction f) s).2) (s.beginFunction f.name)

section

variable {p : Program} {f : FunctionDef} {σ : State}

theorem encodeAll_wellFormed (hp : p.PlainNames) (hf : ∀ d ∈ f.decls, PlainName d.name)
    (qs : List Pred) (s : Session) : (p.encodeAll f qs s).WellFormed fun _ => True := by
  have hbegin : (s.beginFunction f.name).WellFormed fun _ => True :=
    ⟨fun c hc => absurd hc List.not_mem_nil, List.Pairwise.nil, fun _ _ => trivial,
      fun _ _ => trivial, fun _ _ => trivial⟩
  have hr := resolver_keeps hp (p.admits_true _) (Nat.le_refl p.levels) []
  unfold Program.encodeAll
  generalize s.beginFunction f.name = s₁ at hbegin ⊢
  induction qs generalizing s₁ with
  | nil => exact hbegin
  | cons q qs ih =>
    refine ih _ ?_
    exact (keeps_encodePred admitsBasics_true hr q (Env.settled_ofFunction hf _) s₁ _ _ rfl hbegin
      (Nat.le_refl _)).1

/-- The environment of a function describes every state that the structure reflects. -/
theorem describes_ofFunction {J : Structure} {cells : List CellConst}
    (hσ : ∀ d ∈ f.decls, ∃ v, σ[d.name]? = some v ∧ v.type = d.type)
    (hJ : J.Reflects p f σ cells) : (Env.ofFunction f).Describes J cells σ := by
  refine ⟨Env.bound_ofFunction f, fun x t ht => ?_, fun x name hname => ?_⟩
  · obtain ⟨d, hd, rfl, hm⟩ := Env.lookup?_ofFunction ht
    obtain ⟨v, hv, htype⟩ := hσ d hd
    unfold Env.declared at hm
    cases hd' : d.type with
    | array =>
      rw [hd'] at hm
      cases hm
    | int =>
      rw [hd'] at hm htype
      cases hm
      cases v with
      | array a => cases htype
      | int n =>
        refine ⟨n, hv, ?_⟩
        rw [Term.eval]
        exact hJ.scalar d hd n hv
  · obtain ⟨d, hd, rfl, hm⟩ := Env.lookup?_ofFunction hname
    obtain ⟨v, hv, htype⟩ := hσ d hd
    unfold Env.declared at hm
    cases hd' : d.type with
    | int =>
      rw [hd'] at hm
      cases hm
    | array =>
      rw [hd'] at hm htype
      cases hm
      cases v with
      | int n => cases htype
      | array a =>
        refine ⟨a, hv, fun c hc harray => ?_, hJ.length d hd a hv⟩
        exact hJ.cell c hc a (by rw [harray, hv])

/-- Every state is reflected by a structure. -/
theorem exists_reflects (hf : ∀ d ∈ f.decls, PlainName d.name)
    (hσ : ∀ d ∈ f.decls, ∃ v, σ[d.name]? = some v ∧ v.type = d.type) {s : Session}
    (hs : s.WellFormed fun _ => True) : ∃ J : Structure, J.Reflects p f σ s.scope.cells := by
  have hM := p.reading_agrees depthLimit
  refine ⟨(σ.valuation fun _ => .int 0).reflectAll (p.reading (below p depthLimit)) f.decls
    (fun _ => 0) s.scope.cells, fun d hd n hn => ?_, fun c hc a ha => ?_, fun d hd a ha => ?_,
    fun g ns fuel v fuel' hcall => ?_⟩
  · obtain ⟨v, hv, htype⟩ := hσ d hd
    rw [hn] at hv
    cases hv
    rw [reflectAll_const hs.cells (varSymbol_not_madeAfter (hf d hd).1),
      constant_var hf hd htype.symm, State.valuation_of_some hn]
    rfl
  · rw [reflectAll_cell hs.cells hs.ordered hc, State.valuation_of_some ha]
    exact congrArg Val.int (hM.cell a _)
  · obtain ⟨v, hv, htype⟩ := hσ d hd
    rw [ha] at hv
    cases hv
    rw [reflectAll_const hs.cells (lengthSymbol_not_madeAfter d.name),
      constant_length hd htype.symm (State.valuation_of_some ha), hM.length]
  · rw [reflectAll_fn, function_called hf]
    have hfn := hM.fn g (ns.map .int) fuel v fuel' (by rw [List.length_map]; exact hcall)
    rw [List.map_map] at hfn ⊢
    rw [List.map_map]
    exact congrArg Val.int hfn

/-- **Encodings agree with evaluation.** Where a predicate evaluates in a state to `b` and is
encoded as a term, after any other encodings in the same function, the term evaluates to `b` in
every structure that reflects the state, and there is such a structure. -/
theorem encodePred_agrees_eval (hp : p.PlainNames) (hf : ∀ d ∈ f.decls, PlainName d.name)
    (hσ : ∀ d ∈ f.decls, ∃ v, σ[d.name]? = some v ∧ v.type = d.type) {q : Pred} {fuel : Nat}
    {b : Bool} (heval : p.holds q σ fuel = .ok b) {earlier : List Pred} {s s' : Session} {t : Term}
    (hencode : p.encodePred q (Env.ofFunction f) (p.encodeAll f earlier s) = (.ok t, s')) :
    (∃ J : Structure, J.Reflects p f σ s'.scope.cells) ∧
      ∀ J : Structure, J.Reflects p f σ s'.scope.cells → t.eval J = .bool (b = true) := by
  have hs := encodeAll_wellFormed hp hf earlier s
  have hr := resolver_keeps hp (p.admits_true _) (Nat.le_refl p.levels) []
  have henv := Env.settled_ofFunction hf (p.encodeAll f earlier s).counter
  obtain ⟨hs', -⟩ := encodePred_grows hr hs henv hencode
  refine ⟨exists_reflects hf hσ hs', fun J hJ => ?_⟩
  -- calls below the outermost level give nothing else than calls there
  have hcalls : ∀ k ≤ depthLimit, J.Calls p (below p k) := fun k hk g ns fuel v fuel' hcall =>
    hJ.calls g ns fuel v fuel' (callFunction_below_mono hk hcall)
  unfold Program.holds at heval
  cases hrun : q.eval p (below p depthLimit) σ fuel with
  | error e =>
    rw [hrun] at heval
    cases heval
  | ok result =>
    rw [hrun] at heval
    cases heval
    exact eval_of_encodePred hr (resolver_simulates hp hcalls p.levels []) hcalls q
      (Nat.le_refl depthLimit) hs henv hencode hrun (describes_ofFunction hσ hJ)

end

/-! ### An instance

The predicate calls a function that divides a negative number, where truncated and Euclidean
division differ, refers to a formula with a nested read, and has a quantified part that evaluation
skips. -/

/-- Halves its argument. -/
def halve : FunctionDef where
  name := "halve"
  params := [⟨"x", .int⟩]
  returns := [⟨"r", .int⟩]
  locals := []
  body := .assign [.var "r"] [.binary .div (.var "x") (.const 2)]
  pre := none
  post := some (.compare .eq (.var "r") (.binary .div (.var "x") (.const 2)))

/-- A function with an array and a number. -/
def lookupFn : FunctionDef where
  name := "lookup"
  params := [⟨"a", .array⟩, ⟨"n", .int⟩]
  returns := []
  locals := []
  body := .block []
  pre := none
  post := none

/-- The cell that the first cell points to is below the bound. -/
def pointsBelow : FormulaDef where
  name := "pointsBelow"
  params := [⟨"c", .array⟩, ⟨"bound", .int⟩]
  body := .compare .lt (.read "c" (.read "c" (.const 0))) (.var "bound")

def lookupProgram : Program := ⟨[halve, lookupFn], [pointsBelow]⟩

def lookupPred : Pred :=
  .and (.formula "pointsBelow" [.var "a", .const 6])
    (.or (.compare .eq (.call "halve" [.var "n"]) (.const (-3)))
      (.quantified .universal ⟨"i", .int⟩ (.compare .gt (.read "a" (.var "i")) (.const 0))))

/-- The array holds `1` and `5`, the number is `-7`. -/
def lookupState : State :=
  State.ofPairs [("a", .array ((Cells.write ∅ 0 1).write 1 5)), ("n", .int (-7))]

/-- The predicate evaluates to true, and so does its term in a structure that reflects the state. -/
theorem encodePred_agrees_eval_lookup : ∃ (t : Term) (s' : Session) (J : Structure),
    lookupProgram.holds lookupPred lookupState 10 = .ok true ∧
    lookupProgram.encodePred lookupPred (Env.ofFunction lookupFn)
      (lookupProgram.encodeAll lookupFn [.compare .eq (.read "a" (.const 0)) (.var "n")]
        Session.new) = (.ok t, s') ∧
    J.Reflects lookupProgram lookupFn lookupState s'.scope.cells ∧ t.Holds J := by
  have heval : lookupProgram.holds lookupPred lookupState 10 = .ok true := by cbv
  have hplain : lookupProgram.PlainNames := by
    unfold Program.PlainNames PlainName
    decide
  have hstate : ∀ d ∈ lookupFn.decls, ∃ v, lookupState[d.name]? = some v ∧ v.type = d.type := by
    intro d hd
    simp only [lookupFn, FunctionDef.decls, List.append_nil, List.mem_cons, List.not_mem_nil,
      or_false] at hd
    rcases hd with rfl | rfl
    · exact ⟨.array ((Cells.write ∅ 0 1).write 1 5), by cbv, rfl⟩
    · exact ⟨.int (-7), by cbv, rfl⟩
  have hok : (lookupProgram.encodePred lookupPred (Env.ofFunction lookupFn)
      (lookupProgram.encodeAll lookupFn [.compare .eq (.read "a" (.const 0)) (.var "n")]
        Session.new)).1.isOk = true := by cbv
  cases hencode : lookupProgram.encodePred lookupPred (Env.ofFunction lookupFn)
      (lookupProgram.encodeAll lookupFn [.compare .eq (.read "a" (.const 0)) (.var "n")]
        Session.new) with
  | mk result s' =>
    cases result with
    | error e =>
      rw [hencode] at hok
      cases hok
    | ok t =>
      obtain ⟨⟨J, hJ⟩, hagrees⟩ := encodePred_agrees_eval hplain
        (hplain lookupFn (List.mem_cons_of_mem _ List.mem_cons_self)) hstate heval hencode
      refine ⟨t, s', J, heval, rfl, hJ, ?_⟩
      rw [Term.Holds, hagrees J hJ]
      rfl

end Contracts

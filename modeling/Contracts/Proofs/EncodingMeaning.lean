import Contracts.Proofs.EncodingGrowth

/-!
# What the terms of an encoding mean

A structure fits an interpretation of predicates if it gives called names and divisions the same
values (`Structure.Fits`), and it fits an array if the cells, the selector and the length of the
array are what the interpretation makes of it (`Structure.FitsArray`). Where the names of an
environment denote what a valuation says, the term of an expression has the value of the expression
and the term of a predicate its truth value (`eval_encodePred`).

References to formulas are unfolded: `Interpretation.expand` gives a reference the truth value of
the formula's body, so many levels deep. An encoding at some level means the same at every depth
that is not below the level.
-/

set_option autoImplicit false

namespace Contracts

open Smt

variable {α : Type}

/-! ## Formulas unfolded -/

/-- The valuation with parameters set to arguments, one after the other. -/
def Valuation.bindAll : List Param → List (Datum α) → Valuation α → Valuation α
  | x :: xs, d :: ds, ρ => bindAll xs ds (Function.update ρ x.name d)
  | _, _, ρ => ρ

/-- The truth of references to formulas, where bodies are unfolded `n` times. -/
noncomputable def Interpretation.expandFormula (p : Program) (M : Interpretation α) :
    Nat → String → List (Datum α) → Prop
  | 0 => M.formula
  | n + 1 => fun f args =>
    match p.formula? f with
    | some d => d.body.Holds { M with formula := expandFormula p M n }
        (Valuation.bindAll d.params args fun _ => .int 0)
    | none => M.formula f args

/-- The interpretation that unfolds references to formulas `n` times. -/
noncomputable def Interpretation.expand (p : Program) (M : Interpretation α) (n : Nat) :
    Interpretation α :=
  { M with formula := M.expandFormula p n }

theorem Interpretation.expand_formula {p : Program} (M : Interpretation α) {f : String}
    {d : FormulaDef} (h : p.formula? f = some d) (n : Nat) (args : List (Datum α)) :
    (M.expand p (n + 1)).formula f args ↔
      d.body.Holds (M.expand p n) (Valuation.bindAll d.params args fun _ => .int 0) := by
  simp only [expand, expandFormula, h]

/-! ## Structures that fit -/

/-- The structure reads divisions and called names as the interpretation does. -/
structure Smt.Structure.Fits (J : Structure) (M : Interpretation α) : Prop where
  ints : J.AllInts
  fn : ∀ (f : String) (ns : List Int),
    J.fn (fnSymbol f) (ns.map .int) = .int (M.fn f (ns.map .int))
  /-- Truncated division by zero is what comes of Euclidean division by zero. -/
  zeroQuot : ∀ a : Int, M.zeroQuot a = if 0 ≤ a then J.zeroQuot a else -J.zeroQuot (-a)

/-- The structure reads the symbols of an array as the interpretation reads the array. -/
structure Smt.Structure.FitsArray (J : Structure) (M : Interpretation α) (cells : List CellConst)
    (name : String) (a : α) : Prop where
  cell : ∀ c ∈ cells, c.array = name →
    J.const c.symbol = .int (M.cell a (c.index.eval J).toInt)
  select : ∀ i : Int, J.fn (name ++ "!sel") [.int i] = .int (M.cell a i)
  length : J.const (name ++ "!len") = .int (M.length a)

/-- The names of the environment denote what the valuation says. -/
structure Env.Denotes (M : Interpretation α) (J : Structure) (cells : List CellConst) (env : Env)
    (ρ : Valuation α) : Prop where
  scalar : ∀ x t, env.lookup? x = some (.scalar t) → ∃ n, t.eval J = .int n ∧ ρ x = .int n
  array : ∀ x name, env.lookup? x = some (.array name) →
    ∃ a, ρ x = .array a ∧ J.FitsArray M cells name a

section

variable {M : Interpretation α} {J : Structure} {cells cells' : List CellConst} {env : Env}
  {ρ : Valuation α}

theorem Env.Denotes.mono (h : env.Denotes M J cells ρ) (hsub : ∀ c ∈ cells', c ∈ cells) :
    env.Denotes M J cells' ρ := by
  refine ⟨h.scalar, fun x name hname => ?_⟩
  obtain ⟨a, ha, hfits⟩ := h.array x name hname
  exact ⟨a, ha, fun c hc => hfits.cell c (hsub c hc), hfits.select, hfits.length⟩

theorem Env.denotes_of_empty (h : env.meanings = []) : env.Denotes M J cells ρ := by
  constructor
  · intro x t ht
    rw [lookup?, h] at ht
    cases ht
  · intro x name hname
    rw [lookup?, h] at hname
    cases hname

theorem Env.Denotes.bind_scalar (h : env.Denotes M J cells ρ) (x : String) {t : Term} {n : Int}
    (ht : t.eval J = .int n) :
    (env.bind x (.scalar t)).Denotes M J cells (Function.update ρ x (.int n)) := by
  constructor
  · intro y u hu
    rw [lookup?_bind] at hu
    split at hu
    · next hyx =>
      cases hu
      exact ⟨n, ht, by rw [hyx, Function.update_self]⟩
    · next hyx =>
      rw [Function.update_of_ne hyx]
      exact h.scalar y u hu
  · intro y name hname
    rw [lookup?_bind] at hname
    split at hname
    · cases hname
    · next hyx =>
      rw [Function.update_of_ne hyx]
      exact h.array y name hname

theorem Env.Denotes.bind_array (h : env.Denotes M J cells ρ) (x : String) {name : String} {a : α}
    (ha : J.FitsArray M cells name a) :
    (env.bind x (.array name)).Denotes M J cells (Function.update ρ x (.array a)) := by
  constructor
  · intro y u hu
    rw [lookup?_bind] at hu
    split at hu
    · cases hu
    · next hyx =>
      rw [Function.update_of_ne hyx]
      exact h.scalar y u hu
  · intro y name' hname
    rw [lookup?_bind] at hname
    split at hname
    · next hyx =>
      cases hname
      exact ⟨a, by rw [hyx, Function.update_self], ha⟩
    · next hyx =>
      rw [Function.update_of_ne hyx]
      exact h.array y name' hname

/-! ## A new symbol changes nothing -/

theorem Smt.Term.Settled.eval_update {c : Nat} {t : Term} (ht : t.Settled c) (J : Structure)
    {symbol : String} (hnew : MadeAfter c symbol) (v : Val) :
    t.eval (J.update symbol v) = t.eval J :=
  Term.eval_congr (Structure.agreeOn_update J (fun hmem => ht _ hmem hnew) v)

theorem Smt.Structure.Fits.update (h : J.Fits M) (x : String) (n : Int) :
    (J.update x (.int n)).Fits M :=
  ⟨h.ints.update x n, h.fn, h.zeroQuot⟩

theorem Smt.Structure.FitsArray.update {name symbol : String} {a : α} {c : Nat}
    (h : J.FitsArray M cells name a) (hnew : MadeAfter c symbol)
    (hcells : ∀ d ∈ cells, d.symbol ≠ symbol ∧ symbol ∉ d.index.consts) (v : Val) :
    (J.update symbol v).FitsArray M cells name a := by
  refine ⟨fun d hd hname => ?_, h.select, ?_⟩
  · obtain ⟨hsymbol, hindex⟩ := hcells d hd
    rw [Structure.update_const_of_ne J hsymbol,
      Term.eval_congr (Structure.agreeOn_update J hindex v)]
    exact h.cell d hd hname
  · rw [Structure.update_const_of_ne J, h.length]
    intro heq
    rw [← heq] at hnew
    exact lengthSymbol_not_madeAfter name c hnew

/-- A quantified name denotes the number that its new symbol is given. -/
theorem Env.Denotes.bindBound {arrays : List String} {c : Nat} {symbol : String}
    (h : env.Denotes M J cells ρ) (henv : env.Settled arrays c) (hnew : MadeAfter c symbol)
    (hcells : ∀ d ∈ cells, d.symbol ≠ symbol ∧ symbol ∉ d.index.consts) (x : String) (n : Int) :
    (env.bindBound x symbol).Denotes M (J.update symbol (.int n)) cells
      (Function.update ρ x (.int n)) := by
  have hold : env.Denotes M (J.update symbol (.int n)) cells ρ := by
    constructor
    · intro y t ht
      rw [(henv.scalar y t ht).settled.eval_update J hnew]
      exact h.scalar y t ht
    · intro y name hname
      obtain ⟨a, ha, hfits⟩ := h.array y name hname
      exact ⟨a, ha, hfits.update hnew hcells _⟩
  have hsymbol : (Term.const symbol).eval (J.update symbol (.int n)) = .int n := by
    rw [Term.eval, Structure.update_const_self]
  obtain ⟨hscalar, harray⟩ := hold.bind_scalar x hsymbol
  exact ⟨hscalar, harray⟩

end

/-! ## Operations -/

section

variable {M : Interpretation α} {J : Structure}

/-- Division is Euclidean in a query and truncates in a program; the emitted term makes up for the
difference at negative dividends. -/
theorem eval_truncatedDiv
    (hquot : ∀ a, M.zeroQuot a = if 0 ≤ a then J.zeroQuot a else -J.zeroQuot (-a))
    {a b : Term} {m n : Int} (ha : a.eval J = .int m)
    (hb : b.eval J = .int n) : (truncatedDiv a b).eval J = .int (M.arith .div m n) := by
  unfold truncatedDiv
  simp only [Term.eval, ha, hb, BinOp.apply, Val.toInt_int, Val.truth_bool]
  by_cases hm : 0 ≤ m
  · rw [Val.select_of_true hm]
    by_cases hn : n = 0
    · rw [if_pos hn, Interpretation.arith, if_pos ⟨rfl, hn⟩, hquot, if_pos hm]
    · rw [if_neg hn, Interpretation.arith, if_neg fun h => hn h.2, ArithOp.onInt,
        Int.tdiv_eq_ediv_of_nonneg hm]
  · rw [Val.select_of_false hm]
    by_cases hn : n = 0
    · rw [if_pos hn, Interpretation.arith, if_pos ⟨rfl, hn⟩, hquot, if_neg hm]
    · have hneg : 0 ≤ -m := by omega
      rw [if_neg hn, Interpretation.arith, if_neg fun h => hn h.2, ArithOp.onInt,
        ← Int.tdiv_eq_ediv_of_nonneg hneg, Int.neg_tdiv, Int.neg_neg]

theorem eval_arithTerm
    (hquot : ∀ a, M.zeroQuot a = if 0 ≤ a then J.zeroQuot a else -J.zeroQuot (-a))
    (op : ArithOp) {a b : Term} {m n : Int}
    (ha : a.eval J = .int m) (hb : b.eval J = .int n) :
    (arithTerm op a b).eval J = .int (M.arith op m n) := by
  cases op with
  | div => exact eval_truncatedDiv hquot ha hb
  | add | sub | mul =>
    rw [arithTerm, Term.eval, ha, hb, Interpretation.arith, if_neg (by rintro ⟨⟨⟩, -⟩)]
    rfl

theorem eval_cmpTerm (op : CmpOp) {a b : Term} {m n : Int} (ha : a.eval J = .int m)
    (hb : b.eval J = .int n) : (cmpTerm op a b).eval J = .bool (op.holds m n = true) := by
  cases op <;> simp [cmpTerm, Term.eq, Term.eval, ha, hb, BinOp.apply, CmpOp.holds]

end

/-! ## Expressions and predicates -/

/-- What the encoding at a level relies on from the level below it: bodies of formulas mean what
they should at every depth from there on. -/
def Resolver.Means (p : Program) (M : Interpretation α) (n : Nat) (r : Resolver) : Prop :=
  ∀ arrays d env s t s', s.WellFormed (fun _ => True) → env.Settled arrays s.counter →
    r.body d env s = (.ok t, s') → 0 < n ∧ ∀ m, n ≤ m + 1 → ∀ J ρ, J.Fits M →
      env.Denotes M J s'.scope.cells ρ → t.eval J = .bool (d.body.Holds (M.expand p m) ρ)

theorem varTerm_eq_ok {env : Env} {x : String} {t : Term} {s s' : Session}
    (h : varTerm env x s = (.ok t, s')) : s' = s ∧ env.lookup? x = some (.scalar t) := by
  unfold varTerm at h
  cases hlookup : env.lookup? x with
  | none =>
    rw [hlookup] at h
    cases h
  | some meaning =>
    rw [hlookup] at h
    cases meaning with
    | scalar u =>
      cases h
      exact ⟨rfl, rfl⟩
    | array name => cases h

theorem arrayName_eq_ok {env : Env} {a name : String} {s s' : Session}
    (h : arrayName env a s = (.ok name, s')) : s' = s ∧ env.lookup? a = some (.array name) := by
  unfold arrayName at h
  cases hlookup : env.lookup? a with
  | none =>
    rw [hlookup] at h
    cases h
  | some meaning =>
    rw [hlookup] at h
    cases meaning with
    | scalar u => cases h
    | array name =>
      cases h
      exact ⟨rfl, rfl⟩

theorem arrayArgument_eq_ok {env : Env} {formula : String} {x : Param} {e : Expr} {m : Meaning}
    {s s' : Session} (h : arrayArgument env formula x e s = (.ok m, s')) :
    s' = s ∧ ∃ a name, e = .var a ∧ m = .array name ∧ env.lookup? a = some (.array name) := by
  cases e with
  | var a =>
    unfold arrayArgument at h
    dsimp only at h
    cases hlookup : env.lookup? a with
    | none =>
      rw [hlookup] at h
      cases h
    | some meaning =>
      rw [hlookup] at h
      cases meaning with
      | scalar u => cases h
      | array name =>
        cases h
        exact ⟨rfl, a, name, rfl, rfl, hlookup⟩
  | _ => cases h

section

variable {p : Program} {M : Interpretation α} {r : Resolver} {n m : Nat} {arrays : List String}

/-- Both ways to read a cell agree. -/
theorem cellTerm_eval {J : Structure} {env : Env} {array : String} {index t : Term} {a : α}
    {i : Int} {s s' : Session} (hrun : cellTerm env array index s = (.ok t, s'))
    (hfits : J.FitsArray M s'.scope.cells array a)
    (hindex : index.eval J = .int i) : t.eval J = .int (M.cell a i) := by
  unfold cellTerm at hrun
  split at hrun
  · obtain ⟨f, s₁, hselector, hpure⟩ := EncodeM.bind_eq_ok.mp hrun
    obtain ⟨rfl, -⟩ := EncodeM.pure_eq_ok.mp hpure
    rw [Term.eval, Term.evals, Term.evals, hindex, selectorSymbol_eq_ok hselector]
    exact hfits.select i
  · obtain ⟨symbol, s₁, hcell, hpure⟩ := EncodeM.bind_eq_ok.mp hrun
    obtain ⟨rfl, rfl⟩ := EncodeM.pure_eq_ok.mp hpure
    have hmem := mem_cells_of_cellSymbol hcell
    rw [Term.eval, hfits.cell _ hmem rfl, hindex, Val.toInt_int]

end

section

variable {p : Program} {M : Interpretation α} {r : Resolver} {n m : Nat} {arrays : List String}

/-- What a successful encoding of an expression does to the session. -/
theorem encodeExpr_grows (hr : r.Keeps p fun _ => True) {e : Expr} {env : Env} {s s' : Session}
    {t : Term} (hs : s.WellFormed fun _ => True) (henv : env.Settled arrays s.counter)
    (hrun : encodeExpr p r e env s = (.ok t, s')) :
    s'.WellFormed (fun _ => True) ∧ s.Grows arrays env.bound s' ∧ t.Numeric s'.counter := by
  obtain ⟨hs', hgrows, ht⟩ := keeps_encodeExpr admitsBasics_true hr e henv s _ s' hrun
    hs (Nat.le_refl _)
  exact ⟨hs', hgrows, ht t rfl⟩

theorem encodePred_grows (hr : r.Keeps p fun _ => True) {q : Pred} {env : Env} {s s' : Session}
    {t : Term} (hs : s.WellFormed fun _ => True) (henv : env.Settled arrays s.counter)
    (hrun : encodePred p r q env s = (.ok t, s')) :
    s'.WellFormed (fun _ => True) ∧ s.Grows arrays env.bound s' := by
  obtain ⟨hs', hgrows, -⟩ := keeps_encodePred admitsBasics_true hr q henv s _ s' hrun hs
    (Nat.le_refl _)
  exact ⟨hs', hgrows⟩

/-- An argument that has a term is passed as a number. -/
theorem datum_of_encodeExpr {N : Interpretation α} {e : Expr} {env : Env} {s s' : Session}
    {t : Term} {J : Structure} {cells : List CellConst} {ρ : Valuation α}
    (hrun : encodeExpr p r e env s = (.ok t, s')) (hρ : env.Denotes M J cells ρ) :
    e.datum ρ (e.value N ρ) = .int (e.value N ρ) := by
  refine Expr.datum_eq_int ?_
  rintro x rfl
  rw [encodeExpr] at hrun
  obtain ⟨-, hlookup⟩ := varTerm_eq_ok hrun
  obtain ⟨k, -, hk⟩ := hρ.scalar x t hlookup
  rw [hk]
  rfl

theorem encodeArgs_grows (hr : r.Keeps p fun _ => True) {es : List Expr} {env : Env}
    {s s' : Session} {ts : List Term} (hs : s.WellFormed fun _ => True)
    (henv : env.Settled arrays s.counter) (hrun : encodeArgs p r es env s = (.ok ts, s')) :
    s'.WellFormed (fun _ => True) ∧ s.Grows arrays env.bound s' ∧
      (∀ t ∈ ts, t.Numeric s'.counter) ∧ ts.length = es.length := by
  obtain ⟨hs', hgrows, hts⟩ := keeps_encodeArgs admitsBasics_true hr es henv s _ s' hrun
    hs (Nat.le_refl _)
  exact ⟨hs', hgrows, hts ts rfl⟩

theorem declareFun_grows {name : String} {arity : Nat} {s s' : Session}
    (hs : s.WellFormed fun _ => True) (hrun : declareFun name arity s = (.ok (), s')) :
    s'.WellFormed (fun _ => True) ∧ s.Grows [] [] s' := by
  obtain ⟨hs', hgrows, -⟩ := keeps_declareFun admitsBasics_true name arity
    s _ s' hrun hs (Nat.le_refl _)
  exact ⟨hs', hgrows⟩

/-- The application of the function of a called name is the call. -/
theorem eval_app {J : Structure} (hJ : J.Fits M) {f : String} {args : List Expr} {ts : List Term}
    {ρ : Valuation α} (h : ∃ ns : List Int, Term.evals ts J = ns.map .int ∧
      Expr.data (M.expand p m) args ρ = ns.map .int) :
    (Term.app (fnSymbol f) ts).eval J = .int ((Expr.call f args).value (M.expand p m) ρ) := by
  obtain ⟨ns, hts, hns⟩ := h
  rw [Term.eval, hts, hJ.fn, Expr.value, hns, Interpretation.call_ints]
  rfl

mutual

theorem eval_encodeExpr (hr : r.Keeps p fun _ => True) (hmeans : r.Means p M n) (hm : n ≤ m) :
    ∀ (e : Expr) {env : Env} {s s' : Session} {t : Term} {J : Structure} {ρ : Valuation α},
      s.WellFormed (fun _ => True) → env.Settled arrays s.counter →
      encodeExpr p r e env s = (.ok t, s') → J.Fits M → env.Denotes M J s'.scope.cells ρ →
      t.eval J = .int (e.value (M.expand p m) ρ)
  | .const k, _, _, _, _, _, _, _, _, hrun, _, _ => by
    rw [encodeExpr] at hrun
    obtain ⟨rfl, -⟩ := EncodeM.pure_eq_ok.mp hrun
    rw [Term.eval, Expr.value]
  | .var x, _, _, _, _, _, _, _, _, hrun, _, hρ => by
    rw [encodeExpr] at hrun
    obtain ⟨-, hlookup⟩ := varTerm_eq_ok hrun
    obtain ⟨k, ht, hk⟩ := hρ.scalar x _ hlookup
    rw [ht, Expr.value, hk, Datum.toInt_int]
  | .neg e, _, _, _, _, _, _, hs, henv, hrun, hJ, hρ => by
    rw [encodeExpr] at hrun
    obtain ⟨u, s₁, hu, hrest₁⟩ := EncodeM.bind_eq_ok.mp hrun
    obtain ⟨rfl, rfl⟩ := EncodeM.pure_eq_ok.mp hrest₁
    rw [Term.eval, eval_encodeExpr hr hmeans hm e hs henv hu hJ hρ, Expr.value, Val.toInt_int]
  | .binary op a b, _, _, _, _, _, _, hs, henv, hrun, hJ, hρ => by
    rw [encodeExpr] at hrun
    obtain ⟨u, s₁, hu, hrest₁⟩ := EncodeM.bind_eq_ok.mp hrun
    obtain ⟨v, s₂, hv, hrest₂⟩ := EncodeM.bind_eq_ok.mp hrest₁
    obtain ⟨rfl, rfl⟩ := EncodeM.pure_eq_ok.mp hrest₂
    obtain ⟨hs₁, hgrows₁, -⟩ := encodeExpr_grows hr hs henv hu
    obtain ⟨-, hgrows₂, -⟩ := encodeExpr_grows hr hs₁ (henv.mono hgrows₁.counter) hv
    have ha := eval_encodeExpr hr hmeans hm a hs henv hu hJ
      (hρ.mono fun c hc => hgrows₂.mem_cells hc)
    have hb := eval_encodeExpr hr hmeans hm b hs₁ (henv.mono hgrows₁.counter) hv hJ hρ
    rw [eval_arithTerm hJ.zeroQuot op ha hb, Expr.value]
    rfl
  | .read a i, _, _, _, _, _, _, hs, henv, hrun, hJ, hρ => by
    rw [encodeExpr] at hrun
    obtain ⟨name, s₁, hname, hrest₁⟩ := EncodeM.bind_eq_ok.mp hrun
    obtain ⟨rfl, hlookup⟩ := arrayName_eq_ok hname
    obtain ⟨u, s₂, hu, hrest₂⟩ := EncodeM.bind_eq_ok.mp hrest₁
    obtain ⟨hs₂, hgrows₂, hnumeric⟩ := encodeExpr_grows hr hs henv hu
    obtain ⟨-, hgrows₃, -⟩ := keeps_cellTerm admitsBasics_true
      (henv.array a name hlookup) hnumeric s₂ _ _ hrest₂ hs₂ (Nat.le_refl _)
    have hi := eval_encodeExpr hr hmeans hm i hs henv hu hJ
      (hρ.mono fun c hc => hgrows₃.mem_cells hc)
    obtain ⟨arr, harr, hfits⟩ := hρ.array a name hlookup
    rw [cellTerm_eval hrest₂ hfits hi, Expr.value, harr]
    rfl
  | .call f args, env, s, s', t, J, ρ, hs, henv, hrun, hJ, hρ => by
    rw [encodeExpr] at hrun
    cases hlength : lengthOf? env f args with
    | some array =>
      rw [hlength] at hrun
      obtain ⟨symbol, s₁, hsymbol, hrest⟩ := EncodeM.bind_eq_ok.mp hrun
      obtain ⟨rfl, rfl⟩ := EncodeM.pure_eq_ok.mp hrest
      obtain ⟨a, rfl, rfl, hlookup⟩ := lengthOf?_eq_some hlength
      obtain ⟨arr, harr, hfits⟩ := hρ.array a array hlookup
      rw [Term.eval, lengthSymbol_eq_ok hsymbol, hfits.length, Expr.value, Expr.data, Expr.data,
        Expr.datum, harr]
      rfl
    | none =>
      rw [hlength] at hrun
      cases hfind : p.function? f with
      | none =>
        rw [hfind] at hrun
        obtain ⟨ts, s₁, hts, hrest₁⟩ := EncodeM.bind_eq_ok.mp hrun
        obtain ⟨_, s₂, hdeclare, hrest₂⟩ := EncodeM.bind_eq_ok.mp hrest₁
        obtain ⟨rfl, rfl⟩ := EncodeM.pure_eq_ok.mp hrest₂
        obtain ⟨hs₁, hgrows₁, -⟩ := encodeArgs_grows hr hs henv hts
        have hgrows₂ := declareFun_grows hs₁ hdeclare
        exact eval_app hJ (evals_encodeArgs hr hmeans hm args hs henv hts hJ
          (hρ.mono fun c hc => hgrows₂.2.mem_cells hc))
      | some g =>
        rw [hfind] at hrun
        obtain ⟨_, s₁, hcheck, hrest₁⟩ := EncodeM.bind_eq_ok.mp hrun
        obtain ⟨rfl, hcount, hscalars, hsingle⟩ := checkCall_eq_ok hcheck
        obtain ⟨ts, s₂, hts, hrest₂⟩ := EncodeM.bind_eq_ok.mp hrest₁
        obtain ⟨_, s₃, hdeclare, hrest₃⟩ := EncodeM.bind_eq_ok.mp hrest₂
        obtain ⟨_, s₄, hcontract, hrest₄⟩ := EncodeM.bind_eq_ok.mp hrest₃
        obtain ⟨rfl, rfl⟩ := EncodeM.pure_eq_ok.mp hrest₄
        obtain ⟨hs₂, hgrows₂, hargs⟩ := encodeArgs_grows hr hs henv hts
        obtain ⟨hs₃, hgrows₃⟩ := declareFun_grows hs₂ hdeclare
        have hname : g.name = f := (Program.mem_of_function? hfind).2
        -- what the contract adds to the session does not matter for the term
        obtain ⟨-, hgrows₄, -⟩ := hr.contract g ts env.bound s₃.counter
          ⟨by rw [hname, hfind], hscalars, hsingle⟩ (by rw [hcount, hargs.2])
          (fun u hu => (hargs.1 u hu).mono hgrows₃.counter) s₃ _ _ hcontract hs₃ (Nat.le_refl _)
        exact eval_app hJ (evals_encodeArgs hr hmeans hm args hs henv hts hJ
          (hρ.mono fun c hc => hgrows₄.mem_cells (hgrows₃.mem_cells hc)))
  | .cond q a b, _, _, _, _, _, _, hs, henv, hrun, hJ, hρ => by
    rw [encodeExpr] at hrun
    obtain ⟨u, s₁, hu, hrest₁⟩ := EncodeM.bind_eq_ok.mp hrun
    obtain ⟨v, s₂, hv, hrest₂⟩ := EncodeM.bind_eq_ok.mp hrest₁
    obtain ⟨w, s₃, hw, hrest₃⟩ := EncodeM.bind_eq_ok.mp hrest₂
    obtain ⟨rfl, rfl⟩ := EncodeM.pure_eq_ok.mp hrest₃
    obtain ⟨hs₁, hgrows₁⟩ := encodePred_grows hr hs henv hu
    have henv₁ := henv.mono hgrows₁.counter
    obtain ⟨hs₂, hgrows₂, -⟩ := encodeExpr_grows hr hs₁ henv₁ hv
    have henv₂ := henv₁.mono hgrows₂.counter
    obtain ⟨-, hgrows₃, -⟩ := encodeExpr_grows hr hs₂ henv₂ hw
    have hρ₂ := hρ.mono fun c hc => hgrows₃.mem_cells hc
    have hq := eval_encodePred hr hmeans hm q hs henv hu hJ
      (hρ₂.mono fun c hc => hgrows₂.mem_cells hc)
    have ha := eval_encodeExpr hr hmeans hm a hs₁ henv₁ hv hJ hρ₂
    have hb := eval_encodeExpr hr hmeans hm b hs₂ henv₂ hw hJ hρ
    rw [Term.eval, hq, ha, hb, Val.select_int, Expr.value]
    rfl

theorem evals_encodeArgs (hr : r.Keeps p fun _ => True) (hmeans : r.Means p M n) (hm : n ≤ m) :
    ∀ (es : List Expr) {env : Env} {s s' : Session} {ts : List Term} {J : Structure}
      {ρ : Valuation α}, s.WellFormed (fun _ => True) → env.Settled arrays s.counter →
      encodeArgs p r es env s = (.ok ts, s') → J.Fits M → env.Denotes M J s'.scope.cells ρ →
      ∃ ns : List Int, Term.evals ts J = ns.map .int ∧
        Expr.data (M.expand p m) es ρ = ns.map .int
  | [], _, _, _, _, _, _, _, _, hrun, _, _ => by
    rw [encodeArgs] at hrun
    obtain ⟨rfl, -⟩ := EncodeM.pure_eq_ok.mp hrun
    exact ⟨[], by rw [Term.evals, List.map_nil], by rw [Expr.data, List.map_nil]⟩
  | e :: es, _, _, _, _, _, ρ, hs, henv, hrun, hJ, hρ => by
    rw [encodeArgs] at hrun
    obtain ⟨u, s₁, hu, hrest₁⟩ := EncodeM.bind_eq_ok.mp hrun
    obtain ⟨us, s₂, hus, hrest₂⟩ := EncodeM.bind_eq_ok.mp hrest₁
    obtain ⟨rfl, rfl⟩ := EncodeM.pure_eq_ok.mp hrest₂
    obtain ⟨hs₁, hgrows₁, -⟩ := encodeExpr_grows hr hs henv hu
    have henv₁ := henv.mono hgrows₁.counter
    obtain ⟨-, hgrows₂, -⟩ := encodeArgs_grows hr hs₁ henv₁ hus
    have he := eval_encodeExpr hr hmeans hm e hs henv hu hJ
      (hρ.mono fun c hc => hgrows₂.mem_cells hc)
    obtain ⟨ns, hts, hns⟩ := evals_encodeArgs hr hmeans hm es hs₁ henv₁ hus hJ hρ
    refine ⟨e.value (M.expand p m) ρ :: ns, ?_, ?_⟩
    · rw [Term.evals, he, hts, List.map_cons]
    · rw [Expr.data, datum_of_encodeExpr hu hρ, hns, List.map_cons]

theorem denotes_bindArgs (hr : r.Keeps p fun _ => True) (hmeans : r.Means p M n) (hm : n ≤ m)
    (formula : String) :
    ∀ (es : List Expr) (xs : List Param) {env inner env' : Env} {s s' : Session} {J : Structure}
      {cells : List CellConst} {ρ σ : Valuation α}, s.WellFormed (fun _ => True) →
      env.Settled arrays s.counter → inner.Settled arrays s.counter →
      bindArgs p r formula es xs env inner s = (.ok env', s') →
      (∀ c ∈ s'.scope.cells, c ∈ cells) → J.Fits M → env.Denotes M J cells ρ →
      inner.Denotes M J cells σ →
      env'.Denotes M J cells (Valuation.bindAll xs (Expr.data (M.expand p m) es ρ) σ)
  | [], xs, _, _, _, _, _, _, _, _, _, _, _, _, hrun, _, _, _, hσ => by
    rw [bindArgs] at hrun
    · obtain ⟨rfl, rfl⟩ := EncodeM.pure_eq_ok.mp hrun
      rw [Expr.data]
      cases xs <;> exact hσ
    · intro _ _ _ _ h
      cases h
  | _ :: _, [], _, _, _, _, _, _, _, _, _, _, _, _, hrun, _, _, _, hσ => by
    rw [bindArgs] at hrun
    · obtain ⟨rfl, rfl⟩ := EncodeM.pure_eq_ok.mp hrun
      exact hσ
    · intro _ _ _ _ _ h
      cases h
  | e :: es, x :: xs, env, inner, env', s, s', J, cells, ρ, σ, hs, henv, hinner, hrun, hsub, hJ,
      hρ, hσ => by
    rw [bindArgs] at hrun
    rw [Expr.data, Valuation.bindAll]
    cases htype : x.type with
    | int =>
      rw [htype] at hrun
      obtain ⟨_, s₁, hscalar, hrest⟩ := EncodeM.bind_eq_ok.mp hrun
      obtain ⟨u, hu, rfl⟩ := EncodeM.map_eq_ok.mp hscalar
      obtain ⟨hs₁, hgrows₁, hnumeric⟩ := encodeExpr_grows hr hs henv hu
      have henv₁ := henv.mono hgrows₁.counter
      have hinner₁ := (hinner.mono hgrows₁.counter).bind_scalar x.name hnumeric
      obtain ⟨-, hgrows₂, -⟩ := keeps_bindArgs admitsBasics_true hr formula es xs henv₁
        hinner₁ s₁ _ _ hrest hs₁ (Nat.le_refl _)
      -- the final session has all cells that the argument was encoded with
      have he := eval_encodeExpr hr hmeans hm e hs henv hu hJ
        (hρ.mono fun c hc => hsub c (hgrows₂.mem_cells hc))
      rw [datum_of_encodeExpr hu hρ]
      exact denotes_bindArgs hr hmeans hm formula es xs hs₁ henv₁ hinner₁ hrest hsub hJ hρ
        (hσ.bind_scalar x.name he)
    | array =>
      rw [htype] at hrun
      obtain ⟨_, s₁, hargument, hrest⟩ := EncodeM.bind_eq_ok.mp hrun
      obtain ⟨rfl, a, name, rfl, rfl, hlookup⟩ := arrayArgument_eq_ok hargument
      have hinner₁ := hinner.bind_array x.name (henv.array a name hlookup)
      obtain ⟨arr, harr, hfits⟩ := hρ.array a name hlookup
      rw [Expr.datum, harr]
      exact denotes_bindArgs hr hmeans hm formula es xs hs henv hinner₁ hrest hsub hJ hρ
        (hσ.bind_array x.name hfits)

theorem eval_encodePred (hr : r.Keeps p fun _ => True) (hmeans : r.Means p M n) (hm : n ≤ m) :
    ∀ (q : Pred) {env : Env} {s s' : Session} {t : Term} {J : Structure} {ρ : Valuation α},
      s.WellFormed (fun _ => True) → env.Settled arrays s.counter →
      encodePred p r q env s = (.ok t, s') → J.Fits M → env.Denotes M J s'.scope.cells ρ →
      t.eval J = .bool (q.Holds (M.expand p m) ρ)
  | .bool k, _, _, _, _, _, _, _, _, hrun, _, _ => by
    rw [encodePred] at hrun
    obtain ⟨rfl, -⟩ := EncodeM.pure_eq_ok.mp hrun
    rw [Term.eval, Pred.Holds]
  | .compare op a b, _, _, _, _, _, _, hs, henv, hrun, hJ, hρ => by
    rw [encodePred] at hrun
    obtain ⟨u, s₁, hu, hrest₁⟩ := EncodeM.bind_eq_ok.mp hrun
    obtain ⟨v, s₂, hv, hrest₂⟩ := EncodeM.bind_eq_ok.mp hrest₁
    obtain ⟨rfl, rfl⟩ := EncodeM.pure_eq_ok.mp hrest₂
    obtain ⟨hs₁, hgrows₁, -⟩ := encodeExpr_grows hr hs henv hu
    have henv₁ := henv.mono hgrows₁.counter
    obtain ⟨-, hgrows₂, -⟩ := encodeExpr_grows hr hs₁ henv₁ hv
    have ha := eval_encodeExpr hr hmeans hm a hs henv hu hJ
      (hρ.mono fun c hc => hgrows₂.mem_cells hc)
    have hb := eval_encodeExpr hr hmeans hm b hs₁ henv₁ hv hJ hρ
    rw [eval_cmpTerm op ha hb, Pred.Holds]
  | .not q, _, _, _, _, _, _, hs, henv, hrun, hJ, hρ => by
    rw [encodePred] at hrun
    obtain ⟨u, s₁, hu, hrest⟩ := EncodeM.bind_eq_ok.mp hrun
    obtain ⟨rfl, rfl⟩ := EncodeM.pure_eq_ok.mp hrest
    rw [Term.eval, eval_encodePred hr hmeans hm q hs henv hu hJ hρ, Pred.Holds]
    rfl
  | .and a b, _, _, _, _, _, _, hs, henv, hrun, hJ, hρ => by
    rw [encodePred] at hrun
    obtain ⟨u, s₁, hu, hrest₁⟩ := EncodeM.bind_eq_ok.mp hrun
    obtain ⟨v, s₂, hv, hrest₂⟩ := EncodeM.bind_eq_ok.mp hrest₁
    obtain ⟨rfl, rfl⟩ := EncodeM.pure_eq_ok.mp hrest₂
    obtain ⟨hs₁, hgrows₁⟩ := encodePred_grows hr hs henv hu
    have henv₁ := henv.mono hgrows₁.counter
    obtain ⟨-, hgrows₂⟩ := encodePred_grows hr hs₁ henv₁ hv
    have ha := eval_encodePred hr hmeans hm a hs henv hu hJ
      (hρ.mono fun c hc => hgrows₂.mem_cells hc)
    have hb := eval_encodePred hr hmeans hm b hs₁ henv₁ hv hJ hρ
    rw [Term.eval_and, ha, hb, Pred.Holds]
    rfl
  | .or a b, _, _, _, _, _, _, hs, henv, hrun, hJ, hρ => by
    rw [encodePred] at hrun
    obtain ⟨u, s₁, hu, hrest₁⟩ := EncodeM.bind_eq_ok.mp hrun
    obtain ⟨v, s₂, hv, hrest₂⟩ := EncodeM.bind_eq_ok.mp hrest₁
    obtain ⟨rfl, rfl⟩ := EncodeM.pure_eq_ok.mp hrest₂
    obtain ⟨hs₁, hgrows₁⟩ := encodePred_grows hr hs henv hu
    have henv₁ := henv.mono hgrows₁.counter
    obtain ⟨-, hgrows₂⟩ := encodePred_grows hr hs₁ henv₁ hv
    have ha := eval_encodePred hr hmeans hm a hs henv hu hJ
      (hρ.mono fun c hc => hgrows₂.mem_cells hc)
    have hb := eval_encodePred hr hmeans hm b hs₁ henv₁ hv hJ hρ
    rw [Term.eval_or, ha, hb, Pred.Holds]
    rfl
  | .implies a b, _, _, _, _, _, _, hs, henv, hrun, hJ, hρ => by
    rw [encodePred] at hrun
    obtain ⟨u, s₁, hu, hrest₁⟩ := EncodeM.bind_eq_ok.mp hrun
    obtain ⟨v, s₂, hv, hrest₂⟩ := EncodeM.bind_eq_ok.mp hrest₁
    obtain ⟨rfl, rfl⟩ := EncodeM.pure_eq_ok.mp hrest₂
    obtain ⟨hs₁, hgrows₁⟩ := encodePred_grows hr hs henv hu
    have henv₁ := henv.mono hgrows₁.counter
    obtain ⟨-, hgrows₂⟩ := encodePred_grows hr hs₁ henv₁ hv
    have ha := eval_encodePred hr hmeans hm a hs henv hu hJ
      (hρ.mono fun c hc => hgrows₂.mem_cells hc)
    have hb := eval_encodePred hr hmeans hm b hs₁ henv₁ hv hJ hρ
    rw [Term.eval_implies, ha, hb, Pred.Holds]
    rfl
  | .paren q, _, _, _, _, _, _, hs, henv, hrun, hJ, hρ => by
    rw [encodePred] at hrun
    rw [eval_encodePred hr hmeans hm q hs henv hrun hJ hρ, Pred.Holds]
  | .quantified k x q, env, s, s', _, J, ρ, hs, henv, hrun, hJ, hρ => by
    rw [encodePred] at hrun
    obtain ⟨-, hrun₁⟩ := EncodeM.guard_eq_ok.mp hrun
    obtain ⟨symbol, s₁, hfresh, hrest₁⟩ := EncodeM.bind_eq_ok.mp hrun₁
    rw [freshSymbol_run] at hfresh
    cases hfresh
    obtain ⟨u, s₂, hu, hrest₂⟩ := EncodeM.bind_eq_ok.mp hrest₁
    obtain ⟨rfl, rfl⟩ := EncodeM.pure_eq_ok.mp hrest₂
    have hnew : MadeAfter s.counter (numberedSymbol x.name (s.counter + 1)) :=
      madeAfter_numberedSymbol.mpr (Nat.lt_succ_self _)
    have hmade : ¬MadeAfter (s.counter + 1) (numberedSymbol x.name (s.counter + 1)) := fun h =>
      Nat.lt_irrefl _ (madeAfter_numberedSymbol.mp h)
    have henv₁ := (henv.mono (Nat.le_succ _)).bindBound x.name hmade
    obtain ⟨-, hgrows⟩ := encodePred_grows hr hs.count henv₁ hu
    -- the new symbol is that of no cell and occurs in no index
    have hcells : ∀ d ∈ s₂.scope.cells, d.symbol ≠ numberedSymbol x.name (s.counter + 1) ∧
        numberedSymbol x.name (s.counter + 1) ∉ d.index.consts := by
      intro d hd
      rcases hgrows.mem_cells_cases hd with hold | ⟨-, hbound, hlater⟩
      · have hnumbered := hs.cells d hold
        constructor
        · intro heq
          rw [← heq] at hnew
          exact hnumbered.symbol_not_madeAfter hnew
        · intro hmem
          exact hnumbered.index_numeric.settled _ hmem hnew
      · refine ⟨fun heq => ?_, hbound _ List.mem_cons_self⟩
        rw [heq] at hlater
        exact hmade hlater
    rw [Term.eval, propext (Pred.holds_quantified k x q ρ), propext (Structure.quantified_int ..)]
    have hbody : ∀ i : Int,
        (u.eval (J.update (numberedSymbol x.name (s.counter + 1)) (.int i))).truth ↔
          q.Holds (M.expand p m) (Function.update ρ x.name (.int i)) := by
      intro i
      rw [eval_encodePred hr hmeans hm q hs.count henv₁ hu (hJ.update _ i)
        (hρ.bindBound henv hnew hcells x.name i)]
      exact Val.truth_bool _
    rw [propext (k.holds_congr hbody)]
  | .formula f args, env, s, s', t, J, ρ, hs, henv, hrun, hJ, hρ => by
    rw [encodePred] at hrun
    obtain ⟨d, s₁, hformula, hrest₁⟩ := EncodeM.bind_eq_ok.mp hrun
    obtain ⟨rfl, hfind, -⟩ := referredFormula_eq_ok hformula
    obtain ⟨inner, s₂, hinner, hbody⟩ := EncodeM.bind_eq_ok.mp hrest₁
    obtain ⟨hs₂, -, hsettled⟩ := keeps_bindArgs admitsBasics_true hr f args d.params henv
      (Env.settled_of_empty rfl) _ _ _ hinner hs (Nat.le_refl _)
    obtain ⟨hinner₂, -⟩ := hsettled inner rfl
    obtain ⟨-, hgrows₃, -⟩ := hr.body arrays d inner _ hinner₂ s₂ _ _ hbody hs₂ (Nat.le_refl _)
    have hdenotes : inner.Denotes M J s'.scope.cells (Valuation.bindAll d.params
        (Expr.data (M.expand p m) args ρ) fun _ => .int 0) :=
      denotes_bindArgs hr hmeans hm f args d.params hs henv (Env.settled_of_empty rfl) hinner
        (fun c hc => hgrows₃.mem_cells hc) hJ hρ (Env.denotes_of_empty rfl)
    obtain ⟨hpos, hmeaning⟩ := hmeans arrays d inner s₂ t s' hs₂ hinner₂ hbody
    have hexpand := M.expand_formula hfind (m - 1) (Expr.data (M.expand p m) args ρ)
    rw [Nat.sub_add_cancel (by omega)] at hexpand
    rw [Pred.Holds, propext hexpand]
    exact hmeaning (m - 1) (by omega) J _ hJ hdenotes

end

end

/-! ## All levels -/

theorem resolver_means {p : Program} (hp : p.PlainNames) (M : Interpretation α) (n : Nat)
    (expanding : List String) : (resolver p n expanding).Means p M n := by
  induction n generalizing expanding with
  | zero =>
    intro arrays d env s t s' hs henv hrun
    cases hrun
  | succ n ih =>
    intro arrays d env s t s' hs henv hrun
    refine ⟨Nat.succ_pos n, fun m hm J ρ hJ hρ => ?_⟩
    exact eval_encodePred (resolver_keeps hp (p.admits_true n) (Nat.le_refl n) _) (ih _)
      (Nat.le_of_succ_le_succ hm) d.body hs henv hrun hJ hρ

end Contracts

import Contracts.Proofs.SessionGrowth

/-!
# What an encoding does to its session

The encoding of an expression or a predicate, of the contract of a function and of the body of a
formula keeps the session well-formed, and gives terms without symbols that are made later. The
induction is on the syntax at one level of contracts and formulas, under what `Resolver.Keeps` says
of the level below, and then on the levels.

Which assertions may be added is a parameter `V`: `Program.Admits` lists what `V` has to hold of,
namely the bounds on lengths, the instances of contracts and their universal closures.
-/

set_option autoImplicit false

namespace Contracts

open Smt

/-! ## Environments -/

namespace Env

theorem lookup?_bind (env : Env) (x y : String) (m : Meaning) :
    (env.bind y m).lookup? x = if x = y then some m else env.lookup? x := by
  unfold lookup? bind
  rw [List.lookup_cons]
  by_cases h : x = y
  · rw [if_pos h, beq_iff_eq.mpr h]
  · rw [if_neg h, beq_false_of_ne h]

/-- The scalars of the environment are settled integers, its arrays are among the given ones. -/
structure Settled (arrays : List String) (c : Nat) (env : Env) : Prop where
  scalar : ∀ x t, env.lookup? x = some (.scalar t) → t.Numeric c
  array : ∀ x a, env.lookup? x = some (.array a) → a ∈ arrays

variable {arrays : List String} {c : Nat} {env : Env}

theorem Settled.mono {c' : Nat} (h : env.Settled arrays c) (hc : c ≤ c') :
    env.Settled arrays c' :=
  ⟨fun x t ht => (h.scalar x t ht).mono hc, h.array⟩

theorem settled_of_empty (h : env.meanings = []) : env.Settled arrays c := by
  constructor
  · intro x t ht
    rw [lookup?, h] at ht
    cases ht
  · intro x a ha
    rw [lookup?, h] at ha
    cases ha

theorem Settled.bind_scalar (h : env.Settled arrays c) (x : String) {t : Term}
    (ht : t.Numeric c) : (env.bind x (.scalar t)).Settled arrays c := by
  constructor
  · intro y u hu
    rw [lookup?_bind] at hu
    split at hu
    · cases hu
      exact ht
    · exact h.scalar y u hu
  · intro y a ha
    rw [lookup?_bind] at ha
    split at ha
    · cases ha
    · exact h.array y a ha

theorem Settled.bind_array (h : env.Settled arrays c) (x : String) {a : String}
    (ha : a ∈ arrays) : (env.bind x (.array a)).Settled arrays c := by
  constructor
  · intro y u hu
    rw [lookup?_bind] at hu
    split at hu
    · cases hu
    · exact h.scalar y u hu
  · intro y b hb
    rw [lookup?_bind] at hb
    split at hb
    · cases hb
      exact ha
    · exact h.array y b hb

theorem Settled.bindBound (h : env.Settled arrays c) (x : String) {symbol : String}
    (hsymbol : ¬MadeAfter c symbol) : (env.bindBound x symbol).Settled arrays c := by
  obtain ⟨hscalar, harray⟩ := h.bind_scalar x (Term.numeric_const hsymbol)
  exact ⟨hscalar, harray⟩

end Env

/-! ## One level -/

/-- A function that an expression can call. -/
structure Program.Callable (p : Program) (g : FunctionDef) : Prop where
  found : p.function? g.name = some g
  scalars : g.hasArrayParams = false
  single : g.returns.length = 1

theorem Program.mem_of_function? {p : Program} {f : String} {g : FunctionDef}
    (h : p.function? f = some g) : g ∈ p.functions ∧ g.name = f := by
  unfold function? at h
  have htest := List.find?_some h
  exact ⟨List.mem_of_find?_eq_some h, beq_iff_eq.mp htest⟩

/-- What the encoding at a level relies on from the level below it. -/
structure Resolver.Keeps (p : Program) (V : Command → Prop) (r : Resolver) : Prop where
  contract : ∀ g args bound c, p.Callable g → g.params.length = args.length →
    (∀ t ∈ args, t.Numeric c) →
      EncodeM.Keeps V [] [] c (r.contract g args bound) fun _ _ => True
  body : ∀ arrays d env c, env.Settled arrays c →
    EncodeM.Keeps V arrays env.bound c (r.body d env) fun t c' => t.Settled c'

theorem checkCall_eq_ok {g : FunctionDef} {name : String} {count : Nat} {s s' : Session}
    (h : checkCall g name count s = (.ok (), s')) :
    s' = s ∧ g.params.length = count ∧ g.hasArrayParams = false ∧ g.returns.length = 1 := by
  unfold checkCall at h
  obtain ⟨hcount, h⟩ := EncodeM.guard_eq_ok.mp h
  obtain ⟨harrays, h⟩ := EncodeM.guard_eq_ok.mp h
  split at h
  · cases h
  · next hreturns =>
    cases h
    exact ⟨rfl, not_not.mp hcount, by simpa using harrays, not_not.mp hreturns⟩

theorem referredFormula_eq_ok {p : Program} {r : Resolver} {name : String} {count : Nat}
    {d : FormulaDef} {s s' : Session} (h : referredFormula p r name count s = (.ok d, s')) :
    s' = s ∧ p.formula? name = some d ∧ d.params.length = count := by
  unfold referredFormula at h
  cases hfind : p.formula? name with
  | none =>
    rw [hfind] at h
    cases h
  | some d' =>
    rw [hfind] at h
    obtain ⟨hcount, h⟩ := EncodeM.guard_eq_ok.mp h
    obtain ⟨-, h⟩ := EncodeM.guard_eq_ok.mp h
    cases h
    exact ⟨rfl, rfl, not_not.mp hcount⟩

theorem lengthOf?_eq_some {env : Env} {f array : String} {args : List Expr}
    (h : lengthOf? env f args = some array) :
    ∃ a, f = "length" ∧ args = [.var a] ∧ env.lookup? a = some (.array array) := by
  unfold lengthOf? at h
  split at h
  · next a =>
    split at h
    · next name hname =>
      cases h
      exact ⟨a, rfl, rfl, hname⟩
    · cases h
  · cases h

section

variable {p : Program} {V : Command → Prop} {r : Resolver} {arrays bound : List String} {c : Nat}

theorem keeps_checkCall (g : FunctionDef) (name : String) (count : Nat) :
    EncodeM.Keeps V arrays bound c (checkCall g name count) fun _ _ =>
      g.params.length = count ∧ g.hasArrayParams = false ∧ g.returns.length = 1 := by
  unfold checkCall
  refine .guard fun hcount => .guard fun harrays => ?_
  split
  · exact .throw
  · next hreturns =>
    exact .pure fun _ _ => ⟨not_not.mp hcount, by simpa using harrays, not_not.mp hreturns⟩

theorem keeps_referredFormula (name : String) (count : Nat) :
    EncodeM.Keeps V arrays bound c (referredFormula p r name count) fun d _ =>
      p.formula? name = some d ∧ d.params.length = count := by
  unfold referredFormula
  cases p.formula? name with
  | none => exact .throw
  | some d =>
    refine .guard fun hcount => .guard fun _ => ?_
    exact .pure fun _ _ => ⟨rfl, not_not.mp hcount⟩

theorem keeps_varTerm {env : Env} (henv : env.Settled arrays c) (x : String) :
    EncodeM.Keeps V arrays bound c (varTerm env x) fun t c' => t.Numeric c' := by
  unfold varTerm
  split
  · next t ht => exact .pure fun c' hc => (henv.scalar x t ht).mono hc
  · exact .throw
  · exact .throw

theorem keeps_arrayName {env : Env} (henv : env.Settled arrays c) (a : String) :
    EncodeM.Keeps V arrays bound c (arrayName env a) fun name _ => name ∈ arrays := by
  unfold arrayName
  split
  · next name hname => exact .pure fun _ _ => henv.array a name hname
  · exact .throw
  · exact .throw

theorem keeps_arrayArgument {env : Env} (henv : env.Settled arrays c) (formula : String)
    (param : Param) (e : Expr) :
    EncodeM.Keeps V arrays bound c (arrayArgument env formula param e) fun m _ =>
      ∃ name ∈ arrays, m = .array name := by
  unfold arrayArgument
  split
  · next a =>
    split
    · next name hname => exact .pure fun _ _ => ⟨name, henv.array a name hname, rfl⟩
    · exact .throw
    · exact .throw
  · exact .throw

/-- A cell at an index that mentions a bound symbol is an application; any other is a constant. -/
theorem keeps_cellTerm (hV : AdmitsBasics V) {env : Env} {array : String} {index : Term}
    (harray : array ∈ arrays) (hindex : index.Numeric c) :
    EncodeM.Keeps V arrays env.bound c (cellTerm env array index) fun t c' => t.Numeric c' := by
  unfold cellTerm
  split
  · refine .bind (keeps_selectorSymbol hV array) fun f c' hc _ => .pure fun c₂ hc' => ?_
    refine Term.numeric_app fun t ht => ?_
    rw [List.mem_singleton.mp ht]
    exact hindex.mono (Nat.le_trans hc hc')
  · next hground =>
    have hbound : ∀ x ∈ env.bound, x ∉ index.consts := fun x hx hmem =>
      hground ((Term.mentions_iff _ _).mpr ⟨x, hmem, hx⟩)
    refine .bind (keeps_cellSymbol hV harray hindex hbound) fun symbol c' _ hsymbol =>
      .pure fun c₂ hc' => Term.numeric_const fun hmade => hsymbol (hmade.mono hc')

mutual

theorem keeps_encodeExpr (hV : AdmitsBasics V) (hr : r.Keeps p V) :
    ∀ (e : Expr) {env : Env} {c : Nat}, env.Settled arrays c →
      EncodeM.Keeps V arrays env.bound c (encodeExpr p r e env) fun t c' => t.Numeric c'
  | .const n, _, _, _ => by
    rw [encodeExpr]
    exact .pure fun _ _ => Term.numeric_int _
  | .var x, _, _, henv => by
    rw [encodeExpr]
    exact keeps_varTerm henv x
  | .neg e, _, _, henv => by
    rw [encodeExpr]
    exact .bind (keeps_encodeExpr hV hr e henv) fun t c' _ ht =>
      .pure fun c₂ hc' => (ht.mono hc').neg
  | .binary op a b, _, _, henv => by
    rw [encodeExpr]
    exact .bind (keeps_encodeExpr hV hr a henv) fun t c' hc ht =>
      .bind (keeps_encodeExpr hV hr b (henv.mono hc)) fun u c₂ hc' hu =>
        .pure fun c₃ hc₃ =>
          numeric_arithTerm (ht.mono (Nat.le_trans hc' hc₃)) (hu.mono hc₃)
  | .read a i, _, _, henv => by
    rw [encodeExpr]
    exact .bind (keeps_arrayName henv a) fun name c' hc hname =>
      .bind (keeps_encodeExpr hV hr i (henv.mono hc)) fun t c₂ _ ht =>
        keeps_cellTerm hV hname ht
  | .call f args, env, c, henv => by
    rw [encodeExpr]
    cases lengthOf? env f args with
    | some array =>
      refine .bind (keeps_lengthSymbol hV array) fun symbol c' _ hsymbol =>
        .pure fun c₂ _ => ?_
      rw [hsymbol]
      exact Term.numeric_const (lengthSymbol_not_madeAfter array c₂)
    | none =>
      cases hfind : p.function? f with
      | none =>
        exact .bind (keeps_encodeArgs hV hr args henv) fun ts c' _ hts =>
          .bind (keeps_declareFun hV _ _) fun _ c₂ hc' _ =>
            .pure fun c₃ hc₃ =>
              Term.numeric_app fun t ht => (hts.1 t ht).mono (Nat.le_trans hc' hc₃)
      | some g =>
        have hname : g.name = f := (Program.mem_of_function? hfind).2
        refine .bind (keeps_checkCall g f args.length) fun _ c₁ hc₁ hcheck =>
          .bind (keeps_encodeArgs hV hr args (henv.mono hc₁)) fun ts c₂ _ hts =>
            .bind (keeps_declareFun hV _ _) fun _ c₃ hc₃ _ => ?_
        have hcallable : p.Callable g := ⟨by rw [hname, hfind], hcheck.2.1, hcheck.2.2⟩
        have hargs : ∀ t ∈ ts, t.Numeric c₃ := fun t ht => (hts.1 t ht).mono hc₃
        have hcount : g.params.length = ts.length := by rw [hcheck.1, hts.2]
        exact .bind (hr.contract g ts env.bound c₃ hcallable hcount hargs).of_nil fun _ c₄ hc₄ _ =>
          .pure fun c₅ hc₅ =>
            Term.numeric_app fun t ht => (hargs t ht).mono (Nat.le_trans hc₄ hc₅)
  | .cond q a b, _, _, henv => by
    rw [encodeExpr]
    exact .bind (keeps_encodePred hV hr q henv) fun t c₁ hc₁ ht =>
      .bind (keeps_encodeExpr hV hr a (henv.mono hc₁)) fun u c₂ hc₂ hu =>
        .bind (keeps_encodeExpr hV hr b (henv.mono (Nat.le_trans hc₁ hc₂)))
          fun v c₃ hc₃ hv => .pure fun c₄ hc₄ =>
            .ite (ht.mono (Nat.le_trans hc₂ (Nat.le_trans hc₃ hc₄)))
              (hu.mono (Nat.le_trans hc₃ hc₄)) (hv.mono hc₄)

theorem keeps_encodeArgs (hV : AdmitsBasics V) (hr : r.Keeps p V) :
    ∀ (es : List Expr) {env : Env} {c : Nat}, env.Settled arrays c →
      EncodeM.Keeps V arrays env.bound c (encodeArgs p r es env) fun ts c' =>
        (∀ t ∈ ts, t.Numeric c') ∧ ts.length = es.length
  | [], _, _, _ => by
    rw [encodeArgs]
    exact .pure fun _ _ => ⟨fun t ht => absurd ht List.not_mem_nil, rfl⟩
  | e :: es, _, _, henv => by
    rw [encodeArgs]
    refine .bind (keeps_encodeExpr hV hr e henv) fun t c₁ hc₁ ht =>
      .bind (keeps_encodeArgs hV hr es (henv.mono hc₁)) fun ts c₂ hc₂ hts =>
        .pure fun c₃ hc₃ => ⟨fun u hu => ?_, by rw [List.length_cons, List.length_cons, hts.2]⟩
    rcases List.mem_cons.mp hu with rfl | hu
    · exact ht.mono (Nat.le_trans hc₂ hc₃)
    · exact (hts.1 u hu).mono hc₃

theorem keeps_bindArgs (hV : AdmitsBasics V) (hr : r.Keeps p V)
    (formula : String) : ∀ (es : List Expr) (xs : List Param) {env inner : Env} {c : Nat},
      env.Settled arrays c → inner.Settled arrays c →
      EncodeM.Keeps V arrays env.bound c (bindArgs p r formula es xs env inner) fun env' c' =>
        env'.Settled arrays c' ∧ env'.bound = inner.bound
  | [], xs, _, _, _, _, hinner => by
    rw [bindArgs]
    · exact .pure fun _ hc => ⟨hinner.mono hc, rfl⟩
    · intro _ _ _ _ h
      cases h
  | _ :: _, [], _, _, _, _, hinner => by
    rw [bindArgs]
    · exact .pure fun _ hc => ⟨hinner.mono hc, rfl⟩
    · intro _ _ _ _ _ h
      cases h
  | e :: es, x :: xs, env, _, c, henv, hinner => by
    rw [bindArgs]
    cases x.type with
    | int =>
      have hscalar : EncodeM.Keeps V arrays env.bound c (Meaning.scalar <$> encodeExpr p r e env)
          fun m c' => ∃ t, m = .scalar t ∧ t.Numeric c' :=
        .map ((keeps_encodeExpr hV hr e henv).imp fun t _ _ ht => ⟨t, rfl, ht⟩)
      refine .bind hscalar fun m c₁ hc₁ hm => ?_
      obtain ⟨t, rfl, ht⟩ := hm
      exact keeps_bindArgs hV hr formula es xs (henv.mono hc₁)
        ((hinner.mono hc₁).bind_scalar x.name ht)
    | array =>
      refine .bind (keeps_arrayArgument henv formula x e) fun m c₁ hc₁ hm => ?_
      obtain ⟨name, hname, rfl⟩ := hm
      exact keeps_bindArgs hV hr formula es xs (henv.mono hc₁)
        ((hinner.mono hc₁).bind_array x.name hname)

theorem keeps_encodePred (hV : AdmitsBasics V) (hr : r.Keeps p V) :
    ∀ (q : Pred) {env : Env} {c : Nat}, env.Settled arrays c →
      EncodeM.Keeps V arrays env.bound c (encodePred p r q env) fun t c' => t.Settled c'
  | .bool b, _, _, _ => by
    rw [encodePred]
    exact .pure fun _ _ => Term.settled_bool b
  | .compare op a b, _, _, henv => by
    rw [encodePred]
    exact .bind (keeps_encodeExpr hV hr a henv) fun t c₁ hc₁ ht =>
      .bind (keeps_encodeExpr hV hr b (henv.mono hc₁)) fun u c₂ hc₂ hu =>
        .pure fun c₃ hc₃ =>
          settled_cmpTerm op (ht.settled.mono (Nat.le_trans hc₂ hc₃)) (hu.settled.mono hc₃)
  | .not q, _, _, henv => by
    rw [encodePred]
    exact .bind (keeps_encodePred hV hr q henv) fun t c₁ _ ht =>
      .pure fun c₂ hc₂ => (Term.settled_not t).mpr (ht.mono hc₂)
  | .and a b, _, _, henv => by
    rw [encodePred]
    refine .bind (keeps_encodePred hV hr a henv) fun t c₁ hc₁ ht =>
      .bind (keeps_encodePred hV hr b (henv.mono hc₁)) fun u c₂ hc₂ hu =>
        .pure fun c₃ hc₃ => ?_
    simp [Term.and, ht.mono (Nat.le_trans hc₂ hc₃), hu.mono hc₃]
  | .or a b, _, _, henv => by
    rw [encodePred]
    refine .bind (keeps_encodePred hV hr a henv) fun t c₁ hc₁ ht =>
      .bind (keeps_encodePred hV hr b (henv.mono hc₁)) fun u c₂ hc₂ hu =>
        .pure fun c₃ hc₃ => ?_
    simp [Term.or, ht.mono (Nat.le_trans hc₂ hc₃), hu.mono hc₃]
  | .implies a b, _, _, henv => by
    rw [encodePred]
    refine .bind (keeps_encodePred hV hr a henv) fun t c₁ hc₁ ht =>
      .bind (keeps_encodePred hV hr b (henv.mono hc₁)) fun u c₂ hc₂ hu =>
        .pure fun c₃ hc₃ => ?_
    simp [Term.implies, ht.mono (Nat.le_trans hc₂ hc₃), hu.mono hc₃]
  | .paren q, _, _, henv => by
    rw [encodePred]
    exact keeps_encodePred hV hr q henv
  | .quantified k x q, env, c, henv => by
    rw [encodePred]
    refine .guard fun _ => .bind (keeps_freshSymbol x.name) fun symbol c₁ hc₁ hsymbol => ?_
    obtain ⟨k', -, rfl, rfl⟩ := hsymbol
    have hnew : ¬MadeAfter (k' + 1) (numberedSymbol x.name (k' + 1)) := by
      rw [madeAfter_numberedSymbol]
      omega
    have hbody := keeps_encodePred hV hr q ((henv.mono hc₁).bindBound x.name hnew)
    -- cells made in the body mention neither the new symbol nor the ones bound outside
    refine .bind (hbody.bound_mono fun y hy => List.mem_cons_of_mem _ hy) fun t c₂ _ ht =>
      .pure fun c₃ hc₃ => (Term.settled_quantified ..).mpr (ht.mono hc₃)
  | .formula f args, env, c, henv => by
    rw [encodePred]
    refine .bind (keeps_referredFormula f args.length) fun d c₁ hc₁ _ =>
      .bind (keeps_bindArgs hV hr f args d.params (henv.mono hc₁)
        (Env.settled_of_empty rfl)) fun inner c₂ _ hinner => ?_
    have hbody := hr.body arrays d inner c₂ hinner.1
    rw [hinner.2] at hbody
    exact hbody

end

end

/-! ## Contracts -/

/-- The names that the functions of the program declare hold no mark and no period. -/
def Program.PlainNames (p : Program) : Prop := ∀ g ∈ p.functions, ∀ x ∈ g.decls, PlainName x.name

/-- What an encoding with `N` levels may add: besides the basics, the contracts of functions at any
arguments and in any context, also closed over a symbol. -/
structure Program.Admits (p : Program) (N : Nat) (V : Command → Prop) : Prop
    extends AdmitsBasics V where
  closure : ∀ (t : Term) (base : String) (n : Nat), V (.assert t) →
    V (.assert (.quantified .universal [(numberedSymbol base (n + 1), .int)] t))
  contract : ∀ n expanding g post args bound guard s t s', n < N → p.Callable g →
    g.post = some post →
    g.params.length = args.length → s.WellFormed (fun _ => True) →
    (∀ u ∈ args, u.Numeric s.counter) →
    contractInstance p (resolver p n expanding) g post args bound guard s = (.ok t, s') →
      V (.assert t)

theorem Program.admits_true (p : Program) (N : Nat) : p.Admits N fun _ => True :=
  ⟨admitsBasics_true, fun _ _ _ _ => trivial,
    fun _ _ _ _ _ _ _ _ _ _ _ _ _ _ _ _ _ => trivial⟩

/-- A contract knows scalars only. -/
theorem settled_contractEnv (g : FunctionDef) {args : List Term} (bound : List String) {c : Nat}
    (hargs : ∀ t ∈ args, t.Numeric c) : (contractEnv g args bound).Settled [] c := by
  have hfold : ∀ (l : List (Param × Term)) (env : Env), (∀ q ∈ l, q.2.Numeric c) →
      env.Settled [] c →
      (l.foldl (fun env q => env.bind q.1.name (.scalar q.2)) env).Settled [] c := by
    intro l
    induction l with
    | nil => exact fun env _ henv => henv
    | cons q l ih =>
      intro env hl henv
      exact ih _ (fun q' hq => hl q' (List.mem_cons_of_mem _ hq))
        (henv.bind_scalar q.1.name (hl q List.mem_cons_self))
  have hparams := hfold (g.params.zip args) { Env.empty with bound }
    (fun q hq => hargs q.2 (List.of_mem_zip hq).2) (Env.settled_of_empty rfl)
  unfold contractEnv
  dsimp only
  split
  · exact hparams.bind_scalar _ (Term.numeric_app hargs)
  · exact hparams

/-- What is known of each successful run can be added to what is known of the result. -/
theorem EncodeM.Keeps.of_run {α : Type} {V : Command → Prop} {arrays bound : List String} {c : Nat}
    {x : EncodeM α} {post post' : α → Nat → Prop} (hx : Keeps V arrays bound c x post)
    (h : ∀ s a s', x s = (.ok a, s') → s.WellFormed V → c ≤ s.counter → post' a s'.counter) :
    Keeps V arrays bound c x post' := by
  intro s r s' hrun hs hc
  obtain ⟨hs', hgrows, -⟩ := hx s r s' hrun hs hc
  refine ⟨hs', hgrows, ?_⟩
  rintro a rfl
  exact h s a s' hrun hs hc

section

variable {p : Program} {V : Command → Prop} {n N : Nat} {expanding : List String} {g : FunctionDef}
  {post : Pred} {c : Nat}

theorem keeps_contractInstance (hV : p.Admits N V) (hn : n < N)
    (hr : (resolver p n expanding).Keeps p V)
    (hg : p.Callable g) (hpost : g.post = some post) {args : List Term}
    (hcount : g.params.length = args.length) (hargs : ∀ t ∈ args, t.Numeric c)
    (bound : List String) (guard : List Term) :
    EncodeM.Keeps V [] [] c (contractInstance p (resolver p n expanding) g post args bound guard)
      fun t _ => V (.assert t) := by
  have henv := settled_contractEnv g bound hargs
  have hgrowth : EncodeM.Keeps V [] (contractEnv g args bound).bound c
      (contractInstance p (resolver p n expanding) g post args bound guard) fun _ _ => True := by
    unfold contractInstance
    refine .bind (keeps_encodePred hV.toAdmitsBasics hr post henv) fun t c₁ hc₁ _ => ?_
    cases g.pre with
    | none => exact .pure fun _ _ => trivial
    | some q =>
      exact .bind (keeps_encodePred hV.toAdmitsBasics hr q (henv.mono hc₁)) fun _ _ _ _ =>
        .pure fun _ _ => trivial
  refine hgrowth.of_nil.of_run fun s t s' hrun hs hc => ?_
  exact hV.contract n expanding g post args bound guard s t s' hn hg hpost hcount
    (hs.mono fun _ _ => trivial) (fun u hu => (hargs u hu).mono hc) hrun

theorem keeps_literalInstances (hV : p.Admits N V) (hn : n < N)
    (hr : (resolver p n expanding).Keeps p V)
    (hg : p.Callable g) (hpost : g.post = some post) (ks : List Int) :
    EncodeM.Keeps V [] [] c (literalInstances p (resolver p n expanding) g post ks)
      fun ts _ => ∀ t ∈ ts, V (.assert t) := by
  induction ks generalizing c with
  | nil =>
    rw [literalInstances]
    exact .pure fun _ _ t ht => absurd ht List.not_mem_nil
  | cons k ks ih =>
    rw [literalInstances]
    have hargs : ∀ t ∈ List.replicate g.params.length (Term.int k), t.Numeric c := by
      intro t ht
      rw [List.eq_of_mem_replicate ht]
      exact Term.numeric_int k
    refine .bind (keeps_contractInstance hV hn hr hg hpost List.length_replicate.symm hargs [] [])
      fun t c₁ _ ht => .bind ih fun ts c₂ _ hts => .pure fun _ _ u hu => ?_
    rcases List.mem_cons.mp hu with rfl | hu
    · exact ht
    · exact hts u hu

theorem keeps_inductiveAxioms (hV : p.Admits N V) (hn : n < N)
    (hr : (resolver p n expanding).Keeps p V)
    (hg : p.Callable g) (hpost : g.post = some post) (hone : g.params.length = 1) :
    EncodeM.Keeps V [] [] c (inductiveAxioms p (resolver p n expanding) g post)
      fun ts _ => ∀ t ∈ ts, V (.assert t) := by
  unfold inductiveAxioms
  refine .bind (keeps_literalInstances hV hn hr hg hpost [0]) fun base c₁ _ hbase =>
    .bind (keeps_freshSymbol _) fun x c₂ _ hx => ?_
  obtain ⟨k, -, rfl, rfl⟩ := hx
  have hargs : ∀ t ∈ [Term.const (numberedSymbol ((g.params.map Param.name).headD "") (k + 1))],
      t.Numeric (k + 1) := by
    intro t ht
    rw [List.mem_singleton.mp ht]
    refine Term.numeric_const ?_
    rw [madeAfter_numberedSymbol]
    omega
  have hinstance := keeps_contractInstance hV hn hr hg hpost (by rw [hone]; rfl) hargs
  refine .bind (hinstance _ _) fun step c₃ _ hstep =>
    .bind (keeps_literalInstances hV hn hr hg hpost [1, 2, 3]) fun ground c₄ _ hground =>
      .pure fun _ _ t ht => ?_
  rcases List.mem_append.mp ht with ht | ht
  · rcases List.mem_append.mp ht with ht | ht
    · exact hbase t ht
    · rw [List.mem_singleton.mp ht]
      exact hV.closure step _ _ hstep
  · exact hground t ht

theorem keeps_instanceAxioms (hp : p.PlainNames) (hV : p.Admits N V)
    (hn : n < N)
    (hr : (resolver p n expanding).Keeps p V) (hg : p.Callable g) (hpost : g.post = some post) :
    EncodeM.Keeps V [] [] c (instanceAxioms p (resolver p n expanding) g post)
      fun ts _ => ∀ t ∈ ts, V (.assert t) := by
  have hargs : ∀ c', ∀ t ∈ (g.params.map (formalSymbol g)).map Term.const, t.Numeric c' := by
    intro c' t ht
    rw [List.map_map] at ht
    obtain ⟨x, hx, rfl⟩ := List.mem_map.mp ht
    have hdecl : x ∈ g.decls := List.mem_append_left _ (List.mem_append_left _ hx)
    exact Term.numeric_const
      (formalSymbol_not_madeAfter g (hp g (Program.mem_of_function? hg.found).1 x hdecl).1 c')
  have hcount : g.params.length = ((g.params.map (formalSymbol g)).map Term.const).length := by
    rw [List.length_map, List.length_map]
  unfold instanceAxioms
  refine .bind (keeps_declareGlobalConsts hV.toAdmitsBasics _) fun _ c₁ _ _ =>
    .bind (keeps_contractInstance hV hn hr hg hpost hcount (hargs c₁) _ _)
      fun formal c₂ _ hformal => ?_
  have hcons : ∀ fixed : List Term, (∀ t ∈ fixed, V (.assert t)) →
      ∀ t ∈ formal :: fixed, V (.assert t) := by
    intro fixed hfixed t ht
    rcases List.mem_cons.mp ht with rfl | ht
    · exact hformal
    · exact hfixed t ht
  dsimp only
  split
  · exact .pure fun _ _ => hcons [] fun t ht => absurd ht List.not_mem_nil
  · exact .bind (keeps_literalInstances hV hn hr hg hpost [0, 1]) fun fixed _ _ hfixed =>
      .pure fun _ _ => hcons fixed hfixed

theorem keeps_contractAxioms (hp : p.PlainNames) (hV : p.Admits N V)
    (hn : n < N)
    (hr : (resolver p n expanding).Keeps p V) (hg : p.Callable g) :
    EncodeM.Keeps V [] [] c (contractAxioms p (resolver p n expanding) g)
      fun ts _ => ∀ t ∈ ts, V (.assert t) := by
  unfold contractAxioms
  cases hpost : g.post with
  | none => exact .pure fun _ _ t ht => absurd ht List.not_mem_nil
  | some post =>
    dsimp only
    split
    · next hrec =>
      have hone : g.params.length = 1 := by
        unfold FunctionDef.isRecursive at hrec
        rw [Bool.and_eq_true, Bool.and_eq_true, beq_iff_eq] at hrec
        exact hrec.1.1
      exact keeps_inductiveAxioms hV hn hr hg hpost hone
    · exact keeps_instanceAxioms hp hV hn hr hg hpost

theorem keeps_ensureAxioms (hp : p.PlainNames) (hV : p.Admits N V)
    (hn : n < N)
    (hr : (resolver p n expanding).Keeps p V) (hg : p.Callable g) :
    EncodeM.Keeps V [] [] c (ensureAxioms p (resolver p n expanding) g) fun _ _ => True := by
  unfold ensureAxioms
  refine EncodeM.Keeps.get fun s _ _ => ?_
  split
  · exact .pure fun _ _ => trivial
  · refine .bind (keeps_enter _) fun _ _ _ _ =>
      .bind (keeps_contractAxioms hp hV hn hr hg).attempt fun axioms _ _ haxioms =>
        .bind (.modify (fun s hs => ?_) (fun _ => rfl) fun _ => rfl) fun _ _ _ _ => keeps_leave _
    refine ⟨hs.cells, hs.ordered, fun command hcommand => ?_, hs.decls, hs.assertions⟩
    rcases List.mem_append.mp hcommand with hcommand | hcommand
    · exact hs.commands command hcommand
    · obtain ⟨t, ht, rfl⟩ := List.mem_map.mp hcommand
      cases axioms with
      | none => cases ht
      | some ts => exact haxioms ts rfl t ht

theorem keeps_instantiateCall (hV : p.Admits N V) (hn : n < N)
    (hr : (resolver p n expanding).Keeps p V)
    (hg : p.Callable g) {args : List Term} (hcount : g.params.length = args.length)
    (hargs : ∀ t ∈ args, t.Numeric c) (bound : List String) :
    EncodeM.Keeps V [] [] c (instantiateCall p (resolver p n expanding) g args bound)
      fun _ _ => True := by
  unfold instantiateCall
  cases hpost : g.post with
  | none => exact .pure fun _ _ => trivial
  | some post =>
    refine EncodeM.Keeps.get fun s _ hc => ?_
    split
    · exact .pure fun _ _ => trivial
    · refine .bind (.modify (fun s hs => ⟨hs.cells, hs.ordered, hs.commands, hs.decls,
        hs.assertions⟩) (fun _ => rfl) fun _ => rfl) fun _ c₁ hc₁ _ =>
          .bind (keeps_enter _) fun _ c₂ hc₂ _ => ?_
      have hlater : ∀ t ∈ args, t.Numeric c₂ := fun t ht =>
        (hargs t ht).mono (Nat.le_trans hc (Nat.le_trans hc₁ hc₂))
      refine .bind (keeps_contractInstance hV hn hr hg hpost hcount hlater bound []).attempt
        fun result _ _ hresult => ?_
      cases result with
      | none => exact keeps_leave _
      | some t =>
        exact .bind (.modify (fun s hs => hs.addAssertion (hresult t rfl)) (fun _ => rfl)
          fun _ => rfl) fun _ _ _ _ => keeps_leave _

/-! ## All levels -/

theorem resolver_keeps (hp : p.PlainNames) (hV : p.Admits N V) (hn : n ≤ N)
    (expanding : List String) : (resolver p n expanding).Keeps p V := by
  induction n generalizing expanding with
  | zero => exact ⟨fun _ _ _ _ _ _ _ => .pure fun _ _ => trivial, fun _ _ _ _ _ => .throw⟩
  | succ n ih =>
    have hbelow := ih (Nat.le_of_succ_le hn)
    constructor
    · intro g args bound c hg hcount hargs
      exact .bind (keeps_ensureAxioms hp hV hn (hbelow expanding) hg) fun _ c₁ hc₁ _ =>
        keeps_instantiateCall hV hn (hbelow expanding) hg hcount
          (fun t ht => (hargs t ht).mono hc₁) bound
    · intro arrays d env c henv
      exact keeps_encodePred hV.toAdmitsBasics (hbelow (d.name :: expanding)) d.body henv

end

end Contracts

import Contracts.Proofs.EncodingGrowth

/-!
# Invariants along encodings

What an encoding keeps and what its terms are like are often shown together: the terms are as they
should be because of what the session holds, and the session stays as it should be because of what
is put into it. A `Regime` is a choice of both: an invariant of sessions, an order between them, and
what is to be known of the terms of numbers and of truth values in a session.

Which laws a regime has to satisfy depends on the terms (`Regime` holds these laws) and on the steps
that change a session (`Regime.Serves`). Under these laws every encoding meets the regime, whether it
succeeds or not: `meets_encodeExpr` and `meets_encodePred`.

Terms are looked at under a list `Δ` of bound symbols. These are symbols that quantifiers around the
term bind in the end; an environment may count more symbols as bound, when a contract is instantiated
in the scope of a quantifier whose symbol does not occur in the arguments.
-/

set_option autoImplicit false

namespace Contracts

open Smt

/-! ## The called names of a predicate -/

/-- All called names have the property. -/
def Expr.CallsOnly (A : String → Prop) (e : Expr) : Prop := ∀ f, e.calls f = true → A f

/-- All names called in the arguments have the property. -/
def Expr.ArgsCallOnly (A : String → Prop) (es : List Expr) : Prop :=
  ∀ f, Expr.anyCalls f es = true → A f

/-- All names called in the predicate, other than in the bodies of formulas, have the property. -/
def Pred.CallsOnly (A : String → Prop) (q : Pred) : Prop := ∀ f, q.calls f = true → A f

section

variable {A : String → Prop}

@[simp] theorem Pred.callsOnly_formula (f : String) (args : List Expr) :
    (Pred.formula f args).CallsOnly A ↔ Expr.ArgsCallOnly A args := by
  simp only [Pred.CallsOnly, Expr.ArgsCallOnly, Pred.calls]

-- The name of a formula is no called name, those in its arguments are.
example : (Pred.formula "f" [.call "g" []]).calls "f" = false ∧
    (Pred.formula "f" [.call "g" []]).calls "g" = true := by
  cbv

@[simp] theorem Expr.callsOnly_neg (e : Expr) : (Expr.neg e).CallsOnly A ↔ e.CallsOnly A := by
  simp only [Expr.CallsOnly, Expr.calls]

@[simp] theorem Expr.callsOnly_binary (op : ArithOp) (a b : Expr) :
    (Expr.binary op a b).CallsOnly A ↔ a.CallsOnly A ∧ b.CallsOnly A := by
  simp only [Expr.CallsOnly, Expr.calls, Bool.or_eq_true, or_imp, forall_and]

@[simp] theorem Expr.callsOnly_read (a : String) (i : Expr) :
    (Expr.read a i).CallsOnly A ↔ i.CallsOnly A := by
  simp only [Expr.CallsOnly, Expr.calls]

@[simp] theorem Expr.callsOnly_call (f : String) (args : List Expr) :
    (Expr.call f args).CallsOnly A ↔ A f ∧ Expr.ArgsCallOnly A args := by
  simp only [Expr.CallsOnly, Expr.ArgsCallOnly, Expr.calls, Bool.or_eq_true, or_imp, forall_and,
    beq_iff_eq, forall_eq']

@[simp] theorem Expr.callsOnly_cond (q : Pred) (a b : Expr) :
    (Expr.cond q a b).CallsOnly A ↔ q.CallsOnly A ∧ a.CallsOnly A ∧ b.CallsOnly A := by
  simp only [Expr.CallsOnly, Pred.CallsOnly, Expr.calls, Bool.or_eq_true, or_imp, forall_and,
    and_assoc]

@[simp] theorem Expr.argsCallOnly_cons (e : Expr) (es : List Expr) :
    Expr.ArgsCallOnly A (e :: es) ↔ e.CallsOnly A ∧ Expr.ArgsCallOnly A es := by
  simp only [Expr.CallsOnly, Expr.ArgsCallOnly, Expr.anyCalls, Bool.or_eq_true, or_imp, forall_and]

@[simp] theorem Pred.callsOnly_compare (op : CmpOp) (a b : Expr) :
    (Pred.compare op a b).CallsOnly A ↔ a.CallsOnly A ∧ b.CallsOnly A := by
  simp only [Expr.CallsOnly, Pred.CallsOnly, Pred.calls, Bool.or_eq_true, or_imp, forall_and]

@[simp] theorem Pred.callsOnly_not (q : Pred) : (Pred.not q).CallsOnly A ↔ q.CallsOnly A := by
  simp only [Pred.CallsOnly, Pred.calls]

@[simp] theorem Pred.callsOnly_paren (q : Pred) : (Pred.paren q).CallsOnly A ↔ q.CallsOnly A := by
  simp only [Pred.CallsOnly, Pred.calls]

@[simp] theorem Pred.callsOnly_and (a b : Pred) :
    (Pred.and a b).CallsOnly A ↔ a.CallsOnly A ∧ b.CallsOnly A := by
  simp only [Pred.CallsOnly, Pred.calls, Bool.or_eq_true, or_imp, forall_and]

@[simp] theorem Pred.callsOnly_or (a b : Pred) :
    (Pred.or a b).CallsOnly A ↔ a.CallsOnly A ∧ b.CallsOnly A := by
  simp only [Pred.CallsOnly, Pred.calls, Bool.or_eq_true, or_imp, forall_and]

@[simp] theorem Pred.callsOnly_implies (a b : Pred) :
    (Pred.implies a b).CallsOnly A ↔ a.CallsOnly A ∧ b.CallsOnly A := by
  simp only [Pred.CallsOnly, Pred.calls, Bool.or_eq_true, or_imp, forall_and]

@[simp] theorem Pred.callsOnly_quantified (k : Quantifier) (x : Param) (q : Pred) :
    (Pred.quantified k x q).CallsOnly A ↔ q.CallsOnly A := by
  simp only [Pred.CallsOnly, Pred.calls]

end

/-- The contract of the function calls such names only. -/
def FunctionDef.ContractCalls (A : String → Prop) (g : FunctionDef) : Prop :=
  ∀ q, g.pre = some q ∨ g.post = some q → q.CallsOnly A

/-! ## Regimes -/

/-- What an encoding is to keep and what is known of its terms, with the laws that let terms be put
together. -/
structure Regime where
  /-- What holds of the session at all times. -/
  inv : Session → Prop
  /-- How the session may change. -/
  leads : Session → Session → Prop
  /-- The function of a called name can be applied to so many arguments. -/
  applies : Session → String → Nat → Prop
  /-- What is known of the term of a number under bound symbols. -/
  number : Session → List String → Term → Prop
  /-- What is known of the term of a truth value under bound symbols. -/
  truth : Session → List String → Term → Prop
  /-- Quantifiers can bind these symbols, each inside the ones after it. -/
  scope : Session → List String → Prop
  refl : ∀ s, leads s s
  trans : ∀ {s s' s''}, leads s s' → leads s' s'' → leads s s''
  applies_mono : ∀ {s s' f n}, leads s s' → inv s' → applies s f n → applies s' f n
  number_mono : ∀ {s s' Δ t}, leads s s' → inv s' → number s Δ t → number s' Δ t
  truth_mono : ∀ {s s' Δ t}, leads s s' → inv s' → truth s Δ t → truth s' Δ t
  scope_mono : ∀ {s s' Δ}, leads s s' → inv s' → scope s Δ → scope s' Δ
  scope_nil : ∀ s, scope s []
  /-- A symbol that was made since can be bound besides. -/
  weaken : ∀ {s s' Δ t x}, leads s s' → inv s' → MadeAfter s.counter x → number s Δ t →
    number s' (x :: Δ) t
  bound : ∀ s Δ x, number s (x :: Δ) (.const x)
  int : ∀ s Δ n, number s Δ (.int n)
  neg : ∀ {s Δ t}, number s Δ t → number s Δ (.neg t)
  arith : ∀ {s Δ a b} (op : ArithOp), number s Δ a → number s Δ b → number s Δ (arithTerm op a b)
  ite : ∀ {s Δ t a b}, truth s Δ t → number s Δ a → number s Δ b → number s Δ (.ite t a b)
  app : ∀ {s Δ f ts}, inv s → (∀ x ∈ Δ, MadeAfter 0 x) → applies s f ts.length →
    (∀ t ∈ ts, number s Δ t) → number s Δ (.app (fnSymbol f) ts)
  bool : ∀ s Δ b, truth s Δ (.bool b)
  compare : ∀ {s Δ a b} (op : CmpOp), number s Δ a → number s Δ b → truth s Δ (cmpTerm op a b)
  not : ∀ {s Δ t}, truth s Δ t → truth s Δ (.not t)
  junction : ∀ {s Δ ts} (op : Junction), (∀ t ∈ ts, truth s Δ t) → truth s Δ (.junction op ts)
  implies : ∀ {s Δ a b}, truth s Δ a → truth s Δ b → truth s Δ (.implies a b)
  quantified : ∀ {s Δ x t} (k : Quantifier), scope s (x :: Δ) → truth s (x :: Δ) t →
    truth s Δ (.quantified k [(x, .int)] t)

/-- The regime that knows nothing of terms. -/
def Regime.frame (inv : Session → Prop) (leads : Session → Session → Prop) (refl : ∀ s, leads s s)
    (trans : ∀ {s s' s''}, leads s s' → leads s' s'' → leads s s'') : Regime where
  inv := inv
  leads := leads
  applies _ _ _ := True
  number _ _ _ := True
  truth _ _ _ := True
  scope _ _ := True
  refl := refl
  trans := trans
  applies_mono _ _ _ := trivial
  number_mono _ _ _ := trivial
  truth_mono _ _ _ := trivial
  scope_mono _ _ _ := trivial
  scope_nil _ := trivial
  weaken _ _ _ _ := trivial
  bound _ _ _ := trivial
  int _ _ _ := trivial
  neg _ := trivial
  arith _ _ _ := trivial
  ite _ _ _ := trivial
  app _ _ _ _ := trivial
  bool _ _ _ := trivial
  compare _ _ _ := trivial
  not _ := trivial
  junction _ _ := trivial
  implies _ _ := trivial
  quantified _ _ _ := trivial

/-- From this session, if it satisfies the invariant, the step keeps the invariant and changes the
session as it may be changed, whether it succeeds or not; its result meets `post`. -/
def EncodeM.Meets {α : Type} (ℛ : Regime) (s : Session) (x : EncodeM α)
    (post : α → Session → Prop) : Prop :=
  ℛ.inv s → ℛ.inv (x s).2 ∧ ℛ.leads s (x s).2 ∧ ∀ a, (x s).1 = .ok a → post a (x s).2

namespace EncodeM.Meets

variable {α β : Type} {ℛ : Regime} {s : Session}

theorem of_inv {x : EncodeM α} {post : α → Session → Prop} (h : ℛ.inv s → Meets ℛ s x post) :
    Meets ℛ s x post := fun hs => h hs hs

theorem pure {a : α} {post : α → Session → Prop} (h : ℛ.inv s → post a s) :
    Meets ℛ s (Pure.pure a : EncodeM α) post := by
  intro hs
  refine ⟨hs, ℛ.refl s, ?_⟩
  rintro a' ⟨⟩
  exact h hs

theorem throw {e : VerifyError} {post : α → Session → Prop} :
    Meets ℛ s (MonadExcept.throw e : EncodeM α) post := by
  intro hs
  refine ⟨hs, ℛ.refl s, ?_⟩
  rintro a ⟨⟩

/-- The second step starts where the first one ends. -/
theorem bind {x : EncodeM α} {f : α → EncodeM β} {post : α → Session → Prop}
    {post' : β → Session → Prop} (hx : Meets ℛ s x post)
    (hf : ∀ a s', ℛ.inv s' → ℛ.leads s s' → post a s' → Meets ℛ s' (f a) post') :
    Meets ℛ s (x >>= f) post' := by
  intro hs
  obtain ⟨hs', hleads, hpost⟩ := hx hs
  cases hfirst : x s with
  | mk result s' =>
    rw [hfirst] at hs' hleads hpost
    cases result with
    | error e =>
      rw [bind_of_error hfirst]
      refine ⟨hs', hleads, ?_⟩
      rintro b ⟨⟩
    | ok a =>
      rw [bind_of_ok hfirst]
      obtain ⟨hs'', hleads', hpost'⟩ := hf a s' hs' hleads (hpost a rfl) hs'
      exact ⟨hs'', ℛ.trans hleads hleads', hpost'⟩

theorem imp {x : EncodeM α} {post post' : α → Session → Prop} (hx : Meets ℛ s x post)
    (h : ∀ a s', post a s' → post' a s') : Meets ℛ s x post' := by
  intro hs
  obtain ⟨hs', hleads, hpost⟩ := hx hs
  exact ⟨hs', hleads, fun a ha => h a _ (hpost a ha)⟩

theorem map {x : EncodeM α} {f : α → β} {post : β → Session → Prop}
    (hx : Meets ℛ s x fun a => post (f a)) : Meets ℛ s (f <$> x) post :=
  bind (f := fun a => Pure.pure (f a)) hx fun _ _ _ _ h => pure fun _ => h

/-- A check that can refuse the rest of a step. -/
theorem guard {c : Prop} [Decidable c] {e : VerifyError} {f : PUnit → EncodeM α}
    {post : α → Session → Prop} (hf : ¬c → Meets ℛ s (f ⟨⟩) post) :
    Meets ℛ s (if c then MonadExcept.throw e >>= f else f ⟨⟩) post := by
  by_cases hc : c
  · rw [if_pos hc]
    have hnever : Meets ℛ s (MonadExcept.throw e : EncodeM PUnit) fun _ _ => False := throw
    exact bind hnever fun _ _ _ _ h => h.elim
  · rw [if_neg hc]
    exact hf hc

end EncodeM.Meets

/-- What is known of the names of an environment: its scalars are numbers under `Δ`, its arrays are
among the given ones, and `Δ` consists of symbols that it counts as bound. -/
structure Env.Meets (ℛ : Regime) (s : Session) (arrays Δ : List String) (env : Env) : Prop where
  scalar : ∀ x t, env.lookup? x = some (.scalar t) → ℛ.number s Δ t
  array : ∀ x a, env.lookup? x = some (.array a) → a ∈ arrays
  bound : ∀ x ∈ Δ, x ∈ env.bound
  numbered : ∀ x ∈ Δ, MadeAfter 0 x
  scope : ℛ.scope s Δ

namespace Env.Meets

variable {ℛ : Regime} {s s' : Session} {arrays Δ : List String} {env : Env}

theorem mono (h : env.Meets ℛ s arrays Δ) (hleads : ℛ.leads s s') (hs' : ℛ.inv s') :
    env.Meets ℛ s' arrays Δ :=
  ⟨fun x t ht => ℛ.number_mono hleads hs' (h.scalar x t ht), h.array, h.bound, h.numbered,
    ℛ.scope_mono hleads hs' h.scope⟩

theorem bind_scalar (h : env.Meets ℛ s arrays Δ) (x : String) {t : Term} (ht : ℛ.number s Δ t) :
    (env.bind x (.scalar t)).Meets ℛ s arrays Δ := by
  refine ⟨fun y u hu => ?_, fun y a ha => ?_, h.bound, h.numbered, h.scope⟩
  · rw [Env.lookup?_bind] at hu
    split at hu
    · cases hu
      exact ht
    · exact h.scalar y u hu
  · rw [Env.lookup?_bind] at ha
    split at ha
    · cases ha
    · exact h.array y a ha

theorem bind_array (h : env.Meets ℛ s arrays Δ) (x : String) {a : String} (ha : a ∈ arrays) :
    (env.bind x (.array a)).Meets ℛ s arrays Δ := by
  refine ⟨fun y u hu => ?_, fun y b hb => ?_, h.bound, h.numbered, h.scope⟩
  · rw [Env.lookup?_bind] at hu
    split at hu
    · cases hu
    · exact h.scalar y u hu
  · rw [Env.lookup?_bind] at hb
    split at hb
    · cases hb
      exact ha
    · exact h.array y b hb

theorem of_empty (hnames : env.meanings = []) (hbound : ∀ x ∈ Δ, x ∈ env.bound)
    (hΔ : ∀ x ∈ Δ, MadeAfter 0 x) (hscope : ℛ.scope s Δ) : env.Meets ℛ s arrays Δ := by
  refine ⟨fun x t ht => ?_, fun x a ha => ?_, hbound, hΔ, hscope⟩
  · rw [Env.lookup?, hnames] at ht
    cases ht
  · rw [Env.lookup?, hnames] at ha
    cases ha

/-- Under a quantifier its symbol, which is new, is one more bound symbol. -/
theorem bindBound (h : env.Meets ℛ s arrays Δ) (hleads : ℛ.leads s s') (hs' : ℛ.inv s') (x : String)
    {symbol : String} (hsymbol : MadeAfter s.counter symbol) (hscope : ℛ.scope s' (symbol :: Δ)) :
    (env.bindBound x symbol).Meets ℛ s' arrays (symbol :: Δ) := by
  have hwider : ({ env with bound := symbol :: env.bound } : Env).Meets ℛ s' arrays
      (symbol :: Δ) := by
    refine ⟨fun y t ht => ℛ.weaken hleads hs' hsymbol (h.scalar y t ht), h.array, fun y hy => ?_,
      fun y hy => ?_, hscope⟩
    · rcases List.mem_cons.mp hy with rfl | hy
      · exact List.mem_cons_self
      · exact List.mem_cons_of_mem _ (h.bound y hy)
    · rcases List.mem_cons.mp hy with rfl | hy
      · exact hsymbol.mono (Nat.zero_le _)
      · exact h.numbered y hy
  exact hwider.bind_scalar x (ℛ.bound s' Δ symbol)

end Env.Meets

/-- The steps that change a session meet the regime. `arrays` are the arrays in scope, and the called
names have the property `A`. -/
structure Regime.Allows (ℛ : Regime) (p : Program) (arrays : List String) (A : String → Prop) :
    Prop where
  fresh : ∀ s base Δ, ℛ.scope s Δ → EncodeM.Meets ℛ s (freshSymbol base) fun x s' =>
    MadeAfter s.counter x ∧ ℛ.scope s' (x :: Δ)
  cell : ∀ s a i Δ bound, a ∈ arrays → (∀ x ∈ Δ, MadeAfter 0 x) → (∀ x ∈ Δ, x ∈ bound) →
    ℛ.number s Δ i → i.mentions bound = false →
      EncodeM.Meets ℛ s (cellSymbol a i) fun x s' => ℛ.number s' Δ (.const x)
  selector : ∀ s a i Δ, a ∈ arrays → (∀ x ∈ Δ, MadeAfter 0 x) → ℛ.number s Δ i →
    EncodeM.Meets ℛ s (selectorSymbol a) fun f s' => ℛ.number s' Δ (.app f [i])
  length : ∀ s a Δ, a ∈ arrays → (∀ x ∈ Δ, MadeAfter 0 x) →
    EncodeM.Meets ℛ s (lengthSymbol a) fun x s' => ℛ.number s' Δ (.const x)
  declare : ∀ s f n, A f → (∀ g, p.function? f = some g → g.params.length = n) →
    EncodeM.Meets ℛ s (declareFun (fnSymbol f) n) fun _ s' => ℛ.applies s' f n

/-- So does what the level below serves. -/
structure Regime.Serves (ℛ : Regime) (p : Program) (r : Resolver) (arrays : List String)
    (A : String → Prop) : Prop extends ℛ.Allows p arrays A where
  contract : ∀ s g args bound Δ, A g.name → p.Callable g → g.params.length = args.length →
    (∀ x ∈ Δ, MadeAfter 0 x) → (∀ x ∈ Δ, x ∈ bound) → (∀ t ∈ args, ℛ.number s Δ t) →
      ℛ.applies s g.name g.params.length →
        EncodeM.Meets ℛ s (r.contract g args bound) fun _ _ => True
  body : ∀ s name d env Δ, p.formula? name = some d → env.Meets ℛ s arrays Δ →
    EncodeM.Meets ℛ s (r.body d env) fun t s' => ℛ.truth s' Δ t

/-! ## Expressions and predicates -/

section

variable {ℛ : Regime} {p : Program} {r : Resolver} {arrays : List String} {A : String → Prop}

theorem meets_checkCall {s : Session} (g : FunctionDef) (name : String) (count : Nat) :
    EncodeM.Meets ℛ s (checkCall g name count) fun _ _ =>
      g.params.length = count ∧ g.hasArrayParams = false ∧ g.returns.length = 1 := by
  unfold checkCall
  refine .guard fun hcount => .guard fun harrays => ?_
  split
  · exact .throw
  · next hreturns =>
    exact .pure fun _ => ⟨not_not.mp hcount, by simpa using harrays, not_not.mp hreturns⟩

theorem meets_referredFormula {s : Session} (name : String) (count : Nat) :
    EncodeM.Meets ℛ s (referredFormula p r name count) fun d _ => p.formula? name = some d := by
  unfold referredFormula
  cases p.formula? name with
  | none => exact .throw
  | some d => exact .guard fun _ => .guard fun _ => .pure fun _ => rfl

variable {s : Session} {Δ : List String} {env : Env}

theorem meets_varTerm (henv : env.Meets ℛ s arrays Δ) (x : String) :
    EncodeM.Meets ℛ s (varTerm env x) fun t s' => ℛ.number s' Δ t := by
  unfold varTerm
  split
  · next t ht => exact .pure fun _ => henv.scalar x t ht
  · exact .throw
  · exact .throw

theorem meets_arrayName (henv : env.Meets ℛ s arrays Δ) (a : String) :
    EncodeM.Meets ℛ s (arrayName env a) fun name _ => name ∈ arrays := by
  unfold arrayName
  split
  · next name hname => exact .pure fun _ => henv.array a name hname
  · exact .throw
  · exact .throw

theorem meets_arrayArgument (henv : env.Meets ℛ s arrays Δ) (formula : String) (param : Param)
    (e : Expr) : EncodeM.Meets ℛ s (arrayArgument env formula param e) fun m _ =>
      ∃ name ∈ arrays, m = .array name := by
  unfold arrayArgument
  split
  · next a =>
    split
    · next name hname => exact .pure fun _ => ⟨name, henv.array a name hname, rfl⟩
    · exact .throw
    · exact .throw
  · exact .throw

theorem meets_cellTerm (hr : ℛ.Serves p r arrays A) {array : String} {index : Term}
    (harray : array ∈ arrays) (henv : env.Meets ℛ s arrays Δ) (hindex : ℛ.number s Δ index) :
    EncodeM.Meets ℛ s (cellTerm env array index) fun t s' => ℛ.number s' Δ t := by
  unfold cellTerm
  split
  · exact .bind (hr.selector s array index Δ harray henv.numbered hindex) fun _ _ _ _ h =>
      .pure fun _ => h
  · next hground =>
    exact .bind (hr.cell s array index Δ env.bound harray henv.numbered henv.bound hindex
      (Bool.eq_false_iff.mpr hground)) fun _ _ _ _ h => .pure fun _ => h

mutual

theorem meets_encodeExpr (hr : ℛ.Serves p r arrays A) : ∀ (e : Expr) {env : Env} {s : Session}
    {Δ : List String}, e.CallsOnly A → env.Meets ℛ s arrays Δ →
      EncodeM.Meets ℛ s (encodeExpr p r e env) fun t s' => ℛ.number s' Δ t
  | .const n, _, _, _, _, _ => by
    rw [encodeExpr]
    exact .pure fun _ => ℛ.int ..
  | .var x, _, _, _, _, henv => by
    rw [encodeExpr]
    exact meets_varTerm henv x
  | .neg e, _, _, _, hcalls, henv => by
    rw [encodeExpr]
    exact .bind (meets_encodeExpr hr e ((Expr.callsOnly_neg e).mp hcalls) henv) fun t _ _ _ ht =>
      .pure fun _ => ℛ.neg ht
  | .binary op a b, _, _, _, hcalls, henv => by
    rw [encodeExpr]
    obtain ⟨ha, hb⟩ := (Expr.callsOnly_binary op a b).mp hcalls
    exact .bind (meets_encodeExpr hr a ha henv) fun t s₁ hs₁ h₁ ht =>
      .bind (meets_encodeExpr hr b hb (henv.mono h₁ hs₁)) fun u s₂ hs₂ h₂ hu =>
        .pure fun _ => ℛ.arith op (ℛ.number_mono h₂ hs₂ ht) hu
  | .read a i, _, _, _, hcalls, henv => by
    rw [encodeExpr]
    exact .bind (meets_arrayName henv a) fun name s₁ hs₁ h₁ hname =>
      .bind (meets_encodeExpr hr i ((Expr.callsOnly_read a i).mp hcalls) (henv.mono h₁ hs₁))
        fun t s₂ hs₂ h₂ ht => meets_cellTerm hr hname ((henv.mono h₁ hs₁).mono h₂ hs₂) ht
  | .call f args, env, s, Δ, hcalls, henv => by
    rw [encodeExpr]
    obtain ⟨hf, hargs⟩ := (Expr.callsOnly_call f args).mp hcalls
    cases hlength : lengthOf? env f args with
    | some array =>
      obtain ⟨x, -, -, hx⟩ := lengthOf?_eq_some hlength
      exact .bind (hr.length s array Δ (henv.array x array hx) henv.numbered) fun _ _ _ _ h =>
        .pure fun _ => h
    | none =>
      cases hfind : p.function? f with
      | none =>
        refine .bind (meets_encodeArgs hr args hargs henv) fun ts s₁ hs₁ h₁ hts =>
          .bind (hr.declare s₁ f ts.length hf ?_) fun _ s₂ hs₂ h₂ happ =>
            .pure fun hs₃ => ℛ.app hs₃ henv.numbered happ fun t ht =>
              ℛ.number_mono h₂ hs₂ (hts.1 t ht)
        intro g hg
        rw [hfind] at hg
        cases hg
      | some g =>
        obtain ⟨-, rfl⟩ := Program.mem_of_function? hfind
        refine .bind (meets_checkCall g g.name args.length) fun _ s₁ hs₁ h₁ hcheck =>
          .bind (meets_encodeArgs hr args hargs (henv.mono h₁ hs₁)) fun ts s₂ hs₂ h₂ hts => ?_
        have hcount : g.params.length = ts.length := by rw [hcheck.1, hts.2]
        refine .bind (hr.declare s₂ g.name ts.length hf ?_) fun _ s₃ hs₃ h₃ happ => ?_
        · intro g' hg'
          rw [hfind] at hg'
          cases hg'
          exact hcount
        have hts₃ : ∀ t ∈ ts, ℛ.number s₃ Δ t := fun t ht => ℛ.number_mono h₃ hs₃ (hts.1 t ht)
        have happ₃ : ℛ.applies s₃ g.name g.params.length := by
          rw [hcount]
          exact happ
        -- what the contract adds to the session leaves the arguments numbers
        refine .bind (hr.contract s₃ g ts env.bound Δ hf ⟨hfind, hcheck.2.1, hcheck.2.2⟩ hcount
          henv.numbered henv.bound hts₃ happ₃) fun _ s₄ hs₄ h₄ _ => .pure fun hs₅ => ?_
        exact ℛ.app hs₅ henv.numbered (ℛ.applies_mono h₄ hs₄ happ) fun t ht =>
          ℛ.number_mono h₄ hs₄ (hts₃ t ht)
  | .cond q a b, _, _, _, hcalls, henv => by
    rw [encodeExpr]
    obtain ⟨hq, ha, hb⟩ := (Expr.callsOnly_cond q a b).mp hcalls
    exact .bind (meets_encodePred hr q hq henv) fun t s₁ hs₁ h₁ ht =>
      .bind (meets_encodeExpr hr a ha (henv.mono h₁ hs₁)) fun u s₂ hs₂ h₂ hu =>
        .bind (meets_encodeExpr hr b hb ((henv.mono h₁ hs₁).mono h₂ hs₂)) fun v s₃ hs₃ h₃ hv =>
          .pure fun _ => ℛ.ite (ℛ.truth_mono h₃ hs₃ (ℛ.truth_mono h₂ hs₂ ht))
            (ℛ.number_mono h₃ hs₃ hu) hv

theorem meets_encodeArgs (hr : ℛ.Serves p r arrays A) : ∀ (es : List Expr) {env : Env}
    {s : Session} {Δ : List String}, Expr.ArgsCallOnly A es → env.Meets ℛ s arrays Δ →
      EncodeM.Meets ℛ s (encodeArgs p r es env) fun ts s' =>
        (∀ t ∈ ts, ℛ.number s' Δ t) ∧ ts.length = es.length
  | [], _, _, _, _, _ => by
    rw [encodeArgs]
    exact .pure fun _ => ⟨fun t ht => absurd ht List.not_mem_nil, rfl⟩
  | e :: es, _, _, _, hcalls, henv => by
    rw [encodeArgs]
    obtain ⟨he, hes⟩ := (Expr.argsCallOnly_cons e es).mp hcalls
    refine .bind (meets_encodeExpr hr e he henv) fun t s₁ hs₁ h₁ ht =>
      .bind (meets_encodeArgs hr es hes (henv.mono h₁ hs₁)) fun ts s₂ hs₂ h₂ hts =>
        .pure fun _ => ⟨?_, by rw [List.length_cons, List.length_cons, hts.2]⟩
    exact List.forall_mem_cons.mpr ⟨ℛ.number_mono h₂ hs₂ ht, hts.1⟩

theorem meets_bindArgs (hr : ℛ.Serves p r arrays A) (formula : String) :
    ∀ (es : List Expr) (xs : List Param) {env inner : Env} {s : Session} {Δ : List String},
      Expr.ArgsCallOnly A es → env.Meets ℛ s arrays Δ → inner.Meets ℛ s arrays Δ →
      EncodeM.Meets ℛ s (bindArgs p r formula es xs env inner) fun env' s' =>
        env'.Meets ℛ s' arrays Δ
  | [], _, _, _, _, _, _, _, hinner => by
    rw [bindArgs]
    · exact .pure fun _ => hinner
    · intro _ _ _ _ h
      cases h
  | _ :: _, [], _, _, _, _, _, _, hinner => by
    rw [bindArgs]
    · exact .pure fun _ => hinner
    · intro _ _ _ _ _ h
      cases h
  | e :: es, x :: xs, env, _, s, Δ, hcalls, henv, hinner => by
    rw [bindArgs]
    obtain ⟨he, hes⟩ := (Expr.argsCallOnly_cons e es).mp hcalls
    cases x.type with
    | int =>
      have hscalar : EncodeM.Meets ℛ s (Meaning.scalar <$> encodeExpr p r e env)
          fun m s' => ∃ t, m = .scalar t ∧ ℛ.number s' Δ t :=
        .map ((meets_encodeExpr hr e he henv).imp fun t _ ht => ⟨t, rfl, ht⟩)
      refine .bind hscalar fun m s₁ hs₁ h₁ hm => ?_
      obtain ⟨t, rfl, ht⟩ := hm
      exact meets_bindArgs hr formula es xs hes (henv.mono h₁ hs₁)
        ((hinner.mono h₁ hs₁).bind_scalar x.name ht)
    | array =>
      refine .bind (meets_arrayArgument henv formula x e) fun m s₁ hs₁ h₁ hm => ?_
      obtain ⟨name, hname, rfl⟩ := hm
      exact meets_bindArgs hr formula es xs hes (henv.mono h₁ hs₁)
        ((hinner.mono h₁ hs₁).bind_array x.name hname)

theorem meets_encodePred (hr : ℛ.Serves p r arrays A) : ∀ (q : Pred) {env : Env} {s : Session}
    {Δ : List String}, q.CallsOnly A → env.Meets ℛ s arrays Δ →
      EncodeM.Meets ℛ s (encodePred p r q env) fun t s' => ℛ.truth s' Δ t
  | .bool b, _, _, _, _, _ => by
    rw [encodePred]
    exact .pure fun _ => ℛ.bool ..
  | .compare op a b, _, _, _, hcalls, henv => by
    rw [encodePred]
    obtain ⟨ha, hb⟩ := (Pred.callsOnly_compare op a b).mp hcalls
    exact .bind (meets_encodeExpr hr a ha henv) fun t s₁ hs₁ h₁ ht =>
      .bind (meets_encodeExpr hr b hb (henv.mono h₁ hs₁)) fun u s₂ hs₂ h₂ hu =>
        .pure fun _ => ℛ.compare op (ℛ.number_mono h₂ hs₂ ht) hu
  | .not q, _, _, _, hcalls, henv => by
    rw [encodePred]
    exact .bind (meets_encodePred hr q ((Pred.callsOnly_not q).mp hcalls) henv) fun t _ _ _ ht =>
      .pure fun _ => ℛ.not ht
  | .and a b, _, _, _, hcalls, henv => by
    rw [encodePred]
    obtain ⟨ha, hb⟩ := (Pred.callsOnly_and a b).mp hcalls
    refine .bind (meets_encodePred hr a ha henv) fun t s₁ hs₁ h₁ ht =>
      .bind (meets_encodePred hr b hb (henv.mono h₁ hs₁)) fun u s₂ hs₂ h₂ hu =>
        .pure fun _ => ℛ.junction .and ?_
    exact List.forall_mem_cons.mpr ⟨ℛ.truth_mono h₂ hs₂ ht, List.forall_mem_singleton.mpr hu⟩
  | .or a b, _, _, _, hcalls, henv => by
    rw [encodePred]
    obtain ⟨ha, hb⟩ := (Pred.callsOnly_or a b).mp hcalls
    refine .bind (meets_encodePred hr a ha henv) fun t s₁ hs₁ h₁ ht =>
      .bind (meets_encodePred hr b hb (henv.mono h₁ hs₁)) fun u s₂ hs₂ h₂ hu =>
        .pure fun _ => ℛ.junction .or ?_
    exact List.forall_mem_cons.mpr ⟨ℛ.truth_mono h₂ hs₂ ht, List.forall_mem_singleton.mpr hu⟩
  | .implies a b, _, _, _, hcalls, henv => by
    rw [encodePred]
    obtain ⟨ha, hb⟩ := (Pred.callsOnly_implies a b).mp hcalls
    exact .bind (meets_encodePred hr a ha henv) fun t s₁ hs₁ h₁ ht =>
      .bind (meets_encodePred hr b hb (henv.mono h₁ hs₁)) fun u s₂ hs₂ h₂ hu =>
        .pure fun _ => ℛ.implies (ℛ.truth_mono h₂ hs₂ ht) hu
  | .paren q, _, _, _, hcalls, henv => by
    rw [encodePred]
    exact meets_encodePred hr q ((Pred.callsOnly_paren q).mp hcalls) henv
  | .quantified k x q, env, s, Δ, hcalls, henv => by
    rw [encodePred]
    refine .guard fun _ => .bind (hr.fresh s x.name Δ henv.scope) fun symbol s₁ hs₁ h₁ hsymbol => ?_
    exact .bind (meets_encodePred hr q ((Pred.callsOnly_quantified k x q).mp hcalls)
      (henv.bindBound h₁ hs₁ x.name hsymbol.1 hsymbol.2)) fun t s₂ hs₂ h₂ ht =>
        .pure fun _ => ℛ.quantified k (ℛ.scope_mono h₂ hs₂ hsymbol.2) ht
  | .formula f args, env, s, Δ, hcalls, henv => by
    rw [encodePred]
    refine .bind (meets_referredFormula f args.length) fun d s₁ hs₁ h₁ hd =>
      .bind (meets_bindArgs hr f args d.params ((Pred.callsOnly_formula f args).mp hcalls)
        (henv.mono h₁ hs₁) (.of_empty rfl henv.bound henv.numbered (henv.mono h₁ hs₁).scope))
      fun inner s₂ _ _ hinner => ?_
    exact hr.body s₂ f d inner Δ hd hinner

end

end

end Contracts

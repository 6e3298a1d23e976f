import Mathlib
import Contracts.Proofs.SharedSession

/-!
# What the outcome of a query depends on

Whether an obligation can be encoded, and if not why, is decided by its syntax and by which names in
scope are numbers and which are arrays. The session plays no part in it, with one exception: a name
that the program does not define is declared with the number of arguments of its first call, and
later calls with another number are refused (`Clash`).

`EncodeM.Ends` says this of a step: there is one refusal, or none, that it ends with in every session.
The induction is on the syntax, over all environments in which the names have the same types. What is
brought in by a call can fail without a trace, so contracts have no part in the outcome; but they
declare names. If every unknown name has one number of arguments throughout, nothing can clash, and
functions are prepared with the same outcome in any session.
-/

set_option autoImplicit false

namespace Contracts

open Smt

/-! ## Calls with their numbers of arguments -/

mutual

/-- All calls have the property, which is one of the name and the number of arguments. -/
def Expr.CallsWith (A : String → Nat → Prop) : Expr → Prop
  | .const _ | .var _ => True
  | .neg e => e.CallsWith A
  | .binary _ a b => a.CallsWith A ∧ b.CallsWith A
  | .read _ i => i.CallsWith A
  | .call f args => A f args.length ∧ Expr.ArgsCallWith A args
  | .cond q a b => q.CallsWith A ∧ a.CallsWith A ∧ b.CallsWith A

/-- All calls in the arguments have the property. -/
def Expr.ArgsCallWith (A : String → Nat → Prop) : List Expr → Prop
  | [] => True
  | e :: es => e.CallsWith A ∧ Expr.ArgsCallWith A es

/-- All calls in the predicate, other than in the bodies of formulas, have the property. -/
def Pred.CallsWith (A : String → Nat → Prop) : Pred → Prop
  | .bool _ => True
  | .compare _ a b => a.CallsWith A ∧ b.CallsWith A
  | .not q | .paren q => q.CallsWith A
  | .and a b | .or a b | .implies a b => a.CallsWith A ∧ b.CallsWith A
  | .quantified _ _ q => q.CallsWith A
  | .formula _ args => Expr.ArgsCallWith A args

end

mutual

theorem Expr.callsWith_true : ∀ e : Expr, e.CallsWith fun _ _ => True
  | .const _ | .var _ => by rw [Expr.CallsWith]; trivial
  | .neg e => by rw [Expr.CallsWith]; exact e.callsWith_true
  | .binary _ a b => by rw [Expr.CallsWith]; exact ⟨a.callsWith_true, b.callsWith_true⟩
  | .read _ i => by rw [Expr.CallsWith]; exact i.callsWith_true
  | .call _ args => by rw [Expr.CallsWith]; exact ⟨trivial, Expr.argsCallWith_true args⟩
  | .cond q a b => by
    rw [Expr.CallsWith]
    exact ⟨q.callsWith_true, a.callsWith_true, b.callsWith_true⟩

theorem Expr.argsCallWith_true : ∀ es : List Expr, Expr.ArgsCallWith (fun _ _ => True) es
  | [] => by rw [Expr.ArgsCallWith]; trivial
  | e :: es => by rw [Expr.ArgsCallWith]; exact ⟨e.callsWith_true, Expr.argsCallWith_true es⟩

theorem Pred.callsWith_true : ∀ q : Pred, q.CallsWith fun _ _ => True
  | .bool _ => by rw [Pred.CallsWith]; trivial
  | .compare _ a b => by rw [Pred.CallsWith]; exact ⟨a.callsWith_true, b.callsWith_true⟩
  | .not q | .paren q | .quantified _ _ q => by rw [Pred.CallsWith]; exact q.callsWith_true
  | .and a b | .or a b | .implies a b => by
    rw [Pred.CallsWith]
    exact ⟨a.callsWith_true, b.callsWith_true⟩
  | .formula _ args => by rw [Pred.CallsWith]; exact Expr.argsCallWith_true args

end

/-- All calls in the contracts and formulas of the program have the property. -/
structure Program.CallsWith (A : String → Nat → Prop) (p : Program) : Prop where
  contracts : ∀ g ∈ p.functions, ∀ q, g.pre = some q ∨ g.post = some q → q.CallsWith A
  formulas : ∀ d ∈ p.formulas, d.body.CallsWith A

/-! ## Outcomes -/

/-- Names are declared with numbers of arguments that have the property, and functions of the program
with as many as they have parameters. -/
def Session.Declares (p : Program) (A : String → Nat → Prop) (s : Session) : Prop :=
  ∀ f n, s.arities.lookup (fnSymbol f) = some n →
    A f n ∧ ∀ g, p.function? f = some g → g.params.length = n

theorem Session.declares_new (p : Program) (A : String → Nat → Prop) : Session.new.Declares p A := by
  intro f n hn
  cases hn

/-- A name that the program does not define is called with two numbers of arguments. -/
inductive Clash (p : Program) (A : String → Nat → Prop) : VerifyError → Prop
  | unknown {f : String} {n m : Nat} (hf : p.function? f = none) (hn : A f n) (hm : A f m)
      (hne : n ≠ m) : Clash p A (.arity (fnSymbol f) n m)

/-- In any session with such declarations the step keeps them so. It is refused as `o` says, and if
that is not at all it has a result with the property `post`; or there is a clash. -/
def EncodeM.Ends {α : Type} (p : Program) (A : String → Nat → Prop) (o : Option VerifyError)
    (post : α → Prop) (x : EncodeM α) : Prop :=
  ∀ s : Session, s.Declares p A → (x s).2.Declares p A ∧
    (∀ a, (x s).1 = .ok a → o = none ∧ post a) ∧ ∀ e, (x s).1 = .error e → o = some e ∨ Clash p A e

section

variable {p : Program} {A : String → Nat → Prop}

namespace EncodeM.Ends

variable {α β : Type} {o o' : Option VerifyError}

theorem pure {a : α} {post : α → Prop} (h : post a) :
    (Pure.pure a : EncodeM α).Ends p A none post := by
  intro s hs
  refine ⟨hs, ?_, nofun⟩
  rintro a' ⟨⟩
  exact ⟨rfl, h⟩

theorem throw (e : VerifyError) {post : α → Prop} :
    (MonadExcept.throw e : EncodeM α).Ends p A (some e) post := by
  intro s hs
  refine ⟨hs, nofun, ?_⟩
  rintro e' ⟨⟩
  exact .inl rfl

/-- Of two steps the first that is refused decides. -/
theorem bind {x : EncodeM α} {f : α → EncodeM β} {post : α → Prop} {post' : β → Prop}
    (hx : x.Ends p A o post) (hf : ∀ a, post a → (f a).Ends p A o' post') :
    (x >>= f).Ends p A (o.or o') post' := by
  intro s hs
  obtain ⟨hs', hok, herror⟩ := hx s hs
  cases hfirst : x s with
  | mk result s' =>
    rw [hfirst] at hs' hok herror
    cases result with
    | error e =>
      rw [bind_of_error hfirst]
      refine ⟨hs', nofun, ?_⟩
      rintro e' ⟨⟩
      refine (herror e rfl).imp_left fun heq => ?_
      rw [heq]
      rfl
    | ok a =>
      rw [bind_of_ok hfirst]
      obtain ⟨rfl, hpost⟩ := hok a rfl
      exact hf a hpost s' hs'

/-- A check that can refuse the rest of a step. -/
theorem guard {c : Prop} [Decidable c] {e : VerifyError} {f : PUnit → EncodeM α}
    {post : α → Prop} (hf : ¬c → (f ⟨⟩).Ends p A o post) :
    (if c then MonadExcept.throw e >>= f else f ⟨⟩).Ends p A (if c then some e else o) post := by
  by_cases hc : c
  · rw [if_pos hc, if_pos hc]
    have hnever : (MonadExcept.throw e : EncodeM PUnit).Ends p A (some e) fun _ => False := throw e
    have hend : (MonadExcept.throw e >>= f).Ends p A ((some e).or none) post :=
      bind hnever fun _ h => h.elim
    exact hend
  · rw [if_neg hc, if_neg hc]
    exact hf hc

/-- A check at the end of a step. -/
theorem check {c : Prop} [Decidable c] {e : VerifyError} {post : PUnit → Prop}
    (h : ¬c → post ⟨⟩) : (if c then MonadExcept.throw e else Pure.pure ⟨⟩ : EncodeM PUnit).Ends p A
      (if c then some e else none) post := by
  by_cases hc : c
  · rw [if_pos hc, if_pos hc]
    exact throw e
  · rw [if_neg hc, if_neg hc]
    exact pure (h hc)

/-- A step that declares no functions and always has a result. -/
theorem of_local {x : EncodeM α} {post : α → Prop}
    (harities : ∀ s, (x s).2.arities = s.arities) (hok : ∀ s, ∃ a, (x s).1 = .ok a ∧ post a) :
    x.Ends p A none post := by
  intro s hs
  obtain ⟨a, ha, hpost⟩ := hok s
  rw [ha]
  refine ⟨fun f n hn => ?_, ?_, nofun⟩
  · rw [harities] at hn
    exact hs f n hn
  · rintro a' ⟨⟩
    exact ⟨rfl, hpost⟩

end EncodeM.Ends

/-- A declaration is refused only if there is a clash. -/
theorem ends_declareFun {f : String} {n : Nat} (hA : A f n)
    (hn : ∀ g, p.function? f = some g → g.params.length = n) :
    (declareFun (fnSymbol f) n).Ends p A none fun _ => True := by
  intro s hs
  unfold declareFun
  rw [EncodeM.get_bind]
  cases hlookup : s.arities.lookup (fnSymbol f) with
  | some expected =>
    dsimp only
    split
    · next hne =>
      refine ⟨hs, nofun, ?_⟩
      rintro e ⟨⟩
      obtain ⟨hexpected, hfits⟩ := hs f expected hlookup
      -- a function of the program is only ever declared with the number of its parameters
      refine .inr (.unknown ?_ hexpected hA hne)
      cases hfind : p.function? f with
      | none => rfl
      | some g => exact absurd ((hfits g hfind).symm.trans (hn g hfind)) hne
    · exact ⟨hs, fun _ _ => ⟨rfl, trivial⟩, nofun⟩
  | none =>
    refine ⟨fun f' m hm => ?_, fun _ _ => ⟨rfl, trivial⟩, nofun⟩
    have hcons : List.lookup (fnSymbol f') ((fnSymbol f, n) :: s.arities) = some m := hm
    rw [List.lookup_cons] at hcons
    split at hcons
    · next hsame =>
      have hsymbols : "fn." ++ f' = "fn." ++ f := beq_iff_eq.mp hsame
      obtain rfl := (String.append_right_inj "fn.").mp hsymbols
      obtain rfl := Option.some.inj hcons
      exact ⟨hA, hn⟩
    · exact hs f' m hcons

/-! ## Names in scope -/

/-- The type of what a name stands for. -/
def Meaning.type : Meaning → VarType
  | .scalar _ => .int
  | .array _ => .array

/-- The types of the names in scope. -/
def Env.types (env : Env) (x : String) : Option VarType := (env.lookup? x).map Meaning.type

theorem Env.types_bind (env : Env) (x : String) (m : Meaning) :
    (env.bind x m).types = Function.update env.types x (some m.type) := by
  funext y
  rw [Env.types, Env.lookup?_bind]
  by_cases hy : y = x
  · rw [if_pos hy, hy, Function.update_self]
    rfl
  · rw [if_neg hy, Function.update_of_ne hy]
    rfl

theorem Env.types_bindBound (env : Env) (x symbol : String) :
    (env.bindBound x symbol).types = Function.update env.types x (some .int) :=
  Env.types_bind env x (.scalar (.const symbol))

section

variable {env : Env} {x : String}

theorem Env.lookup?_of_types_none (h : env.types x = none) : env.lookup? x = none :=
  Option.map_eq_none_iff.mp h

theorem Env.lookup?_of_types_int (h : env.types x = some .int) :
    ∃ t, env.lookup? x = some (.scalar t) := by
  obtain ⟨m, hm, htype⟩ := Option.map_eq_some_iff.mp h
  cases m with
  | scalar t => exact ⟨t, hm⟩
  | array a => cases htype

theorem Env.lookup?_of_types_array (h : env.types x = some .array) :
    ∃ a, env.lookup? x = some (.array a) := by
  obtain ⟨m, hm, htype⟩ := Option.map_eq_some_iff.mp h
  cases m with
  | scalar t => cases htype
  | array a => exact ⟨a, hm⟩

end

/-- How the step ends is decided by the types of the names in scope. -/
def TypesDecide {α : Type} (p : Program) (A : String → Nat → Prop) (κ : String → Option VarType)
    (x : Env → EncodeM α) : Prop :=
  ∃ o, ∀ env : Env, env.types = κ → (x env).Ends p A o fun _ => True

/-- Two steps one after the other. -/
theorem TypesDecide.both {α β γ : Type} {κ : String → Option VarType} {x : Env → EncodeM α}
    {y : Env → EncodeM β} (hx : TypesDecide p A κ x) (hy : TypesDecide p A κ y) (f : α → β → γ) :
    TypesDecide p A κ fun env => x env >>= fun a => y env >>= fun b => pure (f a b) := by
  obtain ⟨o, hx⟩ := hx
  obtain ⟨o', hy⟩ := hy
  exact ⟨o.or (o'.or none), fun env henv =>
    (hx env henv).bind fun _ _ => (hy env henv).bind fun _ _ => .pure trivial⟩

/-- A step that goes by what a name stands for goes by its type, if all numbers and all arrays are
treated alike. -/
theorem ends_of_lookup {α : Type} {x : Env → EncodeM α} {post : α → Prop} (name : String)
    (κ : String → Option VarType) (o o' o'' : Option VerifyError)
    (hnone : ∀ env, env.lookup? name = none → (x env).Ends p A o post)
    (hscalar : ∀ env t, env.lookup? name = some (.scalar t) → (x env).Ends p A o' post)
    (harray : ∀ env a, env.lookup? name = some (.array a) → (x env).Ends p A o'' post) :
    ∃ o, ∀ env : Env, env.types = κ → (x env).Ends p A o post := by
  cases hκ : κ name with
  | none =>
    exact ⟨o, fun env henv => hnone env (Env.lookup?_of_types_none (henv ▸ hκ))⟩
  | some τ =>
    cases τ with
    | int =>
      refine ⟨o', fun env henv => ?_⟩
      obtain ⟨t, ht⟩ := Env.lookup?_of_types_int (henv ▸ hκ)
      exact hscalar env t ht
    | array =>
      refine ⟨o'', fun env henv => ?_⟩
      obtain ⟨a, ha⟩ := Env.lookup?_of_types_array (henv ▸ hκ)
      exact harray env a ha

theorem typesDecide_varTerm (x : String) (κ : String → Option VarType) :
    TypesDecide p A κ fun env => varTerm env x := by
  refine ends_of_lookup x κ (some (.unboundVariable x)) none (some (.arrayAsScalar x))
    (fun env h => ?_) (fun env t h => ?_) (fun env a h => ?_)
  · simp only [varTerm, h]
    exact .throw _
  · simp only [varTerm, h]
    exact .pure trivial
  · simp only [varTerm, h]
    exact .throw _

theorem typesDecide_arrayName (a : String) (κ : String → Option VarType) :
    TypesDecide p A κ fun env => arrayName env a := by
  refine ends_of_lookup a κ (some (.unboundVariable a)) (some (.notAnArray a)) none
    (fun env h => ?_) (fun env t h => ?_) (fun env b h => ?_)
  · simp only [arrayName, h]
    exact .throw _
  · simp only [arrayName, h]
    exact .throw _
  · simp only [arrayName, h]
    exact .pure trivial

theorem ends_arrayArgument (formula : String) (x : Param) (e : Expr)
    (κ : String → Option VarType) : ∃ o, ∀ env : Env, env.types = κ →
      (arrayArgument env formula x e).Ends p A o fun m => m.type = .array := by
  by_cases hvar : ∃ a, e = .var a
  · obtain ⟨a, rfl⟩ := hvar
    refine ends_of_lookup a κ (some (.unboundVariable a))
      (some (.scalarForArray a x.name formula)) none
      (fun env h => ?_) (fun env t h => ?_) (fun env b h => ?_)
    · rw [arrayArgument, h]
      exact .throw _
    · rw [arrayArgument, h]
      exact .throw _
    · rw [arrayArgument, h]
      exact .pure rfl
  · refine ⟨some (.arrayNameNeeded x.name formula e), fun env _ => ?_⟩
    rw [arrayArgument]
    · exact .throw _
    · exact fun a ha => hvar ⟨a, ha⟩

theorem ends_cellTerm (env : Env) (array : String) (index : Term) :
    (cellTerm env array index).Ends p A none fun _ => True := by
  unfold cellTerm
  split
  · have hselector : (selectorSymbol array).Ends p A none fun _ => True := by
      refine .of_local (fun s => ?_) fun s =>
        ⟨_, congrArg Prod.fst (selectorSymbol_run array s), trivial⟩
      obtain ⟨scope, counter, heq⟩ := selectorSymbol_local array s
      rw [heq]
    exact hselector.bind fun _ _ => .pure trivial
  · have hcell : (cellSymbol array index).Ends p A none fun _ => True := by
      refine .of_local (fun s => ?_) fun s => ?_
      · obtain ⟨scope, counter, heq⟩ := cellSymbol_local array index s
        rw [heq]
      · cases hfind : s.scope.cells.find? (fun c => c.array = array ∧ c.index = index) with
        | some c => exact ⟨_, congrArg Prod.fst (cellSymbol_run_of_mem hfind), trivial⟩
        | none => exact ⟨_, congrArg Prod.fst (cellSymbol_run_new hfind), trivial⟩
    exact hcell.bind fun _ _ => .pure trivial

theorem ends_lengthSymbol (array : String) :
    (lengthSymbol array).Ends p A none fun _ => True := by
  refine .of_local (fun s => ?_) fun s => ⟨_, congrArg Prod.fst (lengthSymbol_run array s), trivial⟩
  obtain ⟨scope, counter, heq⟩ := lengthSymbol_local array s
  rw [heq]

theorem ends_checkCall (g : FunctionDef) (name : String) (count : Nat) :
    ∃ o, (checkCall g name count).Ends p A o fun _ => g.params.length = count := by
  unfold checkCall
  exact ⟨_, .guard fun hcount => .guard fun _ => .check fun _ => not_not.mp hcount⟩

theorem ends_referredFormula {name : String} {d : FormulaDef} (hd : p.formula? name = some d)
    (r : Resolver) (count : Nat) :
    ∃ o, (referredFormula p r name count).Ends p A o fun d' => d' = d := by
  unfold referredFormula
  rw [hd]
  exact ⟨_, .guard fun _ => .guard fun _ => .pure rfl⟩

/-- Whether a call asks for the length of an array is decided by the types. -/
theorem lengthOf?_of_types (f : String) (args : List Expr) (κ : String → Option VarType) :
    (∀ env : Env, env.types = κ → ∃ a, lengthOf? env f args = some a) ∨
      ∀ env : Env, env.types = κ → lengthOf? env f args = none := by
  by_cases hcall : ∃ a, f = "length" ∧ args = [.var a] ∧ κ a = some .array
  · obtain ⟨a, rfl, rfl, hκ⟩ := hcall
    refine .inl fun env henv => ?_
    obtain ⟨b, hb⟩ := Env.lookup?_of_types_array (henv ▸ hκ)
    exact ⟨b, by rw [lengthOf?, hb]⟩
  · refine .inr fun env henv => ?_
    cases hlength : lengthOf? env f args with
    | none => rfl
    | some name =>
      obtain ⟨a, rfl, rfl, ha⟩ := lengthOf?_eq_some hlength
      refine absurd ⟨a, rfl, rfl, ?_⟩ hcall
      rw [← henv, Env.types, ha]
      rfl

/-! ## Expressions and predicates -/

/-- What a level asks for ends in one way: contracts are brought in without fail, and the body of a
formula is refused or not by the types of the names in scope. -/
structure Resolver.Ends (r : Resolver) (p : Program) (A : String → Nat → Prop) : Prop where
  contract : ∀ g ∈ p.functions, ∀ args bound, (r.contract g args bound).Ends p A none fun _ => True
  body : ∀ d ∈ p.formulas, ∀ κ, TypesDecide p A κ (r.body d)

variable {r : Resolver}

mutual

theorem typesDecide_encodeExpr (hr : r.Ends p A) : ∀ e : Expr, e.CallsWith A → ∀ κ,
    TypesDecide p A κ (encodeExpr p r e)
  | .const n, _, κ => by
    refine ⟨none, fun env _ => ?_⟩
    rw [encodeExpr]
    exact .pure trivial
  | .var x, _, κ => by
    obtain ⟨o, h⟩ := typesDecide_varTerm (p := p) (A := A) x κ
    refine ⟨o, fun env henv => ?_⟩
    rw [encodeExpr]
    exact h env henv
  | .neg e, hcalls, κ => by
    rw [Expr.CallsWith] at hcalls
    obtain ⟨o, h⟩ := typesDecide_encodeExpr hr e hcalls κ
    refine ⟨o.or none, fun env henv => ?_⟩
    rw [encodeExpr]
    exact (h env henv).bind fun _ _ => .pure trivial
  | .binary op a b, hcalls, κ => by
    rw [Expr.CallsWith] at hcalls
    simp only [TypesDecide, encodeExpr]
    exact (typesDecide_encodeExpr hr a hcalls.1 κ).both (typesDecide_encodeExpr hr b hcalls.2 κ)
      (arithTerm op)
  | .read a i, hcalls, κ => by
    rw [Expr.CallsWith] at hcalls
    obtain ⟨o, ha⟩ := typesDecide_arrayName (p := p) (A := A) a κ
    obtain ⟨o', hi⟩ := typesDecide_encodeExpr hr i hcalls κ
    refine ⟨o.or (o'.or none), fun env henv => ?_⟩
    rw [encodeExpr]
    exact (ha env henv).bind fun _ _ => (hi env henv).bind fun _ _ =>
      ends_cellTerm env _ _
  | .call f args, hcalls, κ => by
    rw [Expr.CallsWith] at hcalls
    rcases lengthOf?_of_types f args κ with hlength | hcall
    · refine ⟨none, fun env henv => ?_⟩
      obtain ⟨a, ha⟩ := hlength env henv
      rw [encodeExpr, ha]
      exact (ends_lengthSymbol a).bind fun _ _ => .pure trivial
    · obtain ⟨o, hargs⟩ := ends_encodeArgs hr args hcalls.2 κ
      cases hfind : p.function? f with
      | none =>
        refine ⟨o.or none, fun env henv => ?_⟩
        rw [encodeExpr, hcall env henv, hfind]
        refine (hargs env henv).bind fun ts hts =>
          (ends_declareFun (hts ▸ hcalls.1) fun g hg => ?_).bind fun _ _ => .pure trivial
        rw [hfind] at hg
        cases hg
      | some g =>
        -- the call is checked before its arguments, and what they are refused for comes second
        obtain ⟨o', hcheck⟩ := ends_checkCall (p := p) (A := A) g f args.length
        refine ⟨o'.or (o.or none), fun env henv => ?_⟩
        rw [encodeExpr, hcall env henv, hfind]
        refine hcheck.bind fun _ hcount => (hargs env henv).bind fun ts hts =>
          (ends_declareFun (hts ▸ hcalls.1) fun g' hg' => ?_).bind fun _ _ =>
            (hr.contract g (Program.mem_of_function? hfind).1 ts env.bound).bind fun _ _ =>
              .pure trivial
        rw [hfind] at hg'
        cases hg'
        rw [hcount, hts]
  | .cond q a b, hcalls, κ => by
    rw [Expr.CallsWith] at hcalls
    obtain ⟨o, hq⟩ := typesDecide_encodePred hr q hcalls.1 κ
    obtain ⟨o', ha⟩ := typesDecide_encodeExpr hr a hcalls.2.1 κ
    obtain ⟨o'', hb⟩ := typesDecide_encodeExpr hr b hcalls.2.2 κ
    refine ⟨o.or (o'.or (o''.or none)), fun env henv => ?_⟩
    rw [encodeExpr]
    exact (hq env henv).bind fun _ _ => (ha env henv).bind fun _ _ =>
      (hb env henv).bind fun _ _ => .pure trivial

theorem ends_encodeArgs (hr : r.Ends p A) : ∀ es : List Expr, Expr.ArgsCallWith A es → ∀ κ, ∃ o,
    ∀ env : Env, env.types = κ →
      (encodeArgs p r es env).Ends p A o fun ts => ts.length = es.length
  | [], _, κ => by
    refine ⟨none, fun env _ => ?_⟩
    rw [encodeArgs]
    exact .pure rfl
  | e :: es, hcalls, κ => by
    rw [Expr.ArgsCallWith] at hcalls
    obtain ⟨o, he⟩ := typesDecide_encodeExpr hr e hcalls.1 κ
    obtain ⟨o', hes⟩ := ends_encodeArgs hr es hcalls.2 κ
    refine ⟨o.or (o'.or none), fun env henv => ?_⟩
    rw [encodeArgs]
    exact (he env henv).bind fun _ _ => (hes env henv).bind fun _ hts =>
      .pure (by rw [List.length_cons, List.length_cons, hts])

theorem ends_bindArgs (hr : r.Ends p A) (formula : String) : ∀ (es : List Expr) (xs : List Param),
    Expr.ArgsCallWith A es → ∀ κ κ₀, ∃ o κ₁, ∀ env inner : Env, env.types = κ → inner.types = κ₀ →
      (bindArgs p r formula es xs env inner).Ends p A o fun env' => env'.types = κ₁
  | [], _, _, κ, κ₀ => by
    refine ⟨none, κ₀, fun env inner _ hinner => ?_⟩
    rw [bindArgs]
    · exact .pure hinner
    · exact nofun
  | _ :: _, [], _, κ, κ₀ => by
    refine ⟨none, κ₀, fun env inner _ hinner => ?_⟩
    rw [bindArgs]
    · exact .pure hinner
    · exact nofun
  | e :: es, x :: xs, hcalls, κ, κ₀ => by
    rw [Expr.ArgsCallWith] at hcalls
    obtain ⟨o, κ₁, hes⟩ := ends_bindArgs hr formula es xs hcalls.2 κ
      (Function.update κ₀ x.name (some x.type))
    -- whatever the argument, the parameter is in scope with its own type
    have hrest : ∀ (env inner : Env) (m : Meaning), env.types = κ → inner.types = κ₀ →
        m.type = x.type → (bindArgs p r formula es xs env (inner.bind x.name m)).Ends p A o
          fun env' => env'.types = κ₁ := by
      intro env inner m henv hinner hm
      refine hes env _ henv ?_
      rw [Env.types_bind, hinner, hm]
    cases htype : x.type with
    | int =>
      obtain ⟨o', he⟩ := typesDecide_encodeExpr hr e hcalls.1 κ
      refine ⟨(o'.or none).or o, κ₁, fun env inner henv hinner => ?_⟩
      rw [bindArgs, htype]
      have hscalar : (Meaning.scalar <$> encodeExpr p r e env).Ends p A (o'.or none)
          fun m => m.type = .int := .bind (he env henv) fun _ _ => .pure rfl
      exact hscalar.bind fun m hm => hrest env inner m henv hinner (hm.trans htype.symm)
    | array =>
      obtain ⟨o', harray⟩ := ends_arrayArgument (p := p) (A := A) formula x e κ
      refine ⟨o'.or o, κ₁, fun env inner henv hinner => ?_⟩
      rw [bindArgs, htype]
      exact (harray env henv).bind fun m hm => hrest env inner m henv hinner (hm.trans htype.symm)

theorem typesDecide_encodePred (hr : r.Ends p A) : ∀ q : Pred, q.CallsWith A → ∀ κ,
    TypesDecide p A κ (encodePred p r q)
  | .bool b, _, κ => by
    refine ⟨none, fun env _ => ?_⟩
    rw [encodePred]
    exact .pure trivial
  | .compare op a b, hcalls, κ => by
    rw [Pred.CallsWith] at hcalls
    simp only [TypesDecide, encodePred]
    exact (typesDecide_encodeExpr hr a hcalls.1 κ).both (typesDecide_encodeExpr hr b hcalls.2 κ)
      (cmpTerm op)
  | .not q, hcalls, κ => by
    rw [Pred.CallsWith] at hcalls
    obtain ⟨o, h⟩ := typesDecide_encodePred hr q hcalls κ
    refine ⟨o.or none, fun env henv => ?_⟩
    rw [encodePred]
    exact (h env henv).bind fun _ _ => .pure trivial
  | .and a b, hcalls, κ => by
    rw [Pred.CallsWith] at hcalls
    simp only [TypesDecide, encodePred]
    exact (typesDecide_encodePred hr a hcalls.1 κ).both (typesDecide_encodePred hr b hcalls.2 κ)
      Term.and
  | .or a b, hcalls, κ => by
    rw [Pred.CallsWith] at hcalls
    simp only [TypesDecide, encodePred]
    exact (typesDecide_encodePred hr a hcalls.1 κ).both (typesDecide_encodePred hr b hcalls.2 κ)
      Term.or
  | .implies a b, hcalls, κ => by
    rw [Pred.CallsWith] at hcalls
    simp only [TypesDecide, encodePred]
    exact (typesDecide_encodePred hr a hcalls.1 κ).both (typesDecide_encodePred hr b hcalls.2 κ)
      Term.implies
  | .paren q, hcalls, κ => by
    rw [Pred.CallsWith] at hcalls
    obtain ⟨o, h⟩ := typesDecide_encodePred hr q hcalls κ
    refine ⟨o, fun env henv => ?_⟩
    rw [encodePred]
    exact h env henv
  | .quantified k x q, hcalls, κ => by
    rw [Pred.CallsWith] at hcalls
    obtain ⟨o, hq⟩ := typesDecide_encodePred hr q hcalls (Function.update κ x.name (some .int))
    refine ⟨if x.type ≠ .int then some (.quantifiedArray x.name) else Option.or none (o.or none),
      fun env henv => ?_⟩
    rw [encodePred]
    have hfresh : (freshSymbol x.name).Ends p A none fun _ => True :=
      .of_local (fun _ => rfl) fun _ => ⟨_, rfl, trivial⟩
    refine .guard fun _ => hfresh.bind fun symbol _ =>
      (hq (env.bindBound x.name symbol) ?_).bind fun _ _ => .pure trivial
    rw [Env.types_bindBound, henv]
  | .formula f args, hcalls, κ => by
    rw [Pred.CallsWith] at hcalls
    cases hd : p.formula? f with
    | none =>
      refine ⟨(some (.unknownFormula f)).or none, fun env _ => ?_⟩
      rw [encodePred]
      have hnever : (referredFormula p r f args.length).Ends p A (some (.unknownFormula f))
          fun _ => False := by
        rw [referredFormula, hd]
        exact .throw _
      exact hnever.bind fun _ h => h.elim
    | some d =>
      -- the body sees the parameters only, so its types do not depend on where it is used
      obtain ⟨o, hrefer⟩ := ends_referredFormula (A := A) hd r args.length
      obtain ⟨o', κ₁, hargs⟩ := ends_bindArgs hr f args d.params hcalls κ fun _ => none
      obtain ⟨o'', hbody⟩ := hr.body d (List.mem_of_find?_eq_some hd) κ₁
      refine ⟨o.or (o'.or o''), fun env henv => ?_⟩
      rw [encodePred]
      refine hrefer.bind fun d' hd' => ?_
      subst hd'
      exact (hargs env env.closed henv rfl).bind fun inner hinner => hbody inner hinner

end

/-! ## All levels -/

/-- The step keeps declarations as they should be, also if it fails. -/
def EncodeM.KeepsDeclared {α : Type} (p : Program) (A : String → Nat → Prop) (x : EncodeM α) : Prop :=
  ∀ s : Session, s.Declares p A → (x s).2.Declares p A

namespace EncodeM.KeepsDeclared

variable {α β : Type}

theorem of_arities {x : EncodeM α} (h : ∀ s, (x s).2.arities = s.arities) : x.KeepsDeclared p A := by
  intro s hs f n hn
  rw [h] at hn
  exact hs f n hn

theorem pure (a : α) : (Pure.pure a : EncodeM α).KeepsDeclared p A := of_arities fun _ => rfl

theorem bind {x : EncodeM α} {f : α → EncodeM β} (hx : x.KeepsDeclared p A)
    (hf : ∀ a, (f a).KeepsDeclared p A) : (x >>= f).KeepsDeclared p A := by
  intro s hs
  cases hfirst : x s with
  | mk result s' =>
    have hs' := hx s hs
    rw [hfirst] at hs'
    cases result with
    | error e =>
      rw [bind_of_error hfirst]
      exact hs'
    | ok a =>
      rw [bind_of_ok hfirst]
      exact hf a s' hs'

end EncodeM.KeepsDeclared

section

variable {g : FunctionDef} {post : Pred}

theorem keepsDeclared_encodePred (hr : r.Ends p A) {q : Pred} (hq : q.CallsWith A) (env : Env) :
    (encodePred p r q env).KeepsDeclared p A := by
  obtain ⟨o, h⟩ := typesDecide_encodePred hr q hq env.types
  exact fun s hs => (h env rfl s hs).1

theorem keepsDeclared_contractInstance (hr : r.Ends p A) (hp : p.CallsWith A) (hg : g ∈ p.functions)
    (hpost : g.post = some post) (args : List Term) (bound : List String) (guard : List Term) :
    (contractInstance p r g post args bound guard).KeepsDeclared p A := by
  unfold contractInstance
  refine .bind (keepsDeclared_encodePred hr (hp.contracts g hg post (.inr hpost)) _) fun _ => ?_
  cases hpre : g.pre with
  | none => exact .bind (.pure _) fun _ => .pure _
  | some q =>
    exact .bind (keepsDeclared_encodePred hr (hp.contracts g hg q (.inl hpre)) _) fun _ =>
      .bind (.pure _) fun _ => .pure _

theorem keepsDeclared_literalInstances (hr : r.Ends p A) (hp : p.CallsWith A) (hg : g ∈ p.functions)
    (hpost : g.post = some post) (ks : List Int) :
    (literalInstances p r g post ks).KeepsDeclared p A := by
  induction ks with
  | nil =>
    rw [literalInstances]
    exact .pure _
  | cons k ks ih =>
    rw [literalInstances]
    exact .bind (keepsDeclared_contractInstance hr hp hg hpost _ _ _) fun _ =>
      .bind ih fun _ => .pure _

theorem keepsDeclared_contractAxioms (hr : r.Ends p A) (hp : p.CallsWith A) (hg : g ∈ p.functions) :
    (contractAxioms p r g).KeepsDeclared p A := by
  unfold contractAxioms
  cases hpost : g.post with
  | none => exact .pure _
  | some post =>
    have hliterals := keepsDeclared_literalInstances hr hp hg hpost
    have hinstance := keepsDeclared_contractInstance hr hp hg hpost
    dsimp only
    split
    · unfold inductiveAxioms
      exact .bind (hliterals _) fun _ => .bind (.of_arities fun _ => rfl) fun _ =>
        .bind (hinstance _ _ _) fun _ => .bind (hliterals _) fun _ => .pure _
    · unfold instanceAxioms
      have hformals : ∀ (names : List String) (s : Session),
          (names.foldl Session.declareGlobalConst s).arities = s.arities := by
        intro names
        induction names with
        | nil => exact fun _ => rfl
        | cons x names ih =>
          intro s
          rw [List.foldl_cons, ih, Session.declareGlobalConst]
          split <;> rfl
      refine .bind (.of_arities fun s => hformals _ s) fun _ => .bind (hinstance _ _ _) fun _ => ?_
      split
      · exact .bind (.pure _) fun _ => .pure _
      · exact .bind (hliterals _) fun _ => .pure _

/-- The contract of a function is brought in, or what of it can be. -/
theorem ends_contract (hr : r.Ends p A) (hp : p.CallsWith A) (hg : g ∈ p.functions)
    (args : List Term) (bound : List String) :
    (ensureAxioms p r g >>= fun _ => instantiateCall p r g args bound).Ends p A none
      fun _ => True := by
  have haxioms : (ensureAxioms p r g).Ends p A none fun _ => True := by
    intro s hs
    rcases ensureAxioms_cases p r g s with ⟨-, hrun⟩ | ⟨-, result, s', haxioms, hrun⟩
    · rw [hrun]
      exact ⟨hs, fun _ _ => ⟨rfl, trivial⟩, nofun⟩
    · have hs' := keepsDeclared_contractAxioms hr hp hg (s.entered g.name) hs
      rw [haxioms] at hs'
      rw [hrun]
      exact ⟨hs', fun _ _ => ⟨rfl, trivial⟩, nofun⟩
  have hcall : (instantiateCall p r g args bound).Ends p A none fun _ => True := by
    intro s hs
    rcases instantiateCall_cases p r g s args bound with
      ⟨-, hrun⟩ | ⟨post, hpost, -, result, s', hinstance, hrun⟩
    · rw [hrun]
      exact ⟨hs, fun _ _ => ⟨rfl, trivial⟩, nofun⟩
    · have hs' := keepsDeclared_contractInstance hr hp hg hpost args bound [] (s.noted g.name args) hs
      rw [hinstance] at hs'
      rw [hrun]
      exact ⟨hs', fun _ _ => ⟨rfl, trivial⟩, nofun⟩
  exact haxioms.bind fun _ _ => hcall

end

theorem resolver_ends (hp : p.CallsWith A) (n : Nat) (expanding : List String) :
    (resolver p n expanding).Ends p A := by
  induction n generalizing expanding with
  | zero =>
    exact ⟨fun g hg args bound => .pure trivial,
      fun d hd κ => ⟨some (.selfReference d.name), fun env _ => .throw _⟩⟩
  | succ n ih =>
    exact ⟨fun g hg args bound => ends_contract (ih expanding) hp hg args bound,
      fun d hd κ => typesDecide_encodePred (ih (d.name :: expanding)) d.body (hp.formulas d hd) κ⟩

/-! ## Queries -/

/-- What was refused, if anything. -/
def refusal {α : Type} : Except VerifyError α → Option VerifyError
  | .ok _ => none
  | .error e => some e

theorem EncodeM.Ends.refusal {α : Type} {x : EncodeM α} {o : Option VerifyError} {post : α → Prop}
    (h : x.Ends p A o post) {s : Session} (hs : s.Declares p A) :
    Contracts.refusal (x s).1 = o ∨ ∃ e, Contracts.refusal (x s).1 = some e ∧ Clash p A e := by
  obtain ⟨-, hok, herror⟩ := h s hs
  cases hresult : (x s).1 with
  | ok a => exact .inl (hok a hresult).1.symm
  | error e => exact (herror e hresult).imp Eq.symm fun hclash => ⟨e, rfl, hclash⟩

theorem query_ends (hp : p.CallsWith A) (f : FunctionDef) {obligation : Pred}
    (hobligation : obligation.CallsWith A) :
    ∃ o, (p.query f obligation).Ends p A o fun _ => True := by
  obtain ⟨o, h⟩ := typesDecide_encodePred (resolver_ends hp p.levels []) obligation hobligation
    (Env.ofFunction f).types
  refine ⟨o.or none, fun s hs => ?_⟩
  have hstart : (s.forFunction f).Declares p A := by
    intro f' n hn
    rw [(sameAxioms_forFunction (p := p) s f).2] at hn
    exact hs f' n hn
  have hrest : (p.encodePred obligation (Env.ofFunction f) >>= fun goal => get >>= fun s' =>
      pure (⟨f.name, s'.assemble goal, ⟨f.scalars, s'.scope.cells⟩⟩ : Query)).Ends p A (o.or none)
      fun _ => True :=
    (h (Env.ofFunction f) rfl).bind fun _ _ => .of_local (fun _ => rfl) fun _ => ⟨_, rfl, trivial⟩
  exact hrest (s.forFunction f) hstart

theorem sessionAfter_declares (hp : p.CallsWith A) {history : List (FunctionDef × Pred)}
    (hhistory : ∀ h ∈ history, h.2.CallsWith A) : (p.sessionAfter history).Declares p A := by
  refine p.sessionAfter_induction (Session.declares_new p A) fun h hh s hs => ?_
  obtain ⟨o, hends⟩ := query_ends hp h.1 (hhistory h hh)
  exact (hends s hs).1

/-- The outcome of a query is the same in all sessions, or there is a clash in one of them. -/
theorem query_refusal_eq (hp : p.CallsWith A) (f : FunctionDef) {obligation : Pred}
    (hobligation : obligation.CallsWith A) {s s' : Session} (hs : s.Declares p A)
    (hs' : s'.Declares p A) :
    refusal (p.query f obligation s).1 = refusal (p.query f obligation s').1 ∨
      ∃ e, Clash p A e ∧ (refusal (p.query f obligation s).1 = some e ∨
        refusal (p.query f obligation s').1 = some e) := by
  obtain ⟨o, hends⟩ := query_ends hp f hobligation
  rcases hends.refusal hs with heq | ⟨e, he, hclash⟩
  · rcases hends.refusal hs' with heq' | ⟨e, he, hclash⟩
    · exact .inl (heq.trans heq'.symm)
    · exact .inr ⟨e, hclash, .inr he⟩
  · exact .inr ⟨e, hclash, .inl he⟩

/-! ## Plans -/

/-- Where a function was stopped before a solver is asked, and why. -/
def Preparation.stop? : Preparation → Option (Stage × VerifyError)
  | .stopped stage e => some (stage, e)
  | .nothingToProve | .ready _ => none

theorem Program.prepare_stop? {close : Bool} {f : FunctionDef} {s s' : Session}
    (h : ∀ obligation, f.obligation close = .ok (some obligation) →
      refusal (p.query f obligation s).1 = refusal (p.query f obligation s').1) :
    (p.prepare close f s).1.stop? = (p.prepare close f s').1.stop? := by
  unfold Program.prepare
  cases hobligation : f.obligation close with
  | error e => rfl
  | ok o =>
    cases o with
    | none => rfl
    | some obligation =>
      have hsame := h obligation hobligation
      dsimp only
      revert hsame
      rcases p.query f obligation s with ⟨e | query, s₁⟩ <;>
        rcases p.query f obligation s' with ⟨e' | query', s₁'⟩
      · intro hsame
        cases hsame
        rfl
      · exact nofun
      · exact nofun
      · exact fun _ => rfl

end

/-- A name that the program does not define has the number of arguments that `count` gives it. -/
def Program.CountedBy (p : Program) (count : String → Nat) (f : String) (n : Nat) : Prop :=
  p.function? f = none → n = count f

theorem Program.CountedBy.not_clash {p : Program} {count : String → Nat} {e : VerifyError} :
    ¬Clash p (p.CountedBy count) e := by
  rintro ⟨hf, hn, hm, hne⟩
  exact hne ((hn hf).trans (hm hf).symm)

/-- **Functions are prepared independently of each other**, except for the numbers of arguments of
names that the program does not define. A query in a session that has seen any queries, failed ones
included, is refused for the same reason as in a new session, or in neither; or in one of the two it
is refused because such a name is called with two numbers of arguments. If each of these names always
has one number of arguments, the outcomes are the same, and plans for one job and for several stop the
same functions for the same reasons. -/
theorem query_outcome_alike (p : Program) :
    (∀ (history : List (FunctionDef × Pred)) (f : FunctionDef) (obligation : Pred),
      refusal (p.query f obligation (p.sessionAfter history)).1 =
        refusal (p.query f obligation Session.new).1 ∨
      ∃ (u : String) (n m : Nat), p.function? u = none ∧ n ≠ m ∧
        (refusal (p.query f obligation (p.sessionAfter history)).1 =
            some (.arity (fnSymbol u) n m) ∨
          refusal (p.query f obligation Session.new).1 = some (.arity (fnSymbol u) n m))) ∧
    ∀ count : String → Nat, p.CallsWith (p.CountedBy count) →
      (∀ history : List (FunctionDef × Pred), (∀ h ∈ history, h.2.CallsWith (p.CountedBy count)) →
        ∀ (f : FunctionDef) (obligation : Pred), obligation.CallsWith (p.CountedBy count) →
        refusal (p.query f obligation (p.sessionAfter history)).1 =
          refusal (p.query f obligation Session.new).1) ∧
      ∀ close : Bool, (∀ h ∈ obligations close p.functions, h.2.CallsWith (p.CountedBy count)) →
        ∀ jobs : Nat, 1 < jobs → (p.plan close 1).map (Prod.map id Preparation.stop?) =
          (p.plan close jobs).map (Prod.map id Preparation.stop?) := by
  constructor
  · -- nothing is asked of calls here, so there can be a clash
    intro history f obligation
    have hp : p.CallsWith fun _ _ => True :=
      ⟨fun _ _ q _ => q.callsWith_true, fun d _ => d.body.callsWith_true⟩
    have hhistory := sessionAfter_declares hp fun h (_ : h ∈ history) => h.2.callsWith_true
    refine (query_refusal_eq hp f obligation.callsWith_true hhistory
      (Session.declares_new p _)).imp_right ?_
    rintro ⟨e, ⟨hf, -, -, hne⟩, he⟩
    exact ⟨_, _, _, hf, hne, he⟩
  · intro count hp
    have hsame : ∀ history : List (FunctionDef × Pred),
        (∀ h ∈ history, h.2.CallsWith (p.CountedBy count)) → ∀ (f : FunctionDef) (obligation : Pred),
          obligation.CallsWith (p.CountedBy count) →
          refusal (p.query f obligation (p.sessionAfter history)).1 =
            refusal (p.query f obligation Session.new).1 := by
      intro history hhistory f obligation hobligation
      rcases query_refusal_eq hp f hobligation (sessionAfter_declares hp hhistory)
        (Session.declares_new p _) with heq | ⟨e, hclash, -⟩
      · exact heq
      · exact absurd hclash Program.CountedBy.not_clash
    refine ⟨hsame, fun close hobligations jobs hjobs => List.ext_getElem? fun i => ?_⟩
    rw [List.getElem?_map, List.getElem?_map, Program.plan_shared, Program.plan_alone close hjobs]
    cases hf : p.functions[i]? with
    | none => rfl
    | some f =>
      refine congrArg (fun o => some (f, o)) (Program.prepare_stop? fun obligation hobligation => ?_)
      have hmem : (f, obligation) ∈ obligations close p.functions :=
        mem_obligations.mpr ⟨List.mem_of_getElem? hf, hobligation⟩
      refine hsame _ (fun h hh => ?_) f obligation (hobligations _ hmem)
      obtain ⟨hearlier, hbuilt⟩ := mem_obligations.mp hh
      exact hobligations h (mem_obligations.mpr ⟨List.mem_of_mem_take hearlier, hbuilt⟩)

/-! ## An unknown name -/

/-- A function with this contract. -/
def promising (name : String) (post : Pred) : FunctionDef where
  name := name
  params := [⟨"x", .int⟩]
  returns := [⟨"r", .int⟩]
  locals := []
  body := .block []
  pre := none
  post := some post

/-- The result is the `size` of the argument, which is not defined. -/
def narrow : FunctionDef := promising "narrow" (.compare .eq (.var "r") (.call "size" [.var "x"]))

/-- A function that knows `size` from the contract of `narrow` too, and one whose obligation has a
variable that is not in scope. -/
def sizesProgram : Program :=
  ⟨[narrow,
    promising "agreeing" (.compare .eq (.call "narrow" [.const 0]) (.call "size" [.const 0])),
    promising "open" (.compare .eq (.call "size" [.var "y"]) (.const 0))], []⟩

/-- The unbound variable is reported in both plans, and nothing else. -/
theorem query_outcome_alike_sizes :
    (sizesProgram.plan false 1).map (Prod.map id Preparation.stop?) =
        (sizesProgram.plan false 3).map (Prod.map id Preparation.stop?) ∧
      (sizesProgram.plan false 3).map (fun entry => entry.2.stop?) =
        [none, none, some (.built, .unboundVariable "y")] := by
  have hcontracts : sizesProgram.CallsWith (sizesProgram.CountedBy fun _ => 1) := by
    refine ⟨fun g hg q hq => ?_, nofun⟩
    simp only [sizesProgram, List.mem_cons, List.not_mem_nil, or_false] at hg
    rcases hg with rfl | rfl | rfl <;>
      simp only [narrow, promising, reduceCtorEq, Option.some.injEq, false_or] at hq <;> subst hq <;>
      simp [Pred.CallsWith, Expr.CallsWith, Expr.ArgsCallWith, Program.CountedBy]
  have hobligations : ∀ h ∈ obligations false sizesProgram.functions,
      h.2.CallsWith (sizesProgram.CountedBy fun _ => 1) := by
    have hlist : (obligations false sizesProgram.functions).map Prod.snd =
        [.compare .eq (.var "r") (.call "size" [.var "x"]),
          .compare .eq (.call "narrow" [.const 0]) (.call "size" [.const 0]),
          .compare .eq (.call "size" [.var "y"]) (.const 0)] := by cbv
    intro h hh
    have hmem := List.mem_map_of_mem (f := Prod.snd) hh
    simp only [hlist, List.mem_cons, List.not_mem_nil, or_false] at hmem
    rcases hmem with heq | heq | heq <;> rw [heq] <;>
      simp [Pred.CallsWith, Expr.CallsWith, Expr.ArgsCallWith, Program.CountedBy]
  exact ⟨((query_outcome_alike sizesProgram).2 _ hcontracts).2 false hobligations 3 (by decide),
    by cbv⟩

/-- One function calls `size` with two arguments, the contract of another with one, and the obligation
of the third does both. -/
def clashProgram : Program :=
  ⟨[promising "wide" (.compare .eq (.call "size" [.const 0, .const 0]) (.const 0)), narrow,
    promising "mixed" (.compare .eq (.call "narrow" [.const 0]) (.call "size" [.const 0, .const 0]))],
    []⟩

/-- In a shared session `narrow` is stopped, which is not in a session of its own; and the other way
round for `mixed`, since the contract of `narrow` has been left out there. -/
theorem unknown_name_clashes :
    (clashProgram.plan false 1).map (fun entry => (entry.1.name, entry.2.stop?)) =
        [("wide", none), ("narrow", some (.built, .arity "fn.size" 2 1)), ("mixed", none)] ∧
      (clashProgram.plan false 2).map (fun entry => (entry.1.name, entry.2.stop?)) =
        [("wide", none), ("narrow", none), ("mixed", some (.built, .arity "fn.size" 1 2))] := by
  constructor <;> cbv

end Contracts

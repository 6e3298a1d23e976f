import Mathlib
import Contracts.Proofs.AxiomSets

/-!
# The recursion of the encoding ends

To encode a predicate can mean to encode the contract of a function that it calls, or the body of a
formula that it refers to, and these can call and refer to any functions and formulas again, also
the ones that are being worked on. The definitions serve a number of levels of this recursion. Here
the recursion is looked at without a limit: `levelOver p R` is one level that asks the family `R`
for what lies below it, and nothing is said about how `R` comes by its answers.

`Nesting` says where in the recursion an encoding takes place. What a level asks for lies in an
inner nesting, with one more function or formula that was not there before (`agree_levelOver`), so
the names in a nesting are all different and there are no more of them than functions and formulas.
From this follows that as many levels as the program has are as good as any number
(`agree_levels`).
-/

set_option autoImplicit false

namespace Contracts

open Smt

/-! ## Steps that agree -/

namespace EncodeM

variable {α β : Type} {busy : List String}

/-- In every session with exactly this work in progress the two steps come to the same, and leave
this work in progress. -/
def Agree (busy : List String) (x y : EncodeM α) : Prop :=
  ∀ s, s.inProgress = busy → x s = y s ∧ (x s).2.inProgress = busy

theorem Agree.of_kept {x : EncodeM α} (h : ∀ s, (x s).2.inProgress = s.inProgress) :
    Agree busy x x := fun s hs => ⟨rfl, (h s).trans hs⟩

theorem Agree.pure (a : α) : Agree busy (Pure.pure a : EncodeM α) (Pure.pure a) :=
  .of_kept fun _ => rfl

theorem Agree.throw (e : VerifyError) :
    Agree busy (MonadExcept.throw e : EncodeM α) (MonadExcept.throw e) :=
  .of_kept fun _ => rfl

/-- The second parts have to agree on what the first ones can give. -/
theorem Agree.bind {x y : EncodeM α} {f g : α → EncodeM β} (hx : Agree busy x y)
    (hf : ∀ a s s', x s = (.ok a, s') → Agree busy (f a) (g a)) :
    Agree busy (x >>= f) (y >>= g) := by
  intro s hs
  obtain ⟨heq, hkept⟩ := hx s hs
  cases hrun : x s with
  | mk result s' =>
    rw [hrun] at heq hkept
    cases result with
    | error e =>
      rw [bind_of_error hrun, bind_of_error heq.symm]
      exact ⟨rfl, hkept⟩
    | ok a =>
      rw [bind_of_ok hrun, bind_of_ok heq.symm]
      exact hf a s s' hrun s' hkept

theorem Agree.map {x y : EncodeM α} (f : α → β) (hx : Agree busy x y) :
    Agree busy (f <$> x) (f <$> y) :=
  .bind (f := fun a => Pure.pure (f a)) (g := fun a => Pure.pure (f a)) hx
    fun a _ _ _ => .pure (f a)

theorem Agree.guard {c : Prop} [Decidable c] {e : VerifyError} {f g : PUnit → EncodeM α}
    (hf : ¬c → Agree busy (f ⟨⟩) (g ⟨⟩)) :
    Agree busy (if c then MonadExcept.throw e >>= f else f ⟨⟩)
      (if c then MonadExcept.throw e >>= g else g ⟨⟩) := by
  by_cases hc : c
  · rw [if_pos hc, if_pos hc]
    refine .bind (.throw e) fun a s s' hrun => ?_
    cases hrun
  · rw [if_neg hc, if_neg hc]
    exact hf hc

end EncodeM

/-! ### Steps that ask for nothing -/

section

variable {busy : List String}

theorem agree_varTerm (env : Env) (x : String) :
    EncodeM.Agree busy (varTerm env x) (varTerm env x) := by
  unfold varTerm
  split
  · exact .pure _
  · exact .throw _
  · exact .throw _

theorem agree_arrayName (env : Env) (a : String) :
    EncodeM.Agree busy (arrayName env a) (arrayName env a) := by
  unfold arrayName
  split
  · exact .pure _
  · exact .throw _
  · exact .throw _

theorem agree_arrayArgument (env : Env) (formula : String) (param : Param) (e : Expr) :
    EncodeM.Agree busy (arrayArgument env formula param e) (arrayArgument env formula param e) := by
  unfold arrayArgument
  split
  · split
    · exact .pure _
    · exact .throw _
    · exact .throw _
  · exact .throw _

/-- A step on the scope of the function and the counter leaves the work in progress alone. -/
theorem EncodeM.Agree.of_local {α : Type} {x : EncodeM α}
    (h : ∀ s, ∃ scope counter, (x s).2 = { s with scope := scope, counter := counter }) :
    EncodeM.Agree busy x x := by
  refine .of_kept fun s => ?_
  obtain ⟨scope, counter, heq⟩ := h s
  rw [heq]

theorem agree_cellTerm (env : Env) (array : String) (index : Term) :
    EncodeM.Agree busy (cellTerm env array index) (cellTerm env array index) := by
  unfold cellTerm
  split
  · exact .bind (.of_local fun s => selectorSymbol_local array s) fun _ _ _ _ => .pure _
  · exact .bind (.of_local fun s => cellSymbol_local array index s) fun _ _ _ _ => .pure _

theorem agree_declareFun (name : String) (n : Nat) :
    EncodeM.Agree busy (declareFun name n) (declareFun name n) := by
  refine .of_kept fun s => ?_
  unfold declareFun
  rw [EncodeM.get_bind]
  cases s.arities.lookup name with
  | none => rfl
  | some expected =>
    dsimp only
    split
    · rfl
    · rfl

theorem agree_checkCall (g : FunctionDef) (name : String) (count : Nat) :
    EncodeM.Agree busy (checkCall g name count) (checkCall g name count) := by
  unfold checkCall
  refine .guard fun _ => .guard fun _ => ?_
  split
  · exact .throw _
  · exact .pure _

end

/-! ## One level -/

/-- The two answer alike what an encoding at one level can ask for. -/
structure Resolver.Agree (p : Program) (busy : List String) (r r' : Resolver) : Prop where
  isExpanding : r.isExpanding = r'.isExpanding
  contract : ∀ g ∈ p.functions, ∀ args bound,
    EncodeM.Agree busy (r.contract g args bound) (r'.contract g args bound)
  body : ∀ d ∈ p.formulas, r.isExpanding d.name = false → ∀ env,
    EncodeM.Agree busy (r.body d env) (r'.body d env)

theorem Program.mem_of_formula? {p : Program} {name : String} {d : FormulaDef}
    (h : p.formula? name = some d) : d ∈ p.formulas ∧ d.name = name := by
  unfold formula? at h
  have htest := List.find?_some h
  exact ⟨List.mem_of_find?_eq_some h, beq_iff_eq.mp htest⟩

section

variable {p : Program} {busy : List String} {r r' : Resolver}

theorem agree_referredFormula (hr : r.Agree p busy r') (name : String) (count : Nat) :
    EncodeM.Agree busy (referredFormula p r name count) (referredFormula p r' name count) := by
  have heq : referredFormula p r' name count = referredFormula p r name count := by
    unfold referredFormula
    rw [hr.isExpanding]
  rw [heq]
  unfold referredFormula
  cases p.formula? name with
  | none => exact .throw _
  | some d => exact .guard fun _ => .guard fun _ => .pure _

/-- A formula that can be expanded is one of the program and is not being expanded. -/
theorem isExpanding_of_referredFormula {name : String} {count : Nat} {d : FormulaDef}
    {s s' : Session} (h : referredFormula p r name count s = (.ok d, s')) :
    d ∈ p.formulas ∧ r.isExpanding d.name = false := by
  obtain ⟨-, hfind, -⟩ := referredFormula_eq_ok h
  obtain ⟨hmem, rfl⟩ := Program.mem_of_formula? hfind
  refine ⟨hmem, ?_⟩
  unfold referredFormula at h
  rw [hfind] at h
  obtain ⟨-, h⟩ := EncodeM.guard_eq_ok.mp h
  obtain ⟨hnot, -⟩ := EncodeM.guard_eq_ok.mp h
  exact Bool.eq_false_iff.mpr hnot

mutual

theorem agree_encodeExpr (hr : r.Agree p busy r') : ∀ (e : Expr) (env : Env),
    EncodeM.Agree busy (encodeExpr p r e env) (encodeExpr p r' e env)
  | .const n, env => by
    rw [encodeExpr, encodeExpr]
    exact .pure _
  | .var x, env => by
    rw [encodeExpr, encodeExpr]
    exact agree_varTerm env x
  | .neg e, env => by
    rw [encodeExpr, encodeExpr]
    exact .bind (agree_encodeExpr hr e env) fun _ _ _ _ => .pure _
  | .binary op a b, env => by
    rw [encodeExpr, encodeExpr]
    exact .bind (agree_encodeExpr hr a env) fun _ _ _ _ =>
      .bind (agree_encodeExpr hr b env) fun _ _ _ _ => .pure _
  | .read a i, env => by
    rw [encodeExpr, encodeExpr]
    exact .bind (agree_arrayName env a) fun array _ _ _ =>
      .bind (agree_encodeExpr hr i env) fun index _ _ _ => agree_cellTerm env array index
  | .call f args, env => by
    rw [encodeExpr, encodeExpr]
    cases lengthOf? env f args with
    | some array =>
      exact .bind (.of_local fun s => lengthSymbol_local array s) fun _ _ _ _ => .pure _
    | none =>
      cases hfind : p.function? f with
      | none =>
        exact .bind (agree_encodeArgs hr args env) fun _ _ _ _ =>
          .bind (agree_declareFun _ _) fun _ _ _ _ => .pure _
      | some g =>
        exact .bind (agree_checkCall g f args.length) fun _ _ _ _ =>
          .bind (agree_encodeArgs hr args env) fun ts _ _ _ =>
            .bind (agree_declareFun _ _) fun _ _ _ _ =>
              .bind (hr.contract g (Program.mem_of_function? hfind).1 ts env.bound) fun _ _ _ _ =>
                .pure _
  | .cond q a b, env => by
    rw [encodeExpr, encodeExpr]
    exact .bind (agree_encodePred hr q env) fun _ _ _ _ =>
      .bind (agree_encodeExpr hr a env) fun _ _ _ _ =>
        .bind (agree_encodeExpr hr b env) fun _ _ _ _ => .pure _

theorem agree_encodeArgs (hr : r.Agree p busy r') : ∀ (es : List Expr) (env : Env),
    EncodeM.Agree busy (encodeArgs p r es env) (encodeArgs p r' es env)
  | [], env => by
    rw [encodeArgs, encodeArgs]
    exact .pure _
  | e :: es, env => by
    rw [encodeArgs, encodeArgs]
    exact .bind (agree_encodeExpr hr e env) fun _ _ _ _ =>
      .bind (agree_encodeArgs hr es env) fun _ _ _ _ => .pure _

theorem agree_bindArgs (hr : r.Agree p busy r') (formula : String) :
    ∀ (es : List Expr) (xs : List Param) (env inner : Env),
      EncodeM.Agree busy (bindArgs p r formula es xs env inner)
        (bindArgs p r' formula es xs env inner)
  | [], xs, env, inner => by
    have hdone : ∀ r, bindArgs p r formula [] xs env inner = pure inner := by
      intro r
      rw [bindArgs]
      intro _ _ _ _ h
      cases h
    rw [hdone, hdone]
    exact .pure _
  | e :: es, [], env, inner => by
    have hdone : ∀ r, bindArgs p r formula (e :: es) [] env inner = pure inner := by
      intro r
      rw [bindArgs]
      intro _ _ _ _ _ h
      cases h
    rw [hdone, hdone]
    exact .pure _
  | e :: es, x :: xs, env, inner => by
    rw [bindArgs, bindArgs]
    cases x.type with
    | int =>
      exact .bind ((agree_encodeExpr hr e env).map Meaning.scalar) fun m _ _ _ =>
        agree_bindArgs hr formula es xs env (inner.bind x.name m)
    | array =>
      exact .bind (agree_arrayArgument env formula x e) fun m _ _ _ =>
        agree_bindArgs hr formula es xs env (inner.bind x.name m)

/-- The encoding at one level depends on what it asks for and on nothing else below it. -/
theorem agree_encodePred (hr : r.Agree p busy r') : ∀ (q : Pred) (env : Env),
    EncodeM.Agree busy (encodePred p r q env) (encodePred p r' q env)
  | .bool b, env => by
    rw [encodePred, encodePred]
    exact .pure _
  | .compare op a b, env => by
    rw [encodePred, encodePred]
    exact .bind (agree_encodeExpr hr a env) fun _ _ _ _ =>
      .bind (agree_encodeExpr hr b env) fun _ _ _ _ => .pure _
  | .not q, env => by
    rw [encodePred, encodePred]
    exact .bind (agree_encodePred hr q env) fun _ _ _ _ => .pure _
  | .and a b, env | .or a b, env | .implies a b, env => by
    rw [encodePred, encodePred]
    exact .bind (agree_encodePred hr a env) fun _ _ _ _ =>
      .bind (agree_encodePred hr b env) fun _ _ _ _ => .pure _
  | .paren q, env => by
    rw [encodePred, encodePred]
    exact agree_encodePred hr q env
  | .quantified k x q, env => by
    rw [encodePred, encodePred]
    exact .guard fun _ => .bind (.of_kept fun _ => rfl) fun symbol _ _ _ =>
      .bind (agree_encodePred hr q (env.bindBound x.name symbol)) fun _ _ _ _ => .pure _
  | .formula f args, env => by
    rw [encodePred, encodePred]
    refine .bind (agree_referredFormula hr f args.length) fun d s s' hfound =>
      .bind (agree_bindArgs hr f args d.params env env.closed) fun inner _ _ _ => ?_
    obtain ⟨hmem, hnew⟩ := isExpanding_of_referredFormula hfound
    exact hr.body d hmem hnew inner

end

end

/-! ## Contracts -/

section

variable {p : Program} {busy : List String} {r r' : Resolver} {g : FunctionDef}

theorem agree_contractInstance
    (h : ∀ q env, EncodeM.Agree busy (encodePred p r q env) (encodePred p r' q env)) (post : Pred)
    (args : List Term) (bound : List String) (guard : List Term) :
    EncodeM.Agree busy (contractInstance p r g post args bound guard)
      (contractInstance p r' g post args bound guard) := by
  unfold contractInstance
  refine .bind (h post _) fun _ _ _ _ => ?_
  cases g.pre with
  | none => exact .pure _
  | some q => exact .bind (h q _) fun _ _ _ _ => .pure _

theorem agree_literalInstances
    (h : ∀ q env, EncodeM.Agree busy (encodePred p r q env) (encodePred p r' q env)) (post : Pred)
    (ks : List Int) :
    EncodeM.Agree busy (literalInstances p r g post ks) (literalInstances p r' g post ks) := by
  induction ks with
  | nil =>
    rw [literalInstances, literalInstances]
    exact .pure _
  | cons k ks ih =>
    rw [literalInstances, literalInstances]
    exact .bind (agree_contractInstance h post _ _ _) fun _ _ _ _ => .bind ih fun _ _ _ _ => .pure _

theorem Session.inProgress_declareGlobalConsts (symbols : List String) (s : Session) :
    (symbols.foldl Session.declareGlobalConst s).inProgress = s.inProgress := by
  induction symbols generalizing s with
  | nil => rfl
  | cons x symbols ih =>
    rw [List.foldl_cons, ih]
    unfold declareGlobalConst
    split <;> rfl

theorem agree_contractAxioms
    (h : ∀ q env, EncodeM.Agree busy (encodePred p r q env) (encodePred p r' q env)) :
    EncodeM.Agree busy (contractAxioms p r g) (contractAxioms p r' g) := by
  unfold contractAxioms
  cases g.post with
  | none => exact .pure _
  | some post =>
    dsimp only
    split
    · unfold inductiveAxioms
      exact .bind (agree_literalInstances h post _) fun _ _ _ _ =>
        .bind (.of_kept fun _ => rfl) fun _ _ _ _ =>
          .bind (agree_contractInstance h post _ _ _) fun _ _ _ _ =>
            .bind (agree_literalInstances h post _) fun _ _ _ _ => .pure _
    · unfold instanceAxioms
      refine .bind (.of_kept fun s => Session.inProgress_declareGlobalConsts _ s) fun _ _ _ _ =>
        .bind (agree_contractInstance h post _ _ _) fun _ _ _ _ => ?_
      dsimp only
      split
      · exact .pure _
      · exact .bind (agree_literalInstances h post _) fun _ _ _ _ => .pure _

/-- The axioms of a function are asked for while it is in progress, only if it was not before. -/
theorem agree_ensureAxioms (h : g.name ∉ busy → ∀ q env,
    EncodeM.Agree (g.name :: busy) (encodePred p r q env) (encodePred p r' q env)) :
    EncodeM.Agree busy (ensureAxioms p r g) (ensureAxioms p r' g) := by
  rintro s rfl
  rcases ensureAxioms_cases p r g s with ⟨hskip, hrun⟩ | ⟨hdo, result, s₁, haxioms, hrun⟩
  · rcases ensureAxioms_cases p r' g s with ⟨-, hrun'⟩ | ⟨hdo, -⟩
    · rw [hrun, hrun']
      exact ⟨rfl, rfl⟩
    · rw [hskip] at hdo
      cases hdo
  · have hidle : g.name ∉ s.inProgress := by
      intro hmem
      rw [Session.isInProgress, List.contains_iff_mem.mpr hmem, Bool.or_true] at hdo
      cases hdo
    obtain ⟨hsame, hkept⟩ := agree_contractAxioms (g := g) (h hidle) (s.entered g.name) rfl
    rw [haxioms] at hsame hkept
    rcases ensureAxioms_cases p r' g s with ⟨hskip, -⟩ | ⟨-, result', s₁', haxioms', hrun'⟩
    · rw [hdo] at hskip
      cases hskip
    · rw [haxioms'] at hsame
      cases hsame
      rw [hrun, hrun']
      refine ⟨rfl, ?_⟩
      rw [Session.settled, hkept, List.erase_cons_head]

/-- The same of the contract at the arguments of a call. -/
theorem agree_instantiateCall (h : g.name ∉ busy → ∀ q env,
    EncodeM.Agree (g.name :: busy) (encodePred p r q env) (encodePred p r' q env))
    (args : List Term) (bound : List String) :
    EncodeM.Agree busy (instantiateCall p r g args bound) (instantiateCall p r' g args bound) := by
  rintro s rfl
  rcases instantiateCall_cases p r g s args bound with
    ⟨hskip, hrun⟩ | ⟨post, hpost, hdo, result, s₁, hinstance, hrun⟩
  · rcases instantiateCall_cases p r' g s args bound with ⟨-, hrun'⟩ | ⟨post, hpost, hdo, -⟩
    · rw [hrun, hrun']
      exact ⟨rfl, rfl⟩
    · rw [hskip post hpost] at hdo
      cases hdo
  · have hidle : g.name ∉ s.inProgress := by
      intro hmem
      rw [Session.isInProgress, List.contains_iff_mem.mpr hmem, Bool.true_or, Bool.true_or] at hdo
      cases hdo
    obtain ⟨hsame, hkept⟩ :=
      agree_contractInstance (g := g) (h hidle) post args bound [] (s.noted g.name args) rfl
    rw [hinstance] at hsame hkept
    rcases instantiateCall_cases p r' g s args bound with
      ⟨hskip, -⟩ | ⟨post', hpost', -, result', s₁', hinstance', hrun'⟩
    · rw [hskip post hpost] at hdo
      cases hdo
    · cases hpost.symm.trans hpost'
      rw [hinstance'] at hsame
      cases hsame
      rw [hrun, hrun']
      refine ⟨rfl, ?_⟩
      rw [Session.instantiated, hkept, List.erase_cons_head]

end

/-! ## Nestings -/

/-- Where in the recursion an encoding takes place: inside the contracts of some functions, which
are being turned into axioms or instantiated, and inside the bodies of some formulas, which are
being expanded. The innermost come first. -/
structure Nesting where
  functions : List String
  formulas : List String

namespace Nesting

variable {p : Program} {n m : Nesting}

/-- The nesting `m` is one step further in than `n`: inside the contract of a function that was not
in progress, or inside a formula that was not being expanded. -/
inductive Inner (p : Program) : Nesting → Nesting → Prop
  | contract {n : Nesting} (g : FunctionDef) (hg : g ∈ p.functions) (hnew : g.name ∉ n.functions) :
    Inner p ⟨g.name :: n.functions, n.formulas⟩ n
  | body {n : Nesting} (d : FormulaDef) (hd : d ∈ p.formulas) (hnew : d.name ∉ n.formulas) :
    Inner p ⟨n.functions, d.name :: n.formulas⟩ n

/-- How many functions and formulas of the program are not in the nesting. -/
def room (p : Program) (n : Nesting) : Nat :=
  (p.functions.filter fun g => g.name ∉ n.functions).length +
    (p.formulas.filter fun d => d.name ∉ n.formulas).length

theorem room_le_levels : n.room p ≤ p.levels :=
  Nat.add_le_add (List.length_filter_le ..) (List.length_filter_le ..)

/-- One more name leaves less that is not named. -/
theorem length_filter_cons_lt {α : Type} {name : α → String} {l : List α} {a : α}
    {names : List String} (ha : a ∈ l) (hnew : name a ∉ names) :
    (l.filter fun b => name b ∉ name a :: names).length <
      (l.filter fun b => name b ∉ names).length := by
  have hsplit : (l.filter fun b => name b ∉ name a :: names) =
      (l.filter fun b => name b ∉ names).filter fun b => name b ≠ name a := by
    simp [List.filter_filter, not_or]
  rw [hsplit]
  refine List.length_filter_lt_length_iff_exists.mpr ⟨a, List.mem_filter.mpr ⟨ha, ?_⟩, ?_⟩
  · exact decide_eq_true hnew
  · simp

theorem Inner.room_lt (h : Inner p m n) : m.room p < n.room p := by
  cases h with
  | contract g hg hnew => exact Nat.add_lt_add_right (length_filter_cons_lt hg hnew) _
  | body d hd hnew => exact Nat.add_lt_add_left (length_filter_cons_lt hd hnew) _

theorem wellFounded_inner (p : Program) : WellFounded (Inner p) :=
  Subrelation.wf Inner.room_lt (InvImage.wf (room p) Nat.lt_wfRel.wf)

/-- The names in the nesting are names of the program, each of them once. -/
structure Proper (p : Program) (n : Nesting) : Prop where
  functions_nodup : n.functions.Nodup
  formulas_nodup : n.formulas.Nodup
  functions_mem : ∀ name ∈ n.functions, ∃ g ∈ p.functions, g.name = name
  formulas_mem : ∀ name ∈ n.formulas, ∃ d ∈ p.formulas, d.name = name

theorem Inner.proper (h : Inner p m n) (hn : n.Proper p) : m.Proper p := by
  cases h with
  | contract g hg hnew =>
    exact ⟨List.nodup_cons.mpr ⟨hnew, hn.functions_nodup⟩, hn.formulas_nodup,
      List.forall_mem_cons.mpr ⟨⟨g, hg, rfl⟩, hn.functions_mem⟩, hn.formulas_mem⟩
  | body d hd hnew =>
    exact ⟨hn.functions_nodup, List.nodup_cons.mpr ⟨hnew, hn.formulas_nodup⟩, hn.functions_mem,
      List.forall_mem_cons.mpr ⟨⟨d, hd, rfl⟩, hn.formulas_mem⟩⟩

theorem proper_of_reachable (h : Relation.ReflTransGen (Inner p) m ⟨[], []⟩) : m.Proper p := by
  induction h using Relation.ReflTransGen.head_induction_on with
  | refl =>
    exact ⟨List.nodup_nil, List.nodup_nil, fun _ h => absurd h List.not_mem_nil,
      fun _ h => absurd h List.not_mem_nil⟩
  | head hinner _ ih => exact hinner.proper ih

theorem Proper.depth_le (hn : n.Proper p) :
    n.functions.length + n.formulas.length ≤ p.levels := by
  have hfunctions : n.functions ⊆ p.functions.map FunctionDef.name := fun name hname =>
    List.mem_map.mpr (hn.functions_mem name hname)
  have hformulas : n.formulas ⊆ p.formulas.map FormulaDef.name := fun name hname =>
    List.mem_map.mpr (hn.formulas_mem name hname)
  have h₁ := (List.subperm_of_subset hn.functions_nodup hfunctions).length_le
  have h₂ := (List.subperm_of_subset hn.formulas_nodup hformulas).length_le
  rw [List.length_map] at h₁ h₂
  exact Nat.add_le_add h₁ h₂

end Nesting

/-! ## Levels -/

/-- What is available at a level inside the formulas that are being expanded, if `R` is what is
available at the level below. -/
def levelOver (p : Program) (R : List String → Resolver) (expanding : List String) : Resolver where
  contract g args bound := do
    ensureAxioms p (R expanding) g
    instantiateCall p (R expanding) g args bound
  isExpanding := expanding.contains
  body d env := encodePred p (R (d.name :: expanding)) d.body env

theorem resolver_succ (p : Program) (k : Nat) :
    resolver p (k + 1) = levelOver p (resolver p k) := rfl

/-- The two families encode alike in a nesting. -/
def AgreeIn (p : Program) (n : Nesting) (R R' : List String → Resolver) : Prop :=
  ∀ q env, EncodeM.Agree n.functions (encodePred p (R n.formulas) q env)
    (encodePred p (R' n.formulas) q env)

section

variable {p : Program} {n : Nesting} {R R' : List String → Resolver}

/-- An encoding asks for encodings in inner nestings and for nothing else. -/
theorem agree_levelOver (h : ∀ m, Nesting.Inner p m n → AgreeIn p m R R') :
    AgreeIn p n (levelOver p R) (levelOver p R') := by
  refine agree_encodePred ⟨rfl, fun g hg args bound => ?_, fun d hd hnew env => ?_⟩
  · have hinner : g.name ∉ n.functions → ∀ q env, EncodeM.Agree (g.name :: n.functions)
        (encodePred p (R n.formulas) q env) (encodePred p (R' n.formulas) q env) :=
      fun hnew => h _ (.contract g hg hnew)
    exact .bind (agree_ensureAxioms hinner) fun _ _ _ _ => agree_instantiateCall hinner args bound
  · have hnot : d.name ∉ n.formulas := by
      intro hmem
      cases (List.contains_iff_mem.mpr hmem).symm.trans hnew
    exact h _ (.body d hd hnot) d.body env

/-- The contract of a function that is in progress is left alone. -/
theorem levelOver_contract_of_mem {expanding : List String} {g : FunctionDef} {s : Session}
    (h : g.name ∈ s.inProgress) (args : List Term) (bound : List String) :
    (levelOver p R expanding).contract g args bound s = (.ok (), s) := by
  have hbusy : s.isInProgress g.name = true := List.contains_iff_mem.mpr h
  have haxioms : ensureAxioms p (R expanding) g s = (.ok (), s) := by
    rcases ensureAxioms_cases p (R expanding) g s with ⟨-, hrun⟩ | ⟨hdo, -⟩
    · exact hrun
    · rw [hbusy, Bool.or_true] at hdo
      cases hdo
  have hcall : instantiateCall p (R expanding) g args bound s = (.ok (), s) := by
    rcases instantiateCall_cases p (R expanding) g s args bound with ⟨-, hrun⟩ | ⟨post, -, hdo, -⟩
    · exact hrun
    · rw [hbusy, Bool.true_or, Bool.true_or] at hdo
      cases hdo
  exact (EncodeM.bind_of_ok haxioms).trans hcall

/-- Where every function is in progress and every formula is being expanded nothing is asked for. -/
theorem agree_bottom (h : n.room p = 0) : AgreeIn p n (resolver p 0) (levelOver p R) := by
  obtain ⟨hfunctions, hformulas⟩ := Nat.add_eq_zero_iff.mp h
  rw [List.length_eq_zero_iff, List.filter_eq_nil_iff] at hfunctions hformulas
  refine agree_encodePred ⟨rfl, fun g hg args bound => ?_, fun d hd hnew env => ?_⟩
  · have hmem : g.name ∈ n.functions := by simpa using hfunctions g hg
    intro s hs
    rw [levelOver_contract_of_mem (hs ▸ hmem)]
    exact ⟨rfl, hs⟩
  · have hmem : d.name ∈ n.formulas := by simpa using hformulas d hd
    cases (List.contains_iff_mem.mpr hmem).symm.trans hnew

/-- As many levels as there is room for are as good as any number, whatever lies below them. -/
theorem agree_levels (k : Nat) (h : n.room p ≤ k) (bottom : List String → Resolver) :
    AgreeIn p n (resolver p k) ((levelOver p)^[k + 1] bottom) := by
  induction k generalizing n with
  | zero => exact agree_bottom (Nat.le_zero.mp h)
  | succ k ih =>
    rw [Function.iterate_succ_apply', resolver_succ]
    exact agree_levelOver fun m hm => ih (Nat.le_of_lt_succ (Nat.lt_of_lt_of_le hm.room_lt h))

/-- The encoding of a program does not change with more levels. -/
theorem Program.encodePred_eq_levels (p : Program) {k : Nat} (hk : p.levels < k)
    (bottom : List String → Resolver) (q : Pred) (env : Env) (s : Session) :
    p.encodePred q env s = Contracts.encodePred p ((levelOver p)^[k] bottom []) q env s := by
  obtain ⟨j, rfl⟩ := Nat.exists_eq_add_of_lt hk
  have hsplit : p.levels + j + 1 = (p.levels + 1) + j := by omega
  rw [hsplit, Function.iterate_add_apply]
  have hroom : Nesting.room p ⟨s.inProgress, []⟩ ≤ p.levels := Nesting.room_le_levels
  exact (agree_levels p.levels hroom ((levelOver p)^[j] bottom) q env s rfl).1

end

/-- The recursion of the encoding ends, in any session of any program. What an encoding at a level
depends on are encodings in inner nestings, and there is no endless way inwards. From a session that
begins to encode, every nesting has all its functions different and all its formulas different, and
is at most as deep as the program has functions and formulas. So the encoding is the one of any
larger number of levels, whatever is put below them: nothing there is ever asked for. -/
theorem encoding_recursion_ends (p : Program) :
    WellFounded (Nesting.Inner p) ∧
    (∀ (n : Nesting) (R R' : List String → Resolver),
      (∀ m, Nesting.Inner p m n → AgreeIn p m R R') →
        AgreeIn p n (levelOver p R) (levelOver p R')) ∧
    (∀ (steps : List SessionStep) (m : Nesting),
      Relation.ReflTransGen (Nesting.Inner p) m ⟨(p.sessionAlong steps).inProgress, []⟩ →
        m.functions.Nodup ∧ m.formulas.Nodup ∧
          m.functions.length + m.formulas.length ≤ p.functions.length + p.formulas.length) ∧
    ∀ (q : Pred) (env : Env) (s : Session) (k : Nat) (bottom : List String → Resolver),
      p.functions.length + p.formulas.length < k →
        p.encodePred q env s = encodePred p ((levelOver p)^[k] bottom []) q env s := by
  refine ⟨Nesting.wellFounded_inner p, fun n R R' => agree_levelOver, fun steps m hm => ?_,
    fun q env s k bottom hk => p.encodePred_eq_levels hk bottom q env s⟩
  rw [(sessionAlong_keeps steps).2] at hm
  have hproper := Nesting.proper_of_reachable hm
  exact ⟨hproper.functions_nodup, hproper.formulas_nodup, hproper.depth_le⟩

/-- One of two functions whose contracts call each other. -/
def ping : FunctionDef where
  name := "ping"
  params := [⟨"n", .int⟩]
  returns := [⟨"r", .int⟩]
  locals := []
  body := .block []
  pre := none
  post := some (.and (.formula "fair" [.var "r"])
    (.compare .eq (.var "r") (.call "pong" [.binary .sub (.var "n") (.const 1)])))

def pong : FunctionDef where
  name := "pong"
  params := [⟨"n", .int⟩]
  returns := [⟨"r", .int⟩]
  locals := []
  body := .block []
  pre := none
  post := some (.compare .le (.var "r") (.call "ping" [.binary .sub (.var "n") (.const 1)]))

/-- A formula that calls a function and refers to itself. -/
def fair : FormulaDef where
  name := "fair"
  params := [⟨"x", .int⟩]
  body := .and (.compare .ge (.call "pong" [.var "x"]) (.const 0)) (.formula "fair" [.var "x"])

def rally : Program := ⟨[ping, pong], [fair]⟩

/-- The deepest nesting of the program: `pong` inside of `fair` inside of `ping`. -/
theorem rally_recursion_ends :
    ["pong", "ping"].Nodup ∧ ["fair"].Nodup ∧ ["pong", "ping"].length + ["fair"].length ≤ 3 ∧
    ∀ q env s, rally.encodePred q env s =
      encodePred rally ((levelOver rally)^[4] (resolver rally 7) []) q env s := by
  have hping : Nesting.Inner rally ⟨["ping"], []⟩ ⟨[], []⟩ :=
    .contract (n := ⟨[], []⟩) ping List.mem_cons_self List.not_mem_nil
  have hfair : Nesting.Inner rally ⟨["ping"], ["fair"]⟩ ⟨["ping"], []⟩ :=
    .body (n := ⟨["ping"], []⟩) fair List.mem_cons_self List.not_mem_nil
  have hpong : Nesting.Inner rally ⟨["pong", "ping"], ["fair"]⟩ ⟨["ping"], ["fair"]⟩ :=
    .contract (n := ⟨["ping"], ["fair"]⟩) pong (List.mem_cons_of_mem _ List.mem_cons_self)
      (by decide)
  obtain ⟨-, -, hdepth, hlevels⟩ := encoding_recursion_ends rally
  obtain ⟨hfunctions, hformulas, hle⟩ := hdepth [] ⟨["pong", "ping"], ["fair"]⟩
    (.head hpong (.head hfair (.single hping)))
  exact ⟨hfunctions, hformulas, hle, fun q env s => hlevels q env s 4 _ (by decide)⟩

end Contracts

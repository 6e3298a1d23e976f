import Contracts.Proofs.EncodingInvariant

/-!
# Invariants along contracts

What `EncodingInvariant` says of predicates holds of the contracts that calls bring in. An instance of
a contract is a truth value where its arguments are numbers, and so are the axioms of a function.
What a call does to a session besides is to note what is being worked on and to add what was made:
`ensureAxioms_cases` and `instantiateCall_cases` give the session after it.

Axioms outlive the function that is being encoded, and so have to meet a regime that knows only the
lasting part of the session, whereas the instance at a call may speak of the function's own symbols.
`Regime.Lasts` relates the two regimes, and `serves_resolver` serves both at all levels.
-/

set_option autoImplicit false

namespace Contracts

open Smt

/-! ## Contracts -/

section

variable {ℛ : Regime} {p : Program} {r : Resolver} {A : String → Prop} {g : FunctionDef}
  {s : Session} {Δ : List String}

theorem meets_contractEnv {args : List Term} {bound : List String} (hs : ℛ.inv s)
    (hΔ : ∀ x ∈ Δ, MadeAfter 0 x) (hscope : ℛ.scope s Δ) (hbound : ∀ x ∈ Δ, x ∈ bound)
    (hargs : ∀ t ∈ args, ℛ.number s Δ t) (happ : ℛ.applies s g.name args.length) :
    (contractEnv g args bound).Meets ℛ s [] Δ := by
  have hfold : ∀ (l : List (Param × Term)) (env : Env), (∀ q ∈ l, ℛ.number s Δ q.2) →
      env.Meets ℛ s [] Δ →
      (l.foldl (fun env q => env.bind q.1.name (.scalar q.2)) env).Meets ℛ s [] Δ := by
    intro l
    induction l with
    | nil => exact fun env _ henv => henv
    | cons q l ih =>
      intro env hl henv
      exact ih _ (fun q' hq => hl q' (List.mem_cons_of_mem _ hq))
        (henv.bind_scalar q.1.name (hl q List.mem_cons_self))
  have hparams := hfold (g.params.zip args) { Env.empty with bound }
    (fun q hq => hargs q.2 (List.of_mem_zip hq).2) (.of_empty rfl hbound hΔ hscope)
  unfold contractEnv
  dsimp only
  split
  · exact hparams.bind_scalar _ (ℛ.app hs hΔ happ hargs)
  · exact hparams

theorem truth_hypothetical {hs : List Term} {t : Term} (hhs : ∀ h ∈ hs, ℛ.truth s Δ h)
    (ht : ℛ.truth s Δ t) : ℛ.truth s Δ (hypothetical hs t) := by
  match hs with
  | [] => exact ht
  | [h] => exact ℛ.implies (hhs h List.mem_cons_self) ht
  | _ :: _ :: _ => exact ℛ.implies (ℛ.junction .and hhs) ht

/-- An instance of a contract is a truth value where its arguments are numbers. -/
theorem meets_contractInstance (hr : ℛ.Serves p r [] A) (hg : g.ContractCalls A) {post : Pred}
    (hpost : g.post = some post) {args : List Term} {bound : List String} {guard : List Term}
    (hΔ : ∀ x ∈ Δ, MadeAfter 0 x) (hscope : ℛ.scope s Δ) (hbound : ∀ x ∈ Δ, x ∈ bound)
    (hargs : ∀ t ∈ args, ℛ.number s Δ t) (happ : ℛ.applies s g.name args.length)
    (hguard : ∀ t ∈ guard, ℛ.truth s Δ t) :
    EncodeM.Meets ℛ s (contractInstance p r g post args bound guard)
      fun t s' => ℛ.truth s' Δ t := by
  refine .of_inv fun hs => ?_
  have henv := meets_contractEnv hs hΔ hscope hbound hargs happ
  unfold contractInstance
  refine .bind (meets_encodePred hr post (hg post (.inr hpost)) henv) fun t s₁ hs₁ h₁ ht => ?_
  have hguard₁ : ∀ u ∈ guard, ℛ.truth s₁ Δ u := fun u hu => ℛ.truth_mono h₁ hs₁ (hguard u hu)
  cases hpre : g.pre with
  | none =>
    refine .pure fun _ => truth_hypothetical ?_ ht
    rw [List.append_nil]
    exact hguard₁
  | some q =>
    refine .bind (meets_encodePred hr q (hg q (.inl hpre)) (henv.mono h₁ hs₁))
      fun u s₂ hs₂ h₂ hu => .pure fun _ => truth_hypothetical ?_ (ℛ.truth_mono h₂ hs₂ ht)
    intro v hv
    rcases List.mem_append.mp hv with hv | hv
    · exact ℛ.truth_mono h₂ hs₂ (hguard₁ v hv)
    · rw [List.mem_singleton.mp hv]
      exact hu

theorem meets_literalInstances (hr : ℛ.Serves p r [] A) (hg : g.ContractCalls A) {post : Pred}
    (hpost : g.post = some post) (happ : ℛ.applies s g.name g.params.length) (ks : List Int) :
    EncodeM.Meets ℛ s (literalInstances p r g post ks) fun ts s' => ∀ t ∈ ts, ℛ.truth s' [] t := by
  induction ks generalizing s with
  | nil =>
    rw [literalInstances]
    exact .pure fun _ t ht => absurd ht List.not_mem_nil
  | cons k ks ih =>
    rw [literalInstances]
    refine .bind (meets_contractInstance hr hg hpost (fun _ h => absurd h List.not_mem_nil)
      (ℛ.scope_nil s) (fun _ h => absurd h List.not_mem_nil) (fun t ht => ?_) ?_
      fun _ h => absurd h List.not_mem_nil) fun t s₁ hs₁ h₁ ht =>
        .bind (ih (ℛ.applies_mono h₁ hs₁ happ)) fun ts s₂ hs₂ h₂ hts =>
          .pure fun _ => List.forall_mem_cons.mpr ⟨ℛ.truth_mono h₂ hs₂ ht, hts⟩
    · rw [List.eq_of_mem_replicate ht]
      exact ℛ.int ..
    · rw [List.length_replicate]
      exact happ

/-- The axioms of a function are truth values, if the constants of its parameters are numbers. -/
theorem meets_contractAxioms (hr : ℛ.Serves p r [] A) (hg : g.ContractCalls A)
    (happ : ℛ.applies s g.name g.params.length)
    (hformals : ∀ s, EncodeM.Meets ℛ s
      (modify fun s => (g.params.map (formalSymbol g)).foldl Session.declareGlobalConst s)
      fun _ s' => ∀ x ∈ g.params, ℛ.number s' [] (.const (formalSymbol g x))) :
    EncodeM.Meets ℛ s (contractAxioms p r g) fun ts s' => ∀ t ∈ ts, ℛ.truth s' [] t := by
  unfold contractAxioms
  cases hpost : g.post with
  | none => exact .pure fun _ t ht => absurd ht List.not_mem_nil
  | some post =>
    dsimp only
    split
    · next hrec =>
      -- the contract at `0`, at any number above it, and at the first of these
      have hone : g.params.length = 1 := by
        unfold FunctionDef.isRecursive at hrec
        rw [Bool.and_eq_true, Bool.and_eq_true, beq_iff_eq] at hrec
        exact hrec.1.1
      unfold inductiveAxioms
      refine .bind (meets_literalInstances hr hg hpost happ [0]) fun base s₁ hs₁ h₁ hbase =>
        .bind (hr.fresh s₁ _ [] (ℛ.scope_nil s₁)) fun n s₂ hs₂ h₂ hn => ?_
      have happ₂ := ℛ.applies_mono h₂ hs₂ (ℛ.applies_mono h₁ hs₁ happ)
      have happ₂' : ℛ.applies s₂ g.name [Term.const n].length := by
        rw [hone] at happ₂
        exact happ₂
      -- the new number is bound by the quantifier that is put around the step
      refine .bind (meets_contractInstance (Δ := [n]) hr hg hpost
        (List.forall_mem_singleton.mpr (hn.1.mono (Nat.zero_le _))) hn.2 (fun _ h => h)
        (List.forall_mem_singleton.mpr (ℛ.bound s₂ [] n)) happ₂'
        (List.forall_mem_singleton.mpr (ℛ.compare .gt (ℛ.bound s₂ [] n) (ℛ.int ..))))
        fun step s₃ hs₃ h₃ hstep =>
          .bind (meets_literalInstances hr hg hpost (ℛ.applies_mono h₃ hs₃ happ₂) [1, 2, 3])
            fun ground s₄ hs₄ h₄ hground => .pure fun _ t ht => ?_
      rcases List.mem_append.mp ht with ht | ht
      · rcases List.mem_append.mp ht with ht | ht
        · exact ℛ.truth_mono h₄ hs₄ (ℛ.truth_mono h₃ hs₃ (ℛ.truth_mono h₂ hs₂ (hbase t ht)))
        · rw [List.mem_singleton.mp ht]
          exact ℛ.truth_mono h₄ hs₄ (ℛ.quantified .universal (ℛ.scope_mono h₃ hs₃ hn.2) hstep)
      · exact hground t ht
    · -- the constants of the parameters last as long as the axiom about them
      unfold instanceAxioms
      refine .bind (hformals s) fun _ s₁ hs₁ h₁ hnumbers => ?_
      have happ₁ := ℛ.applies_mono h₁ hs₁ happ
      refine .bind (meets_contractInstance hr hg hpost (fun _ h => absurd h List.not_mem_nil)
        (ℛ.scope_nil s₁) (fun _ h => absurd h List.not_mem_nil) (fun t ht => ?_) ?_
        fun _ h => absurd h List.not_mem_nil) fun formal s₂ hs₂ h₂ hformal => ?_
      · rw [List.map_map] at ht
        obtain ⟨x, hx, rfl⟩ := List.mem_map.mp ht
        exact hnumbers x hx
      · rw [List.length_map, List.length_map]
        exact happ₁
      · dsimp only
        split
        · exact .pure fun _ => List.forall_mem_singleton.mpr hformal
        · exact .bind (meets_literalInstances hr hg hpost (ℛ.applies_mono h₂ hs₂ happ₁) [0, 1])
            fun fixed s₃ hs₃ h₃ hfixed =>
              .pure fun _ => List.forall_mem_cons.mpr ⟨ℛ.truth_mono h₃ hs₃ hformal, hfixed⟩

end

/-! ## What a call brings in -/

section

variable (p : Program) (r : Resolver) (g : FunctionDef) (s : Session)

/-- The session while the contract of a function is worked on. -/
def Session.entered (name : String) : Session := { s with inProgress := name :: s.inProgress }

/-- The session after the axioms of a function, or none of them, were added. -/
def Session.settled (name : String) (axioms : List Term) : Session :=
  { s with
    commands := s.commands ++ axioms.map Command.assert
    axiomatized := name :: s.axiomatized
    inProgress := s.inProgress.erase name }

/-- The axioms of a function are left alone or settled. -/
theorem ensureAxioms_cases :
    ((s.isAxiomatized g.name || s.isInProgress g.name) = true ∧
      ensureAxioms p r g s = (.ok (), s)) ∨
    ((s.isAxiomatized g.name || s.isInProgress g.name) = false ∧ ∃ result s',
      contractAxioms p r g (s.entered g.name) = (result, s') ∧
      ensureAxioms p r g s = (.ok (), s'.settled g.name (result.toOption.getD []))) := by
  unfold ensureAxioms
  rw [EncodeM.get_bind]
  cases hskip : s.isAxiomatized g.name || s.isInProgress g.name with
  | true => exact .inl ⟨rfl, rfl⟩
  | false =>
    refine .inr ⟨rfl, ?_⟩
    cases hrun : contractAxioms p r g (s.entered g.name) with
    | mk result s' =>
      refine ⟨result, s', rfl, ?_⟩
      have hattempt : attempt (contractAxioms p r g) (s.entered g.name) =
          (.ok result.toOption, s') := by
        unfold attempt
        rw [hrun]
        cases result <;> rfl
      rw [if_neg Bool.false_ne_true]
      have henter : enter g.name s = (.ok (), s.entered g.name) := rfl
      rw [EncodeM.bind_of_ok henter, EncodeM.bind_of_ok hattempt]
      rfl

/-- The session after a call was noted, while its contract is worked on. -/
def Session.noted (name : String) (args : List Term) : Session :=
  { s with
    scope := { s.scope with callSites := (name, args) :: s.scope.callSites }
    inProgress := name :: s.inProgress }

/-- The session after the contract was asserted at a call, or could not be. -/
def Session.instantiated (name : String) (t : Option Term) : Session :=
  { s with
    scope := { s.scope with
      assertions := s.scope.assertions ++ t.toList.map Command.assert }
    inProgress := s.inProgress.erase name }

/-- A call is passed over, or noted and its contract asserted. -/
theorem instantiateCall_cases (args : List Term) (bound : List String) :
    ((∀ post, g.post = some post → (s.isInProgress g.name || Term.anyMentions bound args ||
        s.scope.callSites.contains (g.name, args)) = true) ∧
      instantiateCall p r g args bound s = (.ok (), s)) ∨
    (∃ post, g.post = some post ∧ (s.isInProgress g.name || Term.anyMentions bound args ||
        s.scope.callSites.contains (g.name, args)) = false ∧ ∃ result s',
      contractInstance p r g post args bound [] (s.noted g.name args) = (result, s') ∧
      instantiateCall p r g args bound s = (.ok (), s'.instantiated g.name result.toOption)) := by
  unfold instantiateCall
  cases hpost : g.post with
  | none => exact .inl ⟨nofun, rfl⟩
  | some post =>
    dsimp only
    rw [EncodeM.get_bind]
    cases hskip : s.isInProgress g.name || Term.anyMentions bound args ||
        s.scope.callSites.contains (g.name, args) with
    | true => exact .inl ⟨fun _ _ => rfl, rfl⟩
    | false =>
      refine .inr ⟨post, rfl, rfl, ?_⟩
      cases hrun : contractInstance p r g post args bound [] (s.noted g.name args) with
      | mk result s' =>
        refine ⟨result, s', rfl, ?_⟩
        have hattempt : attempt (contractInstance p r g post args bound [])
            (s.noted g.name args) = (.ok result.toOption, s') := by
          unfold attempt
          rw [hrun]
          cases result <;> rfl
        rw [if_neg Bool.false_ne_true]
        -- noting the call and entering the function always succeed
        have hnote : (modify fun s : Session => { s with scope := { s.scope with
            callSites := (g.name, args) :: s.scope.callSites } } : EncodeM PUnit) s =
            (.ok ⟨⟩, { s with scope := { s.scope with
              callSites := (g.name, args) :: s.scope.callSites } }) := rfl
        have henter : enter g.name { s with scope := { s.scope with
            callSites := (g.name, args) :: s.scope.callSites } } =
            (.ok (), s.noted g.name args) := rfl
        rw [EncodeM.bind_of_ok hnote, EncodeM.bind_of_ok henter, EncodeM.bind_of_ok hattempt]
        cases result with
        | error e =>
          have hnone : s'.instantiated g.name none =
              { s' with inProgress := s'.inProgress.erase g.name } := by
            simp [Session.instantiated]
          exact congrArg (Prod.mk _) hnone.symm
        | ok t => rfl

end

/-! ## All levels -/

theorem Env.Meets.of_no_arrays {ℛ : Regime} {s : Session} {arrays Δ : List String} {env : Env}
    (h : env.Meets ℛ s [] Δ) : env.Meets ℛ s arrays Δ :=
  ⟨h.scalar, fun x a ha => absurd (h.array x a ha) List.not_mem_nil, h.bound, h.numbered,
    h.scope⟩

/-- What a regime allows with arrays in scope it allows without. -/
theorem Regime.Serves.without_arrays {ℛ : Regime} {p : Program} {r : Resolver}
    {arrays : List String} {A : String → Prop} (h : ℛ.Serves p r arrays A) : ℛ.Serves p r [] A where
  fresh := h.fresh
  cell _ _ _ _ _ ha := absurd ha List.not_mem_nil
  selector _ _ _ _ ha := absurd ha List.not_mem_nil
  length _ _ _ ha := absurd ha List.not_mem_nil
  declare := h.declare
  contract := h.contract
  body s name d env Δ hd henv := h.body s name d env Δ hd henv.of_no_arrays

/-- The regime `𝒢` knows the lasting part of what `ℛ` knows: what it says of a term holds for good,
and terms of which it says so can be added as axioms. -/
structure Regime.Lasts (𝒢 ℛ : Regime) (p : Program) : Prop where
  inv : 𝒢.inv = ℛ.inv
  leads : 𝒢.leads = ℛ.leads
  applies : 𝒢.applies = ℛ.applies
  number : ∀ {s Δ t}, 𝒢.number s Δ t → ℛ.number s Δ t
  /-- Bound symbols that a term does not mention do not count. -/
  strengthen : ∀ {s Δ bound t}, ℛ.inv s → (∀ x ∈ Δ, x ∈ bound) → t.mentions bound = false →
    ℛ.number s Δ t → ℛ.number s [] t
  formals : ∀ s g, p.Callable g → EncodeM.Meets 𝒢 s
    (modify fun s => (g.params.map (formalSymbol g)).foldl Session.declareGlobalConst s)
    fun _ s' => ∀ x ∈ g.params, 𝒢.number s' [] (.const (formalSymbol g x))
  entered : ∀ s name, ℛ.inv s → ℛ.inv (s.entered name) ∧ ℛ.leads s (s.entered name)
  settled : ∀ s name ts, ℛ.inv s → (∀ t ∈ ts, 𝒢.truth s [] t) →
    ℛ.inv (s.settled name ts) ∧ ℛ.leads s (s.settled name ts)
  noted : ∀ s name args, ℛ.inv s → ℛ.inv (s.noted name args) ∧ ℛ.leads s (s.noted name args)
  instantiated : ∀ s name result, ℛ.inv s → (∀ t, result = some t → ℛ.truth s [] t) →
    ℛ.inv (s.instantiated name result) ∧ ℛ.leads s (s.instantiated name result)

section

variable {𝒢 ℛ : Regime} {p : Program} {A : String → Prop} {s : Session} {g : FunctionDef}

theorem Regime.Lasts.meets (h : 𝒢.Lasts ℛ p) {x : EncodeM Unit} :
    EncodeM.Meets 𝒢 s x (fun _ _ => True) ↔ EncodeM.Meets ℛ s x fun _ _ => True := by
  unfold EncodeM.Meets
  rw [h.inv, h.leads]

/-- A step that starts and ends within others meets the regime. -/
theorem EncodeM.Meets.of_run {x : EncodeM Unit} {s' : Session} (hrun : x s = (.ok (), s'))
    (h : ℛ.inv s → ℛ.inv s' ∧ ℛ.leads s s') : EncodeM.Meets ℛ s x fun _ _ => True := by
  intro hs
  rw [hrun]
  exact ⟨(h hs).1, (h hs).2, fun _ _ => trivial⟩

theorem meets_ensureAxioms (h : 𝒢.Lasts ℛ p) {r : Resolver} (hr : 𝒢.Serves p r [] A)
    (hg : g.ContractCalls A) (hcallable : p.Callable g)
    (happ : ℛ.applies s g.name g.params.length) :
    EncodeM.Meets ℛ s (ensureAxioms p r g) fun _ _ => True := by
  rcases ensureAxioms_cases p r g s with ⟨-, hrun⟩ | ⟨-, result, s₁, haxioms, hrun⟩
  · exact .of_run hrun fun hs => ⟨hs, ℛ.refl s⟩
  · refine .of_run hrun fun hs => ?_
    obtain ⟨hentered, hfirst⟩ := h.entered s g.name hs
    have happ' : 𝒢.applies (s.entered g.name) g.name g.params.length := by
      rw [h.applies]
      exact ℛ.applies_mono hfirst hentered happ
    have hmeets := meets_contractAxioms hr hg happ' fun s => h.formals s g hcallable
    unfold EncodeM.Meets at hmeets
    rw [h.inv, h.leads, haxioms] at hmeets
    obtain ⟨hs₁, hsecond, htruth⟩ := hmeets hentered
    have hall : ∀ t ∈ result.toOption.getD [], 𝒢.truth s₁ [] t := by
      cases result with
      | error e => exact fun t ht => absurd ht List.not_mem_nil
      | ok ts => exact htruth ts rfl
    obtain ⟨hs₂, hthird⟩ := h.settled s₁ g.name _ hs₁ hall
    exact ⟨hs₂, ℛ.trans hfirst (ℛ.trans hsecond hthird)⟩

theorem meets_instantiateCall (h : 𝒢.Lasts ℛ p) {r : Resolver} (hr : ℛ.Serves p r [] A)
    (hg : g.ContractCalls A) {args : List Term} (hcount : g.params.length = args.length)
    {bound Δ : List String} (hbound : ∀ x ∈ Δ, x ∈ bound) (hargs : ∀ t ∈ args, ℛ.number s Δ t)
    (happ : ℛ.applies s g.name g.params.length) :
    EncodeM.Meets ℛ s (instantiateCall p r g args bound) fun _ _ => True := by
  rcases instantiateCall_cases p r g s args bound with
    ⟨-, hrun⟩ | ⟨post, hpost, htest, result, s₁, hinstance, hrun⟩
  · exact .of_run hrun fun hs => ⟨hs, ℛ.refl s⟩
  · refine .of_run hrun fun hs => ?_
    obtain ⟨hnoted, hfirst⟩ := h.noted s g.name args hs
    have hground : Term.anyMentions bound args = false := by
      rw [Bool.or_eq_false_iff, Bool.or_eq_false_iff] at htest
      exact htest.1.2
    -- the arguments mention nothing that is bound, so they are numbers outside all quantifiers
    have hclosed : ∀ t ∈ args, ℛ.number (s.noted g.name args) [] t := by
      intro t ht
      refine ℛ.number_mono hfirst hnoted (h.strengthen hs hbound ?_ (hargs t ht))
      rw [Bool.eq_false_iff, Ne, Term.mentions_iff]
      rintro ⟨x, hx, hmem⟩
      refine Bool.eq_false_iff.mp hground ((Term.anyMentions_iff bound args).mpr ?_)
      exact ⟨x, Term.mem_constsList.mpr ⟨t, ht, hx⟩, hmem⟩
    have happ' : ℛ.applies (s.noted g.name args) g.name args.length := by
      rw [← hcount]
      exact ℛ.applies_mono hfirst hnoted happ
    have hmeets : EncodeM.Meets ℛ (s.noted g.name args) (contractInstance p r g post args bound [])
        fun t s' => ℛ.truth s' [] t :=
      meets_contractInstance hr hg hpost (fun _ h => absurd h List.not_mem_nil)
        (ℛ.scope_nil _) (fun _ h => absurd h List.not_mem_nil) hclosed happ' fun _ h => absurd h List.not_mem_nil
    obtain ⟨hs₁, hsecond, htruth⟩ := hmeets hnoted
    rw [hinstance] at hs₁ hsecond htruth
    have hresult : ∀ t, result.toOption = some t → ℛ.truth s₁ [] t := by
      cases result with
      | error e => nofun
      | ok t =>
        rintro u ⟨⟩
        exact htruth t rfl
    obtain ⟨hs₂, hthird⟩ := h.instantiated s₁ g.name _ hs₁ hresult
    exact ⟨hs₂, ℛ.trans hfirst (ℛ.trans hsecond hthird)⟩

/-- Both regimes are served at all levels. The called names of contracts and of the bodies of
formulas have the property `A`. -/
theorem serves_resolver (h : 𝒢.Lasts ℛ p) {arrays : List String} (hℛ : ℛ.Allows p arrays A)
    (h𝒢 : 𝒢.Allows p [] A) (hcontracts : ∀ g ∈ p.functions, g.ContractCalls A)
    (hformulas : ∀ d ∈ p.formulas, d.body.CallsOnly A) (n : Nat) (expanding : List String) :
    ℛ.Serves p (resolver p n expanding) arrays A ∧ 𝒢.Serves p (resolver p n expanding) [] A := by
  induction n generalizing expanding with
  | zero =>
    exact ⟨⟨hℛ, fun _ _ _ _ _ _ _ _ _ _ _ _ => .pure fun _ => trivial, fun _ _ _ _ _ _ _ => .throw⟩,
      ⟨h𝒢, fun _ _ _ _ _ _ _ _ _ _ _ _ => .pure fun _ => trivial, fun _ _ _ _ _ _ _ => .throw⟩⟩
  | succ n ih =>
    have hbody : ∀ {name d}, p.formula? name = some d → d.body.CallsOnly A := fun hd =>
      hformulas _ (List.mem_of_find?_eq_some hd)
    -- axioms are made in the regime of what lasts, and instances in that of the function
    have hcontract : ∀ s g args bound Δ, p.Callable g → g.params.length = args.length →
        (∀ x ∈ Δ, x ∈ bound) → (∀ t ∈ args, ℛ.number s Δ t) →
        ℛ.applies s g.name g.params.length → EncodeM.Meets ℛ s
          ((resolver p (n + 1) expanding).contract g args bound) fun _ _ => True := by
      intro s g args bound Δ hcallable hcount hbound hargs happ
      have hg := hcontracts g (Program.mem_of_function? hcallable.found).1
      exact .bind (meets_ensureAxioms h (ih expanding).2 hg hcallable happ) fun _ s₁ hs₁ h₁ _ =>
        meets_instantiateCall h (ih expanding).1.without_arrays hg hcount hbound
          (fun t ht => ℛ.number_mono h₁ hs₁ (hargs t ht)) (ℛ.applies_mono h₁ hs₁ happ)
    refine ⟨⟨hℛ, ?_, ?_⟩, ⟨h𝒢, ?_, ?_⟩⟩
    · intro s g args bound Δ _ hcallable hcount _ hbound hargs happ
      exact hcontract s g args bound Δ hcallable hcount hbound hargs happ
    · intro s name d env Δ hd henv
      exact meets_encodePred (ih (d.name :: expanding)).1 d.body (hbody hd) henv
    · intro s g args bound Δ _ hcallable hcount _ hbound hargs happ
      -- a step means the same in both regimes, and what is known of the arguments is known in `ℛ` too
      rw [h.applies] at happ
      exact h.meets.mpr (hcontract s g args bound Δ hcallable hcount hbound
        (fun t ht => h.number (hargs t ht)) happ)
    · intro s name d env Δ hd henv
      exact meets_encodePred (ih (d.name :: expanding)).2 d.body (hbody hd) henv

end

end Contracts

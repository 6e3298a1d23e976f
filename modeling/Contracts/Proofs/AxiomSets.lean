import Mathlib
import Contracts.Proofs.QuerySound
import Contracts.Proofs.StandaloneContracts

/-!
# The axioms of a session are complete sets

To make the axioms of one function can lead to the axioms of others, at any depth, and can fail at any
point. A synthesis keeps its axioms to itself until it ends, and then adds all of them or none. So at
all times the axioms among the commands of a session are those of the functions that it counts as
axiomatized, one set after the other in the order in which they were settled (`Session.Ledger`).

What makes this an invariant is that a function whose contract is being worked on cannot be settled
meanwhile: `Session.GoesOn` keeps the marks of work in progress, and says that marked functions are
axiomatized after a step only if they were before.
-/

set_option autoImplicit false

namespace Contracts

open Smt

/-! ## Complete sets -/

section

variable (p : Program) (r : Resolver) (g : FunctionDef) (post : Pred)

/-- The term is the contract of the function at these arguments, as it comes out in some session. -/
def InstanceAt (args : List Term) (bound : List String) (guard : List Term) (t : Term) : Prop :=
  ∃ s s', contractInstance p r g post args bound guard s = (.ok t, s')

/-- The contract with an integer for every parameter. -/
def InstanceAtLiteral (k : Int) (t : Term) : Prop :=
  InstanceAt p r g post (List.replicate g.params.length (.int k)) [] [] t

/-- The number of axioms of a function with this postcondition. -/
def FunctionDef.axiomNumber : Nat :=
  if g.isRecursive post then 5 else if g.params.isEmpty then 1 else 3

/-- All axioms of a function with this postcondition. -/
inductive AxiomSet : List Term → Prop
  /-- The contract defines the function by itself: zero, all positive numbers, one, two and three. -/
  | recursive {base step one two three : Term} {n : String} (hrec : g.isRecursive post = true)
      (hbase : InstanceAtLiteral p r g post 0 base)
      (hstep : InstanceAt p r g post [.const n] [n] [.binary .gt (.const n) (.int 0)] step)
      (hone : InstanceAtLiteral p r g post 1 one) (htwo : InstanceAtLiteral p r g post 2 two)
      (hthree : InstanceAtLiteral p r g post 3 three) :
      AxiomSet [base, .quantified .universal [(n, .int)] step, one, two, three]
  /-- There is nothing to choose. -/
  | constant {t : Term} (hrec : g.isRecursive post = false) (hparams : g.params = [])
      (ht : InstanceAt p r g post [] [] [] t) : AxiomSet [t]
  /-- Constants of its own for the parameters, zero and one. -/
  | general {formal zero one : Term} (hrec : g.isRecursive post = false) (hparams : g.params ≠ [])
      (hformal : InstanceAt p r g post ((g.params.map (formalSymbol g)).map Term.const) [] [] formal)
      (hzero : InstanceAtLiteral p r g post 0 zero) (hone : InstanceAtLiteral p r g post 1 one) :
      AxiomSet [formal, zero, one]

variable {p r g post}

theorem AxiomSet.length {ts : List Term} (h : AxiomSet p r g post ts) :
    ts.length = g.axiomNumber post := by
  unfold FunctionDef.axiomNumber
  cases h with
  | recursive hrec => rw [hrec]; rfl
  | constant hrec hparams => rw [hrec, hparams]; rfl
  | general hrec hparams =>
    rw [hrec, List.isEmpty_eq_false_iff.mpr hparams]
    rfl

variable {s s' : Session} {ts : List Term}

theorem literalInstances_eq_ok {ks : List Int}
    (h : literalInstances p r g post ks s = (.ok ts, s')) :
    List.Forall₂ (InstanceAtLiteral p r g post) ks ts := by
  induction ks generalizing s ts with
  | nil =>
    rw [literalInstances] at h
    cases h
    exact .nil
  | cons k ks ih =>
    rw [literalInstances] at h
    obtain ⟨t, s₁, hfirst, hrest⟩ := EncodeM.bind_eq_ok.mp h
    obtain ⟨us, s₂, hlater, hpure⟩ := EncodeM.bind_eq_ok.mp hrest
    cases hpure
    exact .cons ⟨s, s₁, hfirst⟩ (ih hlater)

theorem inductiveAxioms_eq_ok (hrec : g.isRecursive post = true)
    (h : inductiveAxioms p r g post s = (.ok ts, s')) : AxiomSet p r g post ts := by
  unfold inductiveAxioms at h
  obtain ⟨base, s₁, hbase, h⟩ := EncodeM.bind_eq_ok.mp h
  obtain ⟨n, s₂, -, h⟩ := EncodeM.bind_eq_ok.mp h
  obtain ⟨step, s₃, hstep, h⟩ := EncodeM.bind_eq_ok.mp h
  obtain ⟨ground, s₄, hground, hpure⟩ := EncodeM.bind_eq_ok.mp h
  cases hpure
  cases literalInstances_eq_ok hbase with
  | cons hzero hnone =>
    cases hnone
    cases literalInstances_eq_ok hground with
    | cons hone hrest =>
      cases hrest with
      | cons htwo hrest =>
        cases hrest with
        | cons hthree hnone =>
          cases hnone
          exact .recursive hrec hzero ⟨s₂, s₃, hstep⟩ hone htwo hthree

theorem instanceAxioms_eq_ok (hrec : g.isRecursive post = false)
    (h : instanceAxioms p r g post s = (.ok ts, s')) : AxiomSet p r g post ts := by
  unfold instanceAxioms at h
  obtain ⟨-, s₁, -, h⟩ := EncodeM.bind_eq_ok.mp h
  obtain ⟨formal, s₂, hformal, h⟩ := EncodeM.bind_eq_ok.mp h
  by_cases hparams : g.params = []
  · rw [if_pos (List.isEmpty_iff.mpr hparams)] at h
    cases h
    rw [hparams] at hformal
    exact .constant hrec hparams ⟨s₁, _, hformal⟩
  · rw [if_neg (by simpa using hparams)] at h
    obtain ⟨fixed, s₃, hfixed, hpure⟩ := EncodeM.bind_eq_ok.mp h
    cases hpure
    cases literalInstances_eq_ok hfixed with
    | cons hzero hrest =>
      cases hrest with
      | cons hone hnone =>
        cases hnone
        exact .general hrec hparams ⟨s₁, s₂, hformal⟩ hzero hone

/-- A synthesis that succeeds makes all axioms. -/
theorem contractAxioms_eq_ok (hpost : g.post = some post)
    (h : contractAxioms p r g s = (.ok ts, s')) : AxiomSet p r g post ts := by
  unfold contractAxioms at h
  rw [hpost] at h
  dsimp only at h
  cases hrec : g.isRecursive post with
  | true =>
    rw [if_pos hrec] at h
    exact inductiveAxioms_eq_ok hrec h
  | false =>
    rw [if_neg (Bool.eq_false_iff.mp hrec)] at h
    exact instanceAxioms_eq_ok hrec h

end

/-! ## The ledger of a session -/

/-- What came of the axioms of a function in the session: there was nothing to make, the synthesis
failed, or it made all axioms. These stand right behind what the session had when the synthesis
ended. -/
inductive Session.Synthesized (p : Program) (s : Session) (g : FunctionDef) : List Term → Prop
  | unspecified (hpost : g.post = none) : Synthesized p s g []
  | failed {n : Nat} {expanding : List String} {s₀ s₁ : Session} {e : VerifyError}
      (hpost : g.post ≠ none)
      (hrun : contractAxioms p (resolver p n expanding) g s₀ = (.error e, s₁))
      (hcommands : s₁.commands <+: s.commands) : Synthesized p s g []
  | complete {n : Nat} {expanding : List String} {s₀ s₁ : Session} {post : Pred} {ts : List Term}
      (hpost : g.post = some post)
      (hrun : contractAxioms p (resolver p n expanding) g s₀ = (.ok ts, s₁))
      (hcommands : s₁.commands ++ ts.map Command.assert <+: s.commands)
      (hset : AxiomSet p (resolver p n expanding) g post ts) : Synthesized p s g ts

/-- The axioms of the session are those that its axiomatized functions have, one set after the
other. -/
structure Session.Ledger (p : Program) (s : Session) (sets : String → List Term) : Prop where
  nodup : s.axiomatized.Nodup
  asserted : Script.asserted s.commands = s.axiomatized.reverse.flatMap sets
  synthesized : ∀ name ∈ s.axiomatized, ∃ g, p.function? name = some g ∧
    s.Synthesized p g (sets name)

/-- The session goes on with the same work in progress, and does not settle it. -/
structure Session.GoesOn (s s' : Session) : Prop where
  inProgress : s'.inProgress = s.inProgress
  commands : s.commands <+: s'.commands
  unsettled : ∀ f ∈ s.inProgress, f ∈ s'.axiomatized → f ∈ s.axiomatized

section

variable {p : Program} {s s' s'' : Session} {g : FunctionDef} {sets : String → List Term}

theorem Session.Synthesized.mono {ts : List Term} (h : s.Synthesized p g ts)
    (hcommands : s.commands <+: s'.commands) : s'.Synthesized p g ts := by
  cases h with
  | unspecified hpost => exact .unspecified hpost
  | failed hpost hrun hbefore => exact .failed hpost hrun (hbefore.trans hcommands)
  | complete hpost hrun hbefore hset => exact .complete hpost hrun (hbefore.trans hcommands) hset

/-- Declarations change nothing in the ledger. -/
theorem Session.Ledger.of_same (h : s.Ledger p sets) (haxiomatized : s'.axiomatized = s.axiomatized)
    (hasserted : Script.asserted s'.commands = Script.asserted s.commands)
    (hcommands : s.commands <+: s'.commands) : s'.Ledger p sets := by
  refine ⟨?_, ?_, fun name hname => ?_⟩
  · rw [haxiomatized]
    exact h.nodup
  · rw [hasserted, haxiomatized]
    exact h.asserted
  · rw [haxiomatized] at hname
    obtain ⟨g, hg, hset⟩ := h.synthesized name hname
    exact ⟨g, hg, hset.mono hcommands⟩

/-- The ledger after the axioms of one more function were settled. -/
theorem Session.Ledger.settled (h : s.Ledger p sets) (hg : p.function? g.name = some g)
    (hnew : g.name ∉ s.axiomatized) {ts : List Term}
    (hset : (s.settled g.name ts).Synthesized p g ts) :
    (s.settled g.name ts).Ledger p (Function.update sets g.name ts) := by
  -- the function is new, so the sets of the others stay
  have hkept : ∀ name ∈ s.axiomatized, Function.update sets g.name ts name = sets name := by
    intro name hname
    have hne : name ≠ g.name := by
      rintro rfl
      exact hnew hname
    rw [Function.update_of_ne hne]
  refine ⟨List.nodup_cons.mpr ⟨hnew, h.nodup⟩, ?_, fun name hname => ?_⟩
  · have hold : s.axiomatized.reverse.flatMap (Function.update sets g.name ts) =
        s.axiomatized.reverse.flatMap sets :=
      List.flatMap_congr fun name hname => hkept name (List.mem_reverse.mp hname)
    show Script.asserted (s.commands ++ ts.map Command.assert) =
      (g.name :: s.axiomatized).reverse.flatMap (Function.update sets g.name ts)
    rw [Script.asserted_append, Script.asserted_map_assert, h.asserted, List.reverse_cons,
      List.flatMap_append, hold, List.flatMap_singleton, Function.update_self]
  · rcases List.mem_cons.mp hname with rfl | hname
    · rw [Function.update_self]
      exact ⟨g, hg, hset⟩
    · obtain ⟨g', hg', hset'⟩ := h.synthesized name hname
      rw [hkept name hname]
      exact ⟨g', hg', hset'.mono (List.prefix_append _ _)⟩

theorem Session.GoesOn.refl (s : Session) : s.GoesOn s :=
  ⟨rfl, List.prefix_refl _, fun _ _ h => h⟩

theorem Session.GoesOn.trans (h : s.GoesOn s') (h' : s'.GoesOn s'') : s.GoesOn s'' := by
  refine ⟨h'.inProgress.trans h.inProgress, h.commands.trans h'.commands, fun f hf hmem => ?_⟩
  refine h.unsettled f hf (h'.unsettled f ?_ hmem)
  rw [h.inProgress]
  exact hf

/-- The regime of steps that keep the ledger. -/
def ledgers (p : Program) : Regime :=
  .frame (fun s => ∃ sets, s.Ledger p sets) Session.GoesOn .refl .trans

/-! ## Steps -/

/-- A step that adds declarations at most keeps the ledger. -/
theorem EncodeM.Meets.of_declaring {α : Type} {x : EncodeM α} {post : α → Session → Prop}
    (hinProgress : (x s).2.inProgress = s.inProgress)
    (haxiomatized : (x s).2.axiomatized = s.axiomatized)
    (hasserted : Script.asserted (x s).2.commands = Script.asserted s.commands)
    (hcommands : s.commands <+: (x s).2.commands)
    (hpost : ∀ a, (x s).1 = .ok a → post a (x s).2) : EncodeM.Meets (ledgers p) s x post := by
  rintro ⟨sets, h⟩
  refine ⟨⟨sets, h.of_same haxiomatized hasserted hcommands⟩, ⟨hinProgress, hcommands, ?_⟩, hpost⟩
  intro f _ hmem
  rw [haxiomatized] at hmem
  exact hmem

/-- A step on the scope of the function and the counter keeps the ledger. -/
theorem EncodeM.Meets.of_local {α : Type} {x : EncodeM α} {post : α → Session → Prop}
    (hlocal : ∃ scope counter, (x s).2 = { s with scope := scope, counter := counter })
    (hpost : ∀ a, (x s).1 = .ok a → post a (x s).2) : EncodeM.Meets (ledgers p) s x post := by
  obtain ⟨scope, counter, heq⟩ := hlocal
  refine .of_declaring ?_ ?_ ?_ ?_ hpost
  · rw [heq]
  · rw [heq]
  · rw [heq]
  · rw [heq]

theorem meets_ledgers_declareFun (name : String) (n : Nat) :
    EncodeM.Meets (ledgers p) s (declareFun name n) fun _ _ => True := by
  have hrun : (declareFun name n s).2 = s ∨ ∃ c arities, Script.asserted [c] = [] ∧
      (declareFun name n s).2 = { s with arities := arities, commands := s.commands ++ [c] } := by
    unfold declareFun
    rw [EncodeM.get_bind]
    cases s.arities.lookup name with
    | none => exact .inr ⟨_, _, rfl, rfl⟩
    | some expected =>
      dsimp only
      split
      · exact .inl rfl
      · exact .inl rfl
  rcases hrun with heq | ⟨c, arities, hc, heq⟩
  · refine .of_local ⟨s.scope, s.counter, heq⟩ fun _ _ => trivial
  · refine .of_declaring ?_ ?_ ?_ ?_ fun _ _ => trivial
    · rw [heq]
    · rw [heq]
    · rw [heq, Script.asserted_append, hc, List.append_nil]
    · rw [heq]
      exact List.prefix_append _ _

theorem ledgers_allows (p : Program) (arrays : List String) :
    (ledgers p).Allows p arrays fun _ => True where
  fresh s base _ _ := .of_local ⟨s.scope, _, rfl⟩ fun x hx => by
    cases hx
    exact ⟨⟨base, _, Nat.lt_succ_self _, rfl⟩, trivial⟩
  cell s a i _ _ _ _ _ _ _ := .of_local (cellSymbol_local a i s) fun _ _ => trivial
  selector s a _ _ _ _ _ := .of_local (selectorSymbol_local a s) fun _ _ => trivial
  length s a _ _ _ := .of_local (lengthSymbol_local a s) fun _ _ => trivial
  declare _ f n _ _ := meets_ledgers_declareFun (fnSymbol f) n

theorem meets_ledgers_formals (g : FunctionDef) : EncodeM.Meets (ledgers p) s
    (modify fun s => (g.params.map (formalSymbol g)).foldl Session.declareGlobalConst s)
    fun _ _ => ∀ x ∈ g.params, True := by
  have hfold : ∀ (names : List String) (s : Session),
      (names.foldl Session.declareGlobalConst s).inProgress = s.inProgress ∧
      (names.foldl Session.declareGlobalConst s).axiomatized = s.axiomatized ∧
      Script.asserted (names.foldl Session.declareGlobalConst s).commands =
        Script.asserted s.commands ∧
      s.commands <+: (names.foldl Session.declareGlobalConst s).commands := by
    intro names
    induction names with
    | nil => exact fun s => ⟨rfl, rfl, rfl, List.prefix_refl _⟩
    | cons x names ih =>
      intro s
      obtain ⟨hinProgress, haxiomatized, hasserted, hcommands⟩ := ih (s.declareGlobalConst x)
      have hstep : (s.declareGlobalConst x).inProgress = s.inProgress ∧
          (s.declareGlobalConst x).axiomatized = s.axiomatized ∧
          s.commands <+: (s.declareGlobalConst x).commands := by
        unfold Session.declareGlobalConst
        split
        · exact ⟨rfl, rfl, List.prefix_refl _⟩
        · exact ⟨rfl, rfl, List.prefix_append _ _⟩
      exact ⟨hinProgress.trans hstep.1, haxiomatized.trans hstep.2.1,
        hasserted.trans (sameAxioms_declareGlobalConst (p := p) s x).asserted,
        hstep.2.2.trans hcommands⟩
  obtain ⟨hinProgress, haxiomatized, hasserted, hcommands⟩ :=
    hfold (g.params.map (formalSymbol g)) s
  exact .of_declaring hinProgress haxiomatized hasserted hcommands fun _ _ _ _ => trivial

/-! ## What a call brings in -/

theorem Session.GoesOn.not_mem_axiomatized {name : String} (h : (s.entered name).GoesOn s')
    (hname : name ∉ s.axiomatized) : name ∉ s'.axiomatized := fun hmem =>
  hname (h.unsettled name List.mem_cons_self hmem)

/-- Between the mark and its removal a session goes on as if neither had been. -/
theorem Session.GoesOn.unmark {name : String} {s₀ : Session} (h : s₀.GoesOn s')
    (hmarked : s₀.inProgress = name :: s.inProgress) (hcommands : s₀.commands = s.commands)
    (haxiomatized : s₀.axiomatized = s.axiomatized)
    (hinProgress : s''.inProgress = s'.inProgress.erase name)
    (hlater : s'.commands <+: s''.commands)
    (hsettled : ∀ f ∈ s.inProgress, f ∈ s''.axiomatized → f ∈ s'.axiomatized) : s.GoesOn s'' := by
  refine ⟨?_, ?_, fun f hf hmem => ?_⟩
  · rw [hinProgress, h.inProgress, hmarked, List.erase_cons_head]
  · rw [← hcommands]
    exact h.commands.trans hlater
  · rw [← haxiomatized]
    refine h.unsettled f ?_ (hsettled f hf hmem)
    rw [hmarked]
    exact List.mem_cons_of_mem _ hf

/-- The axioms of a function are added as a whole, or not at all. -/
theorem meets_ledgers_ensureAxioms {n : Nat} {expanding : List String}
    (hr : (ledgers p).Serves p (resolver p n expanding) [] fun _ => True)
    (hcallable : p.Callable g) :
    EncodeM.Meets (ledgers p) s (ensureAxioms p (resolver p n expanding) g) fun _ _ => True := by
  rcases ensureAxioms_cases p (resolver p n expanding) g s with
    ⟨-, hrun⟩ | ⟨htest, result, s₁, haxioms, hrun⟩
  · exact .of_run hrun fun hs => ⟨hs, .refl s⟩
  · refine .of_run hrun fun hs => ?_
    rw [Bool.or_eq_false_iff] at htest
    have hnew : g.name ∉ s.axiomatized := fun hmem =>
      Bool.false_ne_true (htest.1.symm.trans (List.contains_iff_mem.mpr hmem))
    have hidle : g.name ∉ s.inProgress := fun hmem =>
      Bool.false_ne_true (htest.2.symm.trans (List.contains_iff_mem.mpr hmem))
    obtain ⟨sets₀, hledger₀⟩ := hs
    have hentered : (s.entered g.name).Ledger p sets₀ :=
      hledger₀.of_same rfl rfl (List.prefix_refl _)
    obtain ⟨⟨sets, hledger⟩, hgoes, -⟩ := meets_contractAxioms hr (fun _ _ _ _ => trivial) trivial
      (fun s => meets_ledgers_formals g) ⟨sets₀, hentered⟩
    rw [haxioms] at hledger hgoes
    replace hgoes : (s.entered g.name).GoesOn s₁ := hgoes
    -- the mark keeps the synthesis, and all that it calls, from settling this function
    have hunsettled := hgoes.not_mem_axiomatized hnew
    -- whatever came of the synthesis, it stands behind the commands that the session has by now
    have hset : (s₁.settled g.name (result.toOption.getD [])).Synthesized p g
        (result.toOption.getD []) := by
      cases hpost : g.post with
      | none =>
        have hempty : contractAxioms p (resolver p n expanding) g (s.entered g.name) =
            (.ok [], s.entered g.name) := by
          unfold contractAxioms
          rw [hpost]
          rfl
        rw [hempty] at haxioms
        cases haxioms
        exact .unspecified hpost
      | some post =>
        cases result with
        | error e =>
          refine .failed (hpost ▸ Option.some_ne_none post) haxioms ?_
          exact List.prefix_append _ _
        | ok ts =>
          exact .complete hpost haxioms (List.prefix_refl _) (contractAxioms_eq_ok hpost haxioms)
    refine ⟨⟨_, hledger.settled hcallable.found hunsettled hset⟩, ?_⟩
    refine hgoes.unmark rfl rfl rfl rfl (List.prefix_append _ _) fun f hf hmem => ?_
    rcases List.mem_cons.mp hmem with rfl | hmem
    · exact absurd hf hidle
    · exact hmem

theorem meets_ledgers_instantiateCall {n : Nat} {expanding : List String}
    (hr : (ledgers p).Serves p (resolver p n expanding) [] fun _ => True) (args : List Term)
    (bound : List String) :
    EncodeM.Meets (ledgers p) s (instantiateCall p (resolver p n expanding) g args bound)
      fun _ _ => True := by
  rcases instantiateCall_cases p (resolver p n expanding) g s args bound with
    ⟨-, hrun⟩ | ⟨post, hpost, -, result, s₁, hinstance, hrun⟩
  · exact .of_run hrun fun hs => ⟨hs, .refl s⟩
  · refine .of_run hrun fun ⟨sets₀, hledger₀⟩ => ?_
    have hnoted : (s.noted g.name args).Ledger p sets₀ :=
      hledger₀.of_same rfl rfl (List.prefix_refl _)
    have hmeets : EncodeM.Meets (ledgers p) (s.noted g.name args)
        (contractInstance p (resolver p n expanding) g post args bound []) fun _ _ => True :=
      meets_contractInstance (Δ := []) hr (fun _ _ _ _ => trivial) hpost
        (fun _ h => absurd h List.not_mem_nil) trivial (fun _ h => absurd h List.not_mem_nil)
        (fun _ _ => trivial) trivial fun _ h => absurd h List.not_mem_nil
    obtain ⟨⟨sets, hledger⟩, hgoes, -⟩ := hmeets ⟨sets₀, hnoted⟩
    rw [hinstance] at hledger hgoes
    replace hgoes : (s.noted g.name args).GoesOn s₁ := hgoes
    refine ⟨⟨sets, hledger.of_same rfl rfl (List.prefix_refl _)⟩, ?_⟩
    exact hgoes.unmark rfl rfl rfl rfl (List.prefix_refl _) fun _ _ hmem => hmem

/-- The ledger is kept at all levels. -/
theorem serves_ledgers (n : Nat) (expanding arrays : List String) :
    (ledgers p).Serves p (resolver p n expanding) arrays fun _ => True := by
  induction n generalizing expanding arrays with
  | zero =>
    exact ⟨ledgers_allows p arrays, fun _ _ _ _ _ _ _ _ _ _ _ _ => .pure fun _ => trivial,
      fun _ _ _ _ _ _ _ => .throw⟩
  | succ n ih =>
    refine ⟨ledgers_allows p arrays, fun s g args bound Δ _ hcallable _ _ _ _ _ => ?_,
      fun s name d env Δ _ henv => ?_⟩
    · exact .bind (meets_ledgers_ensureAxioms (ih expanding []) hcallable) fun _ _ _ _ _ =>
        meets_ledgers_instantiateCall (ih expanding []) args bound
    · exact meets_encodePred (ih (d.name :: expanding) arrays) d.body (fun _ _ => trivial) henv

end

/-! ## Sessions -/

/-- What can be done with a session. Each of these can fail. -/
inductive SessionStep
  | begin (function : String)
  | predicate (q : Pred) (env : Env)
  | expression (e : Expr) (env : Env)
  | query (f : FunctionDef) (obligation : Pred)

/-- The session after a step, whether it succeeds or fails. -/
def Program.take (p : Program) (s : Session) : SessionStep → Session
  | .begin function => s.beginFunction function
  | .predicate q env => (p.encodePred q env s).2
  | .expression e env => (p.encodeExpr e env s).2
  | .query f obligation => (p.query f obligation s).2

/-- A new session after some steps. -/
def Program.sessionAlong (p : Program) (steps : List SessionStep) : Session :=
  steps.foldl p.take Session.new

section

variable {p : Program} {s : Session}

theorem Env.meets_ledgers (env : Env) (s : Session) : ∃ arrays, env.Meets (ledgers p) s arrays [] := by
  refine ⟨env.meanings.filterMap fun m => match m.2 with | .array a => some a | .scalar _ => none,
    fun _ _ _ => trivial, fun x a ha => ?_, fun _ hx => absurd hx List.not_mem_nil,
    fun _ hx => absurd hx List.not_mem_nil, trivial⟩
  obtain ⟨before, after, heq, -⟩ := List.lookup_eq_some_iff.mp ha
  rw [heq, List.filterMap_append]
  exact List.mem_append_right _ List.mem_cons_self

theorem Session.forFunction_local (s : Session) (f : FunctionDef) :
    ∃ scope, s.forFunction f = { s with scope := scope } := by
  have hfold : ∀ (names : List String) (s : Session), ∃ scope,
      names.foldl Session.declareLocalConst s = { s with scope := scope } := by
    intro names
    induction names with
    | nil => exact fun s => ⟨s.scope, rfl⟩
    | cons x names ih =>
      intro s
      obtain ⟨scope, hscope⟩ := s.declareLocalConst_local x
      rw [List.foldl_cons, hscope]
      exact ih _
  obtain ⟨scope, hscope⟩ := hfold (f.scalars.map Prod.snd) (s.beginFunction f.name)
  exact ⟨scope, hscope⟩

/-- Every step keeps the ledger, and marks nothing for good. -/
theorem take_keeps (step : SessionStep) (h : ∃ sets, s.Ledger p sets) :
    (∃ sets, (p.take s step).Ledger p sets) ∧ (p.take s step).inProgress = s.inProgress := by
  have hpred : ∀ (q : Pred) (env : Env) (s : Session), (∃ sets, s.Ledger p sets) →
      (∃ sets, (p.encodePred q env s).2.Ledger p sets) ∧
        (p.encodePred q env s).2.inProgress = s.inProgress := by
    intro q env s h
    obtain ⟨arrays, henv⟩ := env.meets_ledgers (p := p) s
    obtain ⟨hledger, hgoes, -⟩ := meets_encodePred (serves_ledgers p.levels [] arrays) q
      (fun _ _ => trivial) henv h
    exact ⟨hledger, hgoes.inProgress⟩
  cases step with
  | begin function =>
    obtain ⟨sets, hledger⟩ := h
    exact ⟨⟨sets, hledger.of_same rfl rfl (List.prefix_refl _)⟩, rfl⟩
  | predicate q env => exact hpred q env s h
  | expression e env =>
    obtain ⟨arrays, henv⟩ := env.meets_ledgers (p := p) s
    obtain ⟨hledger, hgoes, -⟩ := meets_encodeExpr (serves_ledgers p.levels [] arrays) e
      (fun _ _ => trivial) henv h
    exact ⟨hledger, hgoes.inProgress⟩
  | query f obligation =>
    obtain ⟨sets, hledger⟩ := h
    obtain ⟨scope, hscope⟩ := Session.forFunction_local s f
    have hstart : (s.forFunction f).Ledger p sets := by
      rw [hscope]
      exact hledger.of_same rfl rfl (List.prefix_refl _)
    obtain ⟨hkept, hsame⟩ := hpred obligation (Env.ofFunction f) (s.forFunction f) ⟨sets, hstart⟩
    rw [← (p.query_run f obligation s).1] at hkept hsame
    refine ⟨hkept, hsame.trans ?_⟩
    rw [hscope]

/-- So do all steps of a session. -/
theorem sessionAlong_keeps (steps : List SessionStep) :
    (∃ sets, (p.sessionAlong steps).Ledger p sets) ∧ (p.sessionAlong steps).inProgress = [] := by
  have hnew : Session.new.Ledger p fun _ => [] :=
    ⟨List.nodup_nil, rfl, fun _ hmem => absurd hmem List.not_mem_nil⟩
  have hrun : ∀ (steps : List SessionStep) (s : Session), (∃ sets, s.Ledger p sets) →
      (∃ sets, (steps.foldl p.take s).Ledger p sets) ∧
        (steps.foldl p.take s).inProgress = s.inProgress := by
    intro steps
    induction steps with
    | nil => exact fun s h => ⟨h, rfl⟩
    | cons step steps ih =>
      intro s h
      obtain ⟨hledger, hsame⟩ := take_keeps step h
      obtain ⟨hledger', hsame'⟩ := ih (p.take s step) hledger
      exact ⟨hledger', hsame'.trans hsame⟩
  exact hrun steps Session.new ⟨_, hnew⟩

/-- A set is complete or empty. -/
theorem Session.Synthesized.length {g : FunctionDef} {ts : List Term} (h : s.Synthesized p g ts) :
    ts = [] ∨ ∃ post, g.post = some post ∧ ts.length = g.axiomNumber post := by
  cases h with
  | unspecified hpost => exact .inl rfl
  | failed hpost hrun hcommands => exact .inl rfl
  | complete hpost hrun hcommands hset => exact .inr ⟨_, hpost, hset.length⟩

end

end Contracts

import Mathlib
import Contracts.Proofs.QueryHistory
import Contracts.Proofs.SessionSorts

/-!
# Queries are well-formed scripts

Whatever a session has seen, also encodings that failed half-way, a query that it returns is a script
that a solver accepts: no symbol is declared twice, and every assertion is a truth value of what was
declared before it (`query_wellFormed`).

The terms that an encoding makes are of the right sort over what the session declares. There are two
views of that: an axiom may use the global commands only, everything else also what is declared for
the function. Both are instances of one regime (`sorts`), so they are kept along all encodings.
-/

set_option autoImplicit false

namespace Contracts

open Smt

/-! ## Sorts under bound symbols -/

/-- Bound symbols, all of them integers. -/
def ints (Δ : List String) : List (String × SmtSort) := Δ.map fun x => (x, .int)

theorem lookup_ints_of_mem {Δ : List String} {x : String} (hx : x ∈ Δ) :
    (ints Δ).lookup x = some .int := by
  induction Δ with
  | nil => cases hx
  | cons y Δ ih =>
    rw [ints, List.map_cons, List.lookup_cons]
    by_cases hxy : x = y
    · rw [beq_iff_eq.mpr hxy]
    · rw [beq_false_of_ne hxy]
      exact ih ((List.mem_cons.mp hx).resolve_left hxy)

theorem lookup_ints_of_not_mem {Δ : List String} {x : String} (hx : x ∉ Δ) :
    (ints Δ).lookup x = none := by
  induction Δ with
  | nil => rfl
  | cons y Δ ih =>
    rw [List.mem_cons, not_or] at hx
    rw [ints, List.map_cons, List.lookup_cons, beq_false_of_ne hx.1]
    exact ih hx.2

theorem eq_int_of_lookup_ints {Δ : List String} {x : String} {τ : SmtSort}
    (h : (ints Δ).lookup x = some τ) : τ = .int := by
  by_cases hx : x ∈ Δ
  · rw [lookup_ints_of_mem hx] at h
    exact (Option.some.inj h).symm
  · rw [lookup_ints_of_not_mem hx] at h
    cases h

/-- A declared integer is an integer under any bound symbols. -/
theorem hasSort_const {c : Script} {x : String} (hx : Command.declareConst x .int ∈ c)
    (Δ : List String) : Term.HasSort c (ints Δ) (.const x) .int := by
  by_cases hmem : x ∈ Δ
  · exact .bound (lookup_ints_of_mem hmem)
  · exact .const (lookup_ints_of_not_mem hmem) hx

/-- A function on integers can be applied, if its name is no bound symbol. -/
theorem hasSort_app {c : Script} {f : String} {n : Nat} {Δ : List String} {ts : List Term}
    (hf : Command.declareFun f (List.replicate n .int) .int ∈ c) (hfΔ : f ∉ Δ)
    (hcount : ts.length = n) (hts : ∀ t ∈ ts, Term.HasSort c (ints Δ) t .int) :
    Term.HasSort c (ints Δ) (.app f ts) .int := by
  refine .app (lookup_ints_of_not_mem hfΔ) hf (by rw [hcount, List.length_replicate]) fun q hq => ?_
  obtain ⟨hq₁, hq₂⟩ := List.of_mem_zip hq
  rw [List.eq_of_mem_replicate hq₂]
  exact hts q.1 hq₁

/-! ## The regime of sorts -/

/-- The part of the declarations of a session that some terms may use. -/
structure Session.View (view : Session → Script) : Prop where
  commands : ∀ s : Session, s.commands ⊆ view s
  mono : ∀ {s s' : Session}, s.Leads s' → view s ⊆ view s'
  within : ∀ s : Session, view s ⊆ s.declarations

theorem Session.view_commands : Session.View Session.commands :=
  ⟨fun _ => List.Subset.refl _, fun h => h.commands, fun _ => List.subset_append_left _ _⟩

theorem Session.view_declarations : Session.View Session.declarations :=
  ⟨fun _ => List.subset_append_left _ _, fun h => h.declarations, fun _ => List.Subset.refl _⟩

/-- Numbers are of sort integer and truth values of sort Boolean, over a view of the session. -/
def sorts (view : Session → Script) (hview : Session.View view) : Regime where
  inv := Session.WellSorted
  leads := Session.Leads
  applies s f n := PlainName f ∧
    Command.declareFun (fnSymbol f) (List.replicate n .int) .int ∈ s.commands
  number s Δ t := Term.HasSort (view s) (ints Δ) t .int
  truth s Δ t := Term.HasSort (view s) (ints Δ) t .bool
  scope _ _ := True
  refl := .refl
  trans := .trans
  applies_mono h _ hf := ⟨hf.1, h.commands hf.2⟩
  number_mono h _ ht := ht.mono (hview.mono h)
  truth_mono h _ ht := ht.mono (hview.mono h)
  scope_mono _ _ _ := trivial
  scope_nil _ := trivial
  weaken {s s' Δ t x} h hs' hx ht := by
    refine Term.HasSort.weaken (Γ := []) (fun params result hf => ?_) (fun sort hsort => ?_)
      (fun sort hsort => eq_int_of_lookup_ints hsort) (ht.mono (hview.mono h)) rfl
    · exact hs'.fn_not_madeAfter (hview.within s' hf) (hx.mono (Nat.zero_le _))
    · exact hs'.const_int (hview.within s' hsort)
  bound _ _ _ := .bound (lookup_ints_of_mem List.mem_cons_self)
  int _ _ n := .int _ n
  neg ht := .neg ht
  arith op ha hb := by
    cases op with
    | add => exact .binary rfl ha hb
    | sub => exact .binary rfl ha hb
    | mul => exact .binary rfl ha hb
    | div => exact .ite (.binary rfl ha (.int _ 0)) (.binary rfl ha hb) (.neg (.binary rfl (.neg ha) hb))
  ite ht ha hb := .ite ht ha hb
  app {s Δ f ts} _ hΔ hf hts := by
    refine hasSort_app (hview.commands s hf.2) (fun hmem => ?_) rfl hts
    exact fnSymbol_not_madeAfter hf.1.1 0 (hΔ _ hmem)
  bool _ _ b := .bool _ b
  compare op ha hb := by
    cases op with
    | eq => exact .binary rfl ha hb
    | ne => exact .not (.binary rfl ha hb)
    | gt => exact .binary rfl ha hb
    | lt => exact .binary rfl ha hb
    | ge => exact .binary rfl ha hb
    | le => exact .binary rfl ha hb
  not ht := .not ht
  junction op hts := .junction op hts
  implies ha hb := .binary rfl ha hb
  quantified k _ ht := .quantified k (List.nodup_singleton _) ht

section

variable {view : Session → Script} {hview : Session.View view} {s : Session}

theorem meets_sorts_freshSymbol (base : String) :
    EncodeM.Meets (sorts view hview) s (freshSymbol base) fun x _ =>
      MadeAfter s.counter x ∧ True := by
  intro hs
  refine ⟨hs.of_eq rfl rfl rfl (Nat.le_succ _) rfl rfl rfl rfl rfl rfl, .of_eq rfl rfl, ?_⟩
  rintro x ⟨⟩
  exact ⟨⟨base, _, Nat.lt_succ_self _, rfl⟩, trivial⟩

theorem meets_sorts_declareFun {f : String} (hf : PlainName f) (n : Nat) :
    EncodeM.Meets (sorts view hview) s (declareFun (fnSymbol f) n) fun _ s' =>
      (sorts view hview).applies s' f n := by
  intro hs
  unfold declareFun
  rw [EncodeM.get_bind]
  cases hlookup : s.arities.lookup (fnSymbol f) with
  | none =>
    have hleads : s.Leads (s.withFunction f n) :=
      ⟨List.subset_append_left _ _, List.Subset.refl _⟩
    exact ⟨hs.withFunction hf n hlookup, hleads, fun _ _ =>
      ⟨hf, List.mem_append_right _ List.mem_cons_self⟩⟩
  | some expected =>
    dsimp only
    split
    · refine ⟨hs, .refl s, ?_⟩
      rintro a ⟨⟩
    · next harity =>
      rw [not_not.mp harity] at hlookup
      exact ⟨hs, .refl s, fun _ _ => ⟨hf, hs.globals.arities _ _ hlookup⟩⟩

/-- Axioms may use the global commands. -/
theorem sorts_commands_allows (p : Program) :
    (sorts _ Session.view_commands).Allows p [] PlainName where
  fresh _ base _ _ := meets_sorts_freshSymbol base
  cell _ _ _ _ _ ha := absurd ha List.not_mem_nil
  selector _ _ _ _ ha := absurd ha List.not_mem_nil
  length _ _ _ ha := absurd ha List.not_mem_nil
  declare _ _ n hf _ := meets_sorts_declareFun hf n

theorem meets_sorts_cellSymbol {a : String} (ha : PlainName a) {i : Term}
    (hi : Term.HasSort s.declarations [] i .int) (Δ : List String) :
    EncodeM.Meets (sorts _ Session.view_declarations) s (cellSymbol a i) fun x s' =>
      Term.HasSort s'.declarations (ints Δ) (.const x) .int := by
  intro hs
  cases hfind : s.scope.cells.find? (fun c => c.array = a ∧ c.index = i) with
  | some c =>
    rw [cellSymbol_run_of_mem hfind]
    refine ⟨hs, .refl s, ?_⟩
    rintro x ⟨⟩
    have hdecl := (hs.facts.symbols c (List.mem_of_find?_eq_some hfind)).1
    exact hasSort_const (List.mem_append_right _ hdecl) Δ
  | none =>
    rw [cellSymbol_run_new hfind]
    obtain ⟨hs', hleads, hdecl⟩ := hs.withCell ha hi fun c hc htest =>
      absurd (decide_eq_true htest) (List.find?_eq_none.mp hfind c hc)
    refine ⟨hs', hleads, ?_⟩
    rintro x ⟨⟩
    exact hasSort_const (List.mem_append_right _ hdecl) Δ

theorem meets_sorts_selectorSymbol {a : String} (ha : PlainName a) {i : Term} {Δ : List String}
    (hΔ : ∀ x ∈ Δ, MadeAfter 0 x) (hi : Term.HasSort s.declarations (ints Δ) i .int) :
    EncodeM.Meets (sorts _ Session.view_declarations) s (selectorSymbol a) fun f s' =>
      Term.HasSort s'.declarations (ints Δ) (.app f [i]) .int := by
  intro hs
  have happ : ∀ s' : Session, s.Leads s' →
      Command.declareFun (a ++ "!sel") [.int] .int ∈ s'.scope.decls →
      Term.HasSort s'.declarations (ints Δ) (.app (a ++ "!sel") [i]) .int := by
    intro s' hleads hdecl
    refine hasSort_app (n := 1) (List.mem_append_right _ hdecl) (fun hmem => ?_) rfl ?_
    · exact selector_not_madeAfter a 0 (hΔ _ hmem)
    · exact List.forall_mem_singleton.mpr (hi.mono hleads.declarations)
  rw [selectorSymbol_run]
  by_cases hmem : a ∈ s.scope.selectors
  · rw [if_pos hmem]
    refine ⟨hs, .refl s, ?_⟩
    rintro f ⟨⟩
    exact happ s (.refl s) ((hs.decls.selectors a).mp hmem)
  · rw [if_neg hmem]
    have hleads : s.Leads (s.withSelector a) :=
      ⟨List.Subset.refl _, List.subset_append_left _ _⟩
    refine ⟨hs.withSelector ha hmem, hleads, ?_⟩
    rintro f ⟨⟩
    exact happ _ hleads (List.mem_append_right _ List.mem_cons_self)

theorem meets_sorts_lengthSymbol {a : String} (ha : PlainName a) (Δ : List String) :
    EncodeM.Meets (sorts _ Session.view_declarations) s (lengthSymbol a) fun x s' =>
      Term.HasSort s'.declarations (ints Δ) (.const x) .int := by
  intro hs
  rw [lengthSymbol_run]
  by_cases hmem : a ∈ s.scope.lengths
  · rw [if_pos hmem]
    refine ⟨hs, .refl s, ?_⟩
    rintro x ⟨⟩
    exact hasSort_const (List.mem_append_right _ (hs.decls.lengths a hmem)) Δ
  · rw [if_neg hmem]
    obtain ⟨hs', hdecl⟩ := hs.withLength ha
    refine ⟨hs', s.leads_withLength a, ?_⟩
    rintro x ⟨⟩
    exact hasSort_const (List.mem_append_right _ hdecl) Δ

/-- A term that mentions no bound symbol is a number outside the quantifiers as well. -/
theorem hasSort_strengthen {c : Script} {Δ bound : List String} {t : Term}
    (hΔ : ∀ x ∈ Δ, x ∈ bound) (hground : t.mentions bound = false)
    (ht : Term.HasSort c (ints Δ) t .int) : Term.HasSort c [] t .int := by
  refine ht.strengthen (Δ := ints Δ) rfl fun x hx => lookup_ints_of_not_mem fun hmem => ?_
  refine Bool.eq_false_iff.mp hground ((Term.mentions_iff bound t).mpr ?_)
  exact ⟨x, hx, hΔ x hmem⟩

/-- Everything else may use all declarations. -/
theorem sorts_declarations_allows (p : Program) {arrays : List String}
    (harrays : ∀ a ∈ arrays, PlainName a) :
    (sorts _ Session.view_declarations).Allows p arrays PlainName where
  fresh _ base _ _ := meets_sorts_freshSymbol base
  cell _ a _ Δ _ ha _ hbound hi hground :=
    meets_sorts_cellSymbol (harrays a ha) (hasSort_strengthen hbound hground hi) Δ
  selector _ a _ _ ha hΔ hi := meets_sorts_selectorSymbol (harrays a ha) hΔ hi
  length _ a Δ ha _ := meets_sorts_lengthSymbol (harrays a ha) Δ
  declare _ _ n hf _ := meets_sorts_declareFun hf n

theorem meets_sorts_formals (g : FunctionDef) (hg : ∀ x ∈ g.params, PlainName x.name) :
    EncodeM.Meets (sorts _ Session.view_commands) s
      (modify fun s => (g.params.map (formalSymbol g)).foldl Session.declareGlobalConst s)
      fun _ s' => ∀ x ∈ g.params,
        Term.HasSort s'.commands (ints []) (.const (formalSymbol g x)) .int := by
  have hfold : ∀ (params : List Param) (s : Session), (∀ x ∈ params, PlainName x.name) →
      s.WellSorted → ((params.map (formalSymbol g)).foldl Session.declareGlobalConst s).WellSorted ∧
        s.Leads ((params.map (formalSymbol g)).foldl Session.declareGlobalConst s) ∧
        ∀ x ∈ params, Command.declareConst (formalSymbol g x) .int ∈
          ((params.map (formalSymbol g)).foldl Session.declareGlobalConst s).commands := by
    intro params
    induction params with
    | nil => exact fun s _ hs => ⟨hs, .refl s, fun x hx => absurd hx List.not_mem_nil⟩
    | cons x params ih =>
      intro s hplain hs
      obtain ⟨hx, hparams⟩ := List.forall_mem_cons.mp hplain
      obtain ⟨hs₁, hdecl⟩ := hs.declareGlobalConst g hx
      obtain ⟨hs₂, hleads, hdecls⟩ := ih _ hparams hs₁
      exact ⟨hs₂, (s.leads_declareGlobalConst _).trans hleads,
        List.forall_mem_cons.mpr ⟨hleads.commands hdecl, hdecls⟩⟩
  intro hs
  obtain ⟨hs', hleads, hdecls⟩ := hfold g.params s hg hs
  exact ⟨hs', hleads, fun _ _ x hx => hasSort_const (hdecls x hx) []⟩

/-- What is of the right sort over the global commands can be made an axiom. -/
theorem sorts_lasts {p : Program} (hp : p.PlainNames) :
    (sorts _ Session.view_commands).Lasts (sorts _ Session.view_declarations) p where
  inv := rfl
  leads := rfl
  applies := rfl
  number ht := ht.mono (List.subset_append_left _ _)
  strengthen _ hbound hground ht := hasSort_strengthen hbound hground ht
  formals s g hg := by
    refine meets_sorts_formals g fun x hx => ?_
    exact hp g (Program.mem_of_function? hg.found).1 x
      (List.mem_append_left _ (List.mem_append_left _ hx))
  entered s name hs := ⟨hs.of_eq rfl rfl rfl (Nat.le_refl _) rfl rfl rfl rfl rfl rfl, .of_eq rfl rfl⟩
  settled s name ts hs hts :=
    ⟨hs.settled name hts, List.subset_append_left _ _, List.Subset.refl _⟩
  noted s name args hs :=
    ⟨hs.of_eq rfl rfl rfl (Nat.le_refl _) rfl rfl rfl rfl rfl rfl, .of_eq rfl rfl⟩
  instantiated s name result hs hresult := by
    refine ⟨?_, .of_eq rfl rfl⟩
    cases result with
    | none =>
      refine hs.of_eq rfl rfl rfl (Nat.le_refl _) rfl rfl rfl rfl ?_ rfl
      exact List.append_nil _
    | some t =>
      exact (hs.addAssertion (hresult t rfl)).of_eq rfl rfl rfl (Nat.le_refl _) rfl rfl rfl rfl rfl rfl

end

/-! ## Sessions and queries -/

/-- The names that the contracts and formulas of the program call hold no mark and no period. -/
structure Program.PlainCalls (p : Program) : Prop where
  contracts : ∀ g ∈ p.functions, g.ContractCalls PlainName
  formulas : ∀ d ∈ p.formulas, d.body.CallsOnly PlainName

theorem Session.wellSorted_new : Session.new.WellSorted := by
  refine ⟨⟨Script.wellFormed_nil, ?_, ?_, ?_, ?_⟩, ⟨List.nodup_nil, ?_, ?_, ?_, ?_⟩,
    ?_, ?_, ?_, List.Pairwise.nil⟩ <;> simp [Session.new, FunctionScope.start]

/-- At the start of a function its integer variables are declared. -/
theorem Session.WellSorted.forFunction {s : Session} (hs : s.WellSorted) {f : FunctionDef}
    (hf : ∀ d ∈ f.decls, PlainName d.name) : (s.forFunction f).WellSorted ∧
      ∀ x ∈ f.scalars, Command.declareConst x.2 .int ∈ (s.forFunction f).scope.decls := by
  have hbegin : (s.beginFunction f.name).WellSorted :=
    ⟨hs.globals.of_eq rfl rfl rfl, Session.wellSorted_new.decls.of_eq rfl rfl rfl rfl,
      fun _ h => absurd h List.not_mem_nil, fun _ h => absurd h List.not_mem_nil,
      fun _ h => absurd h List.not_mem_nil, List.Pairwise.nil⟩
  -- what was declared for one name is still there when the next ones are declared
  have hfold : ∀ (names : List String) (s : Session), (∀ x ∈ names, LocalName x) → s.WellSorted →
      (names.foldl Session.declareLocalConst s).WellSorted ∧
      s.Leads (names.foldl Session.declareLocalConst s) ∧
      ∀ x ∈ names, Command.declareConst x .int ∈
        (names.foldl Session.declareLocalConst s).scope.decls := by
    intro names
    induction names with
    | nil => exact fun s _ hs => ⟨hs, .refl s, fun x hx => absurd hx List.not_mem_nil⟩
    | cons x names ih =>
      intro s hnames hs
      obtain ⟨hx, hrest⟩ := List.forall_mem_cons.mp hnames
      obtain ⟨hs', hleads, hdecls⟩ := ih _ hrest (hs.declareLocalConst hx)
      exact ⟨hs', (s.leads_declareLocalConst x).trans hleads,
        List.forall_mem_cons.mpr ⟨hleads.decls (hs.decls.declareLocalConst hx).2, hdecls⟩⟩
  have hnames : ∀ x ∈ f.scalars.map Prod.snd, LocalName x := by
    intro x hx
    obtain ⟨q, hq, rfl⟩ := List.mem_map.mp hx
    obtain ⟨d, hd, rfl⟩ := List.mem_map.mp hq
    exact localName_varSymbol (hf d (List.mem_filter.mp hd).1)
  obtain ⟨hs', -, hdecls⟩ := hfold _ _ hnames hbegin
  exact ⟨hs', fun x hx => hdecls x.2 (List.mem_map_of_mem hx)⟩

/-- The variables of a function are declared integers. -/
theorem Env.meets_sorts_ofFunction {f : FunctionDef} {s : Session}
    (hdecls : ∀ x ∈ f.scalars, Command.declareConst x.2 .int ∈ s.scope.decls) :
    (Env.ofFunction f).Meets (sorts _ Session.view_declarations) s f.arrays [] := by
  refine ⟨fun x t ht => ?_, fun x a ha => ?_, fun _ h => absurd h List.not_mem_nil,
    fun _ h => absurd h List.not_mem_nil, trivial⟩
  · obtain ⟨d, hd, -, hm⟩ := Env.lookup?_ofFunction ht
    unfold Env.declared at hm
    split at hm
    · next htype =>
      cases hm
      refine hasSort_const (List.mem_append_right _ (hdecls (d.name, varSymbol d.name) ?_)) []
      refine List.mem_map.mpr ⟨d, List.mem_filter.mpr ⟨hd, ?_⟩, rfl⟩
      rw [htype]
      rfl
    · cases hm
  · exact Env.mem_arrays_of_lookup? ha

section

variable {p : Program}

/-- The encoding of an obligation, also a failed one, keeps the sorts of the session right, and its
goal is a truth value. -/
theorem query_meets_sorts (hp : p.PlainNames) (hcalls : p.PlainCalls) {f : FunctionDef}
    (hf : f ∈ p.functions) {obligation : Pred} (hobligation : obligation.CallsOnly PlainName)
    {s : Session} (hs : s.WellSorted) :
    (p.query f obligation s).2.WellSorted ∧
      (s.forFunction f).Leads (p.query f obligation s).2 ∧
      ∀ goal s', p.encodePred obligation (Env.ofFunction f) (s.forFunction f) = (.ok goal, s') →
        Term.HasSort s'.declarations [] goal .bool := by
  obtain ⟨hstart, hdecls⟩ := hs.forFunction (hp f hf)
  have harrays : ∀ a ∈ f.arrays, PlainName a := by
    intro a ha
    obtain ⟨d, hd, -, rfl⟩ := FunctionDef.mem_arrays.mp ha
    exact hp f hf d hd
  obtain ⟨hserves, -⟩ := serves_resolver (sorts_lasts hp) (sorts_declarations_allows p harrays)
    (sorts_commands_allows p) hcalls.contracts hcalls.formulas p.levels []
  obtain ⟨hs', hleads, hgoal⟩ := meets_encodePred hserves obligation hobligation
    (Env.meets_sorts_ofFunction hdecls) hstart
  rw [(p.query_run f obligation s).1]
  refine ⟨hs', hleads, fun goal s' hrun => ?_⟩
  have hopen : encodePred p (resolver p p.levels []) obligation (Env.ofFunction f)
      (s.forFunction f) = (.ok goal, s') := hrun
  rw [hopen] at hgoal
  exact hgoal goal rfl

/-- So do all queries of a session. -/
theorem sessionAfter_wellSorted (hp : p.PlainNames) (hcalls : p.PlainCalls)
    {history : List (FunctionDef × Pred)}
    (hhistory : ∀ h ∈ history, h.1 ∈ p.functions ∧ h.2.CallsOnly PlainName) :
    (p.sessionAfter history).WellSorted := by
  refine p.sessionAfter_induction Session.wellSorted_new fun h hh s hs => ?_
  obtain ⟨hf, hobligation⟩ := hhistory h hh
  exact (query_meets_sorts hp hcalls hf hobligation hs).1

end

/-- A session makes a well-formed script of a goal. -/
theorem Session.WellSorted.assemble {s : Session} (h : s.WellSorted) {goal : Term}
    (hgoal : Term.HasSort s.declarations [] goal .bool) : (s.assemble goal).WellFormed := by
  -- the sections in turn: each declares new names or speaks of those declared before it
  let opening : Script :=
    [.setLogic "ALL", .comment ("verification condition for `" ++ s.scope.function ++ "`")]
  have hopening : Script.WellFormed ([] ++ opening) := by
    refine Script.wellFormed_nil.append_undeclaring ?_ ?_ <;> simp [opening, Command.declares?]
  have hcommands : Script.WellFormed (opening ++ s.commands) := by
    refine Script.WellFormed.append hopening h.globals.wellFormed.nodup ?_ fun before t after heq => ?_
    · exact fun x hx => absurd hx List.not_mem_nil
    · exact (h.globals.wellFormed.sorted before t after heq).mono (List.subset_append_right _ _)
  have hdecls : Script.WellFormed (opening ++ s.commands ++ s.scope.decls) := by
    refine hcommands.append h.decls.nodup (fun x hx hx' => ?_) fun before t after heq => ?_
    · -- what lasts is declared under names with a period, and what is local under names without one
      rw [Script.declared_append] at hx
      rcases List.mem_append.mp hx with hx | hx
      · cases hx
      · exact h.decls.period_not_mem hx' (h.globals.period_mem hx)
    · have hmem : Command.assert t ∈ s.scope.decls := by
        rw [heq]
        exact List.mem_append_right _ List.mem_cons_self
      cases h.decls.shape _ hmem
  have hbefore : s.declarations ⊆ opening ++ s.commands ++ s.scope.decls := by
    rw [List.append_assoc]
    exact List.subset_append_right _ _
  have hassertions : Script.WellFormed
      (opening ++ s.commands ++ s.scope.decls ++ s.scope.assertions) := by
    refine hdecls.append_undeclaring (fun c hc => ?_) fun t ht => ?_
    · obtain ⟨t, rfl, -⟩ := h.facts.assertions c hc
      rfl
    · obtain ⟨u, heq, hu⟩ := h.facts.assertions _ ht
      cases heq
      exact hu.mono hbefore
  have hlinks : Script.WellFormed (opening ++ s.commands ++ s.scope.decls ++ s.scope.assertions ++
      Session.cellLinks s.scope) := by
    refine hassertions.append_undeclaring (fun c hc => ?_) fun t ht => ?_
    · obtain ⟨d, -, rfl⟩ := List.mem_map.mp hc
      rfl
    · obtain ⟨d, hd, heq⟩ := List.mem_map.mp ht
      cases heq
      obtain ⟨hcell, hselector⟩ := List.mem_filter.mp hd
      have hsymbol := (h.facts.symbols d hcell).1
      have hselect := (h.decls.selectors d.array).mp (List.contains_iff_mem.mp hselector)
      have hlink : Term.HasSort s.declarations []
          (.eq (.const d.symbol) (.app (d.array ++ "!sel") [d.index])) .bool :=
        .binary rfl (hasSort_const (List.mem_append_right _ hsymbol) [])
          (hasSort_app (n := 1) (List.mem_append_right _ hselect) List.not_mem_nil rfl
            (List.forall_mem_singleton.mpr (h.facts.indices d hcell)))
      exact hlink.mono (List.Subset.trans hbefore (List.subset_append_left _ _))
  refine Script.WellFormed.append_undeclaring hlinks ?_ ?_
  · simp [Command.declares?]
  · intro t ht
    simp only [List.mem_cons, List.not_mem_nil, or_false, Command.assert.injEq, reduceCtorEq] at ht
    rw [ht]
    refine (Term.HasSort.not hgoal).mono (List.Subset.trans hbefore ?_)
    exact List.Subset.trans (List.subset_append_left _ _) (List.subset_append_left _ _)

/-- **Queries are well-formed scripts.** Take a program whose names hold no mark and no period, and a
session after any queries for its functions, failed ones included. A query that succeeds in it
declares no symbol twice, and each of its assertions is a truth value in which every constant and
function is declared before, with as many arguments as it has there, or bound by a quantifier. The
symbols of variables and cells are declared integers, and different cells have different symbols and
stand for different elements. -/
theorem query_wellFormed {p : Program} (hp : p.PlainNames) (hcalls : p.PlainCalls)
    {history : List (FunctionDef × Pred)}
    (hhistory : ∀ h ∈ history, h.1 ∈ p.functions ∧ h.2.CallsOnly PlainName) {f : FunctionDef}
    (hf : f ∈ p.functions) {obligation : Pred} (hobligation : obligation.CallsOnly PlainName)
    {query : Query} {s' : Session}
    (hrun : p.query f obligation (p.sessionAfter history) = (.ok query, s')) :
    query.script.WellFormed ∧
      (∀ x ∈ query.symbols.scalars, Command.declareConst x.2 .int ∈ query.script) ∧
      (∀ c ∈ query.symbols.cells, Command.declareConst c.symbol .int ∈ query.script) ∧
      query.symbols.cells.Pairwise fun c d =>
        (c.array, c.index) ≠ (d.array, d.index) ∧ c.symbol ≠ d.symbol := by
  have hs := sessionAfter_wellSorted hp hcalls hhistory
  obtain ⟨goal, hencode, hscript, hsymbols⟩ := Program.query_eq_ok hrun
  obtain ⟨hs', hleads, hgoal⟩ := query_meets_sorts hp hcalls hf hobligation hs
  rw [hrun] at hs' hleads
  have hdecls : ∀ c ∈ s'.scope.decls, c ∈ query.script := by
    intro c hc
    rw [hscript, Session.assemble_eq, Session.hypotheses]
    simp only [List.mem_append]
    exact .inl (.inl (.inl (.inr hc)))
  rw [hsymbols]
  refine ⟨?_, fun x hx => ?_, fun c hc => ?_, hs'.facts.distinct⟩
  · rw [hscript]
    exact hs'.assemble (hgoal goal s' hencode)
  · exact hdecls _ (hleads.decls ((hs.forFunction (hp f hf)).2 x hx))
  · exact hdecls _ (hs'.facts.symbols c hc).1

/-! The names that `scanProgram` and its queries use are plain. -/

theorem scanProgram_plainNames : scanProgram.PlainNames := by
  unfold Program.PlainNames PlainName
  decide

theorem scanProgram_plainCalls : scanProgram.PlainCalls := by
  constructor
  · intro g hg q hq f hf
    simp only [scanProgram, List.mem_cons, List.not_mem_nil, or_false] at hg
    rcases hg with rfl | rfl
    · simp only [increment, reduceCtorEq, Option.some.injEq, false_or] at hq
      subst hq
      simp [Pred.calls, Expr.calls] at hf
    · simp [scan] at hq
  · intro d hd f hf
    rw [List.mem_singleton.mp hd] at hf
    simp [atMost, Pred.calls, Expr.calls] at hf

theorem scan_mem : scan ∈ scanProgram.functions := List.mem_cons_of_mem _ List.mem_cons_self

theorem increment_plainName : PlainName "increment" := by
  unfold PlainName
  decide

theorem scanHistory_plain :
    ∀ h ∈ scanHistory, h.1 ∈ scanProgram.functions ∧ h.2.CallsOnly PlainName := by
  intro h hh
  simp only [scanHistory, List.mem_cons, List.not_mem_nil, or_false] at hh
  rcases hh with rfl | rfl
  · refine ⟨scan_mem, fun f hf => ?_⟩
    simp [Pred.calls, Expr.calls] at hf
  · refine ⟨scan_mem, fun f hf => ?_⟩
    simp only [Pred.calls, Expr.calls, Expr.anyCalls, Bool.or_false, beq_iff_eq] at hf
    exact hf ▸ increment_plainName

/-- A query after one that failed and one that brought in a contract. -/
theorem query_wellFormed_scan : ∃ (query : Query) (s' : Session),
    scanProgram.query scan scanObligation (scanProgram.sessionAfter scanHistory) =
      (.ok query, s') ∧
    query.symbols.cells.map CellConst.symbol = ["a!elem!2"] ∧ query.script.WellFormed ∧
    (∀ x ∈ query.symbols.scalars, Command.declareConst x.2 .int ∈ query.script) ∧
    (∀ c ∈ query.symbols.cells, Command.declareConst c.symbol .int ∈ query.script) ∧
    query.symbols.cells.Pairwise fun c d =>
      (c.array, c.index) ≠ (d.array, d.index) ∧ c.symbol ≠ d.symbol := by
  have hok : ((scanProgram.query scan scanObligation
      (scanProgram.sessionAfter scanHistory)).1.toOption.map
      fun query => query.symbols.cells.map CellConst.symbol) = some ["a!elem!2"] := by cbv
  obtain ⟨query, s', hrun, hcells⟩ := exists_ok_of_map_toOption hok
  have hobligation : scanObligation.CallsOnly PlainName := by
    intro f hf
    simp only [scanObligation, Pred.calls, Expr.calls, Expr.anyCalls, Bool.or_false, Bool.false_or,
      beq_iff_eq] at hf
    exact hf ▸ increment_plainName
  exact ⟨query, s', hrun, hcells, query_wellFormed scanProgram_plainNames scanProgram_plainCalls
    scanHistory_plain scan_mem hobligation hrun⟩

end Contracts

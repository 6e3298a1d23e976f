import Contracts.Proofs.ContractInvariant
import Contracts.Proofs.EncodingCoupling
import Contracts.Proofs.ScriptSorts

/-!
# What a session has declared

A session keeps declarations in two lists with different lifetimes, and remembers in others what it
has declared. Three invariants tie them together.

* `Session.GlobalsSorted`: the global commands are a well-formed script by themselves, so an axiom
  speaks only of what they declare before it; and a function or a constant is declared there if and
  only if the session remembers it.
* `Session.DeclsSorted`: the same of the constants and selectors of the function being encoded. Their
  names are told from the global ones by having no period.
* `Session.FactsSorted`: what the session knows of the function are truth values and numbers over all
  that is declared, and its cells are different from each other.

The steps that change a session keep all three (`Session.WellSorted`) and let the declarations grow
(`Session.Leads`).
-/

set_option autoImplicit false

namespace Contracts

open Smt

/-! ## The invariants -/

/-- The commands that a session adds for good. -/
inductive GlobalCommand : Command → Prop
  | fn {f : String} (n : Nat) (hf : PlainName f) :
      GlobalCommand (.declareFun (fnSymbol f) (List.replicate n .int) .int)
  | formal (g : FunctionDef) {x : Param} (hx : PlainName x.name) :
      GlobalCommand (.declareConst (formalSymbol g x) .int)
  | assertion (t : Term) : GlobalCommand (.assert t)

/-- The part of a session that outlives a function. -/
structure Session.GlobalsSorted (s : Session) : Prop where
  wellFormed : Script.WellFormed s.commands
  shape : ∀ c ∈ s.commands, GlobalCommand c
  arities : ∀ f n, s.arities.lookup f = some n →
    Command.declareFun f (List.replicate n .int) .int ∈ s.commands
  known : ∀ f params τ, Command.declareFun f params τ ∈ s.commands → s.arities.lookup f ≠ none
  globalConsts : ∀ x, x ∈ s.globalConsts ↔ Command.declareConst x .int ∈ s.commands

/-- The declarations of a function: constants and selectors. -/
inductive LocalCommand : Command → Prop
  | const {x : String} (hx : LocalName x) : LocalCommand (.declareConst x .int)
  | selector {a : String} (ha : PlainName a) :
      LocalCommand (.declareFun (a ++ "!sel") [.int] .int)

/-- What a session has declared for one function. -/
structure Session.DeclsSorted (s : Session) : Prop where
  nodup : (Script.declared s.scope.decls).Nodup
  shape : ∀ c ∈ s.scope.decls, LocalCommand c
  declared : ∀ x, x ∈ s.scope.declared ↔ Command.declareConst x .int ∈ s.scope.decls
  selectors : ∀ a, a ∈ s.scope.selectors ↔
    Command.declareFun (a ++ "!sel") [.int] .int ∈ s.scope.decls
  lengths : ∀ a ∈ s.scope.lengths, Command.declareConst (a ++ "!len") .int ∈ s.scope.decls

/-- All declarations that the assertions about a function come after. -/
def Session.declarations (s : Session) : Script := s.commands ++ s.scope.decls

/-- What a session knows of one function. -/
structure Session.FactsSorted (s : Session) : Prop where
  assertions : ∀ c ∈ s.scope.assertions, ∃ t, c = .assert t ∧
    Term.HasSort s.declarations [] t .bool
  indices : ∀ c ∈ s.scope.cells, Term.HasSort s.declarations [] c.index .int
  symbols : ∀ c ∈ s.scope.cells, Command.declareConst c.symbol .int ∈ s.scope.decls ∧
    ¬MadeAfter s.counter c.symbol
  distinct : s.scope.cells.Pairwise fun c d =>
    (c.array, c.index) ≠ (d.array, d.index) ∧ c.symbol ≠ d.symbol

/-- All of these. -/
structure Session.WellSorted (s : Session) : Prop where
  globals : s.GlobalsSorted
  decls : s.DeclsSorted
  facts : s.FactsSorted

/-- The declarations have grown. -/
structure Session.Leads (s s' : Session) : Prop where
  commands : s.commands ⊆ s'.commands
  decls : s.scope.decls ⊆ s'.scope.decls

namespace Session

variable {s s' s'' : Session}

theorem Leads.refl (s : Session) : s.Leads s := ⟨List.Subset.refl _, List.Subset.refl _⟩

theorem Leads.trans (h : s.Leads s') (h' : s'.Leads s'') : s.Leads s'' :=
  ⟨List.Subset.trans h.commands h'.commands, List.Subset.trans h.decls h'.decls⟩

theorem Leads.of_eq (hcommands : s'.commands = s.commands)
    (hdecls : s'.scope.decls = s.scope.decls) : s.Leads s' := by
  constructor
  · rw [hcommands]
    exact List.Subset.refl _
  · rw [hdecls]
    exact List.Subset.refl _

theorem Leads.declarations (h : s.Leads s') : s.declarations ⊆ s'.declarations := by
  intro c hc
  rcases List.mem_append.mp hc with hc | hc
  · exact List.mem_append_left _ (h.commands hc)
  · exact List.mem_append_right _ (h.decls hc)

theorem GlobalsSorted.of_eq (h : s.GlobalsSorted) (hcommands : s'.commands = s.commands)
    (harities : s'.arities = s.arities) (hconsts : s'.globalConsts = s.globalConsts) :
    s'.GlobalsSorted := by
  obtain ⟨hwf, hshape, harity, hknown, hconst⟩ := h
  rw [← hcommands] at hwf hshape harity hknown hconst
  rw [← harities] at harity hknown
  rw [← hconsts] at hconst
  exact ⟨hwf, hshape, harity, hknown, hconst⟩

theorem DeclsSorted.of_eq (h : s.DeclsSorted) (hdecls : s'.scope.decls = s.scope.decls)
    (hdeclared : s'.scope.declared = s.scope.declared)
    (hselectors : s'.scope.selectors = s.scope.selectors)
    (hlengths : s'.scope.lengths = s.scope.lengths) : s'.DeclsSorted := by
  obtain ⟨hnodup, hshape, hconst, hselector, hlength⟩ := h
  rw [← hdecls] at hnodup hshape hconst hselector hlength
  rw [← hdeclared] at hconst
  rw [← hselectors] at hselector
  rw [← hlengths] at hlength
  exact ⟨hnodup, hshape, hconst, hselector, hlength⟩

/-- More declarations do not matter. -/
theorem FactsSorted.mono (h : s.FactsSorted) (hleads : s.Leads s')
    (hcounter : s.counter ≤ s'.counter) (hassertions : s'.scope.assertions = s.scope.assertions)
    (hcells : s'.scope.cells = s.scope.cells) : s'.FactsSorted := by
  constructor
  · intro c hc
    rw [hassertions] at hc
    obtain ⟨t, rfl, ht⟩ := h.assertions c hc
    exact ⟨t, rfl, ht.mono hleads.declarations⟩
  · intro c hc
    rw [hcells] at hc
    exact (h.indices c hc).mono hleads.declarations
  · intro c hc
    rw [hcells] at hc
    obtain ⟨hdecl, hmade⟩ := h.symbols c hc
    exact ⟨hleads.decls hdecl, fun hlater => hmade (hlater.mono hcounter)⟩
  · rw [hcells]
    exact h.distinct

/-- A step that touches neither the declarations nor what is known of the function. -/
theorem WellSorted.of_eq (h : s.WellSorted) (hcommands : s'.commands = s.commands)
    (harities : s'.arities = s.arities) (hconsts : s'.globalConsts = s.globalConsts)
    (hcounter : s.counter ≤ s'.counter) (hdecls : s'.scope.decls = s.scope.decls)
    (hdeclared : s'.scope.declared = s.scope.declared)
    (hselectors : s'.scope.selectors = s.scope.selectors)
    (hlengths : s'.scope.lengths = s.scope.lengths)
    (hassertions : s'.scope.assertions = s.scope.assertions)
    (hcells : s'.scope.cells = s.scope.cells) : s'.WellSorted :=
  ⟨h.globals.of_eq hcommands harities hconsts, h.decls.of_eq hdecls hdeclared hselectors hlengths,
    h.facts.mono (.of_eq hcommands hdecls) hcounter hassertions hcells⟩

/-! ## Which symbols are declared -/

theorem GlobalsSorted.period_mem (h : s.GlobalsSorted) {x : String}
    (hx : x ∈ Script.declared s.commands) : '.' ∈ x.toList := by
  obtain ⟨c, hc, hcx⟩ := Script.mem_declared.mp hx
  cases h.shape c hc with
  | fn n hf =>
    cases hcx
    exact period_mem_fnSymbol _
  | formal g hy =>
    cases hcx
    exact period_mem_formalSymbol _ _
  | assertion t => cases hcx

theorem DeclsSorted.period_not_mem (h : s.DeclsSorted) {x : String}
    (hx : x ∈ Script.declared s.scope.decls) : '.' ∉ x.toList := by
  obtain ⟨c, hc, hcx⟩ := Script.mem_declared.mp hx
  cases h.shape c hc with
  | const hy =>
    cases hcx
    exact hy.noPeriod
  | selector ha =>
    cases hcx
    exact period_not_mem_append ha.2 (by decide)

theorem GlobalsSorted.fnSymbol_new (h : s.GlobalsSorted) {f : String} (hf : PlainName f)
    (hnone : s.arities.lookup (fnSymbol f) = none) : fnSymbol f ∉ Script.declared s.commands := by
  intro hx
  obtain ⟨c, hc, hcx⟩ := Script.mem_declared.mp hx
  cases h.shape c hc with
  | fn n hplain =>
    rw [Option.some.inj hcx] at hc
    exact h.known _ _ _ hc hnone
  | formal g hy => exact fnSymbol_ne_formalSymbol hf.2 _ _ (Option.some.inj hcx).symm
  | assertion t => cases hcx

theorem GlobalsSorted.formalSymbol_new (h : s.GlobalsSorted) {g : FunctionDef} {x : Param}
    (hnew : formalSymbol g x ∉ s.globalConsts) :
    formalSymbol g x ∉ Script.declared s.commands := by
  intro hx
  obtain ⟨c, hc, hcx⟩ := Script.mem_declared.mp hx
  cases h.shape c hc with
  | fn n hplain => exact fnSymbol_ne_formalSymbol hplain.2 g x (Option.some.inj hcx)
  | formal g' hy =>
    rw [Option.some.inj hcx] at hc
    exact hnew ((h.globalConsts _).mpr hc)
  | assertion t => cases hcx

theorem DeclsSorted.const_new (h : s.DeclsSorted) {x : String} (hx : LocalName x)
    (hnew : x ∉ s.scope.declared) : x ∉ Script.declared s.scope.decls := by
  intro hmem
  obtain ⟨c, hc, hcx⟩ := Script.mem_declared.mp hmem
  cases h.shape c hc with
  | const hy =>
    rw [Option.some.inj hcx] at hc
    exact hnew ((h.declared x).mpr hc)
  | selector ha => exact hx.noSelector _ (Option.some.inj hcx).symm

theorem DeclsSorted.selector_new (h : s.DeclsSorted) {a : String}
    (hnew : a ∉ s.scope.selectors) : a ++ "!sel" ∉ Script.declared s.scope.decls := by
  intro hmem
  obtain ⟨c, hc, hcx⟩ := Script.mem_declared.mp hmem
  cases h.shape c hc with
  | const hy => exact hy.noSelector a (Option.some.inj hcx)
  | selector ha =>
    rw [selector_inj (Option.some.inj hcx)] at hc
    exact hnew ((h.selectors a).mpr hc)

/-- Every declared constant is an integer. -/
theorem WellSorted.const_int (h : s.WellSorted) {x : String} {τ : SmtSort}
    (hx : Command.declareConst x τ ∈ s.declarations) : τ = .int := by
  rcases List.mem_append.mp hx with hx | hx
  · cases h.globals.shape _ hx with
    | formal g hy => rfl
  · cases h.decls.shape _ hx with
    | const hy => rfl

/-- No declared function has a numbered name. -/
theorem WellSorted.fn_not_madeAfter (h : s.WellSorted) {f : String} {params : List SmtSort}
    {τ : SmtSort} (hf : Command.declareFun f params τ ∈ s.declarations) : ¬MadeAfter 0 f := by
  rcases List.mem_append.mp hf with hf | hf
  · cases h.globals.shape _ hf with
    | fn n hplain => exact fnSymbol_not_madeAfter hplain.1 0
  · cases h.decls.shape _ hf with
    | selector ha => exact selector_not_madeAfter _ 0

/-! ## Declarations of a function -/

/-- One more declaration, of a symbol that is new. -/
theorem DeclsSorted.nodup_append (h : s.DeclsSorted) {c : Command} {x : String}
    (hcx : c.declares? = some x) (hnew : x ∉ Script.declared s.scope.decls) :
    (Script.declared (s.scope.decls ++ [c])).Nodup := by
  have hsingle : Script.declared [c] = [x] := by
    rw [Script.declared, List.filterMap_cons, hcx, List.filterMap_nil]
  rw [Script.declared_append, hsingle, List.nodup_append]
  refine ⟨h.nodup, List.nodup_cons.mpr ⟨List.not_mem_nil, List.nodup_nil⟩, ?_⟩
  intro y hy z hz hyz
  rw [List.mem_singleton.mp hz] at hyz
  exact hnew (hyz ▸ hy)

theorem DeclsSorted.declareLocalConst (h : s.DeclsSorted) {x : String} (hx : LocalName x) :
    (s.declareLocalConst x).DeclsSorted ∧
      Command.declareConst x .int ∈ (s.declareLocalConst x).scope.decls := by
  unfold Session.declareLocalConst
  by_cases hmem : x ∈ s.scope.declared
  · rw [if_pos (List.contains_iff_mem.mpr hmem)]
    exact ⟨h, (h.declared x).mp hmem⟩
  · rw [if_neg (fun hcontains => hmem (List.contains_iff_mem.mp hcontains))]
    refine ⟨⟨h.nodup_append rfl (h.const_new hx hmem), fun c hc => ?_, fun y => ?_, fun a => ?_,
      fun a ha => List.mem_append_left _ (h.lengths a ha)⟩,
      List.mem_append_right _ List.mem_cons_self⟩
    · rcases List.mem_append.mp hc with hc | hc
      · exact h.shape c hc
      · rw [List.mem_singleton.mp hc]
        exact .const hx
    · simp only [List.mem_cons, List.mem_append, h.declared y, List.not_mem_nil, or_false,
        Command.declareConst.injEq, and_true]
      exact or_comm
    · simp only [List.mem_append, h.selectors a, List.mem_cons, List.not_mem_nil, or_false,
        reduceCtorEq]

theorem leads_declareLocalConst (s : Session) (x : String) : s.Leads (s.declareLocalConst x) := by
  unfold Session.declareLocalConst
  split
  · exact .refl s
  · exact ⟨List.Subset.refl _, List.subset_append_left _ _⟩

/-- An integer constant can be declared for the function. -/
theorem WellSorted.declareLocalConst (h : s.WellSorted) {x : String} (hx : LocalName x) :
    (s.declareLocalConst x).WellSorted := by
  obtain ⟨hdecls, -⟩ := h.decls.declareLocalConst hx
  have hleads := s.leads_declareLocalConst x
  refine ⟨h.globals.of_eq ?_ ?_ ?_, hdecls, h.facts.mono hleads ?_ ?_ ?_⟩
  · unfold Session.declareLocalConst
    split <;> rfl
  · unfold Session.declareLocalConst
    split <;> rfl
  · unfold Session.declareLocalConst
    split <;> rfl
  · exact Nat.le_of_eq (declareLocalConst_counter ..).symm
  · unfold Session.declareLocalConst
    split <;> rfl
  · rw [declareLocalConst_cells]

theorem WellSorted.withSelector (h : s.WellSorted) {a : String} (ha : PlainName a)
    (hnew : a ∉ s.scope.selectors) : (s.withSelector a).WellSorted := by
  have hleads : s.Leads (s.withSelector a) :=
    ⟨List.Subset.refl _, List.subset_append_left _ _⟩
  refine ⟨h.globals.of_eq rfl rfl rfl, ⟨h.decls.nodup_append rfl (h.decls.selector_new hnew), ?_, ?_,
    ?_, fun b hb => List.mem_append_left _ (h.decls.lengths b hb)⟩,
    h.facts.mono hleads (Nat.le_refl _) rfl rfl⟩
  · intro c hc
    rcases List.mem_append.mp hc with hc | hc
    · exact h.decls.shape c hc
    · rw [List.mem_singleton.mp hc]
      exact .selector ha
  · intro x
    show x ∈ s.scope.declared ↔ _ ∈ s.scope.decls ++ [_]
    simp only [List.mem_append, h.decls.declared x, List.mem_cons, List.not_mem_nil, or_false,
      reduceCtorEq]
  · intro b
    show b ∈ a :: s.scope.selectors ↔ _ ∈ s.scope.decls ++ [_]
    simp only [List.mem_append, h.decls.selectors b, List.mem_cons, List.not_mem_nil, or_false,
      Command.declareFun.injEq, and_true]
    constructor
    · rintro (rfl | hb)
      · exact .inr rfl
      · exact .inl hb
    · rintro (hb | hb)
      · exact .inr hb
      · exact .inl (selector_inj hb)

/-- A truth value can be asserted of the function. -/
theorem WellSorted.addAssertion (h : s.WellSorted) {t : Term}
    (ht : Term.HasSort s.declarations [] t .bool) : (s.addAssertion t).WellSorted := by
  refine ⟨h.globals.of_eq rfl rfl rfl, h.decls.of_eq rfl rfl rfl rfl, ?_, h.facts.indices,
    h.facts.symbols, h.facts.distinct⟩
  intro c hc
  rcases List.mem_append.mp hc with hc | hc
  · exact h.facts.assertions c hc
  · exact ⟨t, List.mem_singleton.mp hc, ht⟩

theorem leads_withLength (s : Session) (a : String) : s.Leads (s.withLength a) :=
  ⟨(s.leads_declareLocalConst _).commands, (s.leads_declareLocalConst _).decls⟩

theorem WellSorted.withLength (h : s.WellSorted) {a : String} (ha : PlainName a) :
    (s.withLength a).WellSorted ∧
      Command.declareConst (a ++ "!len") .int ∈ (s.withLength a).scope.decls := by
  have hname := localName_length ha
  have hdecl := (h.decls.declareLocalConst hname).2
  have hbound : Term.HasSort (s.declareLocalConst (a ++ "!len")).declarations []
      (.binary .ge (.const (a ++ "!len")) (.int 0)) .bool :=
    .binary rfl (.const rfl (List.mem_append_right _ hdecl)) (.int _ 0)
  obtain ⟨hglobals, hdecls, hfacts⟩ := (h.declareLocalConst hname).addAssertion hbound
  refine ⟨⟨hglobals.of_eq rfl rfl rfl, ⟨hdecls.nodup, hdecls.shape, hdecls.declared, hdecls.selectors,
    ?_⟩, hfacts.mono (.of_eq rfl rfl) (Nat.le_refl _) rfl rfl⟩, hdecl⟩
  intro b hb
  rcases List.mem_cons.mp hb with rfl | hb
  · exact hdecl
  · exact hdecls.lengths b hb

/-- A cell can be made at an index where there is none. -/
theorem WellSorted.withCell (h : s.WellSorted) {a : String} (ha : PlainName a) {i : Term}
    (hi : Term.HasSort s.declarations [] i .int)
    (hnew : ∀ c ∈ s.scope.cells, ¬(c.array = a ∧ c.index = i)) :
    (s.withCell a i).WellSorted ∧ s.Leads (s.withCell a i) ∧
      Command.declareConst (numberedSymbol (a ++ "!elem") (s.counter + 1)) .int ∈
        (s.withCell a i).scope.decls := by
  let s₀ : Session := { s with counter := s.counter + 1 }
  let x := numberedSymbol (a ++ "!elem") (s.counter + 1)
  have hcount : s₀.WellSorted := h.of_eq rfl rfl rfl (Nat.le_succ _) rfl rfl rfl rfl rfl rfl
  have hname : LocalName x := localName_cell ha s.counter
  have hs₁ : (s₀.declareLocalConst x).WellSorted := hcount.declareLocalConst hname
  have hdecl := (hcount.decls.declareLocalConst hname).2
  have hfirst : s.Leads s₀ := .of_eq rfl rfl
  have hleads : s.Leads (s₀.declareLocalConst x) := hfirst.trans (s₀.leads_declareLocalConst x)
  have hcells : (s₀.declareLocalConst x).scope.cells = s.scope.cells := declareLocalConst_cells ..
  have hcounter : (s₀.declareLocalConst x).counter = s.counter + 1 := declareLocalConst_counter ..
  refine ⟨⟨hs₁.globals.of_eq rfl rfl rfl, hs₁.decls.of_eq rfl rfl rfl rfl, hs₁.facts.assertions, ?_, ?_,
    ?_⟩, ⟨hleads.commands, hleads.decls⟩, hdecl⟩
  · intro c hc
    rcases List.mem_append.mp hc with hc | hc
    · exact hs₁.facts.indices c hc
    · rw [List.mem_singleton.mp hc]
      exact hi.mono hleads.declarations
  · intro c hc
    rcases List.mem_append.mp hc with hc | hc
    · exact hs₁.facts.symbols c hc
    · rw [List.mem_singleton.mp hc]
      refine ⟨hdecl, ?_⟩
      show ¬MadeAfter (s₀.declareLocalConst x).counter x
      rw [hcounter, madeAfter_numberedSymbol]
      omega
  · show ((s₀.declareLocalConst x).scope.cells ++ [(⟨a, i, x⟩ : CellConst)]).Pairwise _
    rw [hcells, List.pairwise_append]
    refine ⟨h.facts.distinct, List.pairwise_singleton _ _, fun c hc d hd => ?_⟩
    rw [List.mem_singleton.mp hd]
    refine ⟨fun heq => ?_, fun heq => ?_⟩
    · exact hnew c hc ⟨(Prod.mk.inj heq).1, (Prod.mk.inj heq).2⟩
    · -- the symbols of the older cells have lower numbers
      refine (h.facts.symbols c hc).2 ?_
      rw [heq]
      exact madeAfter_numberedSymbol.mpr (Nat.lt_succ_self _)

/-! ## Global commands -/

/-- More global commands do not matter to what is known of the function. -/
theorem WellSorted.of_globals (h : s.WellSorted)
    (hcommands : s.commands ⊆ s'.commands) (hscope : s'.scope = s.scope)
    (hcounter : s'.counter = s.counter) (hs' : s'.GlobalsSorted) : s'.WellSorted := by
  refine ⟨hs', h.decls.of_eq ?_ ?_ ?_ ?_, h.facts.mono ⟨hcommands, ?_⟩ ?_ ?_ ?_⟩
  · rw [hscope]
  · rw [hscope]
  · rw [hscope]
  · rw [hscope]
  · rw [hscope]
    exact List.Subset.refl _
  · exact Nat.le_of_eq hcounter.symm
  · rw [hscope]
  · rw [hscope]

/-- The session after a function was declared. -/
def withFunction (s : Session) (f : String) (n : Nat) : Session :=
  { s with
    arities := (fnSymbol f, n) :: s.arities
    commands := s.commands ++ [Command.declareFun (fnSymbol f) (List.replicate n .int) .int] }

theorem WellSorted.withFunction (h : s.WellSorted) {f : String} (hf : PlainName f) (n : Nat)
    (hnone : s.arities.lookup (fnSymbol f) = none) : (s.withFunction f n).WellSorted := by
  have hold : s.commands ⊆ (s.withFunction f n).commands := List.subset_append_left _ _
  have hlast : Command.declareFun (fnSymbol f) (List.replicate n .int) .int ∈
      (s.withFunction f n).commands := List.mem_append_right _ List.mem_cons_self
  refine h.of_globals hold rfl rfl ⟨?_, fun c hc => ?_, fun g m hm => ?_,
    fun g params τ hg => ?_, fun x => ?_⟩
  · exact h.globals.wellFormed.append_declaration rfl (h.globals.fnSymbol_new hf hnone)
  · rcases List.mem_append.mp hc with hc | hc
    · exact h.globals.shape c hc
    · rw [List.mem_singleton.mp hc]
      exact .fn n hf
  · rw [Session.withFunction, List.lookup_cons] at hm
    split at hm
    · next heq =>
      cases hm
      rw [beq_iff_eq.mp heq]
      exact hlast
    · exact hold (h.globals.arities g m hm)
  · rw [Session.withFunction, List.lookup_cons]
    split
    · exact Option.some_ne_none n
    · next hne =>
      rcases List.mem_append.mp hg with hg | hg
      · exact h.globals.known g params τ hg
      · cases List.mem_singleton.mp hg
        rw [beq_self_eq_true] at hne
        cases hne
  · show x ∈ s.globalConsts ↔ _ ∈ s.commands ++ [_]
    simp only [List.mem_append, h.globals.globalConsts x, List.mem_cons, List.not_mem_nil, or_false,
      reduceCtorEq]

theorem leads_declareGlobalConst (s : Session) (x : String) : s.Leads (s.declareGlobalConst x) := by
  unfold Session.declareGlobalConst
  split
  · exact .refl s
  · exact ⟨List.subset_append_left _ _, List.Subset.refl _⟩

/-- The constant of a parameter can be declared. -/
theorem WellSorted.declareGlobalConst (h : s.WellSorted) (g : FunctionDef) {x : Param}
    (hx : PlainName x.name) : (s.declareGlobalConst (formalSymbol g x)).WellSorted ∧
      Command.declareConst (formalSymbol g x) .int ∈
        (s.declareGlobalConst (formalSymbol g x)).commands := by
  unfold Session.declareGlobalConst
  by_cases hmem : formalSymbol g x ∈ s.globalConsts
  · rw [if_pos (List.contains_iff_mem.mpr hmem)]
    exact ⟨h, (h.globals.globalConsts _).mp hmem⟩
  · rw [if_neg (fun hcontains => hmem (List.contains_iff_mem.mp hcontains))]
    refine ⟨h.of_globals (List.subset_append_left _ _) rfl rfl ⟨?_, fun c hc => ?_,
      fun f n hn => ?_, fun f params τ hf => ?_, fun y => ?_⟩,
      List.mem_append_right _ List.mem_cons_self⟩
    · exact h.globals.wellFormed.append_declaration rfl (h.globals.formalSymbol_new hmem)
    · rcases List.mem_append.mp hc with hc | hc
      · exact h.globals.shape c hc
      · rw [List.mem_singleton.mp hc]
        exact .formal g hx
    · exact List.mem_append_left _ (h.globals.arities f n hn)
    · rcases List.mem_append.mp hf with hf | hf
      · exact h.globals.known f params τ hf
      · cases List.mem_singleton.mp hf
    · simp only [List.mem_cons, List.mem_append, h.globals.globalConsts y, List.not_mem_nil, or_false,
        Command.declareConst.injEq, and_true]
      exact or_comm

/-- Truth values of what is declared globally can be added for good. -/
theorem WellSorted.settled (h : s.WellSorted) (name : String) {ts : List Term}
    (hts : ∀ t ∈ ts, Term.HasSort s.commands [] t .bool) : (s.settled name ts).WellSorted := by
  refine h.of_globals (List.subset_append_left _ _) rfl rfl ⟨?_, fun c hc => ?_,
    fun f n hn => ?_, fun f params τ hf => ?_, fun y => ?_⟩
  · refine h.globals.wellFormed.append_undeclaring (fun c hc => ?_) fun t ht => ?_
    · obtain ⟨t, -, rfl⟩ := List.mem_map.mp hc
      rfl
    · obtain ⟨u, hu, heq⟩ := List.mem_map.mp ht
      cases heq
      exact hts t hu
  · rcases List.mem_append.mp hc with hc | hc
    · exact h.globals.shape c hc
    · obtain ⟨t, -, rfl⟩ := List.mem_map.mp hc
      exact .assertion t
  · exact List.mem_append_left _ (h.globals.arities f n hn)
  · rcases List.mem_append.mp hf with hf | hf
    · exact h.globals.known f params τ hf
    · obtain ⟨t, -, ht⟩ := List.mem_map.mp hf
      cases ht
  · show y ∈ s.globalConsts ↔ _ ∈ s.commands ++ ts.map Command.assert
    simp only [List.mem_append, h.globals.globalConsts y, List.mem_map, reduceCtorEq, and_false,
      exists_false, or_false]

end Session

end Contracts

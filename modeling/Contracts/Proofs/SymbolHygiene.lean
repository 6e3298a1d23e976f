import Mathlib
import Contracts.Proofs.QuerySorts
import Contracts.Proofs.StandaloneContracts

/-!
# What the symbols of a query stand for

All symbols of a query live in one space of names, and seven kinds of things have symbols there:
the integer variables of the function, array cells, selectors and lengths of arrays, called functions,
the parameters in the axioms of a function, and quantified variables (`Entity`). In a program whose
names hold no mark and no period different things have different symbols (`Denotes.inj`).

That a quantifier captures nothing is more than that: its symbol must be new where it is used. The
regime `hygiene` follows the symbols that quantifiers bind through an encoding. They carry numbers that
no cell has (`Session.Binds`), and a quantifier binds no symbol that is bound around it (`Term.Clean`),
since all that is in scope was made earlier.
-/

set_option autoImplicit false

namespace Contracts

namespace Smt

/-! ## Quantifiers in a term -/

mutual

/-- The symbols that quantifiers of the term bind. -/
def Term.binders : Term → List String
  | .bool _ | .int _ | .const _ => []
  | .not t | .neg t => t.binders
  | .junction _ ts | .app _ ts => Term.allBinders ts
  | .binary _ a b => a.binders ++ b.binders
  | .ite a b c => a.binders ++ b.binders ++ c.binders
  | .quantified _ vars t => vars.map Prod.fst ++ t.binders

def Term.allBinders : List Term → List String
  | [] => []
  | t :: ts => t.binders ++ Term.allBinders ts

end

/-- The symbols that quantifiers bind in the assertions of a script. -/
def Script.binders (c : Script) : List String := c.asserted.flatMap Term.binders

mutual

/-- The quantifiers of the term bind symbols with the property `P`, and none that is in `Δ` or bound
around it. -/
def Term.Clean (P : String → Prop) : List String → Term → Prop
  | _, .bool _ | _, .int _ | _, .const _ => True
  | Δ, .not t | Δ, .neg t => t.Clean P Δ
  | Δ, .junction _ ts | Δ, .app _ ts => Term.AllClean P Δ ts
  | Δ, .binary _ a b => a.Clean P Δ ∧ b.Clean P Δ
  | Δ, .ite a b c => a.Clean P Δ ∧ b.Clean P Δ ∧ c.Clean P Δ
  | Δ, .quantified _ vars t =>
    (∀ v ∈ vars, P v.1 ∧ v.1 ∉ Δ) ∧ t.Clean P (vars.map Prod.fst ++ Δ)

/-- The same of all terms of a list. -/
def Term.AllClean (P : String → Prop) : List String → List Term → Prop
  | _, [] => True
  | Δ, t :: ts => t.Clean P Δ ∧ Term.AllClean P Δ ts

end

-- The inner quantifier binds what the outer one binds.
example : ¬(Term.quantified .universal [("x", .int)]
    (.quantified .universal [("x", .int)] (.bool true))).Clean (fun _ => True) [] := by
  simp [Term.Clean]

section

variable {P Q : String → Prop}

theorem Term.allClean_iff {Δ : List String} {ts : List Term} :
    Term.AllClean P Δ ts ↔ ∀ t ∈ ts, t.Clean P Δ := by
  induction ts with
  | nil =>
    rw [Term.AllClean]
    exact ⟨fun _ _ ht => absurd ht List.not_mem_nil, fun _ => trivial⟩
  | cons t ts ih => rw [Term.AllClean, ih, List.forall_mem_cons]

mutual

/-- Symbols without the property may be bound around the term. -/
theorem Term.Clean.imp (hPQ : ∀ b, P b → Q b) : ∀ (t : Term) {Δ Δ' : List String},
    (∀ y ∈ Δ', y ∈ Δ ∨ ¬P y) → t.Clean P Δ → t.Clean Q Δ'
  | .bool _, _, _, _, _ | .int _, _, _, _, _ | .const _, _, _, _, _ => by
    rw [Term.Clean]
    trivial
  | .not t, _, _, hΔ, h | .neg t, _, _, hΔ, h => by
    rw [Term.Clean] at h ⊢
    exact Term.Clean.imp hPQ t hΔ h
  | .junction _ ts, _, _, hΔ, h | .app _ ts, _, _, hΔ, h => by
    rw [Term.Clean] at h ⊢
    exact Term.AllClean.imp hPQ ts hΔ h
  | .binary _ a b, _, _, hΔ, h => by
    rw [Term.Clean] at h ⊢
    exact ⟨Term.Clean.imp hPQ a hΔ h.1, Term.Clean.imp hPQ b hΔ h.2⟩
  | .ite a b c, _, _, hΔ, h => by
    rw [Term.Clean] at h ⊢
    exact ⟨Term.Clean.imp hPQ a hΔ h.1, Term.Clean.imp hPQ b hΔ h.2.1,
      Term.Clean.imp hPQ c hΔ h.2.2⟩
  | .quantified _ vars t, Δ, Δ', hΔ, h => by
    rw [Term.Clean] at h ⊢
    refine ⟨fun v hv => ⟨hPQ _ (h.1 v hv).1, fun hmem => ?_⟩,
      Term.Clean.imp hPQ t (fun y hy => ?_) h.2⟩
    · exact (hΔ _ hmem).elim (h.1 v hv).2 fun hnot => hnot (h.1 v hv).1
    · rcases List.mem_append.mp hy with hy | hy
      · exact .inl (List.mem_append_left _ hy)
      · exact (hΔ y hy).imp_left (List.mem_append_right _)

theorem Term.AllClean.imp (hPQ : ∀ b, P b → Q b) : ∀ (ts : List Term) {Δ Δ' : List String},
    (∀ y ∈ Δ', y ∈ Δ ∨ ¬P y) → Term.AllClean P Δ ts → Term.AllClean Q Δ' ts
  | [], _, _, _, _ => by
    rw [Term.AllClean]
    trivial
  | t :: ts, _, _, hΔ, h => by
    rw [Term.AllClean] at h ⊢
    exact ⟨Term.Clean.imp hPQ t hΔ h.1, Term.AllClean.imp hPQ ts hΔ h.2⟩

end

mutual

theorem Term.Clean.binders : ∀ (t : Term) {Δ : List String}, t.Clean P Δ → ∀ b ∈ t.binders, P b
  | .bool _, _, _, b, hb | .int _, _, _, b, hb | .const _, _, _, b, hb => by
    rw [Term.binders] at hb
    cases hb
  | .not t, _, h, b, hb | .neg t, _, h, b, hb => by
    rw [Term.Clean] at h
    rw [Term.binders] at hb
    exact Term.Clean.binders t h b hb
  | .junction _ ts, _, h, b, hb | .app _ ts, _, h, b, hb => by
    rw [Term.Clean] at h
    rw [Term.binders] at hb
    exact Term.AllClean.binders ts h b hb
  | .binary _ t u, _, h, b, hb => by
    rw [Term.Clean] at h
    rw [Term.binders, List.mem_append] at hb
    exact hb.elim (Term.Clean.binders t h.1 b) (Term.Clean.binders u h.2 b)
  | .ite t u v, _, h, b, hb => by
    rw [Term.Clean] at h
    rw [Term.binders, List.mem_append, List.mem_append] at hb
    exact hb.elim (Or.rec (Term.Clean.binders t h.1 b) (Term.Clean.binders u h.2.1 b))
      (Term.Clean.binders v h.2.2 b)
  | .quantified _ vars t, _, h, b, hb => by
    rw [Term.Clean] at h
    rw [Term.binders, List.mem_append] at hb
    rcases hb with hb | hb
    · obtain ⟨v, hv, rfl⟩ := List.mem_map.mp hb
      exact (h.1 v hv).1
    · exact Term.Clean.binders t h.2 b hb

theorem Term.AllClean.binders : ∀ (ts : List Term) {Δ : List String}, Term.AllClean P Δ ts →
    ∀ b ∈ Term.allBinders ts, P b
  | [], _, _, b, hb => by
    rw [Term.allBinders] at hb
    cases hb
  | t :: ts, _, h, b, hb => by
    rw [Term.AllClean] at h
    rw [Term.allBinders, List.mem_append] at hb
    exact hb.elim (Term.Clean.binders t h.1 b) (Term.AllClean.binders ts h.2 b)

end

end

end Smt

open Smt

section

variable {P : String → Prop} {Δ : List String} {a b : Term}

theorem clean_const (x : String) : (Term.const x).Clean P Δ := by
  rw [Term.Clean]
  trivial

theorem clean_arithTerm (op : ArithOp) (ha : a.Clean P Δ) (hb : b.Clean P Δ) :
    (arithTerm op a b).Clean P Δ := by
  cases op <;> simp [arithTerm, truncatedDiv, Term.Clean, ha, hb]

theorem clean_cmpTerm (op : CmpOp) (ha : a.Clean P Δ) (hb : b.Clean P Δ) :
    (cmpTerm op a b).Clean P Δ := by
  cases op <;> simp [cmpTerm, Term.eq, Term.Clean, ha, hb]

end

/-! ## Things with symbols -/

/-- What a symbol of a query can stand for. -/
inductive Entity
  | scalar (name : String)
  | cell (array : String) (index : Term)
  | selector (array : String)
  | length (array : String)
  | function (name : String)
  /-- A parameter in the axioms of a function. -/
  | formal (function param : String)
  /-- The variable of the quantifier that took this number. -/
  | quantified (base : String) (number : Nat)

/-- The things that outlive a function, with their symbols. -/
inductive Program.Names (p : Program) : Entity → String → Prop
  | function {u : String} (hu : PlainName u) : p.Names (.function u) (fnSymbol u)
  | formal {g : FunctionDef} {x : Param} (hg : g ∈ p.functions) (hx : x ∈ g.params) :
      p.Names (.formal g.name x.name) (formalSymbol g x)

/-- The things of one function whose symbols are made of the names of its variables. -/
inductive FunctionDef.Names (f : FunctionDef) : Entity → String → Prop
  | scalar {d : Param} (hd : d ∈ f.decls) (htype : d.type = .int) :
      f.Names (.scalar d.name) (varSymbol d.name)
  | selector {a : String} (ha : a ∈ f.arrays) : f.Names (.selector a) (a ++ "!sel")
  | length {a : String} (ha : a ∈ f.arrays) : f.Names (.length a) (a ++ "!len")

/-- The things of one function that have numbered symbols: its cells and the variables of
quantifiers. -/
inductive Numbers (cells : List CellConst) (binders : List String) : Entity → String → Prop
  | cell {c : CellConst} (hc : c ∈ cells) : Numbers cells binders (.cell c.array c.index) c.symbol
  | quantified {base : String} {n : Nat} (hn : 0 < n) (hb : numberedSymbol base n ∈ binders) :
      Numbers cells binders (.quantified base n) (numberedSymbol base n)

/-- In a query for the function with these cells and quantifiers the symbol stands for the thing. -/
def Denotes (p : Program) (f : FunctionDef) (cells : List CellConst) (binders : List String)
    (E : Entity) (x : String) : Prop :=
  p.Names E x ∨ f.Names E x ∨ Numbers cells binders E x

section

variable {p : Program} {f : FunctionDef} {cells : List CellConst} {binders : List String}
  {E E' : Entity} {x : String}

/-- The name of the function is what stands before the first period. -/
theorem formalSymbol_inj {g g' : FunctionDef} {x x' : Param} (hg : '.' ∉ g.name.toList)
    (hg' : '.' ∉ g'.name.toList) (h : formalSymbol g x = formalSymbol g' x') :
    g.name = g'.name ∧ x.name = x'.name := by
  have hlist : ∀ (g : FunctionDef) (x : Param), (formalSymbol g x).toList =
      g.name.toList ++ '.' :: ('a' :: 'r' :: 'g' :: '.' :: x.name.toList) := by
    intro g x
    rw [formalSymbol, String.toList_append, String.toList_append, List.append_assoc]
    rfl
  have heq := congrArg String.toList h
  rw [hlist, hlist] at heq
  -- of two ways to cut at a period the shorter one would leave a period in the longer one
  have hcut : ∀ {l l' d d' : List Char}, '.' ∉ l → '.' ∉ l' → l ++ '.' :: d = l' ++ '.' :: d' →
      l = l' ∧ d = d' := by
    intro l l' d d' hl hl' h
    rcases List.append_eq_append_iff.mp h with ⟨as, rfl, hrest⟩ | ⟨as, rfl, hrest⟩
    · cases as with
      | nil => exact ⟨(List.append_nil l).symm, (List.cons.inj hrest).2⟩
      | cons c as =>
        rw [(List.cons.inj hrest).1] at hl'
        exact absurd (List.mem_append_right _ List.mem_cons_self) hl'
    · cases as with
      | nil => exact ⟨List.append_nil l', (List.cons.inj hrest).2.symm⟩
      | cons c as =>
        rw [(List.cons.inj hrest).1] at hl
        exact absurd (List.mem_append_right _ List.mem_cons_self) hl
  obtain ⟨hname, hrest⟩ := hcut hg hg' heq
  exact ⟨String.toList_injective hname, String.toList_injective (by simpa using hrest)⟩

/-- The functions of the program and all that they declare have names without mark and period. -/
structure Program.AllPlain (p : Program) : Prop where
  functions : ∀ g ∈ p.functions, PlainName g.name
  declared : p.PlainNames

theorem Program.AllPlain.param (hp : p.AllPlain) {g : FunctionDef} (hg : g ∈ p.functions) {x : Param}
    (hx : x ∈ g.params) : PlainName x.name :=
  hp.declared g hg x (List.mem_append_left _ (List.mem_append_left _ hx))

theorem Program.Names.inj (hp : p.AllPlain) (h : p.Names E x) (h' : p.Names E' x) : E = E' := by
  cases h with
  | @function u hu =>
    generalize hx : fnSymbol u = x at h'
    cases h' with
    | function hu' => rw [(String.append_right_inj "fn.").mp hx]
    | formal hg hy => exact absurd hx (fnSymbol_ne_formalSymbol hu.2 _ _)
  | @formal g y hg hy =>
    generalize hx : formalSymbol g y = x at h'
    cases h' with
    | function hu => exact absurd hx.symm (fnSymbol_ne_formalSymbol hu.2 _ _)
    | formal hg' hy' =>
      obtain ⟨hname, hparam⟩ := formalSymbol_inj (hp.functions g hg).2 (hp.functions _ hg').2 hx
      rw [hname, hparam]

theorem Program.Names.period_mem (h : p.Names E x) : '.' ∈ x.toList := by
  cases h with
  | function hu => exact period_mem_fnSymbol _
  | formal hg hx => exact period_mem_formalSymbol _ _

theorem Program.Names.not_madeAfter (hp : p.AllPlain) (h : p.Names E x) : ¬MadeAfter 0 x := by
  cases h with
  | function hu => exact fnSymbol_not_madeAfter hu.1 0
  | formal hg hx => exact formalSymbol_not_madeAfter _ (hp.param hg hx).1 0

variable (hf : ∀ d ∈ f.decls, PlainName d.name)

include hf

theorem FunctionDef.plainName_of_mem_arrays {a : String} (ha : a ∈ f.arrays) : PlainName a := by
  obtain ⟨d, hd, -, rfl⟩ := FunctionDef.mem_arrays.mp ha
  exact hf d hd

theorem FunctionDef.Names.inj (h : f.Names E x) (h' : f.Names E' x) : E = E' := by
  cases h with
  | @scalar d hd htype =>
    generalize hx : varSymbol d.name = x at h'
    cases h' with
    | scalar hd' htype' => rw [varSymbol_inj (hf d hd).1 (hf _ hd').1 hx]
    | selector ha => exact absurd hx ((localName_varSymbol (hf d hd)).noSelector _)
    | length ha => exact absurd hx (varSymbol_ne_length (hf d hd).1 _)
  | @selector a ha =>
    generalize hx : a ++ "!sel" = x at h'
    cases h' with
    | scalar hd htype => exact absurd hx.symm ((localName_varSymbol (hf _ hd)).noSelector _)
    | selector ha' => rw [selector_inj hx]
    | length hb =>
      have hplain := FunctionDef.plainName_of_mem_arrays hf hb
      exact absurd hx.symm ((localName_length hplain).noSelector _)
  | @length a ha =>
    generalize hx : a ++ "!len" = x at h'
    cases h' with
    | scalar hd htype => exact absurd hx.symm (varSymbol_ne_length (hf _ hd).1 _)
    | selector hb =>
      have hplain := FunctionDef.plainName_of_mem_arrays hf ha
      exact absurd hx ((localName_length hplain).noSelector _)
    | length hb => rw [(String.append_left_inj "!len").mp hx]

theorem FunctionDef.Names.period_not_mem (h : f.Names E x) : '.' ∉ x.toList := by
  cases h with
  | scalar hd htype => exact (localName_varSymbol (hf _ hd)).noPeriod
  | selector ha =>
    exact period_not_mem_append (FunctionDef.plainName_of_mem_arrays hf ha).2 (by decide)
  | length ha => exact (localName_length (FunctionDef.plainName_of_mem_arrays hf ha)).noPeriod

theorem FunctionDef.Names.not_madeAfter (h : f.Names E x) : ¬MadeAfter 0 x := by
  cases h with
  | scalar hd htype => exact varSymbol_not_madeAfter (hf _ hd).1 0
  | selector ha => exact selector_not_madeAfter _ 0
  | length ha => exact lengthSymbol_not_madeAfter _ 0

omit hf

/-- Cells and quantifiers do not get in each other's way. -/
structure Apart (cells : List CellConst) (binders : List String) : Prop where
  distinct : ∀ c ∈ cells, ∀ d ∈ cells, c.symbol = d.symbol → c = d
  numbered : ∀ c ∈ cells, MadeAfter 0 c.symbol
  free : ∀ b ∈ binders, ∀ c ∈ cells, c.symbol ≠ b

theorem Numbers.madeAfter (hcells : Apart cells binders) (h : Numbers cells binders E x) :
    MadeAfter 0 x := by
  cases h with
  | cell hc => exact hcells.numbered _ hc
  | quantified hn hb => exact madeAfter_numberedSymbol.mpr hn

theorem Numbers.inj (hcells : Apart cells binders) (h : Numbers cells binders E x)
    (h' : Numbers cells binders E' x) : E = E' := by
  cases h with
  | @cell c hc =>
    generalize hx : c.symbol = x at h'
    cases h' with
    | cell hd => rw [hcells.distinct c hc _ hd hx]
    | quantified hn hb => exact absurd hx (hcells.free _ hb c hc)
  | @quantified base n hn hb =>
    generalize hx : numberedSymbol base n = x at h'
    cases h' with
    | cell hc => exact absurd hx.symm (hcells.free _ hb _ hc)
    | quantified hn' hb' => rw [base_eq_of_numberedSymbol hx, numberedSymbol_inj hx]

/-- A symbol stands for one thing. What outlives the function is told by a period, and the rest by
whether it has a number. -/
theorem Denotes.inj (hp : p.AllPlain) (hf : f ∈ p.functions) (hcells : Apart cells binders)
    (h : Denotes p f cells binders E x) (h' : Denotes p f cells binders E' x) : E = E' := by
  have hplain := hp.declared f hf
  rcases h with h | h | h
  · rcases h' with h' | h' | h'
    · exact h.inj hp h'
    · exact absurd h.period_mem (h'.period_not_mem hplain)
    · exact absurd (h'.madeAfter hcells) (h.not_madeAfter hp)
  · rcases h' with h' | h' | h'
    · exact absurd h'.period_mem (h.period_not_mem hplain)
    · exact h.inj hplain h'
    · exact absurd (h'.madeAfter hcells) (h.not_madeAfter hplain)
  · rcases h' with h' | h' | h'
    · exact absurd (h.madeAfter hcells) (h'.not_madeAfter hp)
    · exact absurd (h.madeAfter hcells) (h'.not_madeAfter hplain)
    · exact h.inj hcells h'

end

/-! ## Symbols that a session has made -/

/-- The symbol was made for a quantifier: it has a number, and is that of no cell. -/
structure Session.Binds (s : Session) (b : String) : Prop where
  numbered : MadeAfter 0 b
  made : ¬MadeAfter s.counter b
  free : ∀ c ∈ s.scope.cells, c.symbol ≠ b

/-- The session has made symbols, and used some of them for cells. -/
structure Session.Advances (s s' : Session) : Prop where
  counter : s.counter ≤ s'.counter
  cells : ∀ c ∈ s'.scope.cells, c ∈ s.scope.cells ∨ MadeAfter s.counter c.symbol
  kept : s.scope.cells ⊆ s'.scope.cells

/-- What is declared in the session has a meaning, and its terms are clean. -/
structure Session.Hygienic (p : Program) (f : FunctionDef) (s : Session) : Prop where
  globals : ∀ x ∈ Script.declared s.commands, ∃ E, p.Names E x
  axioms : ∀ t ∈ Script.asserted s.commands, t.Clean s.Binds []
  locals : ∀ x ∈ Script.declared s.scope.decls,
    (∃ E, f.Names E x) ∨ ∃ c ∈ s.scope.cells, c.symbol = x
  assertions : ∀ t ∈ Script.asserted s.scope.assertions, t.Clean s.Binds []
  cells : ∀ c ∈ s.scope.cells,
    MadeAfter 0 c.symbol ∧ ¬MadeAfter s.counter c.symbol ∧ c.index.Clean s.Binds []

/-- What a step may add to a session. -/
structure Session.Adds (p : Program) (f : FunctionDef) (s s' : Session) : Prop extends
    s.Advances s' where
  globals : ∀ x ∈ Script.declared s'.commands, x ∈ Script.declared s.commands ∨ ∃ E, p.Names E x
  axioms : ∀ t ∈ Script.asserted s'.commands, t ∈ Script.asserted s.commands ∨ t.Clean s'.Binds []
  locals : ∀ x ∈ Script.declared s'.scope.decls, x ∈ Script.declared s.scope.decls ∨
    (∃ E, f.Names E x) ∨ ∃ c ∈ s'.scope.cells, c.symbol = x
  assertions : ∀ t ∈ Script.asserted s'.scope.assertions,
    t ∈ Script.asserted s.scope.assertions ∨ t.Clean s'.Binds []
  made : ∀ c ∈ s'.scope.cells, c ∈ s.scope.cells ∨
    MadeAfter 0 c.symbol ∧ ¬MadeAfter s'.counter c.symbol ∧ c.index.Clean s'.Binds []

section

variable {p : Program} {f : FunctionDef} {s s' s'' : Session}

theorem Session.Advances.refl (s : Session) : s.Advances s :=
  ⟨Nat.le_refl _, fun _ hc => .inl hc, List.Subset.refl _⟩

theorem Session.Advances.trans (h : s.Advances s') (h' : s'.Advances s'') : s.Advances s'' := by
  refine ⟨Nat.le_trans h.counter h'.counter, fun c hc => ?_, List.Subset.trans h.kept h'.kept⟩
  rcases h'.cells c hc with hc | hc
  · exact h.cells c hc
  · exact .inr (hc.mono h.counter)

/-- What was made for a quantifier is not used for a cell later. -/
theorem Session.Binds.mono {b : String} (hb : s.Binds b) (h : s.Advances s') : s'.Binds b := by
  refine ⟨hb.numbered, fun hlater => hb.made (hlater.mono h.counter), fun c hc heq => ?_⟩
  rcases h.cells c hc with hc | hc
  · exact hb.free c hc heq
  · exact hb.made (heq ▸ hc)

theorem Session.Advances.clean (h : s.Advances s') {Δ : List String} {t : Term}
    (ht : t.Clean s.Binds Δ) : t.Clean s'.Binds Δ :=
  Term.Clean.imp (fun _ hb => hb.mono h) t (fun _ hy => .inl hy) ht

/-- Fewer symbols may be bound around a term. -/
theorem clean_closed {P : String → Prop} {Δ : List String} {t : Term} (ht : t.Clean P Δ) :
    t.Clean P [] :=
  Term.Clean.imp (fun _ h => h) t (fun _ hy => absurd hy List.not_mem_nil) ht

theorem Session.Adds.hygienic (hadds : s.Adds p f s') (h : s.Hygienic p f) : s'.Hygienic p f := by
  refine ⟨fun x hx => ?_, fun t ht => ?_, fun x hx => ?_, fun t ht => ?_, fun c hc => ?_⟩
  · exact (hadds.globals x hx).elim (h.globals x) id
  · exact (hadds.axioms t ht).elim (fun ht => hadds.clean (h.axioms t ht)) id
  · rcases hadds.locals x hx with hx | hx
    · exact (h.locals x hx).imp_right fun ⟨c, hc, heq⟩ => ⟨c, hadds.kept hc, heq⟩
    · exact hx
  · exact (hadds.assertions t ht).elim (fun ht => hadds.clean (h.assertions t ht)) id
  · rcases hadds.made c hc with hold | hnew
    · obtain ⟨hnumbered, hmade, hindex⟩ := h.cells c hold
      exact ⟨hnumbered, fun hlater => hmade (hlater.mono hadds.counter), hadds.clean hindex⟩
    · exact hnew

theorem Session.Adds.trans (h : s.Adds p f s') (h' : s'.Adds p f s'') : s.Adds p f s'' where
  toAdvances := h.toAdvances.trans h'.toAdvances
  globals x hx := (h'.globals x hx).elim (h.globals x) .inr
  axioms t ht := (h'.axioms t ht).elim
    (fun ht => (h.axioms t ht).imp_right h'.clean) .inr
  locals x hx := by
    rcases h'.locals x hx with hx | hx
    · refine (h.locals x hx).imp_right fun hnew => hnew.imp_right ?_
      exact fun ⟨c, hc, heq⟩ => ⟨c, h'.kept hc, heq⟩
    · exact .inr hx
  assertions t ht := (h'.assertions t ht).elim
    (fun ht => (h.assertions t ht).imp_right h'.clean) .inr
  made c hc := by
    rcases h'.made c hc with hc | hc
    · refine (h.made c hc).imp_right fun ⟨hnumbered, hmade, hindex⟩ => ?_
      exact ⟨hnumbered, fun hlater => hmade (hlater.mono h'.counter), h'.clean hindex⟩
    · exact .inr hc

/-- A step that makes no cell, with what it declares and asserts. -/
theorem Session.Adds.of_append (cs ds as : Script) (hcounter : s.counter ≤ s'.counter)
    (hcells : s'.scope.cells = s.scope.cells)
    (hcommands : s'.commands = s.commands ++ cs) (hdecls : s'.scope.decls = s.scope.decls ++ ds)
    (hassertions : s'.scope.assertions = s.scope.assertions ++ as)
    (hglobals : ∀ x ∈ Script.declared cs, ∃ E, p.Names E x)
    (haxioms : ∀ t ∈ Script.asserted cs, t.Clean s.Binds [])
    (hlocals : ∀ x ∈ Script.declared ds, ∃ E, f.Names E x)
    (hfacts : ∀ t ∈ Script.asserted as, t.Clean s.Binds []) : s.Adds p f s' := by
  have hadvances : s.Advances s' :=
    ⟨hcounter, fun _ hc => .inl (hcells ▸ hc), hcells ▸ List.Subset.refl _⟩
  refine ⟨hadvances, fun x hx => ?_, fun t ht => ?_, fun x hx => ?_, fun t ht => ?_,
    fun _ hc => .inl (hcells ▸ hc)⟩
  · rw [hcommands, Script.declared_append, List.mem_append] at hx
    exact hx.imp_right (hglobals x)
  · rw [hcommands, Script.asserted_append, List.mem_append] at ht
    exact ht.imp_right fun ht => hadvances.clean (haxioms t ht)
  · rw [hdecls, Script.declared_append, List.mem_append] at hx
    exact hx.imp_right fun hx => .inl (hlocals x hx)
  · rw [hassertions, Script.asserted_append, List.mem_append] at ht
    exact ht.imp_right fun ht => hadvances.clean (hfacts t ht)

/-- A step that declares and asserts nothing. -/
theorem Session.Adds.of_eq (hcounter : s.counter ≤ s'.counter) (hcommands : s'.commands = s.commands)
    (hdecls : s'.scope.decls = s.scope.decls)
    (hassertions : s'.scope.assertions = s.scope.assertions)
    (hcells : s'.scope.cells = s.scope.cells) : s.Adds p f s' := by
  refine .of_append [] [] [] hcounter hcells ?_ ?_ ?_ nofun nofun nofun nofun
  · rw [hcommands, List.append_nil]
  · rw [hdecls, List.append_nil]
  · rw [hassertions, List.append_nil]

/-- A step that adds global commands. -/
theorem Session.Adds.of_commands {cs : Script} (hcounter : s'.counter = s.counter)
    (hscope : s'.scope = s.scope) (hcommands : s'.commands = s.commands ++ cs)
    (hglobals : ∀ x ∈ Script.declared cs, ∃ E, p.Names E x)
    (haxioms : ∀ t ∈ Script.asserted cs, t.Clean s.Binds []) : s.Adds p f s' := by
  refine .of_append cs [] [] (Nat.le_of_eq hcounter.symm) (by rw [hscope]) hcommands ?_ ?_
    hglobals haxioms nofun nofun
  · rw [hscope, List.append_nil]
  · rw [hscope, List.append_nil]

/-! ## The regime -/

/-- Terms are clean, with respect to the symbols that were made for quantifiers. -/
def hygiene (p : Program) (f : FunctionDef) : Regime where
  inv := Session.Hygienic p f
  leads := Session.Advances
  applies _ _ _ := True
  number s Δ t := t.Clean s.Binds Δ
  truth s Δ t := t.Clean s.Binds Δ
  scope s Δ := Δ.Nodup ∧ ∀ x ∈ Δ, s.Binds x
  refl := .refl
  trans := .trans
  applies_mono _ _ _ := trivial
  number_mono h _ ht := h.clean ht
  truth_mono h _ ht := h.clean ht
  scope_mono h _ hΔ := ⟨hΔ.1, fun x hx => (hΔ.2 x hx).mono h⟩
  scope_nil _ := ⟨List.nodup_nil, fun _ hx => absurd hx List.not_mem_nil⟩
  weaken {s s' Δ t x} h _ hx ht := by
    -- nothing in the term can bind a symbol that was made after it
    refine Term.Clean.imp (fun _ hb => hb.mono h) t (fun y hy => ?_) ht
    rcases List.mem_cons.mp hy with rfl | hy
    · exact .inr fun hb => hb.made hx
    · exact .inl hy
  bound _ _ x := clean_const x
  int _ _ _ := by rw [Term.Clean]; trivial
  neg ht := by rw [Term.Clean]; exact ht
  arith op ha hb := clean_arithTerm op ha hb
  ite hc ha hb := by rw [Term.Clean]; exact ⟨hc, ha, hb⟩
  app _ _ _ hts := by rw [Term.Clean]; exact Term.allClean_iff.mpr hts
  bool _ _ _ := by rw [Term.Clean]; trivial
  compare op ha hb := clean_cmpTerm op ha hb
  not ht := by rw [Term.Clean]; exact ht
  junction _ hts := by rw [Term.Clean]; exact Term.allClean_iff.mpr hts
  implies ha hb := by rw [Term.implies, Term.Clean]; exact ⟨ha, hb⟩
  quantified {s Δ x t} k hscope ht := by
    rw [Term.Clean]
    refine ⟨List.forall_mem_singleton.mpr ⟨hscope.2 x List.mem_cons_self, ?_⟩, ht⟩
    exact (List.nodup_cons.mp hscope.1).1

/-- A step that adds what it may keeps the symbols in order. -/
theorem EncodeM.Meets.of_adds {α : Type} {x : EncodeM α} {post : α → Session → Prop}
    (hadds : s.Hygienic p f → s.Adds p f (x s).2)
    (hpost : s.Hygienic p f → ∀ a, (x s).1 = .ok a → post a (x s).2) :
    EncodeM.Meets (hygiene p f) s x post := fun hs =>
  ⟨(hadds hs).hygienic hs, (hadds hs).toAdvances, hpost hs⟩

theorem meets_hygiene_freshSymbol (base : String) {Δ : List String} (hΔ : (hygiene p f).scope s Δ) :
    EncodeM.Meets (hygiene p f) s (freshSymbol base) fun x s' =>
      MadeAfter s.counter x ∧ (hygiene p f).scope s' (x :: Δ) := by
  have hadds : s.Adds p f { s with counter := s.counter + 1 } :=
    .of_eq (Nat.le_succ _) rfl rfl rfl rfl
  refine .of_adds (fun _ => hadds) fun hs x hx => ?_
  cases hx
  have hnew : MadeAfter s.counter (numberedSymbol base (s.counter + 1)) :=
    ⟨base, _, Nat.lt_succ_self _, rfl⟩
  -- the next number is that of no symbol bound around and of no cell
  refine ⟨hnew, List.nodup_cons.mpr ⟨fun hmem => (hΔ.2 _ hmem).made hnew, hΔ.1⟩, ?_⟩
  refine List.forall_mem_cons.mpr ⟨⟨hnew.mono (Nat.zero_le _), fun hlater => ?_, fun c hc heq => ?_⟩,
    fun y hy => (hΔ.2 y hy).mono hadds.toAdvances⟩
  · exact Nat.lt_irrefl _ (madeAfter_numberedSymbol.mp hlater)
  · exact (hs.cells c hc).2.1 (heq ▸ hnew)

/-- What a declaration for the function adds. -/
theorem Session.declareLocalConst_cases (s : Session) (x : String) :
    s.declareLocalConst x = s ∨ ∃ declared, s.declareLocalConst x = { s with scope := { s.scope with
      declared := declared, decls := s.scope.decls ++ [.declareConst x .int] } } := by
  unfold Session.declareLocalConst
  split
  · exact .inl rfl
  · exact .inr ⟨_, rfl⟩

theorem Session.adds_declareLocalConst {x : String} (hx : ∃ E, f.Names E x) :
    s.Adds p f (s.declareLocalConst x) := by
  rcases s.declareLocalConst_cases x with heq | ⟨declared, heq⟩
  · rw [heq]
    exact .of_eq (Nat.le_refl _) rfl rfl rfl rfl
  · rw [heq]
    refine .of_append [] [_] [] (Nat.le_refl _) rfl (List.append_nil _).symm rfl
      (List.append_nil _).symm nofun nofun ?_ nofun
    exact List.forall_mem_singleton.mpr hx

theorem Session.withCell_cases (s : Session) (a : String) (i : Term) : ∃ ds : Script,
    (s.withCell a i).commands = s.commands ∧ (s.withCell a i).scope.decls = s.scope.decls ++ ds ∧
    (s.withCell a i).scope.assertions = s.scope.assertions ∧
    ∀ y ∈ Script.declared ds, y = numberedSymbol (a ++ "!elem") (s.counter + 1) := by
  unfold Session.withCell
  dsimp only
  rcases Session.declareLocalConst_cases { s with counter := s.counter + 1 }
    (numberedSymbol (a ++ "!elem") (s.counter + 1)) with heq | ⟨declared, heq⟩
  · rw [heq]
    exact ⟨[], rfl, (List.append_nil _).symm, rfl, nofun⟩
  · rw [heq]
    exact ⟨_, rfl, rfl, rfl, fun y hy => List.mem_singleton.mp hy⟩

/-- A new cell takes the next number. -/
theorem Session.adds_withCell {a : String} {i : Term} (hi : i.Clean s.Binds []) :
    s.Adds p f (s.withCell a i) := by
  have hcells := s.withCell_cells a i
  have hcounter := s.withCell_counter a i
  have hnew : MadeAfter s.counter (numberedSymbol (a ++ "!elem") (s.counter + 1)) :=
    ⟨_, _, Nat.lt_succ_self _, rfl⟩
  have hmem : ∀ c ∈ (s.withCell a i).scope.cells, c ∈ s.scope.cells ∨
      c = ⟨a, i, numberedSymbol (a ++ "!elem") (s.counter + 1)⟩ := by
    intro c hc
    rw [hcells, List.mem_append, List.mem_singleton] at hc
    exact hc
  have hadvances : s.Advances (s.withCell a i) := by
    refine ⟨by rw [hcounter]; exact Nat.le_succ _, fun c hc => ?_, ?_⟩
    · refine (hmem c hc).imp_right ?_
      rintro rfl
      exact hnew
    · rw [hcells]
      exact List.subset_append_left _ _
  have hmade : ∀ c ∈ (s.withCell a i).scope.cells, c ∈ s.scope.cells ∨ MadeAfter 0 c.symbol ∧
      ¬MadeAfter (s.withCell a i).counter c.symbol ∧ c.index.Clean (s.withCell a i).Binds [] := by
    intro c hc
    refine (hmem c hc).imp_right ?_
    rintro rfl
    refine ⟨hnew.mono (Nat.zero_le _), fun hlater => ?_, hadvances.clean hi⟩
    rw [hcounter] at hlater
    exact Nat.lt_irrefl _ (madeAfter_numberedSymbol.mp hlater)
  have hsymbol : ∃ c ∈ (s.withCell a i).scope.cells,
      c.symbol = numberedSymbol (a ++ "!elem") (s.counter + 1) := by
    rw [hcells]
    exact ⟨_, List.mem_append_right _ List.mem_cons_self, rfl⟩
  -- the only new declaration is that of the symbol of the cell
  obtain ⟨ds, hcommands, hdecls, hassertions, hdeclared⟩ := s.withCell_cases a i
  refine ⟨hadvances, fun _ h => .inl (hcommands ▸ h), fun _ h => .inl (hcommands ▸ h), fun y hy => ?_,
    fun _ h => .inl (hassertions ▸ h), hmade⟩
  rw [hdecls, Script.declared_append, List.mem_append] at hy
  refine hy.imp_right fun hy => .inr ?_
  rw [hdeclared y hy]
  exact hsymbol

theorem meets_hygiene_cellSymbol (a : String) {i : Term} (hi : i.Clean s.Binds []) (Δ : List String) :
    EncodeM.Meets (hygiene p f) s (cellSymbol a i) fun x s' => (Term.const x).Clean s'.Binds Δ := by
  refine .of_adds (fun _ => ?_) fun _ x _ => clean_const x
  cases hfind : s.scope.cells.find? (fun c => c.array = a ∧ c.index = i) with
  | some c =>
    rw [cellSymbol_run_of_mem hfind]
    exact .of_eq (Nat.le_refl _) rfl rfl rfl rfl
  | none =>
    rw [cellSymbol_run_new hfind]
    exact Session.adds_withCell hi

theorem meets_hygiene_selectorSymbol {a : String} (ha : a ∈ f.arrays) {i : Term} {Δ : List String}
    (hi : i.Clean s.Binds Δ) : EncodeM.Meets (hygiene p f) s (selectorSymbol a) fun g s' =>
      (Term.app g [i]).Clean s'.Binds Δ := by
  have hadds : s.Adds p f (selectorSymbol a s).2 := by
    rw [selectorSymbol_run]
    dsimp only
    split
    · exact .of_eq (Nat.le_refl _) rfl rfl rfl rfl
    · refine .of_append [] [_] [] (Nat.le_refl _) rfl (List.append_nil _).symm rfl
        (List.append_nil _).symm nofun nofun ?_ nofun
      exact List.forall_mem_singleton.mpr ⟨.selector a, .selector ha⟩
  refine .of_adds (fun _ => hadds) fun _ g _ => ?_
  rw [Term.Clean, Term.allClean_iff]
  exact List.forall_mem_singleton.mpr (hadds.clean hi)

theorem meets_hygiene_lengthSymbol {a : String} (ha : a ∈ f.arrays) (Δ : List String) :
    EncodeM.Meets (hygiene p f) s (lengthSymbol a) fun x s' => (Term.const x).Clean s'.Binds Δ := by
  refine .of_adds (fun _ => ?_) fun _ x _ => clean_const x
  rw [lengthSymbol_run]
  dsimp only
  split
  · exact .of_eq (Nat.le_refl _) rfl rfl rfl rfl
  · refine (Session.adds_declareLocalConst ⟨.length a, .length ha⟩).trans ?_
    refine .of_append [] [] [_] (Nat.le_refl _) rfl (List.append_nil _).symm
      (List.append_nil _).symm rfl nofun nofun nofun ?_
    refine List.forall_mem_singleton.mpr ?_
    simp [Term.Clean]

theorem meets_hygiene_declareFun {u : String} (hu : PlainName u) (n : Nat) :
    EncodeM.Meets (hygiene p f) s (declareFun (fnSymbol u) n) fun _ _ => True := by
  refine .of_adds (fun _ => ?_) fun _ _ _ => trivial
  unfold declareFun
  rw [EncodeM.get_bind]
  cases s.arities.lookup (fnSymbol u) with
  | some expected =>
    dsimp only
    split <;> exact .of_eq (Nat.le_refl _) rfl rfl rfl rfl
  | none =>
    exact .of_commands rfl rfl rfl (List.forall_mem_singleton.mpr ⟨.function u, .function hu⟩) nofun

theorem hygiene_allows (p : Program) {arrays : List String} (harrays : arrays ⊆ f.arrays) :
    (hygiene p f).Allows p arrays PlainName where
  fresh _ base _ hΔ := meets_hygiene_freshSymbol base hΔ
  cell _ a _ Δ _ _ _ _ hi _ := meets_hygiene_cellSymbol a (clean_closed hi) Δ
  selector _ _ _ _ ha _ hi := meets_hygiene_selectorSymbol (harrays ha) hi
  length _ _ Δ ha _ := meets_hygiene_lengthSymbol (harrays ha) Δ
  declare _ _ n hu _ := meets_hygiene_declareFun hu n

/-- The constants of the parameters of a function are declared. -/
theorem meets_hygiene_formals {g : FunctionDef} (hg : g ∈ p.functions) :
    EncodeM.Meets (hygiene p f) s
      (modify fun s => (g.params.map (formalSymbol g)).foldl Session.declareGlobalConst s)
      fun _ s' => ∀ x ∈ g.params, (Term.const (formalSymbol g x)).Clean s'.Binds [] := by
  have hstep : ∀ (s : Session) (x : Param), x ∈ g.params →
      s.Adds p f (s.declareGlobalConst (formalSymbol g x)) := by
    intro s x hx
    unfold Session.declareGlobalConst
    split
    · exact .of_eq (Nat.le_refl _) rfl rfl rfl rfl
    · exact .of_commands rfl rfl rfl
        (List.forall_mem_singleton.mpr ⟨.formal g.name x.name, .formal hg hx⟩) nofun
  have hfold : ∀ (xs : List Param) (s : Session), xs ⊆ g.params →
      s.Adds p f ((xs.map (formalSymbol g)).foldl Session.declareGlobalConst s) := by
    intro xs
    induction xs with
    | nil => exact fun s _ => .of_eq (Nat.le_refl _) rfl rfl rfl rfl
    | cons x xs ih =>
      intro s hxs
      exact (hstep s x (hxs List.mem_cons_self)).trans
        (ih _ fun y hy => hxs (List.mem_cons_of_mem _ hy))
  exact .of_adds (fun _ => hfold g.params s (List.Subset.refl _)) fun _ _ _ x _ =>
    clean_const _

/-- Axioms are clean for good, since their symbols are not used for cells later. -/
theorem hygiene_lasts (p : Program) (f : FunctionDef) : (hygiene p f).Lasts (hygiene p f) p where
  inv := rfl
  leads := rfl
  applies := rfl
  number ht := ht
  strengthen _ _ _ ht := clean_closed ht
  formals _ _ hg := meets_hygiene_formals (Program.mem_of_function? hg.found).1
  entered s name hs := by
    have hadds : s.Adds p f (s.entered name) := .of_eq (Nat.le_refl _) rfl rfl rfl rfl
    exact ⟨hadds.hygienic hs, hadds.toAdvances⟩
  settled s name ts hs hts := by
    have hadds : s.Adds p f (s.settled name ts) := by
      refine .of_commands rfl rfl rfl (fun y hy => ?_) fun t ht => ?_
      · obtain ⟨c, hc, hcy⟩ := Script.mem_declared.mp hy
        obtain ⟨t, -, rfl⟩ := List.mem_map.mp hc
        cases hcy
      · rw [Script.asserted_map_assert] at ht
        exact hts t ht
    exact ⟨hadds.hygienic hs, hadds.toAdvances⟩
  noted s name args hs := by
    have hadds : s.Adds p f (s.noted name args) := .of_eq (Nat.le_refl _) rfl rfl rfl rfl
    exact ⟨hadds.hygienic hs, hadds.toAdvances⟩
  instantiated s name result hs hresult := by
    have hadds : s.Adds p f (s.instantiated name result) := by
      refine .of_append [] [] _ (Nat.le_refl _) rfl (List.append_nil _).symm
        (List.append_nil _).symm rfl nofun nofun nofun fun t ht => ?_
      rw [Script.asserted_map_assert] at ht
      exact hresult t (Option.mem_toList.mp ht)
    exact ⟨hadds.hygienic hs, hadds.toAdvances⟩

/-! ## Sessions and queries -/

/-- At the start of a function there are no cells, and the variables are declared. -/
theorem Session.Hygienic.forFunction {f' : FunctionDef} (h : s.Hygienic p f') (f : FunctionDef) :
    (s.forFunction f).Hygienic p f := by
  have hbegin : (s.beginFunction f.name).Hygienic p f := by
    refine ⟨h.globals, fun t ht => ?_, fun _ hx => absurd hx List.not_mem_nil,
      fun _ ht => absurd ht List.not_mem_nil, fun _ hc => absurd hc List.not_mem_nil⟩
    refine Term.Clean.imp (fun b hb => ?_) t (fun _ hy => .inl hy) (h.axioms t ht)
    exact ⟨hb.numbered, hb.made, fun _ hc => absurd hc List.not_mem_nil⟩
  have hfold : ∀ (names : List String) (s : Session), (∀ x ∈ names, ∃ E, f.Names E x) →
      s.Hygienic p f → (names.foldl Session.declareLocalConst s).Hygienic p f := by
    intro names
    induction names with
    | nil => exact fun _ _ hs => hs
    | cons x names ih =>
      intro s hnames hs
      obtain ⟨hx, hrest⟩ := List.forall_mem_cons.mp hnames
      exact ih _ hrest ((Session.adds_declareLocalConst hx).hygienic hs)
  refine hfold _ _ (fun x hx => ?_) hbegin
  obtain ⟨q, hq, rfl⟩ := List.mem_map.mp hx
  obtain ⟨d, hd, rfl⟩ := List.mem_map.mp hq
  obtain ⟨hmem, htype⟩ := List.mem_filter.mp hd
  exact ⟨.scalar d.name, .scalar hmem (beq_iff_eq.mp htype)⟩

/-- A query, also a failed one, keeps the symbols in order, and its goal is clean. -/
theorem query_hygienic (hcalls : p.PlainCalls) {f' : FunctionDef} (f : FunctionDef) {obligation : Pred}
    (hobligation : obligation.CallsOnly PlainName) (hs : s.Hygienic p f') :
    (p.query f obligation s).2.Hygienic p f ∧
      ∀ goal s', p.encodePred obligation (Env.ofFunction f) (s.forFunction f) = (.ok goal, s') →
        goal.Clean s'.Binds [] := by
  have henv : (Env.ofFunction f).Meets (hygiene p f) (s.forFunction f) f.arrays [] := by
    refine ⟨fun x t ht => ?_, fun x a ha => Env.mem_arrays_of_lookup? ha,
      fun _ hx => absurd hx List.not_mem_nil, fun _ hx => absurd hx List.not_mem_nil,
      (hygiene p f).scope_nil _⟩
    obtain ⟨d, hd, -, hm⟩ := Env.lookup?_ofFunction ht
    unfold Env.declared at hm
    split at hm
    · cases hm
      exact clean_const (P := (s.forFunction f).Binds) (Δ := []) (varSymbol d.name)
    · cases hm
  obtain ⟨hserves, -⟩ := serves_resolver (hygiene_lasts p f) (hygiene_allows p (List.Subset.refl _))
    (hygiene_allows p (List.nil_subset _)) hcalls.contracts hcalls.formulas p.levels []
  -- the session is the one after the goal was encoded, whether that succeeded or not
  obtain ⟨hs', -, hgoal⟩ := meets_encodePred hserves obligation hobligation henv (hs.forFunction f)
  rw [(p.query_run f obligation s).1]
  refine ⟨hs', fun goal s' hrun => ?_⟩
  have hopen : encodePred p (resolver p p.levels []) obligation (Env.ofFunction f)
      (s.forFunction f) = (.ok goal, s') := hrun
  rw [hopen] at hgoal
  exact hgoal goal rfl

theorem sessionAfter_hygienic (hcalls : p.PlainCalls) (f : FunctionDef)
    {history : List (FunctionDef × Pred)} (hhistory : ∀ h ∈ history, h.2.CallsOnly PlainName) :
    ∃ f', (p.sessionAfter history).Hygienic p f' := by
  have hnew : Session.new.Hygienic p f :=
    ⟨fun _ hx => absurd hx List.not_mem_nil, fun _ ht => absurd ht List.not_mem_nil,
      fun _ hx => absurd hx List.not_mem_nil, fun _ ht => absurd ht List.not_mem_nil,
      fun _ hc => absurd hc List.not_mem_nil⟩
  refine p.sessionAfter_induction (P := fun s => ∃ f', s.Hygienic p f') ⟨f, hnew⟩ ?_
  rintro h hh s ⟨f', hs⟩
  exact ⟨h.1, (query_hygienic hcalls h.1 (hhistory h hh) hs).1⟩

/-! ## Scripts -/

theorem Session.WellSorted.mem_declared_assemble (h : s.WellSorted) {goal : Term} {x : String}
    (hx : x ∈ Script.declared (s.assemble goal)) :
    x ∈ Script.declared s.commands ∨ x ∈ Script.declared s.scope.decls := by
  obtain ⟨c, hc, hcx⟩ := Script.mem_declared.mp hx
  rw [Session.assemble_eq, Session.hypotheses] at hc
  simp only [List.mem_append, List.mem_cons, List.not_mem_nil, or_false] at hc
  rcases hc with (((((rfl | rfl) | hc) | hc) | hc) | hc) | rfl | rfl | rfl
  · cases hcx
  · cases hcx
  · exact .inl (Script.mem_declared.mpr ⟨c, hc, hcx⟩)
  · exact .inr (Script.mem_declared.mpr ⟨c, hc, hcx⟩)
  · obtain ⟨t, rfl, -⟩ := h.facts.assertions c hc
    cases hcx
  · obtain ⟨d, -, rfl⟩ := List.mem_map.mp hc
    cases hcx
  · cases hcx
  · cases hcx
  · cases hcx

/-- All assertions of a script are clean. -/
theorem Session.Hygienic.clean_assemble (h : s.Hygienic p f) (hsorted : s.WellSorted) {goal : Term}
    (hgoal : goal.Clean s.Binds []) {t : Term} (ht : t ∈ Script.asserted (s.assemble goal)) :
    t.Clean s.Binds [] := by
  rw [Script.mem_asserted, Session.assemble_eq, Session.hypotheses] at ht
  simp only [List.mem_append, List.mem_cons, List.not_mem_nil, or_false, reduceCtorEq, false_or,
    Command.assert.injEq] at ht
  rcases ht with (((ht | ht) | ht) | ht) | rfl
  · exact h.axioms t (Script.mem_asserted.mpr ht)
  · cases hsorted.decls.shape _ ht
  · exact h.assertions t (Script.mem_asserted.mpr ht)
  · obtain ⟨c, hc, heq⟩ := List.mem_map.mp ht
    cases heq
    have hindex := (h.cells c (List.mem_filter.mp hc).1).2.2
    simp only [Term.eq, Term.Clean, Term.AllClean, true_and, and_true]
    exact hindex
  · rw [Term.Clean]
    exact hgoal

end

/-- **Symbols are told apart**, if names hold no mark and no period. In a session after any queries,
failed ones included, take a query that succeeds. Different variables have different constants, and a
symbol stands for one thing only. Every symbol that the query declares stands for something other than
a quantified variable, and every symbol that a quantifier binds was made for a quantifier. So no
quantifier captures a declared symbol, and none captures a symbol that is bound around it. -/
theorem query_symbols_apart {p : Program} (hp : p.AllPlain) (hcalls : p.PlainCalls)
    {history : List (FunctionDef × Pred)}
    (hhistory : ∀ h ∈ history, h.1 ∈ p.functions ∧ h.2.CallsOnly PlainName) {f : FunctionDef}
    (hf : f ∈ p.functions) {obligation : Pred} (hobligation : obligation.CallsOnly PlainName)
    {query : Query} {s' : Session}
    (hrun : p.query f obligation (p.sessionAfter history) = (.ok query, s')) :
    (∀ v ∈ query.symbols.scalars, ∀ w ∈ query.symbols.scalars, v.1 ≠ w.1 → v.2 ≠ w.2) ∧
      (∀ (E E' : Entity) (x : String),
        Denotes p f query.symbols.cells query.script.binders E x →
        Denotes p f query.symbols.cells query.script.binders E' x → E = E') ∧
      (∀ x ∈ query.script.declared, ∃ E, Denotes p f query.symbols.cells [] E x) ∧
      (∀ b ∈ query.script.binders, ∃ base n,
        Denotes p f query.symbols.cells query.script.binders (.quantified base n) b) ∧
      ∀ t ∈ query.script.asserted, t.Clean (fun b => b ∉ query.script.declared) [] := by
  obtain ⟨goal, hencode, hscript, hsymbols⟩ := Program.query_eq_ok hrun
  obtain ⟨f', hstart⟩ := sessionAfter_hygienic hcalls f fun h hh => (hhistory h hh).2
  obtain ⟨hs', hgoal⟩ := query_hygienic hcalls f hobligation hstart
  obtain ⟨hsorted, -, -⟩ := query_meets_sorts hp.declared hcalls hf hobligation
    (sessionAfter_wellSorted hp.declared hcalls hhistory)
  rw [hrun] at hs' hsorted
  have hclean : ∀ t ∈ query.script.asserted, t.Clean s'.Binds [] := fun t ht =>
    hs'.clean_assemble hsorted (hgoal goal s' hencode) (hscript ▸ ht)
  have hbinds : ∀ b ∈ query.script.binders, s'.Binds b := by
    intro b hb
    obtain ⟨t, ht, hbt⟩ := List.mem_flatMap.mp hb
    exact Term.Clean.binders t (hclean t ht) b hbt
  have hdeclared : ∀ x ∈ query.script.declared, (∃ E, p.Names E x) ∨ (∃ E, f.Names E x) ∨
      ∃ c ∈ s'.scope.cells, c.symbol = x := by
    intro x hx
    rw [hscript] at hx
    exact (hsorted.mem_declared_assemble hx).imp (hs'.globals x) (hs'.locals x)
  have hapart : Apart s'.scope.cells query.script.binders := by
    refine ⟨fun c hc d hd heq => ?_, fun c hc => (hs'.cells c hc).1,
      fun b hb c hc => (hbinds b hb).free c hc⟩
    by_contra hne
    have : Std.Symm fun c d : CellConst => c.symbol ≠ d.symbol := ⟨fun _ _ h => h.symm⟩
    exact (hsorted.facts.distinct.imp fun h => h.2).forall hc hd hne heq
  rw [hsymbols]
  refine ⟨fun v hv w hw hne heq => ?_, fun E E' x h h' => h.inj hp hf hapart h', fun x hx => ?_,
    fun b hb => ?_, fun t ht => ?_⟩
  · obtain ⟨d, hd, rfl⟩ := List.mem_map.mp hv
    obtain ⟨d', hd', rfl⟩ := List.mem_map.mp hw
    have hplain := hp.declared f hf
    exact hne (varSymbol_inj (hplain d (List.mem_filter.mp hd).1).1
      (hplain d' (List.mem_filter.mp hd').1).1 heq)
  · rcases hdeclared x hx with ⟨E, hE⟩ | ⟨E, hE⟩ | ⟨c, hc, rfl⟩
    · exact ⟨E, .inl hE⟩
    · exact ⟨E, .inr (.inl hE)⟩
    · exact ⟨.cell c.array c.index, .inr (.inr (.cell hc))⟩
  · obtain ⟨base, n, hn, rfl⟩ := (hbinds b hb).numbered
    exact ⟨base, n, .inr (.inr (.quantified hn hb))⟩
  · refine Term.Clean.imp (fun b hb hmem => ?_) t (fun _ hy => .inl hy) (hclean t ht)
    -- a numbered symbol is none of the named ones, and what a quantifier binds is no cell
    rcases hdeclared b hmem with ⟨E, hE⟩ | ⟨E, hE⟩ | ⟨c, hc, heq⟩
    · exact hE.not_madeAfter hp hb.numbered
    · exact hE.not_madeAfter (hp.declared f hf) hb.numbered
    · exact hb.free c hc heq

/-- The query for `scan` reads a cell and quantifies over all of them. -/
theorem query_symbols_apart_scan : ∃ (query : Query) (s' : Session),
    scanProgram.query scan scanObligation (scanProgram.sessionAfter scanHistory) =
      (.ok query, s') ∧
    query.script.binders = ["i!1"] ∧
    query.script.declared = ["fn.increment", "increment.arg.x", "n", "a!sel", "a!elem!2"] ∧
    (∀ (E E' : Entity) (x : String),
      Denotes scanProgram scan query.symbols.cells query.script.binders E x →
      Denotes scanProgram scan query.symbols.cells query.script.binders E' x → E = E') ∧
    ∀ t ∈ query.script.asserted, t.Clean (fun b => b ∉ query.script.declared) [] := by
  have hok : ((scanProgram.query scan scanObligation
      (scanProgram.sessionAfter scanHistory)).1.toOption.map
      fun query => (query.script.binders, query.script.declared)) =
      some (["i!1"], ["fn.increment", "increment.arg.x", "n", "a!sel", "a!elem!2"]) := by cbv
  obtain ⟨query, s', hrun, hnames⟩ := exists_ok_of_map_toOption hok
  have hobligation : scanObligation.CallsOnly PlainName := by
    intro f hf
    simp only [scanObligation, Pred.calls, Expr.calls, Expr.anyCalls, Bool.or_false, Bool.false_or,
      beq_iff_eq] at hf
    exact hf ▸ increment_plainName
  have hplain : scanProgram.AllPlain := by
    refine ⟨?_, scanProgram_plainNames⟩
    unfold PlainName
    decide
  obtain ⟨-, hinj, -, -, hclean⟩ := query_symbols_apart hplain scanProgram_plainCalls
    scanHistory_plain scan_mem hobligation hrun
  exact ⟨query, s', hrun, congrArg Prod.fst hnames, congrArg Prod.snd hnames, hinj, hclean⟩

/-! ## Names with marks -/

/-- A function with these parameters that promises something of them. -/
def marked (params : List Param) (post : Pred) : FunctionDef where
  name := "marked"
  params := params
  returns := []
  locals := []
  body := .block []
  pre := none
  post := some post

/-- All numbers equal the parameter. -/
def allEqual : Pred :=
  .quantified .universal ⟨"z", .int⟩ (.compare .eq (.var "z") (.var "z!1"))

def capturedParam : FunctionDef := marked [⟨"z!1", .int⟩] allEqual

def reservedParams : FunctionDef :=
  marked [⟨"and", .int⟩, ⟨"and!v", .int⟩] (.compare .eq (.var "and") (.var "and!v"))

/-- With marks in names a quantifier captures a variable, and two variables share a constant. In both
cases an obligation that fails for some values has a query that says it holds. -/
theorem marked_names_clash :
    (∃ query s', (Program.mk [capturedParam] []).query capturedParam allEqual Session.new =
        (.ok query, s') ∧ query.symbols.scalars = [("z!1", "z!1")] ∧
      query.script.binders = ["z!1"] ∧ query.script.Unsat) ∧
    ∃ query s', (Program.mk [reservedParams] []).query reservedParams
        (.compare .eq (.var "and") (.var "and!v")) Session.new = (.ok query, s') ∧
      query.symbols.scalars = [("and", "and!v"), ("and!v", "and!v")] ∧ query.script.Unsat := by
  refine ⟨⟨_, _, by cbv, by cbv, by cbv, fun J hJ => ?_⟩, ⟨_, _, by cbv, by cbv, fun J hJ => ?_⟩⟩
  · have hheld := hJ.2
    simp [Term.Holds, Term.eval, BinOp.apply, Structure.Quantified] at hheld
  · have hheld := hJ.2
    simp [Term.Holds, Term.eval, BinOp.apply] at hheld

end Contracts

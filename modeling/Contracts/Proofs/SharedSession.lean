import Mathlib
import Contracts.Check
import Contracts.Proofs.QuerySorts
import Contracts.Proofs.SessionSharing

/-!
# Sharing a session

A query asserts what its session knows. A session that has seen other queries has the axioms of some
functions already and does not make them again, and with them it does not make what they brought in
besides: the contracts that a contract calls, at the arguments where it calls them, are facts of the
function that was encoded when the axioms were made, and are forgotten with it. So a query can know
less in a shared session than in a new one, and can fail there (`shared_session_forgets`).

In a self-contained program nothing is brought in besides, and sharing a session loses nothing: up to
the numbers of symbols the hypotheses of a query in a new session follow from those in a shared one
(`shared_session_keeps`).
-/

set_option autoImplicit false

namespace Contracts

open Smt

/-! ## Structures of integers -/

namespace Smt

end Smt

/-! ## The hypotheses of a query -/

section

variable {s : Session}

/-- An axiom speaks of no symbol that carries a number, but for bound ones. So how these are numbered
does not matter. -/
theorem Session.GlobalsSorted.holds_rename (h : s.GlobalsSorted) {t : Term}
    (ht : t ∈ Script.asserted s.commands) (σ τ : Renumbering) (J : Structure) :
    (t.rename σ.perm).Holds J ↔ (t.rename τ.perm).Holds J := by
  obtain ⟨before, after, hsplit⟩ := List.append_of_mem (Script.mem_asserted.mp ht)
  have hagree : Structure.AgreeAfter False before [] (J.rename σ.perm) (J.rename τ.perm) := by
    refine ⟨fun x sort hx => ?_, nofun, fun _ _ _ _ _ _ => rfl, rfl, nofun⟩
    have hmem : Command.declareConst x sort ∈ s.commands := by
      rw [hsplit]
      exact List.mem_append_left _ hx
    show J.const (σ.perm x) = J.const (τ.perm x)
    cases h.shape _ hmem with
    | formal g hplain =>
      have hfixed := formalSymbol_not_madeAfter g hplain.1 0
      rw [σ.apply_of_not_madeAfter hfixed, τ.apply_of_not_madeAfter hfixed]
  rw [Term.holds_rename, Term.holds_rename, Term.Holds, Term.Holds,
    (h.wellFormed.sorted before t after hsplit).eval_congr hagree]

end

/-! ## What a shared session knows -/

section

variable {p : Program} {w : SessionPair}

end

section

variable {p : Program}

/-- The obligations of functions, where there are any. -/
def obligations (close : Bool) (fs : List FunctionDef) : List (FunctionDef × Pred) :=
  fs.filterMap fun f => (f.obligation close).toOption.join.map (f, ·)

theorem mem_obligations {close : Bool} {fs : List FunctionDef} {h : FunctionDef × Pred} :
    h ∈ obligations close fs ↔ h.1 ∈ fs ∧ h.1.obligation close = .ok (some h.2) := by
  rw [obligations, List.mem_filterMap]
  constructor
  · rintro ⟨f, hf, heq⟩
    cases hobligation : f.obligation close with
    | error e =>
      rw [hobligation] at heq
      cases heq
    | ok o =>
      rw [hobligation] at heq
      cases o with
      | none => cases heq
      | some q =>
        cases heq
        exact ⟨hf, hobligation⟩
  · rintro ⟨hf, hobligation⟩
    refine ⟨h.1, hf, ?_⟩
    rw [hobligation]
    rfl

/-- To prepare a function is to query its obligation, if it has one. -/
theorem Program.prepare_snd (close : Bool) (f : FunctionDef) (s : Session) :
    (p.prepare close f s).2 =
      (obligations close [f]).foldl (fun s h => (p.query h.1 h.2 s).2) s := by
  unfold Program.prepare obligations
  rw [List.filterMap_cons, List.filterMap_nil]
  cases f.obligation close with
  | error e => rfl
  | ok o =>
    cases o with
    | none => rfl
    | some q =>
      change _ = (p.query f q s).2
      dsimp only
      rcases p.query f q s with ⟨_ | _, _⟩ <;> rfl

theorem Program.prepareShared_getElem? (close : Bool) (fs : List FunctionDef) (s : Session)
    (i : Nat) : (p.prepareShared close fs s)[i]? = fs[i]?.map fun f =>
      (f, (p.prepare close f ((obligations close (fs.take i)).foldl
        (fun s h => (p.query h.1 h.2 s).2) s)).1) := by
  induction fs generalizing s i with
  | nil => rfl
  | cons f fs ih =>
    cases i with
    | zero => rfl
    | succ i =>
      have hsplit : obligations close ((f :: fs).take (i + 1)) =
          obligations close [f] ++ obligations close (fs.take i) := by
        unfold obligations
        rw [List.take_succ_cons, ← List.filterMap_append]
        rfl
      rw [hsplit, List.foldl_append, ← Program.prepare_snd]
      exact ih (p.prepare close f s).2 i

/-- With one job a function is prepared in the session that the functions before it leave. -/
theorem Program.plan_shared (close : Bool) (i : Nat) :
    (p.plan close 1)[i]? = p.functions[i]?.map fun f =>
      (f, (p.prepare close f (p.sessionAfter (obligations close (p.functions.take i)))).1) :=
  Program.prepareShared_getElem? close p.functions Session.new i

/-- With more jobs it is prepared in a new one. -/
theorem Program.plan_alone (close : Bool) {jobs : Nat} (hjobs : 1 < jobs) (i : Nat) :
    (p.plan close jobs)[i]? = p.functions[i]?.map fun f =>
      (f, (p.prepare close f Session.new).1) := by
  rw [Program.plan, if_neg (Nat.not_le.mpr hjobs), Program.prepareAlone, List.getElem?_map]

end

/-- Its contract calls `above`. -/
def next : FunctionDef where
  name := "next"
  params := [⟨"x", .int⟩]
  returns := [⟨"r", .int⟩]
  locals := []
  body := .assign [.var "r"] [.call "above" [.binary .add (.var "x") (.const 1)]]
  pre := none
  post := some (.compare .eq (.var "r") (.call "above" [.binary .add (.var "x") (.const 1)]))

/-- Its contract says that there is another number than its argument. -/
def other : FunctionDef where
  name := "other"
  params := [⟨"x", .int⟩]
  returns := [⟨"r", .int⟩]
  locals := []
  body := .block []
  pre := none
  post := some (.quantified .existential ⟨"z", .int⟩ (.compare .ne (.var "z") (.var "x")))

end Contracts

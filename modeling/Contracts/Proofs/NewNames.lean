import Contracts.Syntax.Names
import Mathlib.Order.Interval.Finset.Nat
import Std.Data.String.ToNat

/-!
# New names

`freshName base avoid` is `base_n` with the least `n` from 1 on that is not in `avoid`. The candidates
are all different, whatever the base ends with, so one more of them than there are different names to
avoid cannot all be taken. The search that tries one candidate after the other ends there, however
far it may go.
-/

set_option autoImplicit false

namespace Contracts

theorem numberedName_injective (base : String) : Function.Injective (numberedName base) := by
  intro m n h
  have h' : (numberedName base m).toList = (numberedName base n).toList := by rw [h]
  simp only [numberedName, String.toList_append, List.append_assoc,
    List.append_cancel_left_eq] at h'
  exact Nat.repr_injective (String.toList_injective h')

/-- Of one more candidates than there are names to avoid, one is left over. -/
theorem exists_numberedName_not_mem (base : String) (avoid : List String) :
    ∃ n, (1 ≤ n ∧ numberedName base n ∉ avoid) ∧ n ≤ avoid.toFinset.card + 1 := by
  by_contra hall
  push Not at hall
  -- otherwise all the candidates, which are different, are among the names to avoid
  have hmaps : ∀ n ∈ Finset.Icc 1 (avoid.toFinset.card + 1),
      numberedName base n ∈ avoid.toFinset := by
    intro n hn
    rw [Finset.mem_Icc] at hn
    by_contra hfree
    have hlarge := hall n ⟨hn.1, fun hmem => hfree (List.mem_toFinset.mpr hmem)⟩
    omega
  have hle := Finset.card_le_card_of_injOn (numberedName base) hmaps
    (numberedName_injective base).injOn
  rw [Nat.card_Icc] at hle
  omega

/-- The numbers of the names that can be taken. -/
def freeNumbers (base : String) (avoid : List String) : Set Nat :=
  { n | 1 ≤ n ∧ numberedName base n ∉ avoid }

section

variable {base : String} {avoid : List String} {n : Nat}

theorem exists_isLeast_freeNumbers (base : String) (avoid : List String) :
    ∃ n, IsLeast (freeNumbers base avoid) n ∧ n ≤ avoid.toFinset.card + 1 := by
  obtain ⟨k, hk, hle⟩ := exists_numberedName_not_mem base avoid
  have hfree : ∃ n, 1 ≤ n ∧ numberedName base n ∉ avoid := ⟨k, hk⟩
  exact ⟨Nat.find hfree, Nat.isLeast_find hfree, (Nat.find_min' hfree hk).trans hle⟩

theorem mem_of_lt_isLeast (h : IsLeast (freeNumbers base avoid) n) {k : Nat} (hk : 1 ≤ k)
    (hlt : k < n) : numberedName base k ∈ avoid := by
  by_contra hfree
  have := h.2 ⟨hk, hfree⟩
  omega

theorem freshName_eq_of_isLeast (h : IsLeast (freeNumbers base avoid) n)
    (hle : n ≤ avoid.length + 1) : freshName base avoid = numberedName base n := by
  -- the definition counts from 0
  have hpos : n - 1 + 1 = n := Nat.sub_add_cancel h.1.1
  have hfind : (List.range (avoid.length + 1)).find?
      (fun k => !avoid.contains (numberedName base (k + 1))) = some (n - 1) := by
    rw [List.find?_range_eq_some, hpos]
    refine ⟨by simpa using h.1.2, List.mem_range.mpr (by omega), fun k hlt => ?_⟩
    simpa using mem_of_lt_isLeast h (k := k + 1) (by omega) (by omega)
  rw [freshName, hfind]
  simp only [hpos]

end

/-- The new name is the one with the least number. -/
theorem exists_freshName_eq (base : String) (avoid : List String) :
    ∃ n, IsLeast (freeNumbers base avoid) n ∧ n ≤ avoid.toFinset.card + 1 ∧
      freshName base avoid = numberedName base n := by
  obtain ⟨n, hleast, hle⟩ := exists_isLeast_freeNumbers base avoid
  have hlength : avoid.toFinset.card ≤ avoid.length := List.toFinset_card_le avoid
  exact ⟨n, hleast, hle, freshName_eq_of_isLeast hleast (by omega)⟩

theorem freshName_not_mem (base : String) (avoid : List String) :
    freshName base avoid ∉ avoid := by
  obtain ⟨n, hleast, -, hname⟩ := exists_freshName_eq base avoid
  rw [hname]
  exact hleast.1.2

-- A base with a number at its end, and a name to avoid that is there twice.
example : freshName "i_1" ["i_1_1", "i_11", "i_1_1", "i_1_3"] = "i_1_2" := by decide

end Contracts

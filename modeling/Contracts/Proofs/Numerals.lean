import Contracts.Smt.Term
import Contracts.Solver.Model
import Mathlib.Tactic.IntervalCases
import Std.Data.String.ToNat

/-!
# Printed integers are read back

A solver writes a negative number as `(- 5)`, and reading it takes blanks, signs and a range of 128
bits into account; printed integers come back unchanged (`modelInt?_intText`).
-/

set_option autoImplicit false

namespace Contracts

theorem isDigit_of_mem_toString {n : Nat} {c : Char} (h : c ∈ (toString n).toList) :
    c.isDigit = true := by
  rw [Nat.toString_eq_ofList_toDigits, String.toList_ofList] at h
  exact Nat.isDigit_of_mem_toDigits (by omega) (by omega) h

namespace Text

theorem isBlank_of_isDigit {c : Char} (h : c.isDigit = true) : isBlank c = false := by
  have hc : 48 ≤ c.toNat ∧ c.toNat ≤ 57 := by
    rw [Char.isDigit, Bool.and_eq_true, decide_eq_true_eq, decide_eq_true_eq] at h
    exact h
  unfold isBlank
  generalize c.toNat = n at hc
  obtain ⟨hlo, hhi⟩ := hc
  interval_cases n <;> rfl

theorem dropWhile_eq_self {p : Char → Bool} {cs : List Char} (h : ∀ c ∈ cs.head?, p c = false) :
    cs.dropWhile p = cs := by
  cases cs with
  | nil => rfl
  | cons c cs => exact List.dropWhile_cons_of_neg (Bool.eq_false_iff.mp (h c rfl))

theorem trim_eq_self {cs : List Char} (hfirst : ∀ c ∈ cs.head?, isBlank c = false)
    (hlast : ∀ c ∈ cs.getLast?, isBlank c = false) : trim cs = cs := by
  rw [trim, trimStart, dropWhile_eq_self hfirst, dropWhileEnd, dropWhile_eq_self,
    List.reverse_reverse]
  rwa [List.head?_reverse]

theorem trim_toString (n : Nat) : trim (toString n).toList = (toString n).toList := by
  refine trim_eq_self (fun c hc => ?_) (fun c hc => ?_)
  · exact isBlank_of_isDigit (isDigit_of_mem_toString (List.mem_of_mem_head? hc))
  · exact isBlank_of_isDigit (isDigit_of_mem_toString (List.mem_of_mem_getLast? hc))

theorem trim_parens (cs : List Char) : trim ('(' :: (cs ++ [')'])) = '(' :: (cs ++ [')']) := by
  refine trim_eq_self ?_ fun c hc => ?_
  · rintro c ⟨⟩
    rfl
  · rw [← List.cons_append, List.getLast?_concat] at hc
    cases hc
    rfl

theorem toString_eq_cons (n : Nat) : ∃ c cs, (toString n).toList = c :: cs ∧ c.isDigit = true := by
  cases h : (toString n).toList with
  | nil =>
    rw [Nat.toString_eq_ofList_toDigits, String.toList_ofList] at h
    exact absurd h Nat.toDigits_ne_nil
  | cons c cs => exact ⟨c, cs, rfl, isDigit_of_mem_toString (h ▸ List.mem_cons_self)⟩

theorem decimal?_toString (n : Nat) : decimal? (toString n).toList = some n := by
  have hall : (toString n).toList.all Char.isDigit = true :=
    List.all_eq_true.mpr fun c hc => isDigit_of_mem_toString hc
  obtain ⟨c, cs, hcons, -⟩ := toString_eq_cons n
  have hvalue : (toString n).toList.foldl (fun n c => n * 10 + digit c) 0 = n := by
    rw [Nat.toString_eq_ofList_toDigits, String.toList_ofList]
    simp only [Nat.mul_comm _ 10]
    exact Nat.ofDigitChars_ten_toDigits
  unfold decimal?
  rw [hall, hvalue, if_neg (by rw [hcons]; exact Bool.false_ne_true)]

theorem integer?_toString (n : Nat) : integer? (toString n).toList = some (n : Int) := by
  obtain ⟨c, cs, hcons, hc⟩ := toString_eq_cons n
  have hdecimal := decimal?_toString n
  rw [hcons] at hdecimal ⊢
  unfold integer?
  split
  · next h =>
    cases h
    cases hc
  · next h =>
    cases h
    cases hc
  · rw [hdecimal]
    rfl

end Text

theorem int128?_toString {n : Nat} (h : (n : Int) < int128Bound) :
    int128? (toString n).toList = some (n : Int) := by
  have hlo : -int128Bound ≤ n := by
    unfold int128Bound
    omega
  rw [int128?, Text.integer?_toString, Option.bind_eq_bind, Option.bind_some, if_pos ⟨hlo, h⟩]

theorem negated?_parens (cs : List Char) : negated? ('(' :: '-' :: (cs ++ [')'])) = some cs := by
  have hstrip : Text.strip? "(-".toList ('(' :: '-' :: (cs ++ [')'])) = some (cs ++ [')']) := rfl
  rw [negated?, hstrip, Option.bind_eq_bind, Option.bind_some, List.reverse_append]
  exact congrArg some (List.reverse_reverse cs)

theorem negated?_toString (n : Nat) : negated? (toString n).toList = none := by
  obtain ⟨c, cs, hcons, hc⟩ := Text.toString_eq_cons n
  have hstrip : Text.strip? "(-".toList (c :: cs) = none := by
    refine if_neg ?_
    rintro rfl
    cases hc
  rw [hcons, negated?, hstrip]
  rfl

theorem modelInt?_numeral {n : Nat} (h : (n : Int) < int128Bound) :
    modelInt? (toString n) = some (n : Int) := by
  simp only [modelInt?, Text.trim_toString, negated?_toString, int128?_toString h]

theorem toList_negation (n : Nat) : (Smt.parens ["-", toString n]).toList =
    '(' :: '-' :: (' ' :: (toString n).toList ++ [')']) := by
  have hparens : Smt.parens ["-", toString n] = "(" ++ ("-" ++ " " ++ toString n) ++ ")" := rfl
  simp only [hparens, String.toList_append]
  rfl

theorem modelInt?_negation {n : Nat} (h : (n : Int) < int128Bound) :
    modelInt? (Smt.parens ["-", toString n]) = some (-(n : Int)) := by
  have hinner : Text.trim (' ' :: (toString n).toList) = (toString n).toList :=
    Text.trim_toString n
  have htrim : Text.trim (Smt.parens ["-", toString n]).toList =
      '(' :: '-' :: (' ' :: (toString n).toList ++ [')']) := by
    rw [toList_negation]
    exact Text.trim_parens ('-' :: ' ' :: (toString n).toList)
  simp only [modelInt?, htrim, negated?_parens, hinner, int128?_toString h, Option.map_some]

/-- A printed integer is read back. -/
theorem modelInt?_intText {n : Int} (hlo : -int128Bound < n) (hhi : n < int128Bound) :
    modelInt? (Smt.intText n) = some n := by
  unfold Smt.intText
  split
  · rw [modelInt?_negation (by omega)]
    exact congrArg some (by omega)
  · next hn =>
    obtain ⟨k, rfl⟩ := Int.eq_ofNat_of_zero_le (Int.not_lt.mp hn)
    exact modelInt?_numeral hhi

end Contracts

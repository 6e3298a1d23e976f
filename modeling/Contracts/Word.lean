import Contracts.Syntax.Basic

/-!
# Checked arithmetic on 64-bit integers

Literals and run-time values are 64-bit. An operation is carried out on the integers and its
result is taken back only if it fits: nothing wraps.
-/

set_option autoImplicit false

namespace Contracts

/-- The 64-bit integer with this value, if there is one. -/
def word? (n : Int) : Option Int64 :=
  if -9223372036854775808 ≤ n ∧ n ≤ 9223372036854775807 then some (Int64.ofInt n) else none

/-- The operation on the integers; division truncates toward zero. -/
def ArithOp.onInt : ArithOp → Int → Int → Int
  | .add, a, b => a + b
  | .sub, a, b => a - b
  | .mul, a, b => a * b
  | .div, a, b => a.tdiv b

/-- The operation on 64-bit integers; none on overflow and for a zero divisor. -/
def ArithOp.onWord? (op : ArithOp) (a b : Int64) : Option Int64 :=
  if op = .div ∧ b = 0 then none else word? (op.onInt a.toInt b.toInt)

/-- Negation of a 64-bit integer; none for the least one. -/
def negWord? (a : Int64) : Option Int64 := word? (-a.toInt)

theorem toInt_of_word? {n : Int} {w : Int64} (h : word? n = some w) : w.toInt = n := by
  unfold word? at h
  split at h
  · next hn =>
    cases h
    exact Int64.toInt_ofInt_of_le (by omega) (by omega)
  · cases h

/-- The 64-bit number of an integer that is one. -/
theorem word?_toInt (v : Int64) : word? v.toInt = some v := by
  unfold word?
  have hlo := v.le_toInt
  have hhi := v.toInt_lt
  rw [if_pos ⟨by omega, by omega⟩, Int64.ofInt_toInt]

end Contracts

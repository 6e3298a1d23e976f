import Contracts.Text

/-!
# Models

A model is the list of its named values, each as the solver wrote it. Of two entries for one name
the first counts. An integer is a numeral or a numeral under a minus sign, `5` or `(- 5)`, in the
range of 128-bit integers.
-/

set_option autoImplicit false

namespace Contracts

/-- A model. -/
structure Model where
  entries : List (String × String)
  deriving DecidableEq, Repr

/-- The number of integers of 128 bits that are not negative. -/
def int128Bound : Int := 170141183460469231731687303715884105728

/-- An integer in the range of 128 bits. -/
def int128? (cs : List Char) : Option Int := do
  let n ← Text.integer? cs
  if -int128Bound ≤ n ∧ n < int128Bound then some n else none

/-- The inside of a negation `(- …)`. -/
def negated? (cs : List Char) : Option (List Char) := do
  let rest ← Text.strip? "(-".toList cs
  match rest.reverse with
  | ')' :: inner => some inner.reverse
  | _ => none

/-- The integer that a value denotes. -/
def modelInt? (text : String) : Option Int :=
  let cs := Text.trim text.toList
  match negated? cs with
  | some inner => (int128? (Text.trim inner)).map (- ·)
  | none => int128? cs

namespace Model

/-- The value of a name. -/
def get? (m : Model) (name : String) : Option String := m.entries.lookup name

/-- The integer value of a name. -/
def getInt? (m : Model) (name : String) : Option Int := m.get? name >>= modelInt?

end Model

end Contracts

import Contracts.Json.Basic

/-!
# Number literals

A literal is read as significant digits times a power of ten. The first digits are kept as long as
they fit in 64 bits. The only use of the value of a number that is no integer is whether it lies
in the range of double precision; `exceedsDouble` decides that with the roundings of one
conversion and one multiplication, in exact arithmetic.
-/

set_option autoImplicit false

namespace Contracts.Json

/-- The value of a decimal digit. -/
def digitValue (c : Char) : Nat := c.toNat - '0'.toNat

/-- The number that a list of digits denotes. -/
def digitsValue (cs : List Char) : Nat := cs.foldl (fun n c => n * 10 + digitValue c) 0

/-- The nearest number with at most 53 significant bits; a tie goes to the even one. -/
def roundDouble (n : Nat) : Nat :=
  let excess := n.log2 + 1 - 53
  let unit := Nat.pow 2 excess
  let quotient := n / unit
  let rest := n % unit
  let half := unit / 2
  if excess = 0 then n
  else if half < rest ∨ (rest = half ∧ quotient % 2 = 1) then (quotient + 1) * unit
  else quotient * unit

/-- Whether `significand * 10 ^ exponent` is beyond the range of double precision. -/
def exceedsDouble (significand : Nat) (exponent : Int) : Bool :=
  if significand = 0 ∨ exponent < 0 then false
  else if 308 < exponent then true
  else decide (Nat.pow 2 1024 ≤
    roundDouble (roundDouble significand * roundDouble (Nat.pow 10 exponent.toNat)))

/-- The most that the significant digits may denote: what fits in 64 bits. -/
def significandLimit : Nat := 18446744073709551615

/-- Digits before the point: those that fit go to the significand, the others count as powers
of ten. -/
def takeWhole : List Char → Nat → Nat × Nat
  | [], n => (n, 0)
  | c :: cs, n =>
    if n * 10 + digitValue c ≤ significandLimit then takeWhole cs (n * 10 + digitValue c)
    else (n, cs.length + 1)

/-- Digits after the point: those that fit go to the significand, each for one power of ten
less; the others are dropped. -/
def takeFraction : List Char → Nat → Nat × Nat
  | [], n => (n, 0)
  | c :: cs, n =>
    if n * 10 + digitValue c ≤ significandLimit then
      let (m, k) := takeFraction cs (n * 10 + digitValue c)
      (m, k + 1)
    else (n, 0)

/-- The parts of a number literal. -/
structure Literal where
  negative : Bool
  whole : List Char
  fraction : Option (List Char)
  /-- Sign (true for minus) and digits of the exponent. -/
  exponent : Option (Bool × List Char)

namespace Literal

/-- The sign in front of a literal. -/
def splitMinus : List Char → Bool × List Char
  | '-' :: cs => (true, cs)
  | cs => (false, cs)

/-- The fraction at the head of the text, if there is one; it has at least one digit. -/
def splitFraction : List Char → Option (Option (List Char) × List Char)
  | '.' :: cs =>
    let digits := cs.takeWhile Char.isDigit
    if digits.isEmpty then none else some (some digits, cs.dropWhile Char.isDigit)
  | cs => some (none, cs)

/-- The sign of an exponent. -/
def splitExponentSign : List Char → Bool × List Char
  | '-' :: cs => (true, cs)
  | '+' :: cs => (false, cs)
  | cs => (false, cs)

/-- The exponent, which ends the literal, if there is one; it has at least one digit. -/
def readExponent (cs : List Char) : Option (Option (Bool × List Char)) :=
  match cs with
  | [] => some none
  | c :: cs =>
    if c = 'e' ∨ c = 'E' then
      let (negative, digits) := splitExponentSign cs
      if digits.isEmpty || !digits.all Char.isDigit then none else some (some (negative, digits))
    else none

/-- Reads a whole literal. Before the point stands a zero, or digits that start with another. -/
def read? (cs : List Char) : Option Literal := do
  let (negative, cs) := splitMinus cs
  let whole := cs.takeWhile Char.isDigit
  if whole.isEmpty || (whole.head? == some '0' && 1 < whole.length) then none
  else
    let (fraction, cs) ← splitFraction (cs.dropWhile Char.isDigit)
    let exponent ← readExponent cs
    return { negative, whole, fraction, exponent }

/-- Whether the literal is beyond the range of double precision. -/
def isTooLarge (l : Literal) : Bool :=
  let (n, up) := takeWhole l.whole 0
  let (n, down) := takeFraction (l.fraction.getD []) n
  let scale := (up : Int) - down
  match l.exponent with
  | none => exceedsDouble n scale
  | some (negative, digits) =>
    let e : Int := digitsValue digits
    if negative then exceedsDouble n (scale - e) else exceedsDouble n (scale + e)

/-- The value of a literal. -/
def toJson (l : Literal) : Json :=
  if l.isTooLarge then .unreadable
  else if l.fraction.isSome || l.exponent.isSome then .fraction
  else
    let n := digitsValue l.whole
    if !l.negative then .int n else if n = 0 then .fraction else .int (-n)

end Literal

end Contracts.Json

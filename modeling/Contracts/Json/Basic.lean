/-!
# JSON values

Programs, requests and reports are JSON. The format has integers only; any other number is
recognised so that it can be skipped or refused, and carries no value. The same holds of what
cannot be represented at all (`unreadable`): a string with an unpaired surrogate escape, an object
with such a key, a number beyond the range of double precision. A reader that has no use for a
value can step over it, and one that wants it refuses.

An object is the list of its entries as written: the order stays, and so do repetitions, because
a repeated field is an error for the reader of a record.
-/

set_option autoImplicit false

namespace Contracts

/-- A JSON value. -/
inductive Json where
  | null
  | bool (value : Bool)
  /-- An integer literal; negative zero is not one. -/
  | int (value : Int)
  /-- A number with a fraction or an exponent, or negative zero. -/
  | fraction
  /-- Something well-formed that stands for no value. -/
  | unreadable
  | string (value : String)
  | array (items : List Json)
  | object (entries : List (String × Json))

namespace Json

instance : Inhabited Json := ⟨.null⟩

mutual

/-- Levels of nested arrays and objects. -/
def depth : Json → Nat
  | .array items => 1 + depthItems items
  | .object entries => 1 + depthEntries entries
  | _ => 0

def depthItems : List Json → Nat
  | [] => 0
  | j :: rest => max j.depth (depthItems rest)

def depthEntries : List (String × Json) → Nat
  | [] => 0
  | (_, j) :: rest => max j.depth (depthEntries rest)

end

mutual

/-- Whether every part of a value can be represented. -/
def isReadable : Json → Bool
  | .unreadable => false
  | .array items => readableItems items
  | .object entries => readableEntries entries
  | _ => true

def readableItems : List Json → Bool
  | [] => true
  | j :: rest => j.isReadable && readableItems rest

def readableEntries : List (String × Json) → Bool
  | [] => true
  | (_, j) :: rest => j.isReadable && readableEntries rest

end

/-- The first value of a field of an object. -/
def get? (j : Json) (name : String) : Option Json :=
  match j with
  | .object entries => entries.lookup name
  | _ => none

end Json

end Contracts

import Contracts.Syntax.Basic
import Std.Data.ExtTreeMap

/-!
# Values and states

A variable holds a 64-bit integer or an array. An array is a finite map from indices to values;
an index that was never written reads as zero. A state maps names to values. Both are maps up to
what they hold, so two states are equal when they give every name the same value.
-/

set_option autoImplicit false

namespace Contracts

/-- The written cells of an array. -/
abbrev Cells := Std.ExtTreeMap Int64 Int64

namespace Cells

/-- The value of a cell. -/
def read (c : Cells) (i : Int64) : Int64 := c.getD i 0

/-- The array with one cell written. -/
def write (c : Cells) (i v : Int64) : Cells := c.insert i v

/-- One more than the last written index, and zero if nothing was written. -/
def length (c : Cells) : Int64 :=
  match c.maxKey? with
  | some last => last + 1
  | none => 0

end Cells

/-- What a variable holds. -/
inductive Value where
  | int (value : Int64)
  | array (cells : Cells)

instance : Inhabited Value := ⟨.int 0⟩

/-- The value of a variable before anything is assigned to it. -/
def VarType.initial : VarType → Value
  | .int => .int 0
  | .array => .array ∅

/-- The values of the variables. -/
abbrev State := Std.ExtTreeMap String Value

namespace State

/-- The array of a name, if it holds one. -/
def array? (s : State) (name : String) : Option Cells :=
  match s[name]? with
  | some (.array c) => some c
  | _ => none

/-- The state with these names and values; of two entries for one name the last counts. -/
def ofPairs (pairs : List (String × Value)) : State :=
  pairs.foldl (fun s (x, v) => s.insert x v) ∅

/-- The state in which a function starts: each variable has its argument or its initial value. -/
def start (f : FunctionDef) (args : State) : State :=
  ofPairs (f.decls.map fun p => (p.name, args[p.name]?.getD p.type.initial))

end State

end Contracts

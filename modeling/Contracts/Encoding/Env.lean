import Contracts.Smt.Term

/-!
# Symbols and environments

A program variable becomes a constant of its own name, unless that is a word of the query language.
An environment says what the names of a program stand for at some place, and which symbols are
bound by quantifiers there.
-/

set_option autoImplicit false

namespace Contracts

open Smt

/-- Words that are no constant names in a query. -/
def reservedWords : List String :=
  ["_", "!", "as", "let", "exists", "forall", "match", "par", "and", "or", "not", "xor", "ite",
    "true", "false", "distinct", "div", "mod", "abs", "select", "store", "assert", "Int", "Bool",
    "Array"]

/-- The constant of a program variable. -/
def varSymbol (name : String) : String :=
  if reservedWords.contains name then name ++ "!v" else name

/-- The uninterpreted function of a called name. -/
def fnSymbol (name : String) : String := "fn." ++ name

/-- What a name stands for: a term, or the array under whose name its cells are known. -/
inductive Meaning where
  | scalar (term : Term)
  | array (name : String)

/-- The meanings of the names in scope, the innermost first, and the bound symbols. -/
structure Env where
  meanings : List (String × Meaning)
  bound : List String

namespace Env

/-- The environment that knows nothing. -/
def empty : Env := ⟨[], []⟩

/-- The innermost meaning of a name. -/
def lookup? (env : Env) (name : String) : Option Meaning := env.meanings.lookup name

/-- One more name in scope. -/
def bind (env : Env) (name : String) (m : Meaning) : Env :=
  { env with meanings := (name, m) :: env.meanings }

/-- Forgets the names and keeps the bound symbols. -/
def closed (env : Env) : Env := { env with meanings := [] }

/-- A quantified variable, which stands for a bound symbol. -/
def bindBound (env : Env) (name symbol : String) : Env :=
  { meanings := (name, .scalar (.const symbol)) :: env.meanings, bound := symbol :: env.bound }

/-- The meaning of a declared variable. -/
def declared (p : Param) : Meaning :=
  match p.type with
  | .int => .scalar (.const (varSymbol p.name))
  | .array => .array p.name

/-- The variables of a function; of two declarations of one name the last counts. -/
def ofFunction (f : FunctionDef) : Env :=
  f.decls.foldl (fun env p => env.bind p.name (declared p)) empty

end Env

end Contracts

import Contracts.Proofs.SimplifyLaws
import Mathlib.Algebra.Ring.Int.Defs

/-!
# Meaning in a many-sorted logic

There are two sorts, numbers and arrays. A name is a scalar where a number is needed and an array
where a cell is read, and an assignment gives it a value for each of the two, so a name may be used
in both ways. The same holds of arguments: the signature says which parameters of a function or of a
formula are arrays. For these the array of a name is passed, for all others a number.

An expression is a number, so names are the only terms for arrays. A call is well sorted if it has
names where the function takes arrays (`Signature.Admits`). Nothing is asked of calls of functions
that take numbers only.
-/

set_option autoImplicit false

namespace Contracts

/-! ## Signatures and assignments -/

/-- The sorts of the parameters of functions and formulas. -/
structure Signature where
  function : String → Nat → VarType
  formula : String → Nat → VarType

/-- Arguments of a function that are names wherever an array is taken. -/
def Signature.Admits (S : Signature) (f : String) (args : List Expr) : Prop :=
  ∀ i e, args[i]? = some e → S.function f i = .array → ∃ x, e = .var x

/-- What names stand for, as scalars and as arrays. -/
structure Assignment (α : Type) where
  scalar : String → Int
  array : String → α

/-- The assignment with another number for a scalar. -/
def Assignment.setScalar {α : Type} (σ : Assignment α) (x : String) (n : Int) : Assignment α :=
  { σ with scalar := Function.update σ.scalar x n }

/-- An argument for a parameter of the sort: the array of a name, or a number. -/
def Expr.sortedDatum {α : Type} (type : VarType) (e : Expr) (σ : Assignment α) (value : Int) :
    Datum α :=
  match type, e with
  | .array, .var x => .array (σ.array x)
  | _, _ => .int value

/-! ## Values and truth -/

mutual

/-- The value of an expression. -/
noncomputable def Expr.sortedValue {α : Type} (M : Interpretation α) (S : Signature) :
    Expr → Assignment α → Int
  | .const n, _ => n.toInt
  | .var x, σ => σ.scalar x
  | .neg e, σ => -e.sortedValue M S σ
  | .binary op a b, σ => M.arith op (a.sortedValue M S σ) (b.sortedValue M S σ)
  | .read a i, σ => M.cell (σ.array a) (i.sortedValue M S σ)
  | .call f args, σ => M.call f (Expr.sortedData M S (S.function f) args σ)
  | .cond p a b, σ =>
    select (p.SortedHolds M S σ) (a.sortedValue M S σ) (b.sortedValue M S σ)

/-- What arguments are for parameters of the sorts. -/
noncomputable def Expr.sortedData {α : Type} (M : Interpretation α) (S : Signature) :
    (Nat → VarType) → List Expr → Assignment α → List (Datum α)
  | _, [], _ => []
  | types, e :: es, σ =>
    e.sortedDatum (types 0) σ (e.sortedValue M S σ) ::
      Expr.sortedData M S (fun i => types (i + 1)) es σ

/-- Whether a predicate is true. -/
noncomputable def Pred.SortedHolds {α : Type} (M : Interpretation α) (S : Signature) :
    Pred → Assignment α → Prop
  | .bool b, _ => b = true
  | .compare op a b, σ => op.holds (a.sortedValue M S σ) (b.sortedValue M S σ) = true
  | .not p, σ => ¬p.SortedHolds M S σ
  | .and p q, σ => p.SortedHolds M S σ ∧ q.SortedHolds M S σ
  | .or p q, σ => p.SortedHolds M S σ ∨ q.SortedHolds M S σ
  | .implies p q, σ => p.SortedHolds M S σ → q.SortedHolds M S σ
  | .paren p, σ => p.SortedHolds M S σ
  | .quantified .universal x p, σ => ∀ n : Int, p.SortedHolds M S (σ.setScalar x.name n)
  | .quantified .existential x p, σ => ∃ n : Int, p.SortedHolds M S (σ.setScalar x.name n)
  | .formula f args, σ => M.formula f (Expr.sortedData M S (S.formula f) args σ)

end

/-! ## Simplification -/

section

variable {α : Type} (M : Interpretation α) (S : Signature) (σ : Assignment α)

/-- What expressions and predicates mean under an assignment. -/
noncomputable def Signature.denotation : Denotation where
  value e := e.sortedValue M S σ
  Holds p := p.SortedHolds M S σ

theorem Signature.regular : (S.denotation M σ).Regular M := by
  constructor <;> intros <;>
    simp only [Signature.denotation, Expr.sortedValue, Pred.SortedHolds]

variable {S}

theorem Expr.sortedData_simplify {es : List Expr} :
    ∀ {types : Nat → VarType}, (∀ i e, es[i]? = some e → types i = .array → ∃ x, e = .var x) →
      (∀ e ∈ es, e.simplify.sortedValue M S σ = e.sortedValue M S σ) →
      Expr.sortedData M S types (Expr.simplifyList es) σ = Expr.sortedData M S types es σ := by
  induction es with
  | nil =>
    intro types _ _
    rw [Expr.simplifyList]
  | cons e es ih =>
    intro types hnames hes
    obtain ⟨he, hes⟩ := List.forall_mem_cons.mp hes
    rw [Expr.simplifyList, Expr.sortedData, Expr.sortedData,
      ih (fun i e' hi htype => hnames (i + 1) e' hi htype) hes]
    congr 1
    cases htype : types 0 with
    | int => exact congrArg Datum.int he
    | array =>
      -- an array is passed by name, and a name is simplified already
      obtain ⟨x, rfl⟩ := hnames 0 e rfl htype
      rw [Expr.simplify]

theorem Signature.keepsCalls : (S.denotation M σ).KeepsCalls S.Admits where
  read a i j hij := by
    simp only [Signature.denotation, Expr.sortedValue] at hij ⊢
    rw [hij]
  call f args hargs hvalues := by
    simp only [Signature.denotation, Expr.sortedValue] at hvalues ⊢
    rw [Expr.sortedData_simplify M σ hargs hvalues]

end

/-- **Simplification keeps the logical meaning.** Take any numbers for the scalars, any arrays with
any cells, any functions and formulas of any sorts, and any quotients by zero; all other quotients
are truncated toward zero. If the functions take numbers, then every expression has the same value
and every predicate the same truth before and after simplification. If some take arrays, this holds
of those in which an array is passed by name. -/
theorem simplify_keeps_meaning {α : Type} (M : Interpretation α) (S : Signature)
    (σ : Assignment α) :
    ((∀ f i, S.function f i = .int) →
      (∀ e : Expr, e.simplify.sortedValue M S σ = e.sortedValue M S σ) ∧
        ∀ p : Pred, p.simplify.SortedHolds M S σ ↔ p.SortedHolds M S σ) ∧
    (∀ e : Expr, e.EveryCall S.Admits → e.simplify.sortedValue M S σ = e.sortedValue M S σ) ∧
    ∀ p : Pred, p.EveryCall S.Admits →
      (p.simplify.SortedHolds M S σ ↔ p.SortedHolds M S σ) := by
  have hvalue : ∀ e : Expr, e.EveryCall S.Admits →
      e.simplify.sortedValue M S σ = e.sortedValue M S σ := fun e he =>
    (S.regular M σ).value_simplify (Signature.keepsCalls M σ) he
  have hholds : ∀ p : Pred, p.EveryCall S.Admits →
      (p.simplify.SortedHolds M S σ ↔ p.SortedHolds M S σ) := fun p hp =>
    (S.regular M σ).holds_simplify (Signature.keepsCalls M σ) hp
  refine ⟨fun hnumbers => ?_, hvalue, hholds⟩
  have hadmits : ∀ f args, S.Admits f args := by
    intro f args i e _ htype
    rw [hnumbers f i] at htype
    cases htype
  exact ⟨fun e => hvalue e (Expr.everyCall_of_forall hadmits e),
    fun p => hholds p (Pred.everyCall_of_forall hadmits p)⟩

/-! ### A name for two things -/

/-- A signature in which `length` takes an array and everything else takes numbers. -/
def lengthSignature : Signature where
  function f _ := if f = "length" then .array else .int
  formula _ _ := .int

/-- The same without arrays. -/
def numberSignature : Signature where
  function _ _ := .int
  formula _ _ := .int

/-- The greatest literal and one. -/
def pastGreatest : Expr := .binary .add (.const 9223372036854775807) (.const 1)

/-- A predicate about `a` as a scalar and as an array. It has a sum that overflows, a quotient by
zero, a conditional without a choice, and a quantifier with neutral operations in its body. -/
def twoUses : Pred :=
  .and
    (.not (.not (.compare .lt (.call "length" [.var "a"])
      (.cond (.compare .eq (.var "a") (.read "a" (.binary .add (.var "a") (.const 0))))
        pastGreatest pastGreatest))))
    (.implies (.compare .ge (.binary .div (.var "a") (.const 0)) (.neg (.neg (.var "a"))))
      (.quantified .existential (.scalar "k")
        (.compare .eq (.binary .mul (.var "k") (.const 1)) (.var "a"))))

/-- What is left of it. -/
def twoUsesSimplified : Pred :=
  .and
    (.compare .lt (.call "length" [.var "a"]) pastGreatest)
    (.implies (.compare .ge (.binary .div (.var "a") (.const 0)) (.var "a"))
      (.quantified .existential (.scalar "k")
        (.compare .eq (.binary .mul (.var "k") (.const 1)) (.var "a"))))

/-- Arrays are functions on the integers; their length is their first cell. -/
def firstCells : Interpretation (Int → Int) where
  cell a i := a i
  length a := a 0
  fn _ args := (args.map Datum.toInt).sum
  formula _ _ := True
  zeroQuot n := n + 1

/-- The scalar `a` is `7` and its cells are the squares. -/
def sevenAndSquares : Assignment (Int → Int) where
  scalar _ := 7
  array _ i := i * i

/-- Whether `length` takes the array or the number that `a` stands for, the predicate is true before
and after simplification. -/
theorem simplify_keeps_meaning_twoUses :
    twoUses.simplify = twoUsesSimplified ∧
    twoUses.EveryCall lengthSignature.Admits ∧
    twoUses.SortedHolds firstCells lengthSignature sevenAndSquares ∧
    twoUses.simplify.SortedHolds firstCells lengthSignature sevenAndSquares ∧
    twoUses.SortedHolds firstCells numberSignature sevenAndSquares ∧
    twoUses.simplify.SortedHolds firstCells numberSignature sevenAndSquares := by
  have hadmits : twoUses.EveryCall lengthSignature.Admits := by
    simp only [twoUses, pastGreatest, Pred.EveryCall, Expr.EveryCall, Expr.EveryCallIn, and_true]
    intro i e he _
    cases List.mem_singleton.mp (List.mem_of_getElem? he)
    exact ⟨"a", rfl⟩
  have harray : twoUses.SortedHolds firstCells lengthSignature sevenAndSquares := by
    simp [twoUses, pastGreatest, Pred.SortedHolds, Expr.sortedValue, Expr.sortedData,
      Expr.sortedDatum, lengthSignature, firstCells, sevenAndSquares, Interpretation.arith,
      ArithOp.onInt, Interpretation.call, CmpOp.holds, Assignment.setScalar, Param.scalar]
  have hnumber : twoUses.SortedHolds firstCells numberSignature sevenAndSquares := by
    simp [twoUses, pastGreatest, Pred.SortedHolds, Expr.sortedValue, Expr.sortedData,
      Expr.sortedDatum, numberSignature, firstCells, sevenAndSquares, Interpretation.arith,
      ArithOp.onInt, Interpretation.call, CmpOp.holds, Assignment.setScalar, Param.scalar]
  obtain ⟨-, -, hpred⟩ := simplify_keeps_meaning firstCells lengthSignature sevenAndSquares
  obtain ⟨hall, -⟩ := simplify_keeps_meaning firstCells numberSignature sevenAndSquares
  exact ⟨by decide, hadmits, harray, (hpred twoUses hadmits).mpr harray, hnumber,
    ((hall fun _ _ => rfl).2 twoUses).mpr hnumber⟩

end Contracts

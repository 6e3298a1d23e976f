import Contracts.Syntax.Names

/-!
# Capture-avoiding substitution

* `Pred.rename x y` turns the free variable `x` into the variable `y`;
* `Pred.subst m` replaces several variables at once by expressions;
* `Pred.substCell w` replaces the reads of one array cell by an expression. A read is a read of
  that cell when its index is the *same expression*: `a[i + 1]` and `a[1 + i]` are different here.

Only variables are replaced, never the name of an array. A binder that occurs free in what is put
in is renamed first, so nothing is captured. The body that the substitution then goes into is a
renamed copy and not a part of the predicate; it ends because a renaming keeps the size, which
`Pred.renameSized` carries along with its result.
-/

set_option autoImplicit false

namespace Contracts

theorem Expr.size_pos (e : Expr) : 0 < e.size := by
  cases e <;> simp only [Expr.size] <;> omega

theorem Pred.size_pos (p : Pred) : 0 < p.size := by
  cases p <;> simp only [Pred.size] <;> omega

/-! ## Renaming one variable -/

mutual

/-- The renamed expression, with the fact that it has the same size. -/
def Expr.renameSized (x y : String) (e : Expr) : { r : Expr // r.size = e.size } :=
  match e with
  | .const n => ⟨.const n, rfl⟩
  | .var z => ⟨.var (if z = x then y else z), by simp only [Expr.size]⟩
  | .neg a =>
    let a' := a.renameSized x y
    ⟨.neg a'.1, by simp only [Expr.size, a'.2]⟩
  | .binary op a b =>
    let a' := a.renameSized x y
    let b' := b.renameSized x y
    ⟨.binary op a'.1 b'.1, by simp only [Expr.size, a'.2, b'.2]⟩
  | .read a i =>
    let i' := i.renameSized x y
    ⟨.read a i'.1, by simp only [Expr.size, i'.2]⟩
  | .call f args =>
    let args' := Expr.renameListSized x y args
    ⟨.call f args'.1, by simp only [Expr.size, args'.2]⟩
  | .cond p a b =>
    let p' := p.renameSized x y
    let a' := a.renameSized x y
    let b' := b.renameSized x y
    ⟨.cond p'.1 a'.1 b'.1, by simp only [Expr.size, p'.2, a'.2, b'.2]⟩
termination_by 2 * e.size
decreasing_by all_goals simp only [Expr.size]; omega

/-- The renamed argument list, with the fact that it has the same size. -/
def Expr.renameListSized (x y : String) (es : List Expr) :
    { rs : List Expr // Expr.sizes rs = Expr.sizes es } :=
  match es with
  | [] => ⟨[], rfl⟩
  | a :: as =>
    let a' := a.renameSized x y
    let as' := Expr.renameListSized x y as
    ⟨a'.1 :: as'.1, by simp only [Expr.sizes, a'.2, as'.2]⟩
termination_by 2 * Expr.sizes es + 1
decreasing_by
  all_goals
    have := a.size_pos
    simp only [Expr.sizes]
    omega

/-- The renamed predicate, with the fact that it has the same size. A binder named `x` ends the
scope of the renaming; a binder named `y` gets a new name first. -/
def Pred.renameSized (x y : String) (p : Pred) : { r : Pred // r.size = p.size } :=
  match p with
  | .bool b => ⟨.bool b, rfl⟩
  | .compare op a b =>
    let a' := a.renameSized x y
    let b' := b.renameSized x y
    ⟨.compare op a'.1 b'.1, by simp only [Pred.size, a'.2, b'.2]⟩
  | .not p =>
    let p' := p.renameSized x y
    ⟨.not p'.1, by simp only [Pred.size, p'.2]⟩
  | .and a b =>
    let a' := a.renameSized x y
    let b' := b.renameSized x y
    ⟨.and a'.1 b'.1, by simp only [Pred.size, a'.2, b'.2]⟩
  | .or a b =>
    let a' := a.renameSized x y
    let b' := b.renameSized x y
    ⟨.or a'.1 b'.1, by simp only [Pred.size, a'.2, b'.2]⟩
  | .implies a b =>
    let a' := a.renameSized x y
    let b' := b.renameSized x y
    ⟨.implies a'.1 b'.1, by simp only [Pred.size, a'.2, b'.2]⟩
  | .paren p =>
    let p' := p.renameSized x y
    ⟨.paren p'.1, by simp only [Pred.size, p'.2]⟩
  | .quantified q z body =>
    if z.name = x then ⟨.quantified q z body, rfl⟩
    else if z.name = y then
      let fresh := freshName z.name (y :: x :: body.free ++ [z.name])
      let inner := body.renameSized z.name fresh
      let body' := inner.1.renameSized x y
      ⟨.quantified q { z with name := fresh } body'.1,
        by simp only [Pred.size, body'.2, inner.2]⟩
    else
      let body' := body.renameSized x y
      ⟨.quantified q z body'.1, by simp only [Pred.size, body'.2]⟩
  | .formula f args =>
    let args' := Expr.renameListSized x y args
    ⟨.formula f args'.1, by simp only [Pred.size, args'.2]⟩
termination_by 2 * p.size
decreasing_by
  all_goals
    simp only [Pred.size]
    first
      | omega
      | (rw [inner.2]; omega)

end

/-- The expression with its free variable `x` turned into `y`. -/
def Expr.rename (x y : String) (e : Expr) : Expr := (e.renameSized x y).1

/-- The predicate with its free variable `x` turned into `y`. -/
def Pred.rename (x y : String) (p : Pred) : Pred := (p.renameSized x y).1

theorem Pred.size_rename (x y : String) (p : Pred) : (p.rename x y).size = p.size :=
  (p.renameSized x y).2

/-! ## Several variables at once -/

/-- What to put in for which variable; the first entry of a name counts. -/
abbrev Bindings := List (String × Expr)

namespace Bindings

/-- The bindings that stay in force under a binder. -/
def without (m : Bindings) (x : String) : Bindings := m.filter fun b => b.1 != x

/-- The bindings of a list of pairs; of two pairs for one name only the last is kept. -/
def ofPairs (pairs : List (String × Expr)) : Bindings :=
  pairs.foldl (fun m b => b :: without m b.1) []

/-- The names free in what is put in. -/
def free (m : Bindings) : List String := m.flatMap fun b => b.2.free

/-- The names that are replaced. -/
def keys (m : Bindings) : List String := m.map fun b => b.1

end Bindings

mutual

/-- Simultaneous substitution in an expression. -/
def Expr.subst (m : Bindings) (e : Expr) : Expr :=
  match e with
  | .const n => .const n
  | .var x => (m.lookup x).getD (.var x)
  | .neg a => .neg (a.subst m)
  | .binary op a b => .binary op (a.subst m) (b.subst m)
  | .read a i => .read a (i.subst m)
  | .call f args => .call f (Expr.substList m args)
  | .cond p a b => .cond (p.subst m) (a.subst m) (b.subst m)
termination_by 2 * e.size
decreasing_by all_goals simp only [Expr.size]; omega

/-- Simultaneous substitution in an argument list. -/
def Expr.substList (m : Bindings) (es : List Expr) : List Expr :=
  match es with
  | [] => []
  | a :: as => a.subst m :: Expr.substList m as
termination_by 2 * Expr.sizes es + 1
decreasing_by
  all_goals
    have := a.size_pos
    simp only [Expr.sizes]
    omega

/-- Simultaneous substitution in a predicate. Under a quantifier the bindings of other names
remain; where none does, the quantified predicate stays as it is. -/
def Pred.subst (m : Bindings) (p : Pred) : Pred :=
  match p with
  | .bool b => .bool b
  | .compare op a b => .compare op (a.subst m) (b.subst m)
  | .not p => .not (p.subst m)
  | .and a b => .and (a.subst m) (b.subst m)
  | .or a b => .or (a.subst m) (b.subst m)
  | .implies a b => .implies (a.subst m) (b.subst m)
  | .paren p => .paren (p.subst m)
  | .quantified q x body =>
    let inner := m.without x.name
    if inner.isEmpty then .quantified q x body
    else if x.name ∈ inner.free then
      let fresh := freshName x.name (inner.free ++ inner.keys ++ body.free ++ [x.name])
      .quantified q { x with name := fresh } ((body.rename x.name fresh).subst inner)
    else .quantified q x (body.subst inner)
  | .formula f args => .formula f (Expr.substList m args)
termination_by 2 * p.size
decreasing_by
  all_goals
    simp only [Pred.size, Pred.size_rename]
    omega

end

/-- The predicate with one variable replaced. -/
def Pred.substVar (x : String) (e : Expr) (p : Pred) : Pred := p.subst [(x, e)]

/-! ## Reads of one cell -/

/-- One cell of an array, by name and index expression, and the expression to read there. -/
structure CellUpdate where
  array : String
  index : Expr
  value : Expr

/-- The names free in the index and in the value. -/
def CellUpdate.free (w : CellUpdate) : List String := w.index.free ++ w.value.free

mutual

/-- Substitution for the reads of one cell in an expression. The index of a read is compared as
written; only the index of another cell is searched for further reads. -/
def Expr.substCell (w : CellUpdate) (e : Expr) : Expr :=
  match e with
  | .const n => .const n
  | .var x => .var x
  | .neg a => .neg (a.substCell w)
  | .binary op a b => .binary op (a.substCell w) (b.substCell w)
  | .read a i =>
    if a = w.array ∧ i = w.index then w.value else .read a (i.substCell w)
  | .call f args => .call f (Expr.substCellList w args)
  | .cond p a b => .cond (p.substCell w) (a.substCell w) (b.substCell w)
termination_by 2 * e.size
decreasing_by all_goals simp only [Expr.size]; omega

/-- Substitution for the reads of one cell in an argument list. -/
def Expr.substCellList (w : CellUpdate) (es : List Expr) : List Expr :=
  match es with
  | [] => []
  | a :: as => a.substCell w :: Expr.substCellList w as
termination_by 2 * Expr.sizes es + 1
decreasing_by
  all_goals
    have := a.size_pos
    simp only [Expr.sizes]
    omega

/-- Substitution for the reads of one cell in a predicate. A binder that occurs in the index or
the value is renamed; a binder with the name of the array changes nothing. -/
def Pred.substCell (w : CellUpdate) (p : Pred) : Pred :=
  match p with
  | .bool b => .bool b
  | .compare op a b => .compare op (a.substCell w) (b.substCell w)
  | .not p => .not (p.substCell w)
  | .and a b => .and (a.substCell w) (b.substCell w)
  | .or a b => .or (a.substCell w) (b.substCell w)
  | .implies a b => .implies (a.substCell w) (b.substCell w)
  | .paren p => .paren (p.substCell w)
  | .quantified q x body =>
    if x.name ∈ w.free then
      let fresh := freshName x.name (w.free ++ [w.array] ++ body.free ++ [x.name])
      .quantified q { x with name := fresh } ((body.rename x.name fresh).substCell w)
    else .quantified q x (body.substCell w)
  | .formula f args => .formula f (Expr.substCellList w args)
termination_by 2 * p.size
decreasing_by
  all_goals
    simp only [Pred.size, Pred.size_rename]
    omega

end

end Contracts

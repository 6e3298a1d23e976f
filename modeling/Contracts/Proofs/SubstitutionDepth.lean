import Contracts.Proofs.LiteralCells

/-!
# How deep a substitution goes

Where a binder is in the way, a substitution goes on in a renamed copy of the body, and the renaming is
a substitution too (`Pred.rename_eq_subst`), with binders of its own in the way. So the recursion
follows neither the predicate nor its parts. `Pred.substWithin` and `Pred.substCellWithin` are this
recursion as it stands, without a reason why it should end: they are given how many calls may be open
at a time, and have no result where that is not enough.

Putting variables in for variables keeps the size (`Pred.size_subst_renaming`). Each call is therefore
for something smaller than the call around it, and as many calls as the size of the predicate are
enough.
-/

set_option autoImplicit false

namespace Contracts

/-! ## A renaming is a substitution -/

theorem Bindings.without_singleton (x z : String) (e : Expr) :
    Bindings.without [(x, e)] z = if z = x then [] else [(x, e)] := by
  by_cases h : z = x
  · simp [Bindings.without, h]
  · simp [Bindings.without, h, Ne.symm h]

/-- The new names of a binder are the same. -/
theorem Bindings.newBinder_singleton {x y z : String} (hz : z ≠ x) (body : Pred) :
    Bindings.newBinder [(x, .var y)] z body = renamedBinder x y z body := by
  unfold Bindings.newBinder renamedBinder
  rw [Bindings.without_singleton, if_neg hz]
  simp [Bindings.free, Bindings.keys, Expr.free]

section

variable {x y : String}

mutual

theorem Expr.rename_eq_subst {e : Expr} : e.rename x y = e.subst [(x, .var y)] := by
  match e with
  | .const n => simp only [Expr.rename_const, Expr.subst]
  | .var z =>
    rw [Expr.rename_var, Expr.subst]
    by_cases hz : z = x
    · simp [hz]
    · have hbeq : (z == x) = false := by simpa using hz
      simp [hz, List.lookup_cons, hbeq]
  | .neg a => rw [Expr.rename_neg, Expr.subst, Expr.rename_eq_subst]
  | .binary op a b =>
    rw [Expr.rename_binary, Expr.subst, Expr.rename_eq_subst (e := a), Expr.rename_eq_subst (e := b)]
  | .read a i => rw [Expr.rename_read, Expr.subst, Expr.rename_eq_subst]
  | .call f args =>
    rw [Expr.rename_call, Expr.subst, Expr.map_rename_eq_substList]
  | .cond p a b =>
    rw [Expr.rename_cond, Expr.subst, Pred.rename_eq_subst, Expr.rename_eq_subst (e := a),
      Expr.rename_eq_subst (e := b)]
termination_by 2 * e.size
decreasing_by all_goals simp only [Expr.size]; omega

theorem Expr.map_rename_eq_substList {es : List Expr} :
    es.map (Expr.rename x y) = Expr.substList [(x, .var y)] es := by
  match es with
  | [] => rw [Expr.substList, List.map_nil]
  | e :: es => rw [Expr.substList, List.map_cons, Expr.rename_eq_subst, Expr.map_rename_eq_substList]
termination_by 2 * Expr.sizes es + 1
decreasing_by
  all_goals
    have := e.size_pos
    simp only [Expr.sizes]
    omega

theorem Pred.rename_eq_subst {p : Pred} : p.rename x y = p.subst [(x, .var y)] := by
  match p with
  | .bool b => simp only [Pred.rename_bool, Pred.subst]
  | .compare op a b =>
    rw [Pred.rename_compare, Pred.subst, Expr.rename_eq_subst (e := a),
      Expr.rename_eq_subst (e := b)]
  | .not p => rw [Pred.rename_not, Pred.subst, Pred.rename_eq_subst]
  | .and p q =>
    rw [Pred.rename_and, Pred.subst, Pred.rename_eq_subst (p := p), Pred.rename_eq_subst (p := q)]
  | .or p q =>
    rw [Pred.rename_or, Pred.subst, Pred.rename_eq_subst (p := p), Pred.rename_eq_subst (p := q)]
  | .implies p q =>
    rw [Pred.rename_implies, Pred.subst, Pred.rename_eq_subst (p := p),
      Pred.rename_eq_subst (p := q)]
  | .paren p => rw [Pred.rename_paren, Pred.subst, Pred.rename_eq_subst]
  | .quantified q z body =>
    rw [Pred.rename_quantified, Pred.subst_quantified, Bindings.without_singleton]
    by_cases hx : z.name = x
    · simp [hx]
    · rw [if_neg hx, if_neg hx]
      by_cases hy : z.name = y
      · -- both go on in the same copy; it is no part of the predicate, so the induction is on the size
        rw [if_pos hy, Bindings.newBinder_singleton hx, Pred.rename_eq_subst]
        simp [Bindings.free, Expr.free, hy]
      · rw [if_neg hy, Pred.rename_eq_subst]
        simp [Bindings.free, Expr.free, hy]
  | .formula f args => rw [Pred.rename_formula, Pred.subst, Expr.map_rename_eq_substList]
termination_by 2 * p.size
decreasing_by
  all_goals
    simp only [Pred.size, Pred.size_rename]
    omega

end

end

/-! ## Renamings keep the size -/

/-- The bindings that put variables in for variables. -/
def Bindings.renaming (names : List (String × String)) : Bindings :=
  names.map fun n => (n.1, .var n.2)

theorem Bindings.without_renaming (names : List (String × String)) (z : String) :
    (Bindings.renaming names).without z = .renaming (names.filter fun n => n.1 != z) := by
  unfold Bindings.without Bindings.renaming
  rw [List.filter_map]
  rfl

theorem Bindings.lookup_renaming (names : List (String × String)) (x : String) :
    (Bindings.renaming names).lookup x = (names.lookup x).map .var := by
  induction names with
  | nil => rfl
  | cons n names ih =>
    unfold Bindings.renaming at ih ⊢
    rw [List.map_cons, List.lookup_cons, List.lookup_cons, ih]
    cases x == n.1 <;> rfl

mutual

theorem Expr.size_subst_renaming (names : List (String × String)) (e : Expr) :
    (e.subst (.renaming names)).size = e.size := by
  match e with
  | .const n => simp only [Expr.subst]
  | .var x =>
    rw [Expr.subst, Bindings.lookup_renaming]
    cases names.lookup x <;> simp [Expr.size]
  | .neg a => simp only [Expr.subst, Expr.size, Expr.size_subst_renaming names a]
  | .binary op a b =>
    simp only [Expr.subst, Expr.size, Expr.size_subst_renaming names a,
      Expr.size_subst_renaming names b]
  | .read a i => simp only [Expr.subst, Expr.size, Expr.size_subst_renaming names i]
  | .call f args => simp only [Expr.subst, Expr.size, Expr.sizes_substList_renaming names args]
  | .cond p a b =>
    simp only [Expr.subst, Expr.size, Pred.size_subst_renaming names p,
      Expr.size_subst_renaming names a, Expr.size_subst_renaming names b]
termination_by 2 * e.size
decreasing_by all_goals simp only [Expr.size]; omega

theorem Expr.sizes_substList_renaming (names : List (String × String)) (es : List Expr) :
    Expr.sizes (Expr.substList (.renaming names) es) = Expr.sizes es := by
  match es with
  | [] => rw [Expr.substList]
  | e :: es =>
    simp only [Expr.substList, Expr.sizes, Expr.size_subst_renaming names e,
      Expr.sizes_substList_renaming names es]
termination_by 2 * Expr.sizes es + 1
decreasing_by
  all_goals
    have := e.size_pos
    simp only [Expr.sizes]
    omega

theorem Pred.size_subst_renaming (names : List (String × String)) (p : Pred) :
    (p.subst (.renaming names)).size = p.size := by
  match p with
  | .bool b => simp only [Pred.subst]
  | .compare op a b =>
    simp only [Pred.subst, Pred.size, Expr.size_subst_renaming names a,
      Expr.size_subst_renaming names b]
  | .not p | .paren p => simp only [Pred.subst, Pred.size, Pred.size_subst_renaming names p]
  | .and p q | .or p q | .implies p q =>
    simp only [Pred.subst, Pred.size, Pred.size_subst_renaming names p,
      Pred.size_subst_renaming names q]
  | .quantified q z body =>
    rw [Pred.subst_quantified, Bindings.without_renaming]
    split
    · rfl
    · split
      · -- the body is renamed first, and that keeps its size
        rw [Pred.size, Pred.size, Pred.size_subst_renaming, Pred.size_rename]
      · rw [Pred.size, Pred.size, Pred.size_subst_renaming]
  | .formula f args =>
    simp only [Pred.subst, Pred.size, Expr.sizes_substList_renaming names args]
termination_by 2 * p.size
decreasing_by
  all_goals
    simp only [Pred.size, Pred.size_rename]
    omega

end

/-! ## The recursion with a limit -/

mutual

/-- Simultaneous substitution in an expression, with at most `depth` calls open at a time. -/
def Expr.substWithin : (depth : Nat) → Bindings → Expr → Option Expr
  | 0, _, _ => none
  | _ + 1, _, .const n => some (.const n)
  | _ + 1, m, .var x => some ((m.lookup x).getD (.var x))
  | n + 1, m, .neg a => .neg <$> a.substWithin n m
  | n + 1, m, .binary op a b => .binary op <$> a.substWithin n m <*> b.substWithin n m
  | n + 1, m, .read a i => .read a <$> i.substWithin n m
  | n + 1, m, .call f args => .call f <$> args.mapM (Expr.substWithin n m)
  | n + 1, m, .cond p a b =>
    .cond <$> p.substWithin n m <*> a.substWithin n m <*> b.substWithin n m

/-- The same in a predicate. A binder that is in the way is renamed by the same recursion. -/
def Pred.substWithin : (depth : Nat) → Bindings → Pred → Option Pred
  | 0, _, _ => none
  | _ + 1, _, .bool b => some (.bool b)
  | n + 1, m, .compare op a b => .compare op <$> a.substWithin n m <*> b.substWithin n m
  | n + 1, m, .not p => .not <$> p.substWithin n m
  | n + 1, m, .and p q => .and <$> p.substWithin n m <*> q.substWithin n m
  | n + 1, m, .or p q => .or <$> p.substWithin n m <*> q.substWithin n m
  | n + 1, m, .implies p q => .implies <$> p.substWithin n m <*> q.substWithin n m
  | n + 1, m, .paren p => .paren <$> p.substWithin n m
  | n + 1, m, .quantified q x body =>
    let inner := m.without x.name
    if inner.isEmpty then some (.quantified q x body)
    else if x.name ∈ inner.free then do
      let fresh := m.newBinder x.name body
      let renamed ← body.substWithin n [(x.name, .var fresh)]
      .quantified q { x with name := fresh } <$> renamed.substWithin n inner
    else .quantified q x <$> body.substWithin n inner
  | n + 1, m, .formula f args => .formula f <$> args.mapM (Expr.substWithin n m)

end

mutual

/-- Substitution for the reads of one cell in an expression, with at most `depth` calls open at a
time. -/
def Expr.substCellWithin : (depth : Nat) → CellUpdate → Expr → Option Expr
  | 0, _, _ => none
  | _ + 1, _, .const n => some (.const n)
  | _ + 1, _, .var x => some (.var x)
  | n + 1, w, .neg a => .neg <$> a.substCellWithin n w
  | n + 1, w, .binary op a b => .binary op <$> a.substCellWithin n w <*> b.substCellWithin n w
  | n + 1, w, .read a i =>
    if a = w.array ∧ i = w.index then some w.value else .read a <$> i.substCellWithin n w
  | n + 1, w, .call f args => .call f <$> args.mapM (Expr.substCellWithin n w)
  | n + 1, w, .cond p a b =>
    .cond <$> p.substCellWithin n w <*> a.substCellWithin n w <*> b.substCellWithin n w

/-- The same in a predicate. A binder that is in the way is renamed by a substitution, for which the
same limit holds. -/
def Pred.substCellWithin : (depth : Nat) → CellUpdate → Pred → Option Pred
  | 0, _, _ => none
  | _ + 1, _, .bool b => some (.bool b)
  | n + 1, w, .compare op a b =>
    .compare op <$> a.substCellWithin n w <*> b.substCellWithin n w
  | n + 1, w, .not p => .not <$> p.substCellWithin n w
  | n + 1, w, .and p q => .and <$> p.substCellWithin n w <*> q.substCellWithin n w
  | n + 1, w, .or p q => .or <$> p.substCellWithin n w <*> q.substCellWithin n w
  | n + 1, w, .implies p q => .implies <$> p.substCellWithin n w <*> q.substCellWithin n w
  | n + 1, w, .paren p => .paren <$> p.substCellWithin n w
  | n + 1, w, .quantified q x body =>
    if x.name ∈ w.free then do
      let fresh := w.newBinder x.name body
      let renamed ← body.substWithin n [(x.name, .var fresh)]
      .quantified q { x with name := fresh } <$> renamed.substCellWithin n w
    else .quantified q x <$> body.substCellWithin n w
  | n + 1, w, .formula f args => .formula f <$> args.mapM (Expr.substCellWithin n w)

end

/-! ## As many calls as the size are enough -/

/-- What works for expressions up to a size works for lists of that size. -/
theorem Expr.mapM_of_sizes_le {f : Expr → Option Expr} {g : Expr → Expr} {n : Nat}
    (hf : ∀ e : Expr, e.size ≤ n → f e = some (g e)) {es : List Expr} (h : Expr.sizes es ≤ n) :
    es.mapM f = some (es.map g) := by
  induction es with
  | nil => rfl
  | cons e es ih =>
    rw [Expr.sizes] at h
    rw [List.mapM_cons, hf e (by omega), ih (by omega)]
    rfl

mutual

/-- A limit from the size on is enough. The induction is on the limit: the calls under a binder that is
in the way are for a copy of the body. -/
theorem Expr.substWithin_of_size_le (n : Nat) (m : Bindings) (e : Expr) (h : e.size ≤ n) :
    e.substWithin n m = some (e.subst m) := by
  match n, e with
  | 0, e => exact absurd e.size_pos (by omega)
  | n + 1, .const k => rw [Expr.substWithin, Expr.subst]
  | n + 1, .var x => rw [Expr.substWithin, Expr.subst]
  | n + 1, .neg a =>
    rw [Expr.size] at h
    rw [Expr.substWithin, Expr.subst, Expr.substWithin_of_size_le n m a (by omega)]
    rfl
  | n + 1, .binary op a b =>
    rw [Expr.size] at h
    rw [Expr.substWithin, Expr.subst, Expr.substWithin_of_size_le n m a (by omega),
      Expr.substWithin_of_size_le n m b (by omega)]
    rfl
  | n + 1, .read a i =>
    rw [Expr.size] at h
    rw [Expr.substWithin, Expr.subst, Expr.substWithin_of_size_le n m i (by omega)]
    rfl
  | n + 1, .call f args =>
    rw [Expr.size] at h
    rw [Expr.substWithin, Expr.subst, Expr.substList_eq_map,
      Expr.mapM_of_sizes_le (Expr.substWithin_of_size_le n m) (by omega)]
    rfl
  | n + 1, .cond p a b =>
    rw [Expr.size] at h
    rw [Expr.substWithin, Expr.subst, Pred.substWithin_of_size_le n m p (by omega),
      Expr.substWithin_of_size_le n m a (by omega), Expr.substWithin_of_size_le n m b (by omega)]
    rfl

theorem Pred.substWithin_of_size_le (n : Nat) (m : Bindings) (p : Pred) (h : p.size ≤ n) :
    p.substWithin n m = some (p.subst m) := by
  match n, p with
  | 0, p => exact absurd p.size_pos (by omega)
  | n + 1, .bool b => rw [Pred.substWithin, Pred.subst]
  | n + 1, .compare op a b =>
    rw [Pred.size] at h
    rw [Pred.substWithin, Pred.subst, Expr.substWithin_of_size_le n m a (by omega),
      Expr.substWithin_of_size_le n m b (by omega)]
    rfl
  | n + 1, .not p | n + 1, .paren p =>
    rw [Pred.size] at h
    rw [Pred.substWithin, Pred.subst, Pred.substWithin_of_size_le n m p (by omega)]
    rfl
  | n + 1, .and p q | n + 1, .or p q | n + 1, .implies p q =>
    rw [Pred.size] at h
    rw [Pred.substWithin, Pred.subst, Pred.substWithin_of_size_le n m p (by omega),
      Pred.substWithin_of_size_le n m q (by omega)]
    rfl
  | n + 1, .quantified q x body =>
    rw [Pred.size] at h
    have hbody : body.size ≤ n := by omega
    rw [Pred.substWithin, Pred.subst_quantified]
    dsimp only
    split
    · rfl
    · split
      · -- one call for the renaming, and one for the copy, which is as large as the body
        have hcopy : (body.rename x.name (m.newBinder x.name body)).size ≤ n := by
          rw [Pred.size_rename]
          exact hbody
        rw [Pred.substWithin_of_size_le n _ body hbody, ← Pred.rename_eq_subst, Option.bind_eq_bind,
          Option.bind_some, Pred.substWithin_of_size_le n _ _ hcopy]
        rfl
      · rw [Pred.substWithin_of_size_le n _ body hbody]
        rfl
  | n + 1, .formula f args =>
    rw [Pred.size] at h
    rw [Pred.substWithin, Pred.subst, Expr.substList_eq_map,
      Expr.mapM_of_sizes_le (Expr.substWithin_of_size_le n m) (by omega)]
    rfl

end

mutual

theorem Expr.substCellWithin_of_size_le (n : Nat) (w : CellUpdate) (e : Expr) (h : e.size ≤ n) :
    e.substCellWithin n w = some (e.substCell w) := by
  match n, e with
  | 0, e => exact absurd e.size_pos (by omega)
  | n + 1, .const k => rw [Expr.substCellWithin, Expr.substCell]
  | n + 1, .var x => rw [Expr.substCellWithin, Expr.substCell]
  | n + 1, .neg a =>
    rw [Expr.size] at h
    rw [Expr.substCellWithin, Expr.substCell, Expr.substCellWithin_of_size_le n w a (by omega)]
    rfl
  | n + 1, .binary op a b =>
    rw [Expr.size] at h
    rw [Expr.substCellWithin, Expr.substCell, Expr.substCellWithin_of_size_le n w a (by omega),
      Expr.substCellWithin_of_size_le n w b (by omega)]
    rfl
  | n + 1, .read a i =>
    rw [Expr.size] at h
    rw [Expr.substCellWithin, Expr.substCell, Expr.substCellWithin_of_size_le n w i (by omega)]
    split <;> rfl
  | n + 1, .call f args =>
    rw [Expr.size] at h
    rw [Expr.substCellWithin, Expr.substCell, Expr.substCellList_eq_map,
      Expr.mapM_of_sizes_le (Expr.substCellWithin_of_size_le n w) (by omega)]
    rfl
  | n + 1, .cond p a b =>
    rw [Expr.size] at h
    rw [Expr.substCellWithin, Expr.substCell, Pred.substCellWithin_of_size_le n w p (by omega),
      Expr.substCellWithin_of_size_le n w a (by omega),
      Expr.substCellWithin_of_size_le n w b (by omega)]
    rfl

theorem Pred.substCellWithin_of_size_le (n : Nat) (w : CellUpdate) (p : Pred) (h : p.size ≤ n) :
    p.substCellWithin n w = some (p.substCell w) := by
  match n, p with
  | 0, p => exact absurd p.size_pos (by omega)
  | n + 1, .bool b => rw [Pred.substCellWithin, Pred.substCell]
  | n + 1, .compare op a b =>
    rw [Pred.size] at h
    rw [Pred.substCellWithin, Pred.substCell, Expr.substCellWithin_of_size_le n w a (by omega),
      Expr.substCellWithin_of_size_le n w b (by omega)]
    rfl
  | n + 1, .not p | n + 1, .paren p =>
    rw [Pred.size] at h
    rw [Pred.substCellWithin, Pred.substCell, Pred.substCellWithin_of_size_le n w p (by omega)]
    rfl
  | n + 1, .and p q | n + 1, .or p q | n + 1, .implies p q =>
    rw [Pred.size] at h
    rw [Pred.substCellWithin, Pred.substCell, Pred.substCellWithin_of_size_le n w p (by omega),
      Pred.substCellWithin_of_size_le n w q (by omega)]
    rfl
  | n + 1, .quantified q x body =>
    rw [Pred.size] at h
    have hbody : body.size ≤ n := by omega
    rw [Pred.substCellWithin, Pred.substCell_quantified]
    dsimp only
    split
    · -- the renaming is a substitution of the other kind, for which the limit is enough as well
      have hcopy : (body.rename x.name (w.newBinder x.name body)).size ≤ n := by
        rw [Pred.size_rename]
        exact hbody
      rw [Pred.substWithin_of_size_le n _ body hbody, ← Pred.rename_eq_subst, Option.bind_eq_bind,
        Option.bind_some, Pred.substCellWithin_of_size_le n w _ hcopy]
      rfl
    · rw [Pred.substCellWithin_of_size_le n w body hbody]
      rfl
  | n + 1, .formula f args =>
    rw [Pred.size] at h
    rw [Pred.substCellWithin, Pred.substCell, Expr.substCellList_eq_map,
      Expr.mapM_of_sizes_le (Expr.substCellWithin_of_size_le n w) (by omega)]
    rfl

end

/-- **The recursion of a substitution ends.** To put variables in for variables does not change the size
of a predicate. A renaming does just that, whatever binders it has to rename inside, so the copy that
a substitution goes on with is as large as the body. The recursion therefore comes to its result, and
with no more calls open at a time than the size of the predicate; so does the one for the reads of a
cell. -/
theorem substitution_recursion_ends (p : Pred) :
    (∀ names, (p.subst (.renaming names)).size = p.size) ∧
    (∀ x y, p.rename x y = p.subst (.renaming [(x, y)]) ∧ (p.rename x y).size = p.size) ∧
    (∀ m more, p.substWithin (p.size + more) m = some (p.subst m)) ∧
    ∀ w more, p.substCellWithin (p.size + more) w = some (p.substCell w) :=
  ⟨fun names => p.size_subst_renaming names,
    fun x y => ⟨Pred.rename_eq_subst, Pred.size_rename x y p⟩,
    fun m _ => p.substWithin_of_size_le _ m (Nat.le_add_right ..),
    fun w _ => p.substCellWithin_of_size_le _ w (Nat.le_add_right ..)⟩

-- The binder `k` becomes `k_1`, and on the way the binder `k_1` inside becomes `k_1_1`.
example :
    (Pred.forall_ "k" (.forall_ "k_1" (.compare .lt (.var "k") (.var "n")))).substWithin 5
        [("n", .var "k")] =
      some (.forall_ "k_1" (.forall_ "k_1_1" (.compare .lt (.var "k_1") (.var "k")))) := by
  rfl

end Contracts

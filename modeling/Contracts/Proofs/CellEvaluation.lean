import Contracts.Proofs.CellAssignment
import Contracts.Proofs.SubstitutionEvaluation

/-!
# Evaluation across the write of a cell

The predicate before `a[i] := e` has `e` for the reads `a[i]`, found by the index as it is written.
After the assignment the index of such a read is evaluated once more, in a state with one cell
changed. Where it still has the value with which the cell was written, the read gives what was
written, and the two predicates evaluate to the same. An index that reads the written cell can have
another value then: after `a[a[0]] := 1` on zeros, `a[a[0]]` is `a[1]`.

Only the outermost reads of the array matter (`Pred.OuterReads`): what stands inside the index of a
read that is replaced goes away with it.
-/

set_option autoImplicit false

namespace Contracts

/-! ## The state with one cell written -/

/-- The array with one cell written; a number stays as it is. -/
def Value.writeCell (k v : Int64) : Value → Value
  | .array c => .array (c.write k v)
  | .int n => .int n

/-- The state with one cell of an array written, if the name holds an array. -/
def State.writeCell (s : State) (a : String) (k v : Int64) : State :=
  s.modify a (Value.writeCell k v)

theorem State.getElem?_writeCell (s : State) (a x : String) (k v : Int64) :
    (s.writeCell a k v)[x]? = if a = x then s[x]?.map (Value.writeCell k v) else s[x]? := by
  rw [State.writeCell, Std.ExtTreeMap.getElem?_modify]
  simp only [Std.LawfulEqCmp.compare_eq_iff_eq]
  exact ite_congr rfl (fun hx => by rw [hx]) fun _ => rfl

theorem State.getElem?_writeCell_of_ne (s : State) {a x : String} (hx : x ≠ a) (k v : Int64) :
    (s.writeCell a k v)[x]? = s[x]? := by
  rw [State.getElem?_writeCell, if_neg (Ne.symm hx)]

/-- Numbers stay as they are. -/
theorem State.int_of_writeCell {s : State} {a x : String} {k v n : Int64}
    (h : (s.writeCell a k v)[x]? = some (.int n)) : s[x]? = some (.int n) := by
  rw [State.getElem?_writeCell] at h
  split at h
  · obtain ⟨w, hw, hn⟩ := Option.map_eq_some_iff.mp h
    cases w with
    | int m =>
      cases hn
      exact hw
    | array c => cases hn
  · exact h

theorem State.array_of_writeCell {s : State} {a : String} {k v : Int64} {c' : Cells}
    (h : (s.writeCell a k v)[a]? = some (.array c')) :
    ∃ c, s[a]? = some (.array c) ∧ c' = c.write k v := by
  rw [State.getElem?_writeCell, if_pos rfl] at h
  obtain ⟨w, hw, hc⟩ := Option.map_eq_some_iff.mp h
  cases w with
  | int n => cases hc
  | array c =>
    cases hc
    exact ⟨c, hw, rfl⟩

theorem State.insert_write {s : State} {a : String} {c : Cells} (h : s[a]? = some (.array c))
    (k v : Int64) : s.insert a (.array (c.write k v)) = s.writeCell a k v := by
  refine Std.ExtTreeMap.ext_getElem? fun x => ?_
  rw [State.getElem?_insert, State.getElem?_writeCell]
  split
  · next hx =>
    rw [← hx, h]
    rfl
  · rfl

/-! ## Evaluation depends on the free names -/

section

variable {p : Program} {b : Below} {s s' : State}

theorem Expr.array?_congr {e : Expr} (h : ∀ x ∈ e.free, s'[x]? = s[x]?) :
    e.array? s' = e.array? s := by
  cases e with
  | var x =>
    rw [Expr.array?, Expr.array?, State.array?, State.array?,
      h x (by rw [Expr.free]; exact List.mem_singleton_self x)]
  | const | neg | binary | read | call | cond => rfl

theorem askedLength?_congr (f : String) {es : List Expr}
    (h : ∀ x ∈ Expr.freeList es, s'[x]? = s[x]?) : askedLength? s' f es = askedLength? s f es := by
  unfold askedLength?
  split
  · rw [Expr.freeList, List.forall_mem_append] at h
    rw [Expr.array?_congr h.1]
  · rfl

mutual

theorem Expr.eval_congr : ∀ {e : Expr}, (∀ x ∈ e.free, s'[x]? = s[x]?) →
    e.eval p b s' = e.eval p b s
  | .const _, _ => rfl
  | .var x, h => by
    rw [Expr.eval, Expr.eval, readVar, readVar,
      h x (by rw [Expr.free]; exact List.mem_singleton_self x)]
  | .neg e, h => by rw [Expr.eval, Expr.eval, Expr.eval_congr (e := e) h]
  | .binary _ x y, h => by
    rw [Expr.free, List.forall_mem_append] at h
    rw [Expr.eval, Expr.eval, Expr.eval_congr h.1, Expr.eval_congr h.2]
  | .read a i, h => by
    rw [Expr.free, List.forall_mem_cons] at h
    simp only [Expr.eval, Expr.eval_congr h.2, readCell, h.1]
  | .call f args, h => by
    rw [Expr.eval, Expr.eval, Expr.operands_congr h, askedLength?_congr f h]
  | .cond t x y, h => by
    simp only [Expr.free, List.forall_mem_append] at h
    rw [Expr.eval, Expr.eval, Pred.eval_congr h.1.1, Expr.eval_congr h.1.2, Expr.eval_congr h.2]

theorem Expr.operands_congr : ∀ {es : List Expr}, (∀ x ∈ Expr.freeList es, s'[x]? = s[x]?) →
    Expr.operands p b s' es = Expr.operands p b s es
  | [], _ => rfl
  | e :: es, h => by
    rw [Expr.freeList, List.forall_mem_append] at h
    rw [Expr.operands, Expr.operands, Expr.array?_congr h.1, Expr.eval_congr h.1,
      Expr.operands_congr h.2]

/-- An evaluation looks up the free names only. -/
theorem Pred.eval_congr : ∀ {q : Pred}, (∀ x ∈ q.free, s'[x]? = s[x]?) →
    q.eval p b s' = q.eval p b s
  | .bool _, _ => rfl
  | .compare _ x y, h => by
    rw [Pred.free, List.forall_mem_append] at h
    rw [Pred.eval, Pred.eval, Expr.eval_congr h.1, Expr.eval_congr h.2]
  | .not q, h => by rw [Pred.eval, Pred.eval, Pred.eval_congr (q := q) h]
  | .and q q', h | .or q q', h | .implies q q', h => by
    rw [Pred.free, List.forall_mem_append] at h
    rw [Pred.eval, Pred.eval, Pred.eval_congr h.1, Pred.eval_congr h.2]
  | .paren q, h => by rw [Pred.eval, Pred.eval, Pred.eval_congr (q := q) h]
  | .quantified _ _ _, _ => rfl
  | .formula _ _, h => by rw [Pred.eval, Pred.eval, Expr.operands_congr h]

end

end

/-! ## Outermost reads -/

mutual

/-- Of every read of the array that does not stand inside the index of another one, the index
satisfies `R`. -/
def Expr.OuterReads (a : String) (R : Expr → Prop) : Expr → Prop
  | .const _ | .var _ => True
  | .neg e => e.OuterReads a R
  | .binary _ x y => x.OuterReads a R ∧ y.OuterReads a R
  | .read a' j => if a' = a then R j else j.OuterReads a R
  | .call _ args => Expr.OuterReadsAll a R args
  | .cond t x y => t.OuterReads a R ∧ x.OuterReads a R ∧ y.OuterReads a R

def Expr.OuterReadsAll (a : String) (R : Expr → Prop) : List Expr → Prop
  | [] => True
  | e :: es => e.OuterReads a R ∧ Expr.OuterReadsAll a R es

/-- The same for predicates. Quantifiers are left out, because no evaluation goes into one. -/
def Pred.OuterReads (a : String) (R : Expr → Prop) : Pred → Prop
  | .bool _ => True
  | .compare _ x y => x.OuterReads a R ∧ y.OuterReads a R
  | .not q | .paren q => q.OuterReads a R
  | .and q r | .or q r | .implies q r => q.OuterReads a R ∧ r.OuterReads a R
  | .quantified .. => True
  | .formula _ args => Expr.OuterReadsAll a R args

end

/-- The index is the one that is replaced, or a literal for another cell. -/
def CellUpdate.Decides (w : CellUpdate) (k : Int64) (j : Expr) : Prop :=
  j = w.index ∨ ∃ m, j = .const m ∧ m ≠ k

section

variable {p : Program} {b : Below} {s : State} {w : CellUpdate} {k v : Int64} {R : Expr → Prop}

/-- A read of the written array gives the new value or the old one, and it is replaced or stays
accordingly. -/
theorem Expr.gives_substCell_read {j : Expr} {u : Int64} (hvalue : (w.value.eval p b s).Gives v)
    (hindex : ∀ m, (w.index.eval p b (s.writeCell w.array k v)).Gives m → m = k)
    (hj : w.Decides k j)
    (h : ((Expr.read w.array j).eval p b (s.writeCell w.array k v)).Gives u) :
    (((Expr.read w.array j).substCell w).eval p b s).Gives u := by
  obtain ⟨m, c', hm, hc', rfl⟩ := Expr.gives_read.mp h
  obtain ⟨c, hc, rfl⟩ := State.array_of_writeCell hc'
  rw [Expr.substCell]
  by_cases hji : j = w.index
  · subst hji
    rwa [if_pos ⟨rfl, rfl⟩, hindex m hm, Cells.read_write, if_pos rfl]
  · obtain ⟨m', rfl, hne⟩ := hj.resolve_left hji
    obtain rfl := Expr.gives_const.mp hm
    rw [if_neg fun hcond => hji hcond.2, Expr.substCell, Cells.read_write, if_neg (Ne.symm hne)]
    exact Expr.gives_read.mpr ⟨m, c, Expr.gives_const.mpr rfl, hc, rfl⟩

mutual

theorem Expr.gives_substCell (hb : b.Frugal) (hvalue : (w.value.eval p b s).Gives v)
    (hindex : ∀ m, (w.index.eval p b (s.writeCell w.array k v)).Gives m → m = k)
    (hR : ∀ j, R j → w.Decides k j) : ∀ {e : Expr} {u : Int64}, e.callFree = true →
      e.OuterReads w.array R → (e.eval p b (s.writeCell w.array k v)).Gives u →
        ((e.substCell w).eval p b s).Gives u
  | .const n, _, _, _, h => by
    rw [Expr.substCell]
    exact Expr.gives_const.mpr (Expr.gives_const.mp h)
  | .var x, _, _, _, h => by
    rw [Expr.substCell]
    exact Expr.gives_var.mpr (State.int_of_writeCell (Expr.gives_var.mp h))
  | .neg e, _, hf, hr, h => by
    rw [Expr.substCell]
    obtain ⟨m, hm, hu⟩ := Expr.gives_neg.mp h
    exact Expr.gives_neg.mpr
      ⟨m, Expr.gives_substCell hb hvalue hindex hR (e := e) hf hr hm, hu⟩
  | .binary _ x y, _, hf, hr, h => by
    rw [Expr.callFree, Bool.and_eq_true] at hf
    rw [Expr.OuterReads] at hr
    rw [Expr.substCell]
    obtain ⟨m, n, hm, hn, hu⟩ := (Expr.gives_binary hb).mp h
    exact (Expr.gives_binary hb).mpr
      ⟨m, n, Expr.gives_substCell hb hvalue hindex hR hf.1 hr.1 hm,
        Expr.gives_substCell hb hvalue hindex hR hf.2 hr.2 hn, hu⟩
  | .read a j, _, hf, hr, h => by
    rw [Expr.OuterReads] at hr
    by_cases ha : a = w.array
    · -- what is inside the index goes away with it, so the induction stops here
      rw [if_pos ha] at hr
      subst ha
      exact Expr.gives_substCell_read hvalue hindex (hR j hr) h
    · rw [if_neg ha] at hr
      rw [Expr.substCell, if_neg fun hcond => ha hcond.1]
      obtain ⟨m, c, hm, hc, hu⟩ := Expr.gives_read.mp h
      rw [State.getElem?_writeCell_of_ne s ha] at hc
      exact Expr.gives_read.mpr
        ⟨m, c, Expr.gives_substCell hb hvalue hindex hR (e := j) hf hr hm, hc, hu⟩
  | .call _ _, _, hf, _, _ => by cases hf
  | .cond t x y, _, hf, hr, h => by
    simp only [Expr.callFree, Bool.and_eq_true] at hf
    rw [Expr.OuterReads] at hr
    rw [Expr.substCell]
    refine (Expr.gives_cond hb).mpr (((Expr.gives_cond hb).mp h).imp ?_ ?_)
    · exact fun ⟨ht, hx⟩ => ⟨Pred.gives_substCell hb hvalue hindex hR hf.1.1 hr.1 ht,
        Expr.gives_substCell hb hvalue hindex hR hf.1.2 hr.2.1 hx⟩
    · exact fun ⟨ht, hy⟩ => ⟨Pred.gives_substCell hb hvalue hindex hR hf.1.1 hr.1 ht,
        Expr.gives_substCell hb hvalue hindex hR hf.2 hr.2.2 hy⟩

/-- What a predicate evaluates to after the write of a cell, it evaluates to before it with the
value put in for the reads of the cell. -/
theorem Pred.gives_substCell (hb : b.Frugal) (hvalue : (w.value.eval p b s).Gives v)
    (hindex : ∀ m, (w.index.eval p b (s.writeCell w.array k v)).Gives m → m = k)
    (hR : ∀ j, R j → w.Decides k j) : ∀ {q : Pred} {r : Bool}, q.callFree = true →
      q.OuterReads w.array R → (q.eval p b (s.writeCell w.array k v)).Gives r →
        ((q.substCell w).eval p b s).Gives r
  | .bool t, _, _, _, h => by
    rw [Pred.substCell]
    exact Pred.gives_bool.mpr (Pred.gives_bool.mp h)
  | .compare _ x y, _, hf, hr, h => by
    rw [Pred.callFree, Bool.and_eq_true] at hf
    rw [Pred.OuterReads] at hr
    rw [Pred.substCell]
    obtain ⟨m, n, hm, hn, hu⟩ := (Pred.gives_compare hb).mp h
    exact (Pred.gives_compare hb).mpr
      ⟨m, n, Expr.gives_substCell hb hvalue hindex hR hf.1 hr.1 hm,
        Expr.gives_substCell hb hvalue hindex hR hf.2 hr.2 hn, hu⟩
  | .not q, _, hf, hr, h => by
    rw [Pred.substCell]
    exact Pred.gives_not.mpr
      (Pred.gives_substCell hb hvalue hindex hR (q := q) hf hr (Pred.gives_not.mp h))
  | .and q q', _, hf, hr, h => by
    rw [Pred.callFree, Bool.and_eq_true] at hf
    rw [Pred.OuterReads] at hr
    rw [Pred.substCell]
    -- the second part counts only where the first one does not decide
    refine (Pred.gives_and hb).mpr (((Pred.gives_and hb).mp h).imp ?_ ?_)
    · exact fun ⟨hq, hq'⟩ => ⟨Pred.gives_substCell hb hvalue hindex hR hf.1 hr.1 hq,
        Pred.gives_substCell hb hvalue hindex hR hf.2 hr.2 hq'⟩
    · exact fun ⟨hq, ht⟩ => ⟨Pred.gives_substCell hb hvalue hindex hR hf.1 hr.1 hq, ht⟩
  | .or q q', _, hf, hr, h => by
    rw [Pred.callFree, Bool.and_eq_true] at hf
    rw [Pred.OuterReads] at hr
    rw [Pred.substCell]
    refine (Pred.gives_or hb).mpr (((Pred.gives_or hb).mp h).imp ?_ ?_)
    · exact fun ⟨hq, ht⟩ => ⟨Pred.gives_substCell hb hvalue hindex hR hf.1 hr.1 hq, ht⟩
    · exact fun ⟨hq, hq'⟩ => ⟨Pred.gives_substCell hb hvalue hindex hR hf.1 hr.1 hq,
        Pred.gives_substCell hb hvalue hindex hR hf.2 hr.2 hq'⟩
  | .implies q q', _, hf, hr, h => by
    rw [Pred.callFree, Bool.and_eq_true] at hf
    rw [Pred.OuterReads] at hr
    rw [Pred.substCell]
    refine (Pred.gives_implies hb).mpr (((Pred.gives_implies hb).mp h).imp ?_ ?_)
    · exact fun ⟨hq, hq'⟩ => ⟨Pred.gives_substCell hb hvalue hindex hR hf.1 hr.1 hq,
        Pred.gives_substCell hb hvalue hindex hR hf.2 hr.2 hq'⟩
    · exact fun ⟨hq, ht⟩ => ⟨Pred.gives_substCell hb hvalue hindex hR hf.1 hr.1 hq, ht⟩
  | .paren q, _, hf, hr, h => by
    rw [Pred.substCell]
    exact Pred.gives_paren.mpr
      (Pred.gives_substCell hb hvalue hindex hR (q := q) hf hr (Pred.gives_paren.mp h))
  | .quantified _ _ _, _, _, _, h => absurd h Pred.not_gives_quantified
  | .formula _ _, _, hf, _, _ => by cases hf

end

end

/-! ## Assignments -/

/-- The predicate before an assignment of one target. -/
theorem wpAssign_single {t : Target} {e : Expr} {q r : Pred} (h : wpAssign [t] [e] q = .ok r) :
    r = t.replaceIn e q := by
  unfold wpAssign at h
  rw [if_neg (by simp only [List.isEmpty_cons, Bool.false_eq_true, not_false_eq_true])] at h
  split at h
  · cases h
  · rw [if_neg fun hlen => absurd hlen.1 (Nat.lt_irrefl 1)] at h
    cases h
    rfl

section

variable {p : Program} {b : Below} {s s' : State} {a : String} {i e : Expr} {fuel left : Nat}

/-- A finished assignment of a cell has evaluated its index and its expression and written the
cell. -/
theorem execAssign_cell (hb : b.Frugal)
    (h : execAssign p b [.cell a i] [e] s fuel = .ok (s', left)) :
    ∃ k v, (i.eval p b s).Gives k ∧ (e.eval p b s).Gives v ∧ s' = s.writeCell a k v := by
  obtain ⟨values, fuel₁, hvalues, hcases⟩ := execAssign_cases h
  rw [List.length_singleton, assignedValues_of_operands (.inl rfl)] at hvalues
  rcases hcases with ⟨hnil, -⟩ | ⟨-, places, fuel₂, hplaces, hwrite⟩
  · cases hnil
  · obtain ⟨value, values', hvalue, hvalues', rfl⟩ := List.forall₂_cons_left_iff.mp
      ((Expr.gives_operands hb).mp ⟨fuel, fuel₁, hvalues⟩)
    cases hvalues'
    obtain ⟨place, places', ⟨fuel₃, fuel₄, hplace⟩, hplaces', rfl⟩ := List.forall₂_cons_left_iff.mp
      (EvalM.forall₂_of_mapM hplaces)
    cases hplaces'
    rw [Target.place] at hplace
    obtain ⟨k, _, hk, hplace⟩ := EvalM.bind_eq_ok.mp hplace
    cases EvalM.pure_eq_ok.mp hplace
    obtain ⟨s₁, _, hwrite, hrest⟩ := EvalM.bind_eq_ok.mp hwrite
    cases EvalM.pure_eq_ok.mp hrest
    obtain ⟨c, v, hc, rfl, rfl⟩ := Place.write_cell_eq_ok hwrite
    exact ⟨k, v, ⟨fuel₃, _, hk⟩, Expr.passes_int.mp hvalue, State.insert_write hc k v⟩

/-- An index that does not mention the array has the same value after the write. -/
theorem Expr.index_kept (hb : b.Frugal)
    (h : execAssign p b [.cell a i] [e] s fuel = .ok (s', left)) (ha : a ∉ i.free) {k k' : Int64}
    (hk : (i.eval p b s).Gives k) (hk' : (i.eval p b s').Gives k') : k = k' := by
  obtain ⟨m, v, -, -, rfl⟩ := execAssign_cell hb h
  have hsame : i.eval p b (s.writeCell a m v) = i.eval p b s := by
    refine Expr.eval_congr fun x hx => State.getElem?_writeCell_of_ne s ?_ m v
    rintro rfl
    exact ha hx
  rw [hsame] at hk'
  exact hk.unique (Expr.frugal_eval hb s i) hk'

end

/-- **A read with the index of the assignment is the written cell.** If the outermost reads of the
array in a predicate without calls and formulas all have the index of the assignment, then the
predicate evaluates after the assignment to what the predicate worked out for it evaluates to
before, provided that the index has the same value before and after. -/
theorem cell_wp_agrees (p : Program) (n : Nat) (close : Bool) (a : String) (i e : Expr)
    (q w : Pred) (s s' : State) (r c : Bool) (fuel₁ fuel₂ fuel₃ left₁ left₂ left₃ : Nat)
    (hcalls : q.callFree = true) (hreads : q.OuterReads a (· = i))
    (hindex : ∀ k k', (i.eval p (below p n) s).Gives k → (i.eval p (below p n) s').Gives k' → k = k')
    (hwp : (Stmt.assign [.cell a i] [e]).wp close q = .ok w)
    (hexec : (Stmt.assign [.cell a i] [e]).exec p (below p n) s fuel₁ = .ok (s', left₁))
    (hq : q.eval p (below p n) s' fuel₂ = .ok (r, left₂))
    (hw : w.eval p (below p n) s fuel₃ = .ok (c, left₃)) : r = c := by
  have hb := frugal_below p n
  rw [Stmt.exec] at hexec
  obtain ⟨k, v, hk, hv, rfl⟩ := execAssign_cell hb hexec
  obtain ⟨w₀, hw₀, rfl⟩ := Stmt.wp_assign_eq_ok.mp hwp
  obtain rfl : w₀ = q.substCell ⟨a, i, e⟩ := wpAssign_single hw₀
  have hsub := Pred.gives_substCell (w := ⟨a, i, e⟩) hb hv (fun m hm => (hindex k m hk hm).symm)
    (fun j hj => .inl hj) hcalls hreads ⟨fuel₂, left₂, hq⟩
  exact Pred.eq_of_gives_simplify hb hsub ⟨fuel₃, left₃, hw⟩

/-! ### An index with a variable, and an index with the array itself -/

/-- The cell `a[x + 1]` grows by one. -/
def steppedCell : Stmt :=
  .assign [.cell "a" (.binary .add (.var "x") (.const 1))]
    [.binary .add (.read "a" (.binary .add (.var "x") (.const 1))) (.const 1)]

/-- The cell is the index of another array and stands alone. -/
def steppedGoal : Pred :=
  .and (.compare .eq (.read "b" (.read "a" (.binary .add (.var "x") (.const 1)))) (.const 9))
    (.compare .gt (.read "a" (.binary .add (.var "x") (.const 1))) (.var "x"))

def steppedBefore : Pred :=
  .and (.compare .eq (.read "b" (.binary .add
      (.read "a" (.binary .add (.var "x") (.const 1))) (.const 1))) (.const 9))
    (.compare .gt (.binary .add (.read "a" (.binary .add (.var "x") (.const 1))) (.const 1))
      (.var "x"))

def steppedStart : State :=
  State.ofPairs
    [("a", .array (Cells.write ∅ 3 4)), ("b", .array (Cells.write ∅ 5 9)), ("x", .int 2)]

theorem cell_wp_agrees_stepped :
    steppedCell.wp false steppedGoal = .ok steppedBefore ∧
    steppedCell.exec .empty (below .empty 0) steppedStart 0 =
      .ok (steppedStart.insert "a" (.array ((Cells.write ∅ 3 4).write 3 5)), 0) ∧
    steppedGoal.eval .empty (below .empty 0)
      (steppedStart.insert "a" (.array ((Cells.write ∅ 3 4).write 3 5))) 0 = .ok (true, 0) ∧
    steppedBefore.eval .empty (below .empty 0) steppedStart 0 = .ok (true, 0) ∧
    ∀ fuel c left, steppedBefore.eval .empty (below .empty 0) steppedStart fuel = .ok (c, left) →
      true = c := by
  have hwp : steppedCell.wp false steppedGoal = .ok steppedBefore := by cbv
  have hexec : steppedCell.exec .empty (below .empty 0) steppedStart 0 =
      .ok (steppedStart.insert "a" (.array ((Cells.write ∅ 3 4).write 3 5)), 0) := by cbv
  have hgoal : steppedGoal.eval .empty (below .empty 0)
      (steppedStart.insert "a" (.array ((Cells.write ∅ 3 4).write 3 5))) 0 = .ok (true, 0) := by
    cbv
  refine ⟨hwp, hexec, hgoal, by cbv, fun fuel c left hc => ?_⟩
  refine cell_wp_agrees .empty 0 false "a" _ _ steppedGoal steppedBefore steppedStart _ true c _ _ _
    _ _ _ rfl ?_ (fun k k' => ?_) hwp hexec hgoal hc
  · simp only [steppedGoal, Pred.OuterReads, Expr.OuterReads, String.reduceEq, if_true, if_false,
      and_self]
  · -- the index does not mention the array
    exact Expr.index_kept (frugal_below .empty 0) hexec (by decide)

/-- The cell whose index is the first cell becomes one. -/
def selfIndexed : Stmt := .assign [.cell "a" (.read "a" (.const 0))] [.const 1]

def selfIndexedGoal : Pred := .compare .eq (.read "a" (.read "a" (.const 0))) (.const 1)

/-- All cells are zero. -/
def selfIndexedStart : State := State.ofPairs [("a", .array ∅)]

/-- **The written cell need not be the cell of its index.** The read is replaced, so the predicate
before the assignment is true everywhere; the assignment changes the index, and the predicate is
false after it. -/
theorem self_indexed_read_moves :
    selfIndexed.wp false selfIndexedGoal = .ok (.bool true) ∧
    selfIndexedGoal.callFree = true ∧ selfIndexedGoal.OuterReads "a" (· = .read "a" (.const 0)) ∧
    selfIndexed.exec .empty (below .empty 0) selfIndexedStart 0 =
      .ok (selfIndexedStart.insert "a" (.array (Cells.write ∅ 0 1)), 0) ∧
    selfIndexedGoal.eval .empty (below .empty 0)
      (selfIndexedStart.insert "a" (.array (Cells.write ∅ 0 1))) 0 = .ok (false, 0) ∧
    (Pred.bool true).eval .empty (below .empty 0) selfIndexedStart 0 = .ok (true, 0) := by
  refine ⟨by cbv, rfl, ?_, by cbv, by cbv, rfl⟩
  simp only [selfIndexedGoal, Pred.OuterReads, Expr.OuterReads, if_true, and_self]

end Contracts

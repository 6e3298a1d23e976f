import Contracts.Proofs.SimplifyMeaning
import Contracts.Proofs.SubstitutionMeaning
import Contracts.Proofs.ExecutionMeaning

/-!
# Cells with literal indices

Where every index is a literal, two reads are of one cell exactly when they are written alike. This
is what the substitution for the reads of a cell compares, so there it is the rule for writing a
cell: putting an expression in for the reads of `a[i]` is the same as asking in the valuation where
that cell has the expression's value (`Pred.holds_substCell`).

`Expr.plain` and `Pred.plain` say that indices are literals and that there are no calls and no
formulas, which could look at a whole array. Substitution and simplification keep a predicate plain.
The truth of a plain predicate depends on its free variables and on the cells that it reads
(`Pred.holds_congr_reads`), and not on the rest of an array.
-/

set_option autoImplicit false

namespace Contracts

/-! ## Plain predicates -/

mutual

/-- Every index is a literal, and there are no calls and no formulas. -/
def Expr.plain : Expr → Bool
  | .const _ | .var _ => true
  | .neg e => e.plain
  | .binary _ a b => a.plain && b.plain
  | .read _ (.const _) => true
  | .read _ _ => false
  | .call _ _ => false
  | .cond p a b => p.plain && a.plain && b.plain

def Pred.plain : Pred → Bool
  | .bool _ => true
  | .compare _ a b => a.plain && b.plain
  | .not p | .paren p => p.plain
  | .and p q | .or p q | .implies p q => p.plain && q.plain
  | .quantified _ _ p => p.plain
  | .formula _ _ => false

end

/-- A read in a plain expression is of a cell with a literal index. -/
theorem Expr.exists_of_plain_read {a : String} {i : Expr} (h : (Expr.read a i).plain = true) :
    ∃ n, i = .const n := by
  cases i with
  | const n => exact ⟨n, rfl⟩
  | _ => cases h

/-! ### Renaming and substitution keep it -/

mutual

theorem Expr.plain_rename {x y : String} {e : Expr} (h : e.plain = true) :
    (e.rename x y).plain = true := by
  match e, h with
  | .const n, _ => simp only [Expr.rename_const, Expr.plain]
  | .var z, _ => simp only [Expr.rename_var, Expr.plain]
  | .neg a, h =>
    rw [Expr.rename_neg]
    exact Expr.plain_rename (e := a) h
  | .binary op a b, h =>
    simp only [Expr.plain, Expr.rename_binary, Bool.and_eq_true] at h ⊢
    exact ⟨Expr.plain_rename h.1, Expr.plain_rename h.2⟩
  | .read a i, h =>
    obtain ⟨n, rfl⟩ := Expr.exists_of_plain_read h
    rw [Expr.rename_read, Expr.rename_const]
    exact h
  | .cond p a b, h =>
    simp only [Expr.plain, Expr.rename_cond, Bool.and_eq_true] at h ⊢
    exact ⟨⟨Pred.plain_rename h.1.1, Expr.plain_rename h.1.2⟩, Expr.plain_rename h.2⟩
termination_by e.size
decreasing_by all_goals simp only [Expr.size]; omega

theorem Pred.plain_rename {x y : String} {p : Pred} (h : p.plain = true) :
    (p.rename x y).plain = true := by
  match p, h with
  | .bool b, _ => simp only [Pred.rename_bool, Pred.plain]
  | .compare op a b, h =>
    simp only [Pred.plain, Pred.rename_compare, Bool.and_eq_true] at h ⊢
    exact ⟨Expr.plain_rename h.1, Expr.plain_rename h.2⟩
  | .not p, h =>
    rw [Pred.rename_not]
    exact Pred.plain_rename (p := p) h
  | .and p q, h =>
    simp only [Pred.plain, Pred.rename_and, Bool.and_eq_true] at h ⊢
    exact ⟨Pred.plain_rename h.1, Pred.plain_rename h.2⟩
  | .or p q, h =>
    simp only [Pred.plain, Pred.rename_or, Bool.and_eq_true] at h ⊢
    exact ⟨Pred.plain_rename h.1, Pred.plain_rename h.2⟩
  | .implies p q, h =>
    simp only [Pred.plain, Pred.rename_implies, Bool.and_eq_true] at h ⊢
    exact ⟨Pred.plain_rename h.1, Pred.plain_rename h.2⟩
  | .paren p, h =>
    rw [Pred.rename_paren]
    exact Pred.plain_rename (p := p) h
  | .quantified q z body, h =>
    have hbody : body.plain = true := h
    rw [Pred.rename_quantified]
    split
    · exact h
    · split
      · exact Pred.plain_rename (Pred.plain_rename hbody)
      · exact Pred.plain_rename hbody
termination_by p.size
decreasing_by
  all_goals
    simp only [Pred.size, Pred.size_rename]
    omega

end

mutual

theorem Expr.plain_subst {m : Bindings} (hm : ∀ b ∈ m, b.2.plain = true) {e : Expr}
    (h : e.plain = true) : (e.subst m).plain = true := by
  match e, h with
  | .const n, _ => simp only [Expr.subst, Expr.plain]
  | .var x, _ =>
    rw [Expr.subst]
    cases hl : m.lookup x with
    | none => rfl
    | some r => exact hm _ (Bindings.mem_of_lookup hl)
  | .neg a, h =>
    rw [Expr.subst]
    exact Expr.plain_subst (e := a) hm h
  | .binary op a b, h =>
    simp only [Expr.plain, Expr.subst, Bool.and_eq_true] at h ⊢
    exact ⟨Expr.plain_subst hm h.1, Expr.plain_subst hm h.2⟩
  | .read a i, h =>
    obtain ⟨n, rfl⟩ := Expr.exists_of_plain_read h
    rw [Expr.subst, Expr.subst]
    exact h
  | .cond p a b, h =>
    simp only [Expr.plain, Expr.subst, Bool.and_eq_true] at h ⊢
    exact ⟨⟨Pred.plain_subst hm h.1.1, Expr.plain_subst hm h.1.2⟩, Expr.plain_subst hm h.2⟩
termination_by e.size
decreasing_by all_goals simp only [Expr.size]; omega

theorem Pred.plain_subst {m : Bindings} (hm : ∀ b ∈ m, b.2.plain = true) {p : Pred}
    (h : p.plain = true) : (p.subst m).plain = true := by
  match p, h with
  | .bool b, _ => simp only [Pred.subst, Pred.plain]
  | .compare op a b, h =>
    simp only [Pred.plain, Pred.subst, Bool.and_eq_true] at h ⊢
    exact ⟨Expr.plain_subst hm h.1, Expr.plain_subst hm h.2⟩
  | .not p, h =>
    rw [Pred.subst]
    exact Pred.plain_subst (p := p) hm h
  | .and p q, h =>
    simp only [Pred.plain, Pred.subst, Bool.and_eq_true] at h ⊢
    exact ⟨Pred.plain_subst hm h.1, Pred.plain_subst hm h.2⟩
  | .or p q, h =>
    simp only [Pred.plain, Pred.subst, Bool.and_eq_true] at h ⊢
    exact ⟨Pred.plain_subst hm h.1, Pred.plain_subst hm h.2⟩
  | .implies p q, h =>
    simp only [Pred.plain, Pred.subst, Bool.and_eq_true] at h ⊢
    exact ⟨Pred.plain_subst hm h.1, Pred.plain_subst hm h.2⟩
  | .paren p, h =>
    rw [Pred.subst]
    exact Pred.plain_subst (p := p) hm h
  | .quantified q z body, h =>
    have hbody : body.plain = true := h
    have hinner : ∀ b ∈ m.without z.name, b.2.plain = true := by
      intro b hb
      exact hm b (Bindings.mem_of_mem_without hb).1
    rw [Pred.subst_quantified]
    split
    · exact h
    · split
      · exact Pred.plain_subst hinner (Pred.plain_rename hbody)
      · exact Pred.plain_subst hinner hbody
termination_by p.size
decreasing_by
  all_goals
    simp only [Pred.size, Pred.size_rename]
    omega

end

/-! ### Simplification keeps it -/

theorem plain_hereditary : Hereditary (fun e => e.plain = true) (fun p => p.plain = true) where
  const _ := rfl
  neg _ := Iff.rfl
  binary _ _ _ := Bool.and_eq_true_iff
  read a i h _ := by
    -- the index is a literal, which the pass leaves alone
    obtain ⟨n, rfl⟩ := Expr.exists_of_plain_read h
    exact h
  call _ _ h _ := absurd h Bool.false_ne_true
  cond _ _ _ := by rw [Expr.plain, Bool.and_eq_true, Bool.and_eq_true, and_assoc]
  bool _ := rfl
  compare _ _ _ := Bool.and_eq_true_iff
  not _ := Iff.rfl
  and _ _ := Bool.and_eq_true_iff
  or _ _ := Bool.and_eq_true_iff
  implies _ _ := Bool.and_eq_true_iff
  paren _ := Iff.rfl

theorem Pred.plain_simplify {p : Pred} (h : p.plain = true) : p.simplify.plain = true :=
  plain_hereditary.pred_simplify h

/-! ### Writing a cell keeps it -/

/-- The name that a binder gets where it would capture a name of the index or of the value. -/
def CellUpdate.newBinder (w : CellUpdate) (z : String) (body : Pred) : String :=
  freshName z (w.free ++ [w.array] ++ body.free ++ [z])

theorem CellUpdate.newBinder_spec (w : CellUpdate) (z : String) (body : Pred) :
    w.newBinder z body ∉ w.free ∧ w.newBinder z body ≠ w.array ∧
      w.newBinder z body ∉ body.free ∧ w.newBinder z body ≠ z := by
  have h := freshName_not_mem z (w.free ++ [w.array] ++ body.free ++ [z])
  simp only [List.mem_append, List.mem_singleton, not_or] at h
  exact ⟨h.1.1.1, h.1.1.2, h.1.2, h.2⟩

theorem Pred.substCell_quantified (w : CellUpdate) (q : Quantifier) (z : Param) (body : Pred) :
    (Pred.quantified q z body).substCell w =
      if z.name ∈ w.free then
        .quantified q { z with name := w.newBinder z.name body }
          ((body.rename z.name (w.newBinder z.name body)).substCell w)
      else .quantified q z (body.substCell w) := by
  rw [Pred.substCell]
  rfl

mutual

theorem Expr.plain_substCell {w : CellUpdate} (hw : w.value.plain = true) {e : Expr}
    (h : e.plain = true) : (e.substCell w).plain = true := by
  match e, h with
  | .const n, _ => simp only [Expr.substCell, Expr.plain]
  | .var x, _ => simp only [Expr.substCell, Expr.plain]
  | .neg a, h =>
    rw [Expr.substCell]
    exact Expr.plain_substCell (e := a) hw h
  | .binary op a b, h =>
    simp only [Expr.plain, Expr.substCell, Bool.and_eq_true] at h ⊢
    exact ⟨Expr.plain_substCell hw h.1, Expr.plain_substCell hw h.2⟩
  | .read a i, h =>
    obtain ⟨n, rfl⟩ := Expr.exists_of_plain_read h
    rw [Expr.substCell]
    split
    · exact hw
    · rw [Expr.substCell]
      exact h
  | .cond p a b, h =>
    simp only [Expr.plain, Expr.substCell, Bool.and_eq_true] at h ⊢
    exact ⟨⟨Pred.plain_substCell hw h.1.1, Expr.plain_substCell hw h.1.2⟩,
      Expr.plain_substCell hw h.2⟩
termination_by e.size
decreasing_by all_goals simp only [Expr.size]; omega

theorem Pred.plain_substCell {w : CellUpdate} (hw : w.value.plain = true) {p : Pred}
    (h : p.plain = true) : (p.substCell w).plain = true := by
  match p, h with
  | .bool b, _ => simp only [Pred.substCell, Pred.plain]
  | .compare op a b, h =>
    simp only [Pred.plain, Pred.substCell, Bool.and_eq_true] at h ⊢
    exact ⟨Expr.plain_substCell hw h.1, Expr.plain_substCell hw h.2⟩
  | .not p, h =>
    rw [Pred.substCell]
    exact Pred.plain_substCell (p := p) hw h
  | .and p q, h =>
    simp only [Pred.plain, Pred.substCell, Bool.and_eq_true] at h ⊢
    exact ⟨Pred.plain_substCell hw h.1, Pred.plain_substCell hw h.2⟩
  | .or p q, h =>
    simp only [Pred.plain, Pred.substCell, Bool.and_eq_true] at h ⊢
    exact ⟨Pred.plain_substCell hw h.1, Pred.plain_substCell hw h.2⟩
  | .implies p q, h =>
    simp only [Pred.plain, Pred.substCell, Bool.and_eq_true] at h ⊢
    exact ⟨Pred.plain_substCell hw h.1, Pred.plain_substCell hw h.2⟩
  | .paren p, h =>
    rw [Pred.substCell]
    exact Pred.plain_substCell (p := p) hw h
  | .quantified q z body, h =>
    have hbody : body.plain = true := h
    rw [Pred.substCell_quantified]
    split
    · exact Pred.plain_substCell hw (Pred.plain_rename hbody)
    · exact Pred.plain_substCell hw hbody
termination_by p.size
decreasing_by
  all_goals
    simp only [Pred.size, Pred.size_rename]
    omega

end

/-! ## What writing a cell means -/

theorem Expr.substCellList_eq_map (w : CellUpdate) (es : List Expr) :
    Expr.substCellList w es = es.map (Expr.substCell w) := by
  induction es with
  | nil => rw [Expr.substCellList, List.map_nil]
  | cons e es ih => rw [Expr.substCellList, List.map_cons, ih]

theorem CellUpdate.value_not_mem_free {w : CellUpdate} {x : String} (h : x ∉ w.free) :
    x ∉ w.value.free := fun hx => h (List.mem_append_right _ hx)

mutual

theorem Expr.Kinded.substCell {e : Expr} {K : Kinds} {w : CellUpdate} (hk : e.Kinded K)
    (hw : w.value.Kinded K) : (e.substCell w).Kinded K := by
  match e, hk with
  | .const n, _ => simp only [Expr.substCell, Expr.Kinded]
  | .var x, hk =>
    rw [Expr.substCell]
    exact hk
  | .neg a, hk =>
    simp only [Expr.substCell, Expr.Kinded] at hk ⊢
    exact hk.substCell hw
  | .binary op a b, hk =>
    simp only [Expr.substCell, Expr.Kinded] at hk ⊢
    exact ⟨hk.1.substCell hw, hk.2.substCell hw⟩
  | .read a i, hk =>
    rw [Expr.substCell]
    split
    · exact hw
    · simp only [Expr.Kinded] at hk ⊢
      exact ⟨hk.1, hk.2.substCell hw⟩
  | .call f args, hk =>
    simp only [Expr.substCell, Expr.substCellList_eq_map, Expr.Kinded] at hk ⊢
    exact Expr.KindedArgs.substCell hk hw
  | .cond p a b, hk =>
    simp only [Expr.substCell, Expr.Kinded] at hk ⊢
    exact ⟨hk.1.substCell hw, hk.2.1.substCell hw, hk.2.2.substCell hw⟩
termination_by 2 * e.size
decreasing_by all_goals simp only [Expr.size]; omega

theorem Expr.KindedArgs.substCell {es : List Expr} {K : Kinds} {w : CellUpdate}
    (hk : Expr.KindedArgs es K) (hw : w.value.Kinded K) :
    Expr.KindedArgs (es.map (Expr.substCell w)) K := by
  match es, hk with
  | [], _ => simp only [List.map_nil, Expr.KindedArgs]
  | e :: es, hk =>
    simp only [List.map_cons, Expr.KindedArgs] at hk ⊢
    refine ⟨?_, Expr.KindedArgs.substCell hk.2 hw⟩
    rcases hk.1 with ⟨x, rfl⟩ | hk
    · exact .inl ⟨x, by rw [Expr.substCell]⟩
    · exact .inr (hk.substCell hw)
termination_by 2 * Expr.sizes es + 1
decreasing_by
  all_goals
    have := e.size_pos
    simp only [Expr.sizes]
    omega

theorem Pred.Kinded.substCell {p : Pred} {K : Kinds} {w : CellUpdate} (hk : p.Kinded K)
    (hw : w.value.Kinded K) : (p.substCell w).Kinded K := by
  match p, hk with
  | .bool b, _ => simp only [Pred.substCell, Pred.Kinded]
  | .compare op a b, hk =>
    simp only [Pred.substCell, Pred.Kinded] at hk ⊢
    exact ⟨hk.1.substCell hw, hk.2.substCell hw⟩
  | .not p, hk =>
    simp only [Pred.substCell, Pred.Kinded] at hk ⊢
    exact hk.substCell hw
  | .and p q, hk =>
    simp only [Pred.substCell, Pred.Kinded] at hk ⊢
    exact ⟨hk.1.substCell hw, hk.2.substCell hw⟩
  | .or p q, hk =>
    simp only [Pred.substCell, Pred.Kinded] at hk ⊢
    exact ⟨hk.1.substCell hw, hk.2.substCell hw⟩
  | .implies p q, hk =>
    simp only [Pred.substCell, Pred.Kinded] at hk ⊢
    exact ⟨hk.1.substCell hw, hk.2.substCell hw⟩
  | .paren p, hk =>
    simp only [Pred.substCell, Pred.Kinded] at hk ⊢
    exact hk.substCell hw
  | .quantified q z body, hk =>
    rw [Pred.substCell_quantified]
    split
    · obtain ⟨hnf, hna, hnb, hnz⟩ := w.newBinder_spec z.name body
      simp only [Pred.Kinded] at hk ⊢
      exact (hk.rename_binder hnz hnb).substCell (hw.update (CellUpdate.value_not_mem_free hnf) _)
    · next hz =>
      simp only [Pred.Kinded] at hk ⊢
      exact hk.substCell (hw.update (CellUpdate.value_not_mem_free hz) _)
  | .formula f args, hk =>
    simp only [Pred.substCell, Expr.substCellList_eq_map, Pred.Kinded] at hk ⊢
    exact Expr.KindedArgs.substCell hk hw
termination_by 2 * p.size
decreasing_by
  all_goals
    simp only [Pred.size, Pred.size_rename]
    omega

end

/-- The second valuation is the first one with the cell `i` of `a` set to the value of `e`. Where
`a` is the name of a number, by a binder around it, nothing is written. -/
structure Valuation.Writes {α : Type} (M : Interpretation α) (K : Kinds) (a : String) (i : Int64)
    (e : Expr) (ρ ρ' : Valuation α) : Prop where
  other : ∀ y, y ≠ a → ρ' y = ρ y
  number : K a = .int → ρ' a = ρ a
  cell : K a = .array → M.read (ρ' a) i.toInt = e.value M ρ
  cells : K a = .array → ∀ j : Int64, j ≠ i → M.read (ρ' a) j.toInt = M.read (ρ a) j.toInt

/-- The same under a binder that does not occur in the value. -/
theorem Valuation.Writes.update {α : Type} {M : Interpretation α} {K : Kinds} {a : String}
    {i : Int64} {e : Expr} {ρ ρ' : Valuation α} (h : Valuation.Writes M K a i e ρ ρ') {z : String}
    (hz : z ∉ e.free) (n : Int) :
    Valuation.Writes M (Function.update K z .int) a i e (Function.update ρ z (.int n))
      (Function.update ρ' z (.int n)) := by
  by_cases hza : a = z
  · subst hza
    refine ⟨fun y hy => ?_, fun _ => ?_, fun ha => ?_, fun ha => ?_⟩
    · rw [Function.update_of_ne hy, Function.update_of_ne hy, h.other y hy]
    · rw [Function.update_self, Function.update_self]
    · rw [Function.update_self] at ha
      cases ha
    · rw [Function.update_self] at ha
      cases ha
  · refine ⟨fun y hy => ?_, fun ha => ?_, fun ha => ?_, fun ha j hj => ?_⟩
    · by_cases hyz : y = z
      · rw [hyz, Function.update_self, Function.update_self]
      · rw [Function.update_of_ne hyz, Function.update_of_ne hyz, h.other y hy]
    · rw [Function.update_of_ne hza] at ha
      rw [Function.update_of_ne hza, Function.update_of_ne hza, h.number ha]
    · rw [Function.update_of_ne hza] at ha
      rw [Function.update_of_ne hza, h.cell ha, Expr.value_update_of_not_free M hz]
    · rw [Function.update_of_ne hza] at ha
      rw [Function.update_of_ne hza, Function.update_of_ne hza, h.cells ha j hj]

mutual

theorem Expr.value_substCell {α : Type} {M : Interpretation α} {e : Expr} {K : Kinds} {a : String}
    {i : Int64} {v : Expr} (hp : e.plain = true) (hk : e.Kinded K) {ρ ρ' : Valuation α}
    (hw : Valuation.Writes M K a i v ρ ρ') :
    (e.substCell ⟨a, .const i, v⟩).value M ρ = e.value M ρ' := by
  match e, hp, hk with
  | .const n, _, _ => simp only [Expr.substCell, Expr.value]
  | .var x, _, hk =>
    simp only [Expr.Kinded] at hk
    simp only [Expr.substCell, Expr.value]
    by_cases hxa : x = a
    · subst hxa
      rw [hw.number hk]
    · rw [hw.other x hxa]
  | .neg b, hp, hk =>
    simp only [Expr.Kinded] at hk
    simp only [Expr.substCell, Expr.value]
    rw [Expr.value_substCell (e := b) hp hk hw]
  | .binary op b c, hp, hk =>
    simp only [Expr.Kinded] at hk
    rw [Expr.plain, Bool.and_eq_true] at hp
    simp only [Expr.substCell, Expr.value]
    rw [Expr.value_substCell hp.1 hk.1 hw, Expr.value_substCell hp.2 hk.2 hw]
  | .read b j, hp, hk =>
    obtain ⟨n, rfl⟩ := Expr.exists_of_plain_read hp
    simp only [Expr.Kinded, and_true] at hk
    rw [Expr.substCell]
    by_cases hba : b = a
    · subst hba
      by_cases hni : n = i
      · subst hni
        rw [if_pos ⟨rfl, rfl⟩, Expr.value, Expr.value, hw.cell hk]
      · rw [if_neg (fun h => hni (Expr.const.inj h.2)), Expr.substCell]
        simp only [Expr.value]
        rw [hw.cells hk n hni]
    · rw [if_neg (fun h => hba h.1), Expr.substCell]
      simp only [Expr.value]
      rw [hw.other b hba]
  | .cond p b c, hp, hk =>
    simp only [Expr.Kinded] at hk
    rw [Expr.plain, Bool.and_eq_true, Bool.and_eq_true] at hp
    simp only [Expr.substCell, Expr.value]
    rw [propext (Pred.holds_substCell hp.1.1 hk.1 hw), Expr.value_substCell hp.1.2 hk.2.1 hw,
      Expr.value_substCell hp.2 hk.2.2 hw]
termination_by e.size
decreasing_by all_goals simp only [Expr.size]; omega

/-- **The rule for writing a cell.** -/
theorem Pred.holds_substCell {α : Type} {M : Interpretation α} {p : Pred} {K : Kinds} {a : String}
    {i : Int64} {v : Expr} (hp : p.plain = true) (hk : p.Kinded K) {ρ ρ' : Valuation α}
    (hw : Valuation.Writes M K a i v ρ ρ') :
    (p.substCell ⟨a, .const i, v⟩).Holds M ρ ↔ p.Holds M ρ' := by
  match p, hp, hk with
  | .bool b, _, _ => simp only [Pred.substCell, Pred.Holds]
  | .compare op b c, hp, hk =>
    simp only [Pred.Kinded] at hk
    rw [Pred.plain, Bool.and_eq_true] at hp
    simp only [Pred.substCell, Pred.Holds]
    rw [Expr.value_substCell hp.1 hk.1 hw, Expr.value_substCell hp.2 hk.2 hw]
  | .not p, hp, hk =>
    simp only [Pred.Kinded] at hk
    simp only [Pred.substCell, Pred.Holds]
    rw [Pred.holds_substCell (p := p) hp hk hw]
  | .and p q, hp, hk =>
    simp only [Pred.Kinded] at hk
    rw [Pred.plain, Bool.and_eq_true] at hp
    simp only [Pred.substCell, Pred.Holds]
    rw [Pred.holds_substCell hp.1 hk.1 hw, Pred.holds_substCell hp.2 hk.2 hw]
  | .or p q, hp, hk =>
    simp only [Pred.Kinded] at hk
    rw [Pred.plain, Bool.and_eq_true] at hp
    simp only [Pred.substCell, Pred.Holds]
    rw [Pred.holds_substCell hp.1 hk.1 hw, Pred.holds_substCell hp.2 hk.2 hw]
  | .implies p q, hp, hk =>
    simp only [Pred.Kinded] at hk
    rw [Pred.plain, Bool.and_eq_true] at hp
    simp only [Pred.substCell, Pred.Holds]
    rw [Pred.holds_substCell hp.1 hk.1 hw, Pred.holds_substCell hp.2 hk.2 hw]
  | .paren p, hp, hk =>
    simp only [Pred.Kinded] at hk
    simp only [Pred.substCell, Pred.Holds]
    rw [Pred.holds_substCell (p := p) hp hk hw]
  | .quantified q z body, hp, hk =>
    have hbody : body.plain = true := hp
    simp only [Pred.Kinded] at hk
    rw [Pred.substCell_quantified]
    split
    · -- the binder gets a new name, which is no name of the value and not the array
      obtain ⟨hnf, hna, hnb, hnz⟩ :=
        CellUpdate.newBinder_spec ⟨a, .const i, v⟩ z.name body
      rw [Pred.holds_quantified, Pred.holds_quantified]
      refine q.holds_congr fun n => ?_
      rw [Pred.holds_substCell (Pred.plain_rename hbody) (hk.rename_binder hnz hnb)
        (hw.update (CellUpdate.value_not_mem_free hnf) n)]
      exact Pred.holds_rename_binder M (hk.readsApart_singleton (Function.update_self ..)) hnb ρ'
        (.int n)
    · next hz =>
      rw [Pred.holds_quantified, Pred.holds_quantified]
      refine q.holds_congr fun n => ?_
      exact Pred.holds_substCell hbody hk (hw.update (CellUpdate.value_not_mem_free hz) n)
termination_by p.size
decreasing_by
  all_goals
    simp only [Pred.size, Pred.size_rename]
    omega

end

/-! ## Only the cells that are read count -/

mutual

/-- The expression reads the cell with this literal index. -/
def Expr.Reads (a : String) (i : Int64) : Expr → Prop
  | .const _ | .var _ => False
  | .neg e => e.Reads a i
  | .binary _ x y => x.Reads a i ∨ y.Reads a i
  | .read b j => (b = a ∧ j = .const i) ∨ j.Reads a i
  | .call _ args => Expr.AnyReads a i args
  | .cond p x y => p.Reads a i ∨ x.Reads a i ∨ y.Reads a i

def Expr.AnyReads (a : String) (i : Int64) : List Expr → Prop
  | [] => False
  | e :: es => e.Reads a i ∨ Expr.AnyReads a i es

/-- The predicate reads the cell; under a binder of the array's name there is no such cell. -/
def Pred.Reads (a : String) (i : Int64) : Pred → Prop
  | .bool _ => False
  | .compare _ x y => x.Reads a i ∨ y.Reads a i
  | .not p | .paren p => p.Reads a i
  | .and p q | .or p q | .implies p q => p.Reads a i ∨ q.Reads a i
  | .quantified _ z p => z.name ≠ a ∧ p.Reads a i
  | .formula _ args => Expr.AnyReads a i args

end

mutual

theorem Expr.value_congr_reads {α : Type} (M : Interpretation α) : ∀ {e : Expr} {K : Kinds}
    {ρ ρ' : Valuation α}, e.plain = true → e.Kinded K →
      (∀ x ∈ e.free, K x = .int → ρ x = ρ' x) →
      (∀ a i, e.Reads a i → K a = .array → M.read (ρ a) i.toInt = M.read (ρ' a) i.toInt) →
      e.value M ρ = e.value M ρ'
  | .const _, _, _, _, _, _, _, _ => by simp only [Expr.value]
  | .var x, _, _, _, _, hk, hx, _ => by
    simp only [Expr.value]
    rw [hx x (by simp only [Expr.free, List.mem_singleton]) hk]
  | .neg e, _, _, _, hp, hk, hx, hr => by
    have hp : e.plain = true := hp
    simp only [Expr.value]
    rw [Expr.value_congr_reads M hp hk hx hr]
  | .binary _ a b, _, _, _, hp, hk, hx, hr => by
    rw [Expr.plain, Bool.and_eq_true] at hp
    simp only [Expr.free, List.mem_append] at hx
    simp only [Expr.value]
    rw [Expr.value_congr_reads M hp.1 hk.1 (fun x h => hx x (.inl h)) fun c i h => hr c i (.inl h),
      Expr.value_congr_reads M hp.2 hk.2 (fun x h => hx x (.inr h)) fun c i h => hr c i (.inr h)]
  | .read a j, _, _, _, hp, hk, _, hr => by
    obtain ⟨n, rfl⟩ := Expr.exists_of_plain_read hp
    simp only [Expr.value]
    exact hr a n (.inl ⟨rfl, rfl⟩) hk.1
  | .cond p a b, _, _, _, hp, hk, hx, hr => by
    rw [Expr.plain, Bool.and_eq_true, Bool.and_eq_true] at hp
    simp only [Expr.free, List.mem_append] at hx
    simp only [Expr.value]
    rw [propext (Pred.holds_congr_reads M hp.1.1 hk.1 (fun x h => hx x (.inl (.inl h)))
        fun c i h => hr c i (.inl h)),
      Expr.value_congr_reads M hp.1.2 hk.2.1 (fun x h => hx x (.inl (.inr h)))
        fun c i h => hr c i (.inr (.inl h)),
      Expr.value_congr_reads M hp.2 hk.2.2 (fun x h => hx x (.inr h))
        fun c i h => hr c i (.inr (.inr h))]

/-- The truth of a plain predicate depends on its free variables and on the cells it reads. -/
theorem Pred.holds_congr_reads {α : Type} (M : Interpretation α) : ∀ {p : Pred} {K : Kinds}
    {ρ ρ' : Valuation α}, p.plain = true → p.Kinded K →
      (∀ x ∈ p.free, K x = .int → ρ x = ρ' x) →
      (∀ a i, p.Reads a i → K a = .array → M.read (ρ a) i.toInt = M.read (ρ' a) i.toInt) →
      (p.Holds M ρ ↔ p.Holds M ρ')
  | .bool _, _, _, _, _, _, _, _ => by simp only [Pred.Holds]
  | .compare _ a b, _, _, _, hp, hk, hx, hr => by
    rw [Pred.plain, Bool.and_eq_true] at hp
    simp only [Pred.free, List.mem_append] at hx
    simp only [Pred.Holds]
    rw [Expr.value_congr_reads M hp.1 hk.1 (fun x h => hx x (.inl h)) fun c i h => hr c i (.inl h),
      Expr.value_congr_reads M hp.2 hk.2 (fun x h => hx x (.inr h)) fun c i h => hr c i (.inr h)]
  | .not p, _, _, _, hp, hk, hx, hr => by
    have hp : p.plain = true := hp
    simp only [Pred.Holds]
    rw [Pred.holds_congr_reads M hp hk hx hr]
  | .and p q, _, _, _, hp, hk, hx, hr => by
    rw [Pred.plain, Bool.and_eq_true] at hp
    simp only [Pred.free, List.mem_append] at hx
    simp only [Pred.Holds]
    rw [Pred.holds_congr_reads M hp.1 hk.1 (fun x h => hx x (.inl h)) fun c i h => hr c i (.inl h),
      Pred.holds_congr_reads M hp.2 hk.2 (fun x h => hx x (.inr h)) fun c i h => hr c i (.inr h)]
  | .or p q, _, _, _, hp, hk, hx, hr => by
    rw [Pred.plain, Bool.and_eq_true] at hp
    simp only [Pred.free, List.mem_append] at hx
    simp only [Pred.Holds]
    rw [Pred.holds_congr_reads M hp.1 hk.1 (fun x h => hx x (.inl h)) fun c i h => hr c i (.inl h),
      Pred.holds_congr_reads M hp.2 hk.2 (fun x h => hx x (.inr h)) fun c i h => hr c i (.inr h)]
  | .implies p q, _, _, _, hp, hk, hx, hr => by
    rw [Pred.plain, Bool.and_eq_true] at hp
    simp only [Pred.free, List.mem_append] at hx
    simp only [Pred.Holds]
    rw [Pred.holds_congr_reads M hp.1 hk.1 (fun x h => hx x (.inl h)) fun c i h => hr c i (.inl h),
      Pred.holds_congr_reads M hp.2 hk.2 (fun x h => hx x (.inr h)) fun c i h => hr c i (.inr h)]
  | .paren p, _, _, _, hp, hk, hx, hr => by
    have hp : p.plain = true := hp
    simp only [Pred.Holds]
    rw [Pred.holds_congr_reads M hp hk hx hr]
  | .quantified q z p, K, _, _, hp, hk, hx, hr => by
    have hp : p.plain = true := hp
    have hk : p.Kinded (Function.update K z.name .int) := hk
    rw [Pred.holds_quantified, Pred.holds_quantified]
    refine q.holds_congr fun n => Pred.holds_congr_reads M hp hk (fun x h hint => ?_)
      fun a i h harray => ?_
    · -- the bound variable has the same number on both sides
      by_cases hxz : x = z.name
      · rw [hxz, Function.update_self, Function.update_self]
      · rw [Function.update_of_ne hxz] at hint
        rw [Function.update_of_ne hxz, Function.update_of_ne hxz]
        refine hx x ?_ hint
        simp only [Pred.free, List.mem_filter, bne_iff_ne]
        exact ⟨h, hxz⟩
    · -- and it is no array that a cell could be read from
      by_cases haz : a = z.name
      · rw [haz, Function.update_self] at harray
        cases harray
      · rw [Function.update_of_ne haz] at harray
        rw [Function.update_of_ne haz, Function.update_of_ne haz]
        exact hr a i ⟨Ne.symm haz, h⟩ harray

end

end Contracts

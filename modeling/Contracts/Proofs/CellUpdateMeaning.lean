import Contracts.Proofs.CellAliasing

/-!
# The meaning of writing a cell

Where the reads of an array do not alias the written cell, putting a value in for the reads of that
cell is the same as asking in the valuation where the cell has the value
(`substCell_means_update`). Indices can be any expressions, also reads of the same array.

The proof is in two steps. A read inside the index of the write has a smaller index, so it is of
another cell, and after the write the index still has its old value (`Expr.value_of_noAlias`). With
that, the induction over the predicate follows the substitution. It is on the size because binders
are renamed on the way.
-/

set_option autoImplicit false

namespace Contracts

/-! ## Valuations that differ in one cell -/

/-- Under a binder an array is still an array unless the binder has its name. -/
theorem Kinds.array_of_update {K : Kinds} {a z : String}
    (h : Function.update K z VarType.int a = .array) : K a = .array ∧ z ≠ a := by
  by_cases hza : a = z
  · rw [hza, Function.update_self] at h
    cases h
  · rw [Function.update_of_ne hza] at h
    exact ⟨h, Ne.symm hza⟩

/-- What one argument can be in both valuations: the same datum, or the array `a` itself if it is
`given`. -/
def Valuation.PassedAs {α : Type} (a : String) (ρ ρ' : Valuation α) (given : Prop)
    (d d' : Datum α) : Prop := d' = d ∨ given ∧ d = ρ a ∧ d' = ρ' a

theorem Valuation.PassedAs.eq_of_not_given {α : Type} {a : String} {ρ ρ' : Valuation α}
    {given : Prop} (hgiven : ¬given) {ds ds' : List (Datum α)}
    (h : List.Forall₂ (Valuation.PassedAs a ρ ρ' given) ds ds') : ds' = ds := by
  induction h with
  | nil => rfl
  | cons hd _ ih => rw [hd.resolve_right fun hd => hgiven hd.1, ih]

/-- The valuations differ at most in the cell `n` of the array `a`, which `length` does not see.
Where `a` is the name of a number, by a binder around it, they are the same. -/
structure Valuation.SameBut {α : Type} (M : Interpretation α) (K : Kinds) (a : String) (n : Int)
    (ρ ρ' : Valuation α) : Prop where
  kinds : ρ.HasKinds K
  kinds' : ρ'.HasKinds K
  other : ∀ y, y ≠ a → ρ' y = ρ y
  number : K a = .int → ρ' a = ρ a
  cells : K a = .array → ∀ j, j ≠ n → M.read (ρ' a) j = M.read (ρ a) j
  length : ∀ ds ds', List.Forall₂ (Valuation.PassedAs a ρ ρ' True) ds ds' →
    M.call "length" ds' = M.call "length" ds

namespace Valuation.SameBut

variable {α : Type} {M : Interpretation α} {K : Kinds} {a : String} {n : Int}
  {ρ ρ' : Valuation α}

theorem update (h : Valuation.SameBut M K a n ρ ρ') (z : String) (k : Int) :
    Valuation.SameBut M (Function.update K z .int) a n (Function.update ρ z (.int k))
      (Function.update ρ' z (.int k)) := by
  by_cases hza : a = z
  · subst hza
    refine ⟨h.kinds.update a k, h.kinds'.update a k, fun y hy => ?_, fun _ => ?_, fun ha => ?_,
      fun ds ds' hds => ?_⟩
    · rw [Function.update_of_ne hy, Function.update_of_ne hy, h.other y hy]
    · rw [Function.update_self, Function.update_self]
    · rw [Function.update_self] at ha
      cases ha
    · -- the name is that of one number, so the arguments are the same
      have hsame : ∀ d d' : Datum α, Valuation.PassedAs a (Function.update ρ a (.int k))
          (Function.update ρ' a (.int k)) True d d' → Valuation.PassedAs a ρ ρ' False d d' := by
        rintro d d' (hd | ⟨-, hd, hd'⟩)
        · exact .inl hd
        · rw [Function.update_self] at hd hd'
          exact .inl (hd'.trans hd.symm)
      rw [Valuation.PassedAs.eq_of_not_given not_false (hds.imp hsame)]
  · refine ⟨h.kinds.update z k, h.kinds'.update z k, fun y hy => ?_, fun ha => ?_,
      fun ha j hj => ?_, fun ds ds' hds => h.length ds ds' ?_⟩
    · by_cases hyz : y = z
      · rw [hyz, Function.update_self, Function.update_self]
      · rw [Function.update_of_ne hyz, Function.update_of_ne hyz, h.other y hy]
    · rw [Function.update_of_ne hza] at ha
      rw [Function.update_of_ne hza, Function.update_of_ne hza, h.number ha]
    · rw [Function.update_of_ne hza] at ha
      rw [Function.update_of_ne hza, Function.update_of_ne hza, h.cells ha j hj]
    · unfold Valuation.PassedAs at hds ⊢
      rwa [Function.update_of_ne hza, Function.update_of_ne hza] at hds

/-- A function that is given the array only if it is `length` has the same result. -/
theorem call_eq (h : Valuation.SameBut M K a n ρ ρ') {f : String} {ds ds' : List (Datum α)}
    (hds : List.Forall₂ (Valuation.PassedAs a ρ ρ' (f = "length")) ds ds') :
    M.call f ds' = M.call f ds := by
  by_cases hf : f = "length"
  · subst hf
    exact h.length ds ds' (hds.imp fun d d' hd => hd.imp_right fun hd => ⟨trivial, hd.2⟩)
  · rw [Valuation.PassedAs.eq_of_not_given hf hds]

theorem passedAs (h : Valuation.SameBut M K a n ρ ρ') {given : Prop} {x : String}
    (hgiven : K a = .array → x = a → given) : Valuation.PassedAs a ρ ρ' given (ρ x) (ρ' x) := by
  by_cases hxa : x = a
  · subst hxa
    cases hK : K x with
    | int => exact .inl (h.number hK)
    | array => exact .inr ⟨hgiven hK rfl, rfl, rfl⟩
  · exact .inl (h.other x hxa)

end Valuation.SameBut

/-! ## The index keeps its value -/

section

variable {α : Type} {M : Interpretation α} {w : CellUpdate} {n : Int}

mutual

/-- An expression no larger than the index of the write reads only other cells. -/
theorem Expr.value_of_noAlias : ∀ {e : Expr} {K : Kinds} {bound : List String}
    {ρ ρ' : Valuation α}, e.size ≤ w.index.size → e.Kinded K →
      Valuation.SameBut M K w.array n ρ ρ' → (K w.array = .array → e.Withholds w.array) →
      e.NoAlias M w n bound ρ' → e.value M ρ' = e.value M ρ
  | .const _, _, _, _, _, _, _, _, _, _ => by simp only [Expr.value]
  | .var x, _, _, _, _, _, hk, hs, _, _ => by
    simp only [Expr.Kinded] at hk
    simp only [Expr.value]
    by_cases hxa : x = w.array
    · subst hxa
      rw [hs.number hk]
    · rw [hs.other x hxa]
  | .neg _, _, _, _, _, hsize, hk, hs, hh, h => by
    simp only [Expr.size] at hsize
    simp only [Expr.Kinded, Expr.Withholds, Expr.NoAlias] at hk hh h
    simp only [Expr.value]
    rw [Expr.value_of_noAlias (by omega) hk hs hh h]
  | .binary .., _, _, _, _, hsize, hk, hs, hh, h => by
    simp only [Expr.size] at hsize
    simp only [Expr.Kinded, Expr.Withholds, Expr.NoAlias] at hk hh h
    simp only [Expr.value]
    rw [Expr.value_of_noAlias (by omega) hk.1 hs (fun hK => (hh hK).1) h.1,
      Expr.value_of_noAlias (by omega) hk.2 hs (fun hK => (hh hK).2) h.2]
  | .read b j, _, _, _, _, hsize, hk, hs, hh, h => by
    simp only [Expr.size] at hsize
    simp only [Expr.Kinded, Expr.Withholds, Expr.NoAlias] at hk hh h
    have hj := Expr.value_of_noAlias (by omega) hk.2 hs hh h.2
    simp only [Expr.value]
    by_cases hb : b = w.array
    · subst hb
      -- the index is smaller than that of the write, so it is another one
      have hne := (h.1 rfl).resolve_left fun hi => by
        rw [hi.1] at hsize
        omega
      rw [hs.cells hk.1 _ hne, hj]
    · rw [hs.other b hb, hj]
  | .call .., _, _, _, _, hsize, hk, hs, hh, h => by
    simp only [Expr.size] at hsize
    simp only [Expr.Kinded, Expr.Withholds, Expr.NoAlias] at hk hh h
    simp only [Expr.value]
    exact hs.call_eq (Expr.data_of_noAlias (by omega) hk hs (fun hK => (hh hK).2)
      (fun hK => (hh hK).1) h)
  | .cond .., _, _, _, _, hsize, hk, hs, hh, h => by
    simp only [Expr.size] at hsize
    simp only [Expr.Kinded, Expr.Withholds, Expr.NoAlias] at hk hh h
    simp only [Expr.value]
    rw [propext (Pred.holds_of_noAlias (by omega) hk.1 hs (fun hK => (hh hK).1) h.1),
      Expr.value_of_noAlias (by omega) hk.2.1 hs (fun hK => (hh hK).2.1) h.2.1,
      Expr.value_of_noAlias (by omega) hk.2.2 hs (fun hK => (hh hK).2.2) h.2.2]

theorem Expr.data_of_noAlias : ∀ {es : List Expr} {K : Kinds} {bound : List String}
    {ρ ρ' : Valuation α} {given : Prop}, Expr.sizes es ≤ w.index.size → Expr.KindedArgs es K →
      Valuation.SameBut M K w.array n ρ ρ' → (K w.array = .array → Expr.WithholdsIn w.array es) →
      (K w.array = .array → .var w.array ∈ es → given) → Expr.NoAliasIn M w n es bound ρ' →
      List.Forall₂ (Valuation.PassedAs w.array ρ ρ' given) (Expr.data M es ρ) (Expr.data M es ρ')
  | [], _, _, _, _, _, _, _, _, _, _, _ => by
    simp only [Expr.data]
    exact .nil
  | e :: es, _, _, _, _, _, hsize, hk, hs, hh, hgiven, h => by
    simp only [Expr.sizes] at hsize
    simp only [Expr.KindedArgs, Expr.WithholdsIn, Expr.NoAliasIn] at hk hh h
    simp only [Expr.data]
    refine .cons ?_ (Expr.data_of_noAlias (by omega) hk.2 hs (fun hK => (hh hK).2)
      (fun hK hmem => hgiven hK (List.mem_cons_of_mem _ hmem)) h.2)
    rcases hk.1 with ⟨x, rfl⟩ | hke
    · exact hs.passedAs fun hK hx => hgiven hK (by rw [hx]; exact List.mem_cons_self)
    · rw [hke.datum_eq hs.kinds, hke.datum_eq hs.kinds',
        Expr.value_of_noAlias (by omega) hke hs (fun hK => (hh hK).1) h.1]
      exact .inl rfl

theorem Pred.holds_of_noAlias : ∀ {p : Pred} {K : Kinds} {bound : List String}
    {ρ ρ' : Valuation α}, p.size ≤ w.index.size → p.Kinded K →
      Valuation.SameBut M K w.array n ρ ρ' → (K w.array = .array → p.Withholds w.array) →
      p.NoAlias M w n bound ρ' → (p.Holds M ρ' ↔ p.Holds M ρ)
  | .bool _, _, _, _, _, _, _, _, _, _ => by simp only [Pred.Holds]
  | .compare .., _, _, _, _, hsize, hk, hs, hh, h => by
    simp only [Pred.size] at hsize
    simp only [Pred.Kinded, Pred.Withholds, Pred.NoAlias] at hk hh h
    simp only [Pred.Holds]
    rw [Expr.value_of_noAlias (by omega) hk.1 hs (fun hK => (hh hK).1) h.1,
      Expr.value_of_noAlias (by omega) hk.2 hs (fun hK => (hh hK).2) h.2]
  | .not _, _, _, _, _, hsize, hk, hs, hh, h | .paren _, _, _, _, _, hsize, hk, hs, hh, h => by
    simp only [Pred.size] at hsize
    simp only [Pred.Kinded, Pred.Withholds, Pred.NoAlias] at hk hh h
    simp only [Pred.Holds]
    rw [Pred.holds_of_noAlias (by omega) hk hs hh h]
  | .and .., _, _, _, _, hsize, hk, hs, hh, h | .or .., _, _, _, _, hsize, hk, hs, hh, h
  | .implies .., _, _, _, _, hsize, hk, hs, hh, h => by
    simp only [Pred.size] at hsize
    simp only [Pred.Kinded, Pred.Withholds, Pred.NoAlias] at hk hh h
    simp only [Pred.Holds]
    rw [Pred.holds_of_noAlias (by omega) hk.1 hs (fun hK => (hh hK).1) h.1,
      Pred.holds_of_noAlias (by omega) hk.2 hs (fun hK => (hh hK).2) h.2]
  | .quantified q z p, K, _, _, _, hsize, hk, hs, hh, h => by
    simp only [Pred.size] at hsize
    simp only [Pred.Kinded, Pred.Withholds, Pred.NoAlias] at hk hh h
    rw [Pred.holds_quantified, Pred.holds_quantified]
    refine q.holds_congr fun k => ?_
    refine Pred.holds_of_noAlias (by omega) hk (hs.update z.name k) (fun hK => ?_) (h k)
    obtain ⟨hK, hz⟩ := Kinds.array_of_update hK
    exact hh hK hz
  | .formula .., _, _, _, _, hsize, hk, hs, hh, h => by
    simp only [Pred.size] at hsize
    simp only [Pred.Kinded, Pred.Withholds, Pred.NoAlias] at hk hh h
    simp only [Pred.Holds]
    rw [Valuation.PassedAs.eq_of_not_given not_false (Expr.data_of_noAlias (by omega) hk hs
      (fun hK => (hh hK).2) (fun hK hmem => (hh hK).1 hmem) h)]

end

end

/-! ## The substitution writes the cell -/

/-- The second valuation is the first one with the cell of the write set to its value. -/
structure Valuation.Updates {α : Type} (M : Interpretation α) (K : Kinds) (w : CellUpdate) (n : Int)
    (ρ ρ' : Valuation α) : Prop extends Valuation.SameBut M K w.array n ρ ρ' where
  index : K w.array = .array → w.index.value M ρ = n
  cell : K w.array = .array → M.read (ρ' w.array) n = w.value.value M ρ
  value : w.value.Kinded K

theorem Valuation.Updates.update {α : Type} {M : Interpretation α} {K : Kinds} {w : CellUpdate}
    {n : Int} {ρ ρ' : Valuation α} (h : Valuation.Updates M K w n ρ ρ') {z : String}
    (hz : z ∉ w.free) (k : Int) :
    Valuation.Updates M (Function.update K z .int) w n (Function.update ρ z (.int k))
      (Function.update ρ' z (.int k)) := by
  obtain ⟨hindex, hvalue⟩ := not_or.mp fun hmem => hz (List.mem_append.mpr hmem)
  refine ⟨h.toSameBut.update z k, fun hK => ?_, fun hK => ?_, h.value.update hvalue _⟩
  · rw [Expr.value_update_of_not_free M hindex, h.index (Kinds.array_of_update hK).1]
  · obtain ⟨hK, hza⟩ := Kinds.array_of_update hK
    rw [Function.update_of_ne (Ne.symm hza), Expr.value_update_of_not_free M hvalue, h.cell hK]

section

variable {α : Type} {M : Interpretation α} {w : CellUpdate} {n : Int}

mutual

theorem Expr.value_substCell_of_noAlias {e : Expr} {K : Kinds} {bound : List String}
    {ρ ρ' : Valuation α} (hk : e.Kinded K) (hw : Valuation.Updates M K w n ρ ρ')
    (hh : K w.array = .array → e.Withholds w.array) (h : e.NoAlias M w n bound ρ')
    (hb : w.index.Unnumbered ∨ ∀ z ∈ e.binders, z ∉ w.free) :
    (e.substCell w).value M ρ = e.value M ρ' := by
  match e, hk, hh, h, hb with
  | .const c, _, _, _, _ => simp only [Expr.substCell, Expr.value]
  | .var x, hk, _, _, _ =>
    simp only [Expr.Kinded] at hk
    simp only [Expr.substCell, Expr.value]
    by_cases hxa : x = w.array
    · subst hxa
      rw [hw.number hk]
    · rw [hw.other x hxa]
  | .neg a, hk, hh, h, hb =>
    simp only [Expr.Kinded, Expr.Withholds, Expr.NoAlias] at hk hh h
    simp only [Expr.substCell, Expr.value]
    rw [Expr.value_substCell_of_noAlias hk hw hh h hb]
  | .binary op a b, hk, hh, h, hb =>
    simp only [Expr.Kinded, Expr.Withholds, Expr.NoAlias] at hk hh h
    simp only [Expr.binders, List.forall_mem_append] at hb
    simp only [Expr.substCell, Expr.value]
    rw [Expr.value_substCell_of_noAlias hk.1 hw (fun hK => (hh hK).1) h.1 (hb.imp_right And.left),
      Expr.value_substCell_of_noAlias hk.2 hw (fun hK => (hh hK).2) h.2 (hb.imp_right And.right)]
  | .read b j, hk, hh, h, hb =>
    simp only [Expr.Kinded, Expr.Withholds, Expr.NoAlias] at hk hh h
    rw [Expr.substCell]
    by_cases hba : b = w.array
    · subst hba
      by_cases hj : j = w.index
      · subst hj
        -- the read is replaced, and after the write its index still leads to the written cell
        have hindex := Expr.value_of_noAlias (Nat.le_refl _) hk.2 hw.toSameBut hh h.2
        rw [if_pos ⟨rfl, rfl⟩, Expr.value, hindex, hw.index hk.1, hw.cell hk.1]
      · have hne := (h.1 rfl).resolve_left fun hi => hj hi.1
        rw [if_neg fun hi => hj hi.2, Expr.value, Expr.value,
          Expr.value_substCell_of_noAlias hk.2 hw hh h.2 hb, hw.cells hk.1 _ hne]
    · rw [if_neg fun hi => hba hi.1, Expr.value, Expr.value,
        Expr.value_substCell_of_noAlias hk.2 hw hh h.2 hb, hw.other b hba]
  | .call f args, hk, hh, h, hb =>
    simp only [Expr.Kinded, Expr.Withholds, Expr.NoAlias] at hk hh h
    simp only [Expr.substCell, Expr.substCellList_eq_map, Expr.value]
    exact (hw.call_eq (Expr.data_substCell_of_noAlias hk hw (fun hK => (hh hK).2)
      (fun hK => (hh hK).1) h hb)).symm
  | .cond p a b, hk, hh, h, hb =>
    simp only [Expr.Kinded, Expr.Withholds, Expr.NoAlias] at hk hh h
    simp only [Expr.binders, List.forall_mem_append] at hb
    simp only [Expr.substCell, Expr.value]
    rw [propext (Pred.holds_substCell_of_noAlias hk.1 hw (fun hK => (hh hK).1) h.1
        (hb.imp_right fun hb => hb.1.1)),
      Expr.value_substCell_of_noAlias hk.2.1 hw (fun hK => (hh hK).2.1) h.2.1
        (hb.imp_right fun hb => hb.1.2),
      Expr.value_substCell_of_noAlias hk.2.2 hw (fun hK => (hh hK).2.2) h.2.2
        (hb.imp_right And.right)]
termination_by 2 * e.size
decreasing_by all_goals simp only [Expr.size]; omega

theorem Expr.data_substCell_of_noAlias {es : List Expr} {K : Kinds} {bound : List String}
    {ρ ρ' : Valuation α} {given : Prop} (hk : Expr.KindedArgs es K)
    (hw : Valuation.Updates M K w n ρ ρ') (hh : K w.array = .array → Expr.WithholdsIn w.array es)
    (hgiven : K w.array = .array → .var w.array ∈ es → given)
    (h : Expr.NoAliasIn M w n es bound ρ')
    (hb : w.index.Unnumbered ∨ ∀ z ∈ Expr.bindersList es, z ∉ w.free) :
    List.Forall₂ (Valuation.PassedAs w.array ρ ρ' given)
      (Expr.data M (es.map (Expr.substCell w)) ρ) (Expr.data M es ρ') := by
  match es, hk, hh, hgiven, h, hb with
  | [], _, _, _, _, _ =>
    simp only [List.map_nil, Expr.data]
    exact .nil
  | e :: es, hk, hh, hgiven, h, hb =>
    simp only [Expr.KindedArgs, Expr.WithholdsIn, Expr.NoAliasIn] at hk hh h
    simp only [Expr.bindersList, List.forall_mem_append] at hb
    simp only [List.map_cons, Expr.data]
    refine .cons ?_ (Expr.data_substCell_of_noAlias hk.2 hw (fun hK => (hh hK).2)
      (fun hK hmem => hgiven hK (List.mem_cons_of_mem _ hmem)) h.2 (hb.imp_right And.right))
    rcases hk.1 with ⟨x, rfl⟩ | hke
    · -- a bare name is passed as it is, also if it is the array
      rw [Expr.substCell]
      exact hw.passedAs fun hK hx => hgiven hK (by rw [hx]; exact List.mem_cons_self)
    · rw [(hke.substCell hw.value).datum_eq hw.kinds, hke.datum_eq hw.kinds',
        Expr.value_substCell_of_noAlias hke hw (fun hK => (hh hK).1) h.1 (hb.imp_right And.left)]
      exact .inl rfl
termination_by 2 * Expr.sizes es + 1
decreasing_by
  all_goals
    have := e.size_pos
    simp only [Expr.sizes]
    omega

theorem Pred.holds_substCell_of_noAlias {p : Pred} {K : Kinds} {bound : List String}
    {ρ ρ' : Valuation α} (hk : p.Kinded K) (hw : Valuation.Updates M K w n ρ ρ')
    (hh : K w.array = .array → p.Withholds w.array) (h : p.NoAlias M w n bound ρ')
    (hb : w.index.Unnumbered ∨ ∀ z ∈ p.binders, z ∉ w.free) :
    (p.substCell w).Holds M ρ ↔ p.Holds M ρ' := by
  match p, hk, hh, h, hb with
  | .bool b, _, _, _, _ => simp only [Pred.substCell, Pred.Holds]
  | .compare op a b, hk, hh, h, hb =>
    simp only [Pred.Kinded, Pred.Withholds, Pred.NoAlias] at hk hh h
    simp only [Pred.binders, List.forall_mem_append] at hb
    simp only [Pred.substCell, Pred.Holds]
    rw [Expr.value_substCell_of_noAlias hk.1 hw (fun hK => (hh hK).1) h.1 (hb.imp_right And.left),
      Expr.value_substCell_of_noAlias hk.2 hw (fun hK => (hh hK).2) h.2 (hb.imp_right And.right)]
  | .not p, hk, hh, h, hb =>
    simp only [Pred.Kinded, Pred.Withholds, Pred.NoAlias] at hk hh h
    simp only [Pred.substCell, Pred.Holds]
    rw [Pred.holds_substCell_of_noAlias hk hw hh h hb]
  | .and p q, hk, hh, h, hb =>
    simp only [Pred.Kinded, Pred.Withholds, Pred.NoAlias] at hk hh h
    simp only [Pred.binders, List.forall_mem_append] at hb
    simp only [Pred.substCell, Pred.Holds]
    rw [Pred.holds_substCell_of_noAlias hk.1 hw (fun hK => (hh hK).1) h.1 (hb.imp_right And.left),
      Pred.holds_substCell_of_noAlias hk.2 hw (fun hK => (hh hK).2) h.2 (hb.imp_right And.right)]
  | .or p q, hk, hh, h, hb =>
    simp only [Pred.Kinded, Pred.Withholds, Pred.NoAlias] at hk hh h
    simp only [Pred.binders, List.forall_mem_append] at hb
    simp only [Pred.substCell, Pred.Holds]
    rw [Pred.holds_substCell_of_noAlias hk.1 hw (fun hK => (hh hK).1) h.1 (hb.imp_right And.left),
      Pred.holds_substCell_of_noAlias hk.2 hw (fun hK => (hh hK).2) h.2 (hb.imp_right And.right)]
  | .implies p q, hk, hh, h, hb =>
    simp only [Pred.Kinded, Pred.Withholds, Pred.NoAlias] at hk hh h
    simp only [Pred.binders, List.forall_mem_append] at hb
    simp only [Pred.substCell, Pred.Holds]
    rw [Pred.holds_substCell_of_noAlias hk.1 hw (fun hK => (hh hK).1) h.1 (hb.imp_right And.left),
      Pred.holds_substCell_of_noAlias hk.2 hw (fun hK => (hh hK).2) h.2 (hb.imp_right And.right)]
  | .paren p, hk, hh, h, hb =>
    simp only [Pred.Kinded, Pred.Withholds, Pred.NoAlias] at hk hh h
    simp only [Pred.substCell, Pred.Holds]
    rw [Pred.holds_substCell_of_noAlias hk hw hh h hb]
  | .quantified q z body, hk, hh, h, hb =>
    simp only [Pred.Kinded, Pred.Withholds, Pred.NoAlias] at hk hh h
    simp only [Pred.binders, List.forall_mem_cons] at hb
    rw [Pred.substCell_quantified]
    split
    · next hz =>
      -- the body is renamed before the induction hypothesis is used, and keeps all conditions
      have hn := hb.resolve_right fun hb => hb.1 hz
      obtain ⟨hnf, hna, hnb, hnz⟩ := w.newBinder_spec z.name body
      have hr : body.ReadsApart [z.name] := hk.readsApart_singleton (Function.update_self ..)
      rw [Pred.holds_quantified, Pred.holds_quantified]
      refine q.holds_congr fun k => ?_
      have hhide : Function.update K (w.newBinder z.name body) VarType.int w.array = .array →
          (body.rename z.name (w.newBinder z.name body)).Withholds w.array :=
        fun hK => Pred.Withholds.rename hna (hh (Kinds.array_of_update hK).1)
      rw [Pred.holds_substCell_of_noAlias (hk.rename_binder hnz hnb) (hw.update hnf k) hhide
        ((h k).rename_binder hn (hn.freshName_not_mem _ _) hr hnb) (.inl hn)]
      exact Pred.holds_rename_binder M hr hnb ρ' (.int k)
    · next hz =>
      rw [Pred.holds_quantified, Pred.holds_quantified]
      refine q.holds_congr fun k => ?_
      refine Pred.holds_substCell_of_noAlias hk (hw.update hz k) (fun hK => ?_) (h k)
        (hb.imp_right And.right)
      obtain ⟨hK, hza⟩ := Kinds.array_of_update hK
      exact hh hK hza
  | .formula f args, hk, hh, h, hb =>
    simp only [Pred.Kinded, Pred.Withholds, Pred.NoAlias] at hk hh h
    simp only [Pred.substCell, Expr.substCellList_eq_map, Pred.Holds]
    rw [Valuation.PassedAs.eq_of_not_given not_false (Expr.data_substCell_of_noAlias hk hw
      (fun hK => (hh hK).2) (fun hK hmem => (hh hK).1 hmem) h hb)]
termination_by 2 * p.size
decreasing_by
  all_goals
    simp only [Pred.size, Pred.size_rename]
    omega

end

end

/-- **The rule for writing a cell.** Take any arrays, any functions and formulas, and a write of the
array `c`, which becomes `c'`. Let names have kinds, let no formula take the array and no function
but `length`, which does not see the write, and let no other index of a read have the value of the
written one. If no quantifier inside the index has a numbered name, or no binder of the predicate
has to be renamed, then the predicate with the value put in for the reads of the cell is true before
the write exactly if the predicate is true after it. -/
theorem substCell_means_update {α : Type} (M : Interpretation α) (K : Kinds) (p : Pred)
    (w : CellUpdate) (ρ : Valuation α) (c c' : α) (hkinds : p.Kinded K) (hvalue : w.value.Kinded K)
    (hρ : ρ.HasKinds K) (hc : ρ w.array = .array c)
    (hc' : ∀ j, M.cell c' j = if j = w.index.value M ρ then w.value.value M ρ else M.cell c j)
    (hlength : ∀ ds ds' : List (Datum α),
      List.Forall₂ (fun d d' => d' = d ∨ d = .array c ∧ d' = .array c') ds ds' →
        M.call "length" ds' = M.call "length" ds)
    (hformulas : p.formulaTaking? w.array = none) (hcalls : p.OnlyLengthTakes w.array)
    (hclear : p.NoAlias M w (w.index.value M ρ) [] (Function.update ρ w.array (.array c')))
    (hbinders : w.index.Unnumbered ∨ ∀ z ∈ p.binders, z ∉ w.free) :
    (p.substCell w).Holds M ρ ↔ p.Holds M (Function.update ρ w.array (.array c')) := by
  have harray : K w.array = .array := by
    rw [← hρ, hc]
    rfl
  have hρ' : Valuation.HasKinds (Function.update ρ w.array (.array c')) K := by
    intro x
    by_cases hx : x = w.array
    · rw [hx, Function.update_self, harray]
      rfl
    · rw [Function.update_of_ne hx, hρ x]
  -- the write is seen at its cell and nowhere else, and not by `length`
  have hsame : Valuation.SameBut M K w.array (w.index.value M ρ) ρ
      (Function.update ρ w.array (.array c')) := by
    refine ⟨hρ, hρ', fun y hy => Function.update_of_ne hy .., fun hint => ?_, fun _ j hj => ?_,
      fun ds ds' hds => hlength ds ds' (hds.imp fun d d' hd => ?_)⟩
    · rw [harray] at hint
      cases hint
    · rw [Function.update_self, hc]
      exact (hc' j).trans (if_neg hj)
    · rw [Valuation.PassedAs, Function.update_self, hc] at hd
      exact hd.imp_right And.right
  have hupdates : Valuation.Updates M K w (w.index.value M ρ) ρ
      (Function.update ρ w.array (.array c')) := by
    refine ⟨hsame, fun _ => rfl, fun _ => ?_, hvalue⟩
    rw [Function.update_self]
    exact (hc' _).trans (if_pos rfl)
  exact Pred.holds_substCell_of_noAlias hkinds hupdates
    (fun _ => Pred.withholds_of_guard hformulas hcalls) hclear hbinders

/-! ### A write under a binder -/

/-- All the cells of `a` are zero, `x` is two and `k` is five. -/
def zerosAndNumbers : Valuation (Int → Int)
  | "a" => .array fun _ => 0
  | "x" => .int 2
  | "k" => .int 5
  | _ => .int 0

/-- Only `a` is an array. -/
def onlyArrayA : Kinds := fun x => if x = "a" then .array else .int

theorem zerosAndNumbers_hasKinds : zerosAndNumbers.HasKinds onlyArrayA := by
  intro x
  unfold zerosAndNumbers onlyArrayA
  split <;> simp_all [Datum.type]

theorem plainCells_call (f : String) (ds : List (Datum (Int → Int))) :
    plainCells.call f ds = 0 := by
  unfold Interpretation.call
  split <;> rfl

/-- The write `a[x] := k + 1`. -/
def successorWrite : CellUpdate := ⟨"a", .var "x", .binary .add (.var "k") (.const 1)⟩

/-- The cell `a[x]` is a successor, and `a[a[0]]` is the length of `a`. The binder is a name of the
value. -/
def successorRead : Pred :=
  .quantified .existential (.scalar "k")
    (.and (.compare .eq (.read "a" (.var "x")) (.binary .add (.var "k") (.const 1)))
      (.compare .eq (.read "a" (.read "a" (.const 0))) (.call "length" [.var "a"])))

theorem substCell_means_update_successor :
    successorRead.substCell successorWrite =
      .quantified .existential (.scalar "k_1")
        (.and (.compare .eq (.binary .add (.var "k") (.const 1))
            (.binary .add (.var "k_1") (.const 1)))
          (.compare .eq (.read "a" (.read "a" (.const 0))) (.call "length" [.var "a"]))) ∧
    (successorRead.substCell successorWrite).Holds plainCells zerosAndNumbers := by
  refine ⟨by decide +kernel, ?_⟩
  refine (substCell_means_update plainCells onlyArrayA successorRead successorWrite zerosAndNumbers
    (fun _ => 0) (fun j => if j = 2 then 6 else 0) ?_ ?_ zerosAndNumbers_hasKinds rfl ?_ ?_ ?_ ?_ ?_
    (.inl ?_)).mpr ?_
  · simp [successorRead, Pred.Kinded, Expr.Kinded, Expr.KindedArgs, onlyArrayA, Param.scalar]
  · simp [successorWrite, Expr.Kinded, onlyArrayA]
  · intro j
    simp [successorWrite, plainCells, zerosAndNumbers, Expr.value, Interpretation.arith,
      ArithOp.onInt]
  · intro ds ds' _
    rw [plainCells_call, plainCells_call]
  · cbv
  · simp [successorRead, Pred.OnlyLengthTakes, Expr.OnlyLengthTakes, Expr.OnlyLengthTakesIn]
  · simp [successorRead, successorWrite, Pred.NoAlias, Expr.NoAlias, Expr.NoAliasIn, Expr.value,
      Expr.free, plainCells, Interpretation.read, zerosAndNumbers, Param.scalar]
  · simp [Expr.Unnumbered, successorWrite, Expr.binders]
  · simp only [successorRead, Pred.Holds, Expr.value, plainCells_call, Param.scalar]
    exact ⟨5, by simp [successorWrite, plainCells, Interpretation.read, zerosAndNumbers,
      Interpretation.arith, ArithOp.onInt, CmpOp.holds]⟩

/-! ### An index with a numbered quantifier -/

/-- The index is zero, by a test with a quantifier of a numbered name. -/
def numberedIndex : Expr :=
  .cond (.quantified .universal (.scalar "k_1") (.compare .eq (.var "k_1") (.var "k_1"))) (.const 0)
    (.const 1)

/-- The first cell is zero. -/
def numberedRead : Pred :=
  .quantified .existential (.scalar "k")
    (.and (.compare .eq (.read "a" numberedIndex) (.var "k")) (.compare .eq (.var "k") (.const 0)))

/-- The binder `k` gets the name `k_1` to make room for the value of the write `a[0] := k`, and the
quantifier inside the index makes room for that. The read is no longer written like the index and
stays, so the predicate is true of the old cell and false of the new one. -/
theorem numbered_index_read_kept :
    numberedRead.substCell ⟨"a", numberedIndex, .var "k"⟩ =
      .quantified .existential (.scalar "k_1")
        (.and (.compare .eq (.read "a" (.cond (.quantified .universal (.scalar "k_1_1")
            (.compare .eq (.var "k_1_1") (.var "k_1_1"))) (.const 0) (.const 1))) (.var "k_1"))
          (.compare .eq (.var "k_1") (.const 0))) ∧
    numberedRead.Kinded onlyArrayA ∧ numberedRead.formulaTaking? "a" = none ∧
    numberedRead.OnlyLengthTakes "a" ∧ numberedIndex.value plainCells zerosAndNumbers = 0 ∧
    numberedRead.NoAlias plainCells ⟨"a", numberedIndex, .var "k"⟩ 0 []
      (Function.update zerosAndNumbers "a" (.array fun j => if j = 0 then 5 else 0)) ∧
    (numberedRead.substCell ⟨"a", numberedIndex, .var "k"⟩).Holds plainCells zerosAndNumbers ∧
    ¬numberedRead.Holds plainCells
      (Function.update zerosAndNumbers "a" (.array fun j => if j = 0 then 5 else 0)) := by
  have hsubst : numberedRead.substCell ⟨"a", numberedIndex, .var "k"⟩ =
      .quantified .existential (.scalar "k_1")
        (.and (.compare .eq (.read "a" (.cond (.quantified .universal (.scalar "k_1_1")
            (.compare .eq (.var "k_1_1") (.var "k_1_1"))) (.const 0) (.const 1))) (.var "k_1"))
          (.compare .eq (.var "k_1") (.const 0))) := by decide +kernel
  refine ⟨hsubst, ?_, by cbv, ?_, ?_, ?_, ?_, ?_⟩
  · simp [numberedRead, numberedIndex, Pred.Kinded, Expr.Kinded, onlyArrayA, Param.scalar]
  · simp [numberedRead, numberedIndex, Pred.OnlyLengthTakes, Expr.OnlyLengthTakes]
  · simp [numberedIndex, Expr.value, Pred.Holds, CmpOp.holds]
  · simp [numberedRead, numberedIndex, Pred.NoAlias, Expr.NoAlias, Expr.free, Pred.free,
      Param.scalar]
  · rw [hsubst]
    simp [Pred.Holds, Expr.value, plainCells, Interpretation.read, zerosAndNumbers, CmpOp.holds,
      Param.scalar]
  · simp [numberedRead, numberedIndex, Pred.Holds, Expr.value, plainCells, Interpretation.read,
      CmpOp.holds, Param.scalar]

end Contracts

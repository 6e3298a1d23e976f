import Contracts.Proofs.Renaming

/-!
# What a substitution means

Putting expressions in for variables and then asking for the truth is the same as asking for the
truth where each variable stands for what its expression does (`Pred.holds_subst_assigned`). All
that is needed is that no array is read under a name that is replaced or bound. A bare name that is
put in stands for whatever the name does, so it can bring an array to a place where one is passed.
Where names have kinds and numbers are put in for numbers, the variables have the values of the
expressions (`Pred.holds_subst`).

A binder in the way is renamed first, and `Pred.holds_rename_binder` says that this costs nothing.
-/

set_option autoImplicit false

namespace Contracts

/-! ## Arguments -/

theorem Expr.toInt_datum {α : Type} (M : Interpretation α) (e : Expr) (ρ : Valuation α) :
    (e.datum ρ (e.value M ρ)).toInt = e.value M ρ := by
  cases e with
  | var x => simp only [Expr.datum, Expr.value]
  | _ => rfl

theorem Expr.datum_update_of_not_free {α : Type} (M : Interpretation α) {e : Expr} {x : String}
    (h : x ∉ e.free) (ρ : Valuation α) (d : Datum α) :
    e.datum (Function.update ρ x d) (e.value M (Function.update ρ x d)) =
      e.datum ρ (e.value M ρ) := by
  rw [Expr.value_update_of_not_free M h]
  cases e with
  | var y =>
    simp only [Expr.free, List.mem_singleton] at h
    exact Function.update_of_ne (Ne.symm h) ..
  | _ => rfl

/-! ## Bindings -/

namespace Bindings

variable {α : Type}

/-- The valuation in which the variables stand for what their expressions do. -/
noncomputable def assigned (M : Interpretation α) (m : Bindings) (ρ : Valuation α) :
    Valuation α := fun x =>
  match m.lookup x with
  | some e => e.datum ρ (e.value M ρ)
  | none => ρ x

/-- The valuation in which the variables have the values of their expressions. -/
noncomputable def apply (M : Interpretation α) (m : Bindings) (ρ : Valuation α) :
    Valuation α := fun x =>
  match m.lookup x with
  | some e => .int (e.value M ρ)
  | none => ρ x

/-- Numbers are put in for numbers. -/
def Kinded (m : Bindings) (K : Kinds) : Prop := ∀ b ∈ m, K b.1 = .int ∧ b.2.Kinded K

theorem lookup_without (m : Bindings) (z x : String) :
    (m.without z).lookup x = if x = z then none else m.lookup x := by
  induction m with
  | nil => simp [without]
  | cons b m ih =>
    obtain ⟨y, e⟩ := b
    unfold without at ih ⊢
    by_cases hyz : y = z
    · rw [List.filter_cons_of_neg (by simpa using hyz), ih]
      split
      · rfl
      · next hxz => rw [List.lookup_cons, beq_eq_false_iff_ne.mpr (by rw [hyz]; exact hxz)]
    · rw [List.filter_cons_of_pos (by simpa using hyz), List.lookup_cons, List.lookup_cons, ih]
      split
      · next h => rw [if_neg (by rw [eq_of_beq h]; exact hyz)]
      · rfl

theorem mem_of_lookup {m : Bindings} {x : String} {e : Expr} (h : m.lookup x = some e) :
    (x, e) ∈ m := by
  induction m with
  | nil => cases h
  | cons b m ih =>
    rw [List.lookup_cons] at h
    split at h
    · next hb =>
      cases h
      rw [eq_of_beq hb]
      exact List.mem_cons_self
    · exact List.mem_cons_of_mem _ (ih h)

theorem mem_of_mem_without {m : Bindings} {z : String} {b : String × Expr}
    (h : b ∈ m.without z) : b ∈ m ∧ b.1 ≠ z := by
  simpa [without] using h

theorem not_mem_free {m : Bindings} {x : String} (h : x ∉ m.free) {b : String × Expr}
    (hb : b ∈ m) : x ∉ b.2.free := by
  intro hx
  exact h (List.mem_flatMap.mpr ⟨b, hb, hx⟩)

theorem not_mem_keys_of_lookup {m : Bindings} {x : String} (h : m.lookup x = none) :
    x ∉ m.keys := by
  intro hx
  obtain ⟨b, hb, rfl⟩ := List.mem_map.mp hx
  exact bne_iff_ne.mp (List.lookup_eq_none_iff.mp h b hb) rfl

theorem mem_free_of_without {m : Bindings} {z x : String} (h : x ∈ (m.without z).free) :
    x ∈ m.free := by
  obtain ⟨b, hb, hx⟩ := List.mem_flatMap.mp h
  exact List.mem_flatMap.mpr ⟨b, (mem_of_mem_without hb).1, hx⟩

theorem not_mem_keys_of_without {m : Bindings} {z x : String} (h : x ∉ (m.without z).keys)
    (hxz : x ≠ z) : x ∉ m.keys := by
  intro hx
  obtain ⟨b, hb, rfl⟩ := List.mem_map.mp hx
  refine h (List.mem_map.mpr ⟨b, List.mem_filter.mpr ⟨hb, ?_⟩, rfl⟩)
  simpa using hxz

/-- Under a binder that does not occur in what is put in, the bindings of the other names stay
right. -/
theorem Kinded.under {m : Bindings} {K : Kinds} (hm : m.Kinded K) {z y : String}
    (hy : y ∉ (m.without z).free) (hyk : y = z ∨ y ∉ (m.without z).keys) :
    (m.without z).Kinded (Function.update K y .int) := by
  intro b hb
  obtain ⟨hbm, hbz⟩ := mem_of_mem_without hb
  have hby : b.1 ≠ y := by
    rintro rfl
    rcases hyk with rfl | hyk
    · exact hbz rfl
    · exact hyk (List.mem_map.mpr ⟨b, hb, rfl⟩)
  exact ⟨by rw [Function.update_of_ne hby, (hm b hbm).1],
    (hm b hbm).2.update (not_mem_free hy hb) _⟩

theorem Kinded.keys_int {m : Bindings} {K : Kinds} (hm : m.Kinded K) :
    ∀ x ∈ m.keys, K x = .int := by
  intro x hx
  obtain ⟨b, hb, rfl⟩ := List.mem_map.mp hx
  exact (hm b hb).1

theorem keys_without_subset (m : Bindings) (z : String) : (m.without z).keys ⊆ m.keys := by
  intro x hx
  obtain ⟨b, hb, rfl⟩ := List.mem_map.mp hx
  exact List.mem_map.mpr ⟨b, (mem_of_mem_without hb).1, rfl⟩

theorem lookup_eq_none_of_not_mem_keys {m : Bindings} {x : String} (h : x ∉ m.keys) :
    m.lookup x = none := by
  cases hl : m.lookup x with
  | none => rfl
  | some e => exact absurd (List.mem_map.mpr ⟨_, mem_of_lookup hl, rfl⟩) h

theorem assigned_of_lookup_none (M : Interpretation α) {m : Bindings} {x : String}
    (h : m.lookup x = none) (ρ : Valuation α) : m.assigned M ρ x = ρ x := by
  unfold assigned
  rw [h]

/-- Under a binder that does not occur in what is put in, the variables stand for the same. -/
theorem assigned_under (M : Interpretation α) {m : Bindings} {z y : String}
    (hy : y ∉ (m.without z).free) (ρ : Valuation α) (d : Datum α) {x : String} (hxy : x ≠ y)
    (hxz : x ≠ z) : (m.without z).assigned M (Function.update ρ y d) x = m.assigned M ρ x := by
  unfold assigned
  rw [lookup_without, if_neg hxz]
  split
  · next e he =>
    have hmem : (x, e) ∈ m.without z := by
      refine List.mem_filter.mpr ⟨mem_of_lookup he, ?_⟩
      simpa using hxz
    exact Expr.datum_update_of_not_free M (not_mem_free hy hmem) ρ d
  · rw [Function.update_of_ne hxy]

/-- Where every bare name that is put in stands for a number, only numbers are put in. -/
theorem assigned_eq_apply (M : Interpretation α) {m : Bindings} {ρ : Valuation α}
    (h : ∀ b ∈ m, ∀ y, b.2 = .var y → (ρ y).type = .int) : m.assigned M ρ = m.apply M ρ := by
  funext x
  unfold assigned apply
  split
  · next e he => rw [Expr.datum_eq_int (h _ (mem_of_lookup he))]
  · rfl

end Bindings

/-! ## Kinds under a renamed binder -/

/-- A renamed body is of the same kinds with the new name in the place of the old one. -/
theorem Pred.Kinded.rename_binder {body : Pred} {K : Kinds} {z fresh : String}
    (hk : body.Kinded (Function.update K z .int)) (hz : fresh ≠ z) (hfree : fresh ∉ body.free) :
    (body.rename z fresh).Kinded (Function.update K fresh .int) := by
  have hboth : (body.rename z fresh).Kinded
      (Function.update (Function.update K z .int) fresh .int) :=
    (hk.update hfree .int).rename (by rw [Function.update_of_ne (Ne.symm hz), Function.update_self])
      (Function.update_self ..)
  refine hboth.congr fun w hw => ?_
  rcases Pred.mem_free_rename (hk.readsApart_singleton (Function.update_self ..)) hw with
    ⟨-, hwz⟩ | rfl
  · by_cases hwf : w = fresh
    · rw [hwf, Function.update_self, Function.update_self]
    · rw [Function.update_of_ne hwf, Function.update_of_ne hwz, Function.update_of_ne hwf]
  · rw [Function.update_self, Function.update_self]

/-! ## Substitution, case by case -/

theorem Expr.substList_eq_map (m : Bindings) (es : List Expr) :
    Expr.substList m es = es.map (Expr.subst m) := by
  induction es with
  | nil => rw [Expr.substList, List.map_nil]
  | cons e es ih => rw [Expr.substList, List.map_cons, ih]

/-- The name that a binder gets where it would capture a name of what is put in. -/
def Bindings.newBinder (m : Bindings) (z : String) (body : Pred) : String :=
  freshName z ((m.without z).free ++ (m.without z).keys ++ body.free ++ [z])

theorem Bindings.newBinder_spec (m : Bindings) (z : String) (body : Pred) :
    m.newBinder z body ∉ (m.without z).free ∧ m.newBinder z body ∉ (m.without z).keys ∧
      m.newBinder z body ∉ body.free ∧ m.newBinder z body ≠ z := by
  have h := freshName_not_mem z ((m.without z).free ++ (m.without z).keys ++ body.free ++ [z])
  simp only [List.mem_append, List.mem_singleton, not_or] at h
  exact ⟨h.1.1.1, h.1.1.2, h.1.2, h.2⟩

theorem Pred.subst_quantified (m : Bindings) (q : Quantifier) (z : Param) (body : Pred) :
    (Pred.quantified q z body).subst m =
      if (m.without z.name).isEmpty then .quantified q z body
      else if z.name ∈ (m.without z.name).free then
        .quantified q { z with name := m.newBinder z.name body }
          ((body.rename z.name (m.newBinder z.name body)).subst (m.without z.name))
      else .quantified q z (body.subst (m.without z.name)) := by
  rw [Pred.subst]
  rfl

/-! ## Substitution keeps kinds -/

theorem Expr.Kinded.subst_var {K : Kinds} {m : Bindings} (hm : m.Kinded K) {x : String}
    (hx : K x = .int) : ((Expr.var x).subst m).Kinded K := by
  rw [Expr.subst]
  cases hl : m.lookup x with
  | none => exact hx
  | some e => exact (hm _ (Bindings.mem_of_lookup hl)).2

mutual

theorem Expr.Kinded.subst {e : Expr} {K : Kinds} {m : Bindings} (hk : e.Kinded K)
    (hm : m.Kinded K) : (e.subst m).Kinded K := by
  match e, hk with
  | .const n, _ => simp only [Expr.subst, Expr.Kinded]
  | .var x, hk => exact Expr.Kinded.subst_var hm hk
  | .neg a, hk =>
    simp only [Expr.subst, Expr.Kinded] at hk ⊢
    exact hk.subst hm
  | .binary op a b, hk =>
    simp only [Expr.subst, Expr.Kinded] at hk ⊢
    exact ⟨hk.1.subst hm, hk.2.subst hm⟩
  | .read a i, hk =>
    simp only [Expr.subst, Expr.Kinded] at hk ⊢
    exact ⟨hk.1, hk.2.subst hm⟩
  | .call f args, hk =>
    simp only [Expr.subst, Expr.Kinded, Expr.substList_eq_map] at hk ⊢
    exact Expr.KindedArgs.subst hk hm
  | .cond p a b, hk =>
    simp only [Expr.subst, Expr.Kinded] at hk ⊢
    exact ⟨hk.1.subst hm, hk.2.1.subst hm, hk.2.2.subst hm⟩
termination_by 2 * e.size
decreasing_by all_goals simp only [Expr.size]; omega

theorem Expr.KindedArgs.subst {es : List Expr} {K : Kinds} {m : Bindings}
    (hk : Expr.KindedArgs es K) (hm : m.Kinded K) : Expr.KindedArgs (es.map (Expr.subst m)) K := by
  match es, hk with
  | [], _ => simp only [List.map_nil, Expr.KindedArgs]
  | e :: es, hk =>
    simp only [List.map_cons, Expr.KindedArgs] at hk ⊢
    refine ⟨?_, Expr.KindedArgs.subst hk.2 hm⟩
    rcases hk.1 with ⟨x, rfl⟩ | hk
    · rw [Expr.subst]
      cases hl : m.lookup x with
      | none => exact .inl ⟨x, rfl⟩
      | some e => exact .inr (hm _ (Bindings.mem_of_lookup hl)).2
    · exact .inr (hk.subst hm)
termination_by 2 * Expr.sizes es + 1
decreasing_by
  all_goals
    have := e.size_pos
    simp only [Expr.sizes]
    omega

theorem Pred.Kinded.subst {p : Pred} {K : Kinds} {m : Bindings} (hk : p.Kinded K)
    (hm : m.Kinded K) : (p.subst m).Kinded K := by
  match p, hk with
  | .bool b, _ => simp only [Pred.subst, Pred.Kinded]
  | .compare op a b, hk =>
    simp only [Pred.subst, Pred.Kinded] at hk ⊢
    exact ⟨hk.1.subst hm, hk.2.subst hm⟩
  | .not p, hk =>
    simp only [Pred.subst, Pred.Kinded] at hk ⊢
    exact hk.subst hm
  | .and p q, hk =>
    simp only [Pred.subst, Pred.Kinded] at hk ⊢
    exact ⟨hk.1.subst hm, hk.2.subst hm⟩
  | .or p q, hk =>
    simp only [Pred.subst, Pred.Kinded] at hk ⊢
    exact ⟨hk.1.subst hm, hk.2.subst hm⟩
  | .implies p q, hk =>
    simp only [Pred.subst, Pred.Kinded] at hk ⊢
    exact ⟨hk.1.subst hm, hk.2.subst hm⟩
  | .paren p, hk =>
    simp only [Pred.subst, Pred.Kinded] at hk ⊢
    exact hk.subst hm
  | .quantified q z body, hk =>
    rw [Pred.subst_quantified]
    split
    · exact hk
    · split
      · -- the new name of the binder is one for a number, as the old one was
        obtain ⟨hnf, hnk, hnb, hnz⟩ := m.newBinder_spec z.name body
        simp only [Pred.Kinded] at hk ⊢
        exact (hk.rename_binder hnz hnb).subst (hm.under hnf (.inr hnk))
      · next hz =>
        simp only [Pred.Kinded] at hk ⊢
        exact hk.subst (hm.under hz (.inl rfl))
  | .formula f args, hk =>
    simp only [Pred.subst, Pred.Kinded, Expr.substList_eq_map] at hk ⊢
    exact Expr.KindedArgs.subst hk hm
termination_by 2 * p.size
decreasing_by
  all_goals
    simp only [Pred.size, Pred.size_rename]
    omega

end

/-! ## What is free after a substitution -/

theorem Expr.mem_free_subst_var {m : Bindings} {x z : String}
    (hz : z ∈ ((Expr.var x).subst m).free) : z ∈ m.free ∨ (z = x ∧ z ∉ m.keys) := by
  rw [Expr.subst] at hz
  cases hl : m.lookup x with
  | none =>
    simp only [hl, Option.getD_none, Expr.free, List.mem_singleton] at hz
    subst hz
    exact .inr ⟨rfl, Bindings.not_mem_keys_of_lookup hl⟩
  | some e =>
    simp only [hl, Option.getD_some] at hz
    exact .inl (List.mem_flatMap.mpr ⟨(x, e), Bindings.mem_of_lookup hl, hz⟩)

mutual

theorem Expr.mem_free_subst {e : Expr} {m : Bindings} {z : String} (hr : e.ReadsApart m.keys)
    (hz : z ∈ (e.subst m).free) : z ∈ m.free ∨ (z ∈ e.free ∧ z ∉ m.keys) := by
  match e, hr with
  | .const n, _ => simp only [Expr.subst, Expr.free, List.not_mem_nil] at hz
  | .var x, _ =>
    rw [Expr.free, List.mem_singleton]
    exact Expr.mem_free_subst_var hz
  | .neg a, hr =>
    simp only [Expr.subst, Expr.free, Expr.ReadsApart] at hr hz ⊢
    exact Expr.mem_free_subst hr hz
  | .binary op a b, hr =>
    simp only [Expr.subst, Expr.free, Expr.ReadsApart, List.mem_append] at hr hz ⊢
    rcases hz with hz | hz
    · have := Expr.mem_free_subst hr.1 hz
      tauto
    · have := Expr.mem_free_subst hr.2 hz
      tauto
  | .read a i, hr =>
    simp only [Expr.subst, Expr.free, Expr.ReadsApart, List.mem_cons] at hr hz ⊢
    rcases hz with hz | hz
    · exact .inr ⟨.inl hz, by rw [hz]; exact hr.1⟩
    · have := Expr.mem_free_subst hr.2 hz
      tauto
  | .call f args, hr =>
    simp only [Expr.subst, Expr.substList_eq_map, Expr.free, Expr.ReadsApart] at hr hz ⊢
    exact Expr.mem_freeList_subst hr hz
  | .cond p a b, hr =>
    simp only [Expr.subst, Expr.free, Expr.ReadsApart, List.mem_append] at hr hz ⊢
    rcases hz with (hz | hz) | hz
    · have := Pred.mem_free_subst hr.1 hz
      tauto
    · have := Expr.mem_free_subst hr.2.1 hz
      tauto
    · have := Expr.mem_free_subst hr.2.2 hz
      tauto
termination_by 2 * e.size
decreasing_by all_goals simp only [Expr.size]; omega

theorem Expr.mem_freeList_subst {es : List Expr} {m : Bindings} {z : String}
    (hr : Expr.ReadsApartIn es m.keys) (hz : z ∈ Expr.freeList (es.map (Expr.subst m))) :
    z ∈ m.free ∨ (z ∈ Expr.freeList es ∧ z ∉ m.keys) := by
  match es, hr with
  | [], _ => simp only [List.map_nil, Expr.freeList, List.not_mem_nil] at hz
  | e :: es, hr =>
    simp only [List.map_cons, Expr.freeList, Expr.ReadsApartIn, List.mem_append] at hr hz ⊢
    rcases hz with hz | hz
    · have := Expr.mem_free_subst hr.1 hz
      tauto
    · have := Expr.mem_freeList_subst hr.2 hz
      tauto
termination_by 2 * Expr.sizes es + 1
decreasing_by
  all_goals
    have := e.size_pos
    simp only [Expr.sizes]
    omega

/-- A name that is free after a substitution comes from what is put in, or was free before and is
not replaced. -/
theorem Pred.mem_free_subst {p : Pred} {m : Bindings} {z : String} (hr : p.ReadsApart m.keys)
    (hz : z ∈ (p.subst m).free) : z ∈ m.free ∨ (z ∈ p.free ∧ z ∉ m.keys) := by
  match p, hr with
  | .bool b, _ => simp only [Pred.subst, Pred.free, List.not_mem_nil] at hz
  | .compare op a b, hr =>
    simp only [Pred.subst, Pred.free, Pred.ReadsApart, List.mem_append] at hr hz ⊢
    rcases hz with hz | hz
    · have := Expr.mem_free_subst hr.1 hz
      tauto
    · have := Expr.mem_free_subst hr.2 hz
      tauto
  | .not p, hr =>
    simp only [Pred.subst, Pred.free, Pred.ReadsApart] at hr hz ⊢
    exact Pred.mem_free_subst hr hz
  | .and p q, hr =>
    simp only [Pred.subst, Pred.free, Pred.ReadsApart, List.mem_append] at hr hz ⊢
    rcases hz with hz | hz
    · have := Pred.mem_free_subst hr.1 hz
      tauto
    · have := Pred.mem_free_subst hr.2 hz
      tauto
  | .or p q, hr =>
    simp only [Pred.subst, Pred.free, Pred.ReadsApart, List.mem_append] at hr hz ⊢
    rcases hz with hz | hz
    · have := Pred.mem_free_subst hr.1 hz
      tauto
    · have := Pred.mem_free_subst hr.2 hz
      tauto
  | .implies p q, hr =>
    simp only [Pred.subst, Pred.free, Pred.ReadsApart, List.mem_append] at hr hz ⊢
    rcases hz with hz | hz
    · have := Pred.mem_free_subst hr.1 hz
      tauto
    · have := Pred.mem_free_subst hr.2 hz
      tauto
  | .paren p, hr =>
    simp only [Pred.subst, Pred.free, Pred.ReadsApart] at hr hz ⊢
    exact Pred.mem_free_subst hr hz
  | .quantified q w body, hr =>
    rw [Pred.subst_quantified] at hz
    simp only [Pred.ReadsApart] at hr
    have hrm : body.ReadsApart (m.without w.name).keys :=
      hr.mono (List.subset_cons_of_subset _ (m.keys_without_subset w.name))
    split at hz
    · next hempty =>
      -- all that would be replaced is bound here, so nothing is put in
      simp only [Pred.free, List.mem_filter, bne_iff_ne] at hz ⊢
      refine .inr ⟨hz, Bindings.not_mem_keys_of_without (z := w.name) ?_ hz.2⟩
      rw [List.isEmpty_iff.mp hempty]
      exact List.not_mem_nil
    · split at hz
      · -- the binder gets a new name, which the quantifier takes away again
        simp only [Pred.free, List.mem_filter, bne_iff_ne] at hz ⊢
        have hrw : body.ReadsApart [w.name] := hr.mono (List.cons_subset_cons _ (List.nil_subset _))
        rcases Pred.mem_free_subst (hrm.rename ..) hz.1 with hfree | ⟨hbody, hkeys⟩
        · exact .inl (Bindings.mem_free_of_without hfree)
        · rcases Pred.mem_free_rename hrw hbody with ⟨hb, hzw⟩ | hzn
          · exact .inr ⟨⟨hb, hzw⟩, Bindings.not_mem_keys_of_without hkeys hzw⟩
          · exact absurd hzn hz.2
      · simp only [Pred.free, List.mem_filter, bne_iff_ne] at hz ⊢
        rcases Pred.mem_free_subst hrm hz.1 with hfree | ⟨hbody, hkeys⟩
        · exact .inl (Bindings.mem_free_of_without hfree)
        · exact .inr ⟨⟨hbody, hz.2⟩, Bindings.not_mem_keys_of_without hkeys hz.2⟩
  | .formula f args, hr =>
    simp only [Pred.subst, Expr.substList_eq_map, Pred.free, Pred.ReadsApart] at hr hz ⊢
    exact Expr.mem_freeList_subst hr hz
termination_by 2 * p.size
decreasing_by
  all_goals
    simp only [Pred.size, Pred.size_rename]
    omega

end

/-! ## The substitution lemma -/

/-- An argument after the substitution is the argument where the variables are assigned. -/
theorem Expr.datum_subst {α : Type} (M : Interpretation α) {e : Expr} {m : Bindings}
    {ρ : Valuation α} (hv : (e.subst m).value M ρ = e.value M (m.assigned M ρ)) :
    (e.subst m).datum ρ ((e.subst m).value M ρ) =
      e.datum (m.assigned M ρ) (e.value M (m.assigned M ρ)) := by
  cases e with
  | var x =>
    cases hl : m.lookup x with
    | none => simp only [Expr.subst, hl, Option.getD_none, Expr.datum, Bindings.assigned]
    | some r => simp only [Expr.subst, hl, Option.getD_some, Expr.datum, Bindings.assigned]
  | const | neg | binary | read | call | cond =>
    rw [hv]
    simp only [Expr.subst, Expr.datum]

mutual

theorem Expr.value_subst {α : Type} (M : Interpretation α) {e : Expr} {m : Bindings}
    (hr : e.ReadsApart m.keys) (ρ : Valuation α) :
    (e.subst m).value M ρ = e.value M (m.assigned M ρ) := by
  match e, hr with
  | .const n, _ => simp only [Expr.subst, Expr.value]
  | .var x, _ =>
    cases hl : m.lookup x with
    | none => simp only [Expr.subst, hl, Option.getD_none, Expr.value, Bindings.assigned]
    | some r =>
      simp only [Expr.subst, hl, Option.getD_some, Expr.value, Bindings.assigned,
        Expr.toInt_datum]
  | .neg a, hr =>
    simp only [Expr.ReadsApart] at hr
    simp only [Expr.subst, Expr.value]
    rw [Expr.value_subst M hr]
  | .binary op a b, hr =>
    simp only [Expr.ReadsApart] at hr
    simp only [Expr.subst, Expr.value]
    rw [Expr.value_subst M hr.1, Expr.value_subst M hr.2]
  | .read a i, hr =>
    simp only [Expr.ReadsApart] at hr
    simp only [Expr.subst, Expr.value]
    rw [Expr.value_subst M hr.2,
      Bindings.assigned_of_lookup_none M (Bindings.lookup_eq_none_of_not_mem_keys hr.1)]
  | .call f args, hr =>
    simp only [Expr.ReadsApart] at hr
    simp only [Expr.subst, Expr.substList_eq_map, Expr.value]
    rw [Expr.data_subst M hr]
  | .cond p a b, hr =>
    simp only [Expr.ReadsApart] at hr
    simp only [Expr.subst, Expr.value]
    rw [propext (Pred.holds_subst_assigned M hr.1 ρ), Expr.value_subst M hr.2.1,
      Expr.value_subst M hr.2.2]
termination_by 2 * e.size
decreasing_by all_goals simp only [Expr.size]; omega

theorem Expr.data_subst {α : Type} (M : Interpretation α) {es : List Expr} {m : Bindings}
    (hr : Expr.ReadsApartIn es m.keys) (ρ : Valuation α) :
    Expr.data M (es.map (Expr.subst m)) ρ = Expr.data M es (m.assigned M ρ) := by
  match es, hr with
  | [], _ => simp only [List.map_nil, Expr.data]
  | e :: es, hr =>
    simp only [Expr.ReadsApartIn] at hr
    simp only [List.map_cons, Expr.data]
    rw [Expr.data_subst M hr.2, Expr.datum_subst M (Expr.value_subst M hr.1 ρ)]
termination_by 2 * Expr.sizes es + 1
decreasing_by
  all_goals
    have := e.size_pos
    simp only [Expr.sizes]
    omega

/-- The predicate after the substitution, read where the variables are assigned. -/
theorem Pred.holds_subst_assigned {α : Type} (M : Interpretation α) {p : Pred} {m : Bindings}
    (hr : p.ReadsApart m.keys) (ρ : Valuation α) :
    (p.subst m).Holds M ρ ↔ p.Holds M (m.assigned M ρ) := by
  match p, hr with
  | .bool b, _ => simp only [Pred.subst, Pred.Holds]
  | .compare op a b, hr =>
    simp only [Pred.ReadsApart] at hr
    simp only [Pred.subst, Pred.Holds]
    rw [Expr.value_subst M hr.1, Expr.value_subst M hr.2]
  | .not p, hr =>
    simp only [Pred.ReadsApart] at hr
    simp only [Pred.subst, Pred.Holds]
    rw [Pred.holds_subst_assigned M hr]
  | .and p q, hr | .or p q, hr | .implies p q, hr =>
    simp only [Pred.ReadsApart] at hr
    simp only [Pred.subst, Pred.Holds]
    rw [Pred.holds_subst_assigned M hr.1, Pred.holds_subst_assigned M hr.2]
  | .paren p, hr =>
    simp only [Pred.ReadsApart] at hr
    simp only [Pred.subst, Pred.Holds]
    rw [Pred.holds_subst_assigned M hr]
  | .quantified q z body, hr =>
    simp only [Pred.ReadsApart] at hr
    have hrm : body.ReadsApart (m.without z.name).keys :=
      hr.mono (List.subset_cons_of_subset _ (m.keys_without_subset z.name))
    rw [Pred.subst_quantified]
    split
    · next hempty =>
      -- no binding is left, and the binder hides the others
      rw [Pred.holds_quantified, Pred.holds_quantified]
      refine q.holds_congr fun n => Pred.holds_congr M body fun x hx => ?_
      by_cases hxz : x = z.name
      · rw [hxz, Function.update_self, Function.update_self]
      · have hl : m.lookup x = none := by
          have := Bindings.lookup_without m z.name x
          rw [List.isEmpty_iff.mp hempty, if_neg hxz] at this
          exact this.symm
        rw [Function.update_of_ne hxz, Function.update_of_ne hxz,
          Bindings.assigned_of_lookup_none M hl]
    · split
      · -- the binder would capture a replacement, and gets a name that nothing else uses; the
        -- renamed body is no greater than before
        obtain ⟨hnf, hnk, hnb, hnz⟩ := m.newBinder_spec z.name body
        have hrz : body.ReadsApart [z.name] := hr.mono (List.cons_subset_cons _ (List.nil_subset _))
        rw [Pred.holds_quantified, Pred.holds_quantified]
        refine q.holds_congr fun n => ?_
        rw [Pred.holds_subst_assigned M (hrm.rename ..), ← Pred.holds_rename_binder M hrz hnb]
        refine Pred.holds_congr M _ fun x hx => ?_
        rcases Pred.mem_free_rename hrz hx with ⟨hxb, hxz⟩ | rfl
        · have hxn : x ≠ m.newBinder z.name body := fun h => hnb (h ▸ hxb)
          rw [Bindings.assigned_under M hnf ρ _ hxn hxz, Function.update_of_ne hxn]
        · rw [Bindings.assigned_of_lookup_none M (Bindings.lookup_eq_none_of_not_mem_keys hnk),
            Function.update_self, Function.update_self]
      · next hz =>
        -- no replacement reads the binder, so its value does not change what they stand for
        rw [Pred.holds_quantified, Pred.holds_quantified]
        refine q.holds_congr fun n => ?_
        rw [Pred.holds_subst_assigned M hrm]
        refine Pred.holds_congr M body fun x hx => ?_
        by_cases hxz : x = z.name
        · have hl : (m.without z.name).lookup x = none := by
            rw [Bindings.lookup_without, if_pos hxz]
          rw [Bindings.assigned_of_lookup_none M hl, hxz, Function.update_self,
            Function.update_self]
        · rw [Bindings.assigned_under M hz ρ _ hxz hxz, Function.update_of_ne hxz]
  | .formula f args, hr =>
    simp only [Pred.ReadsApart] at hr
    simp only [Pred.subst, Expr.substList_eq_map, Pred.Holds]
    rw [Expr.data_subst M hr]
termination_by 2 * p.size
decreasing_by
  all_goals
    simp only [Pred.size, Pred.size_rename]
    omega

end

/-- The predicate after the substitution, where names have kinds and numbers are put in for
numbers. -/
theorem Pred.holds_subst {α : Type} (M : Interpretation α) {p : Pred} {K : Kinds} {m : Bindings}
    (hk : p.Kinded K) (hm : m.Kinded K) {ρ : Valuation α} (hρ : ρ.HasKinds K) :
    (p.subst m).Holds M ρ ↔ p.Holds M (m.apply M ρ) := by
  rw [Pred.holds_subst_assigned M (hk.readsApart hm.keys_int), Bindings.assigned_eq_apply]
  intro b hb y hy
  have hint := (hm b hb).2
  rw [hy, Expr.Kinded] at hint
  rw [hρ y, hint]

/-- **The substitution lemma.** Take any numbers and arrays for the names, and any functions,
formulas and quotients by zero. If no array is read under a name that is replaced or bound, then a
predicate has after the substitution the truth that it has where all the variables stand at once for
what their expressions do, and the same is so of the value of an expression. What they stand for is
the value of their expression, unless that is the bare name of an array. -/
theorem subst_means_assignment {α : Type} (M : Interpretation α) (m : Bindings)
    (ρ : Valuation α) :
    (∀ p : Pred, p.ReadsApart m.keys →
      ((p.subst m).Holds M ρ ↔ p.Holds M (m.assigned M ρ))) ∧
    (∀ e : Expr, e.ReadsApart m.keys →
      (e.subst m).value M ρ = e.value M (m.assigned M ρ)) ∧
    ((∀ b ∈ m, ∀ y, b.2 = .var y → (ρ y).type = .int) → m.assigned M ρ = m.apply M ρ) :=
  ⟨fun _ hp => Pred.holds_subst_assigned M hp ρ, fun _ he => Expr.value_subst M he ρ,
    Bindings.assigned_eq_apply M⟩

/-! ### Names that cross -/

/-- Something is the successor of `x`, and something is the sum of `x` and the cell there. -/
def successorCell : Pred :=
  .quantified .existential (.scalar "k")
    (.and (.compare .eq (.var "k") (.binary .add (.var "x") (.const 1)))
      (.quantified .existential (.scalar "y")
        (.compare .eq (.var "y") (.binary .add (.var "x") (.read "a" (.var "k"))))))

/-- The names free in what is put in for `x` are those of both binders, and `y` is itself
replaced. -/
def crossingBindings : Bindings :=
  [("x", .binary .add (.var "k") (.var "y")), ("y", .var "x")]

/-- Both binders have new names. -/
def successorCellCrossed : Pred :=
  .quantified .existential (.scalar "k_1")
    (.and (.compare .eq (.var "k_1")
        (.binary .add (.binary .add (.var "k") (.var "y")) (.const 1)))
      (.quantified .existential (.scalar "y_1")
        (.compare .eq (.var "y_1")
          (.binary .add (.binary .add (.var "k") (.var "y")) (.read "a" (.var "k_1"))))))

/-- Arrays are functions on the integers. -/
def plainCells : Interpretation (Int → Int) where
  cell a i := a i
  length _ := 0
  fn _ _ := 0
  formula _ _ := True
  zeroQuot _ := 0

/-- The cells of `a` are the squares, and `k`, `x` and `y` are one, two and three. -/
def squaresAndNumbers : Valuation (Int → Int)
  | "a" => .array fun i => i * i
  | "k" => .int 1
  | "x" => .int 2
  | "y" => .int 3
  | _ => .int 0

theorem subst_means_assignment_crossing :
    successorCell.subst crossingBindings = successorCellCrossed ∧
    successorCell.ReadsApart crossingBindings.keys ∧
    (crossingBindings.assigned plainCells squaresAndNumbers "x" = .int 4 ∧
      crossingBindings.assigned plainCells squaresAndNumbers "y" = .int 2) ∧
    (successorCell.subst crossingBindings).Holds plainCells squaresAndNumbers := by
  obtain ⟨hpred, -, hnumbers⟩ :=
    subst_means_assignment plainCells crossingBindings squaresAndNumbers
  have hapart : successorCell.ReadsApart crossingBindings.keys := by
    simp [successorCell, crossingBindings, Bindings.keys, Pred.ReadsApart, Expr.ReadsApart,
      Param.scalar]
  have hassigned := hnumbers (by simp [crossingBindings, squaresAndNumbers, Datum.type])
  refine ⟨by decide +kernel, hapart, ?_, (hpred successorCell hapart).mpr ?_⟩
  · rw [hassigned]
    simp [Bindings.apply, crossingBindings, List.lookup_cons, squaresAndNumbers, Expr.value,
      Interpretation.arith, ArithOp.onInt]
  · simp [successorCell, Pred.Holds, Expr.value, CmpOp.holds, Param.scalar,
      Interpretation.arith, ArithOp.onInt]

end Contracts

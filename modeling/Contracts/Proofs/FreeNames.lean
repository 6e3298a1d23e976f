import Contracts.Proofs.LiteralCells
import Contracts.Proofs.WeakestPreSound

/-!
# The names of an obligation

To work out an obligation makes up names: for binders that are in the way of a substitution, for the
temporaries of a mixed assignment and for the unknown results of a call. None of them gets out. What
an obligation is about is what the function is written with.

The statement that goes through every step is `Pred.Within`: the free variables lie in one set and
the arrays that are read in another. It is kept by renaming, substitution, simplification and
quantifiers without any condition, since a variable and an array of one name are told apart. Only
when names are counted without looking at how they are used (`Pred.free`) can a binder hide an array
of its name, and a renaming of the binder then bring it to light. Where no array is read under the
name of a binder (`Pred.ReadsApart`) there is no difference.
-/

set_option autoImplicit false

namespace Contracts

/-! ## Variables and arrays -/

mutual

/-- The free variables are in `V` and the arrays that are read are in `A`. -/
def Expr.Within (A : Set String) : Expr → Set String → Prop
  | .const _, _ => True
  | .var x, V => x ∈ V
  | .neg e, V => e.Within A V
  | .binary _ a b, V => a.Within A V ∧ b.Within A V
  | .read a i, V => a ∈ A ∧ i.Within A V
  | .call _ args, V => Expr.WithinAll A args V
  | .cond p a b, V => p.Within A V ∧ a.Within A V ∧ b.Within A V

def Expr.WithinAll (A : Set String) : List Expr → Set String → Prop
  | [], _ => True
  | e :: es, V => e.Within A V ∧ Expr.WithinAll A es V

/-- The same for a predicate. A quantifier binds a variable, and not the array of its name. -/
def Pred.Within (A : Set String) : Pred → Set String → Prop
  | .bool _, _ => True
  | .compare _ a b, V => a.Within A V ∧ b.Within A V
  | .not p, V | .paren p, V => p.Within A V
  | .and p q, V | .or p q, V | .implies p q, V => p.Within A V ∧ q.Within A V
  | .quantified _ z p, V => p.Within A (insert z.name V)
  | .formula _ args, V => Expr.WithinAll A args V

end

theorem Expr.withinAll_iff {A V : Set String} {es : List Expr} :
    Expr.WithinAll A es V ↔ ∀ e ∈ es, e.Within A V := by
  induction es with
  | nil => simp only [Expr.WithinAll, List.not_mem_nil, false_implies, implies_true]
  | cons e es ih => rw [Expr.WithinAll, ih, List.forall_mem_cons]

section

variable {A A' : Set String}

mutual

theorem Expr.Within.mono (hA : A ⊆ A') : ∀ {e : Expr} {V V' : Set String},
    e.Within A V → V ⊆ V' → e.Within A' V'
  | .const _, _, _, h, _ => h
  | .var _, _, _, h, hV => hV h
  | .neg e, _, _, h, hV => Expr.Within.mono hA (e := e) h hV
  | .binary .., _, _, h, hV => ⟨h.1.mono hA hV, h.2.mono hA hV⟩
  | .read .., _, _, h, hV => ⟨hA h.1, h.2.mono hA hV⟩
  | .call .., _, _, h, hV => Expr.WithinAll.mono hA h hV
  | .cond .., _, _, h, hV => ⟨h.1.mono hA hV, h.2.1.mono hA hV, h.2.2.mono hA hV⟩

theorem Expr.WithinAll.mono (hA : A ⊆ A') : ∀ {es : List Expr} {V V' : Set String},
    Expr.WithinAll A es V → V ⊆ V' → Expr.WithinAll A' es V'
  | [], _, _, h, _ => h
  | _ :: _, _, _, h, hV => ⟨h.1.mono hA hV, Expr.WithinAll.mono hA h.2 hV⟩

theorem Pred.Within.mono (hA : A ⊆ A') : ∀ {p : Pred} {V V' : Set String},
    p.Within A V → V ⊆ V' → p.Within A' V'
  | .bool _, _, _, h, _ => h
  | .compare .., _, _, h, hV => ⟨h.1.mono hA hV, h.2.mono hA hV⟩
  | .not p, _, _, h, hV | .paren p, _, _, h, hV => Pred.Within.mono hA (p := p) h hV
  | .and .., _, _, h, hV | .or .., _, _, h, hV | .implies .., _, _, h, hV =>
    ⟨h.1.mono hA hV, h.2.mono hA hV⟩
  | .quantified _ _ p, _, _, h, hV =>
    Pred.Within.mono hA (p := p) h (Set.insert_subset_insert hV)
  | .formula .., _, _, h, hV => Expr.WithinAll.mono hA h hV

end

end

/-! ### Names and their uses -/

section

variable {A : Set String}

mutual

/-- A name that is free is a variable or an array. -/
theorem Expr.Within.mem_of_free : ∀ {e : Expr} {V : Set String} {x : String},
    e.Within A V → x ∈ e.free → x ∈ V ∨ x ∈ A
  | .const _, _, _, _, hx => absurd hx List.not_mem_nil
  | .var _, _, _, h, hx => by
    rw [Expr.free, List.mem_singleton] at hx
    rw [hx]
    exact .inl h
  | .neg e, _, _, h, hx => Expr.Within.mem_of_free (e := e) h hx
  | .binary .., _, _, h, hx => (List.mem_append.mp hx).elim h.1.mem_of_free h.2.mem_of_free
  | .read .., _, _, h, hx => by
    rcases List.mem_cons.mp hx with rfl | hx
    · exact .inr h.1
    · exact h.2.mem_of_free hx
  | .call .., _, _, h, hx => Expr.WithinAll.mem_of_free h hx
  | .cond .., _, _, h, hx => by
    rw [Expr.free, List.mem_append, List.mem_append] at hx
    rcases hx with (hx | hx) | hx
    · exact h.1.mem_of_free hx
    · exact h.2.1.mem_of_free hx
    · exact h.2.2.mem_of_free hx

theorem Expr.WithinAll.mem_of_free : ∀ {es : List Expr} {V : Set String} {x : String},
    Expr.WithinAll A es V → x ∈ Expr.freeList es → x ∈ V ∨ x ∈ A
  | [], _, _, _, hx => absurd hx List.not_mem_nil
  | _ :: _, _, _, h, hx =>
    (List.mem_append.mp hx).elim h.1.mem_of_free (Expr.WithinAll.mem_of_free h.2)

theorem Pred.Within.mem_of_free : ∀ {p : Pred} {V : Set String} {x : String},
    p.Within A V → x ∈ p.free → x ∈ V ∨ x ∈ A
  | .bool _, _, _, _, hx => absurd hx List.not_mem_nil
  | .compare .., _, _, h, hx => (List.mem_append.mp hx).elim h.1.mem_of_free h.2.mem_of_free
  | .not p, _, _, h, hx | .paren p, _, _, h, hx => Pred.Within.mem_of_free (p := p) h hx
  | .and .., _, _, h, hx | .or .., _, _, h, hx | .implies .., _, _, h, hx =>
    (List.mem_append.mp hx).elim h.1.mem_of_free h.2.mem_of_free
  | .quantified _ z p, _, x, h, hx => by
    rw [Pred.free, List.mem_filter, bne_iff_ne] at hx
    rcases Pred.Within.mem_of_free (p := p) h hx.1 with hV | hA
    · exact .inl (Set.mem_of_mem_insert_of_ne hV hx.2)
    · exact .inr hA
  | .formula .., _, _, h, hx => Expr.WithinAll.mem_of_free h hx

end

mutual

/-- The free names contain the variables. -/
theorem Expr.within_univ : ∀ {e : Expr} {V : Set String},
    (∀ x ∈ e.free, x ∈ V) → e.Within Set.univ V
  | .const _, _, _ => trivial
  | .var x, _, h => h x List.mem_cons_self
  | .neg e, _, h => Expr.within_univ (e := e) h
  | .binary .., _, h =>
    have h := List.forall_mem_append.mp h
    ⟨Expr.within_univ h.1, Expr.within_univ h.2⟩
  | .read .., _, h => ⟨trivial, Expr.within_univ (List.forall_mem_cons.mp h).2⟩
  | .call .., _, h => Expr.withinAll_univ h
  | .cond .., _, h =>
    have h := List.forall_mem_append.mp h
    have h' := List.forall_mem_append.mp h.1
    ⟨Pred.within_univ h'.1, Expr.within_univ h'.2, Expr.within_univ h.2⟩

theorem Expr.withinAll_univ : ∀ {es : List Expr} {V : Set String},
    (∀ x ∈ Expr.freeList es, x ∈ V) → Expr.WithinAll Set.univ es V
  | [], _, _ => trivial
  | _ :: _, _, h =>
    have h := List.forall_mem_append.mp h
    ⟨Expr.within_univ h.1, Expr.withinAll_univ h.2⟩

theorem Pred.within_univ : ∀ {p : Pred} {V : Set String},
    (∀ x ∈ p.free, x ∈ V) → p.Within Set.univ V
  | .bool _, _, _ => trivial
  | .compare .., _, h =>
    have h := List.forall_mem_append.mp h
    ⟨Expr.within_univ h.1, Expr.within_univ h.2⟩
  | .not p, _, h | .paren p, _, h => Pred.within_univ (p := p) h
  | .and .., _, h | .or .., _, h | .implies .., _, h =>
    have h := List.forall_mem_append.mp h
    ⟨Pred.within_univ h.1, Pred.within_univ h.2⟩
  | .quantified _ z p, V, h => by
    refine Pred.within_univ (p := p) fun x hx => ?_
    by_cases hxz : x = z.name
    · exact .inl hxz
    · exact .inr (h x (List.mem_filter.mpr ⟨hx, bne_iff_ne.mpr hxz⟩))
  | .formula .., _, h => Expr.withinAll_univ h

end

mutual

/-- They contain the arrays, too, where no array is read under the name of a binder. The names `xs`
are those of the binders around the expression. -/
theorem Expr.Within.of_readsApart : ∀ {e : Expr} {V : Set String} {xs : List String},
    e.Within Set.univ V → e.ReadsApart xs → (∀ x ∈ e.free, x ∉ xs → x ∈ A) → e.Within A V
  | .const _, _, _, h, _, _ | .var _, _, _, h, _, _ => h
  | .neg e, _, _, h, hr, hA => Expr.Within.of_readsApart (e := e) h hr hA
  | .binary .., _, _, h, hr, hA =>
    have hA := List.forall_mem_append.mp hA
    ⟨h.1.of_readsApart hr.1 hA.1, h.2.of_readsApart hr.2 hA.2⟩
  | .read .., _, _, h, hr, hA =>
    have hA := List.forall_mem_cons.mp hA
    ⟨hA.1 hr.1, h.2.of_readsApart hr.2 hA.2⟩
  | .call .., _, _, h, hr, hA => Expr.WithinAll.of_readsApart h hr hA
  | .cond .., _, _, h, hr, hA =>
    have hA := List.forall_mem_append.mp hA
    have hA' := List.forall_mem_append.mp hA.1
    ⟨h.1.of_readsApart hr.1 hA'.1, h.2.1.of_readsApart hr.2.1 hA'.2,
      h.2.2.of_readsApart hr.2.2 hA.2⟩

theorem Expr.WithinAll.of_readsApart : ∀ {es : List Expr} {V : Set String} {xs : List String},
    Expr.WithinAll Set.univ es V → Expr.ReadsApartIn es xs →
      (∀ x ∈ Expr.freeList es, x ∉ xs → x ∈ A) → Expr.WithinAll A es V
  | [], _, _, h, _, _ => h
  | _ :: _, _, _, h, hr, hA =>
    have hA := List.forall_mem_append.mp hA
    ⟨h.1.of_readsApart hr.1 hA.1, Expr.WithinAll.of_readsApart h.2 hr.2 hA.2⟩

theorem Pred.Within.of_readsApart : ∀ {p : Pred} {V : Set String} {xs : List String},
    p.Within Set.univ V → p.ReadsApart xs → (∀ x ∈ p.free, x ∉ xs → x ∈ A) → p.Within A V
  | .bool _, _, _, h, _, _ => h
  | .compare .., _, _, h, hr, hA =>
    have hA := List.forall_mem_append.mp hA
    ⟨h.1.of_readsApart hr.1 hA.1, h.2.of_readsApart hr.2 hA.2⟩
  | .not p, _, _, h, hr, hA | .paren p, _, _, h, hr, hA =>
    Pred.Within.of_readsApart (p := p) h hr hA
  | .and .., _, _, h, hr, hA | .or .., _, _, h, hr, hA | .implies .., _, _, h, hr, hA =>
    have hA := List.forall_mem_append.mp hA
    ⟨h.1.of_readsApart hr.1 hA.1, h.2.of_readsApart hr.2 hA.2⟩
  | .quantified _ z p, _, xs, h, hr, hA => by
    refine Pred.Within.of_readsApart (p := p) h hr fun x hx hnot => ?_
    have hxz : x ≠ z.name := List.ne_of_not_mem_cons hnot
    exact hA x (List.mem_filter.mpr ⟨hx, bne_iff_ne.mpr hxz⟩) (List.not_mem_of_not_mem_cons hnot)
  | .formula .., _, _, h, hr, hA => Expr.WithinAll.of_readsApart h hr hA

end

/-- Names of which every free name is one contain the variables and the arrays. -/
theorem Expr.within_of_free {e : Expr} {N : Set String} (hr : e.ReadsApart [])
    (h : ∀ x ∈ e.free, x ∈ N) : e.Within N N :=
  (Expr.within_univ h).of_readsApart hr fun x hx _ => h x hx

theorem Pred.within_of_free {p : Pred} {N : Set String} (hr : p.ReadsApart [])
    (h : ∀ x ∈ p.free, x ∈ N) : p.Within N N :=
  (Pred.within_univ h).of_readsApart hr fun x hx _ => h x hx

end

/-! ## Renaming and substitution -/

section

variable {A : Set String}

mutual

/-- After a renaming the old name is gone and the new one is there. -/
theorem Expr.Within.rename {e : Expr} {x y : String} {V V' : Set String} (h : e.Within A V)
    (hV : ∀ z ∈ V, z = x ∨ z ∈ V') (hy : y ∈ V') : (e.rename x y).Within A V' := by
  match e, h with
  | .const n, _ =>
    rw [Expr.rename_const]
    trivial
  | .var z, h =>
    rw [Expr.rename_var]
    by_cases hzx : z = x
    · rw [if_pos hzx]
      exact hy
    · rw [if_neg hzx]
      exact (hV z h).resolve_left hzx
  | .neg a, h =>
    rw [Expr.rename_neg]
    exact Expr.Within.rename (e := a) h hV hy
  | .binary op a b, h =>
    rw [Expr.rename_binary]
    exact ⟨h.1.rename hV hy, h.2.rename hV hy⟩
  | .read a i, h =>
    rw [Expr.rename_read]
    exact ⟨h.1, h.2.rename hV hy⟩
  | .call f args, h =>
    rw [Expr.rename_call]
    exact Expr.WithinAll.rename h hV hy
  | .cond p a b, h =>
    rw [Expr.rename_cond]
    exact ⟨h.1.rename hV hy, h.2.1.rename hV hy, h.2.2.rename hV hy⟩
termination_by 2 * e.size
decreasing_by all_goals simp only [Expr.size]; omega

theorem Expr.WithinAll.rename {es : List Expr} {x y : String} {V V' : Set String}
    (h : Expr.WithinAll A es V) (hV : ∀ z ∈ V, z = x ∨ z ∈ V') (hy : y ∈ V') :
    Expr.WithinAll A (es.map (Expr.rename x y)) V' := by
  match es, h with
  | [], _ => trivial
  | e :: es, h => exact ⟨h.1.rename hV hy, Expr.WithinAll.rename h.2 hV hy⟩
termination_by 2 * Expr.sizes es + 1
decreasing_by
  all_goals
    have := e.size_pos
    simp only [Expr.sizes]
    omega

theorem Pred.Within.rename {p : Pred} {x y : String} {V V' : Set String} (h : p.Within A V)
    (hV : ∀ z ∈ V, z = x ∨ z ∈ V') (hy : y ∈ V') : (p.rename x y).Within A V' := by
  match p, h with
  | .bool b, _ =>
    rw [Pred.rename_bool]
    trivial
  | .compare op a b, h =>
    rw [Pred.rename_compare]
    exact ⟨h.1.rename hV hy, h.2.rename hV hy⟩
  | .not p, h =>
    rw [Pred.rename_not]
    exact Pred.Within.rename (p := p) h hV hy
  | .and p q, h =>
    rw [Pred.rename_and]
    exact ⟨h.1.rename hV hy, h.2.rename hV hy⟩
  | .or p q, h =>
    rw [Pred.rename_or]
    exact ⟨h.1.rename hV hy, h.2.rename hV hy⟩
  | .implies p q, h =>
    rw [Pred.rename_implies]
    exact ⟨h.1.rename hV hy, h.2.rename hV hy⟩
  | .paren p, h =>
    rw [Pred.rename_paren]
    exact Pred.Within.rename (p := p) h hV hy
  | .quantified q w body, h =>
    have hbody : body.Within A (insert w.name V) := h
    rw [Pred.rename_quantified]
    split
    · next hwx =>
      refine hbody.mono subset_rfl fun z hz => ?_
      rcases hz with hz | hz
      · exact .inl hz
      · exact (hV z hz).elim (fun hzx => .inl (hzx.trans hwx.symm)) .inr
    · split
      · -- the binder is turned into a new name first, which is bound in its place
        have hnew : (body.rename w.name (renamedBinder x y w.name body)).Within A
            (insert (renamedBinder x y w.name body) V) :=
          hbody.rename (fun z hz => hz.imp id .inr) (.inl rfl)
        exact hnew.rename (fun z hz => hz.elim (fun h => .inr (.inl h)) fun h =>
          (hV z h).imp id .inr) (.inr hy)
      · exact hbody.rename (fun z hz => hz.elim (fun h => .inr (.inl h)) fun h =>
          (hV z h).imp id .inr) (.inr hy)
  | .formula f args, h =>
    rw [Pred.rename_formula]
    exact Expr.WithinAll.rename h hV hy
termination_by 2 * p.size
decreasing_by
  all_goals
    simp only [Pred.size, Pred.size_rename]
    omega

end

/-- Under a binder the bindings that stay in force replace what they replaced before, except for the
variable that is bound. -/
theorem Bindings.mem_insert_of_without {m : Bindings} {w : String} {V V' : Set String}
    (hV : ∀ z ∈ V, z ∉ m.keys → z ∈ V') :
    ∀ z ∈ insert w V, z ∉ (m.without w).keys → z ∈ insert w V' := by
  intro z hz hkeys
  by_cases hzw : z = w
  · exact .inl hzw
  · have hzV : z ∈ V := Set.mem_of_mem_insert_of_ne hz hzw
    exact .inr (hV z hzV (Bindings.not_mem_keys_of_without hkeys hzw))

mutual

/-- After a substitution the replaced variables are gone, and those of what is put in are there. -/
theorem Expr.Within.subst {e : Expr} {m : Bindings} {V V' : Set String} (h : e.Within A V)
    (hV : ∀ z ∈ V, z ∉ m.keys → z ∈ V') (hm : ∀ b ∈ m, b.2.Within A V') :
    (e.subst m).Within A V' := by
  match e, h with
  | .const n, _ =>
    rw [Expr.subst]
    trivial
  | .var x, h =>
    rw [Expr.subst]
    cases hx : m.lookup x with
    | none => exact hV x h (Bindings.not_mem_keys_of_lookup hx)
    | some e => exact hm (x, e) (Bindings.mem_of_lookup hx)
  | .neg a, h =>
    rw [Expr.subst]
    exact Expr.Within.subst (e := a) h hV hm
  | .binary op a b, h =>
    rw [Expr.subst]
    exact ⟨h.1.subst hV hm, h.2.subst hV hm⟩
  | .read a i, h =>
    rw [Expr.subst]
    exact ⟨h.1, h.2.subst hV hm⟩
  | .call f args, h =>
    rw [Expr.subst]
    exact Expr.WithinAll.subst h hV hm
  | .cond p a b, h =>
    rw [Expr.subst]
    exact ⟨h.1.subst hV hm, h.2.1.subst hV hm, h.2.2.subst hV hm⟩
termination_by 2 * e.size
decreasing_by all_goals simp only [Expr.size]; omega

theorem Expr.WithinAll.subst {es : List Expr} {m : Bindings} {V V' : Set String}
    (h : Expr.WithinAll A es V) (hV : ∀ z ∈ V, z ∉ m.keys → z ∈ V')
    (hm : ∀ b ∈ m, b.2.Within A V') : Expr.WithinAll A (Expr.substList m es) V' := by
  match es, h with
  | [], _ =>
    rw [Expr.substList]
    trivial
  | e :: es, h =>
    rw [Expr.substList]
    exact ⟨h.1.subst hV hm, Expr.WithinAll.subst h.2 hV hm⟩
termination_by 2 * Expr.sizes es + 1
decreasing_by
  all_goals
    have := e.size_pos
    simp only [Expr.sizes]
    omega

theorem Pred.Within.subst {p : Pred} {m : Bindings} {V V' : Set String} (h : p.Within A V)
    (hV : ∀ z ∈ V, z ∉ m.keys → z ∈ V') (hm : ∀ b ∈ m, b.2.Within A V') :
    (p.subst m).Within A V' := by
  match p, h with
  | .bool b, _ =>
    rw [Pred.subst]
    trivial
  | .compare op a b, h =>
    rw [Pred.subst]
    exact ⟨h.1.subst hV hm, h.2.subst hV hm⟩
  | .not p, h =>
    rw [Pred.subst]
    exact Pred.Within.subst (p := p) h hV hm
  | .and p q, h =>
    rw [Pred.subst]
    exact ⟨h.1.subst hV hm, h.2.subst hV hm⟩
  | .or p q, h =>
    rw [Pred.subst]
    exact ⟨h.1.subst hV hm, h.2.subst hV hm⟩
  | .implies p q, h =>
    rw [Pred.subst]
    exact ⟨h.1.subst hV hm, h.2.subst hV hm⟩
  | .paren p, h =>
    rw [Pred.subst]
    exact Pred.Within.subst (p := p) h hV hm
  | .quantified q w body, h =>
    have hbody : body.Within A (insert w.name V) := h
    have hinner : ∀ (z : String), ∀ b ∈ m.without w.name, b.2.Within A (insert z V') := by
      intro z b hb
      exact (hm b (Bindings.mem_of_mem_without hb).1).mono subset_rfl (Set.subset_insert z V')
    rw [Pred.subst_quantified]
    split
    · next hempty =>
      refine hbody.mono subset_rfl fun z hz => Bindings.mem_insert_of_without hV z hz ?_
      rw [List.isEmpty_iff.mp hempty]
      exact List.not_mem_nil
    · split
      · -- with the binder renamed its old name is gone, also as a name that is replaced outside
        have hnew : (body.rename w.name (m.newBinder w.name body)).Within A
            (insert (m.newBinder w.name body) (V \ {w.name})) := by
          refine hbody.rename (fun z hz => ?_) (.inl rfl)
          by_cases hzw : z = w.name
          · exact .inl hzw
          · exact .inr (.inr ⟨Set.mem_of_mem_insert_of_ne hz hzw, hzw⟩)
        refine hnew.subst (fun z hz hkeys => ?_) (hinner _)
        rcases hz with hz | ⟨hzV, hzw⟩
        · exact .inl hz
        · exact .inr (hV z hzV (Bindings.not_mem_keys_of_without hkeys hzw))
      · exact hbody.subst (Bindings.mem_insert_of_without hV) (hinner _)
  | .formula f args, h =>
    rw [Pred.subst]
    exact Expr.WithinAll.subst h hV hm
termination_by 2 * p.size
decreasing_by
  all_goals
    simp only [Pred.size, Pred.size_rename]
    omega

end

mutual

/-- In place of the reads of a cell only its value can come in; the index is only compared. -/
theorem Expr.Within.substCell {e : Expr} {w : CellUpdate} {V : Set String} (h : e.Within A V)
    (hw : w.value.Within A V) : (e.substCell w).Within A V := by
  match e, h with
  | .const n, _ =>
    rw [Expr.substCell]
    trivial
  | .var x, h =>
    rw [Expr.substCell]
    exact h
  | .neg a, h =>
    rw [Expr.substCell]
    exact Expr.Within.substCell (e := a) h hw
  | .binary op a b, h =>
    rw [Expr.substCell]
    exact ⟨h.1.substCell hw, h.2.substCell hw⟩
  | .read a i, h =>
    rw [Expr.substCell]
    split
    · exact hw
    · exact ⟨h.1, h.2.substCell hw⟩
  | .call f args, h =>
    rw [Expr.substCell]
    exact Expr.WithinAll.substCell h hw
  | .cond p a b, h =>
    rw [Expr.substCell]
    exact ⟨h.1.substCell hw, h.2.1.substCell hw, h.2.2.substCell hw⟩
termination_by 2 * e.size
decreasing_by all_goals simp only [Expr.size]; omega

theorem Expr.WithinAll.substCell {es : List Expr} {w : CellUpdate} {V : Set String}
    (h : Expr.WithinAll A es V) (hw : w.value.Within A V) :
    Expr.WithinAll A (Expr.substCellList w es) V := by
  match es, h with
  | [], _ =>
    rw [Expr.substCellList]
    trivial
  | e :: es, h =>
    rw [Expr.substCellList]
    exact ⟨h.1.substCell hw, Expr.WithinAll.substCell h.2 hw⟩
termination_by 2 * Expr.sizes es + 1
decreasing_by
  all_goals
    have := e.size_pos
    simp only [Expr.sizes]
    omega

theorem Pred.Within.substCell {p : Pred} {w : CellUpdate} {V : Set String} (h : p.Within A V)
    (hw : w.value.Within A V) : (p.substCell w).Within A V := by
  match p, h with
  | .bool b, _ =>
    rw [Pred.substCell]
    trivial
  | .compare op a b, h =>
    rw [Pred.substCell]
    exact ⟨h.1.substCell hw, h.2.substCell hw⟩
  | .not p, h =>
    rw [Pred.substCell]
    exact Pred.Within.substCell (p := p) h hw
  | .and p q, h =>
    rw [Pred.substCell]
    exact ⟨h.1.substCell hw, h.2.substCell hw⟩
  | .or p q, h =>
    rw [Pred.substCell]
    exact ⟨h.1.substCell hw, h.2.substCell hw⟩
  | .implies p q, h =>
    rw [Pred.substCell]
    exact ⟨h.1.substCell hw, h.2.substCell hw⟩
  | .paren p, h =>
    rw [Pred.substCell]
    exact Pred.Within.substCell (p := p) h hw
  | .quantified q z body, h =>
    have hbody : body.Within A (insert z.name V) := h
    have hunder : ∀ x : String, w.value.Within A (insert x V) := fun x =>
      hw.mono subset_rfl (Set.subset_insert x V)
    rw [Pred.substCell_quantified]
    split
    · -- the new binder takes the place of the old one in the body
      have hnew : (body.rename z.name (w.newBinder z.name body)).Within A
          (insert (w.newBinder z.name body) V) :=
        hbody.rename (fun x hx => hx.imp id .inr) (.inl rfl)
      exact hnew.substCell (hunder _)
    · exact hbody.substCell (hunder _)
  | .formula f args, h =>
    rw [Pred.substCell]
    exact Expr.WithinAll.substCell h hw
termination_by 2 * p.size
decreasing_by
  all_goals
    simp only [Pred.size, Pred.size_rename]
    omega

end

/-! ## Simplification and quantifiers -/

theorem within_hereditary (A V : Set String) :
    Hereditary (fun e => e.Within A V) (fun p => p.Within A V) where
  const _ := trivial
  neg _ := Iff.rfl
  binary _ _ _ := Iff.rfl
  read _ _ h hi := ⟨h.1, hi h.2⟩
  call f args h hargs := by
    have hall := Expr.withinAll_iff.mp h
    refine Expr.withinAll_iff.mpr fun e he => ?_
    rw [Expr.simplifyList_eq_map] at he
    obtain ⟨e', he', rfl⟩ := List.mem_map.mp he
    exact hargs e' he' (hall e' he')
  cond _ _ _ := Iff.rfl
  bool _ := trivial
  compare _ _ _ := Iff.rfl
  not _ := Iff.rfl
  and _ _ := Iff.rfl
  or _ _ := Iff.rfl
  implies _ _ := Iff.rfl
  paren _ := Iff.rfl

theorem Pred.Within.simplify {p : Pred} {V : Set String} (h : p.Within A V) :
    p.simplify.Within A V :=
  (within_hereditary A V).pred_simplify h

/-- Names that are quantified over are no longer free. -/
theorem Pred.Within.forall_names {p : Pred} {xs : List String} {V : Set String}
    (h : p.Within A (V ∪ {x | x ∈ xs})) : (xs.foldr Pred.forall_ p).Within A V := by
  induction xs generalizing V with
  | nil =>
    refine h.mono subset_rfl fun x hx => ?_
    exact hx.resolve_right List.not_mem_nil
  | cons x xs ih =>
    refine ih (h.mono subset_rfl fun y hy => ?_)
    rcases hy with hy | hy
    · exact .inl (.inr hy)
    · rcases List.mem_cons.mp hy with rfl | hy
      · exact .inl (.inl rfl)
      · exact .inr hy

/-! ## Assignments -/

section

variable {V : Set String} {q r : Pred} {targets : List Target} {exprs : List Expr}

theorem Pred.Within.replaceIn (h : q.Within A V) (t : Target) {e : Expr} (he : e.Within A V) :
    (t.replaceIn e q).Within A V := by
  cases t with
  | var x => exact h.subst (fun z hz _ => hz) (List.forall_mem_singleton.mpr he)
  | cell a i => exact h.substCell he

/-- Targets replaced one after the other by names. -/
theorem Pred.Within.replaceAll {pairs : List (Target × String)} (h : q.Within A V)
    (hpairs : ∀ b ∈ pairs, b.2 ∈ V) :
    (pairs.foldl (fun q b => b.1.replaceIn (.var b.2) q) q).Within A V := by
  induction pairs generalizing q with
  | nil => exact h
  | cons b pairs ih =>
    have hstep : (b.1.replaceIn (.var b.2) q).Within A V :=
      h.replaceIn b.1 (hpairs b List.mem_cons_self)
    exact ih hstep fun c hc => hpairs c (List.mem_cons_of_mem _ hc)

/-- The names that stand for the unknown values of targets. -/
def havocNames (targets : List Target) (q : Pred) : List String :=
  newNames Target.name targets (q.free ++ targets.map Target.name)

theorem havoc_eq (targets : List Target) (q : Pred) :
    havoc targets q = (havocNames targets q).foldr Pred.forall_
      ((targets.zip (havocNames targets q)).foldl (fun q b => b.1.replaceIn (.var b.2) q) q) :=
  rfl

/-- They are bound. -/
theorem Pred.Within.havoc (h : q.Within A V) (targets : List Target) :
    (Contracts.havoc targets q).Within A V := by
  rw [havoc_eq]
  refine Pred.Within.forall_names (Pred.Within.replaceAll (h.mono subset_rfl ?_) ?_)
  · exact Set.subset_union_left
  · rintro ⟨t, name⟩ hb
    exact .inr (List.of_mem_zip hb).2

/-- The temporaries of a mixed assignment. -/
def temporaryNames (targets : List Target) (exprs : List Expr) (q : Pred) : List String :=
  newNames (fun t => t.name ++ "_tmp") targets
    (q.free ++ (targets.zip exprs).flatMap fun (t, e) => t.usedNames e)

theorem viaTemporaries_eq (targets : List Target) (exprs : List Expr) (q : Pred) :
    viaTemporaries targets exprs q =
      (((targets.zip (temporaryNames targets exprs q)).filter (·.1.scalar?.isSome) ++
        (targets.zip (temporaryNames targets exprs q)).filter (·.1.scalar?.isNone)).foldl
          (fun q b => b.1.replaceIn (.var b.2) q) q).subst
        ((temporaryNames targets exprs q).zip exprs) :=
  rfl

/-- They are replaced by the expressions, each by one. -/
theorem Pred.Within.viaTemporaries (h : q.Within A V) (hexprs : ∀ e ∈ exprs, e.Within A V)
    (hlen : targets.length = exprs.length) :
    (Contracts.viaTemporaries targets exprs q).Within A V := by
  rw [viaTemporaries_eq]
  have hkeys : Bindings.keys ((temporaryNames targets exprs q).zip exprs) =
      temporaryNames targets exprs q := by
    refine List.map_fst_zip (Nat.le_of_eq ?_)
    rw [temporaryNames, length_newNames, hlen]
  have hnames : ∀ b ∈ (targets.zip (temporaryNames targets exprs q)).filter (·.1.scalar?.isSome) ++
      (targets.zip (temporaryNames targets exprs q)).filter (·.1.scalar?.isNone),
      b.2 ∈ V ∪ {x | x ∈ temporaryNames targets exprs q} := by
    rintro ⟨t, name⟩ hb
    have hpair : (t, name) ∈ targets.zip (temporaryNames targets exprs q) :=
      (List.mem_append.mp hb).elim (fun h => (List.mem_filter.mp h).1)
        fun h => (List.mem_filter.mp h).1
    exact .inr (List.of_mem_zip hpair).2
  have hwritten := Pred.Within.replaceAll (h.mono subset_rfl Set.subset_union_left) hnames
  refine hwritten.subst (fun z hz hnot => ?_) ?_
  · rw [hkeys] at hnot
    exact hz.resolve_right hnot
  · rintro ⟨t, e⟩ hb
    exact hexprs e (List.of_mem_zip hb).2

/-- Unknown values do not come from the expressions, so nothing is asked of these for them. -/
theorem Pred.Within.wpAssign (h : q.Within A V)
    (hexprs : ¬(1 < targets.length ∧ isSingleCall exprs) → ∀ e ∈ exprs, e.Within A V)
    (hr : wpAssign targets exprs q = .ok r) : r.Within A V := by
  rcases wpAssign_cases hr with ⟨-, rfl⟩ | ⟨-, -, rfl⟩ | ⟨t, e, rfl, rfl, rfl⟩ |
    ⟨hlen, hsingle, hcases⟩
  · exact h
  · exact h.havoc targets
  · have hone := hexprs fun hcall => absurd hcall.1 (Nat.lt_irrefl 1)
    exact h.replaceIn t (hone e List.mem_cons_self)
  · have hall := hexprs fun hcall => Bool.false_ne_true (hsingle.symm.trans hcall.2)
    rcases hcases with ⟨-, rfl⟩ | ⟨-, rfl⟩
    · refine h.subst (fun z hz _ => hz) fun b hb => ?_
      exact hall b.2 (List.of_mem_zip (show (b.1, b.2) ∈ _ from Bindings.mem_of_mem_ofPairs hb)).2
    · exact h.viaTemporaries hall hlen

end

end

/-! ## Statements -/

mutual

/-- The expressions that a statement assigns. -/
def Stmt.exprs : Stmt → List Expr
  | .assign _ exprs => exprs
  | .block stmts => Stmt.exprsList stmts
  | .branch _ yes no => yes.exprs ++ (match no with
    | some s => s.exprs
    | none => [])
  | .loop _ body _ => body.exprs

def Stmt.exprsList : List Stmt → List Expr
  | [] => []
  | s :: rest => s.exprs ++ Stmt.exprsList rest

end

mutual

/-- The conditions and the invariants of a statement. -/
def Stmt.preds : Stmt → List Pred
  | .assign _ _ => []
  | .block stmts => Stmt.predsList stmts
  | .branch condition yes no => condition :: (yes.preds ++ (match no with
    | some s => s.preds
    | none => []))
  | .loop condition body invariant => condition :: (invariant.toList ++ body.preds)

def Stmt.predsList : List Stmt → List Pred
  | [] => []
  | s :: rest => s.preds ++ Stmt.predsList rest

end

section

variable {A V : Set String} {close : Bool}

theorem Pred.Within.wpBranch {c r₁ r₂ : Pred} (hc : c.Within A V) (h₁ : r₁.Within A V)
    (h₂ : r₂.Within A V) : (Contracts.wpBranch c r₁ r₂).Within A V :=
  ⟨⟨hc, h₁⟩, hc, h₂⟩

theorem Pred.Within.wpLoop {c inv w q : Pred} (hc : c.Within A V) (hinv : inv.Within A V)
    (hw : w.Within A V) (hq : q.Within A V) (vars : List String) :
    (Contracts.wpLoop vars c inv w q).Within A V := by
  have hclose : ∀ {p : Pred}, p.Within A V → (vars.foldr Pred.forall_ p).Within A V := fun hp =>
    Pred.Within.forall_names (hp.mono subset_rfl Set.subset_union_left)
  have hkeep : (Pred.implies (.and inv c) w).Within A V := ⟨⟨hinv, hc⟩, hw⟩
  have hend : (Pred.implies (.and inv (.not c)) q).Within A V := ⟨⟨hinv, hc⟩, hq⟩
  exact ⟨hinv, hclose hkeep, hclose hend⟩

mutual

/-- A weakest precondition is about what the statement and the predicate asked for are about. The
targets are not among it, nor are their indices. -/
theorem Pred.Within.wp : ∀ {c : Stmt} {q r : Pred}, (∀ e ∈ c.exprs, e.Within A V) →
    (∀ p ∈ c.preds, p.Within A V) → q.Within A V → c.wp close q = .ok r → r.Within A V
  | .assign targets exprs, q, r, hexprs, _, hq, h => by
    obtain ⟨r₀, hr₀, rfl⟩ := Stmt.wp_assign_eq_ok.mp h
    exact (hq.wpAssign (fun _ => hexprs) hr₀).simplify
  | .block stmts, q, r, hexprs, hpreds, hq, h => by
    rw [Stmt.wp] at h
    exact Pred.Within.wpBlock hexprs hpreds hq h
  | .branch condition yes none, q, r, hexprs, hpreds, hq, h => by
    obtain ⟨r₁, r₂, h₁, h₂, rfl⟩ := Stmt.wp_branch_eq_ok.mp h
    cases h₂
    obtain ⟨hcond, hpreds⟩ := List.forall_mem_cons.mp hpreds
    have hyes := Pred.Within.wp (List.forall_mem_append.mp hexprs).1
      (List.forall_mem_append.mp hpreds).1 hq h₁
    exact (hcond.wpBranch hyes hq).simplify
  | .branch condition yes (some no), q, r, hexprs, hpreds, hq, h => by
    obtain ⟨r₁, r₂, h₁, h₂, rfl⟩ := Stmt.wp_branch_eq_ok.mp h
    obtain ⟨hcond, hpreds⟩ := List.forall_mem_cons.mp hpreds
    obtain ⟨hexprs₁, hexprs₂⟩ := List.forall_mem_append.mp hexprs
    obtain ⟨hpreds₁, hpreds₂⟩ := List.forall_mem_append.mp hpreds
    have hyes := Pred.Within.wp hexprs₁ hpreds₁ hq h₁
    have hno := Pred.Within.wp (c := no) hexprs₂ hpreds₂ hq h₂
    exact (hcond.wpBranch hyes hno).simplify
  | .loop condition body invariant, q, r, hexprs, hpreds, hq, h => by
    obtain ⟨inv, w, rfl, hw, rfl⟩ := Stmt.wp_loop_eq_ok.mp h
    obtain ⟨hcond, hpreds⟩ := List.forall_mem_cons.mp hpreds
    obtain ⟨hinv, hpreds⟩ := List.forall_mem_append.mp hpreds
    have hinv : inv.Within A V := hinv inv List.mem_cons_self
    have hbody := Pred.Within.wp (c := body) hexprs hpreds hinv hw
    exact (hcond.wpLoop hinv hbody hq _).simplify

theorem Pred.Within.wpBlock : ∀ {cs : List Stmt} {q r : Pred},
    (∀ e ∈ Stmt.exprsList cs, e.Within A V) → (∀ p ∈ Stmt.predsList cs, p.Within A V) →
      q.Within A V → Stmt.wpBlock close cs q = .ok r → r.Within A V
  | [], q, r, _, _, hq, h => by
    rw [Stmt.wpBlock] at h
    cases h
    exact hq
  | c :: rest, q, r, hexprs, hpreds, hq, h => by
    obtain ⟨w, hw, hr⟩ := Stmt.wpBlock_cons_eq_ok.mp h
    obtain ⟨hexprs₁, hexprs₂⟩ := List.forall_mem_append.mp hexprs
    obtain ⟨hpreds₁, hpreds₂⟩ := List.forall_mem_append.mp hpreds
    have hrest := Pred.Within.wpBlock hexprs₂ hpreds₂ hq hw
    exact Pred.Within.wp hexprs₁ hpreds₁ hrest hr

end

/-- The predicates that a function is written with. -/
def FunctionDef.preds (f : FunctionDef) : List Pred :=
  f.pre.toList ++ f.post.toList ++ f.body.preds

theorem Pred.Within.obligation {f : FunctionDef} {vc : Pred} (hpreds : ∀ p ∈ f.preds, p.Within A V)
    (hexprs : ∀ e ∈ f.body.exprs, e.Within A V) (h : f.obligation close = .ok (some vc)) :
    vc.Within A V := by
  obtain ⟨post, w, hpost, hw, rfl⟩ := FunctionDef.obligation_eq_ok.mp h
  obtain ⟨hcontract, hbody⟩ := List.forall_mem_append.mp hpreds
  obtain ⟨hpre, hpost'⟩ := List.forall_mem_append.mp hcontract
  have hq : post.Within A V := by
    refine hpost' post ?_
    rw [hpost]
    exact List.mem_cons_self
  have hp : (f.pre.getD (.bool true)).Within A V := by
    cases hf : f.pre with
    | none => trivial
    | some p =>
      refine hpre p ?_
      rw [hf]
      exact List.mem_cons_self
  have himp : (Pred.implies (f.pre.getD (.bool true)) w).Within A V :=
    ⟨hp, Pred.Within.wp hexprs hbody hq hw⟩
  exact himp.simplify

end

/-! ## Names that are made up -/

/-- The variable does not occur free. -/
def Pred.Omits (x : String) (p : Pred) : Prop := p.Within Set.univ {x}ᶜ

theorem Pred.omits_of_not_free {x : String} {p : Pred} (h : x ∉ p.free) : p.Omits x :=
  Pred.within_univ fun _ hy hyx => h (hyx ▸ hy)

theorem Expr.omits_of_not_free {x : String} {e : Expr} (h : x ∉ e.free) :
    e.Within Set.univ {x}ᶜ :=
  Expr.within_univ fun _ hy hyx => h (hyx ▸ hy)

theorem omits_havocNames {targets : List Target} {q : Pred} {x : String}
    (hx : x ∈ havocNames targets q) : (havoc targets q).Omits x := by
  have hnew := not_mem_of_mem_newNames hx
  have hq : q.Omits x := Pred.omits_of_not_free fun h => hnew (List.mem_append_left _ h)
  exact hq.havoc targets

theorem omits_temporaryNames {targets : List Target} {exprs : List Expr} {q : Pred} {x : String}
    (hlen : targets.length = exprs.length) (hx : x ∈ temporaryNames targets exprs q) :
    (viaTemporaries targets exprs q).Omits x := by
  have hnew := not_mem_of_mem_newNames hx
  have hq : q.Omits x := Pred.omits_of_not_free fun h => hnew (List.mem_append_left _ h)
  refine hq.viaTemporaries (fun e he => Expr.omits_of_not_free fun h => hnew ?_) hlen
  -- each expression has a target that it goes to, and a temporary avoids the names of the two
  obtain ⟨i, hi, rfl⟩ := List.mem_iff_getElem.mp he
  have hpair : (targets[i], exprs[i]) ∈ targets.zip exprs := by
    rw [List.mem_iff_getElem]
    refine ⟨i, ?_, List.getElem_zip⟩
    rw [List.length_zip]
    omega
  have hused : x ∈ Target.usedNames targets[i] exprs[i] :=
    List.mem_append_left _ (List.mem_cons_of_mem _ h)
  exact List.mem_append_right _ (List.mem_flatMap.mpr ⟨_, hpair, hused⟩)

/-- A quantifier over a name leaves no variable of that name. -/
theorem Pred.omits_quantified (k : Quantifier) (z : Param) (p : Pred) :
    (Pred.quantified k z p).Omits z.name :=
  Pred.within_univ (p := p) fun x _ => Classical.em (x = z.name)

theorem omits_newBinder (m : Bindings) (k : Quantifier) (z : Param) (body : Pred) :
    ((Pred.quantified k z body).subst m).Omits (m.newBinder z.name body) := by
  obtain ⟨hfree, -, hbody, -⟩ := m.newBinder_spec z.name body
  have hbefore : (Pred.quantified k z body).Omits (m.newBinder z.name body) :=
    Pred.omits_of_not_free fun h => hbody (List.mem_filter.mp h).1
  rw [Pred.subst_quantified]
  split
  · exact hbefore
  · split
    · exact Pred.omits_quantified k _ _
    · refine Pred.Within.subst (V := insert z.name {m.newBinder z.name body}ᶜ) hbefore
        (fun _ hx _ => hx) fun b hb => ?_
      have hvalue : b.2.Within Set.univ {m.newBinder z.name body}ᶜ :=
        Expr.omits_of_not_free (Bindings.not_mem_free hfree hb)
      exact hvalue.mono subset_rfl (Set.subset_insert _ _)

theorem omits_cellBinder (w : CellUpdate) (k : Quantifier) (z : Param) (body : Pred) :
    ((Pred.quantified k z body).substCell w).Omits (w.newBinder z.name body) := by
  obtain ⟨hfree, -, hbody, -⟩ := w.newBinder_spec z.name body
  have hbefore : (Pred.quantified k z body).Omits (w.newBinder z.name body) :=
    Pred.omits_of_not_free fun h => hbody (List.mem_filter.mp h).1
  have hvalue : w.value.Within Set.univ {w.newBinder z.name body}ᶜ :=
    Expr.omits_of_not_free (CellUpdate.value_not_mem_free hfree)
  exact Pred.Within.substCell hbefore hvalue

/-- No name that is made up gets out of an obligation. The obligation of a function stays within any
variables and any arrays that its contract, its conditions, its invariants and its assigned
expressions stay within. So, where no array is read under the name of a binder, every name free in
it is free in one of them. In the steps towards it, the names for the results of a call, the
temporaries of a mixed assignment and the new names of binders are not free where the step ends. -/
theorem obligation_names_written (f : FunctionDef) (close : Bool) (vc : Pred)
    (hvc : f.obligation close = .ok (some vc)) :
    (∀ A V : Set String, (∀ p ∈ f.preds, p.Within A V) → (∀ e ∈ f.body.exprs, e.Within A V) →
      vc.Within A V) ∧
    ((∀ p ∈ f.preds, p.ReadsApart []) → (∀ e ∈ f.body.exprs, e.ReadsApart []) →
      ∀ x ∈ vc.free, (∃ p ∈ f.preds, x ∈ p.free) ∨ ∃ e ∈ f.body.exprs, x ∈ e.free) ∧
    (∀ (targets : List Target) (q : Pred), ∀ x ∈ havocNames targets q,
      (havoc targets q).Omits x) ∧
    (∀ (targets : List Target) (exprs : List Expr) (q : Pred), targets.length = exprs.length →
      ∀ x ∈ temporaryNames targets exprs q, (viaTemporaries targets exprs q).Omits x) ∧
    (∀ (k : Quantifier) (z : Param) (body : Pred),
      (∀ m : Bindings, ((Pred.quantified k z body).subst m).Omits (m.newBinder z.name body)) ∧
      ∀ w : CellUpdate,
        ((Pred.quantified k z body).substCell w).Omits (w.newBinder z.name body)) := by
  refine ⟨fun A V hpreds hexprs => Pred.Within.obligation hpreds hexprs hvc, ?_,
    fun targets q x hx => omits_havocNames hx,
    fun targets exprs q hlen x hx => omits_temporaryNames hlen hx,
    fun k z body => ⟨fun m => omits_newBinder m k z body, fun w => omits_cellBinder w k z body⟩⟩
  intro hpreds hexprs x hx
  -- the names that are written bound the variables as well as the arrays
  let N : Set String :=
    {y | (∃ p ∈ f.preds, y ∈ p.free) ∨ ∃ e ∈ f.body.exprs, y ∈ e.free}
  have hpredsN : ∀ p ∈ f.preds, p.Within N N := fun p hp =>
    Pred.within_of_free (hpreds p hp) fun y hy => .inl ⟨p, hp, hy⟩
  have hexprsN : ∀ e ∈ f.body.exprs, e.Within N N := fun e he =>
    Expr.within_of_free (hexprs e he) fun y hy => .inr ⟨e, he, hy⟩
  have hN : x ∈ N ∨ x ∈ N := (Pred.Within.obligation hpredsN hexprsN hvc).mem_of_free hx
  exact hN.elim id id

/-- Assigns a variable and a cell together, receives two unknown values, counts in a loop, and puts
`k` in where a quantifier over `k` is in the way. -/
def reshuffle : FunctionDef where
  name := "reshuffle"
  params := [⟨"k", .int⟩, ⟨"a", .array⟩]
  returns := [⟨"r", .int⟩]
  locals := [⟨"x", .int⟩, ⟨"y", .int⟩]
  body := .block [
    .assign [.var "x", .cell "a" (.const 0)] [.var "k", .var "x"],
    .assign [.var "r", .var "y"] [.call "blank" []],
    .loop (.compare .lt (.var "x") (.read "a" (.const 0)))
      (.assign [.var "x"] [.binary .add (.var "x") (.const 1)])
      (some (.compare .le (.var "k") (.var "x"))),
    .assign [.var "r"] [.var "k"]]
  pre := none
  post := some (.quantified .universal ⟨"k", .int⟩
    (.implies (.compare .lt (.var "k") (.var "r")) (.compare .ne (.var "k") (.var "x"))))

/-- The obligation of `reshuffle` has no variables but `k`, `r` and `x`, and no array but `a`. -/
theorem reshuffle_names_written : ∃ vc, reshuffle.obligation true = .ok (some vc) ∧
    vc.Within {"a"} {"k", "r", "x"} ∧
    ∀ x ∈ vc.free,
      (∃ p ∈ reshuffle.preds, x ∈ p.free) ∨ ∃ e ∈ reshuffle.body.exprs, x ∈ e.free := by
  have hok : (reshuffle.obligation true).toOption.join.isSome = true := by cbv
  cases hvc : reshuffle.obligation true with
  | error e =>
    rw [hvc] at hok
    cases hok
  | ok vc? =>
    cases vc? with
    | none =>
      rw [hvc] at hok
      cases hok
    | some vc =>
      obtain ⟨hwithin, hfree, -⟩ := obligation_names_written reshuffle true vc hvc
      refine ⟨vc, rfl, hwithin _ _ ?_ ?_, hfree ?_ ?_⟩
      · simp [FunctionDef.preds, reshuffle, Stmt.preds, Stmt.predsList, Pred.Within, Expr.Within]
      · simp [reshuffle, Stmt.exprs, Stmt.exprsList, Expr.Within, Expr.WithinAll]
      · simp [FunctionDef.preds, reshuffle, Stmt.preds, Stmt.predsList, Pred.ReadsApart,
          Expr.ReadsApart]
      · simp [reshuffle, Stmt.exprs, Stmt.exprsList, Expr.ReadsApart, Expr.ReadsApartIn]

end Contracts

import Contracts.Proofs.LiteralCells
import Contracts.WeakestPre

/-!
# Cells that do not alias

The substitution for the reads of a cell compares indices as they are written. It is the rule for
writing a cell wherever that comparison decides which cell is read: every read of the array has the
index of the write, or an index with another value (`Pred.NoAlias`). What hides reads has to be kept
away from the array as well: formulas, and functions other than `length` (`Pred.Withholds`).

A binder with a name of the index or of the value is renamed first. The renaming keeps both
conditions, provided that it leaves the index as it is written. It does so unless a quantifier
inside the index has the new name, which is then in the way and is itself renamed
(`Expr.rename_eq_self`). New names are numbered, so an index without numbered names in its
quantifiers is safe (`Expr.Unnumbered`).
-/

set_option autoImplicit false

namespace Contracts

/-! ## Quantifiers inside an expression -/

mutual

/-- The names of the quantifiers in an expression. They stand in the tests of its conditionals. -/
def Expr.binders : Expr → List String
  | .const _ | .var _ => []
  | .neg e => e.binders
  | .binary _ a b => a.binders ++ b.binders
  | .read _ i => i.binders
  | .call _ args => Expr.bindersList args
  | .cond p a b => p.binders ++ a.binders ++ b.binders

def Expr.bindersList : List Expr → List String
  | [] => []
  | e :: es => e.binders ++ Expr.bindersList es

def Pred.binders : Pred → List String
  | .bool _ => []
  | .compare _ a b => a.binders ++ b.binders
  | .not p | .paren p => p.binders
  | .and p q | .or p q | .implies p q => p.binders ++ q.binders
  | .quantified _ z p => z.name :: p.binders
  | .formula _ args => Expr.bindersList args

end

/-- No quantifier in the expression has a name that a renaming gives. -/
def Expr.Unnumbered (e : Expr) : Prop := ∀ base k, numberedName base k ∉ e.binders

theorem Expr.Unnumbered.freshName_not_mem {e : Expr} (h : e.Unnumbered) (base : String)
    (avoid : List String) : freshName base avoid ∉ e.binders := by
  obtain ⟨k, -, -, hk⟩ := exists_freshName_eq base avoid
  rw [hk]
  exact h base k

section

variable {x y : String}

mutual

/-- Renaming a variable that does not occur changes nothing, if no quantifier gets in its way. -/
theorem Expr.rename_eq_self : ∀ {e : Expr}, x ∉ e.free → y ∉ e.binders → e.rename x y = e
  | .const _, _, _ => Expr.rename_const ..
  | .var z, hx, _ => by
    rw [Expr.rename_var, if_neg]
    rintro rfl
    exact hx (by simp only [Expr.free, List.mem_singleton])
  | .neg e, hx, hy => by rw [Expr.rename_neg, Expr.rename_eq_self (e := e) hx hy]
  | .binary .., hx, hy => by
    simp only [Expr.free, Expr.binders, List.mem_append, not_or] at hx hy
    rw [Expr.rename_binary, Expr.rename_eq_self hx.1 hy.1, Expr.rename_eq_self hx.2 hy.2]
  | .read .., hx, hy => by
    simp only [Expr.free, List.mem_cons, not_or] at hx
    rw [Expr.rename_read, Expr.rename_eq_self hx.2 hy]
  | .call .., hx, hy => by rw [Expr.rename_call, Expr.map_rename_eq_self hx hy]
  | .cond .., hx, hy => by
    simp only [Expr.free, Expr.binders, List.mem_append, not_or] at hx hy
    rw [Expr.rename_cond, Pred.rename_eq_self hx.1.1 hy.1.1, Expr.rename_eq_self hx.1.2 hy.1.2,
      Expr.rename_eq_self hx.2 hy.2]

theorem Expr.map_rename_eq_self : ∀ {es : List Expr}, x ∉ Expr.freeList es →
    y ∉ Expr.bindersList es → es.map (Expr.rename x y) = es
  | [], _, _ => List.map_nil
  | _ :: _, hx, hy => by
    simp only [Expr.freeList, Expr.bindersList, List.mem_append, not_or] at hx hy
    rw [List.map_cons, Expr.rename_eq_self hx.1 hy.1, Expr.map_rename_eq_self hx.2 hy.2]

theorem Pred.rename_eq_self : ∀ {p : Pred}, x ∉ p.free → y ∉ p.binders → p.rename x y = p
  | .bool _, _, _ => Pred.rename_bool ..
  | .compare .., hx, hy => by
    simp only [Pred.free, Pred.binders, List.mem_append, not_or] at hx hy
    rw [Pred.rename_compare, Expr.rename_eq_self hx.1 hy.1, Expr.rename_eq_self hx.2 hy.2]
  | .not p, hx, hy => by rw [Pred.rename_not, Pred.rename_eq_self (p := p) hx hy]
  | .and .., hx, hy => by
    simp only [Pred.free, Pred.binders, List.mem_append, not_or] at hx hy
    rw [Pred.rename_and, Pred.rename_eq_self hx.1 hy.1, Pred.rename_eq_self hx.2 hy.2]
  | .or .., hx, hy => by
    simp only [Pred.free, Pred.binders, List.mem_append, not_or] at hx hy
    rw [Pred.rename_or, Pred.rename_eq_self hx.1 hy.1, Pred.rename_eq_self hx.2 hy.2]
  | .implies .., hx, hy => by
    simp only [Pred.free, Pred.binders, List.mem_append, not_or] at hx hy
    rw [Pred.rename_implies, Pred.rename_eq_self hx.1 hy.1, Pred.rename_eq_self hx.2 hy.2]
  | .paren p, hx, hy => by rw [Pred.rename_paren, Pred.rename_eq_self (p := p) hx hy]
  | .quantified _ z body, hx, hy => by
    simp only [Pred.binders, List.mem_cons, not_or] at hy
    rw [Pred.rename_quantified, if_neg (Ne.symm hy.1)]
    split
    · rfl
    · next hzx =>
      have hbody : x ∉ body.free := by
        intro hmem
        refine hx ?_
        simp only [Pred.free, List.mem_filter, bne_iff_ne]
        exact ⟨hmem, Ne.symm hzx⟩
      rw [Pred.rename_eq_self hbody hy.2]
  | .formula .., hx, hy => by rw [Pred.rename_formula, Expr.map_rename_eq_self hx hy]

end

end

/-! ## Arrays that are not handed on -/

mutual

/-- No function but `length` is called on the array. A quantifier of the array's name hides its
body. -/
def Expr.OnlyLengthTakes (a : String) : Expr → Prop
  | .const _ | .var _ => True
  | .neg e => e.OnlyLengthTakes a
  | .binary _ x y => x.OnlyLengthTakes a ∧ y.OnlyLengthTakes a
  | .read _ i => i.OnlyLengthTakes a
  | .call f args => (.var a ∈ args → f = "length") ∧ Expr.OnlyLengthTakesIn a args
  | .cond p x y => p.OnlyLengthTakes a ∧ x.OnlyLengthTakes a ∧ y.OnlyLengthTakes a

def Expr.OnlyLengthTakesIn (a : String) : List Expr → Prop
  | [] => True
  | e :: es => e.OnlyLengthTakes a ∧ Expr.OnlyLengthTakesIn a es

def Pred.OnlyLengthTakes (a : String) : Pred → Prop
  | .bool _ => True
  | .compare _ x y => x.OnlyLengthTakes a ∧ y.OnlyLengthTakes a
  | .not p | .paren p => p.OnlyLengthTakes a
  | .and p q | .or p q | .implies p q => p.OnlyLengthTakes a ∧ q.OnlyLengthTakes a
  | .quantified _ z p => z.name ≠ a → p.OnlyLengthTakes a
  | .formula _ args => Expr.OnlyLengthTakesIn a args

end

mutual

/-- No formula and no function but `length` takes the array. -/
def Expr.Withholds (a : String) : Expr → Prop
  | .const _ | .var _ => True
  | .neg e => e.Withholds a
  | .binary _ x y => x.Withholds a ∧ y.Withholds a
  | .read _ i => i.Withholds a
  | .call f args => (.var a ∈ args → f = "length") ∧ Expr.WithholdsIn a args
  | .cond p x y => p.Withholds a ∧ x.Withholds a ∧ y.Withholds a

def Expr.WithholdsIn (a : String) : List Expr → Prop
  | [] => True
  | e :: es => e.Withholds a ∧ Expr.WithholdsIn a es

def Pred.Withholds (a : String) : Pred → Prop
  | .bool _ => True
  | .compare _ x y => x.Withholds a ∧ y.Withholds a
  | .not p | .paren p => p.Withholds a
  | .and p q | .or p q | .implies p q => p.Withholds a ∧ q.Withholds a
  | .quantified _ z p => z.name ≠ a → p.Withholds a
  | .formula _ args => .var a ∉ args ∧ Expr.WithholdsIn a args

end

theorem Expr.anyMentions_of_mem {a : String} {es : List Expr} (h : .var a ∈ es) :
    Expr.anyMentions a es = true := by
  induction es with
  | nil => cases h
  | cons e es ih =>
    rw [Expr.anyMentions, Bool.or_eq_true]
    rcases List.mem_cons.mp h with rfl | h
    · exact .inl (by rw [Expr.mentions, beq_self_eq_true])
    · exact .inr (ih h)

section

variable {a : String}

mutual

/-- The guard of a write to a cell looks for the formulas. -/
theorem Expr.withholds_of_guard : ∀ {e : Expr}, e.formulaTaking? a = none →
    e.OnlyLengthTakes a → e.Withholds a
  | .const _, _, _ | .var _, _, _ => by simp only [Expr.Withholds]
  | .neg e, hf, hl => Expr.withholds_of_guard (e := e) hf hl
  | .binary .., hf, hl => by
    simp only [Expr.formulaTaking?, Option.or_eq_none_iff] at hf
    exact ⟨Expr.withholds_of_guard hf.1 hl.1, Expr.withholds_of_guard hf.2 hl.2⟩
  | .read _ i, hf, hl => Expr.withholds_of_guard (e := i) hf hl
  | .call .., hf, hl => ⟨hl.1, Expr.withholdsIn_of_guard hf hl.2⟩
  | .cond .., hf, hl => by
    simp only [Expr.formulaTaking?, Option.or_eq_none_iff] at hf
    exact ⟨Pred.withholds_of_guard hf.1.1 hl.1, Expr.withholds_of_guard hf.1.2 hl.2.1,
      Expr.withholds_of_guard hf.2 hl.2.2⟩

theorem Expr.withholdsIn_of_guard : ∀ {es : List Expr}, Expr.firstFormulaTaking? a es = none →
    Expr.OnlyLengthTakesIn a es → Expr.WithholdsIn a es
  | [], _, _ => by simp only [Expr.WithholdsIn]
  | _ :: _, hf, hl => by
    simp only [Expr.firstFormulaTaking?, Option.or_eq_none_iff] at hf
    exact ⟨Expr.withholds_of_guard hf.1 hl.1, Expr.withholdsIn_of_guard hf.2 hl.2⟩

theorem Pred.withholds_of_guard : ∀ {p : Pred}, p.formulaTaking? a = none →
    p.OnlyLengthTakes a → p.Withholds a
  | .bool _, _, _ => by simp only [Pred.Withholds]
  | .compare .., hf, hl => by
    simp only [Pred.formulaTaking?, Option.or_eq_none_iff] at hf
    exact ⟨Expr.withholds_of_guard hf.1 hl.1, Expr.withholds_of_guard hf.2 hl.2⟩
  | .not p, hf, hl | .paren p, hf, hl => Pred.withholds_of_guard (p := p) hf hl
  | .and .., hf, hl | .or .., hf, hl | .implies .., hf, hl => by
    simp only [Pred.formulaTaking?, Option.or_eq_none_iff] at hf
    exact ⟨Pred.withholds_of_guard hf.1 hl.1, Pred.withholds_of_guard hf.2 hl.2⟩
  | .quantified .., hf, hl => by
    intro hz
    rw [Pred.formulaTaking?, if_neg hz] at hf
    exact Pred.withholds_of_guard hf (hl hz)
  | .formula .., hf, hl => by
    rw [Pred.formulaTaking?] at hf
    split at hf
    · cases hf
    · next hm => exact ⟨fun h => hm (Expr.anyMentions_of_mem h), Expr.withholdsIn_of_guard hf hl⟩

end

/-- A renaming to another name makes no argument of the array. -/
theorem Expr.var_mem_map_rename {x y : String} (hy : y ≠ a) {es : List Expr}
    (h : .var a ∈ es.map (Expr.rename x y)) : x ≠ a ∧ .var a ∈ es := by
  obtain ⟨e, he, heq⟩ := List.mem_map.mp h
  cases e with
  | var z =>
    rw [Expr.rename_var, Expr.var.injEq] at heq
    split at heq
    · exact absurd heq hy
    · next hz =>
      subst heq
      exact ⟨Ne.symm hz, he⟩
  | const | neg | binary | read | call | cond => simp at heq

mutual

/-- A renaming keeps an array withheld, and hides the array if it is the array's name that is
replaced. -/
theorem Expr.Withholds.rename {e : Expr} {x y : String} (hy : y ≠ a)
    (h : x ≠ a → e.Withholds a) : (e.rename x y).Withholds a := by
  match e, h with
  | .const n, _ => simp only [Expr.rename_const, Expr.Withholds]
  | .var z, _ => simp only [Expr.rename_var, Expr.Withholds]
  | .neg b, h =>
    rw [Expr.rename_neg]
    exact Expr.Withholds.rename (e := b) hy h
  | .binary op b c, h =>
    simp only [Expr.rename_binary, Expr.Withholds] at h ⊢
    exact ⟨Expr.Withholds.rename hy fun hx => (h hx).1, Expr.Withholds.rename hy fun hx => (h hx).2⟩
  | .read b i, h =>
    rw [Expr.rename_read]
    exact Expr.Withholds.rename (e := i) hy h
  | .call f args, h =>
    simp only [Expr.rename_call, Expr.Withholds] at h ⊢
    refine ⟨fun hmem => ?_, Expr.WithholdsIn.rename hy fun hx => (h hx).2⟩
    obtain ⟨hx, hmem⟩ := Expr.var_mem_map_rename hy hmem
    exact (h hx).1 hmem
  | .cond p b c, h =>
    simp only [Expr.rename_cond, Expr.Withholds] at h ⊢
    exact ⟨Pred.Withholds.rename hy fun hx => (h hx).1,
      Expr.Withholds.rename hy fun hx => (h hx).2.1, Expr.Withholds.rename hy fun hx => (h hx).2.2⟩
termination_by 2 * e.size
decreasing_by all_goals simp only [Expr.size]; omega

theorem Expr.WithholdsIn.rename {es : List Expr} {x y : String} (hy : y ≠ a)
    (h : x ≠ a → Expr.WithholdsIn a es) : Expr.WithholdsIn a (es.map (Expr.rename x y)) := by
  match es, h with
  | [], _ => simp only [List.map_nil, Expr.WithholdsIn]
  | e :: es, h =>
    simp only [List.map_cons, Expr.WithholdsIn] at h ⊢
    exact ⟨Expr.Withholds.rename hy fun hx => (h hx).1,
      Expr.WithholdsIn.rename hy fun hx => (h hx).2⟩
termination_by 2 * Expr.sizes es + 1
decreasing_by
  all_goals
    have := e.size_pos
    simp only [Expr.sizes]
    omega

theorem Pred.Withholds.rename {p : Pred} {x y : String} (hy : y ≠ a)
    (h : x ≠ a → p.Withholds a) : (p.rename x y).Withholds a := by
  match p, h with
  | .bool b, _ => simp only [Pred.rename_bool, Pred.Withholds]
  | .compare op b c, h =>
    simp only [Pred.rename_compare, Pred.Withholds] at h ⊢
    exact ⟨Expr.Withholds.rename hy fun hx => (h hx).1, Expr.Withholds.rename hy fun hx => (h hx).2⟩
  | .not p, h =>
    rw [Pred.rename_not]
    exact Pred.Withholds.rename (p := p) hy h
  | .and p q, h =>
    simp only [Pred.rename_and, Pred.Withholds] at h ⊢
    exact ⟨Pred.Withholds.rename hy fun hx => (h hx).1, Pred.Withholds.rename hy fun hx => (h hx).2⟩
  | .or p q, h =>
    simp only [Pred.rename_or, Pred.Withholds] at h ⊢
    exact ⟨Pred.Withholds.rename hy fun hx => (h hx).1, Pred.Withholds.rename hy fun hx => (h hx).2⟩
  | .implies p q, h =>
    simp only [Pred.rename_implies, Pred.Withholds] at h ⊢
    exact ⟨Pred.Withholds.rename hy fun hx => (h hx).1, Pred.Withholds.rename hy fun hx => (h hx).2⟩
  | .paren p, h =>
    rw [Pred.rename_paren]
    exact Pred.Withholds.rename (p := p) hy h
  | .quantified q z body, h =>
    simp only [Pred.Withholds] at h
    rw [Pred.rename_quantified]
    split
    · next hzx =>
      intro hza
      exact h (fun hx => hza (hzx.trans hx)) hza
    · split
      · next hzy =>
        -- here the binder is not the array, and a new name that is the array hides the body
        intro hfresh
        refine Pred.Withholds.rename hy fun hx => Pred.Withholds.rename hfresh fun hz => ?_
        exact h hx hz
      · exact fun hza => Pred.Withholds.rename hy fun hx => h hx hza
  | .formula f args, h =>
    simp only [Pred.rename_formula, Pred.Withholds] at h ⊢
    refine ⟨fun hmem => ?_, Expr.WithholdsIn.rename hy fun hx => (h hx).2⟩
    obtain ⟨hx, hmem⟩ := Expr.var_mem_map_rename hy hmem
    exact (h hx).1 hmem
termination_by 2 * p.size
decreasing_by
  all_goals
    simp only [Pred.size, Pred.size_rename]
    omega

end

end

/-! ## Reads that do not alias -/

mutual

/-- Every read of the array at the cell `n` has the index of the write. The names in `bound` belong
to quantifiers around the expression, and an index with such a name is not that of the write. -/
def Expr.NoAlias {α : Type} (M : Interpretation α) (w : CellUpdate) (n : Int) :
    Expr → List String → Valuation α → Prop
  | .const _, _, _ | .var _, _, _ => True
  | .neg e, bound, ρ => e.NoAlias M w n bound ρ
  | .binary _ a b, bound, ρ => a.NoAlias M w n bound ρ ∧ b.NoAlias M w n bound ρ
  | .read b j, bound, ρ =>
    (b = w.array → (j = w.index ∧ ∀ z ∈ bound, z ∉ w.index.free) ∨ j.value M ρ ≠ n) ∧
      j.NoAlias M w n bound ρ
  | .call _ args, bound, ρ => Expr.NoAliasIn M w n args bound ρ
  | .cond p a b, bound, ρ =>
    p.NoAlias M w n bound ρ ∧ a.NoAlias M w n bound ρ ∧ b.NoAlias M w n bound ρ

def Expr.NoAliasIn {α : Type} (M : Interpretation α) (w : CellUpdate) (n : Int) :
    List Expr → List String → Valuation α → Prop
  | [], _, _ => True
  | e :: es, bound, ρ => e.NoAlias M w n bound ρ ∧ Expr.NoAliasIn M w n es bound ρ

/-- The same for a predicate, whatever the numbers of its quantifiers. -/
def Pred.NoAlias {α : Type} (M : Interpretation α) (w : CellUpdate) (n : Int) :
    Pred → List String → Valuation α → Prop
  | .bool _, _, _ => True
  | .compare _ a b, bound, ρ => a.NoAlias M w n bound ρ ∧ b.NoAlias M w n bound ρ
  | .not p, bound, ρ | .paren p, bound, ρ => p.NoAlias M w n bound ρ
  | .and p q, bound, ρ | .or p q, bound, ρ | .implies p q, bound, ρ =>
    p.NoAlias M w n bound ρ ∧ q.NoAlias M w n bound ρ
  | .quantified _ z p, bound, ρ =>
    ∀ k : Int, p.NoAlias M w n (z.name :: bound) (Function.update ρ z.name (.int k))
  | .formula _ args, bound, ρ => Expr.NoAliasIn M w n args bound ρ

end

section

variable {α : Type} {M : Interpretation α} {w : CellUpdate} {n : Int}

mutual

/-- Only the free names count, in the valuation and around the expression. -/
theorem Expr.NoAlias.congr : ∀ {e : Expr} {bound bound' : List String} {ρ ρ' : Valuation α},
    e.NoAlias M w n bound ρ → (∀ x ∈ e.free, ρ x = ρ' x) →
      (∀ z ∈ bound', z ∈ w.index.free → z ∈ e.free → z ∈ bound) → e.NoAlias M w n bound' ρ'
  | .const _, _, _, _, _, _, _, _ | .var _, _, _, _, _, _, _, _ => by simp only [Expr.NoAlias]
  | .neg e, _, _, _, _, h, hρ, hB => by
    simp only [Expr.NoAlias] at h ⊢
    exact h.congr hρ hB
  | .binary .., _, _, _, _, h, hρ, hB => by
    simp only [Expr.free, List.mem_append] at hρ hB
    simp only [Expr.NoAlias] at h ⊢
    exact ⟨h.1.congr (fun x hx => hρ x (.inl hx)) fun z hz hi hf => hB z hz hi (.inl hf),
      h.2.congr (fun x hx => hρ x (.inr hx)) fun z hz hi hf => hB z hz hi (.inr hf)⟩
  | .read b j, _, _, _, _, h, hρ, hB => by
    simp only [Expr.free, List.mem_cons] at hρ hB
    simp only [Expr.NoAlias] at h ⊢
    refine ⟨fun hb => ?_, h.2.congr (fun x hx => hρ x (.inr hx)) fun z hz hi hf =>
      hB z hz hi (.inr hf)⟩
    rw [← Expr.value_congr M j fun x hx => hρ x (.inr hx)]
    -- an index like that of the write has all its names free, so none of them is newly bound
    refine (h.1 hb).imp_left fun ⟨hj, hbound⟩ => ⟨hj, fun z hz hi => ?_⟩
    exact hbound z (hB z hz hi (.inr (hj ▸ hi))) hi
  | .call .., _, _, _, _, h, hρ, hB => by
    simp only [Expr.NoAlias] at h ⊢
    exact Expr.NoAliasIn.congr h hρ hB
  | .cond .., _, _, _, _, h, hρ, hB => by
    simp only [Expr.free, List.mem_append] at hρ hB
    simp only [Expr.NoAlias] at h ⊢
    exact ⟨h.1.congr (fun x hx => hρ x (.inl (.inl hx))) fun z hz hi hf =>
        hB z hz hi (.inl (.inl hf)),
      h.2.1.congr (fun x hx => hρ x (.inl (.inr hx))) fun z hz hi hf => hB z hz hi (.inl (.inr hf)),
      h.2.2.congr (fun x hx => hρ x (.inr hx)) fun z hz hi hf => hB z hz hi (.inr hf)⟩

theorem Expr.NoAliasIn.congr : ∀ {es : List Expr} {bound bound' : List String}
    {ρ ρ' : Valuation α}, Expr.NoAliasIn M w n es bound ρ → (∀ x ∈ Expr.freeList es, ρ x = ρ' x) →
      (∀ z ∈ bound', z ∈ w.index.free → z ∈ Expr.freeList es → z ∈ bound) →
      Expr.NoAliasIn M w n es bound' ρ'
  | [], _, _, _, _, _, _, _ => by simp only [Expr.NoAliasIn]
  | _ :: _, _, _, _, _, h, hρ, hB => by
    simp only [Expr.freeList, List.mem_append] at hρ hB
    simp only [Expr.NoAliasIn] at h ⊢
    exact ⟨h.1.congr (fun x hx => hρ x (.inl hx)) fun z hz hi hf => hB z hz hi (.inl hf),
      Expr.NoAliasIn.congr h.2 (fun x hx => hρ x (.inr hx)) fun z hz hi hf =>
        hB z hz hi (.inr hf)⟩

theorem Pred.NoAlias.congr : ∀ {p : Pred} {bound bound' : List String} {ρ ρ' : Valuation α},
    p.NoAlias M w n bound ρ → (∀ x ∈ p.free, ρ x = ρ' x) →
      (∀ z ∈ bound', z ∈ w.index.free → z ∈ p.free → z ∈ bound) → p.NoAlias M w n bound' ρ'
  | .bool _, _, _, _, _, _, _, _ => by simp only [Pred.NoAlias]
  | .compare .., _, _, _, _, h, hρ, hB => by
    simp only [Pred.free, List.mem_append] at hρ hB
    simp only [Pred.NoAlias] at h ⊢
    exact ⟨h.1.congr (fun x hx => hρ x (.inl hx)) fun z hz hi hf => hB z hz hi (.inl hf),
      h.2.congr (fun x hx => hρ x (.inr hx)) fun z hz hi hf => hB z hz hi (.inr hf)⟩
  | .not _, _, _, _, _, h, hρ, hB | .paren _, _, _, _, _, h, hρ, hB => by
    simp only [Pred.NoAlias] at h ⊢
    exact h.congr hρ hB
  | .and .., _, _, _, _, h, hρ, hB | .or .., _, _, _, _, h, hρ, hB
  | .implies .., _, _, _, _, h, hρ, hB => by
    simp only [Pred.free, List.mem_append] at hρ hB
    simp only [Pred.NoAlias] at h ⊢
    exact ⟨h.1.congr (fun x hx => hρ x (.inl hx)) fun z hz hi hf => hB z hz hi (.inl hf),
      h.2.congr (fun x hx => hρ x (.inr hx)) fun z hz hi hf => hB z hz hi (.inr hf)⟩
  | .quantified _ v _, _, _, _, _, h, hρ, hB => by
    simp only [Pred.free, List.mem_filter, bne_iff_ne] at hρ hB
    simp only [Pred.NoAlias] at h ⊢
    intro k
    refine (h k).congr (fun x hx => ?_) fun z hz hi hf => ?_
    · by_cases hxv : x = v.name
      · rw [hxv, Function.update_self, Function.update_self]
      · rw [Function.update_of_ne hxv, Function.update_of_ne hxv, hρ x ⟨hx, hxv⟩]
    · by_cases hzv : z = v.name
      · exact List.mem_cons.mpr (.inl hzv)
      · exact List.mem_cons_of_mem _
          (hB z ((List.mem_cons.mp hz).resolve_left hzv) hi ⟨hf, hzv⟩)
  | .formula .., _, _, _, _, h, hρ, hB => by
    simp only [Pred.NoAlias] at h ⊢
    exact Expr.NoAliasIn.congr h hρ hB

end

mutual

/-- Renaming a bound variable creates no alias, because it leaves the index of the write alone. -/
theorem Expr.NoAlias.rename {e : Expr} {x y : String} {bound bound' : List String}
    {ρ : Valuation α} (hn : w.index.Unnumbered) (hy : y ∉ w.index.binders) (hr : e.ReadsApart [x])
    (hx : x ∈ bound)
    (hB : ∀ z ∈ bound', z ∈ w.index.free → z ∈ e.free → z ∈ bound)
    (h : e.NoAlias M w n bound (Function.update ρ x (ρ y))) :
    (e.rename x y).NoAlias M w n bound' ρ := by
  match e, hr, hB, h with
  | .const c, _, _, _ => simp only [Expr.rename_const, Expr.NoAlias]
  | .var z, _, _, _ => simp only [Expr.rename_var, Expr.NoAlias]
  | .neg a, hr, hB, h =>
    simp only [Expr.rename_neg, Expr.NoAlias, Expr.ReadsApart] at hr h ⊢
    exact Expr.NoAlias.rename hn hy hr hx hB h
  | .binary op a b, hr, hB, h =>
    simp only [Expr.free, List.mem_append] at hB
    simp only [Expr.rename_binary, Expr.NoAlias, Expr.ReadsApart] at hr h ⊢
    exact ⟨Expr.NoAlias.rename hn hy hr.1 hx (fun z hz hi hf => hB z hz hi (.inl hf)) h.1,
      Expr.NoAlias.rename hn hy hr.2 hx (fun z hz hi hf => hB z hz hi (.inr hf)) h.2⟩
  | .read b j, hr, hB, h =>
    simp only [Expr.free, List.mem_cons] at hB
    simp only [Expr.rename_read, Expr.NoAlias, Expr.ReadsApart] at hr h ⊢
    refine ⟨fun hba => ?_,
      Expr.NoAlias.rename hn hy hr.2 hx (fun z hz hi hf => hB z hz hi (.inr hf)) h.2⟩
    rw [Expr.value_rename M y hr.2]
    refine (h.1 hba).imp_left fun ⟨hj, hbound⟩ => ⟨?_, fun z hz hi => ?_⟩
    · -- the renamed variable is bound around, so the index of the write does not have it
      rw [hj, Expr.rename_eq_self (hbound x hx) hy]
    · exact hbound z (hB z hz hi (.inr (hj ▸ hi))) hi
  | .call f args, hr, hB, h =>
    simp only [Expr.rename_call, Expr.NoAlias, Expr.ReadsApart] at hr h ⊢
    exact Expr.NoAliasIn.rename hn hy hr hx hB h
  | .cond p a b, hr, hB, h =>
    simp only [Expr.free, List.mem_append] at hB
    simp only [Expr.rename_cond, Expr.NoAlias, Expr.ReadsApart] at hr h ⊢
    exact ⟨Pred.NoAlias.rename hn hy hr.1 hx (fun z hz hi hf => hB z hz hi (.inl (.inl hf))) h.1,
      Expr.NoAlias.rename hn hy hr.2.1 hx (fun z hz hi hf => hB z hz hi (.inl (.inr hf))) h.2.1,
      Expr.NoAlias.rename hn hy hr.2.2 hx (fun z hz hi hf => hB z hz hi (.inr hf)) h.2.2⟩
termination_by 2 * e.size
decreasing_by all_goals simp only [Expr.size]; omega

theorem Expr.NoAliasIn.rename {es : List Expr} {x y : String} {bound bound' : List String}
    {ρ : Valuation α} (hn : w.index.Unnumbered) (hy : y ∉ w.index.binders)
    (hr : Expr.ReadsApartIn es [x]) (hx : x ∈ bound)
    (hB : ∀ z ∈ bound', z ∈ w.index.free → z ∈ Expr.freeList es → z ∈ bound)
    (h : Expr.NoAliasIn M w n es bound (Function.update ρ x (ρ y))) :
    Expr.NoAliasIn M w n (es.map (Expr.rename x y)) bound' ρ := by
  match es, hr, hB, h with
  | [], _, _, _ => simp only [List.map_nil, Expr.NoAliasIn]
  | e :: es, hr, hB, h =>
    simp only [Expr.freeList, List.mem_append] at hB
    simp only [List.map_cons, Expr.NoAliasIn, Expr.ReadsApartIn] at hr h ⊢
    exact ⟨Expr.NoAlias.rename hn hy hr.1 hx (fun z hz hi hf => hB z hz hi (.inl hf)) h.1,
      Expr.NoAliasIn.rename hn hy hr.2 hx (fun z hz hi hf => hB z hz hi (.inr hf)) h.2⟩
termination_by 2 * Expr.sizes es + 1
decreasing_by
  all_goals
    have := e.size_pos
    simp only [Expr.sizes]
    omega

theorem Pred.NoAlias.rename {p : Pred} {x y : String} {bound bound' : List String}
    {ρ : Valuation α} (hn : w.index.Unnumbered) (hy : y ∉ w.index.binders) (hr : p.ReadsApart [x])
    (hx : x ∈ bound)
    (hB : ∀ z ∈ bound', z ∈ w.index.free → z ∈ p.free → z ∈ bound)
    (h : p.NoAlias M w n bound (Function.update ρ x (ρ y))) :
    (p.rename x y).NoAlias M w n bound' ρ := by
  match p, hr, hB, h with
  | .bool b, _, _, _ => simp only [Pred.rename_bool, Pred.NoAlias]
  | .compare op a b, hr, hB, h =>
    simp only [Pred.free, List.mem_append] at hB
    simp only [Pred.rename_compare, Pred.NoAlias, Pred.ReadsApart] at hr h ⊢
    exact ⟨Expr.NoAlias.rename hn hy hr.1 hx (fun z hz hi hf => hB z hz hi (.inl hf)) h.1,
      Expr.NoAlias.rename hn hy hr.2 hx (fun z hz hi hf => hB z hz hi (.inr hf)) h.2⟩
  | .not p, hr, hB, h =>
    simp only [Pred.rename_not, Pred.NoAlias, Pred.ReadsApart] at hr h ⊢
    exact Pred.NoAlias.rename hn hy hr hx hB h
  | .and p q, hr, hB, h =>
    simp only [Pred.free, List.mem_append] at hB
    simp only [Pred.rename_and, Pred.NoAlias, Pred.ReadsApart] at hr h ⊢
    exact ⟨Pred.NoAlias.rename hn hy hr.1 hx (fun z hz hi hf => hB z hz hi (.inl hf)) h.1,
      Pred.NoAlias.rename hn hy hr.2 hx (fun z hz hi hf => hB z hz hi (.inr hf)) h.2⟩
  | .or p q, hr, hB, h =>
    simp only [Pred.free, List.mem_append] at hB
    simp only [Pred.rename_or, Pred.NoAlias, Pred.ReadsApart] at hr h ⊢
    exact ⟨Pred.NoAlias.rename hn hy hr.1 hx (fun z hz hi hf => hB z hz hi (.inl hf)) h.1,
      Pred.NoAlias.rename hn hy hr.2 hx (fun z hz hi hf => hB z hz hi (.inr hf)) h.2⟩
  | .implies p q, hr, hB, h =>
    simp only [Pred.free, List.mem_append] at hB
    simp only [Pred.rename_implies, Pred.NoAlias, Pred.ReadsApart] at hr h ⊢
    exact ⟨Pred.NoAlias.rename hn hy hr.1 hx (fun z hz hi hf => hB z hz hi (.inl hf)) h.1,
      Pred.NoAlias.rename hn hy hr.2 hx (fun z hz hi hf => hB z hz hi (.inr hf)) h.2⟩
  | .paren p, hr, hB, h =>
    simp only [Pred.rename_paren, Pred.NoAlias, Pred.ReadsApart] at hr h ⊢
    exact Pred.NoAlias.rename hn hy hr hx hB h
  | .quantified q v body, hr, hB, h =>
    simp only [Pred.NoAlias, Pred.ReadsApart] at hr h
    simp only [Pred.free, List.mem_filter, bne_iff_ne] at hB
    have hrx : body.ReadsApart [x] := hr.mono (List.subset_cons_self ..)
    -- the names around the body, for a binder that keeps its name
    have hkept : ∀ z ∈ v.name :: bound', z ∈ w.index.free → z ∈ body.free →
        z ∈ v.name :: bound := by
      intro z hz hi hf
      by_cases hzv : z = v.name
      · exact List.mem_cons.mpr (.inl hzv)
      · exact List.mem_cons_of_mem _
          (hB z ((List.mem_cons.mp hz).resolve_left hzv) hi ⟨hf, hzv⟩)
    rw [Pred.rename_quantified]
    split
    · next hvx =>
      intro k
      refine (h k).congr (fun _ _ => ?_) hkept
      rw [hvx, Function.update_idem]
    · next hvx =>
      split
      · next hvy =>
        obtain ⟨hfx, hfy, hfv, hff⟩ := renamedBinder_spec x y v.name body
        have hfb : renamedBinder x y v.name body ∉ w.index.binders := hn.freshName_not_mem _ _
        generalize renamedBinder x y v.name body = f at hfx hfy hfv hff hfb ⊢
        have hrv : body.ReadsApart [v.name] := hr.mono (List.cons_subset_cons _ (List.nil_subset _))
        intro k
        -- first the binder gets its new name, then `x` is renamed under it; the new name can be
        -- one of the index, but then no read in the body has that index, where it is not free
        refine Pred.NoAlias.rename hn hy (hrx.rename ..) (List.mem_cons_of_mem f hx)
          (fun z hz hi hf => ?_) (Pred.NoAlias.rename hn hfb hrv (List.mem_cons_self (l := bound))
            (fun z hz _ hf => ?_) ?_)
        · rcases Pred.mem_free_rename hrv hf with ⟨hf, hzv⟩ | hzf
          · rcases List.mem_cons.mp hz with (hzf : z = f) | hz
            · exact absurd (hzf ▸ hf) hff
            · exact List.mem_cons_of_mem _ (hB z hz hi ⟨hf, hzv⟩)
          · exact List.mem_cons.mpr (.inl hzf)
        · rcases List.mem_cons.mp hz with hzf | hz
          · exact absurd (hzf ▸ hf) hff
          · exact List.mem_cons_of_mem _ hz
        · refine (h k).congr (fun z hz => ?_) fun _ hz _ _ => hz
          have hzf : z ≠ f := fun hzf => hff (hzf ▸ hz)
          dsimp only
          rw [Function.update_of_ne (Ne.symm hfy), Function.update_of_ne hfx, Function.update_self]
          by_cases hzv : z = v.name
          · rw [hzv, Function.update_self, Function.update_self]
          · rw [Function.update_of_ne hzv, Function.update_of_ne hzv]
            by_cases hzx : z = x
            · rw [hzx, Function.update_self, Function.update_self]
            · rw [Function.update_of_ne hzx, Function.update_of_ne hzx, Function.update_of_ne hzf]
      · next hvy =>
        intro k
        refine Pred.NoAlias.rename hn hy hrx (List.mem_cons_of_mem _ hx) hkept ?_
        rw [Function.update_of_ne (Ne.symm hvy), Function.update_comm hvx]
        exact h k
  | .formula f args, hr, hB, h =>
    simp only [Pred.rename_formula, Pred.NoAlias, Pred.ReadsApart] at hr h ⊢
    exact Expr.NoAliasIn.rename hn hy hr hx hB h
termination_by 2 * p.size
decreasing_by
  all_goals
    simp only [Pred.size, Pred.size_rename]
    omega

end

/-- The body of a quantifier, where its binder has a new name. -/
theorem Pred.NoAlias.rename_binder {body : Pred} {x fresh : String} {bound : List String}
    {ρ : Valuation α} {d : Datum α}
    (h : body.NoAlias M w n (x :: bound) (Function.update ρ x d)) (hn : w.index.Unnumbered)
    (hy : fresh ∉ w.index.binders) (hr : body.ReadsApart [x]) (hfree : fresh ∉ body.free) :
    (body.rename x fresh).NoAlias M w n (fresh :: bound) (Function.update ρ fresh d) := by
  refine Pred.NoAlias.rename hn hy hr (List.mem_cons_self (l := bound)) (fun z hz _ hf => ?_) ?_
  · rcases List.mem_cons.mp hz with rfl | hz
    · exact absurd hf hfree
    · exact List.mem_cons_of_mem _ hz
  · rw [Function.update_self]
    refine h.congr (fun z hz => ?_) fun _ hz _ _ => hz
    by_cases hzx : z = x
    · rw [hzx, Function.update_self, Function.update_self]
    · rw [Function.update_of_ne hzx, Function.update_of_ne hzx, Function.update_of_ne]
      rintro rfl
      exact hfree hz

end

end Contracts

import Contracts.Proofs.Meaning
import Contracts.Proofs.NewNames
import Contracts.Substitution

/-!
# Renaming

Renaming the variable `x` to `y` reads `x` as whatever `y` stands for and leaves no free `x` behind,
as long as no array is read under the name `x` (`Pred.ReadsApart`). It keeps kinds.

The three facts about renaming follow its recursion. Where a binder is in the way the body is
renamed twice, so the inductions are on the size and not on the predicate.
-/

set_option autoImplicit false

namespace Contracts

/-! ## Renaming, case by case -/

section

variable (x y : String)

@[simp] theorem Expr.rename_const (n : Int64) : (Expr.const n).rename x y = .const n := by
  rw [Expr.rename, Expr.renameSized]

@[simp] theorem Expr.rename_var (z : String) :
    (Expr.var z).rename x y = .var (if z = x then y else z) := by
  rw [Expr.rename, Expr.renameSized]

@[simp] theorem Expr.rename_neg (e : Expr) : (Expr.neg e).rename x y = .neg (e.rename x y) := by
  rw [Expr.rename, Expr.renameSized]
  rfl

@[simp] theorem Expr.rename_binary (op : ArithOp) (a b : Expr) :
    (Expr.binary op a b).rename x y = .binary op (a.rename x y) (b.rename x y) := by
  rw [Expr.rename, Expr.renameSized]
  rfl

@[simp] theorem Expr.rename_read (a : String) (i : Expr) :
    (Expr.read a i).rename x y = .read a (i.rename x y) := by
  rw [Expr.rename, Expr.renameSized]
  rfl

theorem Expr.renameListSized_eq_map (es : List Expr) :
    (Expr.renameListSized x y es).1 = es.map (Expr.rename x y) := by
  induction es with
  | nil => rw [Expr.renameListSized, List.map_nil]
  | cons e es ih =>
    rw [Expr.renameListSized, List.map_cons, ← ih]
    rfl

@[simp] theorem Expr.rename_call (f : String) (args : List Expr) :
    (Expr.call f args).rename x y = .call f (args.map (Expr.rename x y)) := by
  rw [Expr.rename, Expr.renameSized, ← Expr.renameListSized_eq_map]

@[simp] theorem Expr.rename_cond (p : Pred) (a b : Expr) :
    (Expr.cond p a b).rename x y = .cond (p.rename x y) (a.rename x y) (b.rename x y) := by
  rw [Expr.rename, Expr.renameSized]
  rfl

@[simp] theorem Pred.rename_bool (b : Bool) : (Pred.bool b).rename x y = .bool b := by
  rw [Pred.rename, Pred.renameSized]

@[simp] theorem Pred.rename_compare (op : CmpOp) (a b : Expr) :
    (Pred.compare op a b).rename x y = .compare op (a.rename x y) (b.rename x y) := by
  rw [Pred.rename, Pred.renameSized]
  rfl

@[simp] theorem Pred.rename_not (p : Pred) : (Pred.not p).rename x y = .not (p.rename x y) := by
  rw [Pred.rename, Pred.renameSized]
  rfl

@[simp] theorem Pred.rename_and (p q : Pred) :
    (Pred.and p q).rename x y = .and (p.rename x y) (q.rename x y) := by
  rw [Pred.rename, Pred.renameSized]
  rfl

@[simp] theorem Pred.rename_or (p q : Pred) :
    (Pred.or p q).rename x y = .or (p.rename x y) (q.rename x y) := by
  rw [Pred.rename, Pred.renameSized]
  rfl

@[simp] theorem Pred.rename_implies (p q : Pred) :
    (Pred.implies p q).rename x y = .implies (p.rename x y) (q.rename x y) := by
  rw [Pred.rename, Pred.renameSized]
  rfl

@[simp] theorem Pred.rename_paren (p : Pred) :
    (Pred.paren p).rename x y = .paren (p.rename x y) := by
  rw [Pred.rename, Pred.renameSized]
  rfl

@[simp] theorem Pred.rename_formula (f : String) (args : List Expr) :
    (Pred.formula f args).rename x y = .formula f (args.map (Expr.rename x y)) := by
  rw [Pred.rename, Pred.renameSized, ← Expr.renameListSized_eq_map]

/-- The name that a binder gets where it would capture `y`. -/
def renamedBinder (z : String) (body : Pred) : String :=
  freshName z (y :: x :: body.free ++ [z])

theorem Pred.rename_quantified (q : Quantifier) (z : Param) (body : Pred) :
    (Pred.quantified q z body).rename x y =
      if z.name = x then .quantified q z body
      else if z.name = y then
        .quantified q { z with name := renamedBinder x y z.name body }
          ((body.rename z.name (renamedBinder x y z.name body)).rename x y)
      else .quantified q z (body.rename x y) := by
  rw [Pred.rename, Pred.renameSized]
  split
  · rfl
  · split <;> rfl

end

/-- The new name of a binder is none of the names around it. -/
theorem renamedBinder_spec (x y z : String) (body : Pred) :
    renamedBinder x y z body ≠ x ∧ renamedBinder x y z body ≠ y ∧
      renamedBinder x y z body ≠ z ∧ renamedBinder x y z body ∉ body.free := by
  have h := freshName_not_mem z (y :: x :: body.free ++ [z])
  simp only [List.cons_append, List.mem_cons, List.mem_append, not_or, List.not_mem_nil,
    not_false_eq_true, and_true] at h
  exact ⟨h.2.1, h.1, h.2.2.2, h.2.2.1⟩

/-! ## Arrays that are read

Only variables are renamed and replaced, never the arrays of reads. What a renaming or a
substitution means is therefore clear as long as its names, and the binders around a read, are not
the name of the array. -/

mutual

/-- No array is read under one of the names, nor under the name of a quantifier around the read. -/
def Expr.ReadsApart : Expr → List String → Prop
  | .const _, _ | .var _, _ => True
  | .neg e, xs => e.ReadsApart xs
  | .binary _ a b, xs => a.ReadsApart xs ∧ b.ReadsApart xs
  | .read a i, xs => a ∉ xs ∧ i.ReadsApart xs
  | .call _ args, xs => Expr.ReadsApartIn args xs
  | .cond p a b, xs => p.ReadsApart xs ∧ a.ReadsApart xs ∧ b.ReadsApart xs

/-- The same for arguments. -/
def Expr.ReadsApartIn : List Expr → List String → Prop
  | [], _ => True
  | e :: es, xs => e.ReadsApart xs ∧ Expr.ReadsApartIn es xs

def Pred.ReadsApart : Pred → List String → Prop
  | .bool _, _ => True
  | .compare _ a b, xs => a.ReadsApart xs ∧ b.ReadsApart xs
  | .not p, xs | .paren p, xs => p.ReadsApart xs
  | .and p q, xs | .or p q, xs | .implies p q, xs => p.ReadsApart xs ∧ q.ReadsApart xs
  | .quantified _ z p, xs => p.ReadsApart (z.name :: xs)
  | .formula _ args, xs => Expr.ReadsApartIn args xs

end

mutual

/-- Of the names only those that are free count. -/
theorem Expr.ReadsApart.congr : ∀ {e : Expr} {xs ys : List String},
    e.ReadsApart xs → (∀ x ∈ ys, x ∈ e.free → x ∈ xs) → e.ReadsApart ys
  | .const _, _, _, _, _ | .var _, _, _, _, _ => by simp only [Expr.ReadsApart]
  | .neg _, _, _, hr, h => by
    simp only [Expr.ReadsApart] at hr ⊢
    exact hr.congr h
  | .binary .., _, _, hr, h => by
    simp only [Expr.free, List.mem_append] at h
    simp only [Expr.ReadsApart] at hr ⊢
    exact ⟨hr.1.congr fun x hx hf => h x hx (.inl hf), hr.2.congr fun x hx hf => h x hx (.inr hf)⟩
  | .read a _, _, _, hr, h => by
    simp only [Expr.free, List.mem_cons] at h
    simp only [Expr.ReadsApart] at hr ⊢
    exact ⟨fun ha => hr.1 (h a ha (.inl rfl)), hr.2.congr fun x hx hf => h x hx (.inr hf)⟩
  | .call .., _, _, hr, h => by
    simp only [Expr.ReadsApart] at hr ⊢
    exact Expr.ReadsApartIn.congr hr h
  | .cond .., _, _, hr, h => by
    simp only [Expr.free, List.mem_append] at h
    simp only [Expr.ReadsApart] at hr ⊢
    exact ⟨hr.1.congr fun x hx hf => h x hx (.inl (.inl hf)),
      hr.2.1.congr fun x hx hf => h x hx (.inl (.inr hf)),
      hr.2.2.congr fun x hx hf => h x hx (.inr hf)⟩

theorem Expr.ReadsApartIn.congr : ∀ {es : List Expr} {xs ys : List String},
    Expr.ReadsApartIn es xs → (∀ x ∈ ys, x ∈ Expr.freeList es → x ∈ xs) → Expr.ReadsApartIn es ys
  | [], _, _, _, _ => by simp only [Expr.ReadsApartIn]
  | _ :: _, _, _, hr, h => by
    simp only [Expr.freeList, List.mem_append] at h
    simp only [Expr.ReadsApartIn] at hr ⊢
    exact ⟨hr.1.congr fun x hx hf => h x hx (.inl hf),
      Expr.ReadsApartIn.congr hr.2 fun x hx hf => h x hx (.inr hf)⟩

theorem Pred.ReadsApart.congr : ∀ {p : Pred} {xs ys : List String},
    p.ReadsApart xs → (∀ x ∈ ys, x ∈ p.free → x ∈ xs) → p.ReadsApart ys
  | .bool _, _, _, _, _ => by simp only [Pred.ReadsApart]
  | .compare .., _, _, hr, h => by
    simp only [Pred.free, List.mem_append] at h
    simp only [Pred.ReadsApart] at hr ⊢
    exact ⟨hr.1.congr fun x hx hf => h x hx (.inl hf), hr.2.congr fun x hx hf => h x hx (.inr hf)⟩
  | .not _, _, _, hr, h | .paren _, _, _, hr, h => by
    simp only [Pred.ReadsApart] at hr ⊢
    exact hr.congr h
  | .and .., _, _, hr, h | .or .., _, _, hr, h | .implies .., _, _, hr, h => by
    simp only [Pred.free, List.mem_append] at h
    simp only [Pred.ReadsApart] at hr ⊢
    exact ⟨hr.1.congr fun x hx hf => h x hx (.inl hf), hr.2.congr fun x hx hf => h x hx (.inr hf)⟩
  | .quantified _ z _, _, _, hr, h => by
    simp only [Pred.ReadsApart] at hr ⊢
    refine hr.congr fun x hx hf => ?_
    rcases List.mem_cons.mp hx with hxz | hx
    · exact List.mem_cons.mpr (.inl hxz)
    · by_cases hxz : x = z.name
      · exact List.mem_cons.mpr (.inl hxz)
      · refine List.mem_cons_of_mem _ (h x hx ?_)
        simp only [Pred.free, List.mem_filter, bne_iff_ne]
        exact ⟨hf, hxz⟩
  | .formula .., _, _, hr, h => by
    simp only [Pred.ReadsApart] at hr ⊢
    exact Expr.ReadsApartIn.congr hr h

end

theorem Pred.ReadsApart.mono {p : Pred} {xs ys : List String} (hr : p.ReadsApart xs)
    (h : ys ⊆ xs) : p.ReadsApart ys := hr.congr fun _ hx _ => h hx

mutual

/-- An array that is read has another kind than a number. -/
theorem Expr.Kinded.readsApart : ∀ {e : Expr} {K : Kinds} {xs : List String},
    e.Kinded K → (∀ x ∈ xs, K x = .int) → e.ReadsApart xs
  | .const _, _, _, _, _ | .var _, _, _, _, _ => by simp only [Expr.ReadsApart]
  | .neg _, _, _, hk, h => by
    simp only [Expr.Kinded, Expr.ReadsApart] at hk ⊢
    exact hk.readsApart h
  | .binary .., _, _, hk, h => by
    simp only [Expr.Kinded, Expr.ReadsApart] at hk ⊢
    exact ⟨hk.1.readsApart h, hk.2.readsApart h⟩
  | .read a _, _, _, hk, h => by
    simp only [Expr.Kinded, Expr.ReadsApart] at hk ⊢
    refine ⟨fun ha => ?_, hk.2.readsApart h⟩
    have hint := h a ha
    rw [hk.1] at hint
    cases hint
  | .call .., _, _, hk, h => by
    simp only [Expr.Kinded, Expr.ReadsApart] at hk ⊢
    exact Expr.KindedArgs.readsApart hk h
  | .cond .., _, _, hk, h => by
    simp only [Expr.Kinded, Expr.ReadsApart] at hk ⊢
    exact ⟨hk.1.readsApart h, hk.2.1.readsApart h, hk.2.2.readsApart h⟩

theorem Expr.KindedArgs.readsApart : ∀ {es : List Expr} {K : Kinds} {xs : List String},
    Expr.KindedArgs es K → (∀ x ∈ xs, K x = .int) → Expr.ReadsApartIn es xs
  | [], _, _, _, _ => by simp only [Expr.ReadsApartIn]
  | _ :: _, _, _, hk, h => by
    simp only [Expr.KindedArgs, Expr.ReadsApartIn] at hk ⊢
    refine ⟨?_, Expr.KindedArgs.readsApart hk.2 h⟩
    rcases hk.1 with ⟨x, rfl⟩ | hk
    · simp only [Expr.ReadsApart]
    · exact hk.readsApart h

theorem Pred.Kinded.readsApart : ∀ {p : Pred} {K : Kinds} {xs : List String},
    p.Kinded K → (∀ x ∈ xs, K x = .int) → p.ReadsApart xs
  | .bool _, _, _, _, _ => by simp only [Pred.ReadsApart]
  | .compare .., _, _, hk, h => by
    simp only [Pred.Kinded, Pred.ReadsApart] at hk ⊢
    exact ⟨hk.1.readsApart h, hk.2.readsApart h⟩
  | .not _, _, _, hk, h | .paren _, _, _, hk, h => by
    simp only [Pred.Kinded, Pred.ReadsApart] at hk ⊢
    exact hk.readsApart h
  | .and .., _, _, hk, h | .or .., _, _, hk, h | .implies .., _, _, hk, h => by
    simp only [Pred.Kinded, Pred.ReadsApart] at hk ⊢
    exact ⟨hk.1.readsApart h, hk.2.readsApart h⟩
  | .quantified _ z _, K, _, hk, h => by
    simp only [Pred.Kinded, Pred.ReadsApart] at hk ⊢
    refine hk.readsApart fun x hx => ?_
    by_cases hxz : x = z.name
    · rw [hxz, Function.update_self]
    · rw [Function.update_of_ne hxz]
      exact h x ((List.mem_cons.mp hx).resolve_left hxz)
  | .formula .., _, _, hk, h => by
    simp only [Pred.Kinded, Pred.ReadsApart] at hk ⊢
    exact Expr.KindedArgs.readsApart hk h

end

theorem Pred.Kinded.readsApart_singleton {p : Pred} {K : Kinds} {x : String} (hk : p.Kinded K)
    (hx : K x = .int) : p.ReadsApart [x] :=
  hk.readsApart fun y hy => by rw [List.mem_singleton.mp hy, hx]

mutual

/-- A renaming changes binders but no array that is read. -/
theorem Expr.ReadsApart.rename {e : Expr} {xs : List String} (hr : e.ReadsApart xs)
    (x y : String) : (e.rename x y).ReadsApart xs := by
  match e, hr with
  | .const n, _ => simp only [Expr.rename_const, Expr.ReadsApart]
  | .var z, _ => simp only [Expr.rename_var, Expr.ReadsApart]
  | .neg a, hr =>
    simp only [Expr.rename_neg, Expr.ReadsApart] at hr ⊢
    exact hr.rename x y
  | .binary op a b, hr =>
    simp only [Expr.rename_binary, Expr.ReadsApart] at hr ⊢
    exact ⟨hr.1.rename x y, hr.2.rename x y⟩
  | .read a i, hr =>
    simp only [Expr.rename_read, Expr.ReadsApart] at hr ⊢
    exact ⟨hr.1, hr.2.rename x y⟩
  | .call f args, hr =>
    simp only [Expr.rename_call, Expr.ReadsApart] at hr ⊢
    exact Expr.ReadsApartIn.rename hr x y
  | .cond p a b, hr =>
    simp only [Expr.rename_cond, Expr.ReadsApart] at hr ⊢
    exact ⟨hr.1.rename x y, hr.2.1.rename x y, hr.2.2.rename x y⟩
termination_by 2 * e.size
decreasing_by all_goals simp only [Expr.size]; omega

theorem Expr.ReadsApartIn.rename {es : List Expr} {xs : List String}
    (hr : Expr.ReadsApartIn es xs) (x y : String) :
    Expr.ReadsApartIn (es.map (Expr.rename x y)) xs := by
  match es, hr with
  | [], _ => simp only [List.map_nil, Expr.ReadsApartIn]
  | e :: es, hr =>
    simp only [List.map_cons, Expr.ReadsApartIn] at hr ⊢
    exact ⟨hr.1.rename x y, Expr.ReadsApartIn.rename hr.2 x y⟩
termination_by 2 * Expr.sizes es + 1
decreasing_by
  all_goals
    have := e.size_pos
    simp only [Expr.sizes]
    omega

theorem Pred.ReadsApart.rename {p : Pred} {xs : List String} (hr : p.ReadsApart xs)
    (x y : String) : (p.rename x y).ReadsApart xs := by
  match p, hr with
  | .bool b, _ => simp only [Pred.rename_bool, Pred.ReadsApart]
  | .compare op a b, hr =>
    simp only [Pred.rename_compare, Pred.ReadsApart] at hr ⊢
    exact ⟨hr.1.rename x y, hr.2.rename x y⟩
  | .not p, hr =>
    simp only [Pred.rename_not, Pred.ReadsApart] at hr ⊢
    exact hr.rename x y
  | .and p q, hr =>
    simp only [Pred.rename_and, Pred.ReadsApart] at hr ⊢
    exact ⟨hr.1.rename x y, hr.2.rename x y⟩
  | .or p q, hr =>
    simp only [Pred.rename_or, Pred.ReadsApart] at hr ⊢
    exact ⟨hr.1.rename x y, hr.2.rename x y⟩
  | .implies p q, hr =>
    simp only [Pred.rename_implies, Pred.ReadsApart] at hr ⊢
    exact ⟨hr.1.rename x y, hr.2.rename x y⟩
  | .paren p, hr =>
    simp only [Pred.rename_paren, Pred.ReadsApart] at hr ⊢
    exact hr.rename x y
  | .quantified q z body, hr =>
    rw [Pred.rename_quantified]
    split
    · exact hr
    · split
      · -- the new name of the binder is not free in the body, so no array is read under it
        obtain ⟨-, -, -, hff⟩ := renamedBinder_spec x y z.name body
        simp only [Pred.ReadsApart] at hr ⊢
        have hbody : body.ReadsApart (renamedBinder x y z.name body :: xs) := by
          refine hr.congr fun w hw hf => ?_
          rcases List.mem_cons.mp hw with rfl | hw
          · exact absurd hf hff
          · exact List.mem_cons_of_mem _ hw
        exact (hbody.rename z.name (renamedBinder x y z.name body)).rename x y
      · simp only [Pred.ReadsApart] at hr ⊢
        exact hr.rename x y
  | .formula f args, hr =>
    simp only [Pred.rename_formula, Pred.ReadsApart] at hr ⊢
    exact Expr.ReadsApartIn.rename hr x y
termination_by 2 * p.size
decreasing_by
  all_goals
    simp only [Pred.size, Pred.size_rename]
    omega

end

/-! ## Renaming keeps kinds -/

mutual

theorem Expr.Kinded.rename {e : Expr} {K : Kinds} {x y : String} (hk : e.Kinded K)
    (hx : K x = .int) (hy : K y = .int) : (e.rename x y).Kinded K := by
  match e, hk with
  | .const n, _ => simp only [Expr.rename_const, Expr.Kinded]
  | .var z, hk =>
    simp only [Expr.rename_var, Expr.Kinded] at hk ⊢
    split
    · exact hy
    · exact hk
  | .neg a, hk =>
    simp only [Expr.rename_neg, Expr.Kinded] at hk ⊢
    exact hk.rename hx hy
  | .binary op a b, hk =>
    simp only [Expr.rename_binary, Expr.Kinded] at hk ⊢
    exact ⟨hk.1.rename hx hy, hk.2.rename hx hy⟩
  | .read a i, hk =>
    simp only [Expr.rename_read, Expr.Kinded] at hk ⊢
    exact ⟨hk.1, hk.2.rename hx hy⟩
  | .call f args, hk =>
    simp only [Expr.rename_call, Expr.Kinded] at hk ⊢
    exact Expr.KindedArgs.rename hk hx hy
  | .cond p a b, hk =>
    simp only [Expr.rename_cond, Expr.Kinded] at hk ⊢
    exact ⟨hk.1.rename hx hy, hk.2.1.rename hx hy, hk.2.2.rename hx hy⟩
termination_by 2 * e.size
decreasing_by all_goals simp only [Expr.size]; omega

theorem Expr.KindedArgs.rename {es : List Expr} {K : Kinds} {x y : String}
    (hk : Expr.KindedArgs es K) (hx : K x = .int) (hy : K y = .int) :
    Expr.KindedArgs (es.map (Expr.rename x y)) K := by
  match es, hk with
  | [], _ => simp only [List.map_nil, Expr.KindedArgs]
  | e :: es, hk =>
    simp only [List.map_cons, Expr.KindedArgs] at hk ⊢
    refine ⟨?_, Expr.KindedArgs.rename hk.2 hx hy⟩
    rcases hk.1 with ⟨z, rfl⟩ | hk
    · exact .inl ⟨_, Expr.rename_var x y z⟩
    · exact .inr (hk.rename hx hy)
termination_by 2 * Expr.sizes es + 1
decreasing_by
  all_goals
    have := e.size_pos
    simp only [Expr.sizes]
    omega

theorem Pred.Kinded.rename {p : Pred} {K : Kinds} {x y : String} (hk : p.Kinded K)
    (hx : K x = .int) (hy : K y = .int) : (p.rename x y).Kinded K := by
  match p, hk with
  | .bool b, _ => simp only [Pred.rename_bool, Pred.Kinded]
  | .compare op a b, hk =>
    simp only [Pred.rename_compare, Pred.Kinded] at hk ⊢
    exact ⟨hk.1.rename hx hy, hk.2.rename hx hy⟩
  | .not p, hk =>
    simp only [Pred.rename_not, Pred.Kinded] at hk ⊢
    exact hk.rename hx hy
  | .and p q, hk =>
    simp only [Pred.rename_and, Pred.Kinded] at hk ⊢
    exact ⟨hk.1.rename hx hy, hk.2.rename hx hy⟩
  | .or p q, hk =>
    simp only [Pred.rename_or, Pred.Kinded] at hk ⊢
    exact ⟨hk.1.rename hx hy, hk.2.rename hx hy⟩
  | .implies p q, hk =>
    simp only [Pred.rename_implies, Pred.Kinded] at hk ⊢
    exact ⟨hk.1.rename hx hy, hk.2.rename hx hy⟩
  | .paren p, hk =>
    simp only [Pred.rename_paren, Pred.Kinded] at hk ⊢
    exact hk.rename hx hy
  | .quantified q z body, hk =>
    rw [Pred.rename_quantified]
    split
    · exact hk
    · next hzx =>
      split
      · next hzy =>
        obtain ⟨hfx, hfy, hfz, hff⟩ := renamedBinder_spec x y z.name body
        simp only [Pred.Kinded] at hk ⊢
        -- `y` is a number around the binder too, so the binder's own entry can be kept
        have hbody : body.Kinded (Function.update K (renamedBinder x y z.name body) .int) := by
          have hsame : Function.update K z.name .int = K := by
            rw [hzy, ← hy, Function.update_eq_self]
          rw [hsame] at hk
          exact hk.update hff _
        have hinner := hbody.rename (x := z.name) (y := renamedBinder x y z.name body)
          (by rw [Function.update_of_ne (Ne.symm hfz), hzy, hy]) (Function.update_self ..)
        exact hinner.rename (by rw [Function.update_of_ne (Ne.symm hfx), hx])
          (by rw [Function.update_of_ne (Ne.symm hfy), hy])
      · next hzy =>
        simp only [Pred.Kinded] at hk ⊢
        exact hk.rename (by rw [Function.update_of_ne (Ne.symm hzx), hx])
          (by rw [Function.update_of_ne (Ne.symm hzy), hy])
  | .formula f args, hk =>
    simp only [Pred.rename_formula, Pred.Kinded] at hk ⊢
    exact Expr.KindedArgs.rename hk hx hy
termination_by 2 * p.size
decreasing_by
  all_goals
    simp only [Pred.size, Pred.size_rename]
    omega

end

/-! ## What is free after a renaming -/

mutual

theorem Expr.mem_free_rename {e : Expr} {x y z : String} (hr : e.ReadsApart [x])
    (hz : z ∈ (e.rename x y).free) : (z ∈ e.free ∧ z ≠ x) ∨ z = y := by
  match e, hr with
  | .const n, _ =>
    simp only [Expr.rename_const, Expr.free, List.not_mem_nil] at hz
  | .var w, _ =>
    simp only [Expr.rename_var, Expr.free, List.mem_singleton] at hz ⊢
    split at hz
    · exact .inr hz
    · next hw => exact .inl ⟨hz, by rw [hz]; exact hw⟩
  | .neg a, hr =>
    simp only [Expr.rename_neg, Expr.free, Expr.ReadsApart] at hr hz ⊢
    exact Expr.mem_free_rename hr hz
  | .binary op a b, hr =>
    simp only [Expr.rename_binary, Expr.free, Expr.ReadsApart, List.mem_append] at hr hz ⊢
    rcases hz with hz | hz
    · have := Expr.mem_free_rename hr.1 hz
      tauto
    · have := Expr.mem_free_rename hr.2 hz
      tauto
  | .read a i, hr =>
    simp only [Expr.rename_read, Expr.free, Expr.ReadsApart, List.mem_cons] at hr hz ⊢
    rcases hz with hz | hz
    · exact .inl ⟨.inl hz, fun hzx => hr.1 (.inl (hz ▸ hzx))⟩
    · have := Expr.mem_free_rename hr.2 hz
      tauto
  | .call f args, hr =>
    simp only [Expr.rename_call, Expr.free, Expr.ReadsApart] at hr hz ⊢
    exact Expr.mem_freeList_rename hr hz
  | .cond p a b, hr =>
    simp only [Expr.rename_cond, Expr.free, Expr.ReadsApart, List.mem_append] at hr hz ⊢
    rcases hz with (hz | hz) | hz
    · have := Pred.mem_free_rename hr.1 hz
      tauto
    · have := Expr.mem_free_rename hr.2.1 hz
      tauto
    · have := Expr.mem_free_rename hr.2.2 hz
      tauto
termination_by 2 * e.size
decreasing_by all_goals simp only [Expr.size]; omega

theorem Expr.mem_freeList_rename {es : List Expr} {x y z : String}
    (hr : Expr.ReadsApartIn es [x]) (hz : z ∈ Expr.freeList (es.map (Expr.rename x y))) :
    (z ∈ Expr.freeList es ∧ z ≠ x) ∨ z = y := by
  match es, hr with
  | [], _ => simp only [List.map_nil, Expr.freeList, List.not_mem_nil] at hz
  | e :: es, hr =>
    simp only [List.map_cons, Expr.freeList, Expr.ReadsApartIn, List.mem_append] at hr hz ⊢
    rcases hz with hz | hz
    · have := Expr.mem_free_rename hr.1 hz
      tauto
    · have := Expr.mem_freeList_rename hr.2 hz
      tauto
termination_by 2 * Expr.sizes es + 1
decreasing_by
  all_goals
    have := e.size_pos
    simp only [Expr.sizes]
    omega

theorem Pred.mem_free_rename {p : Pred} {x y z : String} (hr : p.ReadsApart [x])
    (hz : z ∈ (p.rename x y).free) : (z ∈ p.free ∧ z ≠ x) ∨ z = y := by
  match p, hr with
  | .bool b, _ => simp only [Pred.rename_bool, Pred.free, List.not_mem_nil] at hz
  | .compare op a b, hr =>
    simp only [Pred.rename_compare, Pred.free, Pred.ReadsApart, List.mem_append] at hr hz ⊢
    rcases hz with hz | hz
    · have := Expr.mem_free_rename hr.1 hz
      tauto
    · have := Expr.mem_free_rename hr.2 hz
      tauto
  | .not p, hr =>
    simp only [Pred.rename_not, Pred.free, Pred.ReadsApart] at hr hz ⊢
    exact Pred.mem_free_rename hr hz
  | .and p q, hr =>
    simp only [Pred.rename_and, Pred.free, Pred.ReadsApart, List.mem_append] at hr hz ⊢
    rcases hz with hz | hz
    · have := Pred.mem_free_rename hr.1 hz
      tauto
    · have := Pred.mem_free_rename hr.2 hz
      tauto
  | .or p q, hr =>
    simp only [Pred.rename_or, Pred.free, Pred.ReadsApart, List.mem_append] at hr hz ⊢
    rcases hz with hz | hz
    · have := Pred.mem_free_rename hr.1 hz
      tauto
    · have := Pred.mem_free_rename hr.2 hz
      tauto
  | .implies p q, hr =>
    simp only [Pred.rename_implies, Pred.free, Pred.ReadsApart, List.mem_append] at hr hz ⊢
    rcases hz with hz | hz
    · have := Pred.mem_free_rename hr.1 hz
      tauto
    · have := Pred.mem_free_rename hr.2 hz
      tauto
  | .paren p, hr =>
    simp only [Pred.rename_paren, Pred.free, Pred.ReadsApart] at hr hz ⊢
    exact Pred.mem_free_rename hr hz
  | .quantified q w body, hr =>
    rw [Pred.rename_quantified] at hz
    simp only [Pred.ReadsApart] at hr
    have hrx : body.ReadsApart [x] := hr.mono (List.subset_cons_self ..)
    split at hz
    · next hwx =>
      -- `x` is bound here, and the body is left alone
      simp only [Pred.free, List.mem_filter, bne_iff_ne] at hz ⊢
      exact .inl ⟨hz, by rw [← hwx]; exact hz.2⟩
    · split at hz
      · -- the binder would capture `y` and gets a new name first
        simp only [Pred.free, List.mem_filter, bne_iff_ne] at hz ⊢
        have hrw : body.ReadsApart [w.name] := hr.mono (List.cons_subset_cons _ (List.nil_subset _))
        rcases Pred.mem_free_rename (hrx.rename ..) hz.1 with ⟨hz', hzx⟩ | hzy
        · rcases Pred.mem_free_rename hrw hz' with ⟨hzb, hzw⟩ | hzf
          · exact .inl ⟨⟨hzb, hzw⟩, hzx⟩
          · exact absurd hzf hz.2
        · exact .inr hzy
      · simp only [Pred.free, List.mem_filter, bne_iff_ne] at hz ⊢
        rcases Pred.mem_free_rename hrx hz.1 with ⟨hzb, hzx⟩ | hzy
        · exact .inl ⟨⟨hzb, hz.2⟩, hzx⟩
        · exact .inr hzy
  | .formula f args, hr =>
    simp only [Pred.rename_formula, Pred.free, Pred.ReadsApart] at hr hz ⊢
    exact Expr.mem_freeList_rename hr hz
termination_by 2 * p.size
decreasing_by
  all_goals
    simp only [Pred.size, Pred.size_rename]
    omega

end

/-! ## What a renamed predicate means -/

theorem Expr.datum_rename {α : Type} (e : Expr) (x y : String) (ρ : Valuation α) (n : Int) :
    (e.rename x y).datum ρ n = e.datum (Function.update ρ x (ρ y)) n := by
  cases e with
  | var z =>
    simp only [Expr.rename_var, Expr.datum]
    split
    · next hz => rw [hz, Function.update_self]
    · next hz => rw [Function.update_of_ne hz]
  | const => rw [Expr.rename_const]; rfl
  | neg => rw [Expr.rename_neg]; rfl
  | binary => rw [Expr.rename_binary]; rfl
  | read => rw [Expr.rename_read]; rfl
  | call => rw [Expr.rename_call]; rfl
  | cond => rw [Expr.rename_cond]; rfl

mutual

theorem Expr.value_rename {α : Type} (M : Interpretation α) {e : Expr} {x : String} (y : String)
    (hr : e.ReadsApart [x]) (ρ : Valuation α) :
    (e.rename x y).value M ρ = e.value M (Function.update ρ x (ρ y)) := by
  match e, hr with
  | .const n, _ => simp only [Expr.rename_const, Expr.value]
  | .var z, _ =>
    simp only [Expr.rename_var, Expr.value]
    split
    · next hz => rw [hz, Function.update_self]
    · next hz => rw [Function.update_of_ne hz]
  | .neg a, hr =>
    simp only [Expr.ReadsApart] at hr
    simp only [Expr.rename_neg, Expr.value]
    rw [Expr.value_rename M y hr]
  | .binary op a b, hr =>
    simp only [Expr.ReadsApart] at hr
    simp only [Expr.rename_binary, Expr.value]
    rw [Expr.value_rename M y hr.1, Expr.value_rename M y hr.2]
  | .read a i, hr =>
    simp only [Expr.ReadsApart, List.mem_singleton] at hr
    simp only [Expr.rename_read, Expr.value]
    rw [Function.update_of_ne hr.1, Expr.value_rename M y hr.2]
  | .call f args, hr =>
    simp only [Expr.ReadsApart] at hr
    simp only [Expr.rename_call, Expr.value]
    rw [Expr.data_rename M y hr]
  | .cond p a b, hr =>
    simp only [Expr.ReadsApart] at hr
    simp only [Expr.rename_cond, Expr.value]
    rw [propext (Pred.holds_rename M y hr.1 ρ), Expr.value_rename M y hr.2.1,
      Expr.value_rename M y hr.2.2]
termination_by 2 * e.size
decreasing_by all_goals simp only [Expr.size]; omega

theorem Expr.data_rename {α : Type} (M : Interpretation α) {es : List Expr} {x : String}
    (y : String) (hr : Expr.ReadsApartIn es [x]) (ρ : Valuation α) :
    Expr.data M (es.map (Expr.rename x y)) ρ = Expr.data M es (Function.update ρ x (ρ y)) := by
  match es, hr with
  | [], _ => simp only [List.map_nil, Expr.data]
  | e :: es, hr =>
    simp only [Expr.ReadsApartIn] at hr
    simp only [List.map_cons, Expr.data]
    rw [Expr.data_rename M y hr.2, Expr.datum_rename, Expr.value_rename M y hr.1]
termination_by 2 * Expr.sizes es + 1
decreasing_by
  all_goals
    have := e.size_pos
    simp only [Expr.sizes]
    omega

/-- A renamed predicate reads `x` as what `y` stands for. -/
theorem Pred.holds_rename {α : Type} (M : Interpretation α) {p : Pred} {x : String} (y : String)
    (hr : p.ReadsApart [x]) (ρ : Valuation α) :
    (p.rename x y).Holds M ρ ↔ p.Holds M (Function.update ρ x (ρ y)) := by
  match p, hr with
  | .bool b, _ => simp only [Pred.rename_bool, Pred.Holds]
  | .compare op a b, hr =>
    simp only [Pred.ReadsApart] at hr
    simp only [Pred.rename_compare, Pred.Holds]
    rw [Expr.value_rename M y hr.1, Expr.value_rename M y hr.2]
  | .not p, hr =>
    simp only [Pred.ReadsApart] at hr
    simp only [Pred.rename_not, Pred.Holds]
    rw [Pred.holds_rename M y hr]
  | .and p q, hr =>
    simp only [Pred.ReadsApart] at hr
    simp only [Pred.rename_and, Pred.Holds]
    rw [Pred.holds_rename M y hr.1, Pred.holds_rename M y hr.2]
  | .or p q, hr =>
    simp only [Pred.ReadsApart] at hr
    simp only [Pred.rename_or, Pred.Holds]
    rw [Pred.holds_rename M y hr.1, Pred.holds_rename M y hr.2]
  | .implies p q, hr =>
    simp only [Pred.ReadsApart] at hr
    simp only [Pred.rename_implies, Pred.Holds]
    rw [Pred.holds_rename M y hr.1, Pred.holds_rename M y hr.2]
  | .paren p, hr =>
    simp only [Pred.ReadsApart] at hr
    simp only [Pred.rename_paren, Pred.Holds]
    rw [Pred.holds_rename M y hr]
  | .quantified q z body, hr =>
    simp only [Pred.ReadsApart] at hr
    have hrx : body.ReadsApart [x] := hr.mono (List.subset_cons_self ..)
    rw [Pred.rename_quantified]
    split
    · next hzx =>
      rw [Pred.holds_quantified, Pred.holds_quantified]
      refine q.holds_congr fun n => ?_
      rw [hzx, Function.update_idem]
    · next hzx =>
      split
      · next hzy =>
        obtain ⟨hfx, hfy, hfz, hff⟩ := renamedBinder_spec x y z.name body
        have hrz : body.ReadsApart [z.name] := hr.mono (List.cons_subset_cons _ (List.nil_subset _))
        rw [Pred.holds_quantified, Pred.holds_quantified]
        refine q.holds_congr fun n => ?_
        dsimp only
        rw [Pred.holds_rename M y (hrx.rename ..), Pred.holds_rename M _ hrz]
        -- both valuations give the binder the value `n`; the new name does not occur in the body
        refine Pred.holds_congr M body fun w hw => ?_
        have hwf : w ≠ renamedBinder x y z.name body := fun h => hff (h ▸ hw)
        rw [Function.update_of_ne (Ne.symm hfy), Function.update_of_ne hfx, Function.update_self]
        by_cases hwz : w = z.name
        · rw [hwz, Function.update_self, Function.update_self]
        · rw [Function.update_of_ne hwz, Function.update_of_ne hwz]
          by_cases hwx : w = x
          · rw [hwx, Function.update_self, Function.update_self]
          · rw [Function.update_of_ne hwx, Function.update_of_ne hwx, Function.update_of_ne hwf]
      · next hzy =>
        rw [Pred.holds_quantified, Pred.holds_quantified]
        refine q.holds_congr fun n => ?_
        rw [Pred.holds_rename M y hrx, Function.update_of_ne (Ne.symm hzy),
          Function.update_comm hzx]
  | .formula f args, hr =>
    simp only [Pred.ReadsApart] at hr
    simp only [Pred.rename_formula, Pred.Holds]
    rw [Expr.data_rename M y hr]
termination_by 2 * p.size
decreasing_by
  all_goals
    simp only [Pred.size, Pred.size_rename]
    omega

end

/-- Renaming a bound variable to a name that is not free in the body changes nothing. -/
theorem Pred.holds_rename_binder {α : Type} (M : Interpretation α) {body : Pred}
    {x fresh : String} (hr : body.ReadsApart [x]) (hfree : fresh ∉ body.free)
    (ρ : Valuation α) (d : Datum α) :
    (body.rename x fresh).Holds M (Function.update ρ fresh d) ↔
      body.Holds M (Function.update ρ x d) := by
  rw [Pred.holds_rename M fresh hr, Function.update_self]
  refine Pred.holds_congr M body fun w hw => ?_
  by_cases hwx : w = x
  · rw [hwx, Function.update_self, Function.update_self]
  · rw [Function.update_of_ne hwx, Function.update_of_ne hwx, Function.update_of_ne]
    rintro rfl
    exact hfree hw

end Contracts

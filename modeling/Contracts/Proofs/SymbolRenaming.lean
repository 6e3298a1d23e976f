import Mathlib.Logic.Equiv.Basic
import Contracts.Proofs.SmtMeaning
import Contracts.Proofs.Symbols

/-!
# Renaming symbols

Two encodings of one predicate differ in the numbers of the symbols that they make. `Term.rename`
renames the constants of a term, those that a quantifier binds included; function symbols stay as
they are, since they carry no number. A one-to-one renaming of a term can as well be made in the
structure (`Term.eval_rename`).

A `Renumbering` is a renaming that gives symbols other numbers: it is one-to-one, keeps what stands
before the number, and leaves every other symbol alone. A renumbering can be changed so that it
sends a given symbol to another one with the same text before the number (`Renumbering.send`), and
this changes the images of two symbols only.
-/

set_option autoImplicit false

namespace Contracts

namespace Smt

/-! ## Terms -/

mutual

/-- The term with its constants renamed, bound ones too. -/
def Term.rename (σ : String → String) : Term → Term
  | .bool b => .bool b
  | .int n => .int n
  | .const x => .const (σ x)
  | .not t => .not (t.rename σ)
  | .neg t => .neg (t.rename σ)
  | .junction op ts => .junction op (Term.renameList σ ts)
  | .binary op a b => .binary op (a.rename σ) (b.rename σ)
  | .ite c a b => .ite (c.rename σ) (a.rename σ) (b.rename σ)
  | .quantified k vars t => .quantified k (vars.map fun v => (σ v.1, v.2)) (t.rename σ)
  | .app f ts => .app f (Term.renameList σ ts)

def Term.renameList (σ : String → String) : List Term → List Term
  | [] => []
  | t :: ts => t.rename σ :: Term.renameList σ ts

end

mutual

/-- The names of the constants that occur or are bound in the term. -/
def Term.names : Term → List String
  | .bool _ | .int _ => []
  | .const x => [x]
  | .not t | .neg t => t.names
  | .junction _ ts | .app _ ts => Term.namesList ts
  | .binary _ a b => a.names ++ b.names
  | .ite a b c => a.names ++ b.names ++ c.names
  | .quantified _ vars t => vars.map Prod.fst ++ t.names

def Term.namesList : List Term → List String
  | [] => []
  | t :: ts => t.names ++ Term.namesList ts

end

theorem Term.renameList_eq_map (σ : String → String) (ts : List Term) :
    Term.renameList σ ts = ts.map (Term.rename σ) := by
  induction ts with
  | nil => rw [Term.renameList, List.map_nil]
  | cons t ts ih => rw [Term.renameList, List.map_cons, ih]

theorem Term.mem_namesList {x : String} {ts : List Term} :
    x ∈ Term.namesList ts ↔ ∃ t ∈ ts, x ∈ t.names := by
  induction ts with
  | nil => simp only [Term.namesList, List.not_mem_nil, false_and, exists_false]
  | cons t ts ih =>
    simp only [Term.namesList, List.mem_append, ih, List.mem_cons, or_and_right, exists_or,
      exists_eq_left]

mutual

/-- Only the names that occur count. -/
theorem Term.rename_congr {σ τ : String → String} :
    ∀ t : Term, (∀ x ∈ t.names, σ x = τ x) → t.rename σ = t.rename τ
  | .bool _, _ | .int _, _ => by rw [Term.rename, Term.rename]
  | .const x, h => by
    rw [Term.rename, Term.rename, h x List.mem_cons_self]
  | .not t, h | .neg t, h => by
    rw [Term.rename, Term.rename, Term.rename_congr t h]
  | .junction _ ts, h | .app _ ts, h => by
    rw [Term.rename, Term.rename, Term.renameList_congr ts h]
  | .binary _ a b, h => by
    rw [Term.rename, Term.rename, Term.rename_congr a fun x hx => h x (List.mem_append_left _ hx),
      Term.rename_congr b fun x hx => h x (List.mem_append_right _ hx)]
  | .ite a b c, h => by
    rw [Term.rename, Term.rename,
      Term.rename_congr a fun x hx => h x (List.mem_append_left _ (List.mem_append_left _ hx)),
      Term.rename_congr b fun x hx => h x (List.mem_append_left _ (List.mem_append_right _ hx)),
      Term.rename_congr c fun x hx => h x (List.mem_append_right _ hx)]
  | .quantified _ vars t, h => by
    rw [Term.names] at h
    have hvars : (vars.map fun v => (σ v.1, v.2)) = vars.map fun v => (τ v.1, v.2) := by
      refine List.map_congr_left fun v hv => ?_
      rw [h v.1 (List.mem_append_left _ (List.mem_map_of_mem hv))]
    rw [Term.rename, Term.rename, hvars,
      Term.rename_congr t fun x hx => h x (List.mem_append_right _ hx)]

theorem Term.renameList_congr {σ τ : String → String} :
    ∀ ts : List Term, (∀ x ∈ Term.namesList ts, σ x = τ x) →
      Term.renameList σ ts = Term.renameList τ ts
  | [], _ => by rw [Term.renameList, Term.renameList]
  | t :: ts, h => by
    rw [Term.renameList, Term.renameList,
      Term.rename_congr t fun x hx => h x (List.mem_append_left _ hx),
      Term.renameList_congr ts fun x hx => h x (List.mem_append_right _ hx)]

end

mutual

theorem Term.rename_rename {σ τ : String → String} :
    ∀ t : Term, (t.rename σ).rename τ = t.rename (τ ∘ σ)
  | .bool _ | .int _ | .const _ => by simp only [Term.rename, Function.comp_apply]
  | .not t | .neg t => by simp only [Term.rename, Term.rename_rename t]
  | .junction _ ts | .app _ ts => by simp only [Term.rename, Term.renameList_renameList ts]
  | .binary _ a b => by simp only [Term.rename, Term.rename_rename a, Term.rename_rename b]
  | .ite a b c => by
    simp only [Term.rename, Term.rename_rename a, Term.rename_rename b, Term.rename_rename c]
  | .quantified _ vars t => by
    simp only [Term.rename, Term.rename_rename t, List.map_map, Function.comp_def]

theorem Term.renameList_renameList {σ τ : String → String} :
    ∀ ts : List Term, Term.renameList τ (Term.renameList σ ts) = Term.renameList (τ ∘ σ) ts
  | [] => by simp only [Term.renameList]
  | t :: ts => by
    simp only [Term.renameList, Term.rename_rename t, Term.renameList_renameList ts]

end

mutual

theorem Term.rename_id : ∀ t : Term, t.rename id = t
  | .bool _ | .int _ | .const _ => by simp only [Term.rename, id_eq]
  | .not t | .neg t => by simp only [Term.rename, Term.rename_id t]
  | .junction _ ts | .app _ ts => by simp only [Term.rename, Term.renameList_id ts]
  | .binary _ a b => by simp only [Term.rename, Term.rename_id a, Term.rename_id b]
  | .ite a b c => by simp only [Term.rename, Term.rename_id a, Term.rename_id b, Term.rename_id c]
  | .quantified _ vars t => by
    have hvars : (vars.map fun v => (id v.1, v.2)) = vars := List.map_id vars
    rw [Term.rename, Term.rename_id t, hvars]

theorem Term.renameList_id : ∀ ts : List Term, Term.renameList id ts = ts
  | [] => by simp only [Term.renameList]
  | t :: ts => by simp only [Term.renameList, Term.rename_id t, Term.renameList_id ts]

end

/-- Different terms stay different. -/
theorem Term.rename_injective (σ : Equiv.Perm String) : Function.Injective (Term.rename σ) := by
  intro t u h
  have hback : ∀ v : Term, (v.rename σ).rename σ.symm = v := by
    intro v
    rw [Term.rename_rename, Equiv.symm_comp_self, Term.rename_id]
  rw [← hback t, h, hback u]

mutual

theorem Term.consts_rename (σ : String → String) :
    ∀ t : Term, (t.rename σ).consts = t.consts.map σ
  | .bool _ | .int _ | .const _ => by
    simp only [Term.rename, Term.consts, List.map_nil, List.map_cons]
  | .not t | .neg t | .quantified _ _ t => by
    simp only [Term.rename, Term.consts, Term.consts_rename σ t]
  | .junction _ ts | .app _ ts => by
    simp only [Term.rename, Term.consts, Term.constsList_rename σ ts]
  | .binary _ a b => by
    simp only [Term.rename, Term.consts, Term.consts_rename σ a, Term.consts_rename σ b,
      List.map_append]
  | .ite a b c => by
    simp only [Term.rename, Term.consts, Term.consts_rename σ a, Term.consts_rename σ b,
      Term.consts_rename σ c, List.map_append]

theorem Term.constsList_rename (σ : String → String) :
    ∀ ts : List Term, Term.constsList (Term.renameList σ ts) = (Term.constsList ts).map σ
  | [] => by simp only [Term.renameList, Term.constsList, List.map_nil]
  | t :: ts => by
    simp only [Term.renameList, Term.constsList, Term.consts_rename σ t,
      Term.constsList_rename σ ts, List.map_append]

end

/-- A one-to-one renaming keeps what is mentioned. -/
theorem Term.mentions_rename (σ : Equiv.Perm String) (names : List String) (t : Term) :
    (t.rename σ).mentions (names.map σ) = t.mentions names := by
  rw [Bool.eq_iff_iff, Term.mentions_iff, Term.mentions_iff, Term.consts_rename]
  constructor
  · rintro ⟨y, hy, hnames⟩
    obtain ⟨x, hx, rfl⟩ := List.mem_map.mp hy
    exact ⟨x, hx, (List.mem_map_of_injective σ.injective).mp hnames⟩
  · rintro ⟨x, hx, hnames⟩
    exact ⟨σ x, List.mem_map_of_mem hx, List.mem_map_of_mem hnames⟩

/-! ### What a renamed term means -/

/-- The structure in which a constant stands for what its new name stood for. -/
def Structure.rename (σ : String → String) (J : Structure) : Structure :=
  { J with const := fun x => J.const (σ x) }

theorem Structure.rename_update (σ : Equiv.Perm String) (J : Structure) (x : String) (v : Val) :
    (J.update (σ x) v).rename σ = (J.rename σ).update x v := by
  have hconst : (fun y => (J.update (σ x) v).const (σ y)) =
      ((J.rename σ).update x v).const := by
    funext y
    by_cases hyx : y = x
    · rw [hyx, update_const_self, update_const_self]
    · rw [update_const_of_ne J (σ.injective.ne hyx), update_const_of_ne _ hyx]
      rfl
  rw [Structure.rename, hconst]
  rfl

theorem Structure.quantified_rename (σ : Equiv.Perm String) (q : Quantifier)
    {P P' : Structure → Prop} (hP : ∀ J : Structure, P J ↔ P' (J.rename σ)) :
    ∀ (vars : List (String × SmtSort)) (J : Structure),
      Structure.Quantified q (vars.map fun v => (σ v.1, v.2)) P J ↔
        Structure.Quantified q vars P' (J.rename σ)
  | [], J => hP J
  | (x, sort) :: vars, J => by
    have hrest : ∀ v, Structure.Quantified q (vars.map fun v => (σ v.1, v.2)) P (J.update (σ x) v) ↔
        Structure.Quantified q vars P' ((J.rename σ).update x v) := by
      intro v
      rw [← Structure.rename_update]
      exact Structure.quantified_rename σ q hP vars (J.update (σ x) v)
    cases q with
    | universal => exact forall_congr' fun v => imp_congr_right fun _ => hrest v
    | existential => exact exists_congr fun v => and_congr_right fun _ => hrest v

mutual

/-- Renaming a term amounts to renaming in the structure, if the renaming is one-to-one. -/
theorem Term.eval_rename (σ : Equiv.Perm String) :
    ∀ (t : Term) (J : Structure), (t.rename σ).eval J = t.eval (J.rename σ)
  | .bool _, _ | .int _, _ | .const _, _ => by
    simp only [Term.rename, Term.eval, Structure.rename]
  | .not t, J | .neg t, J => by simp only [Term.rename, Term.eval, Term.eval_rename σ t J]
  | .junction _ ts, J => by
    simp only [Term.rename, Term.eval, Term.evals_rename σ ts J]
  | .app _ ts, J => by
    simp only [Term.rename, Term.eval, Term.evals_rename σ ts J]
    rfl
  | .binary op a b, J => by
    simp only [Term.rename, Term.eval, Term.eval_rename σ a J, Term.eval_rename σ b J]
    rfl
  | .ite a b c, J => by
    simp only [Term.rename, Term.eval, Term.eval_rename σ a J, Term.eval_rename σ b J,
      Term.eval_rename σ c J]
  | .quantified q vars t, J => by
    have hbody : ∀ J : Structure, ((t.rename σ).eval J).truth ↔ (t.eval (J.rename σ)).truth := by
      intro J
      rw [Term.eval_rename σ t J]
    have hquantified : Structure.Quantified q (vars.map fun v => (σ v.1, v.2))
        (fun J' => ((t.rename σ).eval J').truth) J ↔
          Structure.Quantified q vars (fun J' => (t.eval J').truth) (J.rename σ) :=
      Structure.quantified_rename σ q hbody vars J
    rw [Term.rename, Term.eval, Term.eval, propext hquantified]

theorem Term.evals_rename (σ : Equiv.Perm String) :
    ∀ (ts : List Term) (J : Structure),
      Term.evals (Term.renameList σ ts) J = Term.evals ts (J.rename σ)
  | [], _ => by simp only [Term.renameList, Term.evals]
  | t :: ts, J => by
    simp only [Term.renameList, Term.evals, Term.eval_rename σ t J, Term.evals_rename σ ts J]

end

theorem Term.holds_rename (σ : Equiv.Perm String) (t : Term) (J : Structure) :
    (t.rename σ).Holds J ↔ t.Holds (J.rename σ) := by
  rw [Term.Holds, Term.Holds, Term.eval_rename]

end Smt

/-! ## Renumberings -/

/-- A one-to-one renaming of symbols that changes nothing but the numbers of those that
`freshSymbol` makes. -/
structure Renumbering where
  perm : Equiv.Perm String
  keeps : ∀ x, perm x = x ∨
    ∃ base m n, x = numberedSymbol base (m + 1) ∧ perm x = numberedSymbol base (n + 1)

namespace Renumbering

/-- The renumbering that changes nothing. -/
def refl : Renumbering := ⟨Equiv.refl String, fun _ => .inl rfl⟩

theorem apply_of_not_madeAfter (σ : Renumbering) {x : String} (hx : ¬MadeAfter 0 x) :
    σ.perm x = x := by
  rcases σ.keeps x with h | ⟨base, m, n, rfl, -⟩
  · exact h
  · exact absurd (madeAfter_numberedSymbol.mpr (Nat.succ_pos m)) hx

theorem apply_numberedSymbol (σ : Renumbering) (base : String) (m : Nat) :
    ∃ n, σ.perm (numberedSymbol base (m + 1)) = numberedSymbol base (n + 1) := by
  rcases σ.keeps (numberedSymbol base (m + 1)) with h | ⟨base', m', n, hx, h⟩
  · exact ⟨m, h⟩
  · refine ⟨n, ?_⟩
    rw [h, base_eq_of_numberedSymbol hx]

/-- Sends a numbered symbol to another one; what went there goes where the symbol went before. -/
def send (σ : Renumbering) (base : String) (m n : Nat) : Renumbering where
  perm := σ.perm.trans (Equiv.swap (σ.perm (numberedSymbol base (m + 1)))
    (numberedSymbol base (n + 1)))
  keeps := by
    intro x
    obtain ⟨k, hk⟩ := σ.apply_numberedSymbol base m
    rw [hk, Equiv.trans_apply]
    by_cases hfirst : σ.perm x = numberedSymbol base (k + 1)
    · have hx : x = numberedSymbol base (m + 1) := σ.perm.injective (hfirst.trans hk.symm)
      refine .inr ⟨base, m, n, hx, ?_⟩
      rw [hfirst, Equiv.swap_apply_left]
    · by_cases hsecond : σ.perm x = numberedSymbol base (n + 1)
      · rw [hsecond, Equiv.swap_apply_right]
        rcases σ.keeps x with h | ⟨base', m', n', hx, h⟩
        · exact .inr ⟨base, n, k, h.symm.trans hsecond, rfl⟩
        · rw [hsecond] at h
          rw [← base_eq_of_numberedSymbol h] at hx
          exact .inr ⟨base, m', k, hx, rfl⟩
      · rw [Equiv.swap_apply_of_ne_of_ne hfirst hsecond]
        exact σ.keeps x

variable (σ : Renumbering) (base : String) (m n : Nat)

theorem send_apply_self :
    (σ.send base m n).perm (numberedSymbol base (m + 1)) = numberedSymbol base (n + 1) := by
  rw [send, Equiv.trans_apply, Equiv.swap_apply_left]

theorem send_apply_of_ne {x : String} (hx : x ≠ numberedSymbol base (m + 1))
    (hσx : σ.perm x ≠ numberedSymbol base (n + 1)) : (σ.send base m n).perm x = σ.perm x := by
  rw [send, Equiv.trans_apply]
  exact Equiv.swap_apply_of_ne_of_ne (fun h => hx (σ.perm.injective h)) hσx

end Renumbering

end Contracts

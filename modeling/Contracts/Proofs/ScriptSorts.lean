import Contracts.Proofs.SmtMeaning

/-!
# Sorts of terms and well-formed scripts

A solver reads a script from front to back and refuses it at the first thing that does not fit: a
symbol declared a second time, a constant or function that has no declaration yet, a function with
another number of arguments than declared, an assertion that is no truth value.

`Term.HasSort` gives the sort of a term after some commands and under some quantifiers.
`Script.WellFormed` says that a script is accepted. A term has a value of its sort
(`Term.HasSort.sort_eval`), and the value depends on what is declared and on nothing else
(`Term.HasSort.eval_congr`). A sort stays what it is when commands are added
in front of the term (`Term.HasSort.mono`), when a quantifier is put around it whose variable is no
declared function (`Term.HasSort.weaken`), and when a quantifier is taken away whose variable does not
occur (`Term.HasSort.strengthen`).
-/

set_option autoImplicit false

namespace Contracts.Smt

/-! ## Sorts -/

/-- The sort of an operation on two terms of one sort. -/
def BinOp.sort? : BinOp → SmtSort → Option SmtSort
  | .implies, .bool => some .bool
  | .eq, _ => some .bool
  | .add, .int | .sub, .int | .mul, .int | .div, .int => some .int
  | .lt, .int | .le, .int | .gt, .int | .ge, .int => some .bool
  | _, _ => none

/-- The sort of a term after the commands `c`, where `Γ` are the variables of the quantifiers around
it, the innermost first. The variables of one quantifier are different. -/
inductive Term.HasSort (c : Script) : List (String × SmtSort) → Term → SmtSort → Prop
  | bool (Γ : List (String × SmtSort)) (b : Bool) : HasSort c Γ (.bool b) .bool
  | int (Γ : List (String × SmtSort)) (n : Int) : HasSort c Γ (.int n) .int
  | bound {Γ : List (String × SmtSort)} {x : String} {τ : SmtSort} (hx : Γ.lookup x = some τ) :
      HasSort c Γ (.const x) τ
  | const {Γ : List (String × SmtSort)} {x : String} {τ : SmtSort} (hx : Γ.lookup x = none)
      (hdecl : Command.declareConst x τ ∈ c) : HasSort c Γ (.const x) τ
  | not {Γ : List (String × SmtSort)} {t : Term} (ht : HasSort c Γ t .bool) :
      HasSort c Γ (.not t) .bool
  | neg {Γ : List (String × SmtSort)} {t : Term} (ht : HasSort c Γ t .int) :
      HasSort c Γ (.neg t) .int
  | junction {Γ : List (String × SmtSort)} {ts : List Term} (op : Junction)
      (hts : ∀ t ∈ ts, HasSort c Γ t .bool) : HasSort c Γ (.junction op ts) .bool
  | binary {Γ : List (String × SmtSort)} {a b : Term} {τ υ : SmtSort} {op : BinOp}
      (hop : op.sort? τ = some υ) (ha : HasSort c Γ a τ) (hb : HasSort c Γ b τ) :
      HasSort c Γ (.binary op a b) υ
  | ite {Γ : List (String × SmtSort)} {t a b : Term} {τ : SmtSort} (ht : HasSort c Γ t .bool)
      (ha : HasSort c Γ a τ) (hb : HasSort c Γ b τ) : HasSort c Γ (.ite t a b) τ
  | quantified {Γ : List (String × SmtSort)} {vars : List (String × SmtSort)} {t : Term}
      (k : Quantifier) (hvars : (vars.map Prod.fst).Nodup) (ht : HasSort c (vars ++ Γ) t .bool) :
      HasSort c Γ (.quantified k vars t) .bool
  | app {Γ : List (String × SmtSort)} {f : String} {params : List SmtSort} {τ : SmtSort}
      {ts : List Term} (hf : Γ.lookup f = none) (hdecl : Command.declareFun f params τ ∈ c)
      (hcount : ts.length = params.length) (hts : ∀ q ∈ ts.zip params, HasSort c Γ q.1 q.2) :
      HasSort c Γ (.app f ts) τ

/-- The symbol that a command declares. -/
def Command.declares? : Command → Option String
  | .declareConst x _ => some x
  | .declareFun f _ _ => some f
  | _ => none

/-- The symbols that a script declares. -/
def Script.declared (c : Script) : List String := c.filterMap Command.declares?

/-- A script that declares no symbol twice, and asserts nothing but truth values of what was declared
before. -/
structure Script.WellFormed (c : Script) : Prop where
  nodup : c.declared.Nodup
  sorted : ∀ before t after, c = before ++ .assert t :: after → Term.HasSort before [] t .bool

namespace Term.HasSort

variable {c c' : Script} {Γ : List (String × SmtSort)} {t : Term} {τ : SmtSort}

/-- More commands before a term do not matter. -/
theorem mono (h : HasSort c Γ t τ) (hc : c ⊆ c') : HasSort c' Γ t τ := by
  induction h with
  | bool Γ b => exact .bool Γ b
  | int Γ n => exact .int Γ n
  | bound hx => exact .bound hx
  | const hx hdecl => exact .const hx (hc hdecl)
  | not _ ih => exact .not ih
  | neg _ ih => exact .neg ih
  | junction op _ ih => exact .junction op ih
  | binary hop _ _ iha ihb => exact .binary hop iha ihb
  | ite _ _ _ iht iha ihb => exact .ite iht iha ihb
  | quantified k hvars _ ih => exact .quantified k hvars ih
  | app hf hdecl hcount _ ih => exact .app hf (hc hdecl) hcount ih

theorem lookup_append_none {x : String} {Δ : List (String × SmtSort)}
    (h : (Γ ++ Δ).lookup x = none) : Γ.lookup x = none ∧ Δ.lookup x = none := by
  rw [List.lookup_append, Option.or_eq_none_iff] at h
  exact h

/-- A quantifier around a term does not matter, if its variable is no function, and a constant of the
same name has the same sort. -/
theorem weaken {x : String} {υ : SmtSort} {Δ Γ' : List (String × SmtSort)}
    (hfun : ∀ params result, Command.declareFun x params result ∉ c)
    (hconst : ∀ sort, Command.declareConst x sort ∈ c → sort = υ)
    (hΔ : ∀ sort, Δ.lookup x = some sort → sort = υ)
    (h : HasSort c Γ' t τ) (hΓ : Γ' = Γ ++ Δ) : HasSort c (Γ ++ (x, υ) :: Δ) t τ := by
  induction h generalizing Γ with
  | bool _ b => exact .bool _ b
  | int _ n => exact .int _ n
  | @bound _ y sort hy =>
    subst hΓ
    refine .bound ?_
    rw [List.lookup_append] at hy ⊢
    cases hfirst : Γ.lookup y with
    | some sort' =>
      rw [hfirst] at hy
      exact hy
    | none =>
      rw [hfirst, Option.none_or] at hy
      rw [Option.none_or, List.lookup_cons]
      split
      · next hyx =>
        -- `x` now shadows a variable of `Δ`, which has the same sort
        rw [beq_iff_eq.mp hyx] at hy
        rw [hΔ sort hy]
      · exact hy
  | @const _ y sort hy hdecl =>
    subst hΓ
    obtain ⟨hfirst, hlast⟩ := lookup_append_none hy
    by_cases hyx : y = x
    · -- a constant of this name is now read as the variable
      subst hyx
      rw [hconst sort hdecl]
      refine .bound ?_
      rw [List.lookup_append, hfirst, Option.none_or, List.lookup_cons_self]
    · refine .const ?_ hdecl
      rw [List.lookup_append, hfirst, Option.none_or, List.lookup_cons, beq_false_of_ne hyx]
      exact hlast
  | not _ ih => exact .not (ih hΓ)
  | neg _ ih => exact .neg (ih hΓ)
  | junction op _ ih => exact .junction op fun t ht => ih t ht hΓ
  | binary hop _ _ iha ihb => exact .binary hop (iha hΓ) (ihb hΓ)
  | ite _ _ _ iht iha ihb => exact .ite (iht hΓ) (iha hΓ) (ihb hΓ)
  | @quantified _ vars _ k hvars _ ih =>
    refine .quantified k hvars ?_
    rw [← List.append_assoc]
    exact ih (by rw [hΓ, List.append_assoc])
  | @app _ f _ _ _ hf hdecl hcount _ ih =>
    subst hΓ
    obtain ⟨hfirst, hlast⟩ := lookup_append_none hf
    refine .app ?_ hdecl hcount fun q hq => ih q hq rfl
    have hfx : f ≠ x := by
      rintro rfl
      exact hfun _ _ hdecl
    rw [List.lookup_append, hfirst, Option.none_or, List.lookup_cons, beq_false_of_ne hfx]
    exact hlast

/-- Nor do quantifiers whose variables do not occur in the term. -/
theorem strengthen {Δ Γ' : List (String × SmtSort)} (h : HasSort c Γ' t τ) (hΓ : Γ' = Γ ++ Δ)
    (hconsts : ∀ x ∈ t.consts, Δ.lookup x = none) : HasSort c Γ t τ := by
  induction h generalizing Γ with
  | bool _ b => exact .bool _ b
  | int _ n => exact .int _ n
  | @bound _ y sort hy =>
    subst hΓ
    have hnone : Δ.lookup y = none := by
      apply hconsts
      rw [Term.consts]
      exact List.mem_cons_self
    rw [List.lookup_append, hnone, Option.or_none] at hy
    exact .bound hy
  | const hy hdecl =>
    subst hΓ
    exact .const (lookup_append_none hy).1 hdecl
  | not _ ih =>
    rw [Term.consts] at hconsts
    exact .not (ih hΓ hconsts)
  | neg _ ih =>
    rw [Term.consts] at hconsts
    exact .neg (ih hΓ hconsts)
  | junction op _ ih =>
    rw [Term.consts] at hconsts
    exact .junction op fun t ht => ih t ht hΓ fun x hx =>
      hconsts x (Term.mem_constsList.mpr ⟨t, ht, hx⟩)
  | binary hop _ _ iha ihb =>
    rw [Term.consts] at hconsts
    exact .binary hop (iha hΓ fun x hx => hconsts x (List.mem_append_left _ hx))
      (ihb hΓ fun x hx => hconsts x (List.mem_append_right _ hx))
  | ite _ _ _ iht iha ihb =>
    rw [Term.consts] at hconsts
    exact .ite
      (iht hΓ fun x hx => hconsts x (List.mem_append_left _ (List.mem_append_left _ hx)))
      (iha hΓ fun x hx => hconsts x (List.mem_append_left _ (List.mem_append_right _ hx)))
      (ihb hΓ fun x hx => hconsts x (List.mem_append_right _ hx))
  | quantified k hvars _ ih =>
    rw [Term.consts] at hconsts
    exact .quantified k hvars (ih (by rw [hΓ, List.append_assoc]) hconsts)
  | app hf hdecl hcount _ ih =>
    subst hΓ
    rw [Term.consts] at hconsts
    refine .app (lookup_append_none hf).1 hdecl hcount fun q hq => ih q hq rfl fun x hx => ?_
    exact hconsts x (Term.mem_constsList.mpr ⟨q.1, (List.of_mem_zip hq).1, hx⟩)

end Term.HasSort

/-! ## Sorts and values -/

theorem BinOp.sort_apply {op : BinOp} {τ υ : SmtSort} (h : op.sort? τ = some υ) (J : Structure)
    (a b : Val) : (op.apply J a b).sort = υ := by
  cases op <;> cases τ <;> cases h <;> rfl

/-- The structure gives what is declared, and the variables around a term, values of their sorts. A
variable can hide a declared constant. -/
structure Structure.FitsSorts (J : Structure) (c : Script) (Γ : List (String × SmtSort)) : Prop where
  const : ∀ x τ, Γ.lookup x = none → Command.declareConst x τ ∈ c → (J.const x).sort = τ
  bound : ∀ x τ, Γ.lookup x = some τ → (J.const x).sort = τ
  fn : ∀ f params τ vs, Command.declareFun f params τ ∈ c → vs.map Val.sort = params →
    (J.fn f vs).sort = τ

namespace Term

variable {c : Script} {J J' : Structure} {Γ : List (String × SmtSort)}

/-- What holds of terms together with their sorts holds of the terms. -/
theorem forall_of_zip {P : Term → Prop} {ts : List Term} {params : List SmtSort}
    (hcount : ts.length = params.length) (h : ∀ q ∈ ts.zip params, P q.1) : ∀ t ∈ ts, P t := by
  intro t ht
  rw [← List.map_fst_zip (Nat.le_of_eq hcount)] at ht
  obtain ⟨q, hq, rfl⟩ := List.mem_map.mp ht
  exact h q hq

theorem sorts_evals {ts : List Term} {params : List SmtSort} (hcount : ts.length = params.length)
    (h : ∀ q ∈ ts.zip params, (q.1.eval J).sort = q.2) :
    (Term.evals ts J).map Val.sort = params := by
  have hpairs : (ts.zip params).map (fun q => (q.1.eval J).sort) = (ts.zip params).map Prod.snd :=
    List.map_congr_left h
  have hfst : (ts.zip params).map (fun q => (q.1.eval J).sort) =
      ((ts.zip params).map Prod.fst).map fun t => (t.eval J).sort := by
    rw [List.map_map]
    rfl
  rw [hfst, List.map_fst_zip (Nat.le_of_eq hcount),
    List.map_snd_zip (Nat.le_of_eq hcount.symm)] at hpairs
  rw [Term.evals_eq_map, List.map_map]
  exact hpairs

/-- **The value of a term has the sort of the term.** -/
theorem HasSort.sort_eval {t : Term} {τ : SmtSort} (h : HasSort c Γ t τ) (hJ : J.FitsSorts c Γ) :
    (t.eval J).sort = τ := by
  induction h with
  | bool | int | not | neg | junction | quantified =>
    rw [Term.eval]
    rfl
  | bound hx =>
    rw [Term.eval]
    exact hJ.bound _ _ hx
  | const hx hdecl =>
    rw [Term.eval]
    exact hJ.const _ _ hx hdecl
  | binary hop =>
    rw [Term.eval]
    exact BinOp.sort_apply hop ..
  | @ite _ t _ _ _ _ _ _ _ iha ihb =>
    rw [Term.eval]
    by_cases ht : (t.eval J).truth
    · rw [Val.select_of_true ht]
      exact iha hJ
    · rw [Val.select_of_false ht]
      exact ihb hJ
  | app _ hdecl hcount _ ih =>
    rw [Term.eval]
    exact hJ.fn _ _ _ _ hdecl (sorts_evals hcount fun q hq => ih q hq hJ)

end Term

/-- A relation between structures under the variables of quantifiers, which depends on what the
variables are looked up as and is kept when both structures change one of them, passes under a
quantifier. -/
theorem Structure.Quantified.congr_of {R : List (String × SmtSort) → Structure → Structure → Prop}
    (q : Quantifier)
    (hlookup : ∀ {Γ Γ' J J'}, R Γ J J' → (∀ x, Γ'.lookup x = Γ.lookup x) → R Γ' J J')
    (hupdate : ∀ {Γ J J'}, R Γ J J' →
      ∀ (x : String) (v : Val), R ((x, v.sort) :: Γ) (J.update x v) (J'.update x v))
    {P P' : Structure → Prop} {vars : List (String × SmtSort)} {Γ : List (String × SmtSort)}
    {J J' : Structure} (hnodup : (vars.map Prod.fst).Nodup)
    (hP : ∀ J J', R (vars ++ Γ) J J' → (P J ↔ P' J')) (h : R Γ J J') :
    Quantified q vars P J ↔ Quantified q vars P' J' := by
  induction vars generalizing Γ J J' with
  | nil => exact hP J J' h
  | cons var vars ih =>
    obtain ⟨x, sort⟩ := var
    rw [List.map_cons, List.nodup_cons] at hnodup
    -- the variables are different, so it does not matter which of them comes first
    have hfirst : ∀ y, ((x, sort) :: vars ++ Γ).lookup y =
        (vars ++ (x, sort) :: Γ).lookup y := by
      intro y
      rw [List.cons_append, List.lookup_cons, List.lookup_append, List.lookup_append,
        List.lookup_cons]
      by_cases hyx : y = x
      · have hnone : vars.lookup x = none := by
          rw [List.lookup_eq_none_iff]
          rintro ⟨z, υ⟩ hz
          rw [bne_iff_ne]
          rintro rfl
          exact hnodup.1 (List.mem_map.mpr ⟨_, hz, rfl⟩)
        rw [hyx, hnone, beq_self_eq_true]
        rfl
      · rw [beq_false_of_ne hyx]
    have hrest : ∀ v : Val, v.sort = sort → (Quantified q vars P (J.update x v) ↔
        Quantified q vars P' (J'.update x v)) := by
      rintro v rfl
      exact ih hnodup.2 (fun J J' h => hP J J' (hlookup h hfirst)) (hupdate h x v)
    cases q with
    | universal => exact forall_congr' fun v => forall_congr' fun hv => hrest v hv
    | existential => exact exists_congr fun v => and_congr_right fun hv => hrest v hv

/-- The structures agree on what is declared and on the variables around a term. If the first one
`fits`, the functions have to agree only on arguments of their sorts. -/
structure Structure.AgreeAfter (fits : Prop) (c : Script) (Γ : List (String × SmtSort))
    (J J' : Structure) : Prop where
  const : ∀ x τ, Command.declareConst x τ ∈ c → J.const x = J'.const x
  bound : ∀ x τ, Γ.lookup x = some τ → J.const x = J'.const x
  fn : ∀ f params τ vs, Command.declareFun f params τ ∈ c → (fits → vs.map Val.sort = params) →
    J.fn f vs = J'.fn f vs
  zeroQuot : J.zeroQuot = J'.zeroQuot
  sorted : fits → J.FitsSorts c Γ

namespace Structure.AgreeAfter

variable {fits : Prop} {c : Script} {Γ Γ' : List (String × SmtSort)} {J J' : Structure}

/-- Only what the variables are looked up as matters. -/
theorem of_lookup (h : AgreeAfter fits c Γ J J') (hΓ : ∀ x, Γ'.lookup x = Γ.lookup x) :
    AgreeAfter fits c Γ' J J' := by
  refine ⟨h.const, fun x τ hx => h.bound x τ ?_, h.fn, h.zeroQuot, fun hfits => ?_⟩
  · rw [← hΓ, hx]
  · obtain ⟨hconst, hbound, hfn⟩ := h.sorted hfits
    refine ⟨fun x τ hx => hconst x τ ?_, fun x τ hx => hbound x τ ?_, hfn⟩
    · rw [← hΓ, hx]
    · rw [← hΓ, hx]

theorem update (h : AgreeAfter fits c Γ J J') (x : String) (v : Val) :
    AgreeAfter fits c ((x, v.sort) :: Γ) (J.update x v) (J'.update x v) := by
  have hsame : ∀ y, J.const y = J'.const y → (J.update x v).const y = (J'.update x v).const y := by
    intro y hy
    by_cases hyx : y = x
    · rw [hyx, update_const_self, update_const_self]
    · rw [update_const_of_ne J hyx, update_const_of_ne J' hyx, hy]
  have hlookup : ∀ {y}, y ≠ x → ((x, v.sort) :: Γ).lookup y = Γ.lookup y := by
    intro y hyx
    rw [List.lookup_cons, beq_false_of_ne hyx]
  have hself : ((x, v.sort) :: Γ).lookup x = some v.sort := List.lookup_cons_self
  refine ⟨fun y τ hy => hsame y (h.const y τ hy), fun y τ hy => ?_, h.fn, h.zeroQuot,
    fun hfits => ⟨fun y τ hy hdecl => ?_, fun y τ hy => ?_, (h.sorted hfits).fn⟩⟩
  · by_cases hyx : y = x
    · rw [hyx, update_const_self, update_const_self]
    · rw [hlookup hyx] at hy
      exact hsame y (h.bound y τ hy)
  · have hyx : y ≠ x := by
      rintro rfl
      rw [hself] at hy
      cases hy
    rw [hlookup hyx] at hy
    rw [update_const_of_ne J hyx]
    exact (h.sorted hfits).const y τ hy hdecl
  · by_cases hyx : y = x
    · rw [hyx, hself] at hy
      rw [hyx, update_const_self]
      exact Option.some.inj hy
    · rw [hlookup hyx] at hy
      rw [update_const_of_ne J hyx]
      exact (h.sorted hfits).bound y τ hy

theorem quantified_congr (q : Quantifier) {P P' : Structure → Prop}
    {vars : List (String × SmtSort)} (hnodup : (vars.map Prod.fst).Nodup)
    (hP : ∀ J J', AgreeAfter fits c (vars ++ Γ) J J' → (P J ↔ P' J'))
    (h : AgreeAfter fits c Γ J J') : Quantified q vars P J ↔ Quantified q vars P' J' :=
  Quantified.congr_of (R := AgreeAfter fits c) q of_lookup update hnodup hP h

end Structure.AgreeAfter

/-- **Only what is declared counts.** A term that has a sort has the same value in structures that
agree on what is declared. -/
theorem Term.HasSort.eval_congr {fits : Prop} {c : Script} {Γ : List (String × SmtSort)} {t : Term}
    {τ : SmtSort} (h : Term.HasSort c Γ t τ) {J J' : Structure}
    (hagree : Structure.AgreeAfter fits c Γ J J') : t.eval J = t.eval J' := by
  induction h generalizing J J' with
  | bool | int => rw [Term.eval, Term.eval]
  | bound hx =>
    rw [Term.eval, Term.eval]
    exact hagree.bound _ _ hx
  | const _ hdecl =>
    rw [Term.eval, Term.eval]
    exact hagree.const _ _ hdecl
  | not _ ih => rw [Term.eval, Term.eval, ih hagree]
  | neg _ ih => rw [Term.eval, Term.eval, ih hagree]
  | junction op _ ih =>
    rw [Term.eval, Term.eval, Term.evals_eq_map, Term.evals_eq_map,
      List.map_congr_left fun t ht => ih t ht hagree]
  | @binary _ _ _ _ _ op _ _ _ iha ihb =>
    rw [Term.eval, Term.eval, iha hagree, ihb hagree]
    unfold BinOp.apply
    rw [hagree.zeroQuot]
  | ite _ _ _ iht iha ihb => rw [Term.eval, Term.eval, iht hagree, iha hagree, ihb hagree]
  | @quantified Γ vars t k hvars _ ih =>
    -- under the quantifier the structures agree on the bound names as well
    have hbody : ∀ J J', Structure.AgreeAfter fits c (vars ++ Γ) J J' →
        ((t.eval J).truth ↔ (t.eval J').truth) := by
      intro J J' hJ
      rw [ih hJ]
    rw [Term.eval, Term.eval, propext (hagree.quantified_congr k hvars hbody)]
  | @app _ f _ _ ts _ hdecl hcount hts ih =>
    have hevals : Term.evals ts J = Term.evals ts J' := by
      rw [Term.evals_eq_map, Term.evals_eq_map]
      exact List.map_congr_left (Term.forall_of_zip hcount fun q hq => ih q hq hagree)
    rw [Term.eval, Term.eval, ← hevals]
    -- functions have to agree at arguments of the declared sorts only
    refine hagree.fn _ _ _ _ hdecl fun hfits => Term.sorts_evals hcount fun q hq => ?_
    exact (hts q hq).sort_eval (hagree.sorted hfits)

/-! ## Well-formed scripts -/

namespace Script

variable {c c' : Script}

theorem declared_append (c c' : Script) : (c ++ c').declared = c.declared ++ c'.declared :=
  List.filterMap_append

theorem mem_declared {x : String} :
    x ∈ c.declared ↔ ∃ command ∈ c, command.declares? = some x := List.mem_filterMap

/-- A script goes on with a script, if that declares other symbols and its assertions are truth values
after the first. -/
theorem WellFormed.append (h : c.WellFormed) (hnodup : c'.declared.Nodup)
    (hdisjoint : ∀ x ∈ c.declared, x ∉ c'.declared)
    (hsorted : ∀ before t after, c' = before ++ .assert t :: after →
      Term.HasSort (c ++ before) [] t .bool) : (c ++ c').WellFormed := by
  constructor
  · rw [declared_append, List.nodup_append]
    refine ⟨h.nodup, hnodup, fun x hx y hy hxy => ?_⟩
    exact hdisjoint x hx (hxy ▸ hy)
  · intro before t after heq
    -- the assertion is in the first script or in the second
    rcases List.append_eq_append_iff.mp heq with ⟨rest, rfl, hrest⟩ | ⟨rest, hc, hrest⟩
    · exact hsorted rest t after hrest
    · cases rest with
      | nil =>
        rw [List.nil_append] at hrest
        rw [List.append_nil] at hc
        rw [← hc]
        have hlast := hsorted [] t after hrest.symm
        rwa [List.append_nil] at hlast
      | cons command rest =>
        obtain ⟨hcommand, -⟩ := List.cons.inj hrest
        exact h.sorted before t rest (by rw [hc, ← hcommand])

theorem wellFormed_nil : Script.WellFormed [] :=
  ⟨List.nodup_nil, fun before t after h => absurd h.symm (by simp)⟩

/-- Commands that declare nothing, among them assertions of truth values, can follow. -/
theorem WellFormed.append_undeclaring (h : c.WellFormed)
    (hnone : ∀ command ∈ c', command.declares? = none)
    (hsorted : ∀ t, Command.assert t ∈ c' → Term.HasSort c [] t .bool) : (c ++ c').WellFormed := by
  have hdeclared : Script.declared c' = [] := List.filterMap_eq_nil_iff.mpr hnone
  refine h.append ?_ ?_ fun before t after heq => ?_
  · rw [hdeclared]
    exact List.nodup_nil
  · rw [hdeclared]
    exact fun _ _ => List.not_mem_nil
  · have hmem : Command.assert t ∈ c' := by
      rw [heq]
      exact List.mem_append_right _ List.mem_cons_self
    exact (hsorted t hmem).mono fun _ hx => List.mem_append_left _ hx

/-- A symbol that is new can be declared. -/
theorem WellFormed.append_declaration (h : c.WellFormed) {command : Command} {x : String}
    (hx : command.declares? = some x) (hnew : x ∉ c.declared) : (c ++ [command]).WellFormed := by
  have hdeclared : Script.declared [command] = [x] := by
    rw [declared, List.filterMap_cons, hx, List.filterMap_nil]
  refine h.append ?_ (fun y hy hyx => ?_) fun before t after heq => ?_
  · rw [hdeclared]
    exact List.nodup_cons.mpr ⟨List.not_mem_nil, List.nodup_nil⟩
  · rw [hdeclared, List.mem_singleton] at hyx
    exact hnew (hyx ▸ hy)
  · have hmem : Command.assert t ∈ [command] := by
      rw [heq]
      exact List.mem_append_right _ List.mem_cons_self
    rw [← List.mem_singleton.mp hmem] at hx
    cases hx

end Script

end Contracts.Smt

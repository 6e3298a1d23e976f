import Contracts.Smt.Script
import Contracts.Proofs.Meaning

/-!
# The meaning of terms and scripts

A term has a truth value or an integer in a structure that interprets its symbols. Division is
Euclidean and the quotient by zero is open, as the standard has it. The truth values are
propositions, since quantifiers range over all integers.

A term depends on the constants that occur in it and on nothing else of the structure's constants
(`Term.eval_congr`). A script holds in a structure that gives the declared symbols values of their
sorts and makes every assertion true.
-/

set_option autoImplicit false

namespace Contracts.Smt

/-! ## Structures -/

/-- What a term stands for. -/
inductive Val where
  | bool (p : Prop)
  | int (n : Int)

namespace Val

/-- The proposition of a truth value. An integer is not true. -/
def truth : Val → Prop
  | .bool p => p
  | .int _ => False

/-- The integer, and zero for a truth value. -/
def toInt : Val → Int
  | .int n => n
  | .bool _ => 0

def sort : Val → SmtSort
  | .bool _ => .bool
  | .int _ => .int

@[simp] theorem truth_bool (p : Prop) : (bool p).truth ↔ p := Iff.rfl

@[simp] theorem toInt_int (n : Int) : (int n).toInt = n := rfl

theorem eq_int_of_sort {v : Val} (h : v.sort = .int) : v = .int v.toInt := by
  cases v with
  | bool p => cases h
  | int n => rfl

/-- The first value where the proposition is true, the second elsewhere. -/
noncomputable def select (p : Prop) (a b : Val) : Val := open Classical in if p then a else b

theorem select_of_true {p : Prop} (h : p) (a b : Val) : select p a b = a := if_pos h

theorem select_of_false {p : Prop} (h : ¬p) (a b : Val) : select p a b = b := if_neg h

theorem select_int (p : Prop) (m n : Int) :
    select p (.int m) (.int n) = .int (Contracts.select p m n) := by
  by_cases h : p
  · rw [select_of_true h, Contracts.select_of_true h]
  · rw [select_of_false h, Contracts.select_of_false h]

end Val

/-- An interpretation of the symbols of a script. -/
structure Structure where
  const : String → Val
  fn : String → List Val → Val
  /-- The quotient of a number by zero. -/
  zeroQuot : Int → Int

namespace Structure

/-- The structure with one constant changed. -/
def update (J : Structure) (x : String) (v : Val) : Structure :=
  { J with const := Function.update J.const x v }

@[simp] theorem update_fn (J : Structure) (x : String) (v : Val) : (J.update x v).fn = J.fn := rfl

@[simp] theorem update_zeroQuot (J : Structure) (x : String) (v : Val) :
    (J.update x v).zeroQuot = J.zeroQuot := rfl

@[simp] theorem update_const_self (J : Structure) (x : String) (v : Val) :
    (J.update x v).const x = v := Function.update_self ..

theorem update_const_of_ne (J : Structure) {x y : String} (h : y ≠ x) (v : Val) :
    (J.update x v).const y = J.const y := Function.update_of_ne h ..

/-- Truth for all, or for some, values of the variables. -/
def Quantified (q : Quantifier) :
    List (String × SmtSort) → (Structure → Prop) → Structure → Prop
  | [], P, J => P J
  | (x, sort) :: vars, P, J =>
    match q with
    | .universal => ∀ v : Val, v.sort = sort → Quantified q vars P (J.update x v)
    | .existential => ∃ v : Val, v.sort = sort ∧ Quantified q vars P (J.update x v)

/-- One integer variable. -/
theorem quantified_int (q : Quantifier) (x : String) (P : Structure → Prop) (J : Structure) :
    Quantified q [(x, .int)] P J ↔ q.Holds fun n => P (J.update x (.int n)) := by
  cases q with
  | universal =>
    simp only [Quantified, Quantifier.Holds]
    constructor
    · intro h n
      exact h (.int n) rfl
    · intro h v hv
      rw [Val.eq_int_of_sort hv]
      exact h v.toInt
  | existential =>
    simp only [Quantified, Quantifier.Holds]
    constructor
    · rintro ⟨v, hv, h⟩
      rw [Val.eq_int_of_sort hv] at h
      exact ⟨v.toInt, h⟩
    · rintro ⟨n, h⟩
      exact ⟨.int n, rfl, h⟩

end Structure

/-! ## Terms -/

/-- An operation on two values. -/
def BinOp.apply (J : Structure) (op : BinOp) (a b : Val) : Val :=
  match op with
  | .implies => .bool (a.truth → b.truth)
  | .eq => .bool (a = b)
  | .add => .int (a.toInt + b.toInt)
  | .sub => .int (a.toInt - b.toInt)
  | .mul => .int (a.toInt * b.toInt)
  | .div => .int (if b.toInt = 0 then J.zeroQuot a.toInt else a.toInt / b.toInt)
  | .lt => .bool (a.toInt < b.toInt)
  | .le => .bool (a.toInt ≤ b.toInt)
  | .gt => .bool (b.toInt < a.toInt)
  | .ge => .bool (b.toInt ≤ a.toInt)

/-- Whether all, or some, of the values are true. -/
def Junction.Holds : Junction → List Val → Prop
  | .and, vs => ∀ v ∈ vs, v.truth
  | .or, vs => ∃ v ∈ vs, v.truth

mutual

/-- The value of a term. -/
noncomputable def Term.eval : Term → Structure → Val
  | .bool b, _ => .bool (b = true)
  | .int n, _ => .int n
  | .const x, J => J.const x
  | .not t, J => .bool ¬(t.eval J).truth
  | .neg t, J => .int (-(t.eval J).toInt)
  | .junction op ts, J => .bool (op.Holds (Term.evals ts J))
  | .binary op a b, J => op.apply J (a.eval J) (b.eval J)
  | .ite c a b, J => .select (c.eval J).truth (a.eval J) (b.eval J)
  | .quantified q vars t, J => .bool (Structure.Quantified q vars (fun J' => (t.eval J').truth) J)
  | .app f ts, J => J.fn f (Term.evals ts J)

/-- The values of several terms. -/
noncomputable def Term.evals : List Term → Structure → List Val
  | [], _ => []
  | t :: ts, J => t.eval J :: Term.evals ts J

end

/-- Whether a term is true. -/
def Term.Holds (J : Structure) (t : Term) : Prop := (t.eval J).truth

theorem Term.evals_eq_map (ts : List Term) (J : Structure) :
    Term.evals ts J = ts.map fun t => t.eval J := by
  induction ts with
  | nil => rw [Term.evals, List.map_nil]
  | cons t ts ih => rw [Term.evals, List.map_cons, ih]

theorem Term.eval_and (a b : Term) (J : Structure) :
    (Term.and a b).eval J = .bool ((a.eval J).truth ∧ (b.eval J).truth) := by
  simp [Term.and, Term.eval, Term.evals, Junction.Holds]

theorem Term.eval_or (a b : Term) (J : Structure) :
    (Term.or a b).eval J = .bool ((a.eval J).truth ∨ (b.eval J).truth) := by
  simp [Term.or, Term.eval, Term.evals, Junction.Holds]

theorem Term.eval_implies (a b : Term) (J : Structure) :
    (Term.implies a b).eval J = .bool ((a.eval J).truth → (b.eval J).truth) := by
  simp [Term.implies, Term.eval, BinOp.apply]

/-! ## The constants of a term -/

mutual

/-- The names that occur as constants, inside quantifiers too. -/
def Term.consts : Term → List String
  | .bool _ | .int _ => []
  | .const x => [x]
  | .not t | .neg t => t.consts
  | .junction _ ts | .app _ ts => Term.constsList ts
  | .binary _ a b => a.consts ++ b.consts
  | .ite a b c => a.consts ++ b.consts ++ c.consts
  | .quantified _ _ t => t.consts

def Term.constsList : List Term → List String
  | [] => []
  | t :: ts => t.consts ++ Term.constsList ts

end

mutual

theorem Term.mentions_iff (names : List String) :
    ∀ t : Term, t.mentions names = true ↔ ∃ x ∈ t.consts, x ∈ names
  | .bool _ | .int _ => by simp [Term.mentions, Term.consts]
  | .const x => by simp [Term.mentions, Term.consts]
  | .not t | .neg t => by
    rw [Term.mentions, Term.consts]
    exact Term.mentions_iff names t
  | .junction _ ts | .app _ ts => by
    rw [Term.mentions, Term.consts]
    exact Term.anyMentions_iff names ts
  | .binary _ a b => by
    simp only [Term.mentions, Term.consts, Bool.or_eq_true, Term.mentions_iff names a,
      Term.mentions_iff names b, List.mem_append, or_and_right, exists_or]
  | .ite a b c => by
    simp only [Term.mentions, Term.consts, Bool.or_eq_true, Term.mentions_iff names a,
      Term.mentions_iff names b, Term.mentions_iff names c, List.mem_append, or_and_right,
      exists_or]
  | .quantified _ _ t => by
    rw [Term.mentions, Term.consts]
    exact Term.mentions_iff names t

theorem Term.anyMentions_iff (names : List String) :
    ∀ ts : List Term, Term.anyMentions names ts = true ↔ ∃ x ∈ Term.constsList ts, x ∈ names
  | [] => by simp [Term.anyMentions, Term.constsList]
  | t :: ts => by
    simp only [Term.anyMentions, Term.constsList, Bool.or_eq_true, Term.mentions_iff names t,
      Term.anyMentions_iff names ts, List.mem_append, or_and_right, exists_or]

end

theorem Term.mem_constsList {x : String} {ts : List Term} :
    x ∈ Term.constsList ts ↔ ∃ t ∈ ts, x ∈ t.consts := by
  induction ts with
  | nil => simp only [Term.constsList, List.not_mem_nil, false_and, exists_false]
  | cons t ts ih =>
    simp only [Term.constsList, List.mem_append, ih, List.mem_cons, or_and_right, exists_or,
      exists_eq_left]

/-- Two structures that differ in constants outside a list only. -/
structure Structure.AgreeOn (xs : List String) (J J' : Structure) : Prop where
  const : ∀ x ∈ xs, J.const x = J'.const x
  fn : J.fn = J'.fn
  zeroQuot : J.zeroQuot = J'.zeroQuot

theorem Structure.AgreeOn.mono {xs ys : List String} {J J' : Structure}
    (h : Structure.AgreeOn ys J J') (hsub : ∀ x ∈ xs, x ∈ ys) : Structure.AgreeOn xs J J' :=
  ⟨fun x hx => h.const x (hsub x hx), h.fn, h.zeroQuot⟩

theorem Structure.AgreeOn.update {xs : List String} {J J' : Structure}
    (h : Structure.AgreeOn xs J J') (x : String) (v : Val) :
    Structure.AgreeOn xs (J.update x v) (J'.update x v) := by
  refine ⟨fun y hy => ?_, h.fn, h.zeroQuot⟩
  by_cases hyx : y = x
  · rw [hyx, update_const_self, update_const_self]
  · rw [update_const_of_ne J hyx, update_const_of_ne J' hyx, h.const y hy]

/-- A structure with a constant changed agrees with the old one elsewhere. -/
theorem Structure.agreeOn_update {xs : List String} (J : Structure) {x : String} (hx : x ∉ xs)
    (v : Val) : Structure.AgreeOn xs (J.update x v) J := by
  refine ⟨fun y hy => update_const_of_ne J ?_ v, rfl, rfl⟩
  rintro rfl
  exact hx hy

theorem Structure.quantified_congr (q : Quantifier) {xs : List String}
    {P : Structure → Prop} (hP : ∀ J J', Structure.AgreeOn xs J J' → (P J ↔ P J')) :
    ∀ (vars : List (String × SmtSort)) {J J' : Structure}, Structure.AgreeOn xs J J' →
      (Structure.Quantified q vars P J ↔ Structure.Quantified q vars P J')
  | [], J, J', h => hP J J' h
  | (x, sort) :: vars, J, J', h => by
    cases q with
    | universal =>
      exact forall_congr' fun v => imp_congr_right fun _ =>
        Structure.quantified_congr .universal hP vars (h.update x v)
    | existential =>
      exact exists_congr fun v => and_congr_right fun _ =>
        Structure.quantified_congr .existential hP vars (h.update x v)

mutual

/-- Only the constants that occur in a term count. -/
theorem Term.eval_congr : ∀ {t : Term} {J J' : Structure}, Structure.AgreeOn t.consts J J' →
    t.eval J = t.eval J'
  | .bool _, _, _, _ | .int _, _, _, _ => by simp only [Term.eval]
  | .const x, J, J', h => by
    simp only [Term.eval]
    exact h.const x List.mem_cons_self
  | .not t, J, J', h => by
    simp only [Term.eval]
    rw [Term.eval_congr (t := t) h]
  | .neg t, J, J', h => by
    simp only [Term.eval]
    rw [Term.eval_congr (t := t) h]
  | .junction _ ts, J, J', h => by
    have hts : Term.evals ts J = Term.evals ts J' := Term.evals_congr h
    simp only [Term.eval]
    rw [hts]
  | .binary op a b, J, J', h => by
    have ha : a.eval J = a.eval J' := Term.eval_congr (h.mono fun x hx => List.mem_append_left _ hx)
    have hb : b.eval J = b.eval J' := Term.eval_congr
      (h.mono fun x hx => List.mem_append_right _ hx)
    simp only [Term.eval]
    rw [ha, hb]
    unfold BinOp.apply
    rw [h.zeroQuot]
  | .ite a b c, J, J', h => by
    have ha : a.eval J = a.eval J' := Term.eval_congr
      (h.mono fun x hx => List.mem_append_left _ (List.mem_append_left _ hx))
    have hb : b.eval J = b.eval J' := Term.eval_congr
      (h.mono fun x hx => List.mem_append_left _ (List.mem_append_right _ hx))
    have hc : c.eval J = c.eval J' := Term.eval_congr
      (h.mono fun x hx => List.mem_append_right _ hx)
    simp only [Term.eval]
    rw [ha, hb, hc]
  | .quantified q vars t, J, J', h => by
    simp only [Term.eval]
    -- under the quantifier the structures are other ones, which agree on the bound names too
    have hbody : ∀ J J' : Structure, Structure.AgreeOn t.consts J J' →
        ((t.eval J).truth ↔ (t.eval J').truth) := by
      intro J J' h
      rw [Term.eval_congr h]
    rw [propext (Structure.quantified_congr q hbody vars h)]
  | .app f ts, J, J', h => by
    have hts : Term.evals ts J = Term.evals ts J' := Term.evals_congr h
    simp only [Term.eval]
    rw [hts, h.fn]

theorem Term.evals_congr : ∀ {ts : List Term} {J J' : Structure},
    Structure.AgreeOn (Term.constsList ts) J J' → Term.evals ts J = Term.evals ts J'
  | [], _, _, _ => by simp only [Term.evals]
  | t :: ts, J, J', h => by
    have ht : t.eval J = t.eval J' := Term.eval_congr
      (h.mono fun x hx => List.mem_append_left _ hx)
    have hts : Term.evals ts J = Term.evals ts J' := Term.evals_congr
      (h.mono fun x hx => List.mem_append_right _ hx)
    simp only [Term.evals]
    rw [ht, hts]

end

/-! ## Scripts -/

/-- The structure gives the symbol that a command declares values of its sort. -/
def Structure.Respects (J : Structure) : Command → Prop
  | .declareConst x sort => (J.const x).sort = sort
  | .declareFun f params result =>
    ∀ vs : List Val, vs.map Val.sort = params → (J.fn f vs).sort = result
  | _ => True

/-- The structure respects the declarations of a script and makes its assertions true. -/
def Structure.Satisfies (J : Structure) (s : Script) : Prop :=
  (∀ c ∈ s, J.Respects c) ∧ ∀ t, Command.assert t ∈ s → t.Holds J

/-- No structure satisfies the script. -/
def Script.Unsat (s : Script) : Prop := ∀ J : Structure, ¬J.Satisfies s

end Contracts.Smt

import Contracts.Syntax.Names
import Contracts.Word
import Mathlib.Logic.Function.Basic

/-!
# The meaning of predicates

Truth is over the unbounded integers. A name stands for an integer or for an array; the type of
arrays is a parameter `α`, because an execution gives a finite map of cells where a query gives any
function on the integers. Quantifiers range over all integers, division truncates toward zero, and
what is left open (the quotient by zero, called functions, formulas) is a field of `Interpretation`.

Nothing is undefined: an array read as a number counts as zero, and so does a cell of a number.
`Expr.Kinded` and `Pred.Kinded` single out the expressions and predicates in which neither happens.
A quantifier makes its own name an integer in its body and nowhere else, so kinds are scoped like
names.
-/

set_option autoImplicit false

namespace Contracts

/-! ## Data and interpretations -/

/-- What a name stands for. -/
inductive Datum (α : Type) where
  | int (n : Int)
  | array (a : α)

namespace Datum

variable {α : Type}

/-- The number, and zero for an array. -/
def toInt : Datum α → Int
  | .int n => n
  | .array _ => 0

@[simp] theorem toInt_int (n : Int) : (int n : Datum α).toInt = n := rfl

/-- The kind of a datum. -/
def type : Datum α → VarType
  | .int _ => .int
  | .array _ => .array

theorem eq_int_toInt {d : Datum α} (h : d.type = .int) : d = .int d.toInt := by
  cases d with
  | int n => rfl
  | array a => cases h

end Datum

/-- What is left open by the syntax. -/
structure Interpretation (α : Type) where
  /-- The cell of an array at an index. -/
  cell : α → Int → Int
  length : α → Int
  /-- The value of a call. -/
  fn : String → List (Datum α) → Int
  /-- The truth of a named formula. -/
  formula : String → List (Datum α) → Prop
  /-- The quotient of a number by zero. -/
  zeroQuot : Int → Int

/-- What each name stands for. -/
abbrev Valuation (α : Type) := String → Datum α

namespace Interpretation

variable {α : Type}

/-- An operation on numbers. -/
def arith (M : Interpretation α) (op : ArithOp) (a b : Int) : Int :=
  if op = .div ∧ b = 0 then M.zeroQuot a else op.onInt a b

/-- Where the operation on 64-bit numbers has a result, it is that of the integers. -/
theorem arith_of_onWord? (M : Interpretation α) {op : ArithOp} {a b v : Int64}
    (h : op.onWord? a b = some v) : M.arith op a.toInt b.toInt = v.toInt := by
  unfold ArithOp.onWord? at h
  split at h
  · cases h
  · next hz =>
    have hb : ¬(op = .div ∧ b.toInt = 0) := by
      rintro ⟨hop, hb⟩
      exact hz ⟨hop, Int64.toInt_inj.mp hb⟩
    rw [arith, if_neg hb, toInt_of_word? h]

/-- A cell of what a name stands for. -/
def read (M : Interpretation α) : Datum α → Int → Int
  | .array a, i => M.cell a i
  | .int _, _ => 0

/-- A call; `length` of an array is the array's own. -/
def call (M : Interpretation α) (f : String) (args : List (Datum α)) : Int :=
  match f, args with
  | "length", [.array a] => M.length a
  | _, _ => M.fn f args

@[simp] theorem call_length (M : Interpretation α) (a : α) :
    M.call "length" [.array a] = M.length a := rfl

theorem call_ints (M : Interpretation α) (f : String) (ns : List Int) :
    M.call f (ns.map .int) = M.fn f (ns.map .int) := by
  unfold call
  split
  · next h => cases ns <;> simp at h
  · rfl

end Interpretation

/-! ## Values and truth -/

/-- The first number where the proposition is true, the second elsewhere. -/
noncomputable def select (p : Prop) (a b : Int) : Int := open Classical in if p then a else b

@[simp] theorem select_of_true {p : Prop} (h : p) (a b : Int) : select p a b = a := if_pos h

@[simp] theorem select_of_false {p : Prop} (h : ¬p) (a b : Int) : select p a b = b := if_neg h

@[simp] theorem select_self (p : Prop) (a : Int) : select p a a = a := ite_self a

/-- An argument: a bare name is whatever it stands for, any other expression its value. -/
def Expr.datum {α : Type} (e : Expr) (ρ : Valuation α) (value : Int) : Datum α :=
  match e with
  | .var x => ρ x
  | _ => .int value

mutual

/-- The value of an expression. -/
noncomputable def Expr.value {α : Type} (M : Interpretation α) : Expr → Valuation α → Int
  | .const n, _ => n.toInt
  | .var x, ρ => (ρ x).toInt
  | .neg e, ρ => -e.value M ρ
  | .binary op a b, ρ => M.arith op (a.value M ρ) (b.value M ρ)
  | .read a i, ρ => M.read (ρ a) (i.value M ρ)
  | .call f args, ρ => M.call f (Expr.data M args ρ)
  | .cond p a b, ρ => select (p.Holds M ρ) (a.value M ρ) (b.value M ρ)

/-- What the arguments of a call or of a formula are. -/
noncomputable def Expr.data {α : Type} (M : Interpretation α) :
    List Expr → Valuation α → List (Datum α)
  | [], _ => []
  | e :: es, ρ => e.datum ρ (e.value M ρ) :: Expr.data M es ρ

/-- Whether a predicate is true. -/
noncomputable def Pred.Holds {α : Type} (M : Interpretation α) : Pred → Valuation α → Prop
  | .bool b, _ => b = true
  | .compare op a b, ρ => op.holds (a.value M ρ) (b.value M ρ) = true
  | .not p, ρ => ¬p.Holds M ρ
  | .and p q, ρ => p.Holds M ρ ∧ q.Holds M ρ
  | .or p q, ρ => p.Holds M ρ ∨ q.Holds M ρ
  | .implies p q, ρ => p.Holds M ρ → q.Holds M ρ
  | .paren p, ρ => p.Holds M ρ
  | .quantified .universal x p, ρ => ∀ n : Int, p.Holds M (Function.update ρ x.name (.int n))
  | .quantified .existential x p, ρ => ∃ n : Int, p.Holds M (Function.update ρ x.name (.int n))
  | .formula f args, ρ => M.formula f (Expr.data M args ρ)

end

/-- The truth of a quantified predicate from that of its body for each number. -/
def Quantifier.Holds : Quantifier → (Int → Prop) → Prop
  | .universal, p => ∀ n, p n
  | .existential, p => ∃ n, p n

theorem Quantifier.holds_congr (q : Quantifier) {p r : Int → Prop} (h : ∀ n, p n ↔ r n) :
    q.Holds p ↔ q.Holds r := by
  cases q with
  | universal => exact forall_congr' h
  | existential => exact exists_congr h

section

variable {α : Type} {M : Interpretation α}

/-- Both quantifiers in one equation. -/
theorem Pred.holds_quantified (q : Quantifier) (x : Param) (p : Pred) (ρ : Valuation α) :
    (Pred.quantified q x p).Holds M ρ ↔
      q.Holds fun n => p.Holds M (Function.update ρ x.name (.int n)) := by
  cases q <;> simp only [Pred.Holds, Quantifier.Holds]

/-- A name that stands for a number is passed as that number, like any other expression. -/
theorem Expr.datum_eq_int {e : Expr} {ρ : Valuation α}
    (h : ∀ x, e = .var x → (ρ x).type = .int) :
    e.datum ρ (e.value M ρ) = .int (e.value M ρ) := by
  cases e with
  | var x =>
    simp only [Expr.datum, Expr.value]
    exact Datum.eq_int_toInt (h x rfl)
  | _ => rfl

end

/-! ## Only the free names count -/

mutual

theorem Expr.value_congr {α : Type} (M : Interpretation α) : ∀ (e : Expr) {ρ ρ' : Valuation α},
    (∀ x ∈ e.free, ρ x = ρ' x) → e.value M ρ = e.value M ρ'
  | .const _, _, _, _ => by simp only [Expr.value]
  | .var x, _, _, h => by
    simp only [Expr.value]
    rw [h x (by simp only [Expr.free, List.mem_singleton])]
  | .neg e, _, _, h => by
    simp only [Expr.value]
    rw [Expr.value_congr M e h]
  | .binary _ a b, _, _, h => by
    simp only [Expr.free, List.mem_append] at h
    simp only [Expr.value]
    rw [Expr.value_congr M a fun x hx => h x (.inl hx),
      Expr.value_congr M b fun x hx => h x (.inr hx)]
  | .read a i, _, _, h => by
    simp only [Expr.free, List.mem_cons] at h
    simp only [Expr.value]
    rw [h a (.inl rfl), Expr.value_congr M i fun x hx => h x (.inr hx)]
  | .call _ args, _, _, h => by
    simp only [Expr.value]
    rw [Expr.data_congr M args h]
  | .cond p a b, _, _, h => by
    simp only [Expr.free, List.mem_append] at h
    simp only [Expr.value]
    rw [propext (Pred.holds_congr M p fun x hx => h x (.inl (.inl hx))),
      Expr.value_congr M a fun x hx => h x (.inl (.inr hx)),
      Expr.value_congr M b fun x hx => h x (.inr hx)]

theorem Expr.data_congr {α : Type} (M : Interpretation α) : ∀ (es : List Expr) {ρ ρ' : Valuation α},
    (∀ x ∈ Expr.freeList es, ρ x = ρ' x) → Expr.data M es ρ = Expr.data M es ρ'
  | [], _, _, _ => by simp only [Expr.data]
  | e :: es, ρ, ρ', h => by
    simp only [Expr.freeList, List.mem_append] at h
    have hv := Expr.value_congr M e fun x hx => h x (.inl hx)
    have hd : e.datum ρ (e.value M ρ) = e.datum ρ' (e.value M ρ') := by
      cases e with
      | var x => exact h x (.inl (by simp only [Expr.free, List.mem_singleton]))
      | _ => simp only [Expr.datum, hv]
    simp only [Expr.data]
    rw [hd, Expr.data_congr M es fun x hx => h x (.inr hx)]

theorem Pred.holds_congr {α : Type} (M : Interpretation α) : ∀ (p : Pred) {ρ ρ' : Valuation α},
    (∀ x ∈ p.free, ρ x = ρ' x) → (p.Holds M ρ ↔ p.Holds M ρ')
  | .bool _, _, _, _ => by simp only [Pred.Holds]
  | .compare _ a b, _, _, h => by
    simp only [Pred.free, List.mem_append] at h
    simp only [Pred.Holds]
    rw [Expr.value_congr M a fun x hx => h x (.inl hx),
      Expr.value_congr M b fun x hx => h x (.inr hx)]
  | .not p, _, _, h => by
    simp only [Pred.Holds]
    rw [Pred.holds_congr M p h]
  | .and p q, _, _, h => by
    simp only [Pred.free, List.mem_append] at h
    simp only [Pred.Holds]
    rw [Pred.holds_congr M p fun x hx => h x (.inl hx),
      Pred.holds_congr M q fun x hx => h x (.inr hx)]
  | .or p q, _, _, h => by
    simp only [Pred.free, List.mem_append] at h
    simp only [Pred.Holds]
    rw [Pred.holds_congr M p fun x hx => h x (.inl hx),
      Pred.holds_congr M q fun x hx => h x (.inr hx)]
  | .implies p q, _, _, h => by
    simp only [Pred.free, List.mem_append] at h
    simp only [Pred.Holds]
    rw [Pred.holds_congr M p fun x hx => h x (.inl hx),
      Pred.holds_congr M q fun x hx => h x (.inr hx)]
  | .paren p, _, _, h => by
    simp only [Pred.Holds]
    rw [Pred.holds_congr M p h]
  | .quantified q x p, ρ, ρ', h => by
    rw [Pred.holds_quantified, Pred.holds_quantified]
    refine q.holds_congr fun n => Pred.holds_congr M p fun y hy => ?_
    by_cases hyx : y = x.name
    · subst hyx
      rw [Function.update_self, Function.update_self]
    · rw [Function.update_of_ne hyx, Function.update_of_ne hyx]
      exact h y (by simp only [Pred.free, List.mem_filter, bne_iff_ne]; exact ⟨hy, hyx⟩)
  | .formula _ args, _, _, h => by
    simp only [Pred.Holds]
    rw [Expr.data_congr M args h]

end

theorem Expr.value_update_of_not_free {α : Type} (M : Interpretation α) {e : Expr} {x : String}
    (h : x ∉ e.free) (ρ : Valuation α) (d : Datum α) :
    e.value M (Function.update ρ x d) = e.value M ρ := by
  refine Expr.value_congr M e fun y hy => ?_
  rw [Function.update_of_ne]
  rintro rfl
  exact h hy

/-! ## Kinds -/

/-- Which names are numbers and which are arrays. -/
abbrev Kinds := String → VarType

/-- Each name stands for a datum of its kind. -/
def Valuation.HasKinds {α : Type} (ρ : Valuation α) (K : Kinds) : Prop := ∀ x, (ρ x).type = K x

theorem Valuation.HasKinds.update {α : Type} {ρ : Valuation α} {K : Kinds} (h : ρ.HasKinds K)
    (x : String) (n : Int) :
    Valuation.HasKinds (Function.update ρ x (.int n)) (Function.update K x .int) := by
  intro y
  by_cases hyx : y = x
  · subst hyx
    rw [Function.update_self, Function.update_self]
    rfl
  · rw [Function.update_of_ne hyx, Function.update_of_ne hyx]
    exact h y

mutual

/-- Names are used as numbers where a number is needed and as arrays where a cell is read. -/
def Expr.Kinded : Expr → Kinds → Prop
  | .const _, _ => True
  | .var x, K => K x = .int
  | .neg e, K => e.Kinded K
  | .binary _ a b, K => a.Kinded K ∧ b.Kinded K
  | .read a i, K => K a = .array ∧ i.Kinded K
  | .call _ args, K => Expr.KindedArgs args K
  | .cond p a b, K => p.Kinded K ∧ a.Kinded K ∧ b.Kinded K

/-- The same for arguments, where a bare name can be of either kind. -/
def Expr.KindedArgs : List Expr → Kinds → Prop
  | [], _ => True
  | e :: es, K => ((∃ x, e = .var x) ∨ e.Kinded K) ∧ Expr.KindedArgs es K

def Pred.Kinded : Pred → Kinds → Prop
  | .bool _, _ => True
  | .compare _ a b, K => a.Kinded K ∧ b.Kinded K
  | .not p, K | .paren p, K => p.Kinded K
  | .and p q, K | .or p q, K | .implies p q, K => p.Kinded K ∧ q.Kinded K
  | .quantified _ x p, K => p.Kinded (Function.update K x.name .int)
  | .formula _ args, K => Expr.KindedArgs args K

end

mutual

/-- Kinds, too, matter for the free names only. -/
theorem Expr.Kinded.congr : ∀ {e : Expr} {K K' : Kinds},
    e.Kinded K → (∀ x ∈ e.free, K x = K' x) → e.Kinded K'
  | .const _, _, _, _, _ => by simp only [Expr.Kinded]
  | .var x, _, _, hk, h => by
    simp only [Expr.Kinded] at hk ⊢
    rw [← h x (by simp only [Expr.free, List.mem_singleton]), hk]
  | .neg _, _, _, hk, h => by
    simp only [Expr.Kinded] at hk ⊢
    exact hk.congr h
  | .binary .., _, _, hk, h => by
    simp only [Expr.free, List.mem_append] at h
    simp only [Expr.Kinded] at hk ⊢
    exact ⟨hk.1.congr fun x hx => h x (.inl hx), hk.2.congr fun x hx => h x (.inr hx)⟩
  | .read a _, _, _, hk, h => by
    simp only [Expr.free, List.mem_cons] at h
    simp only [Expr.Kinded] at hk ⊢
    exact ⟨by rw [← h a (.inl rfl), hk.1], hk.2.congr fun x hx => h x (.inr hx)⟩
  | .call .., _, _, hk, h => by
    simp only [Expr.Kinded] at hk ⊢
    exact Expr.KindedArgs.congr hk h
  | .cond .., _, _, hk, h => by
    simp only [Expr.free, List.mem_append] at h
    simp only [Expr.Kinded] at hk ⊢
    exact ⟨hk.1.congr fun x hx => h x (.inl (.inl hx)),
      hk.2.1.congr fun x hx => h x (.inl (.inr hx)), hk.2.2.congr fun x hx => h x (.inr hx)⟩

theorem Expr.KindedArgs.congr : ∀ {es : List Expr} {K K' : Kinds},
    Expr.KindedArgs es K → (∀ x ∈ Expr.freeList es, K x = K' x) → Expr.KindedArgs es K'
  | [], _, _, _, _ => by simp only [Expr.KindedArgs]
  | _ :: _, _, _, hk, h => by
    simp only [Expr.freeList, List.mem_append] at h
    simp only [Expr.KindedArgs] at hk ⊢
    refine ⟨?_, Expr.KindedArgs.congr hk.2 fun x hx => h x (.inr hx)⟩
    rcases hk.1 with hv | hk
    · exact .inl hv
    · exact .inr (hk.congr fun x hx => h x (.inl hx))

theorem Pred.Kinded.congr : ∀ {p : Pred} {K K' : Kinds},
    p.Kinded K → (∀ x ∈ p.free, K x = K' x) → p.Kinded K'
  | .bool _, _, _, _, _ => by simp only [Pred.Kinded]
  | .compare .., _, _, hk, h => by
    simp only [Pred.free, List.mem_append] at h
    simp only [Pred.Kinded] at hk ⊢
    exact ⟨hk.1.congr fun x hx => h x (.inl hx), hk.2.congr fun x hx => h x (.inr hx)⟩
  | .not _, _, _, hk, h | .paren _, _, _, hk, h => by
    simp only [Pred.Kinded] at hk ⊢
    exact hk.congr h
  | .and .., _, _, hk, h | .or .., _, _, hk, h | .implies .., _, _, hk, h => by
    simp only [Pred.free, List.mem_append] at h
    simp only [Pred.Kinded] at hk ⊢
    exact ⟨hk.1.congr fun x hx => h x (.inl hx), hk.2.congr fun x hx => h x (.inr hx)⟩
  | .quantified _ z _, _, _, hk, h => by
    simp only [Pred.Kinded] at hk ⊢
    refine hk.congr fun x hx => ?_
    by_cases hxz : x = z.name
    · subst hxz
      rw [Function.update_self, Function.update_self]
    · rw [Function.update_of_ne hxz, Function.update_of_ne hxz]
      exact h x (by simp only [Pred.free, List.mem_filter, bne_iff_ne]; exact ⟨hx, hxz⟩)
  | .formula .., _, _, hk, h => by
    simp only [Pred.Kinded] at hk ⊢
    exact Expr.KindedArgs.congr hk h

end

theorem Expr.Kinded.update {e : Expr} {K : Kinds} (hk : e.Kinded K) {x : String}
    (hx : x ∉ e.free) (t : VarType) : e.Kinded (Function.update K x t) := by
  refine hk.congr fun y hy => ?_
  rw [Function.update_of_ne]
  rintro rfl
  exact hx hy

theorem Pred.Kinded.update {p : Pred} {K : Kinds} (hk : p.Kinded K) {x : String}
    (hx : x ∉ p.free) (t : VarType) : p.Kinded (Function.update K x t) := by
  refine hk.congr fun y hy => ?_
  rw [Function.update_of_ne]
  rintro rfl
  exact hx hy

/-- In a valuation of the right kinds an expression of kind integer is passed as its value. -/
theorem Expr.Kinded.datum_eq {α : Type} {M : Interpretation α} {e : Expr} {K : Kinds}
    {ρ : Valuation α} (hk : e.Kinded K) (hρ : ρ.HasKinds K) :
    e.datum ρ (e.value M ρ) = .int (e.value M ρ) := by
  refine Expr.datum_eq_int ?_
  rintro x rfl
  simp only [Expr.Kinded] at hk
  rw [hρ x, hk]

/-! ## Closing over names -/

/-- The kinds with some names turned into numbers. -/
def Kinds.withInts (K : Kinds) (xs : List String) : Kinds := fun x => if x ∈ xs then .int else K x

theorem Kinds.withInts_eq_self {K : Kinds} {xs : List String} (h : ∀ x ∈ xs, K x = .int) :
    K.withInts xs = K := by
  funext x
  unfold Kinds.withInts
  split
  · next hx => rw [h x hx]
  · rfl

theorem Kinds.withInts_cons (K : Kinds) (x : String) (xs : List String) :
    K.withInts (x :: xs) = Kinds.withInts (Function.update K x .int) xs := by
  funext y
  unfold Kinds.withInts
  by_cases hy : y ∈ xs
  · rw [if_pos hy, if_pos (List.mem_cons_of_mem _ hy)]
  · rw [if_neg hy]
    by_cases hyx : y = x
    · rw [if_pos (List.mem_cons.mpr (.inl hyx)), hyx, Function.update_self]
    · rw [if_neg (List.not_mem_cons_of_ne_of_not_mem hyx hy), Function.update_of_ne hyx]

/-- The second valuation differs from the first at most in the numbers that the names stand for. -/
structure Valuation.VariesOn {α : Type} (ρ : Valuation α) (xs : List String) (ρ' : Valuation α) :
    Prop where
  same : ∀ x, x ∉ xs → ρ' x = ρ x
  ints : ∀ x ∈ xs, (ρ' x).type = .int

theorem Valuation.HasKinds.variesOn {α : Type} {ρ ρ' : Valuation α} {K : Kinds} {xs : List String}
    (h : ρ.HasKinds K) (hρ : ρ.VariesOn xs ρ') : ρ'.HasKinds (K.withInts xs) := by
  intro x
  unfold Kinds.withInts
  split
  · next hx => exact hρ.ints x hx
  · next hx => rw [hρ.same x hx, h x]

theorem Pred.kinded_forall_names (p : Pred) (xs : List String) (K : Kinds) :
    (xs.foldr Pred.forall_ p).Kinded K ↔ p.Kinded (K.withInts xs) := by
  induction xs generalizing K with
  | nil => rw [List.foldr_nil, Kinds.withInts_eq_self (fun x hx => absurd hx List.not_mem_nil)]
  | cons x xs ih =>
    rw [List.foldr_cons, Pred.forall_, Pred.Kinded, Kinds.withInts_cons]
    exact ih _

theorem Pred.holds_forall_ {α : Type} (M : Interpretation α) (x : String) (p : Pred)
    (ρ : Valuation α) :
    (Pred.forall_ x p).Holds M ρ ↔ ∀ n : Int, p.Holds M (Function.update ρ x (.int n)) := by
  rw [Pred.forall_, Pred.Holds, Param.scalar]

/-- A predicate closed over names holds where it holds for all numbers that they can stand for. -/
theorem Pred.holds_forall_names {α : Type} (M : Interpretation α) (p : Pred) (xs : List String)
    (ρ : Valuation α) :
    (xs.foldr Pred.forall_ p).Holds M ρ ↔ ∀ ρ', ρ.VariesOn xs ρ' → p.Holds M ρ' := by
  induction xs generalizing ρ with
  | nil =>
    rw [List.foldr_nil]
    constructor
    · intro h ρ' hρ
      rwa [show ρ' = ρ from funext fun x => hρ.same x List.not_mem_nil]
    · intro h
      exact h ρ ⟨fun _ _ => rfl, fun x hx => absurd hx List.not_mem_nil⟩
  | cons x xs ih =>
    rw [List.foldr_cons, Pred.holds_forall_]
    constructor
    · intro h ρ' hρ
      -- the number of `x` is the one that `ρ'` gives it
      refine (ih _).mp (h (ρ' x).toInt) ρ' ⟨fun y hy => ?_, fun y hy => ?_⟩
      · by_cases hyx : y = x
        · rw [hyx, Function.update_self]
          exact Datum.eq_int_toInt (hρ.ints x List.mem_cons_self)
        · rw [Function.update_of_ne hyx]
          exact hρ.same y (List.not_mem_cons_of_ne_of_not_mem hyx hy)
      · exact hρ.ints y (List.mem_cons_of_mem _ hy)
    · intro h n
      refine (ih _).mpr fun ρ' hρ => h ρ' ⟨fun y hy => ?_, fun y hy => ?_⟩
      · rw [hρ.same y (List.not_mem_of_not_mem_cons hy),
          Function.update_of_ne (List.ne_of_not_mem_cons hy)]
      · by_cases hyxs : y ∈ xs
        · exact hρ.ints y hyxs
        · have hyx : y = x := (List.mem_cons.mp hy).resolve_right hyxs
          rw [hρ.same y hyxs, hyx, Function.update_self]
          rfl

end Contracts

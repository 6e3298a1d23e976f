import Contracts.Proofs.CellAssignment
import Contracts.Proofs.WeakestPreSound
import Mathlib

/-!
# Weakest preconditions over cells with literal indices

Statements that write cells as well as variables, where every index is a literal, there are no calls
and no formulas, and the targets of an assignment are different (`Stmt.Literal`). Without loops the
predicate worked out for such a statement is as good as over variables alone.

A loop closes its obligations over the variables that its body assigns and over nothing else. What
the obligations say of a cell that the body writes is said of the cell before the loop only, and
`growingCell` is a loop that ends where the predicate asked for does not hold. The obligations are
right where none of them reads such a cell (`Stmt.CellsKept`): all other cells, and all variables
that are not assigned, are the same in every iteration.
-/

set_option autoImplicit false

namespace Contracts

/-! ## Statements over places with literal indices -/

/-- No calls, literal indices only, and names used according to their kinds. -/
def Expr.Literal (K : Kinds) (e : Expr) : Prop := e.plain = true ∧ e.Kinded K

/-- No calls and no formulas, literal indices only, and names used according to their kinds. -/
def Pred.Literal (K : Kinds) (q : Pred) : Prop := q.plain = true ∧ q.Kinded K

mutual

/-- Every assignment has different targets, which are variables that receive numbers or cells with
literal indices, and all expressions, conditions and invariants have literal indices. -/
def Stmt.Literal (K : Kinds) : Stmt → Prop
  | .assign targets exprs =>
    targets.Nodup ∧ (∀ t ∈ targets, ∃ place : Place, t = place.target ∧ place.Fits K) ∧
      ∀ e ∈ exprs, e.Literal K
  | .block stmts => Stmt.LiteralList K stmts
  | .branch condition yes no => condition.Literal K ∧ yes.Literal K ∧ (match no with
    | some s => s.Literal K
    | none => True)
  | .loop condition body invariant =>
    condition.Literal K ∧ (∀ i, invariant = some i → i.Literal K) ∧ body.Literal K

def Stmt.LiteralList (K : Kinds) : List Stmt → Prop
  | [] => True
  | s :: rest => s.Literal K ∧ Stmt.LiteralList K rest

end

mutual

/-- No loop of the statement has an obligation that reads a cell which the body of the loop writes,
where the predicate is asked for after the statement. The obligations of a loop are about its
condition, its invariant, what has to hold before its body and what is asked for after it. -/
def Stmt.CellsKept : Stmt → Pred → Prop
  | .assign _ _, _ => True
  | .block stmts, q => Stmt.CellsKeptList stmts q
  | .branch _ yes no, q => yes.CellsKept q ∧ (match no with
    | some s => s.CellsKept q
    | none => True)
  | .loop condition body invariant, q =>
    ∀ i w, invariant = some i → body.wp true i = .ok w → body.CellsKept i ∧
      ∀ o ∈ [condition, i, w, q], ∀ a k, Target.cell a (.const k) ∈ body.targets → ¬o.Reads a k

def Stmt.CellsKeptList : List Stmt → Pred → Prop
  | [], _ => True
  | s :: rest, q =>
    Stmt.CellsKeptList rest q ∧ ∀ w, Stmt.wpBlock true rest q = .ok w → s.CellsKept w

end

section

variable {K : Kinds}

mutual

theorem Stmt.Literal.targets : ∀ {c : Stmt}, c.Literal K →
    ∀ t ∈ c.targets, ∃ place : Place, t = place.target ∧ place.Fits K
  | .assign _ _, h => h.2.1
  | .block _, h => Stmt.LiteralList.targets h
  | .branch _ _ none, h => by
    intro t ht
    rw [Stmt.targets, List.append_nil] at ht
    exact h.2.1.targets t ht
  | .branch _ _ (some _), h => by
    intro t ht
    rcases List.mem_append.mp ht with ht | ht
    · exact h.2.1.targets t ht
    · exact Stmt.Literal.targets h.2.2 t ht
  | .loop _ _ _, h => h.2.2.targets

theorem Stmt.LiteralList.targets : ∀ {cs : List Stmt}, Stmt.LiteralList K cs →
    ∀ t ∈ Stmt.targetsList cs, ∃ place : Place, t = place.target ∧ place.Fits K
  | [], _ => fun t ht => absurd ht List.not_mem_nil
  | _ :: _, h => by
    intro t ht
    rcases List.mem_append.mp ht with ht | ht
    · exact h.1.targets t ht
    · exact Stmt.LiteralList.targets h.2 t ht

end

theorem Stmt.literal_assign (places : List Place) {es : List Expr}
    (hnodup : (places.map Place.target).Nodup) (hfits : ∀ place ∈ places, place.Fits K)
    (hes : ∀ e ∈ es, e.Literal K) : (Stmt.assign (places.map Place.target) es).Literal K := by
  refine ⟨hnodup, fun t ht => ?_, hes⟩
  obtain ⟨place, hplace, rfl⟩ := List.mem_map.mp ht
  exact ⟨place, rfl, hfits place hplace⟩

theorem Stmt.Literal.assignedScalars {c : Stmt} (h : c.Literal K) :
    ∀ x ∈ c.assignedScalars, K x = .int := by
  intro x hx
  obtain ⟨place, hplace, hfit⟩ := h.targets _ (Stmt.mem_assignedScalars.mp hx)
  cases place with
  | var y =>
    cases hplace
    exact hfit
  | cell a i => cases hplace

/-- Targets with literal indices, as places. -/
theorem exists_places_of_targets {targets : List Target}
    (h : ∀ t ∈ targets, ∃ place : Place, t = place.target ∧ place.Fits K) :
    ∃ places : List Place, targets = places.map Place.target ∧ ∀ place ∈ places, place.Fits K := by
  induction targets with
  | nil => exact ⟨[], rfl, fun place hplace => absurd hplace List.not_mem_nil⟩
  | cons t targets ih =>
    obtain ⟨place, rfl, hfit⟩ := h t List.mem_cons_self
    obtain ⟨places, rfl, hfits⟩ := ih fun t ht => h t (List.mem_cons_of_mem _ ht)
    exact ⟨place :: places, rfl, List.forall_mem_cons.mpr ⟨hfit, hfits⟩⟩

end

/-! ## The predicates stay of this form -/

section

variable {K : Kinds} {close : Bool}

theorem Pred.plain_forall_names (p : Pred) (xs : List String) :
    (xs.foldr Pred.forall_ p).plain = p.plain := by
  induction xs with
  | nil => rfl
  | cons x xs ih => exact ih

theorem Pred.Literal.wpBranch {c q r : Pred} (hc : c.Literal K) (hq : q.Literal K)
    (hr : r.Literal K) : (wpBranch c q r).Literal K := by
  refine ⟨?_, Pred.kinded_wpBranch hc.2 hq.2 hr.2⟩
  simp only [Contracts.wpBranch, Pred.plain, hc.1, hq.1, hr.1, Bool.and_self]

theorem Pred.Literal.wpLoop {c inv w q : Pred} {vars : List String}
    (hvars : ∀ x ∈ vars, K x = .int) (hc : c.Literal K) (hinv : inv.Literal K)
    (hw : w.Literal K) (hq : q.Literal K) : (wpLoop vars c inv w q).Literal K := by
  refine ⟨?_, Pred.kinded_wpLoop hvars hc.2 hinv.2 hw.2 hq.2⟩
  simp only [Contracts.wpLoop, Pred.plain, Pred.plain_forall_names, hc.1, hinv.1, hw.1, hq.1,
    Bool.and_self]

theorem Pred.Literal.simplify {q : Pred} (hq : q.Literal K) : q.simplify.Literal K :=
  ⟨Pred.plain_simplify hq.1, hq.2.simplify⟩

mutual

theorem Stmt.Literal.literal_wp : ∀ {c : Stmt} {q r : Pred}, c.Literal K → q.Literal K →
    c.wp close q = .ok r → r.Literal K
  | .assign targets exprs, q, r, hc, hq, h => by
    obtain ⟨r₀, hr₀, rfl⟩ := Stmt.wp_assign_eq_ok.mp h
    obtain ⟨places, rfl, hfits⟩ := exists_places_of_targets hc.2.1
    have hplain := Pred.plain_wpAssign_places hq.1 hfits (fun e he => (hc.2.2 e he).1) hr₀
    exact Pred.Literal.simplify ⟨hplain, hq.2.wpAssign_places hfits hc.2.2 hr₀⟩
  | .block stmts, q, r, hc, hq, h => by
    rw [Stmt.wp] at h
    exact Stmt.LiteralList.literal_wpBlock hc hq h
  | .branch condition yes none, q, r, hc, hq, h => by
    obtain ⟨r₁, r₂, h₁, h₂, rfl⟩ := Stmt.wp_branch_eq_ok.mp h
    cases h₂
    exact (hc.1.wpBranch (hc.2.1.literal_wp hq h₁) hq).simplify
  | .branch condition yes (some no), q, r, hc, hq, h => by
    obtain ⟨r₁, r₂, h₁, h₂, rfl⟩ := Stmt.wp_branch_eq_ok.mp h
    have hno : no.Literal K := hc.2.2
    exact (hc.1.wpBranch (hc.2.1.literal_wp hq h₁) (hno.literal_wp hq h₂)).simplify
  | .loop condition body invariant, q, r, hc, hq, h => by
    obtain ⟨inv, w, hinv, hw, rfl⟩ := Stmt.wp_loop_eq_ok.mp h
    have hlinv := hc.2.1 inv hinv
    refine (Pred.Literal.wpLoop ?_ hc.1 hlinv (hc.2.2.literal_wp hlinv hw) hq).simplify
    intro x hx
    split at hx
    · exact hc.2.2.assignedScalars x hx
    · cases hx

theorem Stmt.LiteralList.literal_wpBlock : ∀ {cs : List Stmt} {q r : Pred},
    Stmt.LiteralList K cs → q.Literal K → Stmt.wpBlock close cs q = .ok r → r.Literal K
  | [], q, r, _, hq, h => by
    rw [Stmt.wpBlock] at h
    cases h
    exact hq
  | c :: rest, q, r, hc, hq, h => by
    obtain ⟨w, hw, hr⟩ := Stmt.wpBlock_cons_eq_ok.mp h
    exact hc.1.literal_wp (Stmt.LiteralList.literal_wpBlock hc.2 hq hw) hr

end

end

/-! ## What a statement leaves alone -/

section

variable {M : Interpretation Cells} {p : Program} {b : Below} {K : Kinds} {rest : Valuation Cells}

/-- Two states agree on the variables outside `xs` and on the cells that no target of `ts` names. -/
structure State.AgreeOff (M : Interpretation Cells) (K : Kinds) (rest : Valuation Cells)
    (xs : List String) (ts : List Target) (s t : State) : Prop where
  vars : ∀ x, K x = .int → x ∉ xs → t[x]? = s[x]?
  cells : ∀ a (k : Int64), K a = .array → Target.cell a (.const k) ∉ ts →
    M.read (t.valuation rest a) k.toInt = M.read (s.valuation rest a) k.toInt

theorem State.AgreeOff.refl (xs : List String) (ts : List Target) (s : State) :
    State.AgreeOff M K rest xs ts s s :=
  ⟨fun _ _ _ => rfl, fun _ _ _ _ => rfl⟩

theorem State.AgreeOff.trans {xs : List String} {ts : List Target} {s t u : State}
    (hst : State.AgreeOff M K rest xs ts s t) (htu : State.AgreeOff M K rest xs ts t u) :
    State.AgreeOff M K rest xs ts s u := by
  refine ⟨fun x hK hx => ?_, fun a k hK hcell => ?_⟩
  · exact (htu.vars x hK hx).trans (hst.vars x hK hx)
  · exact (htu.cells a k hK hcell).trans (hst.cells a k hK hcell)

/-- Writing a place leaves everything else alone. -/
theorem Place.agreeOff_write (hcell : ∀ c i, M.cell c i = c.valueAt i) {place : Place}
    (hfit : place.Fits K) {xs : List String} {ts : List Target}
    (hxs : ∀ x, place = .var x → x ∈ xs) (hts : place.target ∈ ts) {s : State} {v : Value}
    {fuel : Nat} {r : State × Nat} (h : place.write s v fuel = .ok r) :
    State.AgreeOff M K rest xs ts s r.1 := by
  cases place with
  | var x =>
    have hKx : K x = .int := hfit
    rw [Place.write, EvalM.pure_eq_ok] at h
    cases h
    refine ⟨fun y _ hy => ?_, fun a k hK _ => ?_⟩
    · rw [State.getElem?_insert, if_neg]
      rintro rfl
      exact hy (hxs x rfl)
    · -- the variable is no array
      have hax : a ≠ x := by
        rintro rfl
        rw [hKx] at hK
        cases hK
      rw [State.valuation_insert, Function.update_of_ne hax]
  | cell a i =>
    have hKa : K a = .array := hfit
    obtain ⟨c, n, ha, -, hr⟩ := Place.write_cell_eq_ok h
    rw [hr]
    refine ⟨fun y hK _ => ?_, fun a' k _ hk => ?_⟩
    · rw [State.getElem?_insert, if_neg]
      rintro rfl
      rw [hKa] at hK
      cases hK
    · rw [State.valuation_insert]
      by_cases haa : a' = a
      · -- of the written array only the cell at `i` is another one
        subst haa
        have hik : i ≠ k := by
          rintro rfl
          exact hk hts
        rw [Function.update_self, State.valuation_of_some ha, Value.datum, Value.datum,
          Interpretation.read, Interpretation.read, hcell, hcell, Cells.valueAt_toInt,
          Cells.valueAt_toInt, Cells.read_write, if_neg hik]
      · rw [Function.update_of_ne haa]

/-- A statement changes no variables but those it assigns, and no cells but those it writes. -/
theorem Stmt.Literal.frame {c : Stmt} (hc : c.Literal K) (hcell : ∀ c i, M.cell c i = c.valueAt i)
    {s s' : State} {fuel fuel' : Nat} (hrun : c.exec p b s fuel = .ok (s', fuel')) :
    State.AgreeOff M K rest c.assignedScalars c.targets s s' := by
  refine Stmt.exec_related (R := State.AgreeOff M K rest c.assignedScalars c.targets)
    (State.AgreeOff.refl _ _) (fun _ _ _ => State.AgreeOff.trans) ?_ hrun
  intro t ht s₀ fuel₀ place fuel₁ hplace s₁ v fuel₂ s₂ fuel₃ hwrite
  obtain ⟨place', rfl, hfit⟩ := hc.targets t ht
  have hsame : place = place' := by
    rw [Place.place_target, EvalM.pure_eq_ok] at hplace
    exact (Prod.ext_iff.mp hplace).1.symm
  subst hsame
  refine Place.agreeOff_write hcell hfit (fun x hx => ?_) ht hwrite
  rw [hx] at ht
  exact Stmt.mem_assignedScalars.mpr ht

/-- A predicate that reads no cell which the body of a loop writes is true in a later iteration
where it is true before the loop with the assigned variables as they are then. -/
theorem Pred.Literal.holds_of_agreeOff {q : Pred} (hq : q.Literal K) {xs : List String}
    (hxs : ∀ x ∈ xs, K x = .int) {ts : List Target}
    (hkept : ∀ a k, Target.cell a (.const k) ∈ ts → ¬q.Reads a k) {s t : State}
    (hst : State.AgreeOff M K rest xs ts s t) :
    (q.Holds M fun x => if x ∈ xs then t.valuation rest x else s.valuation rest x) ↔
      q.Holds M (t.valuation rest) := by
  refine Pred.holds_congr_reads M hq.1 hq.2 (fun x _ hK => ?_) fun a k hread hK => ?_
  · split
    · rfl
    · next hx => exact (State.valuation_congr (hst.vars x hK hx)).symm
  · have ha : a ∉ xs := by
      intro ha
      rw [hxs a ha] at hK
      cases hK
    rw [if_neg ha]
    exact (hst.cells a k hK fun hmem => hkept a k hmem hread).symm

/-- The closed obligations of a loop, where they read no cell that its body writes, can be used in
every iteration. -/
theorem Pred.holds_wpLoop_of_agreeOff {condition inv w q : Pred} (hc : condition.Literal K)
    (hinv : inv.Literal K) (hw : w.Literal K) (hq : q.Literal K) {xs : List String}
    (hxs : ∀ x ∈ xs, K x = .int) {ts : List Target}
    (hkept : ∀ o ∈ [condition, inv, w, q], ∀ a k, Target.cell a (.const k) ∈ ts → ¬o.Reads a k)
    {s t : State} (hr : (wpLoop xs condition inv w q).Holds M (s.valuation rest))
    (hst : State.AgreeOff M K rest xs ts s t) (hrest : rest.HasKinds K) (ht : t.HasKinds K)
    (hI : inv.Holds M (t.valuation rest)) :
    (condition.Holds M (t.valuation rest) → w.Holds M (t.valuation rest)) ∧
      (¬condition.Holds M (t.valuation rest) → q.Holds M (t.valuation rest)) := by
  rw [Pred.holds_wpLoop] at hr
  -- the state before the loop, with the assigned variables as they are in the iteration
  have hvary : (s.valuation rest).VariesOn xs
      fun x => if x ∈ xs then t.valuation rest x else s.valuation rest x := by
    refine ⟨fun x hx => if_neg hx, fun x hx => ?_⟩
    rw [if_pos hx, ht.valuation hrest x, hxs x hx]
  have hmix := hr.2 _ hvary
  rw [hc.holds_of_agreeOff hxs (hkept _ (by simp)) hst,
    hinv.holds_of_agreeOff hxs (hkept _ (by simp)) hst,
    hw.holds_of_agreeOff hxs (hkept _ (by simp)) hst,
    hq.holds_of_agreeOff hxs (hkept _ (by simp)) hst] at hmix
  exact hmix hI

mutual

/-- The predicate worked out for a statement over places, where it holds and no loop loses track of
a cell, makes the statement end where the predicate asked for holds. -/
theorem Stmt.Literal.ensures_wp (hM : M.Agrees p b) (hrest : rest.HasKinds K) :
    ∀ {c : Stmt} {q r : Pred}, c.Literal K → q.Literal K → c.CellsKept q → c.wp true q = .ok r →
      Ensures K (fun s => r.Holds M (s.valuation rest)) (c.exec p b)
        (fun s => q.Holds M (s.valuation rest))
  | .assign targets exprs, q, r, hc, hq, _, h => by
    obtain ⟨r₀, hr₀, rfl⟩ := Stmt.wp_assign_eq_ok.mp h
    obtain ⟨hnodup, hts, hes⟩ := hc
    obtain ⟨places, rfl, hfits⟩ := exists_places_of_targets hts
    have hassign := ensures_assign_places hM hrest hnodup.of_map hfits hes hq.1 hq.2 hr₀
    intro s fuel s' fuel' hs hr hrun
    rw [Stmt.exec] at hrun
    rw [Pred.holds_simplify M (hq.2.wpAssign_places hfits hes hr₀) (hs.valuation hrest)] at hr
    exact hassign s fuel s' fuel' hs hr hrun
  | .block stmts, q, r, hc, hq, hkept, h => by
    rw [Stmt.wp] at h
    have hblock := Stmt.LiteralList.ensures_wpBlock hM hrest hc hq hkept h
    intro s fuel s' fuel' hs hr hrun
    rw [Stmt.exec] at hrun
    exact hblock s fuel s' fuel' hs hr hrun
  | .branch condition yes none, q, r, hc, hq, hkept, h => by
    obtain ⟨r₁, r₂, h₁, h₂, rfl⟩ := Stmt.wp_branch_eq_ok.mp h
    cases h₂
    have hk := Pred.kinded_wpBranch hc.1.2 (hc.2.1.literal_wp hq h₁).2 hq.2
    have hyes := Stmt.Literal.ensures_wp hM hrest hc.2.1 hq hkept.1 h₁
    exact Stmt.ensures_wpBranch hM hrest hk hyes (Ensures.skip _)
  | .branch condition yes (some no), q, r, hc, hq, hkept, h => by
    obtain ⟨r₁, r₂, h₁, h₂, rfl⟩ := Stmt.wp_branch_eq_ok.mp h
    have hcno : no.Literal K := hc.2.2
    have hk := Pred.kinded_wpBranch hc.1.2 (hc.2.1.literal_wp hq h₁).2 (hcno.literal_wp hq h₂).2
    have hyes := Stmt.Literal.ensures_wp hM hrest hc.2.1 hq hkept.1 h₁
    have hno := Stmt.Literal.ensures_wp hM hrest hcno hq hkept.2 h₂
    exact Stmt.ensures_wpBranch hM hrest hk hyes hno
  | .loop condition body invariant, q, r, hc, hq, hkept, h => by
    obtain ⟨inv, w, hinv, hw, rfl⟩ := Stmt.wp_loop_eq_ok.mp h
    rw [if_pos rfl]
    have hlinv := hc.2.1 inv hinv
    have hlw := hc.2.2.literal_wp hlinv hw
    obtain ⟨hkbody, hreads⟩ := hkept inv w hinv hw
    have hbody := Stmt.Literal.ensures_wp hM hrest hc.2.2 hlinv hkbody hw
    have hk := (Pred.Literal.wpLoop hc.2.2.assignedScalars hc.1 hlinv hlw hq).2
    -- a run of the loop changes nothing but what its body assigns, so the part of the predicate that
    -- is closed over this still holds where the loop ends
    refine (Stmt.ensures_loop
      (R := State.AgreeOff M K rest body.assignedScalars body.targets) rest hM
      (State.AgreeOff.refl _ _) (fun _ _ _ => State.AgreeOff.trans)
      (fun s fuel s' fuel' _ hrun => hc.2.2.frame hM.cell hrun) hbody).weaken fun s hs hr => ?_
    rw [Pred.holds_simplify M hk (hs.valuation hrest)] at hr
    refine ⟨hr.1, fun t hst ht hI => ?_⟩
    exact Pred.holds_wpLoop_of_agreeOff hc.1 hlinv hlw hq hc.2.2.assignedScalars hreads hr hst
      hrest ht hI

theorem Stmt.LiteralList.ensures_wpBlock (hM : M.Agrees p b) (hrest : rest.HasKinds K) :
    ∀ {cs : List Stmt} {q r : Pred}, Stmt.LiteralList K cs → q.Literal K →
      Stmt.CellsKeptList cs q → Stmt.wpBlock true cs q = .ok r →
      Ensures K (fun s => r.Holds M (s.valuation rest)) (Stmt.execBlock p b cs)
        (fun s => q.Holds M (s.valuation rest))
  | [], q, r, _, hq, _, h => by
    rw [Stmt.wpBlock] at h
    cases h
    exact Stmt.ensures_block_nil _
  | c :: cs, q, r, hc, hq, hkept, h => by
    obtain ⟨w, hw, hr⟩ := Stmt.wpBlock_cons_eq_ok.mp h
    have hlw := hc.2.literal_wpBlock hq hw
    exact Stmt.ensures_block_cons (Stmt.Literal.ensures_wp hM hrest hc.1 hlw (hkept.2 w hw) hr)
      (Stmt.LiteralList.ensures_wpBlock hM hrest hc.2 hq hkept.1 hw)

end

end

/-! ## Soundness -/

/-- Weakest preconditions with closed loops are sound for statements over variables and cells with
literal indices, as long as no loop has an obligation that reads a cell which its body writes: where
the predicate worked out for the statement is true and the statement finishes, the predicate asked
for is true. -/
theorem wp_closed_sound_of_cellsKept (p : Program) (n : Nat) (M : Interpretation Cells)
    (hM : M.Agrees p (below p n)) (K : Kinds) (rest : Valuation Cells) (hrest : rest.HasKinds K)
    (c : Stmt) (q r : Pred) (hc : c.Literal K) (hq : q.Literal K) (hkept : c.CellsKept q)
    (s s' : State) (hs : s.HasKinds K) (fuel fuel' : Nat) (hwp : c.wp true q = .ok r)
    (hr : r.Holds M (s.valuation rest)) (hrun : c.exec p (below p n) s fuel = .ok (s', fuel')) :
    q.Holds M (s'.valuation rest) :=
  (hc.ensures_wp hM hrest hq hkept hwp s fuel s' fuel' hs hr hrun).2

/-- The kinds of the programs below: one array. -/
def oneArray : Kinds := fun x => if x = "a" then .array else .int

/-- What the names of these programs stand for where a state says nothing. -/
def oneArrayRest : Valuation Cells := fun x => if x = "a" then .array ∅ else .int 0

theorem oneArrayRest_hasKinds : oneArrayRest.HasKinds oneArray := by
  intro x
  unfold oneArrayRest oneArray
  split <;> rfl

/-- A loop that writes one cell and whose obligations are about another, before an assignment to
that other cell and a variable at once. -/
def scratchCell : Stmt :=
  .block [
    .loop (.compare .lt (.var "i") (.const 2))
      (.block [.assign [.cell "a" (.const 0)] [.var "i"],
        .assign [.var "i"] [.binary .add (.var "i") (.const 1)]])
      (some (.compare .eq (.read "a" (.const 1)) (.const 7))),
    .assign [.cell "a" (.const 1), .var "x"]
      [.binary .add (.read "a" (.const 1)) (.const 1), .read "a" (.const 1)]]

/-- What is asked for after `scratchCell`. -/
def scratchGoal : Pred :=
  .and (.compare .eq (.read "a" (.const 1)) (.const 8)) (.compare .eq (.var "x") (.const 7))

/-- What has to hold before `scratchCell`. -/
def scratchObligation : Pred :=
  let kept := Pred.compare .eq (.read "a" (.const 1)) (.const 7)
  .and kept
    (.and (.forall_ "i" (.implies (.and kept (.compare .lt (.var "i") (.const 2))) kept))
      (.forall_ "i" (.implies (.and kept (.not (.compare .lt (.var "i") (.const 2))))
        (.and (.compare .eq (.binary .add (.read "a" (.const 1)) (.const 1)) (.const 8)) kept))))

theorem scratchCell_literal : scratchCell.Literal oneArray := by
  refine ⟨⟨⟨rfl, rfl, trivial⟩, ?_, ?_, ?_, trivial⟩, ?_, trivial⟩
  · rintro i ⟨⟩
    exact ⟨rfl, ⟨rfl, trivial⟩, trivial⟩
  · exact Stmt.literal_assign [.cell "a" 0] (by decide) (by simp [Place.Fits, oneArray])
      (by simp [Expr.Literal, Expr.plain, Expr.Kinded, oneArray])
  · exact Stmt.literal_assign [.var "i"] (by decide) (by simp [Place.Fits, oneArray])
      (by simp [Expr.Literal, Expr.plain, Expr.Kinded, oneArray])
  · exact Stmt.literal_assign [.cell "a" 1, .var "x"] (by decide) (by simp [Place.Fits, oneArray])
      (by simp [Expr.Literal, Expr.plain, Expr.Kinded, oneArray])

theorem scratchCell_cellsKept : scratchCell.CellsKept scratchGoal := by
  refine ⟨⟨trivial, fun _ _ => trivial⟩, fun w hw i v hi hv => ?_⟩
  have hw' : Stmt.wpBlock true [.assign [.cell "a" (.const 1), .var "x"]
      [.binary .add (.read "a" (.const 1)) (.const 1), .read "a" (.const 1)]] scratchGoal =
      .ok (.and (.compare .eq (.binary .add (.read "a" (.const 1)) (.const 1)) (.const 8))
        (.compare .eq (.read "a" (.const 1)) (.const 7))) := by cbv
  cases hi
  cases hw'.symm.trans hw
  have hv' : (Stmt.block [.assign [.cell "a" (.const 0)] [.var "i"],
      .assign [.var "i"] [.binary .add (.var "i") (.const 1)]]).wp true
        (.compare .eq (.read "a" (.const 1)) (.const 7)) =
      .ok (.compare .eq (.read "a" (.const 1)) (.const 7)) := by cbv
  cases hv'.symm.trans hv
  refine ⟨⟨⟨trivial, fun _ _ => trivial⟩, fun _ _ => trivial⟩, fun o ho a k hmem => ?_⟩
  have hcell : a = "a" ∧ k = 0 := by
    simpa [Stmt.targets, Stmt.targetsList] using hmem
  obtain ⟨rfl, rfl⟩ := hcell
  simp only [List.mem_cons, List.not_mem_nil, or_false] at ho
  rcases ho with rfl | rfl | rfl | rfl <;> simp [Pred.Reads, Expr.Reads]

theorem scratchObligation_holds (M : Interpretation Cells) (ρ : Valuation Cells)
    (h : M.read (ρ "a") 1 = 7) : scratchObligation.Holds M ρ := by
  simp [scratchObligation, Pred.Holds, Pred.forall_, Param.scalar, Expr.value, CmpOp.holds, h,
    Interpretation.arith, ArithOp.onInt]

/-- A state for `scratchCell` in which the second cell is seven. -/
def scratchStart : State :=
  State.ofPairs [("i", .int 0), ("a", .array (Cells.write ∅ 1 7)), ("x", .int 0)]

theorem scratchStart_hasKinds : scratchStart.HasKinds oneArray := by
  refine State.HasKinds.ofPairs ?_
  simp [Value.type, oneArray]

/-- Before `scratchCell` the second cell is seven, so after it the cell is eight. -/
theorem wp_closed_sound_of_cellsKept_scratch : ∃ (M : Interpretation Cells) (s' : State)
    (fuel' : Nat), M.Agrees Program.empty (below Program.empty 0) ∧
    scratchCell.exec Program.empty (below Program.empty 0) scratchStart 10 = .ok (s', fuel') ∧
    scratchGoal.Holds M (s'.valuation oneArrayRest) := by
  have hM := Program.empty.reading_agrees 0
  have hok :
      (scratchCell.exec Program.empty (below Program.empty 0) scratchStart 10).isOk = true := by
    cbv
  have hcell : scratchStart["a"]? = some (.array (Cells.write ∅ 1 7)) := by cbv
  cases hrun : scratchCell.exec Program.empty (below Program.empty 0) scratchStart 10 with
  | error e =>
    rw [hrun] at hok
    cases hok
  | ok r =>
    obtain ⟨s', fuel'⟩ := r
    refine ⟨_, s', fuel', hM, rfl, ?_⟩
    refine wp_closed_sound_of_cellsKept Program.empty 0 _ hM oneArray oneArrayRest
      oneArrayRest_hasKinds scratchCell scratchGoal scratchObligation scratchCell_literal ?_
      scratchCell_cellsKept scratchStart s' scratchStart_hasKinds 10 fuel' (by cbv) ?_ hrun
    · exact ⟨rfl, ⟨⟨rfl, trivial⟩, trivial⟩, rfl, trivial⟩
    · refine scratchObligation_holds _ _ ?_
      rw [State.valuation_of_some hcell]
      exact (hM.cell _ _).trans (by cbv)

/-! ## Where the predicate promises too much -/

/-- A loop that counts a cell up to two. Its condition and its invariant read the cell. -/
def growingCell : Stmt :=
  .loop (.compare .lt (.read "a" (.const 0)) (.const 2))
    (.assign [.cell "a" (.const 0)] [.binary .add (.read "a" (.const 0)) (.const 1)])
    (some (.compare .ge (.read "a" (.const 0)) (.const 0)))

/-- What is asked for after `growingCell`, and does not hold then. -/
def growingGoal : Pred := .compare .eq (.read "a" (.const 0)) (.const 1)

/-- What has to hold before `growingCell`. No variable is assigned, so nothing is closed and every
read is of the cell before the loop. -/
def growingObligation : Pred :=
  let inv := Pred.compare .ge (.read "a" (.const 0)) (.const 0)
  let test := Pred.compare .lt (.read "a" (.const 0)) (.const 2)
  .and inv
    (.and
      (.implies (.and inv test)
        (.compare .ge (.binary .add (.read "a" (.const 0)) (.const 1)) (.const 0)))
      (.implies (.and inv (.not test)) growingGoal))

/-- The state before `growingCell` in which the cell is zero. -/
def growingStart : State := State.ofPairs [("a", .array (Cells.write ∅ 0 0))]

theorem growingCell_literal : growingCell.Literal oneArray := by
  refine ⟨⟨rfl, ⟨rfl, trivial⟩, trivial⟩, ?_, ?_⟩
  · rintro i ⟨⟩
    exact ⟨rfl, ⟨rfl, trivial⟩, trivial⟩
  · exact Stmt.literal_assign [.cell "a" 0] (by decide) (by simp [Place.Fits, oneArray])
      (by simp [Expr.Literal, Expr.plain, Expr.Kinded, oneArray])

/-- Two statements that end where the predicate asked for is false, although the predicate worked
out for them was true before. The first is of the form above except that a loop reads the cell that
its body writes. In the second a name is an array before and a variable that is assigned. -/
theorem wp_closed_unsound_at_written_cell :
    ∃ M : Interpretation Cells, M.Agrees Program.empty (below Program.empty 0) ∧
    (growingCell.Literal oneArray ∧ growingGoal.Literal oneArray ∧
      growingStart.HasKinds oneArray ∧ growingCell.wp true growingGoal = .ok growingObligation ∧
      growingObligation.Holds M (growingStart.valuation oneArrayRest) ∧
      ∃ s' fuel', growingCell.exec Program.empty (below Program.empty 0) growingStart 10 =
        .ok (s', fuel') ∧ ¬growingGoal.Holds M (s'.valuation oneArrayRest)) ∧
    ((Stmt.assign [.var "a"] [.const 5]).wp true growingGoal = .ok growingGoal ∧
      growingGoal.Holds M
        ((State.ofPairs [("a", .array (Cells.write ∅ 0 1))]).valuation oneArrayRest) ∧
      ∃ s' fuel', (Stmt.assign [.var "a"] [.const 5]).exec Program.empty (below Program.empty 0)
          (State.ofPairs [("a", .array (Cells.write ∅ 0 1))]) 10 = .ok (s', fuel') ∧
        ¬growingGoal.Holds M (s'.valuation oneArrayRest)) := by
  have hM := Program.empty.reading_agrees 0
  refine ⟨_, hM, ⟨growingCell_literal, ⟨rfl, ⟨rfl, trivial⟩, trivial⟩, ?_, by cbv, ?_, ?_⟩,
    by cbv, ?_, ?_⟩
  · exact State.HasKinds.ofPairs (by simp [Value.type, oneArray])
  · have heval : growingObligation.eval Program.empty (below Program.empty 0) growingStart 0 =
        .ok (true, 0) := by cbv
    exact (Pred.holds_of_eval hM heval).mpr rfl
  · have hend : (do
        let s ← growingCell.exec Program.empty (below Program.empty 0) growingStart
        growingGoal.eval Program.empty (below Program.empty 0) s) 10 = .ok (false, 8) := by cbv
    obtain ⟨s', fuel', hrun, heval⟩ := EvalM.bind_eq_ok.mp hend
    refine ⟨s', fuel', hrun, ?_⟩
    rw [Pred.holds_of_eval hM heval]
    exact Bool.false_ne_true
  · have heval : growingGoal.eval Program.empty (below Program.empty 0)
        (State.ofPairs [("a", .array (Cells.write ∅ 0 1))]) 0 = .ok (true, 0) := by cbv
    exact (Pred.holds_of_eval hM heval).mpr rfl
  · refine ⟨(State.ofPairs [("a", .array (Cells.write ∅ 0 1))]).insert "a" (.int 5), 10, rfl, ?_⟩
    -- a cell of a number is zero
    rw [State.valuation_insert]
    simp [growingGoal, Pred.Holds, Expr.value, CmpOp.holds, Value.datum, Interpretation.read]

end Contracts

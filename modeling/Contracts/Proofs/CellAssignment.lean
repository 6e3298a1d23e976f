import Contracts.Proofs.AssignmentMeaning
import Contracts.Proofs.LiteralCells

/-!
# Assignments to cells with literal indices

A simultaneous assignment writes its places from left to right. The predicate before it works in
another order: every expression goes to a temporary, the cells are written from the temporaries
and then the variables. The targets are different places, so the order does not matter
(`Place.foldl_set_perm`), and both sides are the valuation in which all places are written.
-/

set_option autoImplicit false

namespace Contracts

/-! ## Writing places -/

namespace Cells

theorem read_write (c : Cells) (i j v : Int64) :
    (c.write i v).read j = if i = j then v else c.read j := by
  rw [write, read, read, Std.ExtTreeMap.getD_insert]
  simp only [Std.LawfulEqCmp.compare_eq_iff_eq]

theorem write_comm (c : Cells) {i j : Int64} (hij : i ≠ j) (v w : Int64) :
    (c.write i v).write j w = (c.write j w).write i v := by
  refine Std.ExtTreeMap.ext_getElem? fun k => ?_
  simp only [write, Std.ExtTreeMap.getElem?_insert, Std.LawfulEqCmp.compare_eq_iff_eq]
  by_cases hi : i = k
  · rw [if_pos hi, if_pos hi, if_neg fun hj => hij (hi.trans hj.symm)]
  · rw [if_neg hi, if_neg hi]

end Cells

/-- The array with one cell written; a number stays as it is. -/
def Datum.writeCell (d : Datum Cells) (i v : Int64) : Datum Cells :=
  match d with
  | .array c => .array (c.write i v)
  | .int n => .int n

theorem Datum.writeCell_comm (d : Datum Cells) {i j : Int64} (hij : i ≠ j) (v w : Int64) :
    (d.writeCell i v).writeCell j w = (d.writeCell j w).writeCell i v := by
  cases d with
  | int n => rfl
  | array c => exact congrArg Datum.array (c.write_comm hij v w)

@[simp] theorem Datum.type_writeCell (d : Datum Cells) (i v : Int64) :
    (d.writeCell i v).type = d.type := by
  cases d <;> rfl

theorem Datum.exists_of_type_array {α : Type} {d : Datum α} (h : d.type = .array) :
    ∃ a, d = .array a := by
  cases d with
  | int n => cases h
  | array a => exact ⟨a, rfl⟩

namespace Place

/-- The name that a place belongs to. -/
def name : Place → String
  | .var x => x
  | .cell a _ => a

/-- The place is of the kind of its name. -/
def Fits (K : Kinds) : Place → Prop
  | .var x => K x = .int
  | .cell a _ => K a = .array

theorem fits_congr {K K' : Kinds} {place : Place} (h : K' place.name = K place.name)
    (hfit : place.Fits K) : place.Fits K' := by
  cases place with
  | var x => exact h.trans hfit
  | cell a i => exact h.trans hfit

/-- The valuation with one place set to a number. -/
def set (ρ : Valuation Cells) (b : Place × Int64) : Valuation Cells :=
  match b.1 with
  | .var x => Function.update ρ x (.int b.2.toInt)
  | .cell a i => Function.update ρ a ((ρ a).writeCell i b.2)

@[simp] theorem set_var (ρ : Valuation Cells) (x : String) (v : Int64) :
    set ρ (.var x, v) = Function.update ρ x (.int v.toInt) := rfl

@[simp] theorem set_cell (ρ : Valuation Cells) (a : String) (i v : Int64) :
    set ρ (.cell a i, v) = Function.update ρ a ((ρ a).writeCell i v) := rfl

theorem set_of_ne {ρ : Valuation Cells} {b : Place × Int64} {y : String} (h : y ≠ b.1.name) :
    set ρ b y = ρ y := by
  obtain ⟨place, v⟩ := b
  cases place with
  | var x => exact Function.update_of_ne h ..
  | cell a i => exact Function.update_of_ne h ..

theorem hasKinds_set {K : Kinds} {ρ : Valuation Cells} (hρ : ρ.HasKinds K) {b : Place × Int64}
    (hb : b.1.Fits K) : Valuation.HasKinds (set ρ b) K := by
  intro y
  by_cases hy : y = b.1.name
  · subst hy
    obtain ⟨place, v⟩ := b
    cases place with
    | var x =>
      have hx : K x = .int := hb
      rw [set_var, name, Function.update_self, hx]
      rfl
    | cell a i => rw [set_cell, name, Function.update_self, Datum.type_writeCell, hρ a]
  · rw [set_of_ne hy, hρ y]

/-- Two different places can be written in either order. -/
theorem set_comm {K : Kinds} {b c : Place × Int64} (hb : b.1.Fits K) (hc : c.1.Fits K)
    (hbc : b.1 ≠ c.1) (ρ : Valuation Cells) : set (set ρ b) c = set (set ρ c) b := by
  obtain ⟨place, v⟩ := b
  obtain ⟨place', w⟩ := c
  cases place with
  | var x =>
    cases place' with
    | var y =>
      have hxy : x ≠ y := fun h => hbc (by rw [h])
      exact Function.update_comm hxy ..
    | cell a i =>
      -- a variable that fits is no array
      have hax : a ≠ x := by
        rintro rfl
        cases hb.symm.trans hc
      simp only [set_var, set_cell]
      rw [Function.update_of_ne hax, Function.update_comm hax]
  | cell a i =>
    cases place' with
    | var y =>
      have hay : a ≠ y := by
        rintro rfl
        cases hb.symm.trans hc
      simp only [set_var, set_cell]
      rw [Function.update_of_ne hay, Function.update_comm hay]
    | cell a' j =>
      simp only [set_cell]
      by_cases haa : a = a'
      · subst haa
        have hij : i ≠ j := fun h => hbc (by rw [h])
        rw [Function.update_self, Function.update_self, Function.update_idem,
          Function.update_idem, Datum.writeCell_comm _ hij]
      · rw [Function.update_of_ne (Ne.symm haa), Function.update_of_ne haa,
          Function.update_comm haa]

/-- Where the places are different, their order does not matter. -/
theorem foldl_set_perm {K : Kinds} {l l' : List (Place × Int64)} (hperm : l.Perm l')
    (hfits : ∀ b ∈ l, b.1.Fits K) (hne : ∀ b ∈ l, ∀ c ∈ l, b.1 = c.1 → b = c)
    (ρ : Valuation Cells) : l.foldl set ρ = l'.foldl set ρ := by
  refine hperm.foldl_eq' (fun b hb c hc ρ => ?_) ρ
  by_cases hbc : b.1 = c.1
  · rw [hne b hb c hc hbc]
  · exact set_comm (hfits b hb) (hfits c hc) hbc ρ

theorem hasKinds_foldl_set {K : Kinds} {l : List (Place × Int64)} (hfits : ∀ b ∈ l, b.1.Fits K)
    {ρ : Valuation Cells} (hρ : ρ.HasKinds K) : Valuation.HasKinds (l.foldl set ρ) K := by
  induction l generalizing ρ with
  | nil => exact hρ
  | cons b l ih =>
    exact ih (fun c hc => hfits c (List.mem_cons_of_mem _ hc))
      (hasKinds_set hρ (hfits b List.mem_cons_self))

/-- Names outside the places keep what they stand for, so valuations that agree outside some names
agree there after the same writes. -/
theorem foldl_set_congr {T : List String} {l : List (Place × Int64)}
    (hl : ∀ b ∈ l, b.1.name ∉ T) {ρ σ : Valuation Cells} (h : ∀ y, y ∉ T → σ y = ρ y) :
    ∀ y, y ∉ T → l.foldl set σ y = l.foldl set ρ y := by
  induction l generalizing ρ σ with
  | nil => exact h
  | cons b l ih =>
    refine ih (fun c hc => hl c (List.mem_cons_of_mem _ hc)) fun y hy => ?_
    by_cases hyb : y = b.1.name
    · subst hyb
      obtain ⟨place, v⟩ := b
      cases place with
      | var x => simp only [set_var, name, Function.update_self]
      | cell a i =>
        have ha : σ a = ρ a := h a (hl (.cell a i, v) List.mem_cons_self)
        simp only [set_cell, name, Function.update_self, ha]
    · rw [set_of_ne hyb, set_of_ne hyb, h y hy]

theorem foldl_set_of_ne {l : List (Place × Int64)} {y : String} (h : ∀ b ∈ l, y ≠ b.1.name)
    (ρ : Valuation Cells) : l.foldl set ρ y = ρ y := by
  induction l generalizing ρ with
  | nil => rfl
  | cons b l ih =>
    rw [List.foldl_cons, ih fun c hc => h c (List.mem_cons_of_mem _ hc),
      set_of_ne (h b List.mem_cons_self)]

/-- The target that names a place, with the index as a literal. -/
def target : Place → Target
  | .var x => .var x
  | .cell a i => .cell a (.const i)

@[simp] theorem name_target (place : Place) : place.target.name = place.name := by
  cases place <;> rfl

end Place

/-! ## Executing the assignment -/

section

variable {p : Program} {b : Below} {K : Kinds} {rest : Valuation Cells} {s : State} {fuel : Nat}

theorem Place.place_target (place : Place) : place.target.place p b s = pure place := by
  cases place with
  | var x => rw [Place.target, Target.place]
  | cell a i => rw [Place.target, Target.place, Expr.eval, pure_bind]

theorem mapM_place_targets (places : List Place) :
    (places.map Place.target).mapM (Target.place p b s) = pure places := by
  induction places with
  | nil => rfl
  | cons place places ih =>
    rw [List.map_cons, List.mapM_cons, Place.place_target, pure_bind, ih, pure_bind]

theorem State.valuation_insert (s : State) (x : String) (v : Value) :
    State.valuation (s.insert x v) rest = Function.update (s.valuation rest) x v.datum := by
  funext y
  by_cases hxy : x = y
  · subst hxy
    rw [Function.update_self]
    exact State.valuation_of_some (by rw [State.getElem?_insert, if_pos rfl])
  · rw [Function.update_of_ne (Ne.symm hxy)]
    exact State.valuation_congr (by rw [State.getElem?_insert, if_neg hxy])

theorem Place.valuation_write {place : Place} (hfit : place.Fits K) (hs : s.HasKinds K) {v : Int64}
    {r : State × Nat} (h : place.write s (.int v) fuel = .ok r) :
    r.1.HasKinds K ∧ r.1.valuation rest = Place.set (s.valuation rest) (place, v) := by
  cases place with
  | var x =>
    rw [Place.write, EvalM.pure_eq_ok] at h
    cases h
    exact ⟨hs.insert (show VarType.int = K x from hfit.symm), State.valuation_insert s x _⟩
  | cell a i =>
    obtain ⟨c, n, ha, hn, hr⟩ := Place.write_cell_eq_ok h
    cases hn
    rw [hr]
    refine ⟨hs.insert (show VarType.array = K a from hfit.symm), ?_⟩
    rw [State.valuation_insert, Place.set_cell, State.valuation_of_some ha]
    rfl

theorem writeAll_ints {places : List Place} (hfits : ∀ place ∈ places, place.Fits K)
    {ws : List Int64} (hs : s.HasKinds K) {r : State × Nat}
    (h : writeAll s (places.zip (ws.map Value.int)) fuel = .ok r) :
    r.1.HasKinds K ∧ r.1.valuation rest = (places.zip ws).foldl Place.set (s.valuation rest) := by
  induction places generalizing ws s fuel with
  | nil =>
    rw [List.zip_nil_left, writeAll, EvalM.pure_eq_ok] at h
    cases h
    exact ⟨hs, rfl⟩
  | cons place places ih =>
    cases ws with
    | nil =>
      rw [List.map_nil, List.zip_nil_right, writeAll, EvalM.pure_eq_ok] at h
      cases h
      exact ⟨hs, rfl⟩
    | cons v ws =>
      rw [List.map_cons, List.zip_cons_cons, writeAll] at h
      obtain ⟨t, fuel₁, ht, h⟩ := EvalM.bind_eq_ok.mp h
      have hstep : t.HasKinds K ∧ t.valuation rest = Place.set (s.valuation rest) (place, v) :=
        Place.valuation_write (hfits place List.mem_cons_self) hs ht
      obtain ⟨htk, htv⟩ := hstep
      obtain ⟨hk, hv⟩ := ih (fun pl hpl => hfits pl (List.mem_cons_of_mem _ hpl)) htk h
      refine ⟨hk, ?_⟩
      rw [hv, htv, List.zip_cons_cons, List.foldl_cons]

theorem exists_ints {values : List Value} (h : ∀ v ∈ values, v.type = .int) :
    ∃ ws : List Int64, values = ws.map Value.int := by
  induction values with
  | nil => exact ⟨[], rfl⟩
  | cons v values ih =>
    obtain ⟨ws, rfl⟩ := ih fun w hw => h w (List.mem_cons_of_mem _ hw)
    have hv := h v List.mem_cons_self
    cases v with
    | int n => exact ⟨n :: ws, rfl⟩
    | array c => cases hv

/-- A finished assignment to places has set them, one after the other, to the values that its
expressions had before. -/
theorem execAssign_places {M : Interpretation Cells} (hM : M.Agrees p b) (hrest : rest.HasKinds K)
    {places : List Place} (hfits : ∀ place ∈ places, place.Fits K) (hne : places ≠ [])
    {es : List Expr} (hes : ∀ e ∈ es, e.Kinded K) (hcall : isSingleCall es = false)
    (hs : s.HasKinds K) {r : State × Nat}
    (h : execAssign p b (places.map Place.target) es s fuel = .ok r) :
    ∃ ws : List Int64, ws.length = places.length ∧
      es.map (fun e => e.value M (s.valuation rest)) = ws.map Int64.toInt ∧ r.1.HasKinds K ∧
      r.1.valuation rest = (places.zip ws).foldl Place.set (s.valuation rest) := by
  obtain ⟨values, fuel₁, hv, hcases⟩ := execAssign_cases h
  rw [assignedValues_of_operands (.inr hcall)] at hv
  have hdata : Expr.data M es (s.valuation rest) = values.map Value.datum :=
    Expr.data_of_operands hM hv
  rw [Expr.data_of_kinded M hes (hs.valuation hrest)] at hdata
  obtain ⟨ws, rfl⟩ := exists_ints (hs.of_operands hM hes hrest hv)
  have hvalues : es.map (fun e => e.value M (s.valuation rest)) = ws.map Int64.toInt := by
    have := congrArg (List.map Datum.toInt) hdata
    rw [List.map_map, List.map_map, List.map_map] at this
    exact this
  rcases hcases with ⟨hnil, -⟩ | ⟨hn, places', fuel₂, hplaces, hwrite⟩
  · exact absurd (List.map_eq_nil_iff.mp hnil) hne
  · rw [mapM_place_targets, EvalM.pure_eq_ok] at hplaces
    cases hplaces
    rw [List.length_map, List.length_map] at hn
    exact ⟨ws, hn, hvalues, writeAll_ints hfits hs hwrite⟩

end

/-! ## One place after the other, in the predicate -/

section

variable {M : Interpretation Cells} {K : Kinds} {q : Pred}

theorem Place.plain_replaceIn (place : Place) {e : Expr} (he : e.plain = true)
    (hp : q.plain = true) : (place.target.replaceIn e q).plain = true := by
  cases place with
  | var x =>
    refine Pred.plain_subst (fun b hb => ?_) hp
    rw [List.mem_singleton.mp hb]
    exact he
  | cell a i => exact Pred.plain_substCell he hp

theorem Place.Fits.kinded_replaceIn {place : Place} (hfit : place.Fits K) {e : Expr}
    (he : e.Kinded K) (hq : q.Kinded K) : (place.target.replaceIn e q).Kinded K := by
  cases place with
  | var x =>
    refine hq.subst (fun b hb => ?_)
    rw [List.mem_singleton.mp hb]
    exact ⟨hfit, he⟩
  | cell a i => exact hq.substCell he

/-- The predicate with a place replaced by an expression is the predicate where the place has the
value of the expression. -/
theorem Place.Fits.holds_replaceIn {place : Place} (hfit : place.Fits K)
    (hcell : ∀ c i, M.cell c i = c.valueAt i) (hp : q.plain = true) (hq : q.Kinded K) {e : Expr}
    (he : e.Kinded K) {σ : Valuation Cells} (hσ : σ.HasKinds K) {v : Int64}
    (hv : e.value M σ = v.toInt) :
    (place.target.replaceIn e q).Holds M σ ↔ q.Holds M (Place.set σ (place, v)) := by
  cases place with
  | var x =>
    have hx : K x = .int := hfit
    rw [Place.set_var, ← hv, ← Bindings.apply_single]
    refine Pred.holds_subst M hq (fun b hb => ?_) hσ
    rw [List.mem_singleton.mp hb]
    exact ⟨hx, he⟩
  | cell a i =>
    have ha : K a = .array := hfit
    obtain ⟨c, hc⟩ := Datum.exists_of_type_array ((hσ a).trans ha)
    refine Pred.holds_substCell hp hq
      ⟨fun y hy => ?_, fun hint => ?_, fun _ => ?_, fun _ j hj => ?_⟩
    · exact Function.update_of_ne hy ..
    · rw [ha] at hint
      cases hint
    · rw [Place.set_cell, Function.update_self, hc, Datum.writeCell, Interpretation.read, hcell,
        Cells.valueAt_toInt, Cells.read_write, if_pos rfl, hv]
    · rw [Place.set_cell, Function.update_self, hc, Datum.writeCell, Interpretation.read,
        Interpretation.read, hcell, hcell, Cells.valueAt_toInt, Cells.valueAt_toInt,
        Cells.read_write, if_neg (Ne.symm hj)]

/-- One place after the other replaced by a variable. -/
def Pred.replaceAll (pairs : List (Place × String)) (q : Pred) : Pred :=
  pairs.foldl (fun q b => b.1.target.replaceIn (.var b.2) q) q

theorem Pred.plain_replaceAll {pairs : List (Place × String)} (hp : q.plain = true) :
    (q.replaceAll pairs).plain = true := by
  induction pairs generalizing q with
  | nil => exact hp
  | cons b pairs ih => exact ih (b.1.plain_replaceIn rfl hp)

theorem Pred.Kinded.replaceAll {pairs : List (Place × String)} (hq : q.Kinded K)
    (hpairs : ∀ b ∈ pairs, b.1.Fits K ∧ K b.2 = .int) : (q.replaceAll pairs).Kinded K := by
  induction pairs generalizing q with
  | nil => exact hq
  | cons b pairs ih =>
    obtain ⟨hfit, ht⟩ := hpairs b List.mem_cons_self
    exact ih (hfit.kinded_replaceIn ht hq) fun c hc => hpairs c (List.mem_cons_of_mem _ hc)

/-- The places are then read at their variables. The last replacement is the outermost, so it is
the first one to be written. -/
theorem Pred.holds_replaceAll (hcell : ∀ c i, M.cell c i = c.valueAt i) {σ : Valuation Cells}
    (hσ : σ.HasKinds K) {w : String → Int64} {pairs : List (Place × String)}
    (hp : q.plain = true) (hq : q.Kinded K) (hpairs : ∀ b ∈ pairs, b.1.Fits K ∧ K b.2 = .int)
    (hw : ∀ b ∈ pairs, σ b.2 = .int (w b.2).toInt)
    (hnew : ∀ b ∈ pairs, ∀ c ∈ pairs, b.2 ≠ c.1.name) :
    (q.replaceAll pairs).Holds M σ ↔
      q.Holds M ((pairs.map (Prod.map id w)).reverse.foldl Place.set σ) := by
  induction pairs generalizing q with
  | nil => rfl
  | cons b pairs ih =>
    obtain ⟨hfit, ht⟩ := hpairs b List.mem_cons_self
    have htail := ih (b.1.plain_replaceIn (e := .var b.2) rfl hp)
      (hfit.kinded_replaceIn ht hq) (fun c hc => hpairs c (List.mem_cons_of_mem _ hc))
      (fun c hc => hw c (List.mem_cons_of_mem _ hc))
      (fun c hc d hd => hnew c (List.mem_cons_of_mem _ hc) d (List.mem_cons_of_mem _ hd))
    have hmem : ∀ c ∈ (pairs.map (Prod.map id w)).reverse, ∃ d ∈ pairs, c.1 = d.1 := by
      intro c hc
      obtain ⟨d, hd, rfl⟩ := List.mem_map.mp (List.mem_reverse.mp hc)
      exact ⟨d, hd, rfl⟩
    have hkinds : Valuation.HasKinds ((pairs.map (Prod.map id w)).reverse.foldl Place.set σ) K := by
      refine Place.hasKinds_foldl_set (fun c hc => ?_) hσ
      obtain ⟨d, hd, hcd⟩ := hmem c hc
      rw [hcd]
      exact (hpairs d (List.mem_cons_of_mem _ hd)).1
    -- the variable of `b` is no place, so the other writes leave it alone
    have hvalue : (Expr.var b.2).value M ((pairs.map (Prod.map id w)).reverse.foldl Place.set σ) =
        (w b.2).toInt := by
      rw [Expr.value, Place.foldl_set_of_ne, hw b List.mem_cons_self, Datum.toInt_int]
      intro c hc
      obtain ⟨d, hd, hcd⟩ := hmem c hc
      rw [hcd]
      exact hnew b List.mem_cons_self d (List.mem_cons_of_mem _ hd)
    rw [List.map_cons, List.reverse_cons, List.foldl_append]
    exact htail.trans (hfit.holds_replaceIn (e := .var b.2) hcell hp hq ht hkinds hvalue)

end

/-! ## Temporaries -/

/-- The temporaries of an assignment to places. -/
def temporaries (places : List Place) (es : List Expr) (q : Pred) : List String :=
  newNames (fun t => t.name ++ "_tmp") (places.map Place.target)
    (q.free ++ ((places.map Place.target).zip es).flatMap fun (t, e) => t.usedNames e)

/-- The order in which the predicate takes the places: variables first. -/
def variablesFirst (pairs : List (Place × String)) : List (Place × String) :=
  (pairs.filter fun b => b.1.target.scalar?.isSome) ++
    pairs.filter fun b => b.1.target.scalar?.isNone

theorem variablesFirst_perm (pairs : List (Place × String)) :
    (variablesFirst pairs).Perm pairs := by
  unfold variablesFirst
  simp only [← Option.not_isSome]
  exact List.filter_append_perm _ pairs

theorem viaTemporaries_places (places : List Place) (es : List Expr) (q : Pred) :
    viaTemporaries (places.map Place.target) es q =
      (q.replaceAll (variablesFirst (places.zip (temporaries places es q)))).subst
        ((temporaries places es q).zip es) := by
  have hfold : ∀ temps : List String,
      ((((places.map Place.target).zip temps).filter fun b => b.1.scalar?.isSome) ++
        (((places.map Place.target).zip temps).filter fun b => b.1.scalar?.isNone)).foldl
          (fun q b => b.1.replaceIn (.var b.2) q) q =
      q.replaceAll (variablesFirst (places.zip temps)) := by
    intro temps
    rw [List.zip_map_left, List.filter_map, List.filter_map, ← List.map_append, List.foldl_map]
    rfl
  exact congrArg (Pred.subst _) (hfold _)

theorem eq_of_mem_zip {α β γ : Type} {f : α → γ} {g : β → γ} : ∀ {as : List α} {bs : List β},
    as.map f = bs.map g → ∀ {b : α × β}, b ∈ as.zip bs → f b.1 = g b.2
  | [], _, _, _, hb => by cases hb
  | _ :: _, [], _, _, hb => by cases hb
  | _ :: _, _ :: _, h, _, hb => by
    obtain ⟨hhead, htail⟩ := List.cons.inj h
    rcases List.mem_cons.mp hb with rfl | hb
    · exact hhead
    · exact eq_of_mem_zip htail hb

/-- Different names can be given any values. -/
theorem exists_map_eq {β : Type} [Inhabited β] : ∀ {names : List String} {ws : List β},
    names.Nodup → ws.length = names.length → ∃ w : String → β, names.map w = ws
  | [], [], _, _ => ⟨fun _ => default, rfl⟩
  | t :: names, v :: ws, hnodup, hlen => by
    obtain ⟨ht, hnodup⟩ := List.nodup_cons.mp hnodup
    obtain ⟨w, rfl⟩ := exists_map_eq hnodup (Nat.succ_inj.mp hlen)
    refine ⟨Function.update w t v, ?_⟩
    rw [List.map_cons, Function.update_self]
    refine congrArg (v :: ·) (List.map_congr_left fun y hy => Function.update_of_ne ?_ ..)
    rintro rfl
    exact ht hy

section

variable {places : List Place} {es : List Expr} {q : Pred} {K : Kinds}

theorem length_temporaries : (temporaries places es q).length = places.length := by
  rw [temporaries, length_newNames, List.length_map]

/-- The temporaries are new: they are free neither in the predicate nor in an expression, and no
place has such a name. -/
theorem temporaries_new (hlen : places.length = es.length) {t : String}
    (ht : t ∈ temporaries places es q) :
    t ∉ q.free ∧ (∀ place ∈ places, t ≠ place.name) ∧ ∀ e ∈ es, t ∉ e.free := by
  have hnot := not_mem_of_mem_newNames ht
  rw [List.mem_append, not_or, List.mem_flatMap] at hnot
  have hused : ∀ b ∈ places.zip es, t ∉ b.1.target.usedNames b.2 := by
    intro b hb hu
    refine hnot.2 ⟨(b.1.target, b.2), ?_, hu⟩
    rw [List.zip_map_left]
    exact List.mem_map.mpr ⟨b, hb, rfl⟩
  refine ⟨hnot.1, fun place hplace htp => ?_, fun e he hte => ?_⟩
  · rw [← List.map_fst_zip (Nat.le_of_eq hlen)] at hplace
    obtain ⟨b, hb, rfl⟩ := List.mem_map.mp hplace
    have hname : t = b.1.target.name := htp.trans (Place.name_target _).symm
    exact hused b hb (List.mem_append_left _ (List.mem_cons.mpr (.inl hname)))
  · rw [← List.map_snd_zip (Nat.le_of_eq hlen.symm)] at he
    obtain ⟨b, hb, rfl⟩ := List.mem_map.mp he
    exact hused b hb (List.mem_append_left _ (List.mem_cons_of_mem _ hte))

/-- The kinds in which the temporaries are numbers. -/
theorem temporaries_kinds (hlen : places.length = es.length)
    (hfits : ∀ place ∈ places, place.Fits K) (hes : ∀ e ∈ es, e.Kinded K) (hq : q.Kinded K) :
    q.Kinded (K.withInts (temporaries places es q)) ∧
      (∀ b ∈ variablesFirst (places.zip (temporaries places es q)),
        b.1.Fits (K.withInts (temporaries places es q)) ∧
          K.withInts (temporaries places es q) b.2 = .int) ∧
      Bindings.Kinded ((temporaries places es q).zip es)
        (K.withInts (temporaries places es q)) := by
  refine ⟨hq.congr fun y hy => ?_, fun b hb => ?_, fun b hb => ?_⟩
  · exact (if_neg fun ht => (temporaries_new hlen ht).1 hy).symm
  · obtain ⟨hplace, ht⟩ := List.of_mem_zip ((variablesFirst_perm _).mem_iff.mp hb)
    refine ⟨?_, if_pos ht⟩
    have hsame : K.withInts (temporaries places es q) b.1.name = K b.1.name :=
      if_neg fun ht' => (temporaries_new hlen ht').2.1 b.1 hplace rfl
    exact Place.fits_congr hsame (hfits b.1 hplace)
  · obtain ⟨ht, he⟩ := List.of_mem_zip hb
    refine ⟨if_pos ht, (hes b.2 he).congr fun y hy => ?_⟩
    exact (if_neg fun ht' => (temporaries_new hlen ht').2.2 b.2 he hy).symm

/-- No temporary is left in the predicate. -/
theorem not_mem_temporaries_of_free (hlen : places.length = es.length)
    (hfits : ∀ place ∈ places, place.Fits K) (hes : ∀ e ∈ es, e.Kinded K) (hq : q.Kinded K)
    {z : String} (hz : z ∈ (viaTemporaries (places.map Place.target) es q).free) :
    z ∉ temporaries places es q := by
  obtain ⟨hq', hpairs, hm⟩ := temporaries_kinds hlen hfits hes hq
  rw [viaTemporaries_places] at hz
  rcases Pred.mem_free_subst ((hq'.replaceAll hpairs).readsApart hm.keys_int) hz with
    hfree | ⟨-, hkeys⟩
  · obtain ⟨b, hb, hzb⟩ := List.mem_flatMap.mp hfree
    exact fun ht => (temporaries_new hlen ht).2.2 b.2 (List.of_mem_zip hb).2 hzb
  · rw [Bindings.keys, List.map_fst_zip (Nat.le_of_eq (length_temporaries.trans hlen))] at hkeys
    exact hkeys

theorem Pred.Kinded.viaTemporaries (hlen : places.length = es.length)
    (hfits : ∀ place ∈ places, place.Fits K) (hes : ∀ e ∈ es, e.Kinded K) (hq : q.Kinded K) :
    (viaTemporaries (places.map Place.target) es q).Kinded K := by
  obtain ⟨hq', hpairs, hm⟩ := temporaries_kinds hlen hfits hes hq
  have hk : (Contracts.viaTemporaries (places.map Place.target) es q).Kinded
      (K.withInts (temporaries places es q)) := by
    rw [viaTemporaries_places]
    exact (hq'.replaceAll hpairs).subst hm
  refine hk.congr fun z hz => ?_
  exact if_neg (not_mem_temporaries_of_free hlen hfits hes hq hz)

theorem Pred.plain_viaTemporaries (hes : ∀ e ∈ es, e.plain = true) (hp : q.plain = true) :
    (viaTemporaries (places.map Place.target) es q).plain = true := by
  rw [viaTemporaries_places]
  exact Pred.plain_subst (fun b hb => hes b.2 (List.of_mem_zip hb).2) (Pred.plain_replaceAll hp)

/-- The order of the predicate and the order of the execution write the same. -/
theorem foldl_set_variablesFirst (hnodup : places.Nodup) (hfits : ∀ place ∈ places, place.Fits K)
    {names : List String} (hlen : names.length = places.length) (w : String → Int64)
    (ρ : Valuation Cells) :
    ((variablesFirst (places.zip names)).map (Prod.map id w)).reverse.foldl Place.set ρ =
      (places.zip (names.map w)).foldl Place.set ρ := by
  have hperm : ((variablesFirst (places.zip names)).map (Prod.map id w)).reverse.Perm
      (places.zip (names.map w)) := by
    rw [List.zip_map_right]
    exact (List.reverse_perm _).trans ((variablesFirst_perm _).map _)
  have hnodup' : ((places.zip (names.map w)).map Prod.fst).Nodup := by
    rwa [List.map_fst_zip (Nat.le_of_eq (hlen.symm.trans (List.length_map _).symm))]
  refine (Place.foldl_set_perm (K := K) hperm.symm (fun b hb => ?_)
    (fun b hb c hc hbc => ?_) ρ).symm
  · exact hfits b.1 (List.of_mem_zip hb).1
  · exact List.inj_on_of_nodup_map hnodup' hb hc hbc

/-- The predicate with temporaries is the predicate where all places have been written. -/
theorem Pred.holds_viaTemporaries {M : Interpretation Cells}
    (hcell : ∀ c i, M.cell c i = c.valueAt i) (hlen : places.length = es.length)
    (hnodup : places.Nodup) (hfits : ∀ place ∈ places, place.Fits K)
    (hes : ∀ e ∈ es, e.Kinded K) (hp : q.plain = true) (hq : q.Kinded K) {ρ : Valuation Cells}
    (hρ : ρ.HasKinds K) {ws : List Int64} (hws : ws.length = places.length)
    (hvalues : es.map (fun e => e.value M ρ) = ws.map Int64.toInt) :
    (viaTemporaries (places.map Place.target) es q).Holds M ρ ↔
      q.Holds M ((places.zip ws).foldl Place.set ρ) := by
  obtain ⟨hq', hpairs, hm⟩ := temporaries_kinds hlen hfits hes hq
  have hfree := fun z => not_mem_temporaries_of_free hlen hfits hes hq (z := z)
  have hnew := fun t => temporaries_new (q := q) hlen (t := t)
  have hvia := viaTemporaries_places places es q
  have hnodupT : (temporaries places es q).Nodup := nodup_newNames _ _ _
  have hlenT : (temporaries places es q).length = places.length := length_temporaries
  generalize temporaries places es q = temps at *
  obtain ⟨w, rfl⟩ := exists_map_eq hnodupT (hws.trans hlenT.symm)
  -- let the temporaries stand for the values of their expressions
  have hvary : ρ.VariesOn temps fun y => if y ∈ temps then .int (w y).toInt else ρ y := by
    refine ⟨fun y hy => if_neg hy, fun y hy => ?_⟩
    rw [if_pos hy]
    rfl
  generalize hσ : (fun y => if y ∈ temps then .int (w y).toInt else ρ y) = σ at hvary
  have hσw : ∀ t ∈ temps, σ t = .int (w t).toInt := by
    intro t ht
    rw [← hσ]
    exact if_pos ht
  have happly : Bindings.apply M (temps.zip es) σ = σ := by
    funext y
    rw [Bindings.apply]
    cases hl : List.lookup y (temps.zip es) with
    | none => rfl
    | some e =>
      have hmem : (y, e) ∈ temps.zip es := Bindings.mem_of_lookup hl
      obtain ⟨hy, he⟩ := List.of_mem_zip hmem
      have hsame : e.value M σ = e.value M ρ :=
        Expr.value_congr M e fun x hx => hvary.same x fun ht => (hnew x ht).2.2 e he hx
      have hvalue : (w y).toInt = e.value M ρ := by
        rw [List.map_map] at hvalues
        exact eq_of_mem_zip hvalues.symm hmem
      exact (congrArg Datum.int (hsame.trans hvalue.symm)).trans (hσw y hy).symm
  calc (viaTemporaries (places.map Place.target) es q).Holds M ρ
      ↔ (viaTemporaries (places.map Place.target) es q).Holds M σ :=
        Pred.holds_congr M _ fun z hz => (hvary.same z (hfree z hz)).symm
    _ ↔ (q.replaceAll (variablesFirst (places.zip temps))).Holds M σ := by
        rw [hvia, Pred.holds_subst M (hq'.replaceAll hpairs) hm (hρ.variesOn hvary), happly]
    _ ↔ q.Holds M ((places.zip (temps.map w)).foldl Place.set σ) := by
        rw [Pred.holds_replaceAll hcell (hρ.variesOn hvary) hp hq' hpairs (w := w),
          foldl_set_variablesFirst hnodup hfits hlenT]
        · intro b hb
          exact hσw b.2 (List.of_mem_zip ((variablesFirst_perm _).mem_iff.mp hb)).2
        · intro b hb c hc
          have ht := (List.of_mem_zip ((variablesFirst_perm _).mem_iff.mp hb)).2
          have hplace := (List.of_mem_zip ((variablesFirst_perm _).mem_iff.mp hc)).1
          exact (hnew b.2 ht).2.1 c.1 hplace
    _ ↔ q.Holds M ((places.zip (temps.map w)).foldl Place.set ρ) := by
        refine Pred.holds_congr M _ fun z hz => ?_
        refine Place.foldl_set_congr (T := temps) (fun b hb ht => ?_) hvary.same z
          fun ht => (hnew z ht).1 hz
        exact (hnew _ ht).2.1 b.1 (List.of_mem_zip hb).1 rfl

end

/-! ## Assignments to places are sound -/

section

variable {M : Interpretation Cells} {p : Program} {b : Below} {K : Kinds} {rest : Valuation Cells}
  {places : List Place} {es : List Expr} {q r : Pred}

theorem isSingleCall_of_plain (h : ∀ e ∈ es, e.plain = true) : isSingleCall es = false := by
  unfold isSingleCall
  split
  · next f args => exact absurd (h _ List.mem_cons_self) Bool.false_ne_true
  · rfl

/-- The predicate before an assignment to places that are not all variables. -/
theorem wpAssign_places (hes : ∀ e ∈ es, e.plain = true)
    (hcells : ((places.map Place.target).all fun t => t.scalar?.isSome) = false)
    (h : wpAssign (places.map Place.target) es q = .ok r) :
    (∃ place e, places = [place] ∧ es = [e] ∧ r = place.target.replaceIn e q) ∨
    (places.length = es.length ∧ r = viaTemporaries (places.map Place.target) es q) := by
  rcases wpAssign_cases h with ⟨hnil, -⟩ | ⟨-, hcall, -⟩ | ⟨t, e, ht, rfl, hr⟩ |
    ⟨hlen, -, ⟨hall, -⟩ | ⟨-, hr⟩⟩
  · rw [hnil] at hcells
    cases hcells
  · rw [isSingleCall_of_plain hes] at hcall
    cases hcall
  · obtain ⟨place, rfl, rfl⟩ := List.map_eq_singleton_iff.mp ht
    exact .inl ⟨place, e, rfl, rfl, hr⟩
  · rw [hcells] at hall
    cases hall
  · rw [List.length_map] at hlen
    exact .inr ⟨hlen, hr⟩

/-- Places that are all variables, as names. -/
theorem exists_names_of_places (hfits : ∀ place ∈ places, place.Fits K)
    (hall : ((places.map Place.target).all fun t => t.scalar?.isSome) = true) :
    ∃ xs : List String, places.map Place.target = xs.map Target.var ∧ ∀ x ∈ xs, K x = .int := by
  induction places with
  | nil => exact ⟨[], rfl, fun x hx => absurd hx List.not_mem_nil⟩
  | cons place places ih =>
    rw [List.map_cons, List.all_cons, Bool.and_eq_true] at hall
    obtain ⟨xs, hxs, hints⟩ := ih (fun pl hpl => hfits pl (List.mem_cons_of_mem _ hpl)) hall.2
    have hfit := hfits place List.mem_cons_self
    cases place with
    | var x =>
      exact ⟨x :: xs, congrArg (Target.var x :: ·) hxs, List.forall_mem_cons.mpr ⟨hfit, hints⟩⟩
    | cell a i => exact absurd hall.1 Bool.false_ne_true

theorem Pred.Kinded.wpAssign_places (hq : q.Kinded K) (hfits : ∀ place ∈ places, place.Fits K)
    (hes : ∀ e ∈ es, e.plain = true ∧ e.Kinded K)
    (h : wpAssign (places.map Place.target) es q = .ok r) : r.Kinded K := by
  cases hall : (places.map Place.target).all fun t => t.scalar?.isSome with
  | true =>
    obtain ⟨xs, hxs, hints⟩ := exists_names_of_places hfits hall
    rw [hxs] at h
    exact hq.wpAssign_vars hints (fun e he => (hes e he).2) h
  | false =>
    rcases Contracts.wpAssign_places (fun e he => (hes e he).1) hall h with
      ⟨place, e, rfl, rfl, rfl⟩ | ⟨hlen, rfl⟩
    · exact (hfits place List.mem_cons_self).kinded_replaceIn (hes e List.mem_cons_self).2 hq
    · exact hq.viaTemporaries hlen hfits fun e he => (hes e he).2

theorem Pred.plain_wpAssign_places (hp : q.plain = true) (hfits : ∀ place ∈ places, place.Fits K)
    (hes : ∀ e ∈ es, e.plain = true)
    (h : wpAssign (places.map Place.target) es q = .ok r) : r.plain = true := by
  cases hall : (places.map Place.target).all fun t => t.scalar?.isSome with
  | true =>
    obtain ⟨xs, hxs, -⟩ := exists_names_of_places hfits hall
    rw [hxs] at h
    rcases wpAssign_vars h with ⟨-, rfl⟩ | ⟨-, hcall, -⟩ | ⟨-, rfl⟩
    · exact hp
    · rw [isSingleCall_of_plain hes] at hcall
      cases hcall
    · refine Pred.plain_subst (fun b hb => ?_) hp
      exact hes b.2 (List.of_mem_zip (Bindings.mem_of_mem_ofPairs hb)).2
  | false =>
    rcases wpAssign_places hes hall h with ⟨place, e, rfl, rfl, rfl⟩ | ⟨hlen, rfl⟩
    · exact place.plain_replaceIn (hes e List.mem_cons_self) hp
    · exact Pred.plain_viaTemporaries hes hp

/-- The predicate before an assignment to different places makes the one after it true. -/
theorem ensures_assign_places (hM : M.Agrees p b) (hrest : rest.HasKinds K)
    (hnodup : places.Nodup) (hfits : ∀ place ∈ places, place.Fits K)
    (hes : ∀ e ∈ es, e.plain = true ∧ e.Kinded K) (hp : q.plain = true) (hq : q.Kinded K)
    (h : wpAssign (places.map Place.target) es q = .ok r) :
    Ensures K (fun s => r.Holds M (s.valuation rest)) (execAssign p b (places.map Place.target) es)
      (fun s => q.Holds M (s.valuation rest)) := by
  have hplain : ∀ e ∈ es, e.plain = true := fun e he => (hes e he).1
  have hkinds : ∀ e ∈ es, e.Kinded K := fun e he => (hes e he).2
  have hcall := isSingleCall_of_plain hplain
  -- variables alone are assigned at once, and with a cell among them places are written in turn
  cases hall : (places.map Place.target).all fun t => t.scalar?.isSome with
  | true =>
    obtain ⟨xs, hxs, hints⟩ := exists_names_of_places hfits hall
    rw [hxs] at h ⊢
    refine ensures_assign_vars hM hrest hints hkinds (fun _ f args hcall' => ?_) hq h
    rw [hcall'] at hcall
    cases hcall
  | false =>
    intro s fuel s' fuel' hs hr hrun
    have hne : places ≠ [] := by
      rintro rfl
      cases hall
    obtain ⟨ws, hws, hvalues, hs', hval⟩ :=
      execAssign_places hM hrest hfits hne hkinds hcall hs hrun
    refine ⟨hs', ?_⟩
    have hval : s'.valuation rest = (places.zip ws).foldl Place.set (s.valuation rest) := hval
    dsimp only
    rw [hval]
    rcases wpAssign_places hplain hall h with ⟨place, e, rfl, rfl, rfl⟩ | ⟨hlen, rfl⟩
    · obtain ⟨v, rfl⟩ := List.length_eq_one_iff.mp hws
      have hv : e.value M (s.valuation rest) = v.toInt := (List.cons.inj hvalues).1
      exact ((hfits place List.mem_cons_self).holds_replaceIn hM.cell hp hq
        (hkinds e List.mem_cons_self) (hs.valuation hrest) hv).mp hr
    · exact (Pred.holds_viaTemporaries hM.cell hlen hnodup hfits hkinds hp hq (hs.valuation hrest)
        hws hvalues).mp hr

end

end Contracts

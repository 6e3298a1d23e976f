import Contracts.Proofs.ExecutionRules
import Contracts.Proofs.SubstitutionMeaning

/-!
# Assignments to variables

An assignment to variables writes its values from left to right, so of two values for one variable
the last stays. The predicate that has to hold before it puts the expressions in, and of two
expressions for one variable it keeps the last as well: both are a look-up from the end
(`State.getElem?_insertAll`, `Bindings.lookup_ofPairs`).

When a call returns several values nothing is known about them, and the predicate is closed over
new names, one for each target. Two targets of one name then have a new name each, and only the
first is used; this does no harm, since the predicate is asked for all numbers.
-/

set_option autoImplicit false

namespace Contracts

/-! ## Look-up from the end -/

/-- The state with several variables set, one after the other. -/
def State.insertAll (s : State) (pairs : List (String × Value)) : State :=
  pairs.foldl (fun s b => s.insert b.1 b.2) s

theorem State.getElem?_insertAll (s : State) (pairs : List (String × Value)) (x : String) :
    (s.insertAll pairs)[x]? = (pairs.reverse.lookup x).or s[x]? := by
  induction pairs generalizing s with
  | nil => rfl
  | cons b pairs ih =>
    obtain ⟨y, v⟩ := b
    have hstep : s.insertAll ((y, v) :: pairs) = State.insertAll (s.insert y v) pairs := rfl
    rw [hstep, ih, List.reverse_cons, List.lookup_append, Option.or_assoc]
    congr 1
    rw [State.getElem?_insert, List.lookup_cons, List.lookup_nil]
    by_cases hxy : x = y
    · rw [hxy, if_pos rfl, beq_self_eq_true, Option.some_or]
    · rw [if_neg (Ne.symm hxy), beq_eq_false_iff_ne.mpr hxy, Option.none_or]

theorem Bindings.lookup_ofPairs (pairs : List (String × Expr)) (x : String) :
    (Bindings.ofPairs pairs).lookup x = pairs.reverse.lookup x := by
  have hfold : ∀ m : Bindings,
      (pairs.foldl (fun (m : Bindings) b => b :: m.without b.1) m).lookup x =
        (pairs.reverse.lookup x).or (m.lookup x) := by
    induction pairs with
    | nil =>
      intro m
      rfl
    | cons b pairs ih =>
      intro m
      obtain ⟨y, e⟩ := b
      rw [List.foldl_cons, ih, List.reverse_cons, List.lookup_append, Option.or_assoc]
      congr 1
      rw [List.lookup_cons, List.lookup_cons, List.lookup_nil, Bindings.lookup_without]
      by_cases hxy : x = y
      · rw [hxy, beq_self_eq_true, Option.some_or]
      · rw [beq_eq_false_iff_ne.mpr hxy, if_neg hxy, Option.none_or]
  exact (hfold []).trans (Option.or_none ..)

theorem lookup_map_snd {α β : Type} (g : α → β) (pairs : List (String × α)) (x : String) :
    (pairs.map (Prod.map id g)).lookup x = (pairs.lookup x).map g := by
  induction pairs with
  | nil => rfl
  | cons b pairs ih =>
    rw [List.map_cons, List.lookup_cons, List.lookup_cons, ih, Prod.map_fst, id, Prod.map_snd]
    cases x == b.1 with
    | true => rfl
    | false => rfl

/-! ## What an assignment to variables does -/

theorem State.HasKinds.insert {s : State} {K : Kinds} (hs : s.HasKinds K) {x : String} {v : Value}
    (hv : v.type = K x) : State.HasKinds (s.insert x v) K := by
  intro y w hy
  rw [State.getElem?_insert] at hy
  split at hy
  · next hxy =>
    cases hy
    rw [hv, hxy]
  · exact hs y w hy

theorem State.HasKinds.insertAll {s : State} {K : Kinds} (hs : s.HasKinds K)
    {pairs : List (String × Value)} (hv : ∀ b ∈ pairs, b.2.type = K b.1) :
    (s.insertAll pairs).HasKinds K := by
  induction pairs generalizing s with
  | nil => exact hs
  | cons b pairs ih =>
    exact ih (hs.insert (hv b List.mem_cons_self)) fun c hc => hv c (List.mem_cons_of_mem _ hc)

theorem State.HasKinds.ofPairs {K : Kinds} {pairs : List (String × Value)}
    (h : ∀ b ∈ pairs, b.2.type = K b.1) : (State.ofPairs pairs).HasKinds K := by
  have hempty : State.HasKinds ∅ K := by
    intro x v hx
    cases hx
  exact hempty.insertAll h

/-- A function starts in a state of the declared kinds if its arguments are of these kinds. -/
theorem State.HasKinds.start {K : Kinds} {f : FunctionDef} {args : State} (hargs : args.HasKinds K)
    (hdecls : ∀ d ∈ f.decls, d.type = K d.name) : (State.start f args).HasKinds K := by
  refine State.HasKinds.ofPairs ?_
  intro b hb
  obtain ⟨d, hd, rfl⟩ := List.mem_map.mp hb
  cases hx : args[d.name]? with
  | some v => exact hargs d.name v hx
  | none =>
    rw [← hdecls d hd]
    dsimp only
    cases d.type <;> rfl

theorem State.valuation_insertAll (s : State) (rest : Valuation Cells)
    (pairs : List (String × Value)) (x : String) :
    (s.insertAll pairs).valuation rest x =
      ((pairs.reverse.lookup x).map Value.datum).getD (s.valuation rest x) := by
  cases hx : pairs.reverse.lookup x with
  | none =>
    refine State.valuation_congr ?_
    rw [State.getElem?_insertAll, hx, Option.none_or]
  | some v =>
    refine State.valuation_of_some ?_
    rw [State.getElem?_insertAll, hx, Option.some_or]

section

variable {p : Program} {b : Below} {s : State} {fuel : Nat}

theorem mapM_place_vars (xs : List String) :
    (xs.map Target.var).mapM (Target.place p b s) = pure (xs.map Place.var) := by
  induction xs with
  | nil => rfl
  | cons x xs ih => rw [List.map_cons, List.mapM_cons, Target.place, pure_bind, ih, pure_bind,
      List.map_cons]

theorem writeAll_vars (s : State) (xs : List String) (values : List Value) :
    writeAll s ((xs.map Place.var).zip values) = pure (s.insertAll (xs.zip values)) := by
  induction xs generalizing s values with
  | nil => rfl
  | cons x xs ih =>
    cases values with
    | nil => rfl
    | cons v values =>
      rw [List.map_cons, List.zip_cons_cons, List.zip_cons_cons, writeAll, Place.write, pure_bind,
        ih]
      rfl

/-- A finished assignment to variables has set them to its values. -/
theorem execAssign_vars {xs : List String} {es : List Expr} {r : State × Nat}
    (h : execAssign p b (xs.map Target.var) es s fuel = .ok r) :
    ∃ values fuel₁, assignedValues p b s xs.length es fuel = .ok (values, fuel₁) ∧
      (xs = [] ∨ values.length = xs.length) ∧ r.1 = s.insertAll (xs.zip values) := by
  obtain ⟨values, fuel₁, hv, hcases⟩ := execAssign_cases h
  rw [List.length_map] at hv hcases
  refine ⟨values, fuel₁, hv, ?_⟩
  rcases hcases with ⟨hnil, hr⟩ | ⟨hn, places, fuel₂, hplaces, hwrite⟩
  · obtain rfl : xs = [] := List.map_eq_nil_iff.mp hnil
    exact ⟨.inl rfl, hr⟩
  · rw [mapM_place_vars, EvalM.pure_eq_ok] at hplaces
    cases hplaces
    rw [writeAll_vars, EvalM.pure_eq_ok] at hwrite
    cases hwrite
    exact ⟨.inr hn, rfl⟩

theorem assignedValues_of_call {n : Nat} (hn : n ≠ 1) (f : String) (args : List Expr) :
    assignedValues p b s n [.call f args] =
      callFunction p b f args.length (Expr.operands p b s args) := by
  rw [assignedValues, singleCall?]
  exact if_pos hn

theorem assignedValues_of_operands {n : Nat} {es : List Expr}
    (h : n = 1 ∨ isSingleCall es = false) :
    assignedValues p b s n es = Expr.operands p b s es := by
  unfold assignedValues
  split
  · next f args hcall =>
    rcases h with hn | hno
    · rw [if_neg (not_not.mpr hn)]
    · unfold singleCall? at hcall
      split at hcall
      · cases hno
      · cases hcall
  · rfl

end

/-! ## The predicate before an assignment -/

/-- The ways to work out the predicate before an assignment. -/
theorem wpAssign_cases {targets : List Target} {exprs : List Expr} {q r : Pred}
    (h : wpAssign targets exprs q = .ok r) :
    (targets = [] ∧ r = q) ∨
    (1 < targets.length ∧ isSingleCall exprs = true ∧ r = havoc targets q) ∨
    (∃ t e, targets = [t] ∧ exprs = [e] ∧ r = t.replaceIn e q) ∨
    (targets.length = exprs.length ∧ isSingleCall exprs = false ∧
      ((targets.all (·.scalar?.isSome) = true ∧
        r = q.subst (.ofPairs ((targets.map Target.name).zip exprs))) ∨
      (targets.all (·.scalar?.isSome) = false ∧ r = viaTemporaries targets exprs q))) := by
  unfold wpAssign at h
  split at h
  · next hnil =>
    cases h
    exact .inl ⟨List.isEmpty_iff.mp hnil, rfl⟩
  next hnil =>
  split at h
  · cases h
  split at h
  · next hcall =>
    cases h
    exact .inr (.inl ⟨hcall.1, hcall.2, rfl⟩)
  next hcall =>
  split at h
  · cases h
    exact .inr (.inr (.inl ⟨_, _, rfl, rfl, rfl⟩))
  next hpair =>
  refine .inr (.inr (.inr ?_))
  split at h
  · cases h
  next hlen =>
  have hlen : targets.length = exprs.length := not_not.mp hlen
  -- one target alone would have been the pair above
  have hsingle : isSingleCall exprs = false := by
    by_contra hc
    rw [Bool.not_eq_false] at hc
    have hle : ¬1 < targets.length := fun hlt => hcall ⟨hlt, hc⟩
    unfold isSingleCall at hc
    split at hc
    · obtain ⟨t, rfl⟩ := List.length_eq_one_iff.mp hlen
      exact hpair t _ rfl rfl
    · cases hc
  refine ⟨hlen, hsingle, ?_⟩
  split at h
  · next hall =>
    cases h
    exact .inl ⟨hall, rfl⟩
  · next hall =>
    cases h
    exact .inr ⟨Bool.eq_false_iff.mpr hall, rfl⟩

/-! ## Expressions for variables -/

section

variable {M : Interpretation Cells} {p : Program} {b : Below} {K : Kinds} {rest : Valuation Cells}

theorem Expr.data_of_kinded {α : Type} (M : Interpretation α) {es : List Expr} {K : Kinds}
    {ρ : Valuation α} (hes : ∀ e ∈ es, e.Kinded K) (hρ : ρ.HasKinds K) :
    Expr.data M es ρ = es.map fun e => .int (e.value M ρ) := by
  induction es with
  | nil => rfl
  | cons e es ih =>
    rw [Expr.data, List.map_cons, (hes e List.mem_cons_self).datum_eq hρ,
      ih fun e' he' => hes e' (List.mem_cons_of_mem _ he')]

/-- Setting the variables to the values of the expressions is what the substitution stands for. -/
theorem State.valuation_of_operands (hM : M.Agrees p b) {s : State} {es : List Expr}
    (hes : ∀ e ∈ es, e.Kinded K) (hρ : (s.valuation rest).HasKinds K) {fuel fuel₁ : Nat}
    {values : List Value} (hv : Expr.operands p b s es fuel = .ok (values, fuel₁))
    (xs : List String) :
    (s.insertAll (xs.zip values)).valuation rest =
      (Bindings.ofPairs (xs.zip es)).apply M (s.valuation rest) := by
  have hdata : values.map Value.datum = es.map fun e => .int (e.value M (s.valuation rest)) := by
    rw [← Expr.data_of_kinded M hes hρ]
    exact (Expr.data_of_operands hM hv).symm
  have hlookup : ∀ x, ((xs.zip values).reverse.lookup x).map Value.datum =
      ((xs.zip es).reverse.lookup x).map fun e => .int (e.value M (s.valuation rest)) := by
    intro x
    rw [← lookup_map_snd, ← lookup_map_snd, List.map_reverse, List.map_reverse, ← List.zip_map,
      ← List.zip_map, List.map_id, hdata]
  funext x
  rw [State.valuation_insertAll, hlookup, Bindings.apply, Bindings.lookup_ofPairs]
  cases (xs.zip es).reverse.lookup x <;> rfl

theorem State.HasKinds.of_operands (hM : M.Agrees p b) {s : State} (hs : s.HasKinds K)
    {es : List Expr} (hes : ∀ e ∈ es, e.Kinded K) (hrest : rest.HasKinds K) {fuel fuel₁ : Nat}
    {values : List Value} (hv : Expr.operands p b s es fuel = .ok (values, fuel₁)) :
    ∀ v ∈ values, v.type = .int := by
  intro v hmem
  have hdata : v.datum ∈ es.map fun e => Datum.int (e.value M (s.valuation rest)) := by
    rw [← Expr.data_of_kinded M hes (hs.valuation hrest), Expr.data_of_operands hM hv]
    exact List.mem_map_of_mem hmem
  obtain ⟨e, -, he⟩ := List.mem_map.mp hdata
  rw [← Value.type_datum, ← he]
  rfl

end

/-! ## Unknown values for variables -/

theorem length_newNames (base : Target → String) (targets : List Target) (avoid : List String) :
    (newNames base targets avoid).length = targets.length := by
  induction targets generalizing avoid with
  | nil => rfl
  | cons t targets ih => rw [newNames, List.length_cons, List.length_cons, ih]

theorem not_mem_of_mem_newNames {base : Target → String} {targets : List Target}
    {avoid : List String} {x : String} (h : x ∈ newNames base targets avoid) : x ∉ avoid := by
  induction targets generalizing avoid with
  | nil => cases h
  | cons t targets ih =>
    rw [newNames] at h
    rcases List.mem_cons.mp h with rfl | h
    · exact freshName_not_mem _ _
    · exact fun hx => ih h (List.mem_cons_of_mem _ hx)

theorem nodup_newNames (base : Target → String) (targets : List Target) (avoid : List String) :
    (newNames base targets avoid).Nodup := by
  induction targets generalizing avoid with
  | nil => exact List.nodup_nil
  | cons t targets ih =>
    rw [newNames]
    refine List.nodup_cons.mpr ⟨fun h => ?_, ih _⟩
    exact not_mem_of_mem_newNames h List.mem_cons_self

/-- New names can stand for any numbers that are wanted of them. -/
theorem Valuation.exists_variesOn {α : Type} (ρ d : Valuation α) :
    ∀ {xs names : List String}, names.Nodup → names.length = xs.length →
      (∀ x ∈ xs, (d x).type = .int) →
      ∃ σ, ρ.VariesOn names σ ∧ ∀ b ∈ xs.zip names, σ b.2 = d b.1
  | [], [], _, _, _ => by
    refine ⟨ρ, ⟨fun _ _ => rfl, fun x hx => absurd hx List.not_mem_nil⟩, fun b hb => ?_⟩
    cases hb
  | x :: xs, t :: names, hnodup, hlen, hd => by
    obtain ⟨ht, hnodup⟩ := List.nodup_cons.mp hnodup
    obtain ⟨σ, hσ, hpairs⟩ := exists_variesOn ρ d hnodup (Nat.succ_inj.mp hlen)
      fun y hy => hd y (List.mem_cons_of_mem _ hy)
    -- the name `t` is not among the others, so giving it a value keeps theirs
    refine ⟨Function.update σ t (d x), ⟨fun y hy => ?_, fun y hy => ?_⟩, fun b hb => ?_⟩
    · rw [Function.update_of_ne (List.ne_of_not_mem_cons hy),
        hσ.same y (List.not_mem_of_not_mem_cons hy)]
    · by_cases hyt : y = t
      · rw [hyt, Function.update_self, hd x List.mem_cons_self]
      · rw [Function.update_of_ne hyt, hσ.ints y ((List.mem_cons.mp hy).resolve_left hyt)]
    · rw [List.zip_cons_cons] at hb
      rcases List.mem_cons.mp hb with rfl | hb
      · rw [Function.update_self]
      · have hbt : b.2 ≠ t := by
          intro heq
          exact ht (heq ▸ (List.of_mem_zip (show (b.1, b.2) ∈ xs.zip names from hb)).2)
        rw [Function.update_of_ne hbt, hpairs b hb]

/-- One variable after the other turned into a new name. -/
def Pred.renameAll (pairs : List (String × String)) (q : Pred) : Pred :=
  pairs.foldl (fun q b => q.substVar b.1 (.var b.2)) q

theorem Bindings.apply_single {α : Type} (M : Interpretation α) (x : String) (e : Expr)
    (ρ : Valuation α) :
    Bindings.apply M [(x, e)] ρ = Function.update ρ x (.int (e.value M ρ)) := by
  funext y
  rw [Bindings.apply, List.lookup_cons, List.lookup_nil]
  by_cases hyx : y = x
  · rw [hyx, beq_self_eq_true, Function.update_self]
  · rw [beq_eq_false_iff_ne.mpr hyx, Function.update_of_ne hyx]

theorem Pred.Kinded.substVar_var {q : Pred} {K : Kinds} (hq : q.Kinded K) {x t : String}
    (hx : K x = .int) (ht : K t = .int) : (q.substVar x (.var t)).Kinded K := by
  refine hq.subst ?_
  intro b hb
  obtain rfl := List.mem_singleton.mp hb
  exact ⟨hx, ht⟩

theorem Pred.Kinded.renameAll {q : Pred} {K : Kinds} (hq : q.Kinded K)
    {pairs : List (String × String)} (hpairs : ∀ b ∈ pairs, K b.1 = .int ∧ K b.2 = .int) :
    (q.renameAll pairs).Kinded K := by
  induction pairs generalizing q with
  | nil => exact hq
  | cons b pairs ih =>
    obtain ⟨hx, ht⟩ := hpairs b List.mem_cons_self
    exact ih (hq.substVar_var hx ht) fun c hc => hpairs c (List.mem_cons_of_mem _ hc)

/-- After the renaming, the variables are read at the new names. -/
theorem Pred.holds_renameAll {α : Type} (M : Interpretation α) {σ d : Valuation α} {K : Kinds}
    (hσ : σ.HasKinds K) {pairs : List (String × String)} :
    ∀ {q : Pred}, q.Kinded K → (∀ b ∈ pairs, K b.1 = .int ∧ K b.2 = .int) →
      (∀ b ∈ pairs, σ b.2 = d b.1) → (∀ b ∈ pairs, b.2 ∉ pairs.map Prod.fst) →
      ((q.renameAll pairs).Holds M σ ↔
        q.Holds M fun y => if y ∈ pairs.map Prod.fst then d y else σ y) := by
  induction pairs with
  | nil =>
    intro q _ _ _ _
    simp only [List.map_nil, List.not_mem_nil, if_false]
    rfl
  | cons b pairs ih =>
    intro q hq hK hd hfresh
    obtain ⟨x, t⟩ := b
    obtain ⟨hx, ht⟩ := hK (x, t) List.mem_cons_self
    have hfresh' : ∀ c ∈ (x, t) :: pairs, c.2 ∉ pairs.map Prod.fst := by
      intro c hc
      exact List.not_mem_of_not_mem_cons (hfresh c hc)
    have htail := ih (hq.substVar_var hx ht) (fun c hc => hK c (List.mem_cons_of_mem _ hc))
      (fun c hc => hd c (List.mem_cons_of_mem _ hc))
      (fun c hc => hfresh' c (List.mem_cons_of_mem _ hc))
    have hτ : Valuation.HasKinds (fun y => if y ∈ pairs.map Prod.fst then d y else σ y) K := by
      intro y
      dsimp only
      split
      · next hy =>
        obtain ⟨c, hc, rfl⟩ := List.mem_map.mp hy
        obtain ⟨hKc, hKt⟩ := hK c (List.mem_cons_of_mem _ hc)
        rw [← hd c (List.mem_cons_of_mem _ hc), hσ, hKc, hKt]
      · exact hσ y
    have hdx : d x = .int (σ t).toInt := by
      rw [← hd (x, t) List.mem_cons_self]
      exact Datum.eq_int_toInt ((hσ t).trans ht)
    -- the first pair is renamed first, so it is read in the valuation that the others lead to
    refine htail.trans ((Pred.holds_subst M hq ?_ hτ).trans ?_)
    · intro c hc
      obtain rfl := List.mem_singleton.mp hc
      exact ⟨hx, ht⟩
    · rw [Bindings.apply_single, Expr.value, if_neg (hfresh' (x, t) List.mem_cons_self), ← hdx]
      refine iff_of_eq (congrArg _ (funext fun y => ?_))
      rw [List.map_cons]
      by_cases hyx : y = x
      · rw [hyx, Function.update_self, if_pos List.mem_cons_self]
      · rw [Function.update_of_ne hyx]
        simp only [List.mem_cons, hyx, false_or]

theorem Target.map_name_vars (xs : List String) : (xs.map Target.var).map Target.name = xs := by
  rw [List.map_map]
  exact List.map_id xs

/-- The new names for variables that receive unknown values. -/
def unknownNames (xs : List String) (q : Pred) : List String :=
  newNames Target.name (xs.map Target.var) (q.free ++ xs)

theorem havoc_vars (xs : List String) (q : Pred) :
    havoc (xs.map Target.var) q =
      (unknownNames xs q).foldr Pred.forall_ (q.renameAll (xs.zip (unknownNames xs q))) := by
  have hfold : ∀ names : List String, ((xs.map Target.var).zip names).foldl
      (fun q b => b.1.replaceIn (.var b.2) q) q = q.renameAll (xs.zip names) := by
    intro names
    rw [List.zip_map_left, List.foldl_map]
    rfl
  unfold havoc unknownNames
  rw [Target.map_name_vars, ← hfold]

theorem length_unknownNames (xs : List String) (q : Pred) :
    (unknownNames xs q).length = xs.length := by
  rw [unknownNames, length_newNames, List.length_map]

theorem not_mem_of_mem_unknownNames {xs : List String} {q : Pred} {t : String}
    (h : t ∈ unknownNames xs q) : t ∉ q.free ∧ t ∉ xs := by
  have hnot := not_mem_of_mem_newNames h
  exact ⟨fun ht => hnot (List.mem_append_left _ ht), fun ht => hnot (List.mem_append_right _ ht)⟩

section

variable {K : Kinds} {xs : List String} {q : Pred}

/-- The predicate is of the same kinds with the new names as numbers, since they are new. -/
theorem Pred.Kinded.withInts_unknownNames (hq : q.Kinded K) :
    q.Kinded (K.withInts (unknownNames xs q)) := by
  refine hq.congr fun y hy => ?_
  rw [Kinds.withInts, if_neg fun ht => (not_mem_of_mem_unknownNames ht).1 hy]

theorem Kinds.withInts_unknownNames (hxs : ∀ x ∈ xs, K x = .int) :
    ∀ b ∈ xs.zip (unknownNames xs q), K.withInts (unknownNames xs q) b.1 = .int ∧
      K.withInts (unknownNames xs q) b.2 = .int := by
  rintro ⟨x, t⟩ hb
  obtain ⟨hx, ht⟩ := List.of_mem_zip hb
  refine ⟨?_, if_pos ht⟩
  unfold Kinds.withInts
  split
  · rfl
  · exact hxs x hx

theorem Pred.Kinded.havoc (hq : q.Kinded K) (hxs : ∀ x ∈ xs, K x = .int) :
    (havoc (xs.map Target.var) q).Kinded K := by
  rw [havoc_vars, Pred.kinded_forall_names]
  exact hq.withInts_unknownNames.renameAll (Kinds.withInts_unknownNames hxs)

/-- What holds before unknown values are received holds after it, whatever they are. -/
theorem Pred.holds_of_havoc {α : Type} {M : Interpretation α} {ρ ρ' : Valuation α}
    (hq : q.Kinded K) (hxs : ∀ x ∈ xs, K x = .int) (hρ : ρ.HasKinds K)
    (h : (Contracts.havoc (xs.map Target.var) q).Holds M ρ) (hvary : ρ.VariesOn xs ρ') :
    q.Holds M ρ' := by
  rw [havoc_vars, Pred.holds_forall_names] at h
  -- let each new name stand for what its variable is afterwards
  obtain ⟨σ, hσ, hpairs⟩ := Valuation.exists_variesOn ρ ρ'
    (nodup_newNames Target.name (xs.map Target.var) (q.free ++ xs)) (length_unknownNames xs q)
    hvary.ints
  have hfst : (xs.zip (unknownNames xs q)).map Prod.fst = xs :=
    List.map_fst_zip (Nat.le_of_eq (length_unknownNames xs q).symm)
  have hren := (Pred.holds_renameAll M (hρ.variesOn hσ) hq.withInts_unknownNames
    (Kinds.withInts_unknownNames hxs) hpairs ?_).mp (h σ hσ)
  · rw [hfst] at hren
    refine (Pred.holds_congr M q fun y hy => ?_).mp hren
    split
    · rfl
    · next hyxs =>
      rw [hvary.same y hyxs, hσ.same y fun ht => (not_mem_of_mem_unknownNames ht).1 hy]
  · rintro ⟨x, t⟩ hb
    rw [hfst]
    exact (not_mem_of_mem_unknownNames (List.of_mem_zip hb).2).2

end

/-! ## Assignments to variables are sound -/

/-- What the function returns, when it does, are numbers. -/
def Program.ReturnsInts (p : Program) (b : Below) (f : String) : Prop :=
  ∀ values fuel out fuel',
    callFunction p b f values.length (pure values) fuel = .ok (out, fuel') →
      ∀ v ∈ out, v.type = .int

section

variable {M : Interpretation Cells} {p : Program} {b : Below} {K : Kinds} {rest : Valuation Cells}
  {xs : List String} {es : List Expr} {q r : Pred}

/-- The values of an assignment to variables are numbers. -/
theorem assignedValues_ints (hM : M.Agrees p b) (hrest : rest.HasKinds K)
    (hes : ∀ e ∈ es, e.Kinded K)
    (hcall : 1 < xs.length → ∀ f args, es = [.call f args] → p.ReturnsInts b f)
    (hxs : xs ≠ []) {s : State} (hs : s.HasKinds K) {fuel fuel₁ : Nat} {values : List Value}
    (hv : assignedValues p b s xs.length es fuel = .ok (values, fuel₁)) :
    ∀ v ∈ values, v.type = .int := by
  by_cases hop : xs.length = 1 ∨ isSingleCall es = false
  · rw [assignedValues_of_operands hop] at hv
    exact hs.of_operands hM hes hrest hv
  · obtain ⟨hone, hsingle⟩ := not_or.mp hop
    have hpos : 0 < xs.length := List.length_pos_iff.mpr hxs
    rw [Bool.not_eq_false] at hsingle
    unfold isSingleCall at hsingle
    split at hsingle
    · next f args =>
      rw [assignedValues_of_call hone] at hv
      obtain ⟨inputs, fuel₂, -, hrun⟩ := callFunction_operands hv
      exact hcall (by omega) f args rfl inputs fuel₂ values fuel₁ hrun
    · cases hsingle

/-- The predicate before an assignment to variables, in one of three forms. -/
theorem wpAssign_vars (h : wpAssign (xs.map Target.var) es q = .ok r) :
    (xs = [] ∧ r = q) ∨
    (1 < xs.length ∧ isSingleCall es = true ∧ r = havoc (xs.map Target.var) q) ∨
    ((xs.length = 1 ∨ isSingleCall es = false) ∧ r = q.subst (.ofPairs (xs.zip es))) := by
  rcases wpAssign_cases h with ⟨hnil, hr⟩ | ⟨hlen, hcall, hr⟩ | ⟨t, e, ht, rfl, hr⟩ |
    ⟨-, hsingle, ⟨-, hr⟩ | ⟨hall, -⟩⟩
  · exact .inl ⟨List.map_eq_nil_iff.mp hnil, hr⟩
  · rw [List.length_map] at hlen
    exact .inr (.inl ⟨hlen, hcall, hr⟩)
  · obtain ⟨x, rfl, rfl⟩ := List.map_eq_singleton_iff.mp ht
    exact .inr (.inr ⟨.inl rfl, hr⟩)
  · rw [Target.map_name_vars] at hr
    exact .inr (.inr ⟨.inr hsingle, hr⟩)
  · rw [List.all_map, List.all_eq_false] at hall
    obtain ⟨x, -, hx⟩ := hall
    exact absurd rfl hx

theorem Bindings.mem_of_mem_ofPairs {pairs : List (String × Expr)} {b : String × Expr}
    (hb : b ∈ Bindings.ofPairs pairs) : b ∈ pairs := by
  have hsub : ∀ (pairs : List (String × Expr)) (m : Bindings),
      b ∈ pairs.foldl (fun (m : Bindings) b => b :: m.without b.1) m → b ∈ pairs ∨ b ∈ m := by
    intro pairs
    induction pairs with
    | nil => exact fun m hm => .inr hm
    | cons c pairs ih =>
      intro m hm
      rcases ih _ hm with hb | hb
      · exact .inl (List.mem_cons_of_mem _ hb)
      · rcases List.mem_cons.mp hb with rfl | hb
        · exact .inl List.mem_cons_self
        · exact .inr (Bindings.mem_of_mem_without hb).1
  exact (hsub pairs [] hb).resolve_right List.not_mem_nil

theorem Bindings.Kinded.ofPairs_zip (hxs : ∀ x ∈ xs, K x = .int) (hes : ∀ e ∈ es, e.Kinded K) :
    (Bindings.ofPairs (xs.zip es)).Kinded K := by
  rintro ⟨x, e⟩ hb
  obtain ⟨hx, he⟩ := List.of_mem_zip (Bindings.mem_of_mem_ofPairs hb)
  exact ⟨hxs x hx, hes e he⟩

theorem Pred.Kinded.wpAssign_vars (hq : q.Kinded K) (hxs : ∀ x ∈ xs, K x = .int)
    (hes : ∀ e ∈ es, e.Kinded K) (h : wpAssign (xs.map Target.var) es q = .ok r) : r.Kinded K := by
  rcases Contracts.wpAssign_vars h with ⟨-, rfl⟩ | ⟨-, -, rfl⟩ | ⟨-, rfl⟩
  · exact hq
  · exact hq.havoc hxs
  · exact hq.subst (Bindings.Kinded.ofPairs_zip hxs hes)

/-- The predicate before an assignment to variables makes the one after it true. -/
theorem ensures_assign_vars (hM : M.Agrees p b) (hrest : rest.HasKinds K)
    (hxs : ∀ x ∈ xs, K x = .int) (hes : ∀ e ∈ es, e.Kinded K)
    (hcall : 1 < xs.length → ∀ f args, es = [.call f args] → p.ReturnsInts b f)
    (hq : q.Kinded K) (h : wpAssign (xs.map Target.var) es q = .ok r) :
    Ensures K (fun s => r.Holds M (s.valuation rest)) (execAssign p b (xs.map Target.var) es)
      (fun s => q.Holds M (s.valuation rest)) := by
  intro s fuel s' fuel' hs hr hrun
  obtain ⟨values, fuel₁, hv, hlen, rfl⟩ := execAssign_vars hrun
  have hρ := hs.valuation hrest
  by_cases hnil : xs = []
  · subst hnil
    cases h
    exact ⟨hs, hr⟩
  have hints := assignedValues_ints hM hrest hes hcall hnil hs hv
  have hs' : (s.insertAll (xs.zip values)).HasKinds K := by
    refine hs.insertAll ?_
    rintro ⟨x, v⟩ hb
    obtain ⟨hx, hvmem⟩ := List.of_mem_zip hb
    rw [hints v hvmem, hxs x hx]
  refine ⟨hs', ?_⟩
  rcases wpAssign_vars h with ⟨hnil', -⟩ | ⟨-, -, rfl⟩ | ⟨hop, rfl⟩
  · exact absurd hnil' hnil
  · -- a call can give the variables any numbers, and so those of this run
    refine Pred.holds_of_havoc hq hxs hρ hr ⟨fun y hy => ?_, fun y hy => ?_⟩
    · have hnone : (xs.zip values).reverse.lookup y = none := by
        rw [List.lookup_eq_none_iff]
        rintro ⟨x, v⟩ hb
        rw [bne_iff_ne]
        rintro rfl
        exact hy (List.of_mem_zip (List.mem_reverse.mp hb)).1
      rw [State.valuation_insertAll, hnone]
      rfl
    · rw [hs'.valuation hrest y, hxs y hy]
  · -- otherwise they get the values of the expressions, all of them in the old state
    rw [assignedValues_of_operands hop] at hv
    rw [State.valuation_of_operands hM hes hρ hv]
    exact (Pred.holds_subst M hq (Bindings.Kinded.ofPairs_zip hxs hes) hρ).mp hr

end

end Contracts

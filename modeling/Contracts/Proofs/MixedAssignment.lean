import Contracts.Proofs.CellEvaluation

/-!
# Evaluation across a mixed assignment

A simultaneous assignment to variables and cells is executed place by place, in the order of its
targets. The predicate before it takes the places in another order: the cells are written first and
the variables last, and of each group the last target comes first. Both orders give the same state
if no target stands there twice (`foldl_put_variablesFirst`).

A name can be used for a variable and for cells. Such an assignment finishes only if the variable
comes after the cells, because a number has no cells, and that is the order of the predicate as well
(`Place.Before`).
-/

set_option autoImplicit false

namespace Contracts

/-! ## Writing one place after the other -/

theorem Value.writeCell_comm {i j : Int64} (hij : i ≠ j) (u v : Int64) (d : Value) :
    Value.writeCell j v (Value.writeCell i u d) = Value.writeCell i u (Value.writeCell j v d) := by
  cases d with
  | int n => rfl
  | array c => exact congrArg Value.array (c.write_comm hij u v)

namespace Place

/-- What becomes of the value of the name when a number is written to the place. -/
def change (b : Place × Int64) (d : Option Value) : Option Value :=
  match b.1 with
  | .var _ => some (.int b.2)
  | .cell _ k => d.map (Value.writeCell k b.2)

/-- The state with a number written to a place. -/
def put (s : State) (b : Place × Int64) : State :=
  match b.1 with
  | .var x => s.insert x (.int b.2)
  | .cell a k => s.writeCell a k b.2

theorem getElem?_put (s : State) (b : Place × Int64) (y : String) :
    (put s b)[y]? = if b.1.name = y then change b s[y]? else s[y]? := by
  obtain ⟨place, v⟩ := b
  cases place with
  | var x => exact State.getElem?_insert s x y (.int v)
  | cell a k => exact State.getElem?_writeCell s a y k v

theorem getElem?_put_of_ne {s : State} {b : Place × Int64} {y : String} (h : y ≠ b.1.name) :
    (put s b)[y]? = s[y]? := by
  rw [getElem?_put, if_neg (Ne.symm h)]

theorem getElem?_foldl_put_of_ne {l : List (Place × Int64)} {y : String}
    (h : ∀ b ∈ l, y ≠ b.1.name) (s : State) : (l.foldl put s)[y]? = s[y]? := by
  induction l generalizing s with
  | nil => rfl
  | cons b l ih =>
    rw [List.foldl_cons, ih fun c hc => h c (List.mem_cons_of_mem _ hc),
      getElem?_put_of_ne (h b List.mem_cons_self)]

/-- States that agree outside some names still do after the same writes of other names. -/
theorem foldl_put_congr {T : List String} {l : List (Place × Int64)} {s σ : State}
    (h : ∀ y, y ∉ T → σ[y]? = s[y]?) : ∀ y, y ∉ T → (l.foldl put σ)[y]? = (l.foldl put s)[y]? := by
  induction l generalizing s σ with
  | nil => exact h
  | cons b l ih =>
    refine ih fun y hy => ?_
    rw [getElem?_put, getElem?_put, h y hy]

/-- The places can be written in either order. -/
def Independent : Place → Place → Prop
  | .cell a i, .cell a' j => a ≠ a' ∨ i ≠ j
  | place, place' => place.name ≠ place'.name

theorem put_comm {b c : Place × Int64} (h : b.1.Independent c.1) (s : State) :
    put (put s b) c = put (put s c) b := by
  refine Std.ExtTreeMap.ext_getElem? fun y => ?_
  simp only [getElem?_put]
  by_cases hb : b.1.name = y
  · by_cases hc : c.1.name = y
    · -- one name for both, so they are cells with different indices
      obtain ⟨place, u⟩ := b
      obtain ⟨place', v⟩ := c
      cases place with
      | var x => exact absurd (hb.trans hc.symm) h
      | cell a i =>
        cases place' with
        | var x => exact absurd (hb.trans hc.symm) h
        | cell a' j =>
          have hij : i ≠ j := h.resolve_left fun hne => hne (hb.trans hc.symm)
          simp only [if_pos hb, if_pos hc, change, Option.map_map]
          refine congrArg (Option.map · _) (funext fun d => ?_)
          exact Value.writeCell_comm hij u v d
    · rw [if_pos hb, if_neg hc, if_neg hc, if_pos hb]
  · rw [if_neg hb, if_neg hb]

theorem foldl_put_comm {b : Place × Int64} {l : List (Place × Int64)}
    (h : ∀ c ∈ l, b.1.Independent c.1) (s : State) :
    l.foldl put (put s b) = put (l.foldl put s) b := by
  induction l generalizing s with
  | nil => rfl
  | cons c l ih =>
    rw [List.foldl_cons, List.foldl_cons, put_comm (h c List.mem_cons_self),
      ih fun d hd => h d (List.mem_cons_of_mem _ hd)]

/-- The second place can be written after the first: it is another place, and no cell of a variable
that has just received a number. -/
def Before : Place → Place → Prop
  | .cell _ _, .var _ => True
  | place, place' => place.Independent place'

end Place

/-- The order of the predicate and the order of the execution write the same. -/
theorem foldl_put_variablesFirst (w : String → Int64) {l : List (Place × String)}
    (h : l.Pairwise fun b c => b.1.Before c.1) (s : State) :
    ((variablesFirst l).map (Prod.map id w)).reverse.foldl Place.put s =
      (l.map (Prod.map id w)).foldl Place.put s := by
  induction l generalizing s with
  | nil => rfl
  | cons b l ih =>
    obtain ⟨hb, hl⟩ := List.pairwise_cons.mp h
    obtain ⟨place, t⟩ := b
    rw [List.map_cons, List.foldl_cons, ← ih hl]
    cases place with
    | var x =>
      -- a variable is written last, after everything that follows it
      have hfirst : variablesFirst ((.var x, t) :: l) = (.var x, t) :: variablesFirst l := rfl
      rw [hfirst, List.map_cons, List.reverse_cons, List.foldl_append, List.foldl_cons,
        List.foldl_nil]
      refine (Place.foldl_put_comm (fun c hc => ?_) s).symm
      obtain ⟨d, hd, rfl⟩ := List.mem_map.mp (List.mem_reverse.mp hc)
      exact hb d ((variablesFirst_perm l).mem_iff.mp hd)
    | cell a k =>
      -- a cell is written after the cells that follow it and before the variables
      have hfirst : variablesFirst ((.cell a k, t) :: l) =
          (l.filter fun b => b.1.target.scalar?.isSome) ++
            (.cell a k, t) :: l.filter fun b => b.1.target.scalar?.isNone := rfl
      rw [hfirst, variablesFirst, List.map_append, List.map_append, List.reverse_append,
        List.reverse_append, List.map_cons, List.reverse_cons, List.foldl_append,
        List.foldl_append, List.foldl_append, List.foldl_cons, List.foldl_nil]
      refine congrArg (List.foldl Place.put · _) (Place.foldl_put_comm (fun c hc => ?_) s).symm
      obtain ⟨⟨place', t'⟩, hd, rfl⟩ := List.mem_map.mp (List.mem_reverse.mp hc)
      obtain ⟨hd, hcell⟩ := List.mem_filter.mp hd
      cases place' with
      | var x => cases hcell
      | cell a' j => exact hb _ hd

/-! ## Executing the assignment -/

section

variable {p : Program} {b : Below} {s s' : State} {fuel left : Nat}

/-- A name that holds an array, or of which a cell is written, holds an array at the end if it is
not assigned as a variable. -/
theorem array_of_writeAll {x : String} : ∀ {l : List (Place × Value)} {s : State} {fuel : Nat},
    writeAll s l fuel = .ok (s', left) → (∀ b ∈ l, b.1 ≠ .var x) →
      ((∃ c, s[x]? = some (.array c)) ∨ ∃ b ∈ l, ∃ k, b.1 = .cell x k) →
        ∃ c, s'[x]? = some (.array c)
  | [], _, _, h, _, hx => by
    cases EvalM.pure_eq_ok.mp h
    exact hx.resolve_right fun ⟨b, hb, _⟩ => absurd hb List.not_mem_nil
  | (place, v) :: l, s, _, h, hvars, hx => by
    obtain ⟨s₁, fuel₁, hwrite, hrest⟩ := EvalM.bind_eq_ok.mp h
    obtain ⟨hplace, hvars⟩ := List.forall_mem_cons.mp hvars
    -- after the first write the name holds an array, or still has a cell to be written
    refine array_of_writeAll hrest hvars ?_
    cases place with
    | var y =>
      cases EvalM.pure_eq_ok.mp hwrite
      have hyx : y ≠ x := fun hyx => hplace (congrArg Place.var hyx)
      rcases hx with ⟨c, hc⟩ | ⟨b, hb, k, hk⟩
      · exact .inl ⟨c, by rw [State.getElem?_insert, if_neg hyx, hc]⟩
      · rcases List.mem_cons.mp hb with rfl | hb
        · cases hk
        · exact .inr ⟨b, hb, k, hk⟩
    | cell y j =>
      obtain ⟨c', n, -, -, hs₁⟩ := Place.write_cell_eq_ok hwrite
      obtain rfl : s₁ = _ := hs₁
      by_cases hyx : y = x
      · exact .inl ⟨_, by rw [State.getElem?_insert, if_pos hyx]⟩
      · rcases hx with ⟨c, hc⟩ | ⟨b, hb, k, hk⟩
        · exact .inl ⟨c, by rw [State.getElem?_insert, if_neg hyx, hc]⟩
        · rcases List.mem_cons.mp hb with rfl | hb
          · cases hk
            exact absurd rfl hyx
          · exact .inr ⟨b, hb, k, hk⟩

/-- Writing to different places of which the variables end up as numbers writes numbers only, and no
cell comes after its variable. -/
theorem writeAll_places : ∀ {places : List Place} {values : List Value} {s : State} {fuel : Nat},
    places.Nodup → values.length = places.length →
      (∀ x, .var x ∈ places → ∃ v, s'[x]? = some (.int v)) →
        writeAll s (places.zip values) fuel = .ok (s', left) →
          ∃ ns : List Int64, values = ns.map .int ∧ s' = (places.zip ns).foldl Place.put s ∧
            places.Pairwise Place.Before
  | [], [], _, _, _, _, _, h => by
    cases EvalM.pure_eq_ok.mp h
    exact ⟨[], rfl, rfl, .nil⟩
  | place :: places, v :: values, s, _, hnodup, hlen, hints, h => by
    obtain ⟨hplace, hnodup⟩ := List.nodup_cons.mp hnodup
    obtain ⟨s₁, fuel₁, hwrite, hrest⟩ := EvalM.bind_eq_ok.mp h
    obtain ⟨ns, rfl, hs', hbefore⟩ := writeAll_places hnodup (Nat.succ_inj.mp hlen)
      (fun x hx => hints x (List.mem_cons_of_mem _ hx)) hrest
    cases place with
    | var x =>
      cases EvalM.pure_eq_ok.mp hwrite
      -- an array under this name would stay one to the end
      have harray : ¬((∃ c, (Std.ExtTreeMap.insert s x v)[x]? = some (.array c)) ∨
          ∃ b ∈ places.zip (ns.map Value.int), ∃ k, b.1 = .cell x k) := by
        intro hx
        have hvars : ∀ b ∈ places.zip (ns.map Value.int), b.1 ≠ .var x := fun b hb hbx =>
          hplace (hbx ▸ (List.of_mem_zip hb).1)
        obtain ⟨c, hc⟩ := array_of_writeAll hrest hvars hx
        obtain ⟨n, hn⟩ := hints x List.mem_cons_self
        cases hn.symm.trans hc
      obtain ⟨hvalue, hcells⟩ := not_or.mp harray
      cases v with
      | array c => exact absurd ⟨c, by rw [State.getElem?_insert, if_pos rfl]⟩ hvalue
      | int n =>
        refine ⟨n :: ns, rfl, hs', List.pairwise_cons.mpr ⟨fun place' hmem => ?_, hbefore⟩⟩
        intro hname
        cases place' with
        | var y =>
          obtain rfl : x = y := hname
          exact hplace hmem
        | cell y k =>
          obtain rfl : x = y := hname
          have hlen' : places.length ≤ (ns.map Value.int).length :=
            Nat.le_of_eq (Nat.succ_inj.mp hlen).symm
          rw [← List.map_fst_zip hlen'] at hmem
          obtain ⟨b, hb, hbk⟩ := List.mem_map.mp hmem
          exact hcells ⟨b, hb, k, hbk⟩
    | cell a k =>
      obtain ⟨c, n, hc, rfl, hs₁⟩ := Place.write_cell_eq_ok hwrite
      obtain rfl : s₁ = _ := hs₁
      rw [State.insert_write hc] at hs'
      refine ⟨n :: ns, rfl, hs', List.pairwise_cons.mpr ⟨fun place' hmem => ?_, hbefore⟩⟩
      cases place' with
      | var y => trivial
      | cell a' j =>
        refine or_iff_not_imp_left.mpr fun haa hij => hplace ?_
        rwa [not_not.mp haa, hij]

/-- As many expressions as targets are evaluated one by one. -/
theorem assignedValues_of_length {es : List Expr} :
    assignedValues p b s es.length es = Expr.operands p b s es := by
  cases hcall : isSingleCall es with
  | false => exact assignedValues_of_operands (.inr hcall)
  | true =>
    unfold isSingleCall at hcall
    split at hcall
    · exact assignedValues_of_operands (.inl rfl)
    · cases hcall

/-- A finished assignment to different places has written the values of its expressions. -/
theorem execAssign_mixed (hb : b.Frugal) {places : List Place} {es : List Expr}
    (hlen : places.length = es.length) (hnodup : places.Nodup)
    (hints : ∀ x, .var x ∈ places → ∃ v, s'[x]? = some (.int v))
    (h : execAssign p b (places.map Place.target) es s fuel = .ok (s', left)) :
    ∃ ns : List Int64, List.Forall₂ (Expr.Passes p b s) es (ns.map .int) ∧
      s' = (places.zip ns).foldl Place.put s ∧ places.Pairwise Place.Before := by
  obtain ⟨values, fuel₁, hvalues, hcases⟩ := execAssign_cases h
  rw [List.length_map, hlen, assignedValues_of_length] at hvalues
  have hpass := (Expr.gives_operands hb).mp ⟨fuel, fuel₁, hvalues⟩
  rcases hcases with ⟨hnil, hs'⟩ | ⟨-, places', fuel₂, hplaces, hwrite⟩
  · obtain rfl : places = [] := List.map_eq_nil_iff.mp hnil
    obtain rfl : es = [] := List.length_eq_zero_iff.mp hlen.symm
    exact ⟨[], .nil, hs', .nil⟩
  · rw [mapM_place_targets, EvalM.pure_eq_ok] at hplaces
    cases hplaces
    obtain ⟨ns, rfl, hs', hbefore⟩ :=
      writeAll_places hnodup (hpass.length_eq.symm.trans hlen.symm) hints hwrite
    exact ⟨ns, hpass, hs', hbefore⟩

end

/-! ## Evaluating the predicate -/

mutual

/-- In a plain expression every index is a literal, so the outermost reads have literal indices. -/
theorem Expr.outerReads_of_plain (a : String) : ∀ {e : Expr}, e.plain = true →
    e.callFree = true ∧ e.OuterReads a fun j => ∃ m, j = .const m
  | .const _, _ | .var _, _ => ⟨rfl, trivial⟩
  | .neg e, h => Expr.outerReads_of_plain a (e := e) h
  | .binary _ x y, h => by
    rw [Expr.plain, Bool.and_eq_true] at h
    obtain ⟨hx, hx'⟩ := Expr.outerReads_of_plain a h.1
    obtain ⟨hy, hy'⟩ := Expr.outerReads_of_plain a h.2
    exact ⟨by rw [Expr.callFree, hx, hy, Bool.and_self], hx', hy'⟩
  | .read a' i, h => by
    obtain ⟨m, rfl⟩ := Expr.exists_of_plain_read h
    refine ⟨rfl, ?_⟩
    rw [Expr.OuterReads]
    split
    · exact ⟨m, rfl⟩
    · trivial
  | .cond t x y, h => by
    simp only [Expr.plain, Bool.and_eq_true] at h
    obtain ⟨ht, ht'⟩ := Pred.outerReads_of_plain a h.1.1
    obtain ⟨hx, hx'⟩ := Expr.outerReads_of_plain a h.1.2
    obtain ⟨hy, hy'⟩ := Expr.outerReads_of_plain a h.2
    exact ⟨by rw [Expr.callFree, ht, hx, hy, Bool.and_self, Bool.and_self], ht', hx', hy'⟩

theorem Pred.outerReads_of_plain (a : String) : ∀ {q : Pred}, q.plain = true →
    q.callFree = true ∧ q.OuterReads a fun j => ∃ m, j = .const m
  | .bool _, _ => ⟨rfl, trivial⟩
  | .compare _ x y, h => by
    rw [Pred.plain, Bool.and_eq_true] at h
    obtain ⟨hx, hx'⟩ := Expr.outerReads_of_plain a h.1
    obtain ⟨hy, hy'⟩ := Expr.outerReads_of_plain a h.2
    exact ⟨by rw [Pred.callFree, hx, hy, Bool.and_self], hx', hy'⟩
  | .not q, h | .paren q, h => Pred.outerReads_of_plain a (q := q) h
  | .and q r, h | .or q r, h | .implies q r, h => by
    rw [Pred.plain, Bool.and_eq_true] at h
    obtain ⟨hq, hq'⟩ := Pred.outerReads_of_plain a h.1
    obtain ⟨hr, hr'⟩ := Pred.outerReads_of_plain a h.2
    exact ⟨by rw [Pred.callFree, hq, hr, Bool.and_self], hq', hr'⟩
  | .quantified _ _ q, h => ⟨(Pred.outerReads_of_plain a (q := q) h).1, trivial⟩

end

section

variable {p : Program} {b : Below} {s : State} {q : Pred} {r : Bool}

/-- One place replaced by an expression for the number that is written there. -/
theorem Place.gives_replaceIn (hb : b.Frugal) (hp : q.plain = true) {place : Place} {e : Expr}
    {v : Int64} (he : (e.eval p b s).Gives v)
    (h : (q.eval p b (Place.put s (place, v))).Gives r) :
    ((place.target.replaceIn e q).eval p b s).Gives r := by
  cases place with
  | var x =>
    have hput : ∀ y, (Place.put s (.var x, v))[y]? = if x = y then some (.int v) else s[y]? :=
      fun y => State.getElem?_insert s x y (.int v)
    refine Pred.gives_subst hb (fun y _ d hd => ?_) (fun a _ c hc => ?_) h
    · rw [hput] at hd
      rw [List.lookup_cons, List.lookup_nil]
      split at hd
      · next hxy =>
        cases hd
        rw [hxy, beq_self_eq_true]
        exact Expr.passes_int.mpr he
      · next hxy =>
        rw [beq_eq_false_iff_ne.mpr (Ne.symm hxy)]
        exact Expr.passes_var.mpr hd
    · rw [hput] at hc
      split at hc
      · cases hc
      · exact hc
  | cell a k =>
    obtain ⟨hcalls, hreads⟩ := Pred.outerReads_of_plain a hp
    refine Pred.gives_substCell (w := ⟨a, .const k, e⟩) hb he (fun m hm => Expr.gives_const.mp hm)
      (fun j hj => ?_) hcalls hreads h
    obtain ⟨m, rfl⟩ := hj
    by_cases hmk : m = k
    · exact .inl (congrArg Expr.const hmk)
    · exact .inr ⟨m, rfl, hmk⟩

/-- One place after the other replaced by its temporary. The last replacement is the outermost, so
it is the first one to be written. -/
theorem Pred.gives_replaceAll (hb : b.Frugal) {σ : State} {w : String → Int64}
    {pairs : List (Place × String)} (hp : q.plain = true)
    (hw : ∀ c ∈ pairs, σ[c.2]? = some (.int (w c.2)))
    (hnew : ∀ c ∈ pairs, ∀ d ∈ pairs, c.2 ≠ d.1.name)
    (h : (q.eval p b ((pairs.map (Prod.map id w)).reverse.foldl Place.put σ)).Gives r) :
    ((q.replaceAll pairs).eval p b σ).Gives r := by
  induction pairs generalizing q with
  | nil => exact h
  | cons c pairs ih =>
    rw [List.map_cons, List.reverse_cons, List.foldl_append, List.foldl_cons, List.foldl_nil] at h
    refine ih (c.1.plain_replaceIn rfl hp) (fun d hd => hw d (List.mem_cons_of_mem _ hd))
      (fun d hd d' hd' => hnew d (List.mem_cons_of_mem _ hd) d' (List.mem_cons_of_mem _ hd')) ?_
    -- the temporary is no place, so the other writes leave it alone
    refine Place.gives_replaceIn hb hp (Expr.gives_var.mpr ?_) h
    rw [Place.getElem?_foldl_put_of_ne, hw c List.mem_cons_self]
    intro d hd
    obtain ⟨d', hd', rfl⟩ := List.mem_map.mp (List.mem_reverse.mp hd)
    exact hnew c List.mem_cons_self d' (List.mem_cons_of_mem _ hd')

/-- The state in which names have the given values. -/
theorem State.getElem?_insertAll_map (s : State) (names : List String) (d : String → Value)
    (x : String) :
    (s.insertAll (names.map fun t => (t, d t)))[x]? = if x ∈ names then some (d x) else s[x]? := by
  induction names generalizing s with
  | nil => rfl
  | cons t names ih =>
    have hstep : s.insertAll ((t :: names).map fun t => (t, d t)) =
        State.insertAll (s.insert t (d t)) (names.map fun t => (t, d t)) := rfl
    rw [hstep, ih, State.getElem?_insert]
    by_cases hx : x ∈ names
    · rw [if_pos hx, if_pos (List.mem_cons_of_mem _ hx)]
    · by_cases htx : t = x
      · rw [if_neg hx, if_pos htx, if_pos (List.mem_cons.mpr (.inl htx.symm)), htx]
      · rw [if_neg hx, if_neg htx, if_neg]
        exact fun hmem => (List.mem_cons.mp hmem).elim (fun h => htx h.symm) hx

/-- The expressions of an assignment supply what its temporaries hold. -/
theorem Bindings.supplies_zip {names : List String} {es : List Expr} {w : String → Int64}
    (h : List.Forall₂ (Expr.Passes p b s) es ((names.map w).map .int)) (x : String) :
    Bindings.Supplies p b (names.zip es) s (s.insertAll (names.map fun t => (t, .int (w t)))) x := by
  intro d hd
  rw [State.getElem?_insertAll_map] at hd
  rw [List.map_map, List.forall₂_map_right_iff] at h
  cases hl : List.lookup x (names.zip es) with
  | some e =>
    have hmem : (x, e) ∈ names.zip es := Bindings.mem_of_lookup hl
    rw [if_pos (List.of_mem_zip hmem).1] at hd
    cases hd
    exact (List.forall₂_iff_zip.mp h.flip).2 hmem
  | none =>
    have hx : x ∉ names := by
      intro hx
      rw [← List.map_fst_zip (Nat.le_of_eq h.length_eq.symm)] at hx
      obtain ⟨c, hc, rfl⟩ := List.mem_map.mp hx
      exact absurd rfl (bne_iff_ne.mp (List.lookup_eq_none_iff.mp hl c hc))
    rw [if_neg hx] at hd
    exact Expr.passes_var.mpr hd

/-- What a predicate evaluates to with all places written, it evaluates to before with the
temporaries and their expressions put in. -/
theorem Pred.gives_viaTemporaries (hb : b.Frugal) (hp : q.plain = true) {places : List Place}
    {es : List Expr} {ns : List Int64} (hlen : places.length = es.length)
    (hbefore : places.Pairwise Place.Before)
    (hpass : List.Forall₂ (Expr.Passes p b s) es (ns.map .int))
    (h : (q.eval p b ((places.zip ns).foldl Place.put s)).Gives r) :
    ((viaTemporaries (places.map Place.target) es q).eval p b s).Gives r := by
  have hns : ns.length = places.length := by
    rw [hlen, hpass.length_eq, List.length_map]
  rw [viaTemporaries_places]
  have hnew := fun t => temporaries_new (q := q) hlen (t := t)
  have hnodup : (temporaries places es q).Nodup := nodup_newNames _ _ _
  have hlenT : (temporaries places es q).length = places.length := length_temporaries
  generalize temporaries places es q = temps at *
  obtain ⟨w, rfl⟩ := exists_map_eq hnodup (hns.trans hlenT.symm)
  -- let the temporaries hold the values of their expressions
  have hσ := fun x => State.getElem?_insertAll_map s temps (fun t => .int (w t)) x
  refine Pred.gives_subst hb (fun x _ => Bindings.supplies_zip hpass x) (fun a _ c hc => ?_) ?_
  · rw [hσ] at hc
    split at hc
    · cases hc
    · exact hc
  have hmem : ∀ {c}, c ∈ variablesFirst (places.zip temps) → c.1 ∈ places ∧ c.2 ∈ temps :=
    fun hc => List.of_mem_zip ((variablesFirst_perm _).mem_iff.mp hc)
  refine Pred.gives_replaceAll hb hp (w := w) (fun c hc => ?_)
    (fun c hc d hd => (hnew c.2 (hmem hc).2).2.1 d.1 (hmem hd).1) ?_
  · rw [hσ, if_pos (hmem hc).2]
  have hpairs : (places.zip temps).Pairwise fun c d => c.1.Before d.1 := by
    refine List.pairwise_map.mp ?_
    rwa [List.map_fst_zip (Nat.le_of_eq hlenT.symm)]
  rw [foldl_put_variablesFirst w hpairs, ← List.zip_map_right]
  -- the predicate does not see the temporaries
  refine (congrArg (EvalM.Gives · r) (Pred.eval_congr fun x hx => ?_)).mpr h
  exact Place.foldl_put_congr (fun y hy => (hσ y).trans (if_neg hy)) x fun ht => (hnew x ht).1 hx

/-- The predicate before an assignment to different places, not all of them variables, evaluates to
what the predicate evaluates to after it. -/
theorem Pred.gives_wpAssign_mixed (hb : b.Frugal) (hp : q.plain = true) {places : List Place}
    {es : List Expr} {s' : State} {w : Pred} {fuel left : Nat}
    (hlen : places.length = es.length) (hnodup : places.Nodup)
    (hcells : ((places.map Place.target).all fun t => t.scalar?.isSome) = false)
    (hints : ∀ x, .var x ∈ places → ∃ v, s'[x]? = some (.int v))
    (hexec : execAssign p b (places.map Place.target) es s fuel = .ok (s', left))
    (hw : wpAssign (places.map Place.target) es q = .ok w) (hr : (q.eval p b s').Gives r) :
    (w.eval p b s).Gives r := by
  obtain ⟨ns, hpass, rfl, hbefore⟩ := execAssign_mixed hb hlen hnodup hints hexec
  rcases wpAssign_cases hw with ⟨hnil, -⟩ | ⟨hlt, hcall, -⟩ | ⟨t, e, ht, rfl, rfl⟩ |
    ⟨-, -, ⟨hall, -⟩ | ⟨-, rfl⟩⟩
  · rw [hnil] at hcells
    cases hcells
  · -- there are as many expressions as targets, so the call is for one of them
    rw [List.length_map, hlen] at hlt
    unfold isSingleCall at hcall
    split at hcall
    · exact absurd hlt (Nat.lt_irrefl 1)
    · cases hcall
  · obtain ⟨place, rfl, rfl⟩ := List.map_eq_singleton_iff.mp ht
    obtain ⟨d, ds, hd, hds, hns⟩ := List.forall₂_cons_left_iff.mp hpass
    obtain ⟨v, vs, rfl, rfl, -⟩ := List.map_eq_cons_iff.mp hns
    exact Place.gives_replaceIn hb hp (Expr.passes_int.mp hd) hr
  · rw [hcells] at hall
    cases hall
  · exact Pred.gives_viaTemporaries hb hp hlen hbefore hpass hr

end

/-- Targets with literal indices, as places. -/
theorem exists_places_of_literals {targets : List Target}
    (h : ∀ a i, Target.cell a i ∈ targets → ∃ k, i = .const k) :
    ∃ places : List Place, targets = places.map Place.target := by
  induction targets with
  | nil => exact ⟨[], rfl⟩
  | cons t targets ih =>
    obtain ⟨places, rfl⟩ := ih fun a i hi => h a i (List.mem_cons_of_mem _ hi)
    cases t with
    | var x => exact ⟨.var x :: places, rfl⟩
    | cell a i =>
      obtain ⟨k, rfl⟩ := h a i List.mem_cons_self
      exact ⟨.cell a k :: places, rfl⟩

/-- **Simultaneous assignment to variables and cells.** For as many expressions as targets, any mix
of variables that receive numbers and of cells with literal indices, a predicate without calls and
formulas whose indices are literals evaluates after the assignment to what the predicate worked out
for it evaluates to before, if the targets are different or all of them variables. -/
theorem mixed_wp_agrees (p : Program) (n : Nat) (close : Bool) (targets : List Target)
    (es : List Expr) (q w : Pred) (s s' : State) (r c : Bool)
    (fuel₁ fuel₂ fuel₃ left₁ left₂ left₃ : Nat) (hlen : targets.length = es.length)
    (hcells : ∀ a i, Target.cell a i ∈ targets → ∃ k, i = .const k)
    (hints : ∀ x, Target.var x ∈ targets → ∃ v, s'[x]? = some (.int v)) (hplain : q.plain = true)
    (hdistinct : targets.Nodup ∨ ∀ t ∈ targets, ∃ x, t = .var x)
    (hwp : (Stmt.assign targets es).wp close q = .ok w)
    (hexec : (Stmt.assign targets es).exec p (below p n) s fuel₁ = .ok (s', left₁))
    (hq : q.eval p (below p n) s' fuel₂ = .ok (r, left₂))
    (hw : w.eval p (below p n) s fuel₃ = .ok (c, left₃)) : r = c := by
  have hb := frugal_below p n
  rw [Stmt.exec] at hexec
  obtain ⟨w₀, hw₀, rfl⟩ := Stmt.wp_assign_eq_ok.mp hwp
  have hc : (w₀.simplify.eval p (below p n) s).Gives c := ⟨fuel₃, left₃, hw⟩
  suffices hr : (w₀.eval p (below p n) s).Gives r from Pred.eq_of_gives_simplify hb hr hc
  cases hall : targets.all (·.scalar?.isSome) with
  | true =>
    obtain ⟨xs, rfl⟩ := exists_names_of_scalar hall
    refine Pred.gives_wpAssign_vars hb hexec (fun x hx _ d hd => ?_) hw₀ ⟨fuel₂, left₂, hq⟩ hc
    obtain ⟨v, hv⟩ := hints x (List.mem_map_of_mem hx)
    cases hv.symm.trans hd
  | false =>
    have hnodup : targets.Nodup := by
      refine hdistinct.resolve_right fun hvars => ?_
      obtain ⟨t, ht, hcell⟩ := List.all_eq_false.mp hall
      obtain ⟨x, rfl⟩ := hvars t ht
      exact hcell rfl
    obtain ⟨places, rfl⟩ := exists_places_of_literals hcells
    rw [List.length_map] at hlen
    exact Pred.gives_wpAssign_mixed hb hplain hlen hnodup.of_map hall
      (fun x hx => hints x (List.mem_map_of_mem hx)) hexec hw₀ ⟨fuel₂, left₂, hq⟩

/-! ### A rotation, and a variable that stands there twice -/

/-- Two cells and a variable change places. -/
def rotation : Stmt :=
  .assign [.var "x", .cell "a" (.const 0), .cell "a" (.const 1)]
    [.binary .add (.read "a" (.const 1)) (.const 1), .var "x", .read "a" (.const 0)]

def rotationGoal : Pred :=
  .and (.compare .eq (.var "x") (.const 8))
    (.compare .lt (.read "a" (.const 1)) (.read "a" (.const 0)))

def rotationBefore : Pred :=
  .and (.compare .eq (.binary .add (.read "a" (.const 1)) (.const 1)) (.const 8))
    (.compare .lt (.read "a" (.const 0)) (.var "x"))

def rotationStart : State :=
  State.ofPairs [("a", .array ((Cells.write ∅ 0 3).write 1 7)), ("x", .int 5)]

def rotationEnd : State :=
  [(.var "x", 8), (.cell "a" 0, 5), (.cell "a" 1, 3)].foldl Place.put rotationStart

/-- All three old values are read before anything is written. -/
theorem mixed_wp_agrees_rotation :
    rotation.wp false rotationGoal = .ok rotationBefore ∧
    rotation.exec .empty (below .empty 0) rotationStart 0 = .ok (rotationEnd, 0) ∧
    rotationGoal.eval .empty (below .empty 0) rotationEnd 0 = .ok (true, 0) ∧
    rotationBefore.eval .empty (below .empty 0) rotationStart 0 = .ok (true, 0) ∧
    ∀ fuel c left, rotationBefore.eval .empty (below .empty 0) rotationStart fuel =
      .ok (c, left) → true = c := by
  have hwp : rotation.wp false rotationGoal = .ok rotationBefore := by cbv
  have hexec : rotation.exec .empty (below .empty 0) rotationStart 0 = .ok (rotationEnd, 0) := by
    cbv
  have hgoal : rotationGoal.eval .empty (below .empty 0) rotationEnd 0 = .ok (true, 0) := by cbv
  refine ⟨hwp, hexec, hgoal, by cbv, fun fuel c left hc => ?_⟩
  refine mixed_wp_agrees .empty 0 false _ _ rotationGoal rotationBefore rotationStart rotationEnd
    true c _ _ _ _ _ _ rfl (fun a i hi => ?_) (fun x hx => ?_) rfl (.inl (by decide)) hwp hexec
    hgoal hc
  · simp only [List.mem_cons, reduceCtorEq, Target.cell.injEq, List.not_mem_nil, or_false,
      false_or] at hi
    rcases hi with ⟨-, rfl⟩ | ⟨-, rfl⟩
    · exact ⟨0, rfl⟩
    · exact ⟨1, rfl⟩
  · simp only [List.mem_cons, reduceCtorEq, Target.var.injEq, List.not_mem_nil, or_false] at hx
    subst hx
    exact ⟨8, by cbv⟩

/-- The variable `x` receives two numbers, with a cell between them. -/
def repeated : Stmt :=
  .assign [.var "x", .cell "a" (.const 0), .var "x"] [.const 1, .const 2, .const 3]

def repeatedGoal : Pred := .compare .eq (.var "x") (.const 3)

def repeatedStart : State := State.ofPairs [("a", .array ∅), ("x", .int 0)]

def repeatedEnd : State :=
  [(.var "x", 1), (.cell "a" 0, 2), (.var "x", 3)].foldl Place.put repeatedStart

/-- **Of two values for one target, the predicate takes the first and the execution the last.**
Without the cell the predicate takes the last one as well. -/
theorem repeated_target_disagrees :
    repeated.wp false repeatedGoal = .ok (.bool false) ∧
    repeated.exec .empty (below .empty 0) repeatedStart 0 = .ok (repeatedEnd, 0) ∧
    repeatedGoal.eval .empty (below .empty 0) repeatedEnd 0 = .ok (true, 0) ∧
    (Pred.bool false).eval .empty (below .empty 0) repeatedStart 0 = .ok (false, 0) ∧
    (Stmt.assign [.var "x", .var "x"] [.const 1, .const 3]).wp false repeatedGoal =
      .ok (.bool true) := by
  refine ⟨by cbv, by cbv, by cbv, rfl, by cbv⟩

end Contracts

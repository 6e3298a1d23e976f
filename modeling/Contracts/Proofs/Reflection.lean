import Contracts.Proofs.EncodingMeaning

/-!
# Structures that reflect valuations

Every valuation of the variables of a function is reflected by a structure: the constants of
variables and the lengths and selectors of arrays get their values at once, and then the constants
of cells one after the other, each from the value of its index (`Structure.withCells`). The order of
the cells makes this possible, because no index mentions the symbol of a later cell.

The names of the function denote in that structure what the valuation says (`reflectAll_denotes`).
-/

set_option autoImplicit false

namespace Contracts

open Smt

variable {α : Type}

/-! ## Values for the cells -/

/-- The structure with the constants of the cells set, in their order. -/
noncomputable def Smt.Structure.withCells (read : String → Int → Int) :
    List CellConst → Structure → Structure
  | [], J => J
  | c :: cells, J =>
    withCells read cells (J.update c.symbol (.int (read c.array (c.index.eval J).toInt)))

namespace Smt.Structure

variable {read : String → Int → Int}

theorem withCells_agreeOn {xs : List String} (cells : List CellConst) (J : Structure)
    (h : ∀ c ∈ cells, c.symbol ∉ xs) : AgreeOn xs (withCells read cells J) J := by
  induction cells generalizing J with
  | nil => exact ⟨fun _ _ => rfl, rfl, rfl⟩
  | cons c cells ih =>
    have hrest := ih (J.update c.symbol (.int (read c.array (c.index.eval J).toInt)))
      fun d hd => h d (List.mem_cons_of_mem _ hd)
    have hfirst := agreeOn_update J (h c List.mem_cons_self)
      (.int (read c.array (c.index.eval J).toInt))
    exact ⟨fun x hx => (hrest.const x hx).trans (hfirst.const x hx), hrest.fn.trans hfirst.fn,
      hrest.zeroQuot.trans hfirst.zeroQuot⟩

theorem AllInts.withCells {J : Structure} (h : J.AllInts) (cells : List CellConst) :
    (withCells read cells J).AllInts := by
  induction cells generalizing J with
  | nil => exact h
  | cons c cells ih => exact ih (h.update ..)

/-- Each cell has the value that its index calls for, also when all values are given. -/
theorem withCells_const {cells : List CellConst} (hself : ∀ c ∈ cells, c.symbol ∉ c.index.consts)
    (hordered : cells.Pairwise fun c d => d.symbol ≠ c.symbol ∧ d.symbol ∉ c.index.consts)
    (J : Structure) : ∀ c ∈ cells, (withCells read cells J).const c.symbol =
      .int (read c.array (c.index.eval (withCells read cells J)).toInt) := by
  induction cells generalizing J with
  | nil =>
    intro c hc
    cases hc
  | cons c cells ih =>
    obtain ⟨hlater, hordered⟩ := List.pairwise_cons.mp hordered
    intro d hd
    rcases List.mem_cons.mp hd with rfl | hd
    · -- later cells touch neither the symbol nor the index of the first one
      have hrest : AgreeOn (d.symbol :: d.index.consts) (withCells read (d :: cells) J)
          (J.update d.symbol (.int (read d.array (d.index.eval J).toInt))) := by
        refine withCells_agreeOn cells _ fun e he hmem => ?_
        rcases List.mem_cons.mp hmem with heq | hmem
        · exact (hlater e he).1 heq
        · exact (hlater e he).2 hmem
      have hindex : d.index.eval (withCells read (d :: cells) J) = d.index.eval J := by
        refine (Term.eval_congr (hrest.mono fun x hx => List.mem_cons_of_mem _ hx)).trans ?_
        exact Term.eval_congr (agreeOn_update J (hself d List.mem_cons_self) _)
      rw [hindex]
      exact (hrest.const d.symbol List.mem_cons_self).trans (update_const_self ..)
    · exact ih (fun e he => hself e (List.mem_cons_of_mem _ he)) hordered _ d hd

end Smt.Structure

/-! ## The structure of a valuation -/

/-- The names of the arrays of a function. -/
def FunctionDef.arrays (f : FunctionDef) : List String :=
  (f.decls.filter (·.type = .array)).map Param.name

theorem FunctionDef.mem_arrays {f : FunctionDef} {a : String} :
    a ∈ f.arrays ↔ ∃ d ∈ f.decls, d.type = .array ∧ d.name = a := by
  simp only [arrays, List.mem_map, List.mem_filter, decide_eq_true_eq, and_assoc]

/-- What the constants of the declared variables and of the lengths of arrays stand for. -/
def Valuation.constant (M : Interpretation α) (ρ : Valuation α) (decls : List Param)
    (symbol : String) : Int :=
  match decls.find? fun d => d.type = .array ∧ d.name ++ "!len" = symbol with
  | some d => M.call "length" [ρ d.name]
  | none =>
    match decls.find? fun d => d.type = .int ∧ varSymbol d.name = symbol with
    | some d => (ρ d.name).toInt
    | none => 0

/-- What the functions of called names and the selectors of arrays stand for. -/
def Valuation.function (M : Interpretation α) (ρ : Valuation α) (decls : List Param)
    (symbol : String) (args : List Int) : Int :=
  match decls.find? fun d => d.type = .array ∧ d.name ++ "!sel" = symbol with
  | some d => M.read (ρ d.name) (args.headD 0)
  | none => M.fn (calledName symbol) (args.map .int)

/-- The structure that reflects a valuation, but for the cells. -/
def Valuation.reflect (M : Interpretation α) (ρ : Valuation α) (decls : List Param)
    (zeroQuot : Int → Int) : Structure where
  const x := .int (ρ.constant M decls x)
  fn f vs := .int (ρ.function M decls f (vs.map Val.toInt))
  zeroQuot := zeroQuot

section

variable {M : Interpretation α} {ρ : Valuation α} {decls : List Param}

theorem mem_and_of_find? {P : Param → Prop} [DecidablePred P] {d : Param}
    (h : (decls.find? fun e => decide (P e)) = some d) : d ∈ decls ∧ P d := by
  have htest := List.find?_some h
  exact ⟨List.mem_of_find?_eq_some h, of_decide_eq_true htest⟩

theorem constant_length {d : Param} {a : α} (hd : d ∈ decls) (htype : d.type = .array)
    (ha : ρ d.name = .array a) : ρ.constant M decls (d.name ++ "!len") = M.length a := by
  unfold Valuation.constant
  cases hfind : decls.find? fun e => e.type = .array ∧ e.name ++ "!len" = d.name ++ "!len" with
  | none =>
    have hnone := List.find?_eq_none.mp hfind d hd
    simp [htype] at hnone
  | some e =>
    obtain ⟨hmem, htest⟩ := mem_and_of_find? hfind
    have hname : e.name = d.name := (String.append_left_inj _).mp htest.2
    dsimp only
    rw [hname, ha]
    rfl

theorem constant_var (hplain : ∀ d ∈ decls, PlainName d.name) {d : Param} (hd : d ∈ decls)
    (htype : d.type = .int) : ρ.constant M decls (varSymbol d.name) = (ρ d.name).toInt := by
  unfold Valuation.constant
  cases hlength : decls.find? fun e => e.type = .array ∧ e.name ++ "!len" = varSymbol d.name with
  | some e =>
    obtain ⟨hmem, htest⟩ := mem_and_of_find? hlength
    exact absurd htest.2.symm (varSymbol_ne_length (hplain d hd).1 e.name)
  | none =>
    cases hfind : decls.find? fun e => e.type = .int ∧ varSymbol e.name = varSymbol d.name with
    | none =>
      have hnone := List.find?_eq_none.mp hfind d hd
      simp [htype] at hnone
    | some e =>
      obtain ⟨hmem, htest⟩ := mem_and_of_find? hfind
      have hname : e.name = d.name := varSymbol_inj (hplain e hmem).1 (hplain d hd).1 htest.2
      dsimp only
      rw [hname]

theorem constant_length_nonneg (hplain : ∀ d ∈ decls, PlainName d.name)
    (htypes : ∀ d ∈ decls, (ρ d.name).type = d.type) (hM : ∀ a, 0 ≤ M.length a) (a : String) :
    0 ≤ ρ.constant M decls (a ++ "!len") := by
  unfold Valuation.constant
  cases hlength : decls.find? fun e => e.type = .array ∧ e.name ++ "!len" = a ++ "!len" with
  | some e =>
    obtain ⟨hmem, htest⟩ := mem_and_of_find? hlength
    have htype := htypes e hmem
    rw [htest.1] at htype
    cases hdatum : ρ e.name with
    | int n =>
      rw [hdatum] at htype
      cases htype
    | array arr =>
      dsimp only
      rw [hdatum]
      exact hM arr
  | none =>
    cases hfind : decls.find? fun e => e.type = .int ∧ varSymbol e.name = a ++ "!len" with
    | none => exact Int.le_refl 0
    | some e =>
      obtain ⟨hmem, htest⟩ := mem_and_of_find? hfind
      exact absurd htest.2 (varSymbol_ne_length (hplain e hmem).1 a)

theorem function_select {d : Param} {a : α} (hd : d ∈ decls) (htype : d.type = .array)
    (ha : ρ d.name = .array a) (i : Int) :
    ρ.function M decls (d.name ++ "!sel") [i] = M.cell a i := by
  unfold Valuation.function
  cases hfind : decls.find? fun e => e.type = .array ∧ e.name ++ "!sel" = d.name ++ "!sel" with
  | none =>
    have hnone := List.find?_eq_none.mp hfind d hd
    simp [htype] at hnone
  | some e =>
    obtain ⟨hmem, htest⟩ := mem_and_of_find? hfind
    have hname : e.name = d.name := (String.append_left_inj _).mp htest.2
    dsimp only
    rw [hname, ha]
    rfl

/-- The selector of an array of the function reads the array. -/
theorem function_select_read {f : FunctionDef} (htypes : ∀ d ∈ f.decls, (ρ d.name).type = d.type)
    {a : String} (ha : a ∈ f.arrays) (i : Int) :
    ρ.function M f.decls (a ++ "!sel") [i] = M.read (ρ a) i := by
  obtain ⟨d, hd, htype, rfl⟩ := FunctionDef.mem_arrays.mp ha
  have hdatum := htypes d hd
  rw [htype] at hdatum
  cases harr : ρ d.name with
  | int n =>
    rw [harr] at hdatum
    cases hdatum
  | array arr => exact function_select hd htype harr i

theorem function_called (hplain : ∀ d ∈ decls, PlainName d.name) (f : String) (ns : List Int) :
    ρ.function M decls (fnSymbol f) ns = M.fn f (ns.map .int) := by
  unfold Valuation.function
  cases hfind : decls.find? fun e => e.type = .array ∧ e.name ++ "!sel" = fnSymbol f with
  | some e =>
    obtain ⟨hmem, htest⟩ := mem_and_of_find? hfind
    exact absurd htest.2 (selector_ne_fnSymbol (hplain e hmem).2 f)
  | none => rw [calledName_fnSymbol]

/-- A name that the environment of a function knows is declared there. -/
theorem Env.lookup?_ofFunction {f : FunctionDef} {x : String} {m : Meaning}
    (h : (Env.ofFunction f).lookup? x = some m) :
    ∃ d ∈ f.decls, d.name = x ∧ m = Env.declared d := by
  have hfold : ∀ (l : List Param) (env : Env),
      (l.foldl (fun env p => env.bind p.name (declared p)) env).lookup? x = some m →
      env.lookup? x = some m ∨ ∃ d ∈ l, d.name = x ∧ m = Env.declared d := by
    intro l
    induction l with
    | nil => exact fun env h => .inl h
    | cons d l ih =>
      intro env h
      rcases ih _ h with h | ⟨e, he, hname⟩
      · rw [Env.lookup?_bind] at h
        split at h
        · next hx =>
          cases h
          exact .inr ⟨d, List.mem_cons_self, hx.symm, rfl⟩
        · exact .inl h
      · exact .inr ⟨e, List.mem_cons_of_mem _ he, hname⟩
  rcases hfold f.decls Env.empty h with h | h
  · cases h
  · exact h

theorem Env.mem_arrays_of_lookup? {f : FunctionDef} {x a : String}
    (h : (Env.ofFunction f).lookup? x = some (.array a)) : a ∈ f.arrays := by
  obtain ⟨d, hd, -, hm⟩ := Env.lookup?_ofFunction h
  unfold Env.declared at hm
  split at hm
  · cases hm
  · next htype =>
    cases hm
    exact FunctionDef.mem_arrays.mpr ⟨d, hd, htype, rfl⟩

theorem Env.bound_ofFunction (f : FunctionDef) : (Env.ofFunction f).bound = [] := by
  have hfold : ∀ (l : List Param) (env : Env),
      (l.foldl (fun env p => env.bind p.name (declared p)) env).bound = env.bound := by
    intro l
    induction l with
    | nil => exact fun env => rfl
    | cons d l ih => exact fun env => ih _
  exact hfold f.decls Env.empty

theorem Env.settled_ofFunction {f : FunctionDef} (hplain : ∀ d ∈ f.decls, PlainName d.name)
    (c : Nat) : (Env.ofFunction f).Settled f.arrays c := by
  constructor
  · intro x t ht
    obtain ⟨d, hd, -, hm⟩ := Env.lookup?_ofFunction ht
    unfold Env.declared at hm
    split at hm
    · cases hm
      exact Term.numeric_const (varSymbol_not_madeAfter (hplain d hd).1 c)
    · cases hm
  · exact fun x a ha => Env.mem_arrays_of_lookup? ha

/-! ## The structure fits -/

/-- The structure that reflects a valuation, cells included. -/
noncomputable def Valuation.reflectAll (M : Interpretation α) (ρ : Valuation α)
    (decls : List Param) (zeroQuot : Int → Int) (cells : List CellConst) : Structure :=
  Structure.withCells (fun a i => M.read (ρ a) i) cells (ρ.reflect M decls zeroQuot)

section

variable {zeroQuot : Int → Int} {cells : List CellConst} {c : Nat}

/-- Only numbered symbols are given their values with the cells. -/
theorem reflectAll_const (hcells : ∀ d ∈ cells, d.Numbered c) {x : String}
    (hx : ∀ k, ¬MadeAfter k x) :
    (ρ.reflectAll M decls zeroQuot cells).const x = .int (ρ.constant M decls x) := by
  have hagree : Structure.AgreeOn [x] (ρ.reflectAll M decls zeroQuot cells)
      (ρ.reflect M decls zeroQuot) := by
    refine Structure.withCells_agreeOn cells _ fun d hd hmem => ?_
    obtain ⟨base, k, -, hsymbol, -⟩ := hcells d hd
    refine hx k ?_
    rw [← List.mem_singleton.mp hmem, hsymbol, madeAfter_numberedSymbol]
    omega
  exact hagree.const x List.mem_cons_self

theorem reflectAll_fn (f : String) (vs : List Val) :
    (ρ.reflectAll M decls zeroQuot cells).fn f vs =
      .int (ρ.function M decls f (vs.map Val.toInt)) := by
  have hagree : Structure.AgreeOn [] (ρ.reflectAll M decls zeroQuot cells)
      (ρ.reflect M decls zeroQuot) :=
    Structure.withCells_agreeOn cells _ fun d _ => List.not_mem_nil
  rw [hagree.fn]
  rfl

theorem reflectAll_zeroQuot : (ρ.reflectAll M decls zeroQuot cells).zeroQuot = zeroQuot := by
  have hagree : Structure.AgreeOn [] (ρ.reflectAll M decls zeroQuot cells)
      (ρ.reflect M decls zeroQuot) :=
    Structure.withCells_agreeOn cells _ fun d _ => List.not_mem_nil
  exact hagree.zeroQuot

theorem reflectAll_fits (hplain : ∀ d ∈ decls, PlainName d.name)
    (hquot : ∀ a, M.zeroQuot a = if 0 ≤ a then zeroQuot a else -zeroQuot (-a)) :
    (ρ.reflectAll M decls zeroQuot cells).Fits M := by
  have hbase : (ρ.reflect M decls zeroQuot).AllInts := ⟨fun _ => rfl, fun _ _ => rfl⟩
  refine ⟨hbase.withCells cells, fun f ns => ?_, fun a => ?_⟩
  · rw [reflectAll_fn, List.map_map]
    have hids : ns.map (Val.toInt ∘ Val.int) = ns := List.map_id ns
    rw [hids, function_called hplain]
  · rw [reflectAll_zeroQuot]
    exact hquot a

theorem reflectAll_length_nonneg (hplain : ∀ d ∈ decls, PlainName d.name)
    (htypes : ∀ d ∈ decls, (ρ d.name).type = d.type) (hM : ∀ a, 0 ≤ M.length a)
    (hcells : ∀ d ∈ cells, d.Numbered c) (a : String) :
    0 ≤ ((ρ.reflectAll M decls zeroQuot cells).const (a ++ "!len")).toInt := by
  rw [reflectAll_const hcells (lengthSymbol_not_madeAfter a)]
  exact constant_length_nonneg hplain htypes hM a

theorem reflectAll_cell (hcells : ∀ d ∈ cells, d.Numbered c)
    (hordered : cells.Pairwise fun d e => e.symbol ≠ d.symbol ∧ e.symbol ∉ d.index.consts)
    {d : CellConst} (hd : d ∈ cells) :
    (ρ.reflectAll M decls zeroQuot cells).const d.symbol = .int (M.read (ρ d.array)
      (d.index.eval (ρ.reflectAll M decls zeroQuot cells)).toInt) := by
  refine Structure.withCells_const (fun e he hmem => ?_) hordered _ d hd
  obtain ⟨base, k, -, hsymbol, hindex⟩ := hcells e he
  refine hindex.settled _ hmem ?_
  rw [hsymbol, madeAfter_numberedSymbol]
  omega

theorem reflectAll_denotes {f : FunctionDef} (hplain : ∀ d ∈ f.decls, PlainName d.name)
    (htypes : ∀ d ∈ f.decls, (ρ d.name).type = d.type) (hcells : ∀ d ∈ cells, d.Numbered c)
    (hordered : cells.Pairwise fun d e => e.symbol ≠ d.symbol ∧ e.symbol ∉ d.index.consts) :
    (Env.ofFunction f).Denotes M (ρ.reflectAll M f.decls zeroQuot cells) cells ρ := by
  constructor
  · -- a scalar: its constant has the value of the variable
    intro x t ht
    obtain ⟨d, hd, rfl, hm⟩ := Env.lookup?_ofFunction ht
    unfold Env.declared at hm
    split at hm
    · next htype =>
      cases hm
      refine ⟨(ρ d.name).toInt, ?_, Datum.eq_int_toInt (by rw [htypes d hd, htype])⟩
      rw [Term.eval, reflectAll_const hcells (varSymbol_not_madeAfter (hplain d hd).1),
        constant_var hplain hd htype]
    · cases hm
  · -- an array: its cells, its selector and its length go by the same array
    intro x name hname
    obtain ⟨d, hd, rfl, hm⟩ := Env.lookup?_ofFunction hname
    unfold Env.declared at hm
    split at hm
    · cases hm
    · next htype =>
      cases hm
      have hdatum := htypes d hd
      rw [htype] at hdatum
      cases ha : ρ d.name with
      | int n =>
        rw [ha] at hdatum
        cases hdatum
      | array a =>
        refine ⟨a, rfl, fun e he harray => ?_, fun i => ?_, ?_⟩
        · rw [reflectAll_cell hcells hordered he, harray, ha]
          rfl
        · rw [reflectAll_fn]
          exact congrArg Val.int (function_select hd htype ha i)
        · rw [reflectAll_const hcells (lengthSymbol_not_madeAfter d.name),
            constant_length hd htype ha]

end

end

end Contracts

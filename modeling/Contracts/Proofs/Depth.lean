import Contracts.Proofs.ExecutionMeaning

/-!
# Depth

An execution asks the level below it for the values that functions return and for the truth of
formulas, and for nothing else. So it gives the same over any other level that gives no less
(`Stmt.within_exec`), however the functions there come to what they return.

The limit on the depth of calls and formula references can stop an execution, and that is all it
does: what an execution gives under some limit, it gives under every higher one
(`callFunction_below_mono`). So "the result of a call" needs no mention of the level that the call
is made from.
-/

set_option autoImplicit false

namespace Contracts

/-! ## Computations that give no less -/

namespace EvalM

variable {α β : Type}

/-- Whatever the first computation gives, the second one gives as well. -/
def Within (x y : EvalM α) : Prop := ∀ fuel r, x fuel = .ok r → y fuel = .ok r

theorem Within.refl (x : EvalM α) : Within x x := fun _ _ h => h

theorem Within.throw (e : RunError) (y : EvalM α) : Within (MonadExcept.throw e) y :=
  fun _ _ h => nomatch h

theorem Within.bind {x y : EvalM α} {f g : α → EvalM β} (hx : Within x y)
    (hf : ∀ a, Within (f a) (g a)) : Within (x >>= f) (y >>= g) := by
  intro fuel r h
  obtain ⟨a, fuel₁, ha, hr⟩ := bind_eq_ok.mp h
  exact bind_eq_ok.mpr ⟨a, fuel₁, hx fuel _ ha, hf a fuel₁ r hr⟩

theorem Within.map {x y : EvalM α} (hx : Within x y) (f : α → β) : Within (f <$> x) (f <$> y) := by
  rw [map_eq_pure_bind, map_eq_pure_bind]
  exact hx.bind fun a => .refl _

theorem Within.mapM {f g : α → EvalM β} (hf : ∀ a, Within (f a) (g a)) (as : List α) :
    Within (as.mapM f) (as.mapM g) := by
  induction as with
  | nil => exact .refl _
  | cons a as ih =>
    rw [List.mapM_cons, List.mapM_cons]
    exact (hf a).bind fun b => ih.bind fun bs => .refl _

end EvalM

/-- The values that a function returns when it ends in a state of its own. -/
def FunctionDef.returned (f : FunctionDef) (final : State) : List Value :=
  f.returns.map fun r => final[r.name]?.getD (.int 0)

/-- The second level below gives no less than the first: the same returned values, though the
functions may end in other states, and the same truth of formulas. -/
structure Below.Within (b b' : Below) : Prop where
  run : ∀ f args, (f.returned <$> b.run f args).Within (f.returned <$> b'.run f args)
  holds : ∀ holds, b.holds? = some holds → ∃ holds', b'.holds? = some holds' ∧
    ∀ q s, (holds q s).Within (holds' q s)

/-! ## Evaluation -/

section

variable {p : Program} {b b' : Below}

theorem within_callFunction (hb : b.Within b') (f : String) (count : Nat)
    {operands operands' : EvalM (List Value)} (ho : operands.Within operands') :
    (callFunction p b f count operands).Within (callFunction p b' f count operands') := by
  intro fuel r h
  obtain ⟨g, hg, hn, values, fuel₁, final, hv, hrun, hr⟩ := callFunction_eq_ok.mp h
  obtain ⟨final', hrun', hr'⟩ := EvalM.map_eq_ok.mp
    (hb.run g _ fuel₁ (g.returned final, r.2) (EvalM.map_eq_ok.mpr ⟨final, hrun, rfl⟩))
  exact callFunction_eq_ok.mpr ⟨g, hg, hn, values, fuel₁, final', ho fuel _ hv, hrun',
    hr.trans hr'.symm⟩

theorem within_holdsFormula (hb : b.Within b') (f : String) (count : Nat)
    {operands operands' : EvalM (List Value)} (ho : operands.Within operands') :
    (holdsFormula p b f count operands).Within (holdsFormula p b' f count operands') := by
  intro fuel r h
  obtain ⟨d, hd, hn, holds, hh, values, fuel₁, hv, hbody⟩ := holdsFormula_eq_ok.mp h
  obtain ⟨holds', hh', hwithin⟩ := hb.holds holds hh
  exact holdsFormula_eq_ok.mpr ⟨d, hd, hn, holds', hh', values, fuel₁, ho fuel _ hv,
    hwithin _ _ fuel₁ r hbody⟩

mutual

theorem Expr.within_eval (hb : b.Within b') (s : State) :
    ∀ e : Expr, (e.eval p b s).Within (e.eval p b' s)
  | .const n => by
    rw [Expr.eval, Expr.eval]
    exact .refl _
  | .var x => by
    rw [Expr.eval, Expr.eval]
    exact .refl _
  | .neg e => by
    rw [Expr.eval, Expr.eval]
    exact (Expr.within_eval hb s e).bind fun v => .refl _
  | .binary op x y => by
    rw [Expr.eval, Expr.eval]
    exact (Expr.within_eval hb s x).bind fun m => (Expr.within_eval hb s y).bind fun n => .refl _
  | .read a i => by
    rw [Expr.eval, Expr.eval]
    exact (Expr.within_eval hb s i).bind fun v => .refl _
  | .call f args => by
    rw [Expr.eval, Expr.eval]
    cases askedLength? s f args with
    | some n => exact .refl _
    | none =>
      exact (within_callFunction hb f _ (Expr.within_operands hb s args)).bind fun values =>
        .refl _
  | .cond t x y => by
    rw [Expr.eval, Expr.eval]
    refine (Pred.within_eval hb s t).bind fun v => ?_
    by_cases hv : v = true
    · rw [if_pos hv, if_pos hv]
      exact Expr.within_eval hb s x
    · rw [if_neg hv, if_neg hv]
      exact Expr.within_eval hb s y

theorem Expr.within_operands (hb : b.Within b') (s : State) :
    ∀ es : List Expr, (Expr.operands p b s es).Within (Expr.operands p b' s es)
  | [] => by
    rw [Expr.operands, Expr.operands]
    exact .refl _
  | e :: es => by
    have hes := Expr.within_operands hb s es
    have he := Expr.within_eval hb s e
    rw [Expr.operands, Expr.operands]
    cases e.array? s with
    | some c => exact (EvalM.Within.refl _).bind fun v => hes.bind fun vs => .refl _
    | none => exact (he.map _).bind fun v => hes.bind fun vs => .refl _

theorem Pred.within_eval (hb : b.Within b') (s : State) :
    ∀ q : Pred, (q.eval p b s).Within (q.eval p b' s)
  | .bool v => by
    rw [Pred.eval, Pred.eval]
    exact .refl _
  | .compare op x y => by
    rw [Pred.eval, Pred.eval]
    exact (Expr.within_eval hb s x).bind fun m => (Expr.within_eval hb s y).bind fun n => .refl _
  | .not q => by
    rw [Pred.eval, Pred.eval]
    exact (Pred.within_eval hb s q).bind fun v => .refl _
  | .and q q' => by
    rw [Pred.eval, Pred.eval]
    refine (Pred.within_eval hb s q).bind fun v => ?_
    by_cases hv : v = true
    · rw [if_pos hv, if_pos hv]
      exact Pred.within_eval hb s q'
    · rw [if_neg hv, if_neg hv]
      exact .refl _
  | .or q q' => by
    rw [Pred.eval, Pred.eval]
    refine (Pred.within_eval hb s q).bind fun v => ?_
    by_cases hv : v = true
    · rw [if_pos hv, if_pos hv]
      exact .refl _
    · rw [if_neg hv, if_neg hv]
      exact Pred.within_eval hb s q'
  | .implies q q' => by
    rw [Pred.eval, Pred.eval]
    refine (Pred.within_eval hb s q).bind fun v => ?_
    by_cases hv : v = true
    · rw [if_pos hv, if_pos hv]
      exact Pred.within_eval hb s q'
    · rw [if_neg hv, if_neg hv]
      exact .refl _
  | .paren q => by
    rw [Pred.eval, Pred.eval]
    exact Pred.within_eval hb s q
  | .quantified .. => by
    rw [Pred.eval, Pred.eval]
    exact .refl _
  | .formula f args => by
    rw [Pred.eval, Pred.eval]
    exact within_holdsFormula hb f _ (Expr.within_operands hb s args)

end

/-! ## Statements -/

theorem Target.within_place (hb : b.Within b') (s : State) (t : Target) :
    (t.place p b s).Within (t.place p b' s) := by
  cases t with
  | var x => exact .refl _
  | cell a i => exact (Expr.within_eval hb s i).bind fun v => .refl _

theorem within_assignedValues (hb : b.Within b') (s : State) (count : Nat) (es : List Expr) :
    (assignedValues p b s count es).Within (assignedValues p b' s count es) := by
  unfold assignedValues
  cases singleCall? es with
  | none => exact Expr.within_operands hb s es
  | some call =>
    dsimp only
    by_cases hcount : count ≠ 1
    · rw [if_pos hcount, if_pos hcount]
      exact within_callFunction hb _ _ (Expr.within_operands hb s _)
    · rw [if_neg hcount, if_neg hcount]
      exact Expr.within_operands hb s es

theorem within_execAssign (hb : b.Within b') (targets : List Target) (es : List Expr) (s : State) :
    (execAssign p b targets es s).Within (execAssign p b' targets es s) := by
  unfold execAssign
  refine (within_assignedValues hb s _ es).bind fun values => ?_
  by_cases hcall : (targets.isEmpty && (singleCall? es).isSome) = true
  · rw [if_pos hcall, if_pos hcall]
    exact .refl _
  · rw [if_neg hcall, if_neg hcall]
    by_cases hlength : values.length ≠ targets.length
    · rw [if_pos hlength, if_pos hlength]
      intro fuel r h
      cases h
    · rw [if_neg hlength, if_neg hlength]
      exact (EvalM.Within.mapM (fun t => t.within_place hb s) targets).bind fun places => .refl _

theorem within_iterate {test test' : State → EvalM Bool} {body body' : State → EvalM State}
    (htest : ∀ s, (test s).Within (test' s)) (hbody : ∀ s, (body s).Within (body' s)) :
    ∀ (n : Nat) (s : State), EvalM.Within (iterate test body n s) (iterate test' body' n s)
  | 0, _ => fun _ _ h => nomatch h
  | n + 1, s => by
    intro fuel r h
    rw [iterate] at h ⊢
    cases ht : test s fuel with
    | error e =>
      rw [ht] at h
      cases h
    | ok result =>
      rw [ht] at h
      rw [htest s fuel _ ht]
      obtain ⟨t, fuel₁⟩ := result
      cases t with
      | false => exact h
      | true =>
        cases fuel₁ with
        | zero => cases h
        | succ fuel₁ =>
          dsimp only at h ⊢
          cases hrun : body s fuel₁ with
          | error e =>
            rw [hrun] at h
            cases h
          | ok result =>
            rw [hrun] at h
            rw [hbody s fuel₁ _ hrun]
            exact within_iterate htest hbody n result.1 result.2 r h

mutual

theorem Stmt.within_exec (hb : b.Within b') :
    ∀ (c : Stmt) (s : State), (c.exec p b s).Within (c.exec p b' s)
  | .assign targets es, s => by
    rw [Stmt.exec, Stmt.exec]
    exact within_execAssign hb targets es s
  | .block stmts, s => by
    rw [Stmt.exec, Stmt.exec]
    exact Stmt.within_execBlock hb stmts s
  | .branch c yes none, s => by
    rw [Stmt.exec, Stmt.exec]
    refine (Pred.within_eval hb s c).bind fun t => ?_
    by_cases ht : t = true
    · rw [if_pos ht, if_pos ht]
      exact Stmt.within_exec hb yes s
    · rw [if_neg ht, if_neg ht]
      exact .refl _
  | .branch c yes (some no), s => by
    rw [Stmt.exec, Stmt.exec]
    refine (Pred.within_eval hb s c).bind fun t => ?_
    by_cases ht : t = true
    · rw [if_pos ht, if_pos ht]
      exact Stmt.within_exec hb yes s
    · rw [if_neg ht, if_neg ht]
      exact Stmt.within_exec hb no s
  | .loop c body inv, s => by
    rw [Stmt.exec, Stmt.exec]
    exact fun fuel => within_iterate (fun s => Pred.within_eval hb s c)
      (fun s => Stmt.within_exec hb body s) (fuel + 1) s fuel

theorem Stmt.within_execBlock (hb : b.Within b') :
    ∀ (cs : List Stmt) (s : State), (Stmt.execBlock p b cs s).Within (Stmt.execBlock p b' cs s)
  | [], s => by
    rw [Stmt.execBlock, Stmt.execBlock]
    exact .refl _
  | c :: cs, s => by
    rw [Stmt.execBlock, Stmt.execBlock]
    exact (Stmt.within_exec hb c s).bind fun t => Stmt.within_execBlock hb cs t

end

end

/-! ## Levels -/

/-- A level gives no less than the levels under it. -/
theorem below_within (p : Program) {m n : Nat} (h : m ≤ n) : (below p m).Within (below p n) := by
  induction m generalizing n with
  | zero => exact ⟨fun f args => .map (.throw _ _) _, fun holds hh => nomatch hh⟩
  | succ m ih =>
    obtain ⟨k, rfl⟩ : ∃ k, n = k + 1 := ⟨n - 1, by omega⟩
    have hk : m ≤ k := by omega
    refine ⟨fun f args => (Stmt.within_exec (ih hk) f.body _).map _, fun holds hh => ?_⟩
    cases hh
    exact ⟨_, rfl, fun q s => Pred.within_eval (ih hk) s q⟩

/-- A call that succeeds at some level gives the same at every higher level. -/
theorem callFunction_below_mono {p : Program} {m n : Nat} (h : m ≤ n) {f : String} {count : Nat}
    {operands : EvalM (List Value)} {fuel : Nat} {r : List Value × Nat}
    (hcall : callFunction p (below p m) f count operands fuel = .ok r) :
    callFunction p (below p n) f count operands fuel = .ok r :=
  within_callFunction (below_within p h) f count (.refl operands) fuel r hcall

end Contracts

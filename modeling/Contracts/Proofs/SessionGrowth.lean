import Contracts.Proofs.SmtMeaning
import Contracts.Proofs.Symbols

/-!
# What a step of an encoding does to its session

A step makes symbols with new numbers and adds cells, declarations and assertions; it takes nothing
away, also where it fails. `EncodeM.Keeps` says this of a step, together with what its result is
like, and composes along `do` blocks.

* Every cell that a step adds belongs to one of the given arrays, has a new symbol, and no bound
  symbol occurs in its index (`Session.Grows`).
* In the list of cells, the index of a cell mentions neither the symbol of the cell nor that of a
  later one (`Session.WellFormed`), so values can be given to the symbols one after the other.
* A term mentions no symbol that is made later (`Term.Settled`).

What is known of the commands of a session is a parameter `V` of the statements.
-/

set_option autoImplicit false

namespace Contracts

open Smt

/-! ## Running steps -/

namespace EncodeM

variable {α β : Type} {s s' : Session}

theorem bind_of_ok {x : EncodeM α} {f : α → EncodeM β} {a : α} (h : x s = (.ok a, s')) :
    (x >>= f) s = f a s' := by
  have hrun : (x >>= f) s = ExceptT.bindCont f (x s).1 (x s).2 := rfl
  rw [hrun, h]
  rfl

theorem bind_of_error {x : EncodeM α} {f : α → EncodeM β} {e : VerifyError}
    (h : x s = (.error e, s')) : (x >>= f) s = (.error e, s') := by
  have hrun : (x >>= f) s = ExceptT.bindCont f (x s).1 (x s).2 := rfl
  rw [hrun, h]
  rfl

/-- A sequence gives a result when both of its parts do. -/
theorem bind_eq_ok {x : EncodeM α} {f : α → EncodeM β} {r : β} :
    (x >>= f) s = (.ok r, s') ↔ ∃ a s₁, x s = (.ok a, s₁) ∧ f a s₁ = (.ok r, s') := by
  cases hx : x s with
  | mk result s₁ =>
    cases result with
    | error e =>
      rw [bind_of_error hx]
      constructor
      · intro h
        cases h
      · rintro ⟨a, s₁', heq, -⟩
        cases heq
    | ok a =>
      rw [bind_of_ok hx]
      constructor
      · intro h
        exact ⟨a, s₁, rfl, h⟩
      · rintro ⟨a', s₁', heq, h⟩
        cases heq
        exact h

theorem map_eq_ok {x : EncodeM α} {f : α → β} {r : β} :
    (f <$> x) s = (.ok r, s') ↔ ∃ a, x s = (.ok a, s') ∧ f a = r := by
  have hmap : (f <$> x) s = (x >>= fun a => pure (f a)) s := rfl
  rw [hmap, bind_eq_ok]
  constructor
  · rintro ⟨a, s₁, hx, h⟩
    cases h
    exact ⟨a, hx, rfl⟩
  · rintro ⟨a, hx, rfl⟩
    exact ⟨a, s', hx, rfl⟩

@[simp] theorem pure_eq_ok {a r : α} : (pure a : EncodeM α) s = (.ok r, s') ↔ a = r ∧ s = s' := by
  rw [show (pure a : EncodeM α) s = (.ok a, s) from rfl, Prod.mk.injEq, Except.ok.injEq]

@[simp] theorem throw_ne_ok {e : VerifyError} {r : α} :
    ¬(throw e : EncodeM α) s = (.ok r, s') := by
  intro h
  cases h

theorem get_bind (f : Session → EncodeM β) : (get >>= f) s = f s s := rfl

/-- A check that can refuse the rest of a step. -/
theorem guard_eq_ok {c : Prop} [Decidable c] {e : VerifyError} {f : PUnit → EncodeM α} {r : α} :
    (if c then throw e >>= f else f ⟨⟩) s = (.ok r, s') ↔ ¬c ∧ f ⟨⟩ s = (.ok r, s') := by
  by_cases hc : c
  · rw [if_pos hc]
    constructor
    · intro h
      cases h
    · rintro ⟨hnot, -⟩
      exact absurd hc hnot
  · rw [if_neg hc]
    constructor
    · intro h
      exact ⟨hc, h⟩
    · rintro ⟨-, h⟩
      exact h

end EncodeM

/-! ## Terms that are settled -/

namespace Smt

/-- All constants have integer values, and all functions. -/
structure Structure.AllInts (J : Structure) : Prop where
  const : ∀ x, (J.const x).sort = .int
  fn : ∀ f vs, (J.fn f vs).sort = .int

theorem Structure.AllInts.update {J : Structure} (h : J.AllInts) (x : String) (n : Int) :
    (J.update x (.int n)).AllInts := by
  refine ⟨fun y => ?_, h.fn⟩
  by_cases hyx : y = x
  · rw [hyx, Structure.update_const_self]
    rfl
  · rw [Structure.update_const_of_ne J hyx, h.const y]

namespace Term

/-- No symbol with a number above `c` occurs in the term. -/
def Settled (c : Nat) (t : Term) : Prop := ∀ x ∈ t.consts, ¬MadeAfter c x

theorem Settled.mono {c c' : Nat} {t : Term} (h : t.Settled c) (hc : c ≤ c') : t.Settled c' :=
  fun x hx hmade => h x hx (hmade.mono hc)

section

variable {c : Nat}

@[simp] theorem settled_bool (b : Bool) : (Term.bool b).Settled c := by
  intro x hx
  cases hx

@[simp] theorem settled_int (n : Int) : (Term.int n).Settled c := by
  intro x hx
  cases hx

@[simp] theorem settled_const (x : String) : (Term.const x).Settled c ↔ ¬MadeAfter c x := by
  simp only [Settled, consts, List.mem_singleton, forall_eq]

@[simp] theorem settled_not (t : Term) : (Term.not t).Settled c ↔ t.Settled c := by
  simp only [Settled, consts]

@[simp] theorem settled_neg (t : Term) : (Term.neg t).Settled c ↔ t.Settled c := by
  simp only [Settled, consts]

@[simp] theorem settled_binary (op : BinOp) (a b : Term) :
    (Term.binary op a b).Settled c ↔ a.Settled c ∧ b.Settled c := by
  simp only [Settled, consts, List.mem_append, or_imp, forall_and]

@[simp] theorem settled_ite (t a b : Term) :
    (Term.ite t a b).Settled c ↔ t.Settled c ∧ a.Settled c ∧ b.Settled c := by
  simp only [Settled, consts, List.mem_append, or_imp, forall_and, and_assoc]

@[simp] theorem settled_quantified (q : Quantifier) (vars : List (String × SmtSort)) (t : Term) :
    (Term.quantified q vars t).Settled c ↔ t.Settled c := by
  simp only [Settled, consts]

theorem settled_constsList {ts : List Term} :
    (∀ x ∈ constsList ts, ¬MadeAfter c x) ↔ ∀ t ∈ ts, t.Settled c := by
  simp only [mem_constsList, Settled]
  constructor
  · intro h t ht x hx
    exact h x ⟨t, ht, hx⟩
  · rintro h x ⟨t, ht, hx⟩
    exact h t ht x hx

@[simp] theorem settled_junction (op : Junction) (ts : List Term) :
    (Term.junction op ts).Settled c ↔ ∀ t ∈ ts, t.Settled c := by
  rw [← settled_constsList, Settled, consts]

@[simp] theorem settled_app (f : String) (ts : List Term) :
    (Term.app f ts).Settled c ↔ ∀ t ∈ ts, t.Settled c := by
  rw [← settled_constsList, Settled, consts]

end

/-- The term is an integer wherever the symbols are. -/
def IsInt (t : Term) : Prop := ∀ J : Structure, J.AllInts → (t.eval J).sort = .int

/-- A settled integer term. -/
structure Numeric (c : Nat) (t : Term) : Prop where
  settled : t.Settled c
  isInt : t.IsInt

theorem Numeric.mono {c c' : Nat} {t : Term} (h : t.Numeric c) (hc : c ≤ c') : t.Numeric c' :=
  ⟨h.settled.mono hc, h.isInt⟩

theorem numeric_int {c : Nat} (n : Int) : (Term.int n).Numeric c :=
  ⟨settled_int n, fun _ _ => by rw [eval]; rfl⟩

theorem numeric_const {c : Nat} {x : String} (h : ¬MadeAfter c x) : (Term.const x).Numeric c :=
  ⟨(settled_const x).mpr h, fun J hJ => by
    rw [eval]
    exact hJ.const x⟩

theorem Numeric.neg {c : Nat} {t : Term} (h : t.Numeric c) : (Term.neg t).Numeric c :=
  ⟨(settled_neg t).mpr h.settled, fun _ _ => by rw [eval]; rfl⟩

theorem Numeric.ite {c : Nat} {t a b : Term} (ht : t.Settled c) (ha : a.Numeric c)
    (hb : b.Numeric c) : (Term.ite t a b).Numeric c := by
  refine ⟨(settled_ite t a b).mpr ⟨ht, ha.settled, hb.settled⟩, fun J hJ => ?_⟩
  rw [eval]
  by_cases htest : (t.eval J).truth
  · rw [Val.select_of_true htest, ha.isInt J hJ]
  · rw [Val.select_of_false htest, hb.isInt J hJ]

theorem numeric_app {c : Nat} {f : String} {ts : List Term} (h : ∀ t ∈ ts, t.Numeric c) :
    (Term.app f ts).Numeric c := by
  refine ⟨(settled_app f ts).mpr fun t ht => (h t ht).settled, fun J hJ => ?_⟩
  rw [eval]
  exact hJ.fn f _

end Term

end Smt

theorem numeric_arithTerm {c : Nat} {op : ArithOp} {a b : Term} (ha : a.Numeric c)
    (hb : b.Numeric c) : (arithTerm op a b).Numeric c := by
  cases op with
  | add | sub | mul =>
    refine ⟨(Term.settled_binary _ a b).mpr ⟨ha.settled, hb.settled⟩, fun J _ => ?_⟩
    rw [arithTerm, Term.eval]
    rfl
  | div =>
    refine Term.Numeric.ite ?_ ⟨?_, fun J _ => ?_⟩ ⟨?_, fun J _ => ?_⟩
    · simp [ha.settled]
    · simp [ha.settled, hb.settled]
    · rw [Term.eval]
      rfl
    · simp [ha.settled, hb.settled]
    · rw [Term.eval]
      rfl

theorem settled_cmpTerm {c : Nat} (op : CmpOp) {a b : Term} (ha : a.Settled c) (hb : b.Settled c) :
    (cmpTerm op a b).Settled c := by
  cases op <;> simp [cmpTerm, Term.eq, ha, hb]

/-! ## Sessions -/

/-- The commands that any encoding may add: declarations of integer symbols and the bounds on
lengths. -/
structure AdmitsBasics (V : Command → Prop) : Prop where
  const : ∀ x : String, V (.declareConst x .int)
  fn : ∀ (f : String) (params : List SmtSort), V (.declareFun f params .int)
  length : ∀ a : String, V (.assert (.binary .ge (.const (a ++ "!len")) (.int 0)))

theorem admitsBasics_true : AdmitsBasics fun _ => True :=
  ⟨fun _ => trivial, fun _ _ => trivial, fun _ => trivial⟩

/-- The symbol of a cell is numbered, and its index is older. -/
def CellConst.Numbered (c : Nat) (cell : CellConst) : Prop :=
  ∃ base k, k < c ∧ cell.symbol = numberedSymbol base (k + 1) ∧ cell.index.Numeric k

theorem CellConst.Numbered.mono {c c' : Nat} {cell : CellConst} (h : cell.Numbered c)
    (hc : c ≤ c') : cell.Numbered c' := by
  obtain ⟨base, k, hk, hsymbol, hindex⟩ := h
  exact ⟨base, k, by omega, hsymbol, hindex⟩

theorem CellConst.Numbered.symbol_not_madeAfter {c : Nat} {cell : CellConst}
    (h : cell.Numbered c) : ¬MadeAfter c cell.symbol := by
  obtain ⟨base, k, hk, hsymbol, -⟩ := h
  rw [hsymbol, madeAfter_numberedSymbol]
  omega

theorem CellConst.Numbered.index_numeric {c : Nat} {cell : CellConst} (h : cell.Numbered c) :
    cell.index.Numeric c := by
  obtain ⟨base, k, hk, -, hindex⟩ := h
  exact hindex.mono (by omega)

/-- What holds of a session at all times, where `V` is what commands are to satisfy. -/
structure Session.WellFormed (V : Command → Prop) (s : Session) : Prop where
  cells : ∀ c ∈ s.scope.cells, c.Numbered s.counter
  /-- A cell does not depend on a later one. -/
  ordered : s.scope.cells.Pairwise fun c d => d.symbol ≠ c.symbol ∧ d.symbol ∉ c.index.consts
  commands : ∀ c ∈ s.commands, V c
  decls : ∀ c ∈ s.scope.decls, V c
  assertions : ∀ c ∈ s.scope.assertions, V c

theorem Session.WellFormed.mono {V W : Command → Prop} (hVW : ∀ c, V c → W c) {s : Session}
    (h : s.WellFormed V) : s.WellFormed W :=
  ⟨h.cells, h.ordered, fun c hc => hVW c (h.commands c hc), fun c hc => hVW c (h.decls c hc),
    fun c hc => hVW c (h.assertions c hc)⟩

/-- The session has gained symbols and cells. The new cells are cells of `arrays`, and no symbol of
`bound` occurs in their indices. -/
structure Session.Grows (arrays bound : List String) (s s' : Session) : Prop where
  counter : s.counter ≤ s'.counter
  cells : ∃ new, s'.scope.cells = s.scope.cells ++ new ∧ ∀ c ∈ new,
    c.array ∈ arrays ∧ (∀ x ∈ bound, x ∉ c.index.consts) ∧ MadeAfter s.counter c.symbol

namespace Session.Grows

variable {arrays bound : List String} {s s' s'' : Session}

theorem of_eq (hcounter : s'.counter = s.counter) (hcells : s'.scope.cells = s.scope.cells) :
    s.Grows arrays bound s' :=
  ⟨Nat.le_of_eq hcounter.symm, [], by rw [hcells, List.append_nil], fun _ h => by cases h⟩

theorem trans (h : s.Grows arrays bound s') (h' : s'.Grows arrays bound s'') :
    s.Grows arrays bound s'' := by
  obtain ⟨new, hnew, hold⟩ := h.cells
  obtain ⟨new', hnew', hold'⟩ := h'.cells
  refine ⟨Nat.le_trans h.counter h'.counter, new ++ new', ?_, fun c hc => ?_⟩
  · rw [hnew', hnew, List.append_assoc]
  · rcases List.mem_append.mp hc with hc | hc
    · exact hold c hc
    · obtain ⟨harray, hbound, hmade⟩ := hold' c hc
      exact ⟨harray, hbound, hmade.mono h.counter⟩

theorem mono {bound' : List String} (hbound : ∀ x ∈ bound', x ∈ bound)
    (h : s.Grows arrays bound s') : s.Grows arrays bound' s' := by
  obtain ⟨new, hnew, hold⟩ := h.cells
  refine ⟨h.counter, new, hnew, fun c hc => ?_⟩
  obtain ⟨harray, hindex, hmade⟩ := hold c hc
  exact ⟨harray, fun x hx => hindex x (hbound x hx), hmade⟩

/-- Without arrays there are no new cells. -/
theorem of_nil {bound' : List String} (h : s.Grows [] bound s') : s.Grows arrays bound' s' := by
  obtain ⟨new, hnew, hold⟩ := h.cells
  exact ⟨h.counter, new, hnew, fun c hc => absurd (hold c hc).1 List.not_mem_nil⟩

theorem mem_cells (h : s.Grows arrays bound s') {c : CellConst} (hc : c ∈ s.scope.cells) :
    c ∈ s'.scope.cells := by
  obtain ⟨new, hnew, -⟩ := h.cells
  rw [hnew]
  exact List.mem_append_left _ hc

/-- A cell of the later session was there before or is new. -/
theorem mem_cells_cases (h : s.Grows arrays bound s') {c : CellConst} (hc : c ∈ s'.scope.cells) :
    c ∈ s.scope.cells ∨
      c.array ∈ arrays ∧ (∀ x ∈ bound, x ∉ c.index.consts) ∧ MadeAfter s.counter c.symbol := by
  obtain ⟨new, hnew, hold⟩ := h.cells
  rw [hnew] at hc
  rcases List.mem_append.mp hc with hc | hc
  · exact .inl hc
  · exact .inr (hold c hc)

end Session.Grows

/-! ## Steps -/

/-- From a session whose counter is at least `c`, the step keeps the session well-formed and only
lets it grow, whether it succeeds or not; its result meets `post` at the counter it ends with. -/
def EncodeM.Keeps {α : Type} (V : Command → Prop) (arrays bound : List String) (c : Nat)
    (x : EncodeM α) (post : α → Nat → Prop) : Prop :=
  ∀ s r s', x s = (r, s') → s.WellFormed V → c ≤ s.counter →
    s'.WellFormed V ∧ s.Grows arrays bound s' ∧ ∀ a, r = .ok a → post a s'.counter

namespace EncodeM.Keeps

variable {α β : Type} {V : Command → Prop} {arrays bound : List String} {c : Nat}

theorem pure {a : α} {post : α → Nat → Prop} (h : ∀ c', c ≤ c' → post a c') :
    Keeps V arrays bound c (Pure.pure a : EncodeM α) post := by
  intro s r s' hrun hs hc
  cases hrun
  refine ⟨hs, .of_eq rfl rfl, ?_⟩
  rintro a' ⟨⟩
  exact h s.counter hc

theorem throw {e : VerifyError} {post : α → Nat → Prop} :
    Keeps V arrays bound c (MonadExcept.throw e : EncodeM α) post := by
  intro s r s' hrun hs hc
  cases hrun
  refine ⟨hs, .of_eq rfl rfl, ?_⟩
  rintro a ⟨⟩

/-- The second step starts where the counter is after the first one. -/
theorem bind {x : EncodeM α} {f : α → EncodeM β} {post : α → Nat → Prop} {post' : β → Nat → Prop}
    (hx : Keeps V arrays bound c x post)
    (hf : ∀ a c', c ≤ c' → post a c' → Keeps V arrays bound c' (f a) post') :
    Keeps V arrays bound c (x >>= f) post' := by
  intro s r s'' hrun hs hc
  cases hfirst : x s with
  | mk result s' =>
    obtain ⟨hs', hgrows, hpost⟩ := hx s result s' hfirst hs hc
    cases result with
    | error e =>
      rw [bind_of_error hfirst] at hrun
      cases hrun
      refine ⟨hs', hgrows, ?_⟩
      rintro a ⟨⟩
    | ok a =>
      rw [bind_of_ok hfirst] at hrun
      have hc' : c ≤ s'.counter := Nat.le_trans hc hgrows.counter
      obtain ⟨hs'', hgrows', hpost'⟩ :=
        hf a s'.counter hc' (hpost a rfl) s' r s'' hrun hs' (Nat.le_refl _)
      exact ⟨hs'', hgrows.trans hgrows', hpost'⟩

theorem imp {x : EncodeM α} {post post' : α → Nat → Prop} (hx : Keeps V arrays bound c x post)
    (h : ∀ a c', c ≤ c' → post a c' → post' a c') : Keeps V arrays bound c x post' := by
  intro s r s' hrun hs hc
  obtain ⟨hs', hgrows, hpost⟩ := hx s r s' hrun hs hc
  exact ⟨hs', hgrows, fun a ha => h a _ (Nat.le_trans hc hgrows.counter) (hpost a ha)⟩

theorem map {x : EncodeM α} {f : α → β} {post : β → Nat → Prop}
    (hx : Keeps V arrays bound c x fun a => post (f a)) :
    Keeps V arrays bound c (f <$> x) post := by
  have hmap : f <$> x = x >>= fun a => Pure.pure (f a) := rfl
  intro s r s' hrun hs hc
  cases hfirst : x s with
  | mk result s₁ =>
    obtain ⟨hs', hgrows, hpost⟩ := hx s result s₁ hfirst hs hc
    rw [hmap] at hrun
    cases result with
    | error e =>
      rw [bind_of_error hfirst] at hrun
      cases hrun
      refine ⟨hs', hgrows, ?_⟩
      rintro a ⟨⟩
    | ok a =>
      rw [bind_of_ok hfirst] at hrun
      cases hrun
      refine ⟨hs', hgrows, ?_⟩
      rintro b ⟨⟩
      exact hpost a rfl

theorem bound_mono {bound' : List String} (hbound : ∀ x ∈ bound', x ∈ bound) {x : EncodeM α}
    {post : α → Nat → Prop} (hx : Keeps V arrays bound c x post) :
    Keeps V arrays bound' c x post := by
  intro s r s' hrun hs hc
  obtain ⟨hs', hgrows, hpost⟩ := hx s r s' hrun hs hc
  exact ⟨hs', hgrows.mono hbound, hpost⟩

/-- A step that makes no cells can be made anywhere. -/
theorem of_nil {bound' : List String} {x : EncodeM α} {post : α → Nat → Prop}
    (hx : Keeps V [] bound' c x post) : Keeps V arrays bound c x post := by
  intro s r s' hrun hs hc
  obtain ⟨hs', hgrows, hpost⟩ := hx s r s' hrun hs hc
  exact ⟨hs', hgrows.of_nil, hpost⟩

/-- Reading the session: the rest of the step may use that it is well-formed. -/
theorem get {f : Session → EncodeM β} {post : β → Nat → Prop}
    (hf : ∀ s : Session, s.WellFormed V → c ≤ s.counter →
      Keeps V arrays bound s.counter (f s) post) :
    Keeps V arrays bound c (MonadState.get >>= f) post :=
  fun s r s' hrun hs hc => hf s hs hc s r s' hrun hs (Nat.le_refl _)

/-- A change of the session that leaves cells and counter alone. -/
theorem modify {f : Session → Session} (hwf : ∀ s, s.WellFormed V → (f s).WellFormed V)
    (hcounter : ∀ s, (f s).counter = s.counter)
    (hcells : ∀ s, (f s).scope.cells = s.scope.cells) :
    Keeps V arrays bound c (modify f : EncodeM PUnit) fun _ _ => True := by
  intro s r s' hrun hs hc
  cases hrun
  exact ⟨hwf s hs, .of_eq (hcounter s) (hcells s), fun _ _ => trivial⟩

theorem attempt {x : EncodeM α} {post : α → Nat → Prop} (hx : Keeps V arrays bound c x post) :
    Keeps V arrays bound c (attempt x) fun o c' => ∀ a, o = some a → post a c' := by
  intro s r s' hrun hs hc
  cases hfirst : x s with
  | mk result s₁ =>
    obtain ⟨hs', hgrows, hpost⟩ := hx s result s₁ hfirst hs hc
    unfold Contracts.attempt at hrun
    rw [hfirst] at hrun
    cases result with
    | error e =>
      cases hrun
      refine ⟨hs', hgrows, ?_⟩
      rintro o ⟨⟩ a ⟨⟩
    | ok a =>
      cases hrun
      refine ⟨hs', hgrows, ?_⟩
      rintro o ⟨⟩ a' ⟨⟩
      exact hpost a rfl

/-- A check that can refuse the rest of a step. -/
theorem guard {p : Prop} [Decidable p] {e : VerifyError} {f : PUnit → EncodeM α}
    {post : α → Nat → Prop} (hf : ¬p → Keeps V arrays bound c (f ⟨⟩) post) :
    Keeps V arrays bound c (if p then MonadExcept.throw e >>= f else f ⟨⟩) post := by
  by_cases hp : p
  · rw [if_pos hp]
    intro s r s' hrun hs hc
    cases hrun
    refine ⟨hs, .of_eq rfl rfl, ?_⟩
    rintro a ⟨⟩
  · rw [if_neg hp]
    exact hf hp

end EncodeM.Keeps

/-! ## The steps on the session -/

namespace Session

@[simp] theorem declareLocalConst_counter (s : Session) (x : String) :
    (s.declareLocalConst x).counter = s.counter := by
  unfold declareLocalConst
  split <;> rfl

@[simp] theorem declareLocalConst_cells (s : Session) (x : String) :
    (s.declareLocalConst x).scope.cells = s.scope.cells := by
  unfold declareLocalConst
  split <;> rfl

@[simp] theorem declareGlobalConst_counter (s : Session) (x : String) :
    (s.declareGlobalConst x).counter = s.counter := by
  unfold declareGlobalConst
  split <;> rfl

@[simp] theorem declareGlobalConst_cells (s : Session) (x : String) :
    (s.declareGlobalConst x).scope.cells = s.scope.cells := by
  unfold declareGlobalConst
  split <;> rfl

namespace WellFormed

variable {V : Command → Prop} {s : Session}

theorem declareLocalConst (hV : AdmitsBasics V) (h : s.WellFormed V) (x : String) :
    (s.declareLocalConst x).WellFormed V := by
  unfold Session.declareLocalConst
  split
  · exact h
  · refine ⟨h.cells, h.ordered, h.commands, fun c hc => ?_, h.assertions⟩
    rcases List.mem_append.mp hc with hc | hc
    · exact h.decls c hc
    · rw [List.mem_singleton.mp hc]
      exact hV.const x

theorem declareGlobalConst (hV : AdmitsBasics V) (h : s.WellFormed V) (x : String) :
    (s.declareGlobalConst x).WellFormed V := by
  unfold Session.declareGlobalConst
  split
  · exact h
  · refine ⟨h.cells, h.ordered, fun c hc => ?_, h.decls, h.assertions⟩
    rcases List.mem_append.mp hc with hc | hc
    · exact h.commands c hc
    · rw [List.mem_singleton.mp hc]
      exact hV.const x

theorem addAssertion (h : s.WellFormed V) {t : Term} (ht : V (.assert t)) :
    (s.addAssertion t).WellFormed V := by
  refine ⟨h.cells, h.ordered, h.commands, h.decls, fun c hc => ?_⟩
  rcases List.mem_append.mp hc with hc | hc
  · exact h.assertions c hc
  · rw [List.mem_singleton.mp hc]
    exact ht

theorem count (h : s.WellFormed V) : { s with counter := s.counter + 1 : Session }.WellFormed V :=
  ⟨fun c hc => (h.cells c hc).mono (Nat.le_succ _), h.ordered, h.commands, h.decls, h.assertions⟩

/-- The cell that is added last has the last number, so no cell before it depends on it. -/
theorem addCell (h : s.WellFormed V) {cell : CellConst} {base : String} {k : Nat}
    (hk : s.counter = k + 1) (hold : ∀ c ∈ s.scope.cells, c.Numbered k)
    (hsymbol : cell.symbol = numberedSymbol base (k + 1)) (hindex : cell.index.Numeric k) :
    { s with scope := { s.scope with cells := s.scope.cells ++ [cell] } : Session }.WellFormed
      V := by
  refine ⟨fun c hc => ?_, ?_, h.commands, h.decls, h.assertions⟩
  · rcases List.mem_append.mp hc with hc | hc
    · exact h.cells c hc
    · rw [List.mem_singleton.mp hc]
      exact ⟨base, k, Nat.lt_of_lt_of_eq (Nat.lt_succ_self k) hk.symm, hsymbol, hindex⟩
  · refine List.pairwise_append.mpr ⟨h.ordered, List.pairwise_singleton _ _, fun c hc d hd => ?_⟩
    rw [List.mem_singleton.mp hd]
    have hmade : MadeAfter k cell.symbol := ⟨base, k + 1, Nat.lt_succ_self k, hsymbol⟩
    constructor
    · intro heq
      rw [heq] at hmade
      exact (hold c hc).symbol_not_madeAfter hmade
    · intro hmem
      exact (hold c hc).index_numeric.settled _ hmem hmade

end WellFormed

end Session

section

variable {V : Command → Prop} {arrays bound : List String} {c : Nat}

theorem freshSymbol_run (base : String) (s : Session) :
    freshSymbol base s = (.ok (numberedSymbol base (s.counter + 1)),
      { s with counter := s.counter + 1 }) := rfl

theorem keeps_freshSymbol (base : String) :
    EncodeM.Keeps V arrays bound c (freshSymbol base) fun x c' =>
      ∃ k, c ≤ k ∧ c' = k + 1 ∧ x = numberedSymbol base (k + 1) := by
  intro s r s' hrun hs hc
  rw [freshSymbol_run] at hrun
  cases hrun
  refine ⟨hs.count, ⟨Nat.le_succ _, [], (List.append_nil _).symm, fun _ h => by cases h⟩, ?_⟩
  rintro x ⟨⟩
  exact ⟨s.counter, hc, rfl, rfl⟩

theorem keeps_declareFun (hV : AdmitsBasics V) (name : String) (arity : Nat) :
    EncodeM.Keeps V arrays bound c (declareFun name arity) fun _ _ => True := by
  intro s r s' hrun hs hc
  unfold declareFun at hrun
  rw [EncodeM.get_bind] at hrun
  cases hlookup : s.arities.lookup name with
  | some expected =>
    rw [hlookup] at hrun
    dsimp only at hrun
    split at hrun <;> cases hrun <;> exact ⟨hs, .of_eq rfl rfl, fun _ _ => trivial⟩
  | none =>
    rw [hlookup] at hrun
    cases hrun
    refine ⟨⟨hs.cells, hs.ordered, fun c hc => ?_, hs.decls, hs.assertions⟩, .of_eq rfl rfl,
      fun _ _ => trivial⟩
    rcases List.mem_append.mp hc with hc | hc
    · exact hs.commands c hc
    · rw [List.mem_singleton.mp hc]
      exact hV.fn ..

/-- The session after a cell was made, and the symbol of the cell. -/
theorem cellSymbol_run {array : String} {index : Term} {s : Session}
    (hnone : s.scope.cells.find? (fun c => c.array = array ∧ c.index = index) = none) :
    ∃ s₁ : Session, s₁ = { s with counter := s.counter + 1 : Session }.declareLocalConst
        (numberedSymbol (array ++ "!elem") (s.counter + 1)) ∧
      cellSymbol array index s = (.ok (numberedSymbol (array ++ "!elem") (s.counter + 1)),
        { s₁ with scope := { s₁.scope with cells := s₁.scope.cells ++
          [⟨array, index, numberedSymbol (array ++ "!elem") (s.counter + 1)⟩] } }) := by
  refine ⟨_, rfl, ?_⟩
  unfold cellSymbol
  rw [EncodeM.get_bind, hnone]
  rfl

theorem cellSymbol_run_of_mem {array : String} {index : Term} {s : Session} {cell : CellConst}
    (hsome : s.scope.cells.find? (fun c => c.array = array ∧ c.index = index) = some cell) :
    cellSymbol array index s = (.ok cell.symbol, s) := by
  unfold cellSymbol
  rw [EncodeM.get_bind, hsome]
  rfl

/-- The symbol that is returned is that of a cell of the array at the index. -/
theorem mem_cells_of_cellSymbol {array symbol : String} {index : Term} {s s' : Session}
    (hrun : cellSymbol array index s = (.ok symbol, s')) :
    ⟨array, index, symbol⟩ ∈ s'.scope.cells := by
  cases hfind : s.scope.cells.find? (fun c => c.array = array ∧ c.index = index) with
  | some cell =>
    rw [cellSymbol_run_of_mem hfind] at hrun
    cases hrun
    have hmem := List.mem_of_find?_eq_some hfind
    have htest := List.find?_some hfind
    obtain ⟨rfl, rfl⟩ := of_decide_eq_true htest
    exact hmem
  | none =>
    obtain ⟨s₁, -, hcell⟩ := cellSymbol_run hfind
    rw [hcell] at hrun
    cases hrun
    exact List.mem_append_right _ List.mem_cons_self

theorem keeps_cellSymbol (hV : AdmitsBasics V) {array : String} {index : Term}
    (harray : array ∈ arrays) (hindex : index.Numeric c) (hbound : ∀ x ∈ bound, x ∉ index.consts) :
    EncodeM.Keeps V arrays bound c (cellSymbol array index) fun x c' => ¬MadeAfter c' x := by
  intro s r s' hrun hs hc
  cases hfind : s.scope.cells.find? (fun c => c.array = array ∧ c.index = index) with
  | some cell =>
    rw [cellSymbol_run_of_mem hfind] at hrun
    cases hrun
    refine ⟨hs, .of_eq rfl rfl, ?_⟩
    rintro x ⟨⟩
    exact (hs.cells cell (List.mem_of_find?_eq_some hfind)).symbol_not_madeAfter
  | none =>
    obtain ⟨s₁, hs₁, hcell⟩ := cellSymbol_run hfind
    rw [hcell] at hrun
    cases hrun
    have hwf : s₁.WellFormed V := by
      rw [hs₁]
      exact hs.count.declareLocalConst hV _
    have hcounter : s₁.counter = s.counter + 1 := by
      rw [hs₁, Session.declareLocalConst_counter]
    have hcells : s₁.scope.cells = s.scope.cells := by
      rw [hs₁, Session.declareLocalConst_cells]
    -- the symbol has the number that the counter has just reached, and the index is older
    refine ⟨hwf.addCell hcounter (by rw [hcells]; exact hs.cells) rfl (hindex.mono hc), ?_, ?_⟩
    · refine ⟨by show s.counter ≤ s₁.counter; omega, _, congrArg (· ++ _) hcells, fun d hd => ?_⟩
      rw [List.mem_singleton.mp hd]
      exact ⟨harray, hbound, madeAfter_numberedSymbol.mpr (Nat.lt_succ_self _)⟩
    · rintro x ⟨⟩
      show ¬MadeAfter s₁.counter _
      rw [madeAfter_numberedSymbol, hcounter]
      omega

theorem selectorSymbol_eq_ok {array f : String} {s s' : Session}
    (h : selectorSymbol array s = (.ok f, s')) : f = array ++ "!sel" := by
  unfold selectorSymbol at h
  dsimp only at h
  rw [EncodeM.get_bind] at h
  split at h <;> cases h <;> rfl

theorem lengthSymbol_eq_ok {array x : String} {s s' : Session}
    (h : lengthSymbol array s = (.ok x, s')) : x = array ++ "!len" := by
  unfold lengthSymbol at h
  dsimp only at h
  rw [EncodeM.get_bind] at h
  split at h <;> cases h <;> rfl

theorem keeps_selectorSymbol (hV : AdmitsBasics V) (array : String) :
    EncodeM.Keeps V arrays bound c (selectorSymbol array) fun _ _ => True := by
  unfold selectorSymbol
  refine EncodeM.Keeps.get fun s hs hc => ?_
  dsimp only
  split
  · refine .bind (.modify (fun s hs => ?_) (fun s => rfl) fun s => rfl) fun _ _ _ _ =>
      .bind (.modify (fun s hs => ?_) (fun s => rfl) fun s => rfl) fun _ _ _ _ =>
        .pure fun _ _ => trivial
    · refine ⟨hs.cells, hs.ordered, hs.commands, fun c hc => ?_, hs.assertions⟩
      rcases List.mem_append.mp hc with hc | hc
      · exact hs.decls c hc
      · rw [List.mem_singleton.mp hc]
        exact hV.fn ..
    · exact ⟨hs.cells, hs.ordered, hs.commands, hs.decls, hs.assertions⟩
  · exact .pure fun _ _ => trivial

theorem keeps_lengthSymbol (hV : AdmitsBasics V) (array : String) :
    EncodeM.Keeps V arrays bound c (lengthSymbol array) fun x _ => x = array ++ "!len" := by
  unfold lengthSymbol
  refine EncodeM.Keeps.get fun s hs hc => ?_
  dsimp only
  split
  · refine .bind (.modify (fun s hs => hs.declareLocalConst hV _) (fun s => by simp)
      fun s => by simp) fun _ _ _ _ =>
      .bind (.modify (fun s hs => hs.addAssertion (hV.length array)) (fun s => rfl)
        fun s => rfl) fun _ _ _ _ =>
        .bind (.modify (fun s hs => ?_) (fun s => rfl) fun s => rfl) fun _ _ _ _ =>
          .pure fun _ _ => rfl
    exact ⟨hs.cells, hs.ordered, hs.commands, hs.decls, hs.assertions⟩
  · exact .pure fun _ _ => rfl

theorem keeps_enter (name : String) :
    EncodeM.Keeps V arrays bound c (enter name) fun _ _ => True :=
  .modify (fun _ hs => ⟨hs.cells, hs.ordered, hs.commands, hs.decls, hs.assertions⟩)
    (fun _ => rfl) fun _ => rfl

theorem keeps_leave (name : String) :
    EncodeM.Keeps V arrays bound c (leave name) fun _ _ => True :=
  .modify (fun _ hs => ⟨hs.cells, hs.ordered, hs.commands, hs.decls, hs.assertions⟩)
    (fun _ => rfl) fun _ => rfl

theorem keeps_declareGlobalConsts (hV : AdmitsBasics V) (names : List String) :
    EncodeM.Keeps V arrays bound c (modify fun s => names.foldl Session.declareGlobalConst s)
      fun _ _ => True := by
  refine .modify (fun s hs => ?_) (fun s => ?_) fun s => ?_
  · induction names generalizing s with
    | nil => exact hs
    | cons x names ih => exact ih _ (hs.declareGlobalConst hV x)
  · induction names generalizing s with
    | nil => rfl
    | cons x names ih => rw [List.foldl_cons, ih, Session.declareGlobalConst_counter]
  · induction names generalizing s with
    | nil => rfl
    | cons x names ih => rw [List.foldl_cons, ih, Session.declareGlobalConst_cells]

end

end Contracts

import Contracts.Proofs.EncodingGrowth
import Contracts.Proofs.EncodingInvariant
import Contracts.Proofs.SymbolRenaming

/-!
# Two encodings side by side

The same predicate is encoded in two sessions with different histories. Their counters differ, and
they make symbols with different numbers, also in steps that only one of them takes. A `SessionPair`
holds both sessions and a renumbering that takes the symbols of the first to those of the second.

The renumbering grows with the encodings: when both make a symbol, the first is sent to the second.
This changes no image of a symbol that the pair knows (`SessionPair.Knows`), since the new symbols are
above the counters. `EncodeM.Coupled` says that two steps lead from related sessions to related
sessions and related results, if both succeed; `lost` is what is left to say if only one does.

What sessions are related is a parameter, with what it has to satisfy at the steps that change a
session (`Resolver.Couples`). Under these conditions the terms of the two encodings are renamings of
each other: `coupled_encodeExpr`, `coupled_encodePred`.
-/

set_option autoImplicit false

namespace Contracts

open Smt

/-! ## Pairs of sessions -/

/-- Two sessions, and where the symbols of the first have their counterparts in the second. -/
structure SessionPair where
  names : Renumbering
  left : Session
  right : Session

namespace SessionPair

variable {w w' w'' : SessionPair} {x : String}

/-- Neither the symbol nor its counterpart is yet to be made. -/
def Knows (w : SessionPair) (x : String) : Prop :=
  ¬MadeAfter w.left.counter x ∧ ¬MadeAfter w.right.counter (w.names.perm x)

theorem knows_of_not_madeAfter (w : SessionPair) (hx : ∀ c, ¬MadeAfter c x) : w.Knows x := by
  refine ⟨hx _, ?_⟩
  rw [w.names.apply_of_not_madeAfter (hx 0)]
  exact hx _

/-- The sessions have gone on, and known symbols have the counterparts they had. -/
structure Extends (w w' : SessionPair) : Prop where
  left : w.left.counter ≤ w'.left.counter
  right : w.right.counter ≤ w'.right.counter
  names : ∀ x, w.Knows x → w'.names.perm x = w.names.perm x

theorem Extends.refl (w : SessionPair) : w.Extends w :=
  ⟨Nat.le_refl _, Nat.le_refl _, fun _ _ => rfl⟩

theorem Knows.mono (hx : w.Knows x) (h : w.Extends w') : w'.Knows x := by
  refine ⟨fun hmade => hx.1 (hmade.mono h.left), fun hmade => hx.2 ?_⟩
  rw [h.names x hx] at hmade
  exact hmade.mono h.right

theorem Extends.trans (h : w.Extends w') (h' : w'.Extends w'') : w.Extends w'' := by
  refine ⟨Nat.le_trans h.left h'.left, Nat.le_trans h.right h'.right, fun x hx => ?_⟩
  rw [h'.names x (hx.mono h), h.names x hx]

/-- Both sessions go on by themselves. -/
theorem extends_of_counters (w : SessionPair) {s s' : Session} (hleft : w.left.counter ≤ s.counter)
    (hright : w.right.counter ≤ s'.counter) : w.Extends ⟨w.names, s, s'⟩ :=
  ⟨hleft, hright, fun _ _ => rfl⟩

/-- The pair after both sessions have made a symbol, whatever else they did. -/
def made (w : SessionPair) (base : String) (s s' : Session) : SessionPair :=
  ⟨w.names.send base w.left.counter w.right.counter, s, s'⟩

section

variable (w) (base : String) {s s' : Session} (hleft : s.counter = w.left.counter + 1)
  (hright : s'.counter = w.right.counter + 1)

include hleft hright

theorem extends_made : w.Extends (w.made base s s') := by
  refine ⟨?_, ?_, fun x hx => ?_⟩
  · show w.left.counter ≤ s.counter
    omega
  · show w.right.counter ≤ s'.counter
    omega
  · -- the symbols that `send` moves are above the counters
    apply Renumbering.send_apply_of_ne
    · rintro rfl
      exact hx.1 (madeAfter_numberedSymbol.mpr (Nat.lt_succ_self _))
    · intro himage
      refine hx.2 ?_
      rw [himage]
      exact madeAfter_numberedSymbol.mpr (Nat.lt_succ_self _)

theorem made_knows : (w.made base s s').Knows (numberedSymbol base (w.left.counter + 1)) ∧
    (w.made base s s').names.perm (numberedSymbol base (w.left.counter + 1)) =
      numberedSymbol base (w.right.counter + 1) := by
  have himage : (w.made base s s').names.perm (numberedSymbol base (w.left.counter + 1)) =
      numberedSymbol base (w.right.counter + 1) := Renumbering.send_apply_self ..
  refine ⟨⟨?_, ?_⟩, himage⟩
  · show ¬MadeAfter s.counter _
    rw [madeAfter_numberedSymbol]
    omega
  · rw [himage]
    show ¬MadeAfter s'.counter _
    rw [madeAfter_numberedSymbol]
    omega

end

/-! ## Terms and environments of a pair -/

/-- The second term is the counterpart of the first. -/
structure Carries (w : SessionPair) (t u : Term) : Prop where
  eq : u = t.rename w.names.perm
  known : ∀ x ∈ t.names, w.Knows x

/-- So are several terms, one by one. -/
structure CarriesAll (w : SessionPair) (ts us : List Term) : Prop where
  eq : us = ts.map (Term.rename w.names.perm)
  known : ∀ t ∈ ts, ∀ x ∈ t.names, w.Knows x

theorem rename_eq (h : w.Extends w') {t : Term} (ht : ∀ x ∈ t.names, w.Knows x) :
    t.rename w'.names.perm = t.rename w.names.perm :=
  Term.rename_congr t fun x hx => h.names x (ht x hx)

section

variable {t u a b a' b' : Term} {ts us : List Term}

theorem Carries.mono (ht : w.Carries t u) (h : w.Extends w') : w'.Carries t u :=
  ⟨by rw [rename_eq h ht.known, ht.eq], fun x hx => (ht.known x hx).mono h⟩

theorem CarriesAll.mono (hts : w.CarriesAll ts us) (h : w.Extends w') : w'.CarriesAll ts us := by
  refine ⟨?_, fun t ht x hx => (hts.known t ht x hx).mono h⟩
  rw [hts.eq]
  exact List.map_congr_left fun t ht => (rename_eq h (hts.known t ht)).symm

theorem carriesAll_nil : w.CarriesAll [] [] :=
  ⟨rfl, fun _ h => absurd h List.not_mem_nil⟩

theorem Carries.cons (ht : w.Carries t u) (hts : w.CarriesAll ts us) :
    w.CarriesAll (t :: ts) (u :: us) := by
  refine ⟨?_, List.forall_mem_cons.mpr ⟨ht.known, hts.known⟩⟩
  rw [List.map_cons, ht.eq, hts.eq]

theorem CarriesAll.length (hts : w.CarriesAll ts us) : us.length = ts.length := by
  rw [hts.eq, List.length_map]

theorem carries_const (hx : w.Knows x) : w.Carries (.const x) (.const (w.names.perm x)) :=
  ⟨by rw [Term.rename], fun y hy => by
    rw [Term.names] at hy
    rw [List.mem_singleton.mp hy]
    exact hx⟩

theorem carries_int (n : Int) : w.Carries (.int n) (.int n) :=
  ⟨by rw [Term.rename], fun y hy => by
    rw [Term.names] at hy
    cases hy⟩

theorem carries_bool (b : Bool) : w.Carries (.bool b) (.bool b) :=
  ⟨by rw [Term.rename], fun y hy => by
    rw [Term.names] at hy
    cases hy⟩

theorem Carries.neg (ht : w.Carries t u) : w.Carries (.neg t) (.neg u) :=
  ⟨by rw [Term.rename, ht.eq], fun x hx => ht.known x (by rwa [Term.names] at hx)⟩

theorem Carries.not (ht : w.Carries t u) : w.Carries (.not t) (.not u) :=
  ⟨by rw [Term.rename, ht.eq], fun x hx => ht.known x (by rwa [Term.names] at hx)⟩

theorem Carries.binary (op : BinOp) (ha : w.Carries a a') (hb : w.Carries b b') :
    w.Carries (.binary op a b) (.binary op a' b') := by
  refine ⟨by rw [Term.rename, ha.eq, hb.eq], fun x hx => ?_⟩
  rw [Term.names] at hx
  exact (List.mem_append.mp hx).elim (ha.known x) (hb.known x)

theorem Carries.ite (ht : w.Carries t u) (ha : w.Carries a a') (hb : w.Carries b b') :
    w.Carries (.ite t a b) (.ite u a' b') := by
  refine ⟨by rw [Term.rename, ht.eq, ha.eq, hb.eq], fun x hx => ?_⟩
  rw [Term.names] at hx
  rcases List.mem_append.mp hx with hx | hx
  · exact (List.mem_append.mp hx).elim (ht.known x) (ha.known x)
  · exact hb.known x hx

theorem CarriesAll.namesList (hts : w.CarriesAll ts us) (hx : x ∈ Term.namesList ts) :
    w.Knows x := by
  obtain ⟨t, ht, hxt⟩ := Term.mem_namesList.mp hx
  exact hts.known t ht x hxt

theorem CarriesAll.app (hts : w.CarriesAll ts us) (f : String) :
    w.Carries (.app f ts) (.app f us) := by
  refine ⟨by rw [Term.rename, Term.renameList_eq_map, hts.eq], fun x hx => ?_⟩
  rw [Term.names] at hx
  exact hts.namesList hx

theorem CarriesAll.junction (hts : w.CarriesAll ts us) (op : Junction) :
    w.Carries (.junction op ts) (.junction op us) := by
  refine ⟨by rw [Term.rename, Term.renameList_eq_map, hts.eq], fun x hx => ?_⟩
  rw [Term.names] at hx
  exact hts.namesList hx

theorem Carries.quantified (k : Quantifier) (hx : w.Knows x) (ht : w.Carries t u) :
    w.Carries (.quantified k [(x, .int)] t)
      (.quantified k [(w.names.perm x, .int)] u) := by
  refine ⟨by rw [Term.rename, List.map_singleton, ht.eq], fun y hy => ?_⟩
  rw [Term.names] at hy
  rcases List.mem_append.mp hy with hy | hy
  · rw [List.mem_singleton.mp hy]
    exact hx
  · exact ht.known y hy

theorem Carries.arith (op : ArithOp) (ha : w.Carries a a') (hb : w.Carries b b') :
    w.Carries (arithTerm op a b) (arithTerm op a' b') := by
  cases op with
  | add => exact ha.binary .add hb
  | sub => exact ha.binary .sub hb
  | mul => exact ha.binary .mul hb
  | div =>
    exact (ha.binary .ge (carries_int 0)).ite (ha.binary .div hb) (ha.neg.binary .div hb).neg

theorem Carries.compare (op : CmpOp) (ha : w.Carries a a') (hb : w.Carries b b') :
    w.Carries (cmpTerm op a b) (cmpTerm op a' b') := by
  cases op with
  | eq => exact ha.binary .eq hb
  | ne => exact (ha.binary .eq hb).not
  | gt => exact ha.binary .gt hb
  | lt => exact ha.binary .lt hb
  | ge => exact ha.binary .ge hb
  | le => exact ha.binary .le hb

theorem Carries.mentions (ht : w.Carries t u) (bound : List String) :
    u.mentions (bound.map w.names.perm) = t.mentions bound := by
  rw [ht.eq, Term.mentions_rename]

theorem CarriesAll.anyMentions (hts : w.CarriesAll ts us) (bound : List String) :
    Term.anyMentions (bound.map w.names.perm) us = Term.anyMentions bound ts := by
  obtain ⟨rfl, -⟩ := hts
  induction ts with
  | nil => rw [List.map_nil, Term.anyMentions, Term.anyMentions]
  | cons t ts ih =>
    rw [List.map_cons, Term.anyMentions, Term.anyMentions, Term.mentions_rename, ih]

end

/-- What a name stands for in two environments. -/
inductive Means (w : SessionPair) (arrays : List String) : Option Meaning → Option Meaning → Prop
  | unbound : Means w arrays none none
  | array (a : String) (h : a ∈ arrays) : Means w arrays (some (.array a)) (some (.array a))
  | scalar {t u : Term} (h : w.Carries t u) : Means w arrays (some (.scalar t)) (some (.scalar u))

theorem Means.mono {arrays : List String} {m m' : Option Meaning} (hm : w.Means arrays m m')
    (h : w.Extends w') : w'.Means arrays m m' := by
  cases hm with
  | unbound => exact .unbound
  | array a ha => exact .array a ha
  | scalar ht => exact .scalar (ht.mono h)

/-- The second environment is the counterpart of the first. -/
structure Matches (w : SessionPair) (arrays : List String) (env env' : Env) : Prop where
  means : ∀ x, w.Means arrays (env.lookup? x) (env'.lookup? x)
  bound : env'.bound = env.bound.map w.names.perm
  known : ∀ x ∈ env.bound, w.Knows x

namespace Matches

variable {arrays : List String} {env env' : Env}

theorem mono (henv : w.Matches arrays env env') (h : w.Extends w') : w'.Matches arrays env env' := by
  refine ⟨fun x => (henv.means x).mono h, ?_, fun x hx => (henv.known x hx).mono h⟩
  rw [henv.bound]
  exact List.map_congr_left fun x hx => (h.names x (henv.known x hx)).symm

theorem bind (henv : w.Matches arrays env env') (y : String) {m m' : Meaning}
    (hm : w.Means arrays (some m) (some m')) : w.Matches arrays (env.bind y m) (env'.bind y m') := by
  refine ⟨fun x => ?_, henv.bound, henv.known⟩
  rw [Env.lookup?_bind, Env.lookup?_bind]
  by_cases hxy : x = y
  · rw [if_pos hxy, if_pos hxy]
    exact hm
  · rw [if_neg hxy, if_neg hxy]
    exact henv.means x

/-- Environments that know no names match if their bound symbols do. -/
theorem of_empty (hleft : env.meanings = []) (hright : env'.meanings = [])
    (hbound : env'.bound = env.bound.map w.names.perm) (hknown : ∀ x ∈ env.bound, w.Knows x) :
    w.Matches arrays env env' := by
  refine ⟨fun x => ?_, hbound, hknown⟩
  rw [Env.lookup?, Env.lookup?, hleft, hright]
  exact .unbound

theorem bindBound (henv : w.Matches arrays env env') (y : String) (hx : w.Knows x) :
    w.Matches arrays (env.bindBound y x) (env'.bindBound y (w.names.perm x)) := by
  obtain ⟨hmeans, -, -⟩ := henv.bind y (.scalar (carries_const hx))
  refine ⟨hmeans, ?_, List.forall_mem_cons.mpr ⟨hx, henv.known⟩⟩
  show w.names.perm x :: env'.bound = _
  rw [henv.bound]
  rfl

theorem lengthOf?_eq (henv : w.Matches arrays env env') (f : String) (args : List Expr) :
    lengthOf? env' f args = lengthOf? env f args := by
  unfold lengthOf?
  split
  · next a =>
    generalize env.lookup? a = m, env'.lookup? a = m', henv.means a = hm
    cases hm <;> rfl
  · rfl

end Matches

/-- What is to be shown of two outcomes. If both steps succeed, the sessions and the results are
related by some renumbering; if only one does, something is lost. -/
def Agree {α : Type} (Φ : SessionPair → Prop) (lost : Prop) (w : SessionPair)
    (post : SessionPair → α → α → Prop) :
    Except VerifyError α × Session → Except VerifyError α × Session → Prop
  | (.ok a, s), (.ok b, s') => ∃ w', w.Extends w' ∧ w'.left = s ∧ w'.right = s' ∧ Φ w' ∧ post w' a b
  | (.error _, _), (.error _, _) => True
  | _, _ => lost

theorem Agree.of_extends {α : Type} {Φ : SessionPair → Prop} {lost : Prop}
    {post : SessionPair → α → α → Prop} (h : w.Extends w') :
    ∀ {o o' : Except VerifyError α × Session}, w'.Agree Φ lost post o o' → w.Agree Φ lost post o o'
  | (.ok _, _), (.ok _, _), ⟨w₁, hw₁, hrest⟩ => ⟨w₁, h.trans hw₁, hrest⟩
  | (.ok _, _), (.error _, _), hlost => hlost
  | (.error _, _), (.ok _, _), hlost => hlost
  | (.error _, _), (.error _, _), _ => trivial

end SessionPair

/-- From related sessions the two steps have outcomes that agree. -/
def EncodeM.Coupled {α : Type} (Φ : SessionPair → Prop) (lost : Prop) (w : SessionPair)
    (x y : EncodeM α) (post : SessionPair → α → α → Prop) : Prop :=
  Φ w → w.Agree Φ lost post (x w.left) (y w.right)

namespace EncodeM.Coupled

variable {α β : Type} {Φ : SessionPair → Prop} {lost : Prop} {w : SessionPair}

theorem of_related {x y : EncodeM α} {post : SessionPair → α → α → Prop}
    (h : Φ w → Coupled Φ lost w x y post) : Coupled Φ lost w x y post := fun hw => h hw hw

/-- Both steps are known to succeed. -/
theorem of_ok {x y : EncodeM α} {a b : α} {w' : SessionPair} {post : SessionPair → α → α → Prop}
    (hx : x w.left = (.ok a, w'.left)) (hy : y w.right = (.ok b, w'.right)) (h : w.Extends w')
    (hΦ : Φ w → Φ w') (hpost : post w' a b) : Coupled Φ lost w x y post := by
  intro hw
  rw [hx, hy]
  exact ⟨w', h, rfl, rfl, hΦ hw, hpost⟩

theorem pure {a b : α} {post : SessionPair → α → α → Prop} (h : post w a b) :
    Coupled Φ lost w (Pure.pure a) (Pure.pure b) post :=
  of_ok rfl rfl (.refl w) id h

theorem throw {e e' : VerifyError} {post : SessionPair → α → α → Prop} :
    Coupled Φ lost w (MonadExcept.throw e) (MonadExcept.throw e') post := fun _ => trivial

/-- The second steps start where the first ones end. -/
theorem bind {x y : EncodeM α} {f g : α → EncodeM β} {post : SessionPair → α → α → Prop}
    {post' : SessionPair → β → β → Prop} (hx : Coupled Φ lost w x y post)
    (hf : ∀ a b w', w.Extends w' → post w' a b → Coupled Φ lost w' (f a) (g b) post') :
    Coupled Φ lost w (x >>= f) (y >>= g) post' := by
  intro hw
  have hfirst := hx hw
  cases hleft : x w.left with
  | mk result s =>
    cases hright : y w.right with
    | mk result' s' =>
      rw [hleft, hright] at hfirst
      cases result with
      | error e =>
        rw [bind_of_error hleft]
        cases result' with
        | error e' =>
          rw [bind_of_error hright]
          trivial
        | ok b =>
          -- only one of the first steps succeeds: this is lost, unless what follows it fails
          rw [bind_of_ok hright]
          cases hlast : g b s' with
          | mk last s'' => cases last with
            | error e' => trivial
            | ok c => exact hfirst
      | ok a =>
        rw [bind_of_ok hleft]
        cases result' with
        | error e' =>
          rw [bind_of_error hright]
          cases hlast : f a s with
          | mk last s'' => cases last with
            | error e => trivial
            | ok c => exact hfirst
        | ok b =>
          rw [bind_of_ok hright]
          obtain ⟨w₁, hw₁, rfl, rfl, hΦ, hpost⟩ := hfirst
          exact (hf a b w₁ hw₁ hpost hΦ).of_extends hw₁

theorem imp {x y : EncodeM α} {post post' : SessionPair → α → α → Prop}
    (hx : Coupled Φ lost w x y post) (h : ∀ a b w', post w' a b → post' w' a b) :
    Coupled Φ lost w x y post' := by
  have hbind : Coupled Φ lost w (x >>= Pure.pure) (y >>= Pure.pure) post' :=
    bind hx fun a b w' _ hab => pure (h a b w' hab)
  rw [bind_pure, bind_pure] at hbind
  exact hbind

theorem map {x y : EncodeM α} {f g : α → β} {post : SessionPair → β → β → Prop}
    (hx : Coupled Φ lost w x y fun w' a b => post w' (f a) (g b)) :
    Coupled Φ lost w (f <$> x) (g <$> y) post :=
  bind (f := fun a => Pure.pure (f a)) (g := fun b => Pure.pure (g b)) hx
    fun _ _ _ _ h => pure h

/-- A check that refuses the rest of both steps or of neither. -/
theorem guard {c : Prop} [Decidable c] {e e' : VerifyError} {f g : PUnit → EncodeM α}
    {post : SessionPair → α → α → Prop} (hf : ¬c → Coupled Φ lost w (f ⟨⟩) (g ⟨⟩) post) :
    Coupled Φ lost w (if c then MonadExcept.throw e >>= f else f ⟨⟩)
      (if c then MonadExcept.throw e' >>= g else g ⟨⟩) post := by
  by_cases hc : c
  · rw [if_pos hc, if_pos hc]
    have hnever : Coupled Φ lost w (MonadExcept.throw e : EncodeM PUnit) (MonadExcept.throw e')
        fun _ _ _ => False := throw
    exact bind hnever fun _ _ _ _ h => h.elim
  · rw [if_neg hc, if_neg hc]
    exact hf hc

end EncodeM.Coupled

/-! ## Steps that make symbols -/

/-- The cell with its symbols renamed. -/
def CellConst.rename (σ : String → String) (c : CellConst) : CellConst :=
  ⟨c.array, c.index.rename σ, σ c.symbol⟩

/-- The session after a cell was made. -/
def Session.withCell (s : Session) (array : String) (index : Term) : Session :=
  let symbol := numberedSymbol (array ++ "!elem") (s.counter + 1)
  let s₁ := { s with counter := s.counter + 1 : Session }.declareLocalConst symbol
  { s₁ with scope := { s₁.scope with cells := s₁.scope.cells ++ [⟨array, index, symbol⟩] } }

theorem cellSymbol_run_new {array : String} {index : Term} {s : Session}
    (hnone : s.scope.cells.find? (fun c => c.array = array ∧ c.index = index) = none) :
    cellSymbol array index s = (.ok (numberedSymbol (array ++ "!elem") (s.counter + 1)),
      s.withCell array index) := by
  obtain ⟨s₁, rfl, hrun⟩ := cellSymbol_run hnone
  exact hrun

/-- The session after the selector of an array was declared. -/
def Session.withSelector (s : Session) (a : String) : Session :=
  { s with scope := { s.scope with
    decls := s.scope.decls ++ [.declareFun (a ++ "!sel") [.int] .int]
    selectors := a :: s.scope.selectors } }

theorem selectorSymbol_run (a : String) (s : Session) : selectorSymbol a s =
    (.ok (a ++ "!sel"), if a ∈ s.scope.selectors then s else s.withSelector a) := by
  unfold selectorSymbol
  dsimp only
  rw [EncodeM.get_bind]
  by_cases ha : a ∈ s.scope.selectors
  · rw [if_neg (by simpa using ha), if_pos ha]
    rfl
  · rw [if_pos (by simpa using ha), if_neg ha]
    rfl

/-- The session after the length of an array was declared. -/
def Session.withLength (s : Session) (a : String) : Session :=
  let s₁ := (s.declareLocalConst (a ++ "!len")).addAssertion
    (.binary .ge (.const (a ++ "!len")) (.int 0))
  { s₁ with scope := { s₁.scope with lengths := a :: s₁.scope.lengths } }

theorem lengthSymbol_run (a : String) (s : Session) : lengthSymbol a s =
    (.ok (a ++ "!len"), if a ∈ s.scope.lengths then s else s.withLength a) := by
  unfold lengthSymbol
  dsimp only
  rw [EncodeM.get_bind]
  by_cases ha : a ∈ s.scope.lengths
  · rw [if_neg (by simpa using ha), if_pos ha]
    rfl
  · rw [if_pos (by simpa using ha), if_neg ha]
    rfl

-- These steps touch the scope of the function and the counter, and nothing else.
theorem Session.declareLocalConst_local (s : Session) (x : String) :
    ∃ scope, s.declareLocalConst x = { s with scope := scope } := by
  unfold declareLocalConst
  split
  · exact ⟨s.scope, rfl⟩
  · exact ⟨_, rfl⟩

theorem cellSymbol_local (a : String) (i : Term) (s : Session) :
    ∃ scope counter, (cellSymbol a i s).2 = { s with scope := scope, counter := counter } := by
  cases hfind : s.scope.cells.find? (fun c => c.array = a ∧ c.index = i) with
  | some c =>
    rw [cellSymbol_run_of_mem hfind]
    exact ⟨s.scope, s.counter, rfl⟩
  | none =>
    rw [cellSymbol_run_new hfind]
    unfold Session.withCell
    dsimp only
    obtain ⟨scope, heq⟩ := Session.declareLocalConst_local { s with counter := s.counter + 1 }
      (numberedSymbol (a ++ "!elem") (s.counter + 1))
    rw [heq]
    exact ⟨_, s.counter + 1, rfl⟩

theorem selectorSymbol_local (a : String) (s : Session) :
    ∃ scope counter, (selectorSymbol a s).2 = { s with scope := scope, counter := counter } := by
  rw [selectorSymbol_run]
  dsimp only
  split
  · exact ⟨s.scope, s.counter, rfl⟩
  · exact ⟨_, s.counter, rfl⟩

theorem lengthSymbol_local (a : String) (s : Session) :
    ∃ scope counter, (lengthSymbol a s).2 = { s with scope := scope, counter := counter } := by
  rw [lengthSymbol_run]
  dsimp only
  split
  · exact ⟨s.scope, s.counter, rfl⟩
  · unfold Session.withLength
    obtain ⟨scope, heq⟩ := s.declareLocalConst_local (a ++ "!len")
    rw [heq]
    exact ⟨_, s.counter, rfl⟩

theorem Session.withCell_counter (s : Session) (array : String) (index : Term) :
    (s.withCell array index).counter = s.counter + 1 :=
  Session.declareLocalConst_counter ..

theorem Session.withCell_cells (s : Session) (array : String) (index : Term) :
    (s.withCell array index).scope.cells = s.scope.cells ++
      [⟨array, index, numberedSymbol (array ++ "!elem") (s.counter + 1)⟩] := by
  unfold Session.withCell
  dsimp only
  rw [Session.declareLocalConst_cells]

namespace SessionPair

variable {w w' : SessionPair}

/-- The cells of the second session are the counterparts of those of the first, one by one. -/
structure CellsMatch (w : SessionPair) : Prop where
  eq : w.right.scope.cells = w.left.scope.cells.map (CellConst.rename w.names.perm)
  known : ∀ c ∈ w.left.scope.cells, w.Knows c.symbol ∧ ∀ x ∈ c.index.names, w.Knows x

theorem cellsMatch_of_nil (hleft : w.left.scope.cells = []) (hright : w.right.scope.cells = []) :
    w.CellsMatch := by
  refine ⟨?_, fun c hc => ?_⟩
  · rw [hleft, hright, List.map_nil]
  · rw [hleft] at hc
    cases hc

theorem CellsMatch.rename_eq (hcells : w.CellsMatch) (h : w.Extends w') {c : CellConst}
    (hc : c ∈ w.left.scope.cells) : c.rename w'.names.perm = c.rename w.names.perm := by
  obtain ⟨hsymbol, hindex⟩ := hcells.known c hc
  rw [CellConst.rename, CellConst.rename, h.names c.symbol hsymbol, SessionPair.rename_eq h hindex]

theorem CellsMatch.mono (hcells : w.CellsMatch) (h : w.Extends w')
    (hleft : w'.left.scope.cells = w.left.scope.cells)
    (hright : w'.right.scope.cells = w.right.scope.cells) : w'.CellsMatch := by
  constructor
  · rw [hleft, hright, hcells.eq]
    exact List.map_congr_left fun c hc => (hcells.rename_eq h hc).symm
  · intro c hc
    rw [hleft] at hc
    obtain ⟨hsymbol, hindex⟩ := hcells.known c hc
    exact ⟨hsymbol.mono h, fun x hx => (hindex x hx).mono h⟩

/-- A cell has a constant in one session if it has one in the other. -/
theorem CellsMatch.find?_eq (hcells : w.CellsMatch) (array : String) {i j : Term}
    (hij : w.Carries i j) :
    w.right.scope.cells.find? (fun c => c.array = array ∧ c.index = j) =
      (w.left.scope.cells.find? fun c => c.array = array ∧ c.index = i).map
        (CellConst.rename w.names.perm) := by
  rw [hcells.eq, List.find?_map]
  refine congrArg (Option.map _) (congrArg (List.find? · _) (funext fun c => ?_))
  rw [Function.comp_apply, hij.eq]
  refine decide_eq_decide.mpr (and_congr_right fun _ => ?_)
  exact (Term.rename_injective w.names.perm).eq_iff

theorem CellsMatch.withCell (hcells : w.CellsMatch) (array : String) {i j : Term}
    (hij : w.Carries i j) :
    (w.made (array ++ "!elem") (w.left.withCell array i) (w.right.withCell array j)).CellsMatch := by
  have hext : w.Extends (w.made (array ++ "!elem") (w.left.withCell array i)
      (w.right.withCell array j)) :=
    w.extends_made _ (Session.withCell_counter ..) (Session.withCell_counter ..)
  obtain ⟨hknows, himage⟩ := w.made_knows (array ++ "!elem")
    (Session.withCell_counter w.left array i) (Session.withCell_counter w.right array j)
  generalize hw' : w.made (array ++ "!elem") (w.left.withCell array i) (w.right.withCell array j) = w'
    at hext hknows himage ⊢
  have hleft : w'.left = w.left.withCell array i := by rw [← hw']; rfl
  have hright : w'.right = w.right.withCell array j := by rw [← hw']; rfl
  constructor
  · rw [hleft, hright, Session.withCell_cells, Session.withCell_cells, List.map_append, hcells.eq,
      List.map_singleton, CellConst.rename, himage, ← (hij.mono hext).eq]
    exact congrArg (· ++ _) (List.map_congr_left fun c hc => (hcells.rename_eq hext hc).symm)
  · intro c hc
    rw [hleft, Session.withCell_cells] at hc
    rcases List.mem_append.mp hc with hc | hc
    · obtain ⟨hsymbol, hindex⟩ := hcells.known c hc
      exact ⟨hsymbol.mono hext, fun x hx => (hindex x hx).mono hext⟩
    · rw [List.mem_singleton.mp hc]
      exact ⟨hknows, (hij.mono hext).known⟩

end SessionPair

section

variable {Φ : SessionPair → Prop} {lost : Prop} {w : SessionPair}

theorem coupled_freshSymbol (base : String)
    (hΦ : ∀ w', w.Extends w' → w'.left = { w.left with counter := w.left.counter + 1 } →
      w'.right = { w.right with counter := w.right.counter + 1 } → Φ w → Φ w') :
    EncodeM.Coupled Φ lost w (freshSymbol base) (freshSymbol base) fun w' x y =>
      w'.Knows x ∧ y = w'.names.perm x := by
  have hcount : ∀ s : Session, { s with counter := s.counter + 1 : Session }.counter =
      s.counter + 1 := fun _ => rfl
  have hext := w.extends_made base (hcount w.left) (hcount w.right)
  obtain ⟨hknows, himage⟩ := w.made_knows base (hcount w.left) (hcount w.right)
  exact .of_ok rfl rfl hext (hΦ _ hext rfl rfl) ⟨hknows, himage.symm⟩

/-- A cell is found in both sessions or made in both. -/
theorem coupled_cellSymbol {array : String} {i j : Term} (hij : w.Carries i j)
    (hcells : Φ w → w.CellsMatch)
    (hΦ : ∀ w', w.Extends w' → w'.CellsMatch → w'.left = w.left.withCell array i →
      w'.right = w.right.withCell array j → Φ w → Φ w') :
    EncodeM.Coupled Φ lost w (cellSymbol array i) (cellSymbol array j) fun w' x y =>
      w'.Knows x ∧ y = w'.names.perm x := by
  refine .of_related fun hw => ?_
  have hfind := (hcells hw).find?_eq array hij
  cases hleft : w.left.scope.cells.find? (fun c => c.array = array ∧ c.index = i) with
  | some c =>
    rw [hleft] at hfind
    have hknown := ((hcells hw).known c (List.mem_of_find?_eq_some hleft)).1
    exact .of_ok (cellSymbol_run_of_mem hleft) (cellSymbol_run_of_mem hfind) (.refl w) id
      ⟨hknown, rfl⟩
  | none =>
    rw [hleft] at hfind
    have hext := w.extends_made (array ++ "!elem") (Session.withCell_counter w.left array i)
      (Session.withCell_counter w.right array j)
    obtain ⟨hknows, himage⟩ := w.made_knows (array ++ "!elem")
      (Session.withCell_counter w.left array i) (Session.withCell_counter w.right array j)
    exact .of_ok (cellSymbol_run_new hleft) (cellSymbol_run_new hfind) hext
      (hΦ _ hext ((hcells hw).withCell array hij) rfl rfl) ⟨hknows, himage.symm⟩

end

/-! ## One level -/

/-- What sessions have to be related by for the encodings at a level to be coupled. `arrays` are the
arrays in scope, and the called names have the property `A`. -/
structure Resolver.Couples (Φ : SessionPair → Prop) (lost : Prop) (p : Program) (r : Resolver)
    (arrays : List String) (A : String → Prop) : Prop where
  fresh : ∀ w base, EncodeM.Coupled Φ lost w (freshSymbol base) (freshSymbol base) fun w' x y =>
    w'.Knows x ∧ y = w'.names.perm x
  cell : ∀ w a i j, a ∈ arrays → w.Carries i j →
    EncodeM.Coupled Φ lost w (cellSymbol a i) (cellSymbol a j) fun w' x y =>
      w'.Knows x ∧ y = w'.names.perm x
  selector : ∀ w a, a ∈ arrays →
    EncodeM.Coupled Φ lost w (selectorSymbol a) (selectorSymbol a) fun _ f g => g = f
  length : ∀ w a, a ∈ arrays →
    EncodeM.Coupled Φ lost w (lengthSymbol a) (lengthSymbol a) fun w' x y =>
      w'.Knows x ∧ y = w'.names.perm x
  declare : ∀ w f n, A f → (∀ g, p.function? f = some g → g.params.length = n) →
    EncodeM.Coupled Φ lost w (declareFun (fnSymbol f) n) (declareFun (fnSymbol f) n)
      fun _ _ _ => True
  contract : ∀ w g ts us bound, A g.name → p.Callable g → g.params.length = ts.length →
    w.CarriesAll ts us → (∀ x ∈ bound, w.Knows x) →
      EncodeM.Coupled Φ lost w (r.contract g ts bound) (r.contract g us (bound.map w.names.perm))
        fun _ _ _ => True
  body : ∀ w name d env env', p.formula? name = some d → w.Matches arrays env env' →
    (arrays = [] → ∀ x ∈ d.params, x.type = .int) →
      EncodeM.Coupled Φ lost w (r.body d env) (r.body d env') fun w' t u => w'.Carries t u

section

variable {Φ : SessionPair → Prop} {lost : Prop} {p : Program} {r : Resolver} {arrays : List String}
  {A : String → Prop} {w : SessionPair} {env env' : Env}

theorem coupled_checkCall (g : FunctionDef) (name : String) (count : Nat) :
    EncodeM.Coupled Φ lost w (checkCall g name count) (checkCall g name count) fun _ _ _ =>
      g.params.length = count ∧ g.hasArrayParams = false ∧ g.returns.length = 1 := by
  unfold checkCall
  refine .guard fun hcount => .guard fun harrays => ?_
  split
  · exact .throw
  · next hreturns =>
    exact .pure ⟨not_not.mp hcount, by simpa using harrays, not_not.mp hreturns⟩

theorem coupled_referredFormula (name : String) (count : Nat) :
    EncodeM.Coupled Φ lost w (referredFormula p r name count) (referredFormula p r name count)
      fun _ d d' => d' = d ∧ p.formula? name = some d ∧ d.params.length = count := by
  unfold referredFormula
  cases p.formula? name with
  | none => exact .throw
  | some d => exact .guard fun hcount => .guard fun _ => .pure ⟨rfl, rfl, not_not.mp hcount⟩

theorem coupled_varTerm (henv : w.Matches arrays env env') (x : String) :
    EncodeM.Coupled Φ lost w (varTerm env x) (varTerm env' x) fun w' t u => w'.Carries t u := by
  unfold varTerm
  generalize env.lookup? x = m, env'.lookup? x = m', henv.means x = hm
  cases hm with
  | unbound => exact .throw
  | array a ha => exact .throw
  | scalar ht => exact .pure ht

theorem coupled_arrayName (henv : w.Matches arrays env env') (a : String) :
    EncodeM.Coupled Φ lost w (arrayName env a) (arrayName env' a) fun _ b b' =>
      b' = b ∧ b ∈ arrays := by
  unfold arrayName
  generalize env.lookup? a = m, env'.lookup? a = m', henv.means a = hm
  cases hm with
  | unbound => exact .throw
  | array b hb => exact .pure ⟨rfl, hb⟩
  | scalar ht => exact .throw

theorem coupled_arrayArgument (henv : w.Matches arrays env env') (formula : String) (param : Param)
    (e : Expr) : EncodeM.Coupled Φ lost w (arrayArgument env formula param e)
      (arrayArgument env' formula param e) fun w' m m' =>
        arrays ≠ [] ∧ w'.Means arrays (some m) (some m') := by
  unfold arrayArgument
  split
  · next a =>
    generalize env.lookup? a = m, env'.lookup? a = m', henv.means a = hm
    cases hm with
    | unbound => exact .throw
    | array b hb => exact .pure ⟨List.ne_nil_of_mem hb, .array b hb⟩
    | scalar ht => exact .throw
  · exact .throw

/-- Whether an index is ground is the same on both sides. -/
theorem coupled_cellTerm (hr : r.Couples Φ lost p arrays A) {array : String} {i j : Term}
    (harray : array ∈ arrays) (henv : w.Matches arrays env env') (hindex : w.Carries i j) :
    EncodeM.Coupled Φ lost w (cellTerm env array i) (cellTerm env' array j) fun w' t u =>
      w'.Carries t u := by
  unfold cellTerm
  rw [henv.bound, hindex.mentions]
  split
  · refine .bind (hr.selector w array harray) fun f g w₁ h₁ hfg => ?_
    rw [hfg]
    exact .pure (((hindex.mono h₁).cons SessionPair.carriesAll_nil).app f)
  · refine .bind (hr.cell w array i j harray hindex) fun x y w₁ h₁ hxy => ?_
    rw [hxy.2]
    exact .pure (SessionPair.carries_const hxy.1)

mutual

theorem coupled_encodeExpr (hr : r.Couples Φ lost p arrays A) : ∀ (e : Expr) {env env' : Env}
    {w : SessionPair}, e.CallsOnly A → w.Matches arrays env env' →
      EncodeM.Coupled Φ lost w (encodeExpr p r e env) (encodeExpr p r e env') fun w' t u =>
        w'.Carries t u
  | .const n, _, _, _, _, _ => by
    rw [encodeExpr, encodeExpr]
    exact .pure (SessionPair.carries_int _)
  | .var x, _, _, _, _, henv => by
    rw [encodeExpr, encodeExpr]
    exact coupled_varTerm henv x
  | .neg e, _, _, _, hcalls, henv => by
    rw [encodeExpr, encodeExpr]
    exact .bind (coupled_encodeExpr hr e ((Expr.callsOnly_neg e).mp hcalls) henv)
      fun t u w₁ h₁ ht => .pure ht.neg
  | .binary op a b, _, _, _, hcalls, henv => by
    rw [encodeExpr, encodeExpr]
    obtain ⟨ha, hb⟩ := (Expr.callsOnly_binary op a b).mp hcalls
    exact .bind (coupled_encodeExpr hr a ha henv) fun t t' w₁ h₁ ht =>
      .bind (coupled_encodeExpr hr b hb (henv.mono h₁)) fun u u' w₂ h₂ hu =>
        .pure ((ht.mono h₂).arith op hu)
  | .read a i, _, _, _, hcalls, henv => by
    rw [encodeExpr, encodeExpr]
    refine .bind (coupled_arrayName henv a) fun b b' w₁ h₁ hb => ?_
    rw [hb.1]
    exact .bind (coupled_encodeExpr hr i ((Expr.callsOnly_read a i).mp hcalls) (henv.mono h₁))
      fun t u w₂ h₂ ht => coupled_cellTerm hr hb.2 ((henv.mono h₁).mono h₂) ht
  | .call f args, env, env', w, hcalls, henv => by
    rw [encodeExpr, encodeExpr, henv.lengthOf?_eq]
    obtain ⟨hf, hargs⟩ := (Expr.callsOnly_call f args).mp hcalls
    cases hlength : lengthOf? env f args with
    | some array =>
      obtain ⟨x, -, -, hx⟩ := lengthOf?_eq_some hlength
      have harray : array ∈ arrays := by
        have hmeans := henv.means x
        rw [hx] at hmeans
        generalize env'.lookup? x = m at hmeans
        cases hmeans with
        | array _ h => exact h
      refine .bind (hr.length w array harray) fun y y' w₁ h₁ hy => ?_
      rw [hy.2]
      exact .pure (SessionPair.carries_const hy.1)
    | none =>
      cases hfind : p.function? f with
      | none =>
        refine .bind (coupled_encodeArgs hr args hargs henv) fun ts us w₁ h₁ hts => ?_
        rw [hts.1.length]
        refine .bind (hr.declare w₁ f ts.length hf ?_) fun _ _ w₂ h₂ _ =>
          .pure ((hts.1.mono h₂).app (fnSymbol f))
        intro g hg
        rw [hfind] at hg
        cases hg
      | some g =>
        obtain ⟨-, rfl⟩ := Program.mem_of_function? hfind
        refine .bind (coupled_checkCall g g.name args.length) fun _ _ w₁ h₁ hcheck =>
          .bind (coupled_encodeArgs hr args hargs (henv.mono h₁)) fun ts us w₂ h₂ hts => ?_
        have hcount : g.params.length = ts.length := by rw [hcheck.1, hts.2]
        rw [hts.1.length]
        refine .bind (hr.declare w₂ g.name ts.length hf ?_) fun _ _ w₃ h₃ _ => ?_
        · intro g' hg'
          rw [hfind] at hg'
          cases hg'
          exact hcount
        have henv₃ := ((henv.mono h₁).mono h₂).mono h₃
        -- the contract has no result, but the sessions have to be related after it
        have hcontract := hr.contract w₃ g ts us env.bound hf ⟨hfind, hcheck.2.1, hcheck.2.2⟩ hcount
          (hts.1.mono h₃) henv₃.known
        rw [← henv₃.bound] at hcontract
        exact .bind hcontract fun _ _ w₄ h₄ _ =>
          .pure (((hts.1.mono h₃).mono h₄).app (fnSymbol g.name))
  | .cond q a b, _, _, _, hcalls, henv => by
    rw [encodeExpr, encodeExpr]
    obtain ⟨hq, ha, hb⟩ := (Expr.callsOnly_cond q a b).mp hcalls
    exact .bind (coupled_encodePred hr q hq henv) fun t t' w₁ h₁ ht =>
      .bind (coupled_encodeExpr hr a ha (henv.mono h₁)) fun u u' w₂ h₂ hu =>
        .bind (coupled_encodeExpr hr b hb ((henv.mono h₁).mono h₂)) fun v v' w₃ h₃ hv =>
          .pure (((ht.mono h₂).mono h₃).ite (hu.mono h₃) hv)

theorem coupled_encodeArgs (hr : r.Couples Φ lost p arrays A) : ∀ (es : List Expr)
    {env env' : Env} {w : SessionPair}, Expr.ArgsCallOnly A es → w.Matches arrays env env' →
      EncodeM.Coupled Φ lost w (encodeArgs p r es env) (encodeArgs p r es env') fun w' ts us =>
        w'.CarriesAll ts us ∧ ts.length = es.length
  | [], _, _, _, _, _ => by
    rw [encodeArgs, encodeArgs]
    exact .pure ⟨SessionPair.carriesAll_nil, rfl⟩
  | e :: es, _, _, _, hcalls, henv => by
    rw [encodeArgs, encodeArgs]
    obtain ⟨he, hes⟩ := (Expr.argsCallOnly_cons e es).mp hcalls
    exact .bind (coupled_encodeExpr hr e he henv) fun t t' w₁ h₁ ht =>
      .bind (coupled_encodeArgs hr es hes (henv.mono h₁)) fun ts us w₂ h₂ hts =>
        .pure ⟨(ht.mono h₂).cons hts.1, by rw [List.length_cons, List.length_cons, hts.2]⟩

theorem coupled_bindArgs (hr : r.Couples Φ lost p arrays A) (formula : String) :
    ∀ (es : List Expr) (xs : List Param) {env env' inner inner' : Env} {w : SessionPair},
      Expr.ArgsCallOnly A es → w.Matches arrays env env' → w.Matches arrays inner inner' →
      xs.length = es.length →
      EncodeM.Coupled Φ lost w (bindArgs p r formula es xs env inner)
        (bindArgs p r formula es xs env' inner') fun w' e e' =>
          w'.Matches arrays e e' ∧ (arrays = [] → ∀ x ∈ xs, x.type = .int)
  | [], [], _, _, _, _, _, _, _, hinner, _ => by
    rw [bindArgs, bindArgs]
    · exact .pure ⟨hinner, fun _ x hx => absurd hx List.not_mem_nil⟩
    · nofun
    · nofun
  | e :: es, x :: xs, env, env', _, _, w, hcalls, henv, hinner, hcount => by
    rw [bindArgs, bindArgs]
    obtain ⟨he, hes⟩ := (Expr.argsCallOnly_cons e es).mp hcalls
    have hcount' : xs.length = es.length := Nat.succ.inj hcount
    cases htype : x.type with
    | int =>
      have hscalar : EncodeM.Coupled Φ lost w (Meaning.scalar <$> encodeExpr p r e env)
          (Meaning.scalar <$> encodeExpr p r e env') fun w' m m' =>
            w'.Means arrays (some m) (some m') :=
        .map (.imp (coupled_encodeExpr hr e he henv) fun t u w' ht => .scalar ht)
      refine .bind hscalar fun m m' w₁ h₁ hm => ?_
      refine .imp (coupled_bindArgs hr formula es xs hes (henv.mono h₁)
        ((hinner.mono h₁).bind x.name hm) hcount') fun e e' w' h => ⟨h.1, fun hnone => ?_⟩
      exact List.forall_mem_cons.mpr ⟨htype, h.2 hnone⟩
    | array =>
      refine .bind (coupled_arrayArgument henv formula x e) fun m m' w₁ h₁ hm => ?_
      exact .imp (coupled_bindArgs hr formula es xs hes (henv.mono h₁)
        ((hinner.mono h₁).bind x.name hm.2) hcount') fun e e' w' h =>
          ⟨h.1, fun hnone => absurd hnone hm.1⟩

theorem coupled_encodePred (hr : r.Couples Φ lost p arrays A) : ∀ (q : Pred) {env env' : Env}
    {w : SessionPair}, q.CallsOnly A → w.Matches arrays env env' →
      EncodeM.Coupled Φ lost w (encodePred p r q env) (encodePred p r q env') fun w' t u =>
        w'.Carries t u
  | .bool b, _, _, _, _, _ => by
    rw [encodePred, encodePred]
    exact .pure (SessionPair.carries_bool b)
  | .compare op a b, _, _, _, hcalls, henv => by
    rw [encodePred, encodePred]
    obtain ⟨ha, hb⟩ := (Pred.callsOnly_compare op a b).mp hcalls
    exact .bind (coupled_encodeExpr hr a ha henv) fun t t' w₁ h₁ ht =>
      .bind (coupled_encodeExpr hr b hb (henv.mono h₁)) fun u u' w₂ h₂ hu =>
        .pure ((ht.mono h₂).compare op hu)
  | .not q, _, _, _, hcalls, henv => by
    rw [encodePred, encodePred]
    exact .bind (coupled_encodePred hr q ((Pred.callsOnly_not q).mp hcalls) henv)
      fun t u w₁ h₁ ht => .pure ht.not
  | .and a b, _, _, _, hcalls, henv => by
    rw [encodePred, encodePred]
    obtain ⟨ha, hb⟩ := (Pred.callsOnly_and a b).mp hcalls
    exact .bind (coupled_encodePred hr a ha henv) fun t t' w₁ h₁ ht =>
      .bind (coupled_encodePred hr b hb (henv.mono h₁)) fun u u' w₂ h₂ hu =>
        .pure (((ht.mono h₂).cons (hu.cons SessionPair.carriesAll_nil)).junction .and)
  | .or a b, _, _, _, hcalls, henv => by
    rw [encodePred, encodePred]
    obtain ⟨ha, hb⟩ := (Pred.callsOnly_or a b).mp hcalls
    exact .bind (coupled_encodePred hr a ha henv) fun t t' w₁ h₁ ht =>
      .bind (coupled_encodePred hr b hb (henv.mono h₁)) fun u u' w₂ h₂ hu =>
        .pure (((ht.mono h₂).cons (hu.cons SessionPair.carriesAll_nil)).junction .or)
  | .implies a b, _, _, _, hcalls, henv => by
    rw [encodePred, encodePred]
    obtain ⟨ha, hb⟩ := (Pred.callsOnly_implies a b).mp hcalls
    exact .bind (coupled_encodePred hr a ha henv) fun t t' w₁ h₁ ht =>
      .bind (coupled_encodePred hr b hb (henv.mono h₁)) fun u u' w₂ h₂ hu =>
        .pure ((ht.mono h₂).binary .implies hu)
  | .paren q, _, _, _, hcalls, henv => by
    rw [encodePred, encodePred]
    exact coupled_encodePred hr q ((Pred.callsOnly_paren q).mp hcalls) henv
  | .quantified k x q, _, _, w, hcalls, henv => by
    rw [encodePred, encodePred]
    refine .guard fun _ => .bind (hr.fresh w x.name) fun y y' w₁ h₁ hy => ?_
    rw [hy.2]
    refine .bind (coupled_encodePred hr q ((Pred.callsOnly_quantified k x q).mp hcalls)
      ((henv.mono h₁).bindBound x.name hy.1)) fun t u w₂ h₂ ht => ?_
    -- the body makes symbols of its own, and `y` keeps its counterpart
    rw [← h₂.names y hy.1]
    exact .pure (ht.quantified k (hy.1.mono h₂))
  | .formula f args, _, _, _, hcalls, henv => by
    rw [encodePred, encodePred]
    refine .bind (coupled_referredFormula f args.length) fun d d' w₁ h₁ hd => ?_
    rw [hd.1]
    have henv₁ := henv.mono h₁
    refine .bind (coupled_bindArgs hr f args d.params ((Pred.callsOnly_formula f args).mp hcalls)
      henv₁ (.of_empty rfl rfl henv₁.bound henv₁.known) hd.2.2) fun inner inner' w₂ h₂ hinner => ?_
    exact hr.body w₂ f d inner inner' hd.2.1 hinner.1 hinner.2

end

end

end Contracts

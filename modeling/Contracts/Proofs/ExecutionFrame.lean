import Contracts.Proofs.Depth
import Contracts.Proofs.ExecutionRules
import Mathlib

/-!
# What an execution leaves alone

The targets of a statement limit what its execution can do to the state. A variable among them can
get any value, and it is the only kind of name that can appear. A write to a cell needs an array and
leaves one. All other names stay as they are. `State.WrittenAt` says this of a state and a later one;
a single write has it, and so has the whole execution, whichever branches and iterations it takes.

Called functions have states of their own. What reaches the caller is what they return, and this goes
where the targets of the caller say.
-/

set_option autoImplicit false

namespace Contracts

/-! ## Writes to targets -/

/-- What writes to the targets can have made of the first state. -/
structure State.WrittenAt (ts : List Target) (s s' : State) : Prop where
  /-- A name of no target has the value that it had, if any. -/
  other : ∀ x, x ∉ ts.map Target.name → s'[x]? = s[x]?
  /-- So has a name of which at most cells are written, unless it has an array before and after. -/
  cells : ∀ x, Target.var x ∉ ts →
    s'[x]? = s[x]? ∨ ∃ c c', s[x]? = some (.array c) ∧ s'[x]? = some (.array c')
  /-- A name with a value has one afterwards. -/
  kept : ∀ x, x ∈ s → x ∈ s'

section

variable {ts : List Target} {s t u : State}

theorem State.WrittenAt.refl (ts : List Target) (s : State) : s.WrittenAt ts s :=
  ⟨fun _ _ => rfl, fun _ _ => .inl rfl, fun _ hx => hx⟩

theorem State.WrittenAt.trans (hst : s.WrittenAt ts t) (htu : t.WrittenAt ts u) :
    s.WrittenAt ts u := by
  refine ⟨fun x hx => (htu.other x hx).trans (hst.other x hx), fun x hx => ?_,
    fun x hx => htu.kept x (hst.kept x hx)⟩
  -- an array in between was one before, and stays one
  rcases hst.cells x hx with heq | ⟨c, c', hs, ht⟩
  · rw [← heq]
    exact htu.cells x hx
  · rcases htu.cells x hx with heq | ⟨_, c'', _, hu⟩
    · exact .inr ⟨c, c', hs, heq.trans ht⟩
    · exact .inr ⟨c, c'', hs, hu⟩

/-- One name gets a value: a variable among the targets any, another name an array for an array. -/
theorem State.WrittenAt.insert {x : String} {v : Value} (hname : x ∈ ts.map Target.name)
    (hv : Target.var x ∈ ts ∨ ∃ c c', s[x]? = some (.array c) ∧ v = .array c') :
    s.WrittenAt ts (s.insert x v) := by
  refine ⟨fun y hy => ?_, fun y hy => ?_, fun y hy => ?_⟩
  · rw [State.getElem?_insert, if_neg]
    rintro rfl
    exact hy hname
  · rw [State.getElem?_insert]
    by_cases hxy : x = y
    · subst hxy
      obtain ⟨c, c', hs, rfl⟩ := hv.resolve_left hy
      exact .inr ⟨c, c', hs, if_pos rfl⟩
    · exact .inl (if_neg hxy)
  · exact Std.ExtTreeMap.mem_insert.mpr (.inr hy)

end

section

variable {p : Program} {b : Below}

/-- A write to a target, wherever its index was worked out. -/
theorem Target.writesWithin_writtenAt {ts : List Target} {t : Target} (ht : t ∈ ts) :
    t.WritesWithin p b (State.WrittenAt ts) := by
  intro s₀ fuel₀ place fuel₁ hplace s v fuel₂ s' fuel₃ hwrite
  have hname : t.name ∈ ts.map Target.name := List.mem_map_of_mem ht
  cases t with
  | var x =>
    cases EvalM.pure_eq_ok.mp hplace
    cases EvalM.pure_eq_ok.mp hwrite
    exact .insert hname (.inl ht)
  | cell a i =>
    obtain ⟨k, fuel₄, -, hplace⟩ := EvalM.bind_eq_ok.mp hplace
    cases EvalM.pure_eq_ok.mp hplace
    obtain ⟨c, n, hc, -, hs'⟩ := Place.write_cell_eq_ok hwrite
    cases hs'
    exact .insert hname (.inr ⟨c, c.write k n, hc, rfl⟩)

/-- A whole execution does no more than writes to the targets of the statement. -/
theorem Stmt.writtenAt_exec {c : Stmt} {s : State} {fuel : Nat} {r : State × Nat}
    (h : c.exec p b s fuel = .ok r) : s.WrittenAt c.targets r.1 :=
  Stmt.exec_related (State.WrittenAt.refl _) (fun _ _ _ => State.WrittenAt.trans)
    (fun _ ht => Target.writesWithin_writtenAt ht) h

end

/-! ## The frame of an execution -/

/-- **Execution frame.** Where the execution of a statement ends, whatever the functions below do,

* a name that is no target has the value it had,
* a number stays unless it is in a variable that the statement assigns,
* no name disappears, and only such variables are new,
* an array of which only cells are written is still an array.

Called functions change nothing in the state: a statement without targets leaves it as it was, and in
general it ends in the same way with any functions that return the same. -/
theorem exec_frame (p : Program) (b : Below) (c : Stmt) {s s' : State} {fuel fuel' : Nat}
    (h : c.exec p b s fuel = .ok (s', fuel')) :
    (∀ x, x ∉ c.targets.map Target.name → s'[x]? = s[x]?) ∧
    (∀ x v, s[x]? = some (.int v) → x ∉ c.assignedScalars → s'[x]? = some (.int v)) ∧
    (∀ x, x ∈ s → x ∈ s') ∧
    (∀ x, x ∈ s' → x ∉ s → x ∈ c.assignedScalars) ∧
    (∀ x, x ∈ c.targets.map Target.name → x ∉ c.assignedScalars →
      (∃ cells, s[x]? = some (.array cells)) → ∃ cells, s'[x]? = some (.array cells)) ∧
    (c.targets = [] → s' = s) ∧
    ∀ b' : Below, b.Within b' → c.exec p b' s fuel = .ok (s', fuel') := by
  have hw : s.WrittenAt c.targets s' := Stmt.writtenAt_exec h
  -- a cell is written only in an array that is there, which then stays an array
  have hcells : ∀ x, x ∉ c.assignedScalars →
      s'[x]? = s[x]? ∨ ∃ c₁ c₂, s[x]? = some (.array c₁) ∧ s'[x]? = some (.array c₂) :=
    fun x hx => hw.cells x (mt Stmt.mem_assignedScalars.mpr hx)
  refine ⟨hw.other, fun x v hv hx => ?_, hw.kept, fun x hs' hs => ?_, fun x _ hx harray => ?_,
    fun hnone => ?_, fun b' hb => Stmt.within_exec hb c s fuel _ h⟩
  · rcases hcells x hx with heq | ⟨c₁, _, hc₁, _⟩
    · exact heq.trans hv
    · cases hv.symm.trans hc₁
  · -- a name outside the assigned variables that is there afterwards was there before
    rw [Std.ExtTreeMap.mem_iff_isSome_getElem?] at hs hs'
    by_contra hx
    rcases hcells x hx with heq | ⟨c₁, _, hc₁, _⟩
    · exact hs (heq ▸ hs')
    · exact hs (hc₁ ▸ rfl)
  · obtain ⟨c₁, hc₁⟩ := harray
    rcases hcells x hx with heq | ⟨_, c₂, _, hc₂⟩
    · exact ⟨c₁, heq.trans hc₁⟩
    · exact ⟨c₂, hc₂⟩
  · refine Std.ExtTreeMap.ext_getElem? fun x => hw.other x ?_
    rw [hnone]
    exact List.not_mem_nil

/-- Adds a number to the first cell of an array, and clears both before it returns the sum. -/
def sumAndClear : FunctionDef where
  name := "sumAndClear"
  params := [⟨"a", .array⟩, .scalar "n"]
  returns := [.scalar "k"]
  locals := []
  body := .block
    [.assign [.var "k"] [.binary .add (.var "n") (.read "a" (.const 0))],
     .assign [.cell "a" (.const 0), .var "n"] [.const 0, .const 0]]
  pre := none
  post := none

/-- Writes such sums to two cells, calls the function once more for its own sake and then reads the
last sum. -/
def twoSums : Stmt := .block
  [.loop (.compare .lt (.var "i") (.const 2))
    (.assign [.cell "a" (.var "i"), .var "i"]
      [.call "sumAndClear" [.var "a", .var "n"], .binary .add (.var "i") (.const 1)]) none,
   .assign [] [.call "sumAndClear" [.var "a", .var "n"]],
   .branch (.compare .eq (.var "i") (.const 2))
    (.assign [.var "last"] [.read "a" (.const 1)]) (some (.assign [.var "never"] [.const 0]))]

def twoSumsStart : State :=
  State.ofPairs [("a", .array (Cells.write ∅ 0 7)), ("i", .int 0), ("n", .int 3)]

/-- The function clears its `a` and its `n` three times; the caller has the sums in its `a` and still
has its `n`. Its only new name is a variable that it assigns. -/
theorem exec_frame_twoSums : ∃ s' : State,
    twoSums.exec ⟨[sumAndClear], []⟩ (below ⟨[sumAndClear], []⟩ 1) twoSumsStart 2 = .ok (s', 0) ∧
    s'["n"]? = some (.int 3) ∧ "i" ∈ s' ∧ "last" ∈ s' ∧ "last" ∈ twoSums.assignedScalars ∧
    (∃ cells, s'["a"]? = some (.array cells)) ∧
    twoSums.exec ⟨[sumAndClear], []⟩ (below ⟨[sumAndClear], []⟩ depthLimit) twoSumsStart 2 =
      .ok (s', 0) := by
  have hexec : twoSums.exec ⟨[sumAndClear], []⟩ (below ⟨[sumAndClear], []⟩ 1) twoSumsStart 2 =
      .ok (State.ofPairs [("a", .array ((Cells.write ∅ 0 10).write 1 13)), ("i", .int 2),
        ("n", .int 3), ("last", .int 13)], 0) := by cbv
  obtain ⟨hother, -, hkept, hnew, harray, -, hcalls⟩ := exec_frame _ _ _ hexec
  have hlast : "last" ∈ State.ofPairs [("a", .array ((Cells.write ∅ 0 10).write 1 13)),
      ("i", .int 2), ("n", .int 3), ("last", .int 13)] := by decide
  refine ⟨_, hexec, ?_, hkept "i" (by decide), hlast, hnew "last" hlast (by decide),
    harray "a" (by decide) (by rw [Stmt.mem_assignedScalars]; decide) ⟨_, by cbv⟩,
    hcalls _ (below_within _ (by decide))⟩
  rw [hother "n" (by decide)]
  cbv

end Contracts

import Contracts.Proofs.SharedSession
import Contracts.Proofs.WeakestPreSound

/-!
# The protocol of a check

A check settles one function after the other. What a backend is asked on the way, and what it
replies, is seen by a backend that keeps a record and otherwise does what it did before. The backend
may do anything in between: its replies may depend on what it was asked earlier, on the
announcements and on the clock.

Settling a prepared function adds at most one exchange to the record
(`Program.settleTimed_recorded`). By induction a check adds those of its functions, in their order
(`Program.settleAll_recorded`). What a function was prepared to, which the plan decides, and the
reply to its query give the verdict on it (`Verdict`); an error of one function has no part in the
verdict on another.
-/

set_option autoImplicit false

namespace Contracts

open Smt

/-! ## Records -/

/-- A query and the reply to it. -/
structure Exchange where
  script : Script
  reply : Except SolverError Answer

/-- The same backend, with a record of what it is asked and what it replies. -/
def Backend.recorded {σ : Type} (b : Backend (StateM σ)) :
    Backend (StateM (List Exchange × σ)) where
  ask script := fun (record, world) =>
    let (reply, world) := b.ask script world
    (reply, record ++ [⟨script, reply⟩], world)
  announce query := fun (record, world) => ((), record, (b.announce query world).2)
  clock := fun (record, world) =>
    let (now, world) := b.clock world
    (now, record, world)

/-- What a check does for one function: it asks the backend, or does not, and has a result. -/
structure Round where
  exchange : Option Exchange
  result : FunctionResult

section

variable {σ : Type} (p : Program) (b : Backend (StateM σ))

/-- The exchange and the outcome that a preparation leads to, for some state of the backend. -/
def Program.Settles (f : FunctionDef) (exchange : Option Exchange) (outcome : Outcome) :
    Preparation → Prop
  | .nothingToProve => exchange = none ∧ outcome = .skipped
  | .stopped stage e => exchange = none ∧ outcome = .error stage e.message
  | .ready query => ∃ reply, (∃ world, (b.ask query.script world).1 = reply) ∧
      exchange = some ⟨query.script, reply⟩ ∧ outcome = p.judge f query reply

/-- One function: the record grows by what is asked for it, and its result is the one without a
record. -/
theorem Program.settleTimed_recorded (f : FunctionDef) (prepared : Preparation)
    (record : List Exchange) (world : σ) : ∃ (round : Round) (world' : σ),
      p.settleTimed b.recorded f prepared (record, world) =
        (round.result, record ++ round.exchange.toList, world') ∧
      p.settleTimed b f prepared world = (round.result, world') ∧
      round.result.name = f.name ∧ p.Settles b f round.exchange round.result.outcome prepared := by
  cases prepared with
  | nothingToProve =>
    -- only the clock is read, here and where the function is stopped
    refine ⟨⟨none, _⟩, _, ?_, rfl, rfl, rfl, rfl⟩
    rw [Option.toList_none, List.append_nil]
    rfl
  | stopped stage e =>
    refine ⟨⟨none, _⟩, _, ?_, rfl, rfl, rfl, rfl⟩
    rw [Option.toList_none, List.append_nil]
    rfl
  | ready query => exact ⟨⟨some ⟨query.script, _⟩, _⟩, _, rfl, rfl, rfl, _, ⟨_, rfl⟩, rfl, rfl⟩

/-- The state goes through the steps in order. -/
theorem StateM.mapM_cons_apply {α β : Type} (step : α → StateM σ β) (a : α) (as : List α) (s : σ) :
    (a :: as).mapM step s =
      ((step a s).1 :: (as.mapM step (step a s).2).1, (as.mapM step (step a s).2).2) := by
  rw [List.mapM_cons]
  rfl

/-- All functions of a plan, one after the other. -/
theorem Program.settleAll_recorded (plan : List (FunctionDef × Preparation))
    (record : List Exchange) (world : σ) : ∃ (rounds : List Round) (world' : σ),
      (plan.mapM fun (f, prepared) => p.settleTimed b.recorded f prepared) (record, world) =
        (rounds.map Round.result, record ++ rounds.filterMap Round.exchange, world') ∧
      (plan.mapM fun (f, prepared) => p.settleTimed b f prepared) world =
        (rounds.map Round.result, world') ∧
      List.Forall₂ (fun item round => round.result.name = item.1.name ∧
        p.Settles b item.1 round.exchange round.result.outcome item.2) plan rounds := by
  induction plan generalizing record world with
  | nil =>
    refine ⟨[], world, ?_, rfl, .nil⟩
    rw [List.filterMap_nil, List.append_nil]
    rfl
  | cons item plan ih =>
    obtain ⟨f, prepared⟩ := item
    obtain ⟨round, world₁, hrecorded, hplain, hname, hsettles⟩ :=
      p.settleTimed_recorded b f prepared record world
    -- the rest starts with the record and in the world that the first function leaves
    obtain ⟨rounds, world₂, hrecorded', hplain', hrest⟩ :=
      ih (record ++ round.exchange.toList) world₁
    refine ⟨round :: rounds, world₂, ?_, ?_, .cons ⟨hname, hsettles⟩ hrest⟩
    · have hsplit : (round :: rounds).filterMap Round.exchange =
          round.exchange.toList ++ rounds.filterMap Round.exchange := by
        rw [List.filterMap_cons]
        cases round.exchange <;> rfl
      rw [StateM.mapM_cons_apply]
      dsimp only
      rw [hrecorded, hrecorded', hsplit, List.append_assoc, List.map_cons]
    · rw [StateM.mapM_cons_apply]
      dsimp only
      rw [hplain, hplain', List.map_cons]

end

/-! ## Preparations -/

section

variable (p : Program) (close : Bool)

/-- The session in which the function at a place of the program is prepared: with one job the one
that the functions before it leave, with more a new one. -/
def Program.sessionAt (jobs i : Nat) : Session :=
  if jobs ≤ 1 then p.sessionAfter (obligations close (p.functions.take i)) else Session.new

theorem Program.plan_getElem? (jobs i : Nat) : (p.plan close jobs)[i]? =
    p.functions[i]?.map fun f => (f, (p.prepare close f (p.sessionAt close jobs i)).1) := by
  rw [Program.sessionAt]
  by_cases hjobs : jobs ≤ 1
  · rw [if_pos hjobs, ← Program.plan_shared, Program.plan, Program.plan, if_pos hjobs,
      if_pos (Nat.le_refl 1)]
  · rw [if_neg hjobs, Program.plan_alone close (Nat.not_le.mp hjobs)]

theorem Program.map_fst_plan (jobs : Nat) : (p.plan close jobs).map Prod.fst = p.functions := by
  refine List.ext_getElem? fun i => ?_
  rw [List.getElem?_map, Program.plan_getElem?, Option.map_map]
  exact congrFun Option.map_id _

end

/-- What a function is prepared to, and why. -/
theorem Program.prepare_cases (p : Program) (close : Bool) (f : FunctionDef) (s : Session) :
    (f.obligation close = .ok none ∧ (p.prepare close f s).1 = .nothingToProve) ∨
    (∃ e, f.obligation close = .error e ∧ (p.prepare close f s).1 = .stopped .pending e) ∨
    ∃ obligation, f.obligation close = .ok (some obligation) ∧
      ((∃ e, (p.query f obligation s).1 = .error e ∧
          (p.prepare close f s).1 = .stopped .built e) ∨
        ∃ query, (p.query f obligation s).1 = .ok query ∧
          (p.prepare close f s).1 = .ready query) := by
  unfold Program.prepare
  cases f.obligation close with
  | error e => exact .inr (.inl ⟨e, rfl, rfl⟩)
  | ok o =>
    cases o with
    | none => exact .inl ⟨rfl, rfl⟩
    | some obligation =>
      refine .inr (.inr ⟨obligation, rfl, ?_⟩)
      dsimp only
      rcases p.query f obligation s with ⟨e | query, s'⟩
      · exact .inl ⟨e, rfl, rfl⟩
      · exact .inr ⟨query, rfl, rfl⟩

/-! ## Verdicts -/

/-- A function has a query if it has a postcondition, its obligation builds, and this encodes. -/
def Program.HasQuery (p : Program) (close : Bool) (f : FunctionDef) (s : Session) (query : Query) :
    Prop :=
  ∃ obligation, f.obligation close = .ok (some obligation) ∧ (p.query f obligation s).1 = .ok query

/-- A function stops at a stage, with a message: before the backend is asked, or by its reply. It
never stops after the reply. -/
def Program.StopsAt (p : Program) (close : Bool) (f : FunctionDef) (s : Session)
    (exchange : Option Exchange) (message : String) : Stage → Prop
  | .pending => ∃ e, f.obligation close = .error e ∧ e.message = message
  | .built => ∃ obligation e, f.obligation close = .ok (some obligation) ∧
      (p.query f obligation s).1 = .error e ∧ e.message = message
  | .encoded => ∃ script e, exchange = some ⟨script, .error e⟩ ∧ e.message = message
  | .discharged => False

/-- What the check of a function in a session comes to: what the backend is asked for it, and how
the outcome goes back to its obligation, its query and the reply. -/
structure Verdict {σ : Type} (p : Program) (b : Backend (StateM σ)) (close : Bool) (f : FunctionDef)
    (s : Session) (exchange : Option Exchange) (outcome : Outcome) : Prop where
  /-- A function with a query is asked for with its script, and no other function is. -/
  asked : ∀ script, (∃ reply, exchange = some ⟨script, reply⟩) ↔
    ∃ query, p.HasQuery close f s query ∧ query.script = script
  /-- The reply is the backend's. -/
  replied : ∀ script reply, exchange = some ⟨script, reply⟩ →
    ∃ world, (b.ask script world).1 = reply
  verified : outcome = .verified ↔ ∃ script, exchange = some ⟨script, .ok .unsat⟩
  failed : ∀ c, outcome = .failed c ↔ ∃ query model, p.HasQuery close f s query ∧
    exchange = some ⟨query.script, .ok (.sat model)⟩ ∧ p.counterexample f query.symbols model = c
  inconclusive : ∀ reason, outcome = .inconclusive reason ↔
    ∃ script, exchange = some ⟨script, .ok (.unknown reason)⟩
  skipped : outcome = .skipped ↔ f.post = none
  stopped : ∀ stage message, outcome = .error stage message ↔
    p.StopsAt close f s exchange message stage

section

variable {p : Program} {f : FunctionDef} {query : Query} {reply : Except SolverError Answer}

@[simp]
theorem Program.judge_eq_verified :
    p.judge f query reply = .verified ↔ reply = .ok .unsat := by
  rcases reply with e | _ | _ | _ <;> simp [Program.judge]

@[simp]
theorem Program.judge_eq_failed {c : Counterexample} : p.judge f query reply = .failed c ↔
    ∃ model, reply = .ok (.sat model) ∧ p.counterexample f query.symbols model = c := by
  rcases reply with e | _ | _ | _ <;> simp [Program.judge]

@[simp]
theorem Program.judge_eq_inconclusive {reason : String} :
    p.judge f query reply = .inconclusive reason ↔ reply = .ok (.unknown reason) := by
  rcases reply with e | _ | _ | _ <;> simp [Program.judge]

@[simp]
theorem Program.judge_eq_error {stage : Stage} {message : String} :
    p.judge f query reply = .error stage message ↔
      stage = .encoded ∧ ∃ e, reply = .error e ∧ e.message = message := by
  rcases reply with e | _ | _ | _ <;> simp [Program.judge, eq_comm]

@[simp]
theorem Program.judge_ne_skipped : p.judge f query reply ≠ .skipped := by
  rcases reply with e | _ | _ | _ <;> simp [Program.judge]

end

section

variable {σ : Type} {p : Program} {b : Backend (StateM σ)} {close : Bool} {f : FunctionDef}
  {s : Session} {exchange : Option Exchange} {outcome : Outcome}

/-- The verdict on a function without a query, which is skipped or stopped. -/
theorem Verdict.unasked (hquery : ∀ query, ¬p.HasQuery close f s query)
    (houtcome : outcome = .skipped ∨ ∃ stage message, outcome = .error stage message)
    (hskipped : outcome = .skipped ↔ f.post = none)
    (hstopped : ∀ stage message, outcome = .error stage message ↔
      p.StopsAt close f s none message stage) :
    Verdict p b close f s none outcome where
  asked script := ⟨nofun, fun ⟨query, h, _⟩ => absurd h (hquery query)⟩
  replied := nofun
  verified := by rcases houtcome with rfl | ⟨stage, message, rfl⟩ <;> simp
  failed c := by rcases houtcome with rfl | ⟨stage, message, rfl⟩ <;> simp
  inconclusive reason := by rcases houtcome with rfl | ⟨stage, message, rfl⟩ <;> simp
  skipped := hskipped
  stopped := hstopped

/-- The verdict on a function with a query, which goes by the reply. -/
theorem Verdict.asking {obligation : Pred} {query : Query} {reply : Except SolverError Answer}
    (hobligation : f.obligation close = .ok (some obligation))
    (hquery : (p.query f obligation s).1 = .ok query)
    (hreply : ∃ world, (b.ask query.script world).1 = reply) :
    Verdict p b close f s (some ⟨query.script, reply⟩) (p.judge f query reply) where
  asked script := by simp [Program.HasQuery, hobligation, hquery]
  replied script reply' h := by
    cases h
    exact hreply
  verified := by simp
  failed c := by simp [Program.HasQuery, hobligation, hquery]
  inconclusive reason := by simp
  skipped := by simp [← f.obligation_eq_none close, hobligation]
  stopped stage message := by cases stage <;> simp [Program.StopsAt, hobligation, hquery]

/-- What a function is prepared to and how that is settled give the verdict on it. -/
theorem Program.Settles.verdict (h : p.Settles b f exchange outcome (p.prepare close f s).1) :
    Verdict p b close f s exchange outcome := by
  have hpost := f.obligation_eq_none close
  -- skipped, without an obligation, without a query, and asked for
  rcases p.prepare_cases close f s with ⟨hob, hprep⟩ | ⟨e, hob, hprep⟩ |
    ⟨obligation, hob, ⟨e, hquery, hprep⟩ | ⟨query, hquery, hprep⟩⟩ <;> rw [hprep] at h
  · obtain ⟨rfl, rfl⟩ := h
    refine .unasked (by simp [Program.HasQuery, hob]) (.inl rfl) (by simp [← hpost, hob]) ?_
    intro stage message
    cases stage <;> simp [Program.StopsAt, hob]
  · obtain ⟨rfl, rfl⟩ := h
    refine .unasked (by simp [Program.HasQuery, hob]) (.inr ⟨_, _, rfl⟩) (by simp [← hpost, hob]) ?_
    intro stage message
    cases stage <;> simp [Program.StopsAt, hob]
  · obtain ⟨rfl, rfl⟩ := h
    refine .unasked (by simp [Program.HasQuery, hob, hquery]) (.inr ⟨_, _, rfl⟩)
      (by simp [← hpost, hob]) ?_
    intro stage message
    cases stage <;> simp [Program.StopsAt, hob, hquery]
  · obtain ⟨reply, hreply, rfl, rfl⟩ := h
    exact .asking hob hquery hreply

theorem Outcome.isVerified_iff {o : Outcome} :
    o.isVerified = true ↔ o = .verified ∨ o = .skipped := by
  cases o <;> simp [Outcome.isVerified, Outcome.kind]

/-- Nothing stands against a function that has no postcondition or whose query is answered by
`unsat`. -/
theorem Verdict.isVerified_iff (h : Verdict p b close f s exchange outcome) :
    outcome.isVerified = true ↔
      (f.post ≠ none → ∃ script, exchange = some ⟨script, .ok .unsat⟩) := by
  rw [Outcome.isVerified_iff, h.verified, h.skipped]
  tauto

end

section

variable {σ : Type} (p : Program) (b : Backend (StateM σ)) (close : Bool) (jobs : Nat)

theorem Program.check_apply (name : String) (world : σ) : p.check b close jobs name world =
    let (results, world) :=
      ((p.plan close jobs).mapM fun (f, prepared) => p.settleTimed b f prepared) world
    (⟨name, results⟩, world) :=
  rfl

/-- A check goes in rounds, one for each function. -/
theorem Program.check_rounds (name : String) (world : σ) :
    ∃ (rounds : List Round) (world' : σ),
      p.check b close jobs name world = (⟨name, rounds.map Round.result⟩, world') ∧
      p.check b.recorded close jobs name ([], world) =
        (⟨name, rounds.map Round.result⟩, rounds.filterMap Round.exchange, world') ∧
      rounds.length = p.functions.length ∧
      ∀ (i : Nat) (f : FunctionDef) (round : Round), p.functions[i]? = some f →
        rounds[i]? = some round → round.result.name = f.name ∧
        Verdict p b close f (p.sessionAt close jobs i) round.exchange round.result.outcome := by
  obtain ⟨rounds, world', hrecorded, hplain, hall⟩ :=
    p.settleAll_recorded b (p.plan close jobs) [] world
  refine ⟨rounds, world', ?_, ?_, ?_, ?_⟩
  · rw [Program.check_apply, hplain]
  · rw [Program.check_apply, hrecorded, List.nil_append]
  · rw [← hall.length_eq, ← p.map_fst_plan close jobs, List.length_map]
  · intro i f round hf hround
    have hplan := Program.plan_getElem? p close jobs i
    rw [hf, Option.map_some] at hplan
    obtain ⟨hi, hitem⟩ := List.getElem?_eq_some_iff.mp hplan
    obtain ⟨hi', rfl⟩ := List.getElem?_eq_some_iff.mp hround
    obtain ⟨hname, hsettles⟩ := hall.get hi hi'
    rw [List.get_eq_getElem, List.get_eq_getElem, hitem] at hname hsettles
    exact ⟨hname, hsettles.verdict⟩

end

/-- **The protocol of a check.** Take a program, a backend whose replies are its own affair, any
options and any number of jobs. The check has one result for each function, in the order of the
program. A record of the exchanges with the backend holds, in this order too, one for each function
that has a query, with the script of the query, and none for any other function; keeping the record
changes nothing. The verdict on each function goes by its own obligation, query and reply, whatever
came of the functions before it. Nothing stands against the program if and only if the query of
every function with a postcondition was answered by `unsat`. -/
theorem check_protocol {σ : Type} (p : Program) (b : Backend (StateM σ)) (close : Bool) (jobs : Nat)
    (name : String) (world : σ) : ∃ (rounds : List Round) (world' : σ),
      p.check b close jobs name world = (⟨name, rounds.map Round.result⟩, world') ∧
      p.check b.recorded close jobs name ([], world) =
        (⟨name, rounds.map Round.result⟩, rounds.filterMap Round.exchange, world') ∧
      rounds.map (·.result.name) = p.functions.map (·.name) ∧
      (∀ (i : Nat) (f : FunctionDef), p.functions[i]? = some f → ∃ round, rounds[i]? = some round ∧
        Verdict p b close f (p.sessionAt close jobs i) round.exchange round.result.outcome) ∧
      ((p.check b close jobs name world).1.allVerified = true ↔
        ∀ (i : Nat) (f : FunctionDef) (round : Round), p.functions[i]? = some f →
          rounds[i]? = some round → f.post ≠ none →
          ∃ script, round.exchange = some ⟨script, .ok .unsat⟩) := by
  obtain ⟨rounds, world', hcheck, hrecorded, hlength, hrounds⟩ :=
    p.check_rounds b close jobs name world
  have hround : ∀ (i : Nat) (f : FunctionDef), p.functions[i]? = some f →
      ∃ round, rounds[i]? = some round := by
    intro i f hf
    obtain ⟨hi, -⟩ := List.getElem?_eq_some_iff.mp hf
    exact ⟨_, List.getElem?_eq_getElem (hlength ▸ hi)⟩
  refine ⟨rounds, world', hcheck, hrecorded, ?_, fun i f hf => ?_, ?_⟩
  · refine List.ext_getElem (by simp only [List.length_map, hlength]) fun i hi hi' => ?_
    rw [List.length_map] at hi hi'
    rw [List.getElem_map, List.getElem_map]
    exact (hrounds i _ _ (List.getElem?_eq_getElem hi') (List.getElem?_eq_getElem hi)).1
  · obtain ⟨round, hround⟩ := hround i f hf
    exact ⟨round, hround, (hrounds i f round hf hround).2⟩
  · -- a verdict goes by the reply to its own query alone, so this is to be shown of each of them
    rw [hcheck, Report.allVerified, List.all_map, List.all_eq_true]
    constructor
    · intro hall i f round hf hround
      have hverified := hall round (List.mem_of_getElem? hround)
      exact (hrounds i f round hf hround).2.isVerified_iff.mp hverified
    · intro hall round hmem
      obtain ⟨i, hi, rfl⟩ := List.getElem_of_mem hmem
      have hf := List.getElem?_eq_getElem (hlength ▸ hi : i < p.functions.length)
      have hround := List.getElem?_eq_getElem hi
      exact (hrounds i _ _ hf hround).2.isVerified_iff.mpr (hall i _ _ hf hround)

/-! An instance: a function without a postcondition, one whose loop has no invariant, one whose
postcondition has a variable too many, and after these one that is asked for. -/

/-- Sets its result to one, after what it is given. -/
def settingOne (name : String) (before : List Stmt) (post : Pred) : FunctionDef :=
  { name, params := [], returns := [.scalar "r"], locals := []
    body := .block (before ++ [.assign [.var "r"] [.const 1]])
    pre := none
    post := some post }

def waiting : FunctionDef :=
  settingOne "wait" [.loop (.compare .lt (.var "r") (.const 0)) (.block []) none]
    (.compare .eq (.var "r") (.const 1))

def astray : FunctionDef := settingOne "stray" [] (.compare .eq (.var "r") (.var "s"))

def settled : FunctionDef := settingOne "settle" [] (.compare .eq (.var "r") (.const 1))

def mixedProgram : Program := ⟨[blank, waiting, astray, settled], []⟩

/-- Replies `unsat` whatever it is asked. -/
def agreeing : Backend (StateM Unit) where
  ask _ := pure (.ok .unsat)
  announce _ := pure ()
  clock := pure 0

theorem settled_hasQuery : ∃ query,
    mixedProgram.HasQuery false settled (mixedProgram.sessionAt false 1 3) query := by
  have hobligation : settled.obligation false = .ok (some (.bool true)) := by cbv
  have hok : (mixedProgram.query settled (.bool true)
    (mixedProgram.sessionAt false 1 3)).1.isOk = true := by cbv
  rcases hquery : (mixedProgram.query settled (.bool true)
    (mixedProgram.sessionAt false 1 3)).1 with e | query
  · rw [hquery] at hok
    cases hok
  · exact ⟨query, _, hobligation, hquery⟩

/-- The last function is verified although two before it are stopped; the program is not. -/
theorem check_protocol_mixed : ∃ rounds : List Round,
    (mixedProgram.check agreeing false 1 "mixed" ()).1.results = rounds.map Round.result ∧
    (∃ round : Round, rounds[0]? = some round ∧
      round.exchange = none ∧ round.result.outcome = .skipped) ∧
    (∃ round : Round, rounds[1]? = some round ∧
      round.result.outcome = .error .pending "loop `while (r < 0)` has no invariant") ∧
    (∃ round : Round, rounds[2]? = some round ∧
      round.result.outcome = .error .built "unbound variable `s`") ∧
    (∃ round : Round, rounds[3]? = some round ∧
      round.exchange ≠ none ∧ round.result.outcome = .verified) ∧
    (mixedProgram.check agreeing false 1 "mixed" ()).1.allVerified = false := by
  obtain ⟨rounds, world, hcheck, -, -, hverdict, hall⟩ :=
    check_protocol mixedProgram agreeing false 1 "mixed" ()
  obtain ⟨first, hfirst, hskipped⟩ := hverdict 0 blank rfl
  obtain ⟨second, hsecond, hpending⟩ := hverdict 1 waiting rfl
  obtain ⟨third, hthird, hbuilt⟩ := hverdict 2 astray rfl
  obtain ⟨fourth, hfourth, hasked⟩ := hverdict 3 settled rfl
  have hstopped : second.result.outcome =
      .error .pending "loop `while (r < 0)` has no invariant" :=
    (hpending.stopped _ _).mpr ⟨.missingInvariant (.compare .lt (.var "r") (.const 0)), by cbv, rfl⟩
  refine ⟨rounds, by rw [hcheck], ⟨first, hfirst, ?_, hskipped.skipped.mpr rfl⟩,
    ⟨second, hsecond, hstopped⟩, ⟨third, hthird, (hbuilt.stopped _ _).mpr ?_⟩,
    ⟨fourth, hfourth, ?_⟩, ?_⟩
  · refine Option.eq_none_iff_forall_ne_some.mpr fun x hx => ?_
    obtain ⟨query, ⟨obligation, hobligation, -⟩, -⟩ := (hskipped.asked x.script).mp ⟨x.reply, hx⟩
    cases hobligation
  · exact ⟨.compare .eq (.const 1) (.var "s"), .unboundVariable "s", by cbv, by cbv, rfl⟩
  · obtain ⟨query, hquery⟩ := settled_hasQuery
    obtain ⟨reply, hexchange⟩ := (hasked.asked query.script).mpr ⟨query, hquery, rfl⟩
    obtain ⟨world, rfl⟩ := hasked.replied _ _ hexchange
    exact ⟨by simp [hexchange], hasked.verified.mpr ⟨_, hexchange⟩⟩
  · rw [Bool.eq_false_iff]
    intro hverified
    obtain ⟨script, hexchange⟩ := hall.mp hverified 1 waiting second rfl hsecond
      fun hnone => by cases hnone
    cases hstopped.symm.trans (hpending.verified.mpr ⟨script, hexchange⟩)

end Contracts

import Cdcl.Proofs.Searches
import Cdcl.Proofs.Verdicts

/-!
# Contradictions are permanent

Once a solver knows that its clauses are contradictory, it never forgets it, and every call that can
say so says so. The status of a solver follows, with one exception: a simplification that finds the
contradiction leaves the status as it was, until a vivification or a solve reports it.

## Main results

- `Ready.status_of_call`: whatever call finds the contradiction sets the status, unless it is a
  simplification.
- `permanent_of_contradiction`: what every call says from then on.
-/

namespace Cdcl

/-- Does an answer to the call tell the status of the solver? -/
def Call.reports : Call → Answer → Bool
  | .obey (.vivify _), _ => true
  | .solve _, .status _ => true
  | _, _ => false

namespace Solver

variable {F : List (List Lit)} {s t : Solver} {steps : Nat} {as : List Lit} {c : Call} {answer : Answer}

/-- Every call that can say that the clauses are contradictory says so. -/
structure Contradicted (s : Solver) : Prop where
  notOk : s.engine.ok = false
  addClause : ∀ steps (c : List Lit), (∀ l ∈ c, s.checkLit l = .ok ()) →
    ∃ t, s.call steps (.obey (.addClause c)) = .ok (.boolean false, t)
  simplify : ∀ steps, ∃ t, s.call steps (.obey .simplify) = .ok (.boolean false, t)
  vivify : ∀ steps minSize, ∃ t, s.call steps (.obey (.vivify minSize)) = .ok (.boolean false, t) ∧
    t.status = .unsat
  solve : ∀ steps (as : List Lit), (∀ l ∈ as, s.checkLit l = .ok ()) →
    ∃ t, s.call steps (.solve as) = .ok (.status .unsat, t) ∧ t.status = .unsat ∧ t.model = #[] ∧
      t.core.toList = []

/-- A simplification found the clauses contradictory, and no vivification or solve came since: the
status is the one from before. -/
inductive Unreported : Status → Solver → Prop where
  | found {F : List (List Lit)} {r s : Solver} (before : History F r) (ok : r.engine.ok = true)
    (simplified : r.simplify = (.ok false, s)) : Unreported r.status s
  | call {status : Status} {s t : Solver} {steps : Nat} {c : Call} {answer : Answer}
    (before : Unreported status s) (called : s.call steps c = .ok (answer, t))
    (quiet : c.reports answer = false) : Unreported status t

/-! ### The call that finds the contradiction -/

/-- A solve that gives a status sets it. -/
theorem status_solveKeeping {status : Status} (solved : s.solveKeeping steps = .ok (.ok status, t)) :
    t.status = status := by
  unfold solveKeeping at solved
  dsimp only at solved
  split at solved
  · cases solved
    rfl
  · split at solved
    · split at solved
      · cases solved
      · cases solved
      next u _ =>
        cases solved
        have noted := noted_notify ((u.takeResult status).leaveSearch status) (.finished status)
        rw [noted.rest]
        rfl
    · cases solved

theorem Ready.status_of_addClause (h : s.Ready F) {d : List Lit} {b : Bool}
    (added : s.addClause d = (.ok b, t)) (notOk : t.engine.ok = false) : t.status = .unsat := by
  cases addClause_cases added with
  | closed notOk => exact absurd (h.settled.ok.symm.trans notOk) nofun
  -- A clause that is dropped leaves the engine alone, so nothing was found.
  | idle ok => exact absurd (ok.symm.trans notOk) nofun
  | @stored _ e =>
    have refuted : e.ok = false := notOk
    simp [refuted]

/-- Upkeep that finds the clauses contradictory answers no. -/
theorem Tidies.eq_no {log : List (List Lit)} {e f : Engine} {outcome : Except SolverError Bool}
    (tidies : Tidies F log e f outcome) (notOk : f.ok = false) : outcome = .ok false := by
  cases tidies with
  | refuted => rfl
  | settled tidied => exact absurd (tidied.working.settled.ok.symm.trans notOk) nofun

/-- A command that finds the clauses contradictory sets the status, unless it is a simplification. -/
theorem Ready.status_of_obeyed (h : s.Ready F) {d : Command} {accepted : List (List Lit)}
    (obeyed : s.Obeyed d accepted t) (notOk : t.engine.ok = false) : t.status = .unsat ∨ d = .simplify := by
  have same (ok : t.engine.ok = s.engine.ok) : t.status = .unsat ∨ d = .simplify :=
    absurd (h.settled.ok.symm.trans (ok.symm.trans notOk)) nofun
  cases obeyed with
  | simplified command => exact .inr command
  | added result => exact .inl (h.status_of_addClause result notOk)
  | created | told | refused => exact same rfl
  | ensured n => exact same (ok_newVars n s)
  | assumed result =>
    unfold Solver.addAssumption at result
    split at result <;> cases result
    exact same rfl
  | allowed result =>
    unfold Solver.setDecision at result
    split at result <;> cases result
    exact same rfl
  | preferred result =>
    unfold Solver.setPolarity at result
    split at result <;> cases result
    exact same rfl
  | @vivified minSize =>
    next result =>
    rcases called : s.vivifyQuietly minSize with ⟨outcome, u⟩
    obtain ⟨f, noted, tidies⟩ := vivifyQuietly_spec h.settled h.zero minSize called
    have engine : u.engine = f := noted.engine
    rw [Solver.vivify, called] at result
    rcases outcome with err | (_ | _) <;> cases result
    · cases tidies.eq_no (engine ▸ notOk)
    · exact .inl rfl
    · cases tidies.eq_no (engine ▸ notOk)

/-- A call that finds the clauses contradictory sets the status, unless it is a simplification. -/
theorem Ready.status_of_call (h : s.Ready F) (called : s.call steps c = .ok (answer, t))
    (notOk : t.engine.ok = false) : t.status = .unsat ∨ c = .obey .simplify := by
  cases c with
  | ask q =>
    cases called
    exact absurd (h.settled.ok.symm.trans notOk) nofun
  | obey d =>
    rcases h.status_of_obeyed (Solver.obeyed (Except.ok.inj called)) notOk with status | rfl
    · exact .inl status
    · exact .inr rfl
  | solve as =>
    obtain ⟨outcome, result, -⟩ := call_solve called
    rcases solveWith_cases result with ⟨err, -, -, rfl⟩ | ⟨u, known, solved, rfl⟩
    · exact absurd (h.settled.ok.symm.trans notOk) nofun
    · have concluded := (h.assuming known).solveKeeping solved
      cases concluded with
      | refuted =>
        have status : u.status = .unsat := status_solveKeeping solved
        exact .inl status
      | sat ready => exact absurd (ready.settled.ok.symm.trans notOk) nofun
      | blamed ready => exact absurd (ready.settled.ok.symm.trans notOk) nofun
      | interrupted ready => exact absurd (ready.settled.ok.symm.trans notOk) nofun
      | unknown ready => exact absurd (ready.settled.ok.symm.trans notOk) nofun
      | failed ready => exact absurd (ready.settled.ok.symm.trans notOk) nofun

/-! ### The calls after it -/

theorem addAssumptions_of_known (known : ∀ l ∈ as, s.checkLit l = .ok ()) :
    s.addAssumptions as = .ok (s.assuming as) := by
  induction as generalizing s with
  | nil => simp [addAssumptions, assuming]
  | cons l as ih =>
    have first : s.addAssumption l = .ok { s with assumptions := s.assumptions.push l } := by
      rw [addAssumption, known l List.mem_cons_self]
    rw [addAssumptions, first]
    dsimp only
    rw [ih (s := { s with assumptions := s.assumptions.push l })
      fun q member => known q (List.mem_cons_of_mem l member)]
    simp [assuming]

theorem checkLits_of_known {d : List Lit} (known : ∀ l ∈ d, s.checkLit l = .ok ()) :
    d.forM s.checkLit = .ok () := by
  induction d with
  | nil => rfl
  | cons l d ih =>
    change (s.checkLit l >>= fun _ => d.forM s.checkLit) = .ok ()
    rw [known l List.mem_cons_self]
    exact ih fun q member => known q (List.mem_cons_of_mem l member)

/-- From then on every call that can say so says that the clauses are contradictory. -/
theorem contradicted_of_not_ok (notOk : s.engine.ok = false) : s.Contradicted where
  notOk := notOk
  addClause := by
    intro steps d known
    refine ⟨{ s with given := s.recorded d }, ?_⟩
    change Except.ok (answering (s.addClause d)) = _
    rw [Solver.addClause, checkLits_of_known known, record_eq]
    dsimp only [takeIn]
    rw [notOk]
    rfl
  simplify := by
    intro steps
    refine ⟨s, ?_⟩
    change Except.ok (answering s.simplify) = _
    rw [simplify_of_not_ok notOk]
    rfl
  vivify := by
    intro steps minSize
    refine ⟨{ s with status := .unsat }, ?_, rfl⟩
    change Except.ok (answering (s.vivify minSize)) = _
    rw [Solver.vivify, vivifyQuietly, simplify_of_not_ok notOk]
    rfl
  solve := by
    intro steps as known
    refine ⟨{ s.assuming as with
      model := #[], core := s.core.clear, status := .unsat, assumptions := #[] }, ?_, rfl, rfl, rfl⟩
    change (s.solveWith steps as).map solved = _
    rw [solveWith, addAssumptions_of_known known]
    dsimp only
    rw [Solver.solve, solveKeeping_of_not_ok (s := s.assuming as) notOk]
    rfl

/-- Calls on contradictory clauses are answered. -/
theorem call_total_of_not_ok (notOk : s.engine.ok = false) (steps : Nat) (c : Call) :
    ∃ answer t, s.call steps c = .ok (answer, t) := by
  cases c with
  | ask q => exact ⟨_, _, rfl⟩
  | obey d => exact ⟨_, _, rfl⟩
  | solve as =>
    cases assumed : s.addAssumptions as with
    | error err =>
      refine ⟨.error err, { s with assumptions := #[] }, ?_⟩
      rw [call, solveWith, assumed]
      rfl
    | ok u =>
      obtain ⟨rfl, known⟩ := addAssumptions_eq assumed
      obtain ⟨t, called, -⟩ := (contradicted_of_not_ok notOk).solve steps as known
      exact ⟨_, t, called⟩

/-- A command on contradictory clauses leaves the status alone, unless it is a vivification. -/
theorem status_obey_of_not_ok (notOk : s.engine.ok = false) {d : Command}
    (called : s.obey d = (answer, t)) :
    t.status = if (Call.obey d).reports answer then .unsat else s.status := by
  have status_of_addClause (d : List Lit) : (s.addClause d).2.status = s.status := by
    rcases added : s.addClause d with ⟨answer, u⟩
    cases addClause_cases added with
    | rejected | closed => rfl
    | idle ok | full ok | stored ok => exact absurd (ok.symm.trans notOk) nofun
  -- All commands leave the status alone but for those that would search for a contradiction.
  cases d with
  | ensureVars n =>
    cases called
    have status_newVars (n : Nat) (s : Solver) : (newVars n s).status = s.status := by
      induction n generalizing s with
      | zero => rfl
      | succ n ih => exact ih _
    exact status_newVars _ _
  | addClause d =>
    have final : (answering (s.addClause d)).2 = t := congrArg Prod.snd called
    rw [answering_snd] at final
    exact final ▸ status_of_addClause d
  | block n =>
    have final : (s.addClause (s.model.blockingClause n)).2 = t := congrArg Prod.snd called
    exact final ▸ status_of_addClause _
  | addAssumption l =>
    simp only [Solver.obey, acting, Solver.addAssumption] at called
    cases checked : s.checkLit l <;> rw [checked] at called <;> cases called <;> rfl
  | setDecision v allowed =>
    simp only [Solver.obey, acting, Solver.setDecision] at called
    cases checked : s.checkVar v <;> rw [checked] at called <;> cases called <;> rfl
  | setPolarity v positive =>
    simp only [Solver.obey, acting, Solver.setPolarity] at called
    cases checked : s.checkVar v <;> rw [checked] at called <;> cases called <;> rfl
  | simplify =>
    simp only [Solver.obey, simplify_of_not_ok notOk, answering] at called
    cases called
    rfl
  | vivify minSize =>
    simp only [Solver.obey, Solver.vivify, vivifyQuietly, simplify_of_not_ok notOk, answering] at called
    cases called
    rfl
  | _ =>
    cases called
    rfl

/-- A call on contradictory clauses leaves the status alone, unless it reports it. -/
theorem status_call_of_not_ok (notOk : s.engine.ok = false) (called : s.call steps c = .ok (answer, t)) :
    t.status = if c.reports answer then .unsat else s.status := by
  cases c with
  | ask q =>
    cases called
    rfl
  | obey d => exact status_obey_of_not_ok notOk (Except.ok.inj called)
  | solve as =>
    obtain ⟨outcome, result, rfl⟩ := call_solve called
    rcases solveWith_cases result with ⟨err, -, rfl, rfl⟩ | ⟨u, -, solved, rfl⟩
    · rfl
    · rw [solveKeeping_of_not_ok (s := s.assuming as) notOk] at solved
      cases solved
      rfl

/-- After any further calls the clauses are still known to be contradictory, and a status that says
so still says so. -/
theorem run_of_not_ok (notOk : s.engine.ok = false) (steps : Nat) (calls : List Call) :
    ∃ answers t, s.run steps calls = .ok (answers, t) ∧ t.engine.ok = false ∧
      (s.status = .unsat → t.status = .unsat) := by
  induction calls generalizing s with
  | nil => exact ⟨[], s, rfl, notOk, id⟩
  | cons c calls ih =>
    obtain ⟨answer, u, called⟩ := call_total_of_not_ok notOk steps c
    obtain ⟨answers, t, ran, notOk', kept⟩ := ih (ok_call notOk called)
    refine ⟨answer :: answers, t, ?_, notOk', fun status => kept ?_⟩
    · rw [run, called]
      dsimp only
      rw [ran]
    · rw [status_call_of_not_ok notOk called, status, ite_self]

/-! ### Sessions -/

/-- The status says that the clauses are contradictory, unless a simplification found it and nothing
reported it since. -/
theorem History.reported (h : History F s) (notOk : s.engine.ok = false) :
    s.status = .unsat ∨ Unreported s.status s := by
  induction h with
  | create created =>
    obtain ⟨-, -, rfl⟩ := create_eq_ok_iff.mp created
    cases notOk
  | @call F s t before steps c answer called ih =>
    cases ok : s.engine.ok with
    | true =>
      have ready : s.Ready F := before.ready ok
      -- Only a simplification finds a contradiction without telling the status.
      rcases ready.status_of_call called notOk with status | rfl
      · exact .inl status
      · rcases done : s.simplify with ⟨outcome, u⟩
        obtain ⟨f, noted, tidies, -⟩ := simplify_spec ready.settled.working ready.zero done
        have final : t = u := by
          change Except.ok (answering s.simplify) = _ at called
          rw [done] at called
          cases outcome <;> exact (congrArg Prod.snd (Except.ok.inj called)).symm
        subst final
        have engine : t.engine = f := noted.engine
        rw [engine] at notOk
        have answered : outcome = .ok false := tidies.eq_no notOk
        have status : t.status = s.status := by rw [noted.rest]
        rw [status]
        exact .inr (.found before ok (answered ▸ done))
    | false =>
      have status := status_call_of_not_ok ok called
      cases reported : c.reports answer with
      | true =>
        rw [reported, if_pos rfl] at status
        exact .inl status
      | false =>
        rw [reported, if_neg Bool.false_ne_true] at status
        rw [status]
        exact (ih ok).imp id fun unreported => unreported.call called reported

/-- Once the clauses are known to be contradictory, they stay so through all calls, each of which says
so, and the status says so too, unless a simplification found it and nothing reported it since. -/
theorem permanent_of_contradiction (before : History F s) (notOk : s.engine.ok = false) :
    (s.status = .unsat ∨ Unreported s.status s) ∧
      ∀ steps calls, ∃ answers t, s.run steps calls = .ok (answers, t) ∧ t.Contradicted ∧
        (s.status = .unsat → t.status = .unsat) := by
  refine ⟨before.reported notOk, fun steps calls => ?_⟩
  obtain ⟨answers, t, ran, notOk', kept⟩ := run_of_not_ok notOk steps calls
  exact ⟨answers, t, ran, contradicted_of_not_ok notOk', kept⟩

/-- A solve is stopped after its first conflict taught a fact, and a simplification then finds what that
fact comes to. -/
theorem permanent_of_contradiction_interrupted : ∃ s,
    History (clausesOf [[1, 2], [1, -2], [-1, 2], [-1, -2]]) s ∧ s.engine.ok = false ∧
      s.status = .interrupted ∧ Unreported s.status s ∧
      ∀ steps calls, ∃ answers t, s.run steps calls = .ok (answers, t) ∧ t.Contradicted := by
  have passes : sessionPasses {} 9
      (giving 2 (clausesOf [[1, 2], [1, -2], [-1, 2], [-1, -2]]) ++
        [.obey (.setStopRule (some (Listener.stopAfter 3))), .solve [], .obey .simplify])
      (clausesOf [[1, 2], [1, -2], [-1, 2], [-1, -2]])
      (fun s => !s.engine.ok && s.status == .interrupted) = true := by
    decide +kernel
  obtain ⟨s, history, tests⟩ := exists_of_sessionPasses passes
  obtain ⟨refuted, status⟩ := Bool.and_eq_true_iff.mp tests
  have notOk : s.engine.ok = false := by simpa using refuted
  obtain ⟨reported, always⟩ := permanent_of_contradiction history notOk
  have unreported : Unreported s.status s :=
    reported.resolve_left fun unsat => by rw [eq_of_beq status] at unsat; cases unsat
  refine ⟨s, history, notOk, eq_of_beq status, unreported, fun steps calls => ?_⟩
  obtain ⟨answers, t, ran, contradicted, -⟩ := always steps calls
  exact ⟨answers, t, ran, contradicted⟩

end Solver

end Cdcl

import Cdcl.Proofs.GivenClauses
import Cdcl.Proofs.NewVariables
import Cdcl.Proofs.Solving
import Cdcl.Solver.Session

/-!
# Sessions

Between two calls a solver either knows its clauses to be contradictory, and then they are, or it is
ready: it answers for exactly the clauses it accepted. Every call keeps this up, whatever its answer.

## Main results

- `History.rests`: what holds after any number of calls.
- `Rests.status_of_solve`: what a solve that gives a status comes to.
-/

namespace Cdcl

/-- The clauses that a call answered in this way has given to the solver. -/
def Call.accepted : Call → Answer → List (List Lit)
  | .obey (.addClause c), .boolean _ => [c]
  | .obey (.block _), .blocked c (.ok _) => [c]
  | _, _ => []

/-- The clauses that calls answered in these ways have given to the solver. -/
def Call.acceptedAll : List Call → List Answer → List (List Lit)
  | c :: calls, a :: answers => c.accepted a ++ acceptedAll calls answers
  | _, _ => []

namespace Engine

section Initial

variable (opts : Options)

theorem coherent_initial : (initial opts).trail.Coherent 0 where
  bounded := fun l member => absurd member (Array.not_mem_empty l)
  distinct := by simp [initial]
  isTrue_iff := by
    intro l
    simp [initial, Trail.isTrue, Trail.valueLit, Trail.value, DenseMap.get_eq, Truth.ofLit, Truth.xor,
      Truth.neg]
  sorted := List.Pairwise.nil
  marks_le := fun m member => absurd member (Array.not_mem_empty m)
  head_le := Nat.le_refl _
  level_eq := by simp [initial]

theorem sound_initial : (initial opts).Sound [] where
  trail := coherent_initial opts
  justified := by simp [initial]
  proper := fun id used => absurd used nofun
  binary_bounded := by simp [initial, DenseMap.get_eq]
  tracked :=
    { exact := fun id attached => absurd attached nofun
      usable := nofun
      aside := nofun
      stale := by simp [initial, DenseMap.get_eq, entriesOf_empty]
      listed := by simp [initial, DenseMap.get_eq, DenseFlags.empty] }
  inside := by simp [initial, DenseMap.get_eq]
  blockers := by simp [initial, DenseMap.get_eq]
  blank := ⟨rfl, rfl, rfl, rfl⟩
  unseen := by simp [initial, DenseMap.get_eq]

/-- An engine without clauses answers for the empty formula. -/
theorem settled_initial : (initial opts).Settled [] where
  faithful := ⟨[],
    { sound := sound_initial opts
      listed := ⟨List.nodup_nil, List.nodup_nil, nofun, nofun, nofun⟩
      guarded := ⟨nofun, nofun⟩
      guards := ⟨nofun, nofun⟩
      offers := ⟨IndexedHeap.linked_empty, by simp [initial], fun v bound => absurd bound (Nat.not_lt_zero _)⟩
      apart := ⟨fun id used => absurd used nofun, by simp [initial, DenseMap.get_eq]⟩
      upheld := fun σ _ =>
        { clauses := fun id used => absurd used nofun
          binary := by simp [initial, DenseMap.get_eq]
          facts := nofun }
      held := nofun }⟩
  ok := rfl

end Initial

end Engine

namespace Solver

variable {F : List (List Lit)} {s t : Solver}

/-- The solver was created, and has accepted the clauses `F` in the calls since. -/
inductive History : List (List Lit) → Solver → Prop where
  | create {opts : Options} {listener : Listener} {s : Solver}
    (created : Solver.create opts listener = .ok s) : History [] s
  | call {F : List (List Lit)} {s t : Solver} (before : History F s) {steps : Nat} {c : Call}
    {answer : Answer} (called : s.call steps c = .ok (answer, t)) :
    History (F ++ c.accepted answer) t

/-- Calls that are made one after another. -/
theorem History.run {steps : Nat} {calls : List Call} {answers : List Answer} (before : History F s)
    (ran : s.run steps calls = .ok (answers, t)) : History (F ++ Call.acceptedAll calls answers) t := by
  induction calls generalizing F s answers with
  | nil =>
    cases ran
    rw [Call.acceptedAll, List.append_nil]
    · exact before
    · exact nofun
  | cons c calls ih =>
    unfold Solver.run at ran
    split at ran
    · cases ran
    next answer u called =>
      split at ran
      · cases ran
      next others v rest =>
        cases ran
        rw [Call.acceptedAll, ← List.append_assoc]
        exact ih (.call before called) rest

/-- A solver at rest that has accepted a formula. -/
def Rests (F : List (List Lit)) (s : Solver) : Prop := s.engine.Refuted F ∨ s.Ready F

/-! ### Clauses that are given -/

/-- A literal that passes its check is of a variable that was created. -/
theorem known_of_checkLit {l : Lit} (passed : s.checkLit l = .ok ()) :
    l.isSentinel = false ∧ l.var.index < s.engine.numVars := by
  unfold checkLit checkVar at passed
  split at passed
  · cases passed
  next regular =>
    split at passed
    next bound => exact ⟨by simpa using regular, bound⟩
    · cases passed

theorem checkLit_of_forM {c : List Lit} (passed : c.forM s.checkLit = .ok ()) :
    ∀ l ∈ c, s.checkLit l = .ok () := by
  induction c with
  | nil => exact nofun
  | cons l c ih =>
    change (s.checkLit l >>= fun _ => c.forM s.checkLit) = .ok () at passed
    cases first : s.checkLit l with
    | error err =>
      rw [first] at passed
      cases passed
    | ok =>
      rw [first] at passed
      exact List.forall_mem_cons.mpr ⟨first, ih passed⟩

/-- The log of clauses with one more, if the solver keeps a log. -/
def recorded (s : Solver) (c : List Lit) : ClauseLog :=
  if s.engine.opts.keepOriginals then s.given.push c else s.given

theorem record_eq (s : Solver) (c : List Lit) : s.record c = { s with given := s.recorded c } := by
  unfold record recorded
  split <;> rfl

/-- Taking a clause back leaves the solver as it was. -/
theorem unrecord_record (c : List Lit) (logged : s.engine.opts.keepOriginals = true → s.given = .of F) :
    (s.record c).unrecord = s := by
  rw [record_eq]
  unfold unrecord
  dsimp only
  split
  next keep => rw [recorded, if_pos keep, logged keep, ClauseLog.pop_push, ← logged keep]
  next drop => rw [recorded, if_neg drop]

/-- How a clause is taken in, and the answer to it. -/
inductive Taking (s : Solver) (c : List Lit) : Except SolverError Bool → Solver → Prop where
  | rejected {err : SolverError} (fails : c.forM s.checkLit = .error err) : Taking s c (.error err) s
  | closed (notOk : s.engine.ok = false) : Taking s c (.ok false) { s with given := s.recorded c }
  | idle (ok : s.engine.ok = true) (known : ∀ l ∈ c, l.isSentinel = false ∧ l.var.index < s.engine.numVars)
    (nothing : normalize s.engine.trail c = none) :
    Taking s c (.ok true) { s with given := s.recorded c, status := .unknown }
  | full {lits : List Lit} {err : SolverError} (ok : s.engine.ok = true)
    (known : ∀ l ∈ c, l.isSentinel = false ∧ l.var.index < s.engine.numVars)
    (left : normalize s.engine.trail c = some lits) (refused : addNormalized s.engine lits = .error err) :
    Taking s c (.error err) (s.record c).unrecord
  | stored {lits : List Lit} {e : Engine} (ok : s.engine.ok = true)
    (known : ∀ l ∈ c, l.isSentinel = false ∧ l.var.index < s.engine.numVars)
    (left : normalize s.engine.trail c = some lits) (added : addNormalized s.engine lits = .ok e) :
    Taking s c (.ok e.ok)
      { s with engine := e, given := s.recorded c, status := if e.ok then .unknown else .unsat }

theorem addClause_cases {c : List Lit} {answer : Except SolverError Bool} (result : s.addClause c = (answer, t)) :
    s.Taking c answer t := by
  unfold addClause at result
  split at result
  next fails =>
    cases result
    exact .rejected fails
  next passed =>
    have known : ∀ l ∈ c, l.isSentinel = false ∧ l.var.index < s.engine.numVars :=
      fun l inside => known_of_checkLit (checkLit_of_forM passed l inside)
    unfold takeIn at result
    -- The clause is recorded first, which the engine does not see.
    have engine : (s.record c).engine = s.engine := by rw [record_eq]
    rw [engine] at result
    split at result
    next notOk =>
      cases result
      rw [record_eq]
      exact .closed (by simpa using notOk)
    next isOk =>
      have ok : s.engine.ok = true := by simpa using isOk
      split at result
      next nothing =>
        cases result
        rw [record_eq]
        exact .idle ok known nothing
      next left =>
        split at result
        next refused =>
          cases result
          exact .full ok known left refused
        next added =>
          cases result
          rw [record_eq]
          exact .stored ok known left added

/-- A clause that is rejected, or for which there is no room, leaves at most a trace in the log. -/
theorem addClause_error {c : List Lit} {err : SolverError} (result : s.addClause c = (.error err, t)) :
    ∃ given, t = { s with given } := by
  cases addClause_cases result with
  | rejected => exact ⟨s.given, rfl⟩
  | full =>
    rw [record_eq]
    unfold unrecord
    split
    · exact ⟨_, rfl⟩
    · exact ⟨_, rfl⟩

/-- If the log is one of clauses, no trace is left. -/
theorem eq_of_addClause_error {c : List Lit} {err : SolverError}
    (logged : s.engine.opts.keepOriginals = true → s.given = .of F)
    (result : s.addClause c = (.error err, t)) : t = s := by
  cases addClause_cases result with
  | rejected => rfl
  | full => exact unrecord_record c logged

/-! ### Contradictory clauses -/

/-- Once the clauses are known to be contradictory, they stay so. -/
theorem simplify_of_not_ok (notOk : s.engine.ok = false) : s.simplify = (.ok false, s) := by
  unfold simplify Engine.simplify
  rw [notOk]
  rfl

theorem addClause_of_not_ok (notOk : s.engine.ok = false) {c : List Lit} {b : Bool}
    (result : s.addClause c = (.ok b, t)) : b = false ∧ t.engine = s.engine := by
  cases addClause_cases result with
  | closed => exact ⟨rfl, rfl⟩
  | idle ok | stored ok => exact absurd (ok.symm.trans notOk) nofun

/-- The solver with the assumptions that a solve adds to those made before. -/
def assuming (s : Solver) (as : List Lit) : Solver :=
  { s with assumptions := s.assumptions ++ as.toArray }

theorem addAssumptions_eq {as : List Lit} (result : s.addAssumptions as = .ok t) :
    t = s.assuming as ∧ ∀ l ∈ as, s.checkLit l = .ok () := by
  induction as generalizing s with
  | nil =>
    cases result
    exact ⟨by simp [assuming], nofun⟩
  | cons l as ih =>
    unfold addAssumptions addAssumption at result
    split at result
    · cases result
    next u first =>
      split at first
      · cases first
      next known =>
        cases first
        obtain ⟨rfl, others⟩ := ih result
        refine ⟨by simp [assuming], List.forall_mem_cons.mpr ⟨known, others⟩⟩

theorem ok_newVars (n : Nat) (s : Solver) : (newVars n s).engine.ok = s.engine.ok := by
  induction n generalizing s with
  | zero => rfl
  | succ n ih => exact ih _

/-- What a command comes to, and the clauses that the solver accepts by it. -/
inductive Obeyed (s : Solver) (d : Command) : List (List Lit) → Solver → Prop where
  | added {c : List Lit} {b : Bool} {t : Solver} (result : s.addClause c = (.ok b, t)) :
    Obeyed s d [c] t
  | refused {c : List Lit} {err : SolverError} {given : ClauseLog}
    (result : s.addClause c = (.error err, { s with given })) : Obeyed s d [] { s with given }
  | simplified (command : d = .simplify) {answer : Except SolverError Bool} {t : Solver}
    (result : s.simplify = (answer, t)) : Obeyed s d [] t
  | vivified {minSize : Nat} {answer : Except SolverError Bool} {t : Solver}
    (result : s.vivify minSize = (answer, t)) : Obeyed s d [] t
  | created (polarity : Truth) (decision : Bool) : Obeyed s d [] (s.newVar polarity decision).2
  | ensured (n : Nat) : Obeyed s d [] (newVars n s)
  | assumed {l : Lit} {t : Solver} (result : s.addAssumption l = .ok t) : Obeyed s d [] t
  | allowed {v : Var} {allowed : Bool} {t : Solver} (result : s.setDecision v allowed = .ok t) :
    Obeyed s d [] t
  | preferred {v : Var} {positive : Bool} {t : Solver} (result : s.setPolarity v positive = .ok t) :
    Obeyed s d [] t
  /-- The command is rejected, or it is about nothing but limits, stops and what is told. -/
  | told (listener : Listener) (budget : Budget) (interrupted : Bool) (verbosity : Nat) :
    Obeyed s d [] { s with listener, budget, interrupted, verbosity }

theorem Obeyed.rejected (s : Solver) (d : Command) : s.Obeyed d [] s :=
  .told s.listener s.budget s.interrupted s.verbosity

/-- A command that succeeds or is rejected. -/
theorem Obeyed.acting {d : Command} {answer : Answer} {result : Except SolverError Solver}
    (called : s.acting result = (answer, t)) (succeeds : ∀ {u}, result = .ok u → s.Obeyed d [] u) :
    s.Obeyed d [] t := by
  cases result with
  | error =>
    cases called
    exact .rejected s d
  | ok =>
    cases called
    exact succeeds rfl

theorem Obeyed.of_error {d : Command} {c : List Lit} {err : SolverError}
    (result : s.addClause c = (.error err, t)) : s.Obeyed d [] t := by
  obtain ⟨given, rfl⟩ := addClause_error result
  exact .refused result

theorem answering_snd (result : Except SolverError Bool × Solver) :
    (answering result).2 = result.2 := by
  obtain ⟨b | err, s⟩ := result <;> rfl

/-- Whatever a command does, it is one of these. -/
theorem obeyed {d : Command} {answer : Answer} (called : s.obey d = (answer, t)) :
    s.Obeyed d ((Call.obey d).accepted answer) t := by
  have final : (s.obey d).2 = t := congrArg Prod.snd called
  -- Where a clause is added, an error leaves the solver as it was, with nothing accepted.
  cases d with
  | newVar polarity decision =>
    cases called
    exact .created polarity decision
  | ensureVars n =>
    cases called
    exact .ensured _
  | addClause c =>
    change answering (s.addClause c) = (answer, t) at called
    rcases added : s.addClause c with ⟨err | b, u⟩
    all_goals
      rw [added] at called
      cases called
    · exact .of_error added
    · exact .added added
  | block n =>
    change s.block n = (answer, t) at called
    unfold block at called
    dsimp only at called
    rcases added : s.addClause (s.model.blockingClause n) with ⟨err | b, u⟩
    all_goals
      rw [added] at called
      cases called
    · exact .of_error added
    · exact .added added
  | addAssumption => exact .acting called .assumed
  | setDecision => exact .acting called .allowed
  | setPolarity => exact .acting called .preferred
  | simplify =>
    rw [obey, answering_snd] at final
    exact .simplified rfl (Prod.ext rfl final)
  | vivify minSize =>
    rw [obey, answering_snd] at final
    exact .vivified (Prod.ext rfl final)
  | _ =>
    cases called
    exact .told _ _ _ _

/-- No command makes up for a contradiction. -/
theorem Obeyed.notOk {d : Command} {c : List (List Lit)} (h : s.Obeyed d c t)
    (notOk : s.engine.ok = false) : t.engine.ok = false := by
  cases h with
  | added result => exact (congrArg Engine.ok (addClause_of_not_ok notOk result).2).trans notOk
  | simplified _ result =>
    rw [simplify_of_not_ok notOk] at result
    cases result
    exact notOk
  | vivified result =>
    unfold vivify vivifyQuietly at result
    rw [simplify_of_not_ok notOk] at result
    cases result
    exact notOk
  | created | told | refused => exact notOk
  | ensured n => exact (ok_newVars n s).trans notOk
  | assumed result =>
    unfold addAssumption at result
    split at result <;> cases result
    exact notOk
  | allowed result =>
    unfold Solver.setDecision at result
    split at result <;> cases result
    exact notOk
  | preferred result =>
    unfold Solver.setPolarity at result
    split at result <;> cases result
    exact notOk

/-- A solve of contradictory clauses says so. -/
theorem solveKeeping_of_not_ok (notOk : s.engine.ok = false) (steps : Nat) :
    solveKeeping steps s =
      .ok (.ok .unsat, { s with model := #[], core := s.core.clear, status := .unsat }) := by
  unfold solveKeeping
  dsimp only
  rw [notOk, Bool.not_false, if_pos rfl]

/-- A solve under more assumptions is one of the solver that has them, unless one is not acceptable. -/
theorem solveWith_cases {steps : Nat} {as : List Lit} {outcome : Outcome}
    (result : s.solveWith steps as = .ok (outcome, t)) :
    (∃ err, s.addAssumptions as = .error err ∧ outcome = .error err ∧
        t = { s with assumptions := #[] }) ∨
      ∃ u, (∀ l ∈ as, s.checkLit l = .ok ()) ∧
        (s.assuming as).solveKeeping steps = .ok (outcome, u) ∧ t = { u with assumptions := #[] } := by
  unfold solveWith at result
  split at result
  next err failed =>
    cases result
    exact .inl ⟨err, failed, rfl, rfl⟩
  next v assumed =>
    obtain ⟨rfl, known⟩ := addAssumptions_eq assumed
    unfold solve at result
    split at result
    · cases result
    next u solved =>
      cases result
      exact .inr ⟨u, known, solved, rfl⟩

/-- How the outcome of a solve is answered. -/
def answerOf : Outcome → Answer
  | .ok status => .status status
  | .error err => .error err

theorem solved_eq (outcome : Outcome) (s : Solver) : solved (outcome, s) = (answerOf outcome, s) := by
  cases outcome <;> rfl

/-- How a solve is called. -/
theorem call_solve {steps : Nat} {as : List Lit} {answer : Answer}
    (called : s.call steps (.solve as) = .ok (answer, t)) :
    ∃ outcome, s.solveWith steps as = .ok (outcome, t) ∧ answer = answerOf outcome := by
  change (s.solveWith steps as).map solved = .ok (answer, t) at called
  rcases result : s.solveWith steps as with fault | ⟨outcome, u⟩
  · rw [result] at called
    cases called
  · rw [result] at called
    change Except.ok (solved (outcome, u)) = .ok (answer, t) at called
    rw [solved_eq] at called
    cases called
    exact ⟨outcome, rfl, rfl⟩

theorem ok_call (notOk : s.engine.ok = false) {steps : Nat} {c : Call} {answer : Answer}
    (called : s.call steps c = .ok (answer, t)) : t.engine.ok = false := by
  cases c with
  | ask q =>
    cases called
    exact notOk
  | obey c => exact (obeyed (Except.ok.inj called)).notOk notOk
  | solve as =>
    obtain ⟨outcome, result, -⟩ := call_solve called
    rcases solveWith_cases result with ⟨err, -, rfl, rfl⟩ | ⟨u, -, solved, rfl⟩
    · exact notOk
    · have notOk' : (s.assuming as).engine.ok = false := notOk
      rw [solveKeeping_of_not_ok notOk'] at solved
      cases solved
      exact notOk'

/-! ### Commands -/

/-- What the search does not look at may be anything. -/
theorem Ready.congr (h : s.Ready F) (engine : t.engine = s.engine) (given : t.given = s.given)
    (assumptions : ∀ l ∈ t.assumptions, l.var.index < s.engine.numVars)
    (pure : t.pureLits = s.pureLits) : t.Ready F where
  settled := engine ▸ h.settled
  zero := engine ▸ h.zero
  checked := engine ▸ h.checked
  given := fun keep => given ▸ h.given (engine ▸ keep)
  known := engine ▸ h.known
  assumable := engine ▸ assumptions
  pure := pure.trans h.pure

/-- The engine was tidied up. -/
theorem Ready.tidied (h : s.Ready F) {f : Engine} (noted : Noted { s with engine := f } t)
    (tidied : Engine.Tidied F [] s.engine f) : t.Ready F := by
  have engine : t.engine = f := noted.engine
  have task := noted.sameTask tidied.framed.toScoped
  rw [← engine] at tidied
  refine ⟨tidied.working.settled, tidied.zero, task.scope.opts ▸ h.checked, ?_, ?_, ?_, ?_⟩
  · exact fun keep => task.given ▸ h.given (task.scope.opts ▸ keep)
  · exact task.scope.numVars ▸ h.known
  · rw [task.assumptions, task.scope.numVars]
    exact h.assumable
  · exact noted.pureLits.trans h.pure

/-- Simplification and vivification answer that the clauses are contradictory only if they are. -/
theorem Ready.tidies (h : s.Ready F) {f : Engine} {answer : Except SolverError Bool}
    (noted : Noted { s with engine := f } t) (tidies : Tidies F [] s.engine f answer) :
    Rests F t ∧ (answer = .ok false → t.engine.ok = false) := by
  have engine : t.engine = f := noted.engine
  cases tidies with
  | refuted refuted => exact ⟨.inl (engine ▸ refuted), fun _ => engine ▸ refuted.notOk⟩
  | settled tidied settles => exact ⟨.inr (h.tidied noted tidied), fun no => by cases no; cases settles⟩

theorem Ready.newVar (h : s.Ready F) (polarity : Truth) (decision : Bool) :
    (s.newVar polarity decision).2.Ready F where
  settled := h.settled.newVar polarity decision
  zero := h.zero
  checked := h.checked
  given := h.given
  known := fun c given l inside => Nat.lt_succ_of_lt (h.known c given l inside)
  assumable := fun l member => Nat.lt_succ_of_lt (h.assumable l member)
  pure := h.pure

theorem Ready.newVars (n : Nat) (h : s.Ready F) : (Solver.newVars n s).Ready F := by
  induction n generalizing s with
  | zero => exact h
  | succ n ih => exact ih (h.newVar .undecided true)

/-- The solver accepts a clause, and says whether that made the clauses contradictory. -/
theorem Ready.addClause (h : s.Ready F) {c : List Lit} {b : Bool}
    (result : s.addClause c = (.ok b, t)) : Rests (F ++ [c]) t ∧ b = t.engine.ok := by
  have given (keep : s.engine.opts.keepOriginals = true) : s.recorded c = .of (F ++ [c]) := by
    rw [recorded, if_pos keep, h.given keep, ClauseLog.of_append_singleton]
  have ready {e : Engine} {status : Status} (known : ∀ l ∈ c, l.isSentinel = false ∧ l.var.index < s.engine.numVars)
      (settled : e.Settled (F ++ [c])) (scope : s.engine.Scoped e) (zero : e.trail.level = 0) :
      Ready (F ++ [c]) { s with engine := e, given := s.recorded c, status } := by
    refine ⟨settled, zero, scope.opts ▸ h.checked, fun keep => given (scope.opts ▸ keep),
      scope.numVars ▸ fun d member l inside => ?_, ?_, h.pure⟩
    · rcases List.mem_append.mp member with old | new
      · exact h.known d old l inside
      · rw [List.mem_singleton.mp new] at inside
        exact (known l inside).2
    · dsimp only
      rw [scope.numVars]
      exact h.assumable
  cases addClause_cases result with
  | closed notOk => exact absurd (h.settled.ok.symm.trans notOk) nofun
  | idle ok known nothing =>
    have settled := h.settled.accept h.zero (normalize_eq_none (fun l inside => (known l inside).1) nothing)
    exact ⟨.inr (ready known settled (.refl _) h.zero), ok.symm⟩
  | stored ok known left added =>
    have normalized := normalize_eq_some (fun l inside => (known l inside).1) left
    refine ⟨?_, rfl⟩
    rcases h.settled.addNormalized h.zero normalized (fun l inside => (known l inside).2) added with
      refuted | ⟨settled, framed, zero⟩
    · exact .inl refuted
    · exact .inr (ready known settled framed.toScoped zero)

theorem Ready.setDecision (h : s.Ready F) {v : Var} {allowed : Bool}
    (result : s.setDecision v allowed = .ok t) : t.Ready F := by
  unfold Solver.setDecision checkVar at result
  split at result
  · cases result
  next known =>
    split at known
    next bound =>
      cases result
      exact ⟨h.settled.setDecision bound allowed, h.zero, h.checked, h.given, h.known, h.assumable, h.pure⟩
    · cases known

theorem Ready.setPolarity (h : s.Ready F) {v : Var} {positive : Bool}
    (result : s.setPolarity v positive = .ok t) : t.Ready F := by
  unfold Solver.setPolarity at result
  split at result
  · cases result
  · cases result
    exact ⟨h.settled.setPolarity v positive, h.zero, h.checked, h.given, h.known, h.assumable, h.pure⟩

theorem Ready.addAssumption (h : s.Ready F) {l : Lit} (result : s.addAssumption l = .ok t) :
    t.Ready F := by
  unfold Solver.addAssumption at result
  split at result
  · cases result
  next passed =>
    cases result
    refine ⟨h.settled, h.zero, h.checked, h.given, h.known, fun q member => ?_, h.pure⟩
    rcases Array.mem_push.mp member with old | rfl
    · exact h.assumable q old
    · exact (known_of_checkLit passed).2

/-- Whatever a command does, the solver answers for the clauses it accepted. -/
theorem Ready.obeyed (h : s.Ready F) {d : Command} {c : List (List Lit)} (obeyed : s.Obeyed d c t) :
    Rests (F ++ c) t := by
  have idle (ready : t.Ready F) : Rests (F ++ []) t := .inr ((List.append_nil F).symm ▸ ready)
  cases obeyed with
  | added result => exact (h.addClause result).1
  | refused result => exact idle ((eq_of_addClause_error h.given result).symm ▸ h)
  | created polarity decision => exact idle (h.newVar polarity decision)
  | ensured n => exact idle (h.newVars n)
  | assumed result => exact idle (h.addAssumption result)
  | allowed result => exact idle (h.setDecision result)
  | preferred result => exact idle (h.setPolarity result)
  | told => exact idle { h with }
  | simplified _ result =>
    obtain ⟨f, noted, tidies, -⟩ := simplify_spec h.settled.working h.zero result
    rw [List.append_nil]
    exact (h.tidies noted tidies).1
  | @vivified minSize =>
    next result =>
    rcases called : s.vivifyQuietly minSize with ⟨answer', u⟩
    obtain ⟨f, noted, tidies⟩ := vivifyQuietly_spec h.settled h.zero minSize called
    have rests := (h.tidies noted tidies).1
    rw [List.append_nil]
    rw [vivify, called] at result
    match answer' with
    | .ok false =>
      cases result
      exact rests.imp id fun ready => { ready with }
    | .ok true =>
      cases result
      exact rests
    | .error err =>
      cases result
      exact rests

/-! ### Solves -/

theorem Ready.assuming (h : s.Ready F) {as : List Lit} (known : ∀ l ∈ as, s.checkLit l = .ok ()) :
    (s.assuming as).Ready F := by
  refine ⟨h.settled, h.zero, h.checked, h.given, h.known, fun l member => ?_, h.pure⟩
  rcases Array.mem_append.mp member with old | new
  · exact h.assumable l old
  · exact (known_of_checkLit (known l (List.mem_toArray.mp new))).2

/-- The assumptions are used up by a solve. -/
theorem Ready.spent (h : s.Ready F) : ({ s with assumptions := #[] } : Solver).Ready F :=
  h.congr rfl rfl (fun l member => absurd member (Array.not_mem_empty l)) rfl

/-- After a solve the solver is ready again, unless the clauses turned out to be contradictory. -/
theorem Concluded.rests {outcome : Outcome} (h : Concluded F s outcome t) :
    Rests F { t with assumptions := #[] } := by
  cases h with
  | refuted refuted => exact .inl refuted
  | sat ready => exact .inr ready.spent
  | blamed ready => exact .inr ready.spent
  | interrupted ready => exact .inr ready.spent
  | unknown ready => exact .inr ready.spent
  | failed ready => exact .inr ready.spent

/-- What a solve under more assumptions comes to, unless one is not acceptable. -/
inductive Solved (F : List (List Lit)) (s : Solver) (as : List Lit) : Outcome → Solver → Prop where
  | unacceptable {err : SolverError} (failed : s.addAssumptions as = .error err) :
    Solved F s as (.error err) { s with assumptions := #[] }
  | concluded {outcome : Outcome} {t : Solver} (known : ∀ l ∈ as, s.checkLit l = .ok ())
    (concluded : Concluded F (s.assuming as) outcome t) :
    Solved F s as outcome { t with assumptions := #[] }

theorem Ready.solveWith (h : s.Ready F) {steps : Nat} {as : List Lit} {outcome : Outcome}
    (result : s.solveWith steps as = .ok (outcome, t)) : Solved F s as outcome t := by
  rcases solveWith_cases result with ⟨err, failed, rfl, rfl⟩ | ⟨u, known, solved, rfl⟩
  · exact .unacceptable failed
  · exact .concluded known ((h.assuming known).solveKeeping solved)

/-! ### Sessions -/

theorem accepted_solve (as : List Lit) (answer : Answer) : (Call.solve as).accepted answer = [] := by
  cases answer <;> rfl

theorem Rests.call (h : s.Rests F) {steps : Nat} {c : Call} {answer : Answer}
    (called : s.call steps c = .ok (answer, t)) : t.Rests (F ++ c.accepted answer) := by
  rcases h with refuted | ready
  · refine .inl ⟨ok_call refuted.notOk called, fun σ holds => ?_⟩
    exact refuted.unsatisfiable σ fun c given => holds c (List.mem_append_left _ given)
  · cases c with
    | ask q =>
      cases called
      rw [Call.accepted, List.append_nil]
      · exact .inr ready
      all_goals exact nofun
    | obey c => exact ready.obeyed (obeyed (Except.ok.inj called))
    | solve as =>
      obtain ⟨outcome, result, -⟩ := call_solve called
      rw [accepted_solve, List.append_nil]
      cases ready.solveWith result with
      | unacceptable => exact .inr ready.spent
      | concluded known concluded => exact concluded.rests

/-- After any number of calls, the solver is ready for the next, or its clauses are contradictory. -/
theorem History.rests (h : History F s) : s.Rests F := by
  induction h with
  | @create opts listener s created =>
    obtain ⟨checked, -, rfl⟩ := create_eq_ok_iff.mp created
    exact .inr ⟨Engine.settled_initial opts, rfl, checked, fun _ => rfl, nofun,
      fun l member => absurd member (Array.not_mem_empty l), rfl⟩
  | call before called ih => exact ih.call called

/-- What a solve that gives a status comes to. -/
theorem Rests.status_of_solve (h : s.Rests F) {steps : Nat} {as : List Lit} {status : Status}
    (called : s.call steps (.solve as) = .ok (.status status, t)) :
    (status = .unsat ∧ t.engine.Refuted F ∧ t.core.toList = []) ∨
      ∃ u, Concluded F (s.assuming as) (.ok status) u ∧ t = { u with assumptions := #[] } := by
  obtain ⟨outcome, result, answered⟩ := call_solve called
  have same : outcome = .ok status := by
    cases outcome with
    | ok =>
      cases answered
      rfl
    | error => cases answered
  subst same
  rcases h with refuted | ready
  · refine .inl ?_
    rcases solveWith_cases result with ⟨err, -, differs, -⟩ | ⟨u, -, solved, rfl⟩
    · cases differs
    · have notOk : (s.assuming as).engine.ok = false := refuted.notOk
      rw [solveKeeping_of_not_ok notOk] at solved
      cases solved
      exact ⟨rfl, ⟨refuted.notOk, refuted.unsatisfiable⟩, rfl⟩
  · refine .inr ?_
    generalize ended : (Except.ok status : Outcome) = outcome at result
    cases ready.solveWith result with
    | unacceptable => cases ended
    | concluded known concluded => exact ⟨_, ended ▸ concluded, rfl⟩

/-! ### Sessions that can be run -/

/-- Clauses by the numbers of their literals. -/
def clausesOf (numbers : List (List Int)) : List (List Lit) := numbers.map (·.map Lit.ofDimacs)

/-- The calls that create variables and give clauses. -/
def giving (n : Nat) (F : List (List Lit)) : List Call :=
  .obey (.ensureVars n) :: F.map fun c => .obey (.addClause c)

/-- Do these calls give these clauses to a new solver, and leave it in a state that passes a test? -/
def sessionPasses (opts : Options) (steps : Nat) (calls : List Call) (F : List (List Lit))
    (test : Solver → Bool) : Bool :=
  match Solver.create opts {} with
  | .error _ => false
  | .ok s =>
    match s.run steps calls with
    | .error _ => false
    | .ok (answers, t) => Call.acceptedAll calls answers == F && test t

theorem exists_of_sessionPasses {opts : Options} {steps : Nat} {calls : List Call}
    {test : Solver → Bool} (passes : sessionPasses opts steps calls F test = true) :
    ∃ s, History F s ∧ test s = true := by
  unfold sessionPasses at passes
  split at passes
  · cases passes
  next created =>
    split at passes
    · cases passes
    next answers t ran =>
      obtain ⟨given, tested⟩ := Bool.and_eq_true_iff.mp passes
      refine ⟨t, ?_, tested⟩
      rw [← eq_of_beq given, ← List.nil_append (Call.acceptedAll calls answers)]
      exact (History.create created).run ran

/-- Is a call answered, by an answer and a state that pass a test? -/
def callPasses (steps : Nat) (c : Call) (test : Answer → Solver → Bool) (s : Solver) : Bool :=
  match s.call steps c with
  | .error _ => false
  | .ok (answer, t) => test answer t

theorem exists_of_callPasses {steps : Nat} {c : Call} {test : Answer → Solver → Bool}
    (passes : s.callPasses steps c test = true) :
    ∃ answer t, s.call steps c = .ok (answer, t) ∧ test answer t = true := by
  unfold callPasses at passes
  split at passes
  · cases passes
  next answer t called => exact ⟨answer, t, called, passes⟩

/-- Does a simplification succeed, and leave a state that passes a test? -/
def simplifyPasses (test : Solver → Bool) (s : Solver) : Bool :=
  match s.simplify with
  | (.ok true, t) => test t
  | _ => false

theorem exists_of_simplifyPasses {test : Solver → Bool} (passes : s.simplifyPasses test = true) :
    ∃ t, s.simplify = (.ok true, t) ∧ test t = true := by
  unfold simplifyPasses at passes
  split at passes
  next t simplified => exact ⟨t, simplified, passes⟩
  next => cases passes

end Solver

/-- Is the answer this status? -/
def Answer.isStatus (status : Status) : Answer → Bool
  | .status s => s == status
  | _ => false

theorem Answer.eq_of_isStatus {status : Status} {answer : Answer}
    (holds : answer.isStatus status = true) : answer = .status status := by
  unfold isStatus at holds
  split at holds
  · rw [eq_of_beq holds]
  · cases holds

/-- Is the answer no? -/
def Answer.isFalse : Answer → Bool
  | .boolean b => !b
  | _ => false

theorem Answer.eq_of_isFalse {answer : Answer} (holds : answer.isFalse = true) :
    answer = .boolean false := by
  unfold isFalse at holds
  split at holds
  next b =>
    cases b with
    | false => rfl
    | true => cases holds
  · cases holds

end Cdcl

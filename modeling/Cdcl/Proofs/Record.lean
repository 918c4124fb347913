import Cdcl.Proofs.FixedOptions
import Cdcl.Proofs.Normalization

/-!
# The record of given clauses

A solver that keeps the clauses as they were given keeps all that it accepted, in order, and no
others. A clause is recorded before it is known whether it fits, and taken back if it does not, which
leaves the solver as it was.

## Main results

- `rejects_of_addClause`, `Rejects.addClause`: what a rejection means, and when it happens.
- `addClause_eq_error_iff`: which clauses are rejected.
- `Reached.given_eq`: what was recorded is what was accepted.
- `record_of_reached`: what becomes of a clause and of the record when it is given.
-/

namespace Cdcl

namespace Solver

open Engine

variable {F : List (List Lit)} {s t : Solver} {c lits : List Lit} {steps : Nat} {answer : Answer}

/-! ### What upkeep leaves alone -/

/-- A part of the solver that depends neither on the engine nor on the listener, nor on the status or on
whether the pure literals are up to date. -/
def Undisturbed {α : Type} (read : Solver → α) : Prop :=
  ∀ (s : Solver) (engine : Engine) (listener : Listener) (stale : Bool) (status : Status),
    read { s with engine, listener, pureLitsStale := stale, status } = read s

namespace Undisturbed

variable {α : Type} {read : Solver → α} (h : Undisturbed read) (s : Solver)

include h

theorem reportProgress : read s.reportProgress = read s := by
  unfold Solver.reportProgress
  split
  · rfl
  · exact h s _ _ _ _

theorem settle : read s.settle.2 = read s := by
  rcases result : s.settle with ⟨answer, t⟩
  cases settle_cases result with
  | idle | full => rfl
  | compacted => exact h s _ _ _ _

theorem simplify : read s.simplify.2 = read s := by
  unfold Solver.simplify
  split
  · exact h s _ _ _ _
  · exact h s _ _ _ _
  · exact (h.settle _).trans (h s _ _ _ _)

theorem vivifyQuietly (minSize : Nat) : read (s.vivifyQuietly minSize).2 = read s := by
  have same := h.simplify s
  rcases result : s.vivifyQuietly minSize with ⟨answer, t⟩
  cases vivifyQuietly_cases result with
  | stopped simplified => exact simplified ▸ same
  | @refuted u simplified =>
    rw [simplified] at same
    exact (h u _ _ _ _).trans same
  | @settled t u answer simplified ok settles =>
    rw [simplified] at same
    have settled := h.settle { u with engine := u.engine.vivifyAll minSize }
    rw [settles] at settled
    exact settled.trans ((h u _ _ _ _).trans same)

theorem vivify (minSize : Nat) : read (s.vivify minSize).2 = read s := by
  have same := h.vivifyQuietly s minSize
  unfold Solver.vivify
  generalize s.vivifyQuietly minSize = result at same ⊢
  rcases result with ⟨_ | fine, t⟩
  · exact same
  · cases fine
    · exact (h t _ _ _ _).trans same
    · exact same

theorem prepare : read s.prepare.2 = read s := by
  have simplified := h.simplify s
  unfold Solver.prepare
  generalize s.simplify = result at simplified ⊢
  rcases result with ⟨_ | fine, t⟩
  · exact simplified
  · cases fine with
    | false => exact simplified
    | true =>
      dsimp only
      split
      · exact (h.vivifyQuietly t _).trans simplified
      · exact simplified

theorem reduceIfDue : read s.reduceIfDue.2 = read s := by
  have reduced : read s.reduce.2 = read s :=
    (h.settle _).trans ((h.reportProgress _).trans (h s _ _ _ _))
  unfold Solver.reduceIfDue
  split
  · generalize s.reduce = result at reduced ⊢
    rcases result with ⟨_ | _, t⟩
    · exact reduced
    · exact reduced
  · rfl

end Undisturbed

/-! ### What is recorded by each call -/

theorem undisturbed_given : Undisturbed Solver.given := fun _ _ _ _ _ => rfl

theorem given_upkeep {u : Upkeep} (result : s.upkeep = (u, t)) : t.given = s.given := by
  have first {answer : Except SolverError Bool} {v : Solver} (simplified : s.simplify = (answer, v)) :
      v.given = s.given := by
    have same := undisturbed_given.simplify s
    rwa [simplified] at same
  have second {v w : Solver} {u : Upkeep} (simplified : s.simplify = (.ok true, v))
      (reduced : v.reduceIfDue = (u, w)) : w.given = s.given := by
    have same := undisturbed_given.reduceIfDue v
    rw [reduced] at same
    exact same.trans (first simplified)
  cases upkeep_cases result with
  | failed simplified | refuted simplified => exact first simplified
  | broken simplified reduced => exact second simplified reduced
  | done simplified reduced =>
    have same := second simplified reduced
    split
    · exact same
    · exact same

theorem given_branch {r : StepResult} (result : s.branch = (r, t)) : t.given = s.given := by
  cases branch_cases result <;> rfl

theorem given_resumed (s : Solver) : s.resumed.given = s.given := by
  unfold resumed
  split
  · exact undisturbed_given.reportProgress _
  · rfl

theorem given_withinBudget {within : Bool} (checked : s.withinBudget = (within, t)) : t.given = s.given :=
  ((noted_withinBudget checked).1.sameTask (.refl _)).given

theorem given_advance {r : StepResult} (result : s.advance = (r, t)) : t.given = s.given := by
  cases advance_cases result with
  | limited checked => exact given_withinBudget checked
  | @rested _ u _ checked zero rests =>
    refine Eq.trans ?_ ((given_resumed u).trans (given_withinBudget checked))
    cases rests with
    | refuted upkept | failed upkept | propagateFirst upkept => exact given_upkeep upkept
    | decided upkept decides => exact (given_branch decides).trans (given_upkeep upkept)
  | decided checked _ _ decides => exact (given_branch decides).trans (given_withinBudget checked)

theorem given_stopRequested {stop : Bool} (asked : s.stopRequested = (stop, t)) : t.given = s.given :=
  ((noted_stopRequested asked).sameTask (.refl _)).given

theorem given_searchStep {result : StepResult} (stepped : s.searchStep = .ok (result, t)) :
    t.given = s.given := by
  cases searchStep_cases stepped with
  | stopped asked => exact given_stopRequested asked
  | advanced proceeds advances =>
    obtain ⟨asked, -⟩ := proceeds
    have same := given_stopRequested asked
    exact (given_advance advances).trans same
  | refuted conflicts | failed conflicts | learnt conflicts =>
    obtain ⟨asked, -⟩ := conflicts
    have same := given_stopRequested asked
    exact same

theorem given_search {outcome : Outcome} (searched : s.search steps = .ok (outcome, t)) :
    t.given = s.given := by
  induction steps generalizing s with
  | zero => cases searched
  | succ n ih =>
    unfold search at searched
    split at searched
    · cases searched
    next stepped => exact (ih searched).trans (given_searchStep stepped)
    next stepped =>
      cases searched
      exact given_searchStep stepped
    next stepped =>
      cases searched
      exact given_searchStep stepped

theorem given_decideStatus {outcome : Outcome} (decided : s.decideStatus steps = .ok (outcome, t)) :
    t.given = s.given := by
  have asked : s.stopRequested.2.given = s.given := given_stopRequested rfl
  unfold decideStatus at decided
  generalize s.stopRequested = request at asked decided
  rcases request with ⟨_ | _, u⟩
  · dsimp only at decided
    split at decided
    · cases decided
      exact asked
    · have prepared := (undisturbed_given.prepare u).trans asked
      unfold prepareAndSearch at decided
      generalize u.prepare = result at prepared decided
      rcases result with ⟨_ | fine, v⟩
      · cases decided
        exact prepared
      · cases fine with
        | false =>
          cases decided
          exact prepared
        | true => exact (given_search decided).trans prepared
  · cases decided
    exact asked

theorem given_takeResult (s : Solver) (status : Status) : (s.takeResult status).given = s.given := by
  cases status with
  | unsat =>
    change (if s.core.isEmpty then s.mapEngine refute else s).given = s.given
    split <;> rfl
  | sat => rfl
  | interrupted => rfl
  | unknown => rfl

theorem given_solveKeeping {outcome : Outcome} (solved : s.solveKeeping steps = .ok (outcome, t)) :
    t.given = s.given := by
  have timed (u : Solver) : u.setDeadline.given = u.given := by
    obtain ⟨listener, budget, same, -⟩ := u.setDeadline_eq
    rw [same]
  unfold solveKeeping at solved
  dsimp only at solved
  split at solved
  · cases solved
    rfl
  · split at solved
    · split at solved
      · cases solved
      next decided =>
        cases solved
        have kept := given_decideStatus decided
        exact kept.trans (timed _)
      next status u decided =>
        cases solved
        have kept := given_decideStatus decided
        exact (given_takeResult u status).trans (kept.trans (timed _))
    · cases solved

theorem given_newVars (n : Nat) (s : Solver) : (newVars n s).given = s.given := by
  induction n generalizing s with
  | zero => rfl
  | succ n ih => exact ih _

/-- These clauses were recorded, if the solver keeps a record. -/
def Records (s : Solver) (more : List (List Lit)) (t : Solver) : Prop :=
  t.given = if s.engine.opts.keepOriginals then more.foldl ClauseLog.push s.given else s.given

theorem Records.nothing (same : t.given = s.given) : s.Records [] t := by
  unfold Records
  rw [same]
  split <;> rfl

theorem records_addClause {b : Bool} (added : s.addClause c = (.ok b, t)) : s.Records [c] t := by
  cases addClause_cases added <;> rfl

section Logged

variable (logged : s.engine.opts.keepOriginals = true → s.given = .of F)

include logged

theorem records_obeyed {d : Command} {more : List (List Lit)} (obeyed : s.Obeyed d more t) :
    s.Records more t := by
  cases obeyed with
  | added result => exact records_addClause result
  | refused result =>
    -- What was recorded before there was found to be no room is taken back.
    exact .nothing (congrArg given (eq_of_addClause_error logged result))
  | created | told => exact .nothing rfl
  | ensured n => exact .nothing (given_newVars n s)
  | assumed result =>
    unfold addAssumption at result
    split at result <;> cases result
    exact .nothing rfl
  | allowed result =>
    unfold Solver.setDecision at result
    split at result <;> cases result
    exact .nothing rfl
  | preferred result =>
    unfold Solver.setPolarity at result
    split at result <;> cases result
    exact .nothing rfl
  | simplified _ result =>
    have same := undisturbed_given.simplify s
    rw [result] at same
    exact .nothing same
  | @vivified minSize =>
    next result =>
    have same := undisturbed_given.vivify s minSize
    rw [result] at same
    exact .nothing same

/-- A call records the clauses that it accepts. -/
theorem records_call {d : Call} (called : s.call steps d = .ok (answer, t)) :
    s.Records (d.accepted answer) t := by
  cases d with
  | ask q =>
    cases called
    have nothing : (Call.ask q).accepted (s.ask q) = [] := by
      unfold Call.accepted
      rfl
    exact nothing ▸ .nothing rfl
  | obey d => exact records_obeyed logged (obeyed (Except.ok.inj called))
  | solve as =>
    obtain ⟨outcome, result, -⟩ := call_solve called
    rw [accepted_solve]
    refine .nothing ?_
    rcases solveWith_cases result with ⟨err, -, -, rfl⟩ | ⟨u, -, solved, rfl⟩
    · rfl
    · have same := given_solveKeeping solved
      exact same

end Logged

/-- The options of a solver stay. -/
theorem History.opts_call (h : History F s) {d : Call} (called : s.call steps d = .ok (answer, t)) :
    t.engine.opts = s.engine.opts := (rounds_call h.rests called).turns.opts h.orderly

theorem History.given_eq (h : History F s) (keep : s.engine.opts.keepOriginals = true) :
    s.given = .of F := by
  induction h with
  | create created =>
    obtain ⟨-, -, rfl⟩ := create_eq_ok_iff.mp created
    rfl
  | call before called ih =>
    rw [before.opts_call called] at keep
    have recorded := records_call ih called
    unfold Records at recorded
    rw [recorded, if_pos keep, ih keep, ClauseLog.of, ClauseLog.of, List.foldl_append]

/-- In a search the record is the one from before it. -/
theorem Searched.given_eq (h : Searched F s) (keep : s.engine.opts.keepOriginals = true) :
    s.given = .of F := by
  induction h with
  | @start s _ _ as before ok assumed starts =>
    obtain ⟨-, task, -⟩ := (before.ready ok).search assumed starts
    obtain ⟨listener, budget, same, -⟩ := (s.assuming as).setDeadline_eq
    rw [same] at task
    rw [task.given]
    exact before.given_eq (task.scope.opts ▸ keep)
  | step before stepped ih =>
    obtain ⟨log, searching⟩ := before.searching
    obtain ⟨-, -, task, -⟩ := searching.next stepped
    rw [task.given]
    exact ih (task.scope.opts ▸ keep)

theorem Reached.given_eq (h : Reached F s) (keep : s.engine.opts.keepOriginals = true) :
    s.given = .of F := by
  cases h with
  | rest before => exact before.given_eq keep
  | search before => exact before.given_eq keep

/-! ### Rejected clauses -/

/-- What a clause is rejected with. -/
inductive Rejects (s : Solver) (c : List Lit) : SolverError → Prop
  /-- The first literal that is not known is none at all. -/
  | sentinel {before after : List Lit} {l : Lit} (split : c = before ++ l :: after)
    (known : ∀ q ∈ before, s.Knows q) (sentinel : l.isSentinel = true) : Rejects s c (.invalidLit l)
  | unknown {before after : List Lit} {l : Lit} (split : c = before ++ l :: after)
    (known : ∀ q ∈ before, s.Knows q) (usable : l.isSentinel = false)
    (absent : s.engine.numVars ≤ l.var.index) : Rejects s c (.unknownVar l.var)
  /-- No header can count the literals that are left of the clause. -/
  | large {lits : List Lit} (ok : s.engine.ok = true) (known : ∀ l ∈ c, s.Knows l)
    (new : ¬ Moot s.engine.trail c) (residue : Residue s.engine.trail c lits)
    (large : Header.maxSize < lits.length) : Rejects s c (.clauseTooLarge lits.length)
  /-- The arena has too few words left for what is left of the clause. -/
  | full {lits : List Lit} (ok : s.engine.ok = true) (known : ∀ l ∈ c, s.Knows l)
    (new : ¬ Moot s.engine.trail c) (residue : Residue s.engine.trail c lits) (long : 3 ≤ lits.length)
    (small : lits.length ≤ Header.maxSize)
    (exceeds : s.engine.arena.space.limit < s.engine.arena.space.used + (1 + lits.length)) :
    Rejects s c (.arenaExhausted (s.engine.arena.space.used + (1 + lits.length))
      s.engine.arena.space.limit)

/-- The check of the literals stops at the first one that is not known. -/
theorem checkLits_eq_error_iff {err : SolverError} : c.forM s.checkLit = .error err ↔
    ∃ before l after, c = before ++ l :: after ∧ (∀ q ∈ before, s.Knows q) ∧
      s.checkLit l = .error err := by
  -- The check stops at the first bad literal: either that is the first one, or it is among the rest.
  induction c with
  | nil => exact ⟨nofun, fun ⟨before, l, after, split, _⟩ => absurd split (by simp)⟩
  | cons q c ih =>
    change (s.checkLit q >>= fun _ => c.forM s.checkLit) = .error err ↔ _
    cases first : s.checkLit q with
    | error other =>
      constructor
      · intro fails
        cases fails
        exact ⟨[], q, c, rfl, nofun, first⟩
      · rintro ⟨before, l, after, split, known, fails⟩
        cases before with
        | nil =>
          cases split
          exact first.symm.trans fails
        | cons p before =>
          cases split
          cases first.symm.trans (checkLit_of_knows (known q List.mem_cons_self))
    | ok =>
      change c.forM s.checkLit = .error err ↔ _
      rw [ih]
      constructor
      · rintro ⟨before, l, after, rfl, known, fails⟩
        exact ⟨q :: before, l, after, rfl, List.forall_mem_cons.mpr ⟨known_of_checkLit first, known⟩, fails⟩
      · rintro ⟨before, l, after, split, known, fails⟩
        cases before with
        | nil =>
          cases split
          cases first.symm.trans fails
        | cons p before =>
          cases split
          exact ⟨before, l, after, rfl, fun r member => known r (List.mem_cons_of_mem q member), fails⟩

theorem checkLit_eq_error_iff {l : Lit} {err : SolverError} : s.checkLit l = .error err ↔
    l.isSentinel = true ∧ err = .invalidLit l ∨
      l.isSentinel = false ∧ s.engine.numVars ≤ l.var.index ∧ err = .unknownVar l.var := by
  unfold checkLit checkVar
  cases l.isSentinel with
  | true => simp [eq_comm]
  | false =>
    by_cases bound : l.var.index < s.engine.numVars
    · simp [bound]
    · simp [bound, Nat.not_lt.mp bound, eq_comm]

/-- What makes a clause fail is one of the reasons to reject it. -/
theorem rejects_of_addClause (h : History F s) {err : SolverError} (fails : (s.addClause c).1 = .error err) :
    s.Rejects c err := by
  cases checked : c.forM s.checkLit with
  | error other =>
    obtain ⟨before, l, after, split, known, bad⟩ := checkLits_eq_error_iff.mp checked
    rw [addClause, checked] at fails
    cases fails
    rcases checkLit_eq_error_iff.mp bad with ⟨sentinel, rfl⟩ | ⟨usable, absent, rfl⟩
    · exact .sentinel split known sentinel
    · exact .unknown split known usable absent
  | ok =>
    have known (l : Lit) (inside : l ∈ c) : s.Knows l :=
      known_of_checkLit (checkLit_of_forM checked l inside)
    by_cases ok : s.engine.ok = true
    · by_cases new : Moot s.engine.trail c
      · obtain ⟨t, result, -⟩ := addClause_of_moot ok known new
        rw [result] at fails
        cases fails
      · obtain ⟨lits, normalized⟩ := Option.ne_none_iff_exists'.mp
          (new.imp (normalize_eq_none_iff fun l inside => (known l inside).1).mp)
        have residue := ((normalize_eq_some_iff fun l inside => (known l inside).1).mp normalized).2
        -- Only what is left of the clause can be refused then, for want of room.
        rcases added : addNormalized s.engine lits with err' | f
        · rw [addClause_of_full ok known h.given_eq normalized added] at fails
          cases fails
          rcases addNormalized_eq_error_iff.mp added with ⟨large, rfl⟩ | ⟨long, small, exceeds, rfl⟩
          · exact .large ok known new residue large
          · exact .full ok known new residue long small exceeds
        · obtain ⟨t, result, -⟩ := addClause_of_stored ok known normalized added
          rw [result] at fails
          cases fails
    · rw [addClause_of_knows known, takeIn, Bool.eq_false_iff.mpr ok] at fails
      cases fails

theorem Rejects.addClause (h : History F s) {err : SolverError} (rejects : s.Rejects c err) :
    (s.addClause c).1 = .error err := by
  have refused {lits : List Lit} (ok : s.engine.ok = true) (known : ∀ l ∈ c, s.Knows l)
      (new : ¬ Moot s.engine.trail c) (residue : Residue s.engine.trail c lits)
      (fails : addNormalized s.engine lits = .error err) : (s.addClause c).1 = .error err := by
    have normalized := (normalize_eq_some_iff fun l inside => (known l inside).1).mpr ⟨new, residue⟩
    rw [addClause_of_full ok known h.given_eq normalized fails]
  cases rejects with
  | sentinel split known sentinel =>
    rw [Solver.addClause, checkLits_eq_error_iff.mpr
      ⟨_, _, _, split, known, checkLit_eq_error_iff.mpr (.inl ⟨sentinel, rfl⟩)⟩]
  | unknown split known usable absent =>
    rw [Solver.addClause, checkLits_eq_error_iff.mpr
      ⟨_, _, _, split, known, checkLit_eq_error_iff.mpr (.inr ⟨usable, absent, rfl⟩)⟩]
  | large ok known new residue large =>
    exact refused ok known new residue (addNormalized_eq_error_iff.mpr (.inl ⟨large, rfl⟩))
  | full ok known new residue long small exceeds =>
    exact refused ok known new residue (addNormalized_eq_error_iff.mpr (.inr ⟨long, small, exceeds, rfl⟩))

/-- A clause is rejected for its first bad literal, or because what is left of it does not fit. -/
theorem addClause_eq_error_iff (h : History F s) {err : SolverError} :
    (s.addClause c).1 = .error err ↔ s.Rejects c err :=
  ⟨rejects_of_addClause h, (·.addClause h)⟩

/-- What is read back is what was accepted, at any time. A clause is either rejected, and then the solver
is what it was, its log included, or accepted, and then it is recorded last. -/
theorem record_of_reached (h : Reached F s) :
    (s.engine.opts.keepOriginals = true → s.given = .of F ∧ s.ask .given = .clauses F) ∧
    ∀ (_ : History F s) (steps : Nat) (c : List Lit),
      (∃ err, s.Rejects c err ∧ s.call steps (.obey (.addClause c)) = .ok (.error err, s)) ∨
      (∃ b t, (∀ err, ¬ s.Rejects c err) ∧ s.call steps (.obey (.addClause c)) = .ok (.boolean b, t) ∧
        History (F ++ [c]) t ∧ (s.engine.opts.keepOriginals = true → t.given = s.given.push c)) := by
  refine ⟨fun keep => ⟨h.given_eq keep, ?_⟩, fun history steps c => ?_⟩
  · change Answer.clauses s.given.clauses = _
    rw [h.given_eq keep, ClauseLog.clauses_of]
  · have call : s.call steps (.obey (.addClause c)) = .ok (answering (s.addClause c)) := rfl
    have rejects (err : SolverError) : (s.addClause c).1 = .error err ↔ s.Rejects c err :=
      addClause_eq_error_iff history
    rcases added : s.addClause c with ⟨err | b, t⟩
    · rw [added] at call rejects
      rw [eq_of_addClause_error history.given_eq added] at call
      exact .inl ⟨err, (rejects err).mp rfl, call⟩
    · rw [added] at call rejects
      refine .inr ⟨b, t, fun err rejected => ?_, call, history.call call, fun keep => ?_⟩
      · cases (rejects err).mpr rejected
      · exact (records_addClause added).trans (if_pos keep)

/-- There is room for one clause of three literals, and none for another one. -/
theorem record_of_reached_full : ∃ s, Reached (clausesOf [[1, 2, 3]]) s ∧
    s.given = .of (clausesOf [[1, 2, 3]]) ∧ s.ask .given = .clauses (clausesOf [[1, 2, 3]]) ∧
    s.call 9 (.obey (.addClause ([-1, -2, -3].map Lit.ofDimacs))) = .ok (.error (.arenaExhausted 8 7), s) := by
  have passes : sessionPasses { keepOriginals := true, maxArenaWords := 7 } 9
      (giving 3 (clausesOf [[1, 2, 3]])) (clausesOf [[1, 2, 3]]) (fun s =>
        s.engine.opts.keepOriginals &&
          decide ((s.addClause ([-1, -2, -3].map Lit.ofDimacs)).1 = .error (.arenaExhausted 8 7))) =
      true := by
    decide +kernel
  obtain ⟨s, history, tests⟩ := exists_of_sessionPasses passes
  obtain ⟨keep, full⟩ := Bool.and_eq_true_iff.mp tests
  obtain ⟨given, giving⟩ := record_of_reached (.rest history)
  refine ⟨s, .rest history, (given keep).1, (given keep).2, ?_⟩
  have refused := of_decide_eq_true full
  have rejects := (addClause_eq_error_iff history).mp refused
  rcases giving history 9 ([-1, -2, -3].map Lit.ofDimacs) with ⟨err, -, call⟩ | ⟨b, t, accepts, -⟩
  · have answers : Except.ok (answering (s.addClause _)) = Except.ok (Answer.error err, s) := call
    rcases added : s.addClause ([-1, -2, -3].map Lit.ofDimacs) with ⟨answer, t⟩
    rw [added] at refused answers
    cases refused
    cases answers
    exact call
  · exact absurd rejects (accepts _)

end Solver

end Cdcl

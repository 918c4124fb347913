import Cdcl.Solver.Basic

/-!
# Solving

The search alternates between propagation and decisions. A conflict teaches a clause and takes the
search back to where that clause implies a literal. Assumptions come first, one decision level
each, then pure literals, then branching. The search ends with a model when nothing is left to
decide, with a refutation when a conflict arises at level zero, and with a core when an assumption
is found false.

One step of the search is `searchStep`; `search` repeats it, and is given an allowance of steps.
-/

namespace Cdcl

/-- What a step of the search comes to. -/
inductive StepResult where
  | continue
  | finished (s : Status)
  | failed (e : SolverError)

/-- What opening the levels of the assumptions comes to. -/
inductive Assumed where
  /-- All literals to assume are true or to be skipped. -/
  | all
  /-- This literal is next to be assumed. -/
  | next (l : Lit)
  /-- This assumption is false. -/
  | violated (l : Lit)

namespace Engine

/-- Open a level for each literal to assume that is decided already, up to one that is not, or an
assumption that is false. A pure literal that is false is skipped. -/
def openAssumed : List (Lit × Bool) → Engine → Assumed × Engine
  | [], e => (.all, e)
  | (l, assumption) :: rest, e =>
    match e.trail.valueLit l with
    | .undecided => (.next l, e)
    | .no => if assumption then (.violated l, e) else openAssumed rest e.openLevel
    | .yes => openAssumed rest e.openLevel

/-- Add a learnt clause and assign its first literal, after the search went back. -/
def addLearnt (e : Engine) (c : Learnt) : Except SolverError Engine :=
  match c.lits.toList with
  | [] => .ok e
  | [l] => .ok (e.assign l .decision)
  | [l, other] => .ok ((e.addBinary l other true).assign l (.binary other))
  | l :: _ =>
    match e.storeLearnt c.lits c.lbd with
    | .error err => .error err
    | .ok (id, e) => .ok (e.assign l (.clause id))

/-- Let the policy take a conflict into account. -/
def noteConflict (e : Engine) (lbd trailSize : Nat) : Engine :=
  let (policy, blocked) := e.policy.noteConflict e.opts e.stats.conflicts lbd trailSize
  let e := { e with policy }
  if blocked then e.modifyStats fun s => { s with blockedRestarts := s.blockedRestarts + 1 }
  else e

/-- How a conflict was handled. Even if the learnt clause did not fit, the search went back. -/
inductive Handled where
  | learnt
  | failed (e : SolverError)

/-- Learn from a conflict above level zero, and go back. -/
def handleConflict (e : Engine) (conflict : Conflict) : Except Fault (Handled × Engine) :=
  let trailSize := e.trail.size
  match e.analyze conflict with
  | .error fault => .error fault
  | .ok (e, learnt) =>
    let e := e.cancelTo learnt.level
    match e.addLearnt learnt with
    | .error err => .ok (.failed err, e)
    | .ok e => .ok (.learnt, e.decayActivities.noteConflict learnt.lbd trailSize)

end Engine

namespace Solver

/-- Was a stop requested? The listener is asked only if the user did not. -/
def stopRequested (s : Solver) : Bool × Solver :=
  if s.interrupted then (true, s)
  else
    let (stop, listener) := s.listener.poll
    (stop, { s with listener })

/-- Go back to level zero. -/
def restart (s : Solver) : Solver :=
  let s := s.mapEngine fun e =>
    let e := { e with policy := e.policy.noteRestart }
    (e.modifyStats fun st => { st with restarts := st.restarts + 1 }).cancelTo 0
  (s.notify .restarted).reportProgress

/-- Reduce the learnt clauses. -/
def reduce (s : Solver) : Except SolverError Bool × Solver :=
  let before := s.engine.learnts.size
  let s := s.mapEngine Engine.reduce
  (s.notify (.reduced before s.engine.learnts.size)).reportProgress.settle

/-- Collect the pure literals anew. -/
def findPureLits (s : Solver) : Solver :=
  let found :=
    if s.engine.opts.pureLiterals then s.engine.pureLits s.assumptions.toList else []
  let s := { s with pureLits := found.toArray, pureLitsStale := false }
  s.mapEngine (·.modifyStats fun st => { st with pureLiterals := st.pureLiterals + found.length })

/-- How the upkeep at level zero ended. -/
inductive Upkeep where
  | refuted
  | failed (e : SolverError)
  /-- Clauses put back to work gave new facts to propagate. -/
  | propagateFirst
  | done

/-- Reduce the learnt clauses if it is due. -/
def reduceIfDue (s : Solver) : Upkeep × Solver :=
  if s.engine.isReductionDue then
    match s.reduce with
    | (.error e, s) => (.failed e, s)
    | (.ok _, s) => (if s.engine.trail.isPropagated then .done else .propagateFirst, s)
  else (.done, s)

/-- Simplify, reduce if it is due, and find pure literals if those known may be out of date. -/
def upkeep (s : Solver) : Upkeep × Solver :=
  match s.simplify with
  | (.error e, s) => (.failed e, s)
  | (.ok false, s) => (.refuted, s)
  | (.ok true, s) =>
    match s.reduceIfDue with
    | (.done, s) => (.done, if s.pureLitsStale then s.findPureLits else s)
    | other => other

/-- Assume or decide the next literal. -/
def branch (s : Solver) : StepResult × Solver :=
  let toAssume := s.assumptions.toList.map (·, true) ++ s.pureLits.toList.map (·, false)
  -- Every open level belongs to a literal to assume, as far as there are any.
  match s.engine.openAssumed (toAssume.drop s.engine.trail.level) with
  | (.next l, e) => (.continue, { s with engine := e.decide l })
  | (.violated l, e) =>
    let (engine, core) := e.analyzeFinal l.neg
    (.finished .unsat, { s with engine, core })
  | (.all, e) =>
    let e := e.modifyStats fun st => { st with decisions := st.decisions + 1 }
    match e.pickLit with
    | (none, engine) => (.finished .sat, { s with engine })
    | (some l, e) => (.continue, { s with engine := e.decide l })

/-- Is no limit reached? The clock is looked at only if the time is limited and no other limit is
reached. -/
def withinBudget (s : Solver) : Bool × Solver :=
  if s.budget.isOpen s.engine.stats then
    match s.budget.deadline with
    | none => (true, s)
    | some deadline =>
      let (now, listener) := s.listener.readClock
      (now < deadline, { s with listener })
  else (false, s)

/-- One step of the search after a propagation without conflict. -/
def advance (s : Solver) : StepResult × Solver :=
  match s.withinBudget with
  | (false, s) => (.finished .unknown, s)
  | (true, s) =>
    -- The budget comes first: a search that gives up does not restart beforehand.
    let s := if s.engine.policy.restartPending then s.restart else s
    if s.engine.trail.level = 0 then
      match s.upkeep with
      | (.refuted, s) => (.finished .unsat, s)
      | (.failed e, s) => (.failed e, s)
      | (.propagateFirst, s) => (.continue, s)
      | (.done, s) => s.branch
    else s.branch

/-- One step of the search: propagate, then learn from a conflict or go on. -/
def searchStep (s : Solver) : Except Fault (StepResult × Solver) :=
  match s.stopRequested with
  | (true, s) => .ok (.finished .interrupted, s)
  | (false, s) =>
    match s.engine.propagate with
    | (e, none) => .ok ({ s with engine := e }.advance)
    | (e, some conflict) =>
      let e := e.modifyStats fun st => { st with conflicts := st.conflicts + 1 }
      if e.trail.level = 0 then .ok (.finished .unsat, { s with engine := e })
      else
        match e.handleConflict conflict with
        | .error fault => .error fault
        | .ok (.failed err, engine) => .ok (.failed err, { s with engine })
        | .ok (.learnt, engine) => .ok (.continue, { s with engine })

/-- How a search ended. -/
abbrev Outcome := Except SolverError Status

/-- Search, with an allowance of steps. -/
def search : Nat → Solver → Except Fault (Outcome × Solver)
  | 0, _ => .error .stepsExhausted
  | n + 1, s =>
    match s.searchStep with
    | .error fault => .error fault
    | .ok (.continue, s) => search n s
    | .ok (.finished status, s) => .ok (.ok status, s)
    | .ok (.failed err, s) => .ok (.error err, s)

/-- Check the assumptions against the facts and each other, in order. The answer is a core if
they are contradictory. -/
def contradiction? (t : Trail) : List Lit → DenseSet Lit → Option (DenseSet Lit)
  | [], _ => none
  | l :: rest, before =>
    if t.factValue l = .no then some (DenseSet.empty.insert l.neg)
    else if before.contains l.neg then some ((DenseSet.empty.insert l).insert l.neg)
    else contradiction? t rest (before.insert l)

/-- Simplify, and vivify if the options say so. -/
def prepare (s : Solver) : Except SolverError Bool × Solver :=
  let minSize := s.engine.opts.vivifyMinSize
  match s.simplify with
  | (.ok true, s) => if 0 < minSize then s.vivifyQuietly minSize else (.ok true, s)
  | other => other

/-- Simplify, vivify if the options say so, and search. -/
def prepareAndSearch (steps : Nat) (s : Solver) : Except Fault (Outcome × Solver) :=
  match s.prepare with
  | (.error e, s) => .ok (.error e, s)
  | (.ok false, s) => .ok (.ok .unsat, s)
  | (.ok true, s) => search steps { s with pureLitsStale := true }

/-- Find out about the clauses under the assumptions. -/
def decideStatus (steps : Nat) (s : Solver) : Except Fault (Outcome × Solver) :=
  match s.stopRequested with
  | (true, s) => .ok (.ok .interrupted, s)
  | (false, s) =>
    match contradiction? s.engine.trail s.assumptions.toList {} with
    | some core => .ok (.ok .unsat, { s with core })
    | none => prepareAndSearch steps s

/-- The values of all variables. -/
def currentModel (e : Engine) : Model := (e.vars.map e.trail.value).toArray

/-- Take down what a search found, before it is undone. -/
def takeResult (s : Solver) : Status → Solver
  | .sat => { s with model := currentModel s.engine }
  | .interrupted => { s with model := currentModel s.engine, interrupted := false }
  -- Without a core no assumption is to blame, so the clauses themselves are contradictory.
  | .unsat => if s.core.isEmpty then s.mapEngine Engine.refute else s
  | .unknown => s

/-- Undo the search: back to level zero, without pure literals. -/
def leaveSearch (s : Solver) (status : Status) : Solver :=
  { s.mapEngine (·.cancelTo 0) with pureLits := #[], status }

/-- Fix the moment at which a solve that begins now has to give up, if its time is limited. -/
def setDeadline (s : Solver) : Solver :=
  match s.budget.time with
  | none => { s with budget := { s.budget with deadline := none } }
  | some time =>
    let (now, listener) := s.listener.readClock
    { s with listener, budget := { s.budget with deadline := some (now + time) } }

/-- Will the clock ever show the deadline? -/
def deadlineShows (s : Solver) : Bool := s.budget.deadline.all (· < Listener.clockEnd)

/-- Solve the clauses under the assumptions, which stay. -/
def solveKeeping (steps : Nat) (s : Solver) : Except Fault (Outcome × Solver) :=
  let s := { s with model := #[], core := s.core.clear }
  if !s.engine.ok then .ok (.ok .unsat, { s with status := .unsat })
  else
    let s := s.setDeadline
    if s.deadlineShows then
      let s := s.mapEngine (·.modifyStats fun st => { st with solves := st.solves + 1 })
      match decideStatus steps (s.notify .started) with
      | .error fault => .error fault
      | .ok (.error err, s) => .ok (.error err, s.leaveSearch .unknown)
      | .ok (.ok status, s) =>
        .ok (.ok status, ((s.takeResult status).leaveSearch status).notify (.finished status))
    else .error .deadlineTooLate

/-- Solve the clauses under the assumptions, which are used up by it. At most `steps` steps of
search are made. -/
def solve (steps : Nat) (s : Solver) : Except Fault (Outcome × Solver) :=
  match solveKeeping steps s with
  | .error fault => .error fault
  | .ok (outcome, s) => .ok (outcome, { s with assumptions := #[] })

/-- Add assumptions in order, up to one that is not acceptable. -/
def addAssumptions (s : Solver) : List Lit → Except SolverError Solver
  | [] => .ok s
  | l :: rest =>
    match s.addAssumption l with
    | .error e => .error e
    | .ok s => s.addAssumptions rest

/-- Add assumptions, and solve. If one is not acceptable, all are dropped. -/
def solveWith (steps : Nat) (s : Solver) (assumptions : List Lit) :
    Except Fault (Outcome × Solver) :=
  match s.addAssumptions assumptions with
  | .error e => .ok (.error e, { s with assumptions := #[] })
  | .ok s => s.solve steps

end Solver

end Cdcl

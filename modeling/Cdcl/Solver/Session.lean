import Cdcl.Solver.Invariant
import Cdcl.Solver.Query

/-!
# Sessions

A session is a sequence of calls on one solver. A call is answered with a value or an error, and
the session goes on; if a call meets a fault, the session ends with it.
-/

namespace Cdcl

/-- What can be asked of a solver. -/
inductive Question where
  | assumptions
  | isStopped
  | status
  | statusName
  | isOk
  | varValue (v : Var)
  | litValue (l : Lit)
  | factValue (l : Lit)
  | varLevel (v : Var)
  | model
  | core
  | facts
  | coreHasLit (l : Lit)
  | coreHasVar (v : Var)
  | learnts
  | given
  | lbdCounts
  | validate
  | checkInvariants
  | statistics
  | counts
  | summary
  /-- The bytes that the solver takes, its vectors having room for so much. -/
  | footprint (held : Solver.Holdings)
  | report (held : Solver.Holdings)
  | restartPolicy

/-- What a solver can be told to do, apart from solving. -/
inductive Command where
  | newVar (polarity : Truth) (decision : Bool)
  | ensureVars (n : Nat)
  | addClause (c : List Lit)
  | addAssumption (l : Lit)
  /-- Exclude the model on the first `n` variables. -/
  | block (n : Nat)
  | simplify
  | vivify (minSize : Nat)
  | setDecision (v : Var) (allowed : Bool)
  | setPolarity (v : Var) (positive : Bool)
  | limitConflicts (n : Nat)
  | limitPropagations (n : Nat)
  | limitRestarts (n : Nat)
  /-- Limit the time of a solve, in nanoseconds. -/
  | limitTime (n : Nat)
  | unlimit
  | stop
  | setStopRule (rule : Option (Nat → Bool))
  | setVerbosity (n : Nat)
  | takeEvents

/-- Limit the time of a solve, in seconds. -/
def Command.limitSeconds (n : Nat) : Command := .limitTime (n * Listener.second)

/-- A call on a solver. -/
inductive Call where
  | ask (q : Question)
  | obey (c : Command)
  /-- Solve under the assumptions made so far and these. -/
  | solve (assumptions : List Lit)

/-- What a call is answered with. -/
inductive Answer where
  | nothing
  | variable (v : Var)
  | boolean (b : Bool)
  | number (n : Nat)
  | level (n : Option Nat)
  | truth (t : Truth)
  | status (s : Status)
  | text (t : String)
  | lits (ls : List Lit)
  | clauses (cs : List (List Lit))
  /-- A clause that was added, and what came of it. -/
  | blocked (c : List Lit) (result : Except SolverError Bool)
  | numbers (ns : List Nat)
  | model (m : Model)
  | events (es : List Event)
  | lines (ls : List String)
  | statistics (s : Statistics)
  | policy (p : RestartPolicy)
  | error (e : SolverError)

namespace Solver

/-- The new state, or an error and the old state. -/
def acting (s : Solver) : Except SolverError Solver → Answer × Solver
  | .ok new => (.nothing, new)
  | .error e => (.error e, s)

/-- The answer of a simplification, or of a clause that is added. -/
def answering : Except SolverError Bool × Solver → Answer × Solver
  | (.ok b, s) => (.boolean b, s)
  | (.error e, s) => (.error e, s)

/-- The answer of a solve. -/
def solved : Outcome × Solver → Answer × Solver
  | (.ok status, s) => (.status status, s)
  | (.error e, s) => (.error e, s)

/-- Add the clause that excludes the model on the first `n` variables. -/
def block (s : Solver) (n : Nat) : Answer × Solver :=
  let c := s.model.blockingClause n
  let (result, s) := s.addClause c
  (.blocked c result, s)

/-- Change the budget, given the statistics so far. -/
def limit (s : Solver) (f : Statistics → Budget → Budget) : Answer × Solver :=
  (.nothing, { s with budget := f s.engine.stats s.budget })

/-- Answer a question, which changes nothing. -/
def ask (s : Solver) : Question → Answer
  | .assumptions => .lits s.assumptions.toList
  | .isStopped => .boolean s.interrupted
  | .status => .status s.status
  | .statusName => .text s.status.name
  | .isOk => .boolean s.engine.ok
  | .varValue v => .truth (s.model.value v)
  | .litValue l => .truth (s.model.valueLit l)
  | .factValue l => .truth (s.factValue l)
  | .varLevel v => .level (s.varLevel v)
  | .model => .model s.model
  | .core => .lits s.core.toList
  | .facts => .lits s.engine.trail.facts
  | .coreHasLit l => .boolean (s.core.contains l)
  | .coreHasVar v => .boolean (s.coreHasVar v)
  | .learnts => .clauses s.learntClauses
  | .given => .clauses s.given.clauses
  | .lbdCounts => .numbers s.engine.lbdCounts.values.toList
  | .validate => .boolean s.validate
  | .checkInvariants => .boolean s.checkInvariants
  | .statistics => .statistics s.engine.stats
  | .counts => .numbers s.counts
  | .summary => .lines s.summary
  | .footprint held => .number (s.footprint held)
  | .report held => .lines (s.report held)
  | .restartPolicy => .policy s.engine.opts.restarts

/-- Do what a command says. It makes no search, and so never meets a fault. -/
def obey (s : Solver) : Command → Answer × Solver
  | .newVar polarity decision =>
    let (v, s) := s.newVar polarity decision
    (.variable v, s)
  | .ensureVars n =>
    let s := s.ensureVars n
    (.number s.engine.numVars, s)
  | .addClause c => answering (s.addClause c)
  | .addAssumption l => s.acting (s.addAssumption l)
  | .block n => s.block n
  | .simplify => answering s.simplify
  | .vivify minSize => answering (s.vivify minSize)
  | .setDecision v allowed => s.acting (s.setDecision v allowed)
  | .setPolarity v positive => s.acting (s.setPolarity v positive)
  | .limitConflicts n => s.limit fun st b => { b with conflicts := some (st.conflicts + n) }
  | .limitPropagations n =>
    s.limit fun st b => { b with propagations := some (st.propagations + n) }
  | .limitRestarts n => s.limit fun st b => { b with restarts := some (st.restarts + n) }
  | .limitTime n => s.limit fun _ b => { b with time := some n }
  | .unlimit => s.limit fun _ _ => {}
  | .stop => (.nothing, { s with interrupted := true })
  | .setStopRule rule => (.nothing, { s with listener := s.listener.setStopRule rule })
  | .setVerbosity n => (.number n, { s with verbosity := n })
  | .takeEvents =>
    let (events, listener) := s.listener.takeEvents
    (.events events, { s with listener })

/-- Answer a call. A solve makes at most `steps` steps of search. -/
def call (steps : Nat) (s : Solver) : Call → Except Fault (Answer × Solver)
  | .ask q => .ok (s.ask q, s)
  | .obey c => .ok (s.obey c)
  | .solve assumptions => (s.solveWith steps assumptions).map solved

/-- Answer calls in order, up to one that meets a fault. -/
def run (steps : Nat) (s : Solver) : List Call → Except Fault (List Answer × Solver)
  | [] => .ok ([], s)
  | c :: rest =>
    match s.call steps c with
    | .error fault => .error fault
    | .ok (answer, s) =>
      match s.run steps rest with
      | .error fault => .error fault
      | .ok (answers, s) => .ok (answer :: answers, s)

end Solver

end Cdcl

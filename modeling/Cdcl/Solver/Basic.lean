import Cdcl.Data.ClauseLog
import Cdcl.Search.Analysis
import Cdcl.Search.Compaction
import Cdcl.Search.PureLiterals
import Cdcl.Search.Reduction
import Cdcl.Search.Simplification
import Cdcl.Search.Vivification
import Cdcl.Solver.Listener

/-!
# The solver

A solver is a search engine together with what its user gives it and gets from it: clauses,
assumptions, budgets, a listener; a model or a core.
-/

namespace Cdcl

/-- Limits on a search, as values of the statistics at which it gives up, and on the time it takes. -/
structure Budget where
  conflicts : Option Nat := none
  propagations : Option Nat := none
  restarts : Option Nat := none
  /-- The nanoseconds that a solve may take. -/
  time : Option Nat := none
  /-- What the clock shows when the current solve has to give up. -/
  deadline : Option Nat := none
  deriving DecidableEq, Repr

namespace Budget

/-- Is the limit, if there is one, still ahead? -/
def allows (limit : Option Nat) (n : Nat) : Bool := limit.all (n < ·)

/-- Is no limit on the statistics reached? -/
def isOpen (b : Budget) (s : Statistics) : Bool :=
  allows b.conflicts s.conflicts && allows b.propagations s.propagations &&
    allows b.restarts s.restarts

end Budget

structure Solver where
  engine : Engine
  /-- The values found by the latest solve, if it ended with any. -/
  model : Model := #[]
  /-- The opposites of assumptions that cannot hold together. -/
  core : DenseSet Lit := {}
  /-- Literals assumed by the next solve. -/
  assumptions : Array Lit := #[]
  /-- Pure literals assumed after the assumptions, for the current solve. -/
  pureLits : Array Lit := #[]
  pureLitsStale : Bool := true
  /-- The clauses as they were given, if they are kept. -/
  given : ClauseLog := {}
  status : Status := .unknown
  /-- A stop was requested and not answered yet. -/
  interrupted : Bool := false
  budget : Budget := {}
  verbosity : Nat := 0
  listener : Listener := {}

namespace Solver

/-- A solver without variables and clauses. The options must pass their check, and there must be room for
the windows that they ask for. -/
def create (opts : Options) (listener : Listener) : Except Fault Solver :=
  if !opts.check then .error .invalidOptions
  else if opts.windowsFit then .ok { engine := .initial opts, listener }
  else .error .windowTooLarge

theorem create_eq_ok_iff {opts : Options} {listener : Listener} {s : Solver} :
    create opts listener = .ok s ↔
      opts.check = true ∧ opts.windowsFit = true ∧ s = { engine := .initial opts, listener } := by
  unfold create
  cases opts.check <;> cases opts.windowsFit <;> simp [eq_comm]

def notify (s : Solver) (e : Event) : Solver := { s with listener := s.listener.notify e }

def mapEngine (s : Solver) (f : Engine → Engine) : Solver := { s with engine := f s.engine }

/-- Tell the listener how far the search is, if the solver is to be verbose. -/
def reportProgress (s : Solver) : Solver :=
  if s.verbosity = 0 then s
  else
    let e := s.engine
    s.notify <| .progressed
      { conflicts := e.stats.conflicts
        restarts := e.stats.restarts
        reductions := e.stats.reductions
        originals := e.tally.originals
        binary := e.tally.originalBinary + e.tally.learntBinary
        learnts := e.tally.learnts
        frozen := e.tally.frozen
        lbdMean := e.policy.lbdMean.mean
        estimate := e.progressEstimate }

/-- Compact the arena if too much of it is wasted. -/
def collectGarbage (s : Solver) : Except SolverError Solver :=
  if s.engine.isWasteful then
    match s.engine.compact with
    | .error e => .error e
    | .ok engine => .ok ({ s with engine }.notify (.compacted s.engine.arenaBytes engine.arenaBytes))
  else .ok s

/-- Compact the arena if too much of it is wasted, after clauses were found consistent. -/
def settle (s : Solver) : Except SolverError Bool × Solver :=
  match s.collectGarbage with
  | .ok s => (.ok true, s)
  | .error e => (.error e, s)

/-- Simplify the clauses by the facts at level zero. False means that they are contradictory. -/
def simplify (s : Solver) : Except SolverError Bool × Solver :=
  match s.engine.simplify with
  | (.refuted, engine) => (.ok false, { s with engine })
  | (.upToDate, engine) => (.ok true, { s with engine })
  | (.done, engine) => ({ s with engine, pureLitsStale := true }.notify .simplified).settle

/-- Simplify and vivify the clauses, without changing the status. -/
def vivifyQuietly (s : Solver) (minSize : Nat) : Except SolverError Bool × Solver :=
  match s.simplify with
  | (.ok true, s) =>
    let s := s.mapEngine (·.vivifyAll minSize)
    if s.engine.ok then s.settle else (.ok false, s)
  | other => other

/-- Shorten original clauses of at least `minSize` literals where the others imply a part of
them. False means that the clauses are contradictory. -/
def vivify (s : Solver) (minSize : Nat) : Except SolverError Bool × Solver :=
  match s.vivifyQuietly minSize with
  | (.ok false, s) => (.ok false, { s with status := .unsat })
  | other => other

/-! ### Variables and clauses -/

/-- Create a variable, with the polarity to try first; `decision` says whether it may be
decided. -/
def newVar (s : Solver) (polarity : Truth) (decision : Bool) : Var × Solver :=
  let (v, engine) := s.engine.newVar polarity decision
  (v, { s with engine })

/-- Create `n` variables with the default polarity. -/
def newVars : Nat → Solver → Solver
  | 0, s => s
  | n + 1, s => newVars n (s.newVar .undecided true).2

/-- Create variables until there are at least `n`. -/
def ensureVars (s : Solver) (n : Nat) : Solver := newVars (n - s.engine.numVars) s

/-- Has the variable been created? -/
def checkVar (s : Solver) (v : Var) : Except SolverError Unit :=
  if v.index < s.engine.numVars then .ok () else .error (.unknownVar v)

/-- Is this a literal of a variable that has been created? -/
def checkLit (s : Solver) (l : Lit) : Except SolverError Unit :=
  if l.isSentinel then .error (.invalidLit l) else s.checkVar l.var

/-- Allow or forbid decisions on a variable. -/
def setDecision (s : Solver) (v : Var) (allowed : Bool) : Except SolverError Solver :=
  match s.checkVar v with
  | .error e => .error e
  | .ok () => .ok (s.mapEngine (·.setDecision v allowed))

/-- Choose the polarity to try next for a variable. -/
def setPolarity (s : Solver) (v : Var) (positive : Bool) : Except SolverError Solver :=
  match s.checkVar v with
  | .error e => .error e
  | .ok () =>
    .ok (s.mapEngine fun e => { e with branching := e.branching.setPolarity v positive })

/-- Drop repeated and false literals from a clause in order; `none` if a literal is true or the
opposite of the one before. -/
def normalizeFrom (t : Trail) (last : Lit) : List Lit → Option (List Lit)
  | [] => some []
  | l :: rest =>
    match t.valueLit l with
    | .yes => none
    | value =>
      -- In order of literals, the two literals of a variable are neighbours.
      if l = last.neg then none
      else if value = .no || l = last then normalizeFrom t last rest
      else (normalizeFrom t l rest).map (l :: ·)

/-- The clause in order without repeated and false literals; `none` if it is satisfied at level
zero or a tautology. -/
def normalize (t : Trail) (c : List Lit) : Option (List Lit) :=
  normalizeFrom t .missing (sortLits c)

/-- Add a normalized clause to the engine. -/
def addNormalized (e : Engine) (c : List Lit) : Except SolverError Engine :=
  match c with
  | [] => .ok e.refute
  | [l] => .ok (e.addFact l)
  | [a, b] => .ok (e.addBinary a b false)
  | _ => e.storeOriginal c.toArray

/-- Keep a clause as it was given, if the options say so. -/
def record (s : Solver) (c : List Lit) : Solver :=
  if s.engine.opts.keepOriginals then { s with given := s.given.push c } else s

/-- Take back the clause that was kept last. -/
def unrecord (s : Solver) : Solver :=
  if s.engine.opts.keepOriginals then { s with given := s.given.pop } else s

/-- Take in a clause of known literals that was recorded. False means that the clauses are contradictory. -/
def takeIn (s : Solver) (c : List Lit) : Except SolverError Bool × Solver :=
  if !s.engine.ok then (.ok false, s)
  else
    match normalize s.engine.trail c with
    | none => (.ok true, { s with status := .unknown })
    | some lits =>
      match addNormalized s.engine lits with
      -- If there is no room for the clause, it is as if it had never been given.
      | .error e => (.error e, s.unrecord)
      | .ok engine =>
        (.ok engine.ok, { s with engine, status := if engine.ok then .unknown else .unsat })

/-- Add a clause. False means that the clauses are contradictory. -/
def addClause (s : Solver) (c : List Lit) : Except SolverError Bool × Solver :=
  match c.forM s.checkLit with
  | .error e => (.error e, s)
  | .ok () => (s.record c).takeIn c

/-- Assume a literal in the next solve. -/
def addAssumption (s : Solver) (l : Lit) : Except SolverError Solver :=
  match s.checkLit l with
  | .error e => .error e
  | .ok () => .ok { s with assumptions := s.assumptions.push l }

end Solver

end Cdcl
